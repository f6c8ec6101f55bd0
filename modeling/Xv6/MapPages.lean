import Mathlib
import Xv6.PageTable

/-!
# `map_pages`

`map_pages(pgdir, va, size, pa, perm)` walks the pages from `pg_rounddown va` to
`pg_rounddown (va + size - 1)` one after the other (`pageAt`, `pageCount`), allocating a page
table where the directory has none, and stores an entry for each page. For a range that does not
wrap, the loop ends by its `a == last` test, so its turns are as many as the pages
(`mapPagesLoop_fuel`), and its run is described by `MapResult`:

* when it returns `true`, each page of the range is mapped to its page from `pa` with
  `perm | P`, every other entry is as it was or, in a page table it added, null, and the directory
  gained only page tables from the free list (`MapsRange`);
* it panics only with `"remap"`, on a page of the range that was mapped;
* it returns `false` only when the free list runs out for a missing page table.

An entry stores the page of `pa + (a - pg_rounddown va)`, rounded down: an address `pa` inside a
page is not kept (`map_pages_unaligned`). And a missing page table that the free list cannot
supply ends the run with `false` before a mapped page later in the range is reached, which then
does not panic (`map_pages_remap_late`).
-/

namespace Xv6

open Machine

/-- The page that the loop of `map_pages` visits after `j` turns from `a0`. -/
def pageAt (a0 : UInt32) (j : Nat) : UInt32 := a0 + UInt32.ofNat (j * PGSIZE)

theorem pageAt_eq (a0 : UInt32) (j : Nat) : pageAt a0 j = a0 + UInt32.ofNat (j * PGSIZE) := rfl

/-- The turns of `map_pages`'s loop for `va` and `size`: the pages from `pg_rounddown va` to
`pg_rounddown (va + size - 1)`. -/
def pageCount (va size : UInt32) : Nat :=
  (pg_rounddown (va + size - 1) - pg_rounddown va).toNat / PGSIZE + 1

theorem map_pages_eq (s : VmState) (pgdir va size pa perm : UInt32) :
    map_pages s pgdir va size pa perm =
      mapPagesLoop pgdir (pg_rounddown (va + size - 1)) perm (pageCount va size) (pg_rounddown va)
        pa s := rfl

/-- `x` lies in one of the `c` pages from `a0`. -/
def inPages (a0 : UInt32) (c : Nat) (x : UInt32) : Prop :=
  a0.toNat ≤ (pg_rounddown x).toNat ∧ (pg_rounddown x).toNat < a0.toNat + c * PGSIZE

/-- `s'` has the entries of `s`, with page tables from the free list of `s` added where the
directory had none; their entries read as null. -/
structure Grows (s s' : VmState) (pgdir : UInt32) : Prop where
  entry : ∀ x, s'.entry pgdir x = s.entry pgdir x ∨
    (s.entry pgdir x = none ∧ s'.entry pgdir x = some PTE.NULL)
  pde : ∀ x, s'.pde pgdir x = s.pde pgdir x ∨ ((s.pde pgdir x).isPresent = false ∧
    ∃ f ∈ s.freelist, s'.pde pgdir x = PTE.new (v2p f) (PTE.P ||| PTE.W ||| PTE.U))
  freelist : s'.freelist = s.freelist ∨ s'.freelist = s.freelist.tail

/-- What a completed `map_pages` over the `c` pages from `a0`, to the pages from `pa`, leaves of
the page table of `s`: each of those pages mapped with `perm | P`; every other entry as it was,
or null in a page table that it added; every directory entry as it was, or the entry of a page
table taken from the free list. -/
structure MapsRange (s s' : VmState) (pgdir a0 pa perm : UInt32) (c : Nat) : Prop where
  mapped : ∀ x, inPages a0 c x → s'.entry pgdir x =
    some (PTE.new (pa + UInt32.ofNat ((pg_rounddown x).toNat - a0.toNat)) (perm ||| PTE.P))
  frame : ∀ x, ¬ inPages a0 c x → s'.entry pgdir x = s.entry pgdir x ∨
    (s.entry pgdir x = none ∧ s'.entry pgdir x = some PTE.NULL)
  pde : ∀ x, s'.pde pgdir x = s.pde pgdir x ∨ ((s.pde pgdir x).isPresent = false ∧
    ∃ f ∈ s.freelist, s'.pde pgdir x = PTE.new (v2p f) (PTE.P ||| PTE.W ||| PTE.U))

/-- How the loop of `map_pages` over the `c` pages from `a0` ends, from the state `s`. -/
def MapResult (s : VmState) (pgdir a0 pa perm : UInt32) (c : Nat) :
    Outcome (Bool × VmState) → Prop
  | .ok (true, s') => (∀ j < c, s.mapped pgdir (pageAt a0 j) = false) ∧
    MapsRange s s' pgdir a0 pa perm c
  | .ok (false, s') => s'.freelist = [] ∧ s.freelist.length < c ∧
    ∃ j < c, (s.pde pgdir (pageAt a0 j)).isPresent = false
  | .panic msg => msg = "remap" ∧ ∃ j < c, s.mapped pgdir (pageAt a0 j) = true
  | .block => False
  | .ub => False

/-! ## Pages -/

section Pages

variable {a0 : UInt32}

theorem pageAt_toNat {j : Nat} (h : a0.toNat + j * PGSIZE < 2 ^ 32) :
    (pageAt a0 j).toNat = a0.toNat + j * PGSIZE := by
  simp only [pageAt_eq]
  rw [UInt32.toNat_add, UInt32.toNat_ofNat']
  unfold PGSIZE at h ⊢
  omega

theorem pageAt_succ (j : Nat) : pageAt a0 j + UInt32.ofNat PGSIZE = pageAt a0 (j + 1) := by
  simp only [pageAt_eq]
  rw [UInt32.add_assoc, ← UInt32.ofNat_add, Nat.succ_mul]

/-- The pages of `k + 1` turns are those of `k` turns and the page of turn `k`. -/
theorem inPages_succ {k : Nat} (ha0 : a0.toNat % PGSIZE = 0)
    (hk : a0.toNat + k * PGSIZE < 2 ^ 32) (x : UInt32) :
    inPages a0 (k + 1) x ↔ inPages a0 k x ∨ x.toNat / 4096 = (pageAt a0 k).toNat / 4096 := by
  unfold inPages
  rw [pg_rounddown_toNat, pageAt_toNat hk]
  unfold PGSIZE at ha0 ⊢
  omega

/-- The page of an address inside a page from a page boundary is that page. -/
theorem pg_rounddown_toNat_of_page {x a : UInt32} (ha : a.toNat % PGSIZE = 0)
    (h : x.toNat / 4096 = a.toNat / 4096) : (pg_rounddown x).toNat = a.toNat := by
  rw [pg_rounddown_toNat, h]
  unfold PGSIZE at ha
  omega

/-- The last address of a range that does not wrap. -/
theorem toNat_add_sub_one {va size : UInt32} (hsize : 1 ≤ size.toNat)
    (hwrap : va.toNat + size.toNat - 1 < 2 ^ 32) :
    (va + size - 1).toNat = va.toNat + size.toNat - 1 := by
  rw [UInt32.toNat_sub, UInt32.toNat_add]
  simp only [UInt32.toNat_one]
  omega

/-- For a range that does not wrap, the pages of `map_pages` run from `pg_rounddown va` up to
`pg_rounddown (va + size - 1)`, one page apart. -/
theorem pageCount_last {va size : UInt32} (hsize : 1 ≤ size.toNat)
    (hwrap : va.toNat + size.toNat - 1 < 2 ^ 32) :
    (pg_rounddown (va + size - 1)).toNat =
      (pg_rounddown va).toNat + (pageCount va size - 1) * PGSIZE := by
  have hend := toNat_add_sub_one hsize hwrap
  have hle : pg_rounddown va ≤ pg_rounddown (va + size - 1) := by
    rw [UInt32.le_iff_toNat_le, pg_rounddown_toNat, pg_rounddown_toNat, hend]
    exact Nat.mul_le_mul_right _ (Nat.div_le_div_right (by omega))
  have hsub := UInt32.toNat_sub_of_le _ _ hle
  unfold pageCount
  rw [hsub]
  rw [UInt32.le_iff_toNat_le, pg_rounddown_toNat, pg_rounddown_toNat] at hle
  rw [pg_rounddown_toNat, pg_rounddown_toNat] at ⊢
  unfold PGSIZE
  omega

/-- A range of whole pages from a page-aligned address takes a turn per page. -/
theorem pageCount_mul {va size : UInt32} (hva : va.toNat % PGSIZE = 0)
    (hs : size.toNat % PGSIZE = 0) (hsize : 1 ≤ size.toNat)
    (hwrap : va.toNat + size.toNat ≤ 2 ^ 32) : pageCount va size * PGSIZE = size.toNat := by
  have hwrap' : va.toNat + size.toNat - 1 < 2 ^ 32 := by omega
  have hlast := pageCount_last hsize hwrap'
  rw [pg_rounddown_toNat, pg_rounddown_toNat, toNat_add_sub_one hsize hwrap'] at hlast
  obtain ⟨n, hn⟩ : ∃ n, pageCount va size = n + 1 := ⟨_, rfl⟩
  rw [hn, Nat.add_sub_cancel] at hlast
  -- divided by the page size, which `omega` handles better than the products
  have hdiv : (va.toNat + size.toNat - 1) / 4096 = va.toNat / 4096 + n :=
    Nat.eq_of_mul_eq_mul_right (show 0 < 4096 by norm_num) (by rw [Nat.add_mul]; exact hlast)
  clear hlast
  rw [hn, Nat.succ_mul]
  unfold PGSIZE at hva hs ⊢
  omega

/-- A segment of whole pages from `va` up to the page boundary `top` ends at `top`. -/
theorem pageCount_segment {va size : UInt32} {top : Nat} (hva : va.toNat % PGSIZE = 0)
    (htop : top % PGSIZE = 0) (hlt : va.toNat < top) (h32 : top ≤ 2 ^ 32)
    (hsize : size.toNat = top - va.toNat) :
    va.toNat + pageCount va size * PGSIZE = top := by
  have hs : size.toNat % PGSIZE = 0 := by
    unfold PGSIZE at *
    omega
  rw [pageCount_mul hva hs (by omega) (by omega), hsize]
  omega

end Pages

/-! ## One walk with allocation -/

section Walk

variable {s s' : VmState} {pgdir a : UInt32}

theorem Grows.refl (s : VmState) (pgdir : UInt32) : Grows s s pgdir :=
  ⟨fun _ => Or.inl rfl, fun _ => Or.inl rfl, Or.inl rfl⟩

/-- A page table added by `walk_pgdir` grows the page table. -/
theorem grows_addTable {f : UInt32} {rest : List UInt32} (hd : DirOk s pgdir)
    (hf : FreeOk s pgdir) (ha : (s.pde pgdir a).isPresent = false)
    (hl : s.freelist = f :: rest) : Grows s (s.addTable pgdir a f rest) pgdir := by
  have hn := hf.newTable hl
  refine ⟨fun x => ?_, fun x => ?_, Or.inr (by simp [hl])⟩
  · rw [entry_addTable hd hn x]
    split_ifs with hdir
    · -- the 4 MB of the new page table had no entries
      exact Or.inr ⟨VmState.entry_of_absent (by rw [VmState.pde_congr hdir]; exact ha), rfl⟩
    · exact Or.inl rfl
  · rw [pde_addTable hd hn x]
    split_ifs with hdir
    · exact Or.inr ⟨by rw [VmState.pde_congr hdir]; exact ha, f, by simp [hl], rfl⟩
    · exact Or.inl rfl

/-- Growing keeps whether an address is mapped: a new entry is null. -/
theorem Grows.mapped_eq (hg : Grows s s' pgdir) (x : UInt32) :
    s'.mapped pgdir x = s.mapped pgdir x :=
  VmState.mapped_eq_of_entry (hg.entry x)

/-- A walk with allocation that finds a page table: the slot of `a` in it, in a grown page table
that is still well formed. -/
theorem walk_alloc_some (hd : DirOk s pgdir) (hf : FreeOk s pgdir) {pte : UInt32}
    (h : walk_pgdir s pgdir a true = (some pte, s')) :
    pte = s'.slot pgdir a ∧ (s'.pde pgdir a).isPresent = true ∧ DirOk s' pgdir ∧
      FreeOk s' pgdir ∧ Grows s s' pgdir := by
  by_cases hp : (s.pde pgdir a).isPresent
  · rw [walk_pgdir_of_present true hp] at h
    cases h
    exact ⟨rfl, hp, hd, hf, Grows.refl s pgdir⟩
  · -- the walk takes the head of the free list as the page table
    have ha : (s.pde pgdir a).isPresent = false := by simpa using hp
    cases hl : s.freelist with
    | nil =>
      rw [walk_pgdir_alloc_empty ha hl] at h
      cases h
    | cons f rest =>
      rw [walk_pgdir_alloc ha hl] at h
      cases h
      have hn := hf.newTable hl
      refine ⟨(slot_addTable hd hn).symm, ?_, hd.addTable hn, hf.addTable hd hl,
        grows_addTable hd hf ha hl⟩
      rw [pde_addTable hd hn a, if_pos rfl]
      exact PTE.isPresent_new_table _

/-- A walk with allocation finds no page table only when the directory has none for `a` and the
free list is empty; it then writes nothing. -/
theorem walk_alloc_none (h : walk_pgdir s pgdir a true = (none, s')) :
    s' = s ∧ s.freelist = [] ∧ (s.pde pgdir a).isPresent = false := by
  by_cases hp : (s.pde pgdir a).isPresent
  · rw [walk_pgdir_of_present true hp] at h
    cases h
  · have ha : (s.pde pgdir a).isPresent = false := by simpa using hp
    cases hl : s.freelist with
    | nil =>
      rw [walk_pgdir_alloc_empty ha hl] at h
      cases h
      exact ⟨rfl, rfl, ha⟩
    | cons f rest =>
      rw [walk_pgdir_alloc ha hl] at h
      cases h

end Walk

/-! ## The loop -/

section Loop

variable {s0 s sw : VmState} {pgdir a0 pa0 perm : UInt32} {k : Nat}

/-- Nothing is mapped yet before the first turn. -/
theorem MapsRange.zero (s : VmState) (pgdir a0 pa0 perm : UInt32) :
    MapsRange s s pgdir a0 pa0 perm 0 where
  mapped x hx := by
    unfold inPages at hx
    omega
  frame _ _ := Or.inl rfl
  pde _ := Or.inl rfl

/-- One turn of the loop at the `k`-th page, after a walk that grew the page table to `sw`: the
store of the page's entry extends the range mapped by one page. -/
theorem MapsRange.turn (hr : MapsRange s0 s pgdir a0 pa0 perm k)
    (hsub : ∀ f ∈ s.freelist, f ∈ s0.freelist) (hg : Grows s sw pgdir) (hd : DirOk sw pgdir)
    (hp : (sw.pde pgdir (pageAt a0 k)).isPresent = true) (ha0 : a0.toNat % PGSIZE = 0)
    (hk : a0.toNat + k * PGSIZE < 2 ^ 32) :
    MapsRange s0 (sw.store (sw.slot pgdir (pageAt a0 k))
      (PTE.new (pa0 + UInt32.ofNat (k * PGSIZE)) (perm ||| PTE.P))) pgdir a0 pa0 perm (k + 1) := by
  have hpage := pageAt_toNat hk
  have hal : (pageAt a0 k).toNat % PGSIZE = 0 := by
    rw [hpage]
    unfold PGSIZE at ha0 ⊢
    omega
  have hsucc := inPages_succ ha0 hk
  refine ⟨fun x hx => ?_, fun x hx => ?_, fun x => ?_⟩
  · rw [entry_store_slot hd hp]
    split_ifs with hsame
    · -- the page of this turn
      rw [pg_rounddown_toNat_of_page hal hsame, hpage, Nat.add_sub_cancel_left]
    · -- a page of an earlier turn: the walk did not touch its entry
      have hin : inPages a0 k x := ((hsucc x).mp hx).resolve_right hsame
      rcases hg.entry x with h | ⟨hnone, -⟩
      · exact h.trans (hr.mapped x hin)
      · rw [hr.mapped x hin] at hnone
        cases hnone
  · have hsame : ¬ x.toNat / 4096 = (pageAt a0 k).toNat / 4096 := fun h =>
      hx ((hsucc x).mpr (Or.inr h))
    have hout : ¬ inPages a0 k x := fun h => hx ((hsucc x).mpr (Or.inl h))
    rw [entry_store_slot hd hp, if_neg hsame]
    -- an entry is at most once made null: a null entry had none before
    rcases hg.entry x with h | ⟨hnone, hnull⟩
    · rw [h]
      exact hr.frame x hout
    · rcases hr.frame x hout with h0 | ⟨h0, -⟩
      · exact Or.inr ⟨h0 ▸ hnone, hnull⟩
      · exact Or.inr ⟨h0, hnull⟩
  · rw [pde_store_slot hd hp]
    rcases hg.pde x with h | ⟨habs, f, hf, hnew⟩
    · rw [h]
      exact hr.pde x
    · -- a directory entry added by the walk was missing in `s0` as well
      rcases hr.pde x with h0 | ⟨h0, -⟩
      · exact Or.inr ⟨h0 ▸ habs, f, hsub f hf, hnew⟩
      · exact Or.inr ⟨h0, f, hsub f hf, hnew⟩

/-- The `k`-th page has not been visited: its mapping is that of `s0`. -/
theorem MapsRange.mapped_eq (hr : MapsRange s0 s pgdir a0 pa0 perm k)
    (ha0 : a0.toNat % PGSIZE = 0) (hk : a0.toNat + k * PGSIZE < 2 ^ 32) :
    s.mapped pgdir (pageAt a0 k) = s0.mapped pgdir (pageAt a0 k) := by
  have hout : ¬ inPages a0 k (pageAt a0 k) := by
    unfold inPages
    rw [pg_rounddown_toNat, pageAt_toNat hk]
    unfold PGSIZE at ha0 ⊢
    omega
  exact VmState.mapped_eq_of_entry (hr.frame _ hout)

/-- The pages of the `c` turns up to `last` do not wrap. -/
theorem pageAt_bound {last : UInt32} {c k : Nat} (hlast : last.toNat = a0.toNat + (c - 1) * PGSIZE)
    (hk : k < c) : a0.toNat + k * PGSIZE < 2 ^ 32 := by
  have := last.toNat_lt
  have : k * PGSIZE ≤ (c - 1) * PGSIZE := Nat.mul_le_mul_right _ (by omega)
  omega

/-- The page of the `k`-th turn is `last` exactly at the last of the `c` turns. -/
theorem pageAt_beq_last {last : UInt32} {c k : Nat}
    (hlast : last.toNat = a0.toNat + (c - 1) * PGSIZE) (hk : k < c) :
    (pageAt a0 k == last) = true ↔ k = c - 1 := by
  rw [beq_iff_eq, ← UInt32.toNat_inj, pageAt_toNat (pageAt_bound hlast hk), hlast]
  constructor
  · intro h
    have : k * PGSIZE = (c - 1) * PGSIZE := by omega
    exact Nat.eq_of_mul_eq_mul_right (by unfold PGSIZE; omega) this
  · intro h
    rw [h]

/-- The run of the loop from its `k`-th page, with turns enough for the `c` pages: how it ends,
from the state `s0` before its first turn. The induction is on the turns left; the page table
after `k` turns maps the first `k` pages (`MapsRange`), is well formed, and has used at most one
free page a turn. -/
theorem mapPagesLoop_spec {last : UInt32} {c : Nat} (ha0 : a0.toNat % PGSIZE = 0)
    (hlast : last.toNat = a0.toNat + (c - 1) * PGSIZE) :
    ∀ (n k : Nat) (s : VmState), k < c → c ≤ k + n → DirOk s pgdir → FreeOk s pgdir →
      MapsRange s0 s pgdir a0 pa0 perm k → (∃ t ≤ k, s.freelist = s0.freelist.drop t) →
      (∀ j < k, s0.mapped pgdir (pageAt a0 j) = false) →
      MapResult s0 pgdir a0 pa0 perm c
        (mapPagesLoop pgdir last perm n (pageAt a0 k) (pa0 + UInt32.ofNat (k * PGSIZE)) s)
  | 0, k, s, hk, hn, _, _, _, _, _ => absurd hk (by omega)
  | n + 1, k, s, hk, hn, hd, hf, hr, ⟨t, ht, hfl⟩, hprev => by
    have hbound := pageAt_bound hlast hk
    have hsub : ∀ f ∈ s.freelist, f ∈ s0.freelist := fun f hf' =>
      List.mem_of_mem_drop (hfl ▸ hf')
    rw [mapPagesLoop]
    rcases hw : walk_pgdir s pgdir (pageAt a0 k) true with ⟨_ | pte, sw⟩
    · -- no page table and no free page: `false`, with the free list spent
      obtain ⟨rfl, hnil, habs⟩ := walk_alloc_none hw
      refine ⟨hnil, ?_, k, hk, ?_⟩
      · rw [hfl, List.drop_eq_nil_iff] at hnil
        omega
      · rcases hr.pde (pageAt a0 k) with h | ⟨h, -⟩
        · rwa [← h]
        · exact h
    · obtain ⟨rfl, hp, hdw, hfw, hg⟩ := walk_alloc_some hd hf hw
      have hmapped : sw.mapped pgdir (pageAt a0 k) = s0.mapped pgdir (pageAt a0 k) := by
        rw [hg.mapped_eq, hr.mapped_eq ha0 hbound]
      dsimp only
      by_cases hpres : (sw.load (sw.slot pgdir (pageAt a0 k))).isPresent
      · -- the page is mapped already
        rw [if_pos hpres]
        refine ⟨rfl, k, hk, ?_⟩
        rw [← hmapped]
        simp [VmState.mapped, VmState.entry, hp, hpres]
      · rw [if_neg hpres]
        have hr' := hr.turn hsub hg hdw hp ha0 hbound
        have hprev' : ∀ j < k + 1, s0.mapped pgdir (pageAt a0 j) = false := by
          intro j hj
          rcases Nat.lt_succ_iff_lt_or_eq.mp hj with hj | rfl
          · exact hprev j hj
          · rw [← hmapped]
            simp [VmState.mapped, VmState.entry, hp, hpres]
        have hlastk := pageAt_beq_last hlast hk
        by_cases hend : (pageAt a0 k == last) = true
        · -- the last page: the whole range is mapped
          rw [if_pos hend]
          have hc : k + 1 = c := by
            have := hlastk.mp hend
            omega
          rw [hc] at hr' hprev'
          exact ⟨hprev', hr'⟩
        · -- the next page, with the free list used at most once more
          rw [if_neg hend, pageAt_succ, UInt32.add_assoc, ← UInt32.ofNat_add, ← Nat.succ_mul]
          have hk' : k + 1 < c := by
            have : k ≠ c - 1 := fun h => hend (hlastk.mpr h)
            omega
          have hfl' : ∃ t ≤ k + 1, (sw.store (sw.slot pgdir (pageAt a0 k))
              (PTE.new (pa0 + UInt32.ofNat (k * PGSIZE)) (perm ||| PTE.P))).freelist =
              s0.freelist.drop t := by
            rcases hg.freelist with h | h
            · exact ⟨t, by omega, by rw [VmState.store_freelist, h, hfl]⟩
            · exact ⟨t + 1, by omega, by rw [VmState.store_freelist, h, hfl, List.tail_drop]⟩
          exact mapPagesLoop_spec ha0 hlast n (k + 1) _ hk' (by omega) (hdw.store_slot hp _)
            (hfw.store_slot hdw hp _) hr' hfl' hprev'

/-- The loop ends by its own test: from its `k`-th page, any number of turns enough for the `c`
pages gives the same run. -/
theorem mapPagesLoop_fuel {last : UInt32} {c : Nat}
    (hlast : last.toNat = a0.toNat + (c - 1) * PGSIZE) :
    ∀ (n m k : Nat) (pa : UInt32) (s : VmState), k < c → c ≤ k + n → c ≤ k + m →
      mapPagesLoop pgdir last perm n (pageAt a0 k) pa s =
        mapPagesLoop pgdir last perm m (pageAt a0 k) pa s
  | 0, _, k, _, _, hk, hn, _ => absurd hk (by omega)
  | _ + 1, 0, k, _, _, hk, _, hm => absurd hk (by omega)
  | n + 1, m + 1, k, pa, s, hk, hn, hm => by
    rw [mapPagesLoop, mapPagesLoop]
    rcases walk_pgdir s pgdir (pageAt a0 k) true with ⟨_ | pte, sw⟩
    · rfl
    · dsimp only
      split_ifs with hpres hend
      · rfl
      · rfl
      · -- not the last page: one more page to go on both sides
        have hk' : k + 1 < c := by
          have : k ≠ c - 1 := fun h => hend ((pageAt_beq_last hlast hk).mpr h)
          omega
        rw [pageAt_succ]
        exact mapPagesLoop_fuel hlast n m (k + 1) _ _ hk' (by omega) (by omega)

end Loop

/-! ## `map_pages` -/

section MapPages

variable {s : VmState} {pgdir va size pa perm : UInt32}

theorem pg_rounddown_aligned (x : UInt32) : (pg_rounddown x).toNat % PGSIZE = 0 := by
  rw [pg_rounddown_toNat]
  unfold PGSIZE
  omega

/-- How `map_pages` ends, for a range that does not wrap, from a well-formed directory and free
list: its loop from the first page, from the state before it. -/
theorem map_pages_result (hdir : DirOk s pgdir) (hfree : FreeOk s pgdir) (hsize : 1 ≤ size.toNat)
    (hwrap : va.toNat + size.toNat - 1 < 2 ^ 32) :
    MapResult s pgdir (pg_rounddown va) pa perm (pageCount va size)
      (map_pages s pgdir va size pa perm) := by
  have hc : 0 < pageCount va size := Nat.succ_pos _
  have hres : MapResult s pgdir (pg_rounddown va) pa perm (pageCount va size)
      (mapPagesLoop pgdir (pg_rounddown (va + size - 1)) perm (pageCount va size)
        (pageAt (pg_rounddown va) 0) (pa + UInt32.ofNat (0 * PGSIZE)) s) :=
    mapPagesLoop_spec (pg_rounddown_aligned va) (pageCount_last hsize hwrap) (pageCount va size) 0 s
      hc (by omega) hdir hfree
    (MapsRange.zero s pgdir _ pa perm) ⟨0, le_rfl, rfl⟩ (fun j hj => absurd hj (Nat.not_lt_zero j))
  have h0 : pageAt (pg_rounddown va) 0 = pg_rounddown va := by simp [pageAt_eq]
  have hpa : pa + UInt32.ofNat (0 * PGSIZE) = pa := by simp
  rwa [h0, hpa, ← map_pages_eq] at hres

/-- `map_pages` over a range that does not wrap, from a directory whose page tables are pages of
their own and a free list of other pages: its loop visits the pages from `pg_rounddown va` to
`pg_rounddown (va + size - 1)` and ends by its own test; it returns `true` having mapped each of
them, none mapped before, to its page from `pa` with `perm | P` and nothing else, or `false`
with the free list spent on missing page tables, or panics with `"remap"` on one of them that was
mapped; and when the free list holds a page for every page of the range, it panics exactly when
one of them was mapped. -/
theorem map_pages_spec (s : VmState) (pgdir va size pa perm : UInt32) (hdir : DirOk s pgdir)
    (hfree : FreeOk s pgdir) (hsize : 1 ≤ size.toNat)
    (hwrap : va.toNat + size.toNat - 1 < 2 ^ 32) :
    pageAt (pg_rounddown va) (pageCount va size - 1) = pg_rounddown (va + size - 1) ∧
    (∀ n, pageCount va size ≤ n →
      mapPagesLoop pgdir (pg_rounddown (va + size - 1)) perm n (pg_rounddown va) pa s =
        map_pages s pgdir va size pa perm) ∧
    ((∃ s', map_pages s pgdir va size pa perm = .ok (true, s') ∧
        (∀ j < pageCount va size, s.mapped pgdir (pageAt (pg_rounddown va) j) = false) ∧
        MapsRange s s' pgdir (pg_rounddown va) pa perm (pageCount va size)) ∨
      (∃ s', map_pages s pgdir va size pa perm = .ok (false, s') ∧ s'.freelist = [] ∧
        s.freelist.length < pageCount va size ∧
        ∃ j < pageCount va size, (s.pde pgdir (pageAt (pg_rounddown va) j)).isPresent = false) ∨
      (map_pages s pgdir va size pa perm = .panic "remap" ∧
        ∃ j < pageCount va size, s.mapped pgdir (pageAt (pg_rounddown va) j) = true)) ∧
    (pageCount va size ≤ s.freelist.length →
      (map_pages s pgdir va size pa perm = .panic "remap" ↔
        ∃ j < pageCount va size, s.mapped pgdir (pageAt (pg_rounddown va) j) = true)) := by
  have hlast := pageCount_last hsize hwrap
  have hc : 0 < pageCount va size := Nat.succ_pos _
  have hres : MapResult s pgdir (pg_rounddown va) pa perm (pageCount va size)
      (map_pages s pgdir va size pa perm) := map_pages_result hdir hfree hsize hwrap
  refine ⟨?_, fun n hn => ?_, ?_, fun henough => ?_⟩
  · -- the last page visited is `last`
    apply UInt32.toNat_inj.mp
    rw [pageAt_toNat (by have := (pg_rounddown (va + size - 1)).toNat_lt; omega), hlast]
  · -- more turns than pages change nothing
    have h0 : pageAt (pg_rounddown va) 0 = pg_rounddown va := by simp [pageAt_eq]
    rw [map_pages_eq, ← h0]
    exact mapPagesLoop_fuel hlast n _ 0 pa s hc (by omega) (by omega)
  · rcases hr : map_pages s pgdir va size pa perm with ⟨⟨b, s'⟩⟩ | msg | _ | _ <;>
      rw [hr] at hres
    · cases b
      · exact Or.inr (Or.inl ⟨s', rfl, hres⟩)
      · exact Or.inl ⟨s', rfl, hres⟩
    · obtain ⟨rfl, hj⟩ := hres
      exact Or.inr (Or.inr ⟨rfl, hj⟩)
    · exact hres.elim
    · exact hres.elim
  · -- with pages enough, `false` cannot happen, and a mapped page ends the run
    constructor
    · intro hpanic
      rw [hpanic] at hres
      exact hres.2
    · rintro ⟨j, hj, hm⟩
      rcases hr : map_pages s pgdir va size pa perm with ⟨⟨b, s'⟩⟩ | msg | _ | _ <;>
        rw [hr] at hres
      · cases b
        · exact absurd hres.2.1 (by omega)
        · rw [hres.1 j hj] at hm
          cases hm
      · rw [hres.1]
      · exact hres.elim
      · exact hres.elim

end MapPages

/-- Physical memory all zero: a directory at the physical page `0x1000` with no page table yet,
and the page `0x2000` free. -/
def emptyVm : VmState := ⟨fun _ => 0, [p2v 0x2000], p2v 0x3000⟩

/-- Physical memory all zero: a directory at the physical page `0x1000` with no page table yet,
and the pages `0x2000` and `0x3000` free. -/
def twoTablesVm : VmState := ⟨fun _ => 0, [p2v 0x2000, p2v 0x3000], p2v 0x4000⟩

/-- The two pages `0x3FF000` and `0x400000`, on either side of the boundary between directory
entries 0 and 1, mapped into the empty directory: the walk takes a free page as a page table for
each, and the pages' entries hold `0x8000` and `0x9000`. -/
theorem map_pages_two_tables :
    ∃ s', map_pages twoTablesVm (p2v 0x1000) 0x3FF000 0x2000 0x8000 (PTE.W ||| PTE.U) =
        .ok (true, s') ∧
      s'.entry (p2v 0x1000) 0x3FF123 = some (PTE.new 0x8000 (PTE.W ||| PTE.U ||| PTE.P)) ∧
      s'.entry (p2v 0x1000) 0x400456 = some (PTE.new 0x9000 (PTE.W ||| PTE.U ||| PTE.P)) := by
  have hpde : ∀ pgdir x, twoTablesVm.pde pgdir x = PTE.NULL := fun _ _ => rfl
  have habsent : ∀ x, (twoTablesVm.pde (p2v 0x1000) x).isPresent = false := fun x => by
    rw [hpde]
    rfl
  have hfree : ∀ f ∈ twoTablesVm.freelist, f = p2v 0x2000 ∨ f = p2v 0x3000 := by
    intro f hf
    simpa [twoTablesVm] using hf
  obtain ⟨-, -, hcases, -⟩ := map_pages_spec twoTablesVm (p2v 0x1000) 0x3FF000 0x2000 0x8000
    (PTE.W ||| PTE.U)
    ⟨by decide, fun x hx => absurd hx (by rw [habsent]; decide),
      fun x _ hx => absurd hx (by rw [habsent]; decide)⟩
    ⟨fun f hf => by rcases hfree f hf with rfl | rfl <;> rw [v2p_p2v] <;> decide,
      fun f hf => by rcases hfree f hf with rfl | rfl <;> rw [v2p_p2v, v2p_p2v] <;> decide,
      fun _ _ x hx => absurd hx (by rw [habsent]; decide), by decide⟩
    (by decide) (by decide)
  rcases hcases with ⟨s', hrun, -, hmap⟩ | ⟨s', -, -, hlen, -⟩ | ⟨-, j, -, hm⟩
  · refine ⟨s', hrun, ?_, ?_⟩
    · rw [hmap.mapped 0x3FF123 ⟨by decide, by decide⟩]
      rfl
    · rw [hmap.mapped 0x400456 ⟨by decide, by decide⟩]
      rfl
  · exact absurd hlen (by decide)
  · rw [VmState.mapped, VmState.entry_of_absent (habsent _)] at hm
    cases hm

/-- A directory at the physical page `0x1000` whose entry 1 names the page table at `0x2000`, in
which the page at `0x400000` is mapped to `0x3000`; entry 0 has no page table, and no page is
free. -/
def lateMapped : VmState where
  mem x := if x = 0x1004 then 0x07 else if x = 0x1005 then 0x20
    else if x = 0x2000 then 0x07 else if x = 0x2001 then 0x30 else 0
  freelist := []
  kend := p2v 0x4000

set_option maxRecDepth 20000 in
/-- Mapping the two pages `0x3FF000` and `0x400000` of `lateMapped`, the second of which is
mapped, returns `false` at the first, for want of a page table, and does not panic; and mapping a
page to `0x8001` enters the page `0x8000`. -/
theorem map_pages_late_remap_unaligned :
    lateMapped.mapped (p2v 0x1000) 0x400000 = true ∧
      (Prod.fst <$> map_pages lateMapped (p2v 0x1000) 0x3FF000 0x2000 0x5000 6) = .ok false ∧
      ((fun r => (r.2.entry (p2v 0x1000) 0).map PTE.address) <$>
        map_pages emptyVm (p2v 0x1000) 0 4096 0x8001 6) = .ok (some 0x8000) := by
  decide

end Xv6
