import Mathlib
import Xv6.MapPages

/-!
# The page tables `map_pages` adds, and the memory it writes

A run of `map_pages` over pages none of which is mapped completes when the free list has pages
enough. It takes a page table from the free list at the first page of each 4 MB region of the
range whose directory entry is missing, and at no other page, so it leaves the free list with
`newTables` pages fewer; it changes no directory entry of a region outside the range; and it
writes no byte outside the directory, its page tables and the free pages (`MayWrite`).
`FreshRun` carries these facts along the loop and `map_pages_fresh` states them for a whole run.
`newTables_eq` counts the page tables of a range whose regions past its first have none.
-/

namespace Xv6

open Machine

/-- The physical pages, by number, that `map_pages` on the directory `pgdir` may write from `s`:
the directory's, those of the page tables it names, and the free pages. -/
def MayWrite (s : VmState) (pgdir : UInt32) (p : Nat) : Prop :=
  p = (v2p pgdir).toNat / PGSIZE ∨
    (∃ y, (s.pde pgdir y).isPresent = true ∧ p = (s.pde pgdir y).address.toNat / PGSIZE) ∨
    ∃ f ∈ s.freelist, p = (v2p f).toNat / PGSIZE

/-- The page tables that the first `k` turns of `map_pages` from `a0` take from the free list of
`s0`: one at each page that starts a 4 MB region of the range, when its directory entry is
missing. -/
def newTables (s0 : VmState) (pgdir a0 : UInt32) : Nat → Nat
  | 0 => 0
  | k + 1 => newTables s0 pgdir a0 k +
    if (k = 0 ∨ (pageAt a0 k).toNat % 2 ^ 22 = 0) ∧ (s0.pde pgdir (pageAt a0 k)).isPresent = false
    then 1 else 0

theorem newTables_zero (s0 : VmState) (pgdir a0 : UInt32) : newTables s0 pgdir a0 0 = 0 := rfl

theorem newTables_step (s0 : VmState) (pgdir a0 : UInt32) (k : Nat) :
    newTables s0 pgdir a0 (k + 1) = newTables s0 pgdir a0 k +
      if (k = 0 ∨ (pageAt a0 k).toNat % 2 ^ 22 = 0) ∧ (s0.pde pgdir (pageAt a0 k)).isPresent = false
      then 1 else 0 := rfl

/-- What the first `k` turns of `map_pages` from `a0` leave of `s0`, besides the entries
(`MapsRange`): the free list without the page tables taken, the directory entries of the regions
visited present and the others as they were, the memory as it was outside the pages it may
write, and `end` as it was. -/
structure FreshRun (s0 s : VmState) (pgdir a0 : UInt32) (k : Nat) : Prop where
  freelist : s.freelist = s0.freelist.drop (newTables s0 pgdir a0 k)
  visited : ∀ j < k, (s.pde pgdir (pageAt a0 j)).isPresent = true
  pde_frame : ∀ x, (∀ j < k, x.toNat / 2 ^ 22 ≠ (pageAt a0 j).toNat / 2 ^ 22) →
    s.pde pgdir x = s0.pde pgdir x
  mem_frame : ∀ x, ¬ MayWrite s0 pgdir (x / PGSIZE) → s.mem x = s0.mem x
  kend : s.kend = s0.kend

/-! ## Regions -/

section Regions

variable {a0 : UInt32}

/-- A page that starts a 4 MB region lies in another region than every page before it. -/
theorem region_new {k : Nat} (hk : a0.toNat + k * PGSIZE < 2 ^ 32)
    (hstart : k = 0 ∨ (pageAt a0 k).toNat % 2 ^ 22 = 0) :
    ∀ j < k, (pageAt a0 k).toNat / 2 ^ 22 ≠ (pageAt a0 j).toNat / 2 ^ 22 := by
  intro j hj
  have hj' : a0.toNat + j * PGSIZE < 2 ^ 32 :=
    lt_of_le_of_lt (Nat.add_le_add_left (Nat.mul_le_mul_right PGSIZE hj.le) _) hk
  rcases hstart with rfl | h
  · exact absurd hj (Nat.not_lt_zero j)
  · rw [pageAt_toNat hk] at h ⊢
    rw [pageAt_toNat hj']
    unfold PGSIZE at *
    omega

/-- A page that does not start a region lies in the region of the page before it. -/
theorem region_prev (ha0 : a0.toNat % PGSIZE = 0) {k : Nat} (hk : a0.toNat + k * PGSIZE < 2 ^ 32)
    (hmid : (pageAt a0 k).toNat % 2 ^ 22 ≠ 0) :
    (pageAt a0 k).toNat / 2 ^ 22 = (pageAt a0 (k - 1)).toNat / 2 ^ 22 := by
  have hk' : a0.toNat + (k - 1) * PGSIZE < 2 ^ 32 :=
    lt_of_le_of_lt (Nat.add_le_add_left (Nat.mul_le_mul_right PGSIZE (Nat.sub_le k 1)) _) hk
  rw [pageAt_toNat hk] at hmid ⊢
  rw [pageAt_toNat hk']
  unfold PGSIZE at *
  omega

theorem newTables_mono (s0 : VmState) (pgdir a0 : UInt32) {k m : Nat} (h : k ≤ m) :
    newTables s0 pgdir a0 k ≤ newTables s0 pgdir a0 m :=
  monotone_nat_of_le_succ (fun n => by rw [newTables_step]; exact Nat.le_add_right _ _) h

/-- The page tables of a range whose regions past its first have none: one for each of those
regions, and one for the first if it has none. By induction on the pages, a region starting at
each page that is a multiple of 4 MB. -/
theorem newTables_eq {s0 : VmState} {pgdir : UInt32} (ha0 : a0.toNat % PGSIZE = 0) :
    ∀ k, a0.toNat + k * PGSIZE < 2 ^ 32 →
      (∀ x : UInt32, a0.toNat / 2 ^ 22 < x.toNat / 2 ^ 22 →
        x.toNat / 2 ^ 22 ≤ (a0.toNat + k * PGSIZE) / 2 ^ 22 → (s0.pde pgdir x).isPresent = false) →
      newTables s0 pgdir a0 (k + 1) = (a0.toNat + k * PGSIZE) / 2 ^ 22 - a0.toNat / 2 ^ 22 +
        if (s0.pde pgdir a0).isPresent = false then 1 else 0 := by
  intro k
  induction k with
  | zero =>
    intro _ _
    have h0 : pageAt a0 0 = a0 := by simp [pageAt]
    rw [newTables_step, newTables_zero, Nat.zero_mul, Nat.add_zero, Nat.sub_self, Nat.zero_add,
      Nat.zero_add, h0]
    exact if_congr (and_iff_right (.inl rfl)) rfl rfl
  | succ k ih =>
    intro hk habs
    -- `(k + 1) * PGSIZE` is written `k * PGSIZE + PGSIZE` for `omega`
    rw [Nat.succ_mul, ← Nat.add_assoc] at hk habs ⊢
    have hk' : a0.toNat + k * PGSIZE < 2 ^ 32 := lt_of_le_of_lt (Nat.le_add_right _ _) hk
    have hmono : (a0.toNat + k * PGSIZE) / 2 ^ 22 ≤ (a0.toNat + k * PGSIZE + PGSIZE) / 2 ^ 22 :=
      Nat.div_le_div_right (Nat.le_add_right _ _)
    have hprev := ih hk' fun x hlo hhi => habs x hlo (le_trans hhi hmono)
    have hpage : (pageAt a0 (k + 1)).toNat = a0.toNat + k * PGSIZE + PGSIZE := by
      rw [pageAt_toNat (by rwa [Nat.succ_mul, ← Nat.add_assoc]), Nat.succ_mul, Nat.add_assoc]
    rw [newTables_step, hprev]
    by_cases hstart : (pageAt a0 (k + 1)).toNat % 2 ^ 22 = 0
    · -- the page starts a region past the first, whose entry is missing
      have hnew : (s0.pde pgdir (pageAt a0 (k + 1))).isPresent = false := by
        refine habs _ ?_ (by rw [hpage])
        rw [hpage] at hstart ⊢
        unfold PGSIZE at *
        omega
      rw [if_pos (show (k + 1 = 0 ∨ (pageAt a0 (k + 1)).toNat % 2 ^ 22 = 0) ∧
        (s0.pde pgdir (pageAt a0 (k + 1))).isPresent = false from ⟨.inr hstart, hnew⟩)]
      rw [hpage] at hstart
      unfold PGSIZE at *
      omega
    · -- the page lies in the region of the one before it
      rw [if_neg (show ¬((k + 1 = 0 ∨ (pageAt a0 (k + 1)).toNat % 2 ^ 22 = 0) ∧
        (s0.pde pgdir (pageAt a0 (k + 1))).isPresent = false) from
          fun h => hstart (h.1.resolve_left (Nat.succ_ne_zero k)))]
      have hsame := region_prev ha0 (by rw [Nat.succ_mul, ← Nat.add_assoc]; exact hk) hstart
      rw [hpage, Nat.succ_sub_one, pageAt_toNat hk'] at hsame
      unfold PGSIZE at *
      omega

end Regions

/-! ## What one turn writes -/

section Writes

variable {s : VmState} {pgdir a : UInt32}

/-- A store into the entry of `a` in its page table writes only that page table. -/
theorem store_slot_mem (e : PTE) {x : Nat}
    (hx : x / PGSIZE ≠ (s.pde pgdir a).address.toNat / PGSIZE) :
    (s.store (s.slot pgdir a) e).mem x = s.mem x := by
  have hT := table_aligned s pgdir a
  have hidx := Nat.mod_lt (a.toNat / 4096) (show 0 < 1024 by norm_num)
  apply VmState.mem_store_of_not_mem
  unfold VmState.slot
  rw [slotAddr_toNat hT]
  unfold PGSIZE at hT hx
  omega

/-- A store into the directory entry of `a` writes only the directory. -/
theorem store_pde_mem (hD : (v2p pgdir).toNat % PGSIZE = 0) (e : PTE) {x : Nat}
    (hx : x / PGSIZE ≠ (v2p pgdir).toNat / PGSIZE) :
    (s.store (pgdir + 4 * PDE.index a) e).mem x = s.mem x := by
  have ha := a.toNat_lt
  apply VmState.mem_store_of_not_mem
  rw [pdeAddr_toNat hD]
  unfold PGSIZE at hD hx
  omega

/-- A page table added by `walk_pgdir` writes only the directory and the new page. -/
theorem addTable_mem {f : UInt32} {rest : List UInt32} (hD : (v2p pgdir).toNat % PGSIZE = 0)
    (hF : (v2p f).toNat % PGSIZE = 0) {x : Nat} (hdir : x / PGSIZE ≠ (v2p pgdir).toNat / PGSIZE)
    (hf : x / PGSIZE ≠ (v2p f).toNat / PGSIZE) : (s.addTable pgdir a f rest).mem x = s.mem x := by
  have hfill : ({ s with freelist := rest }.fill f 0).mem x = s.mem x := by
    rw [VmState.mem_fill_of_not_mem 0 (by unfold PGSIZE at hF hf ⊢; omega)]
  unfold VmState.addTable
  rw [store_pde_mem hD _ hdir, hfill]

@[simp] theorem addTable_kend {f : UInt32} {rest : List UInt32} :
    (s.addTable pgdir a f rest).kend = s.kend := rfl

/-- A walk with allocation that finds a page table: the one the directory had, or the head of the
free list added. -/
theorem walk_alloc_eq {s' : VmState} {pte : UInt32} (h : walk_pgdir s pgdir a true = (some pte, s')) :
    ((s.pde pgdir a).isPresent = true ∧ s' = s) ∨
      ((s.pde pgdir a).isPresent = false ∧
        ∃ f rest, s.freelist = f :: rest ∧ s' = s.addTable pgdir a f rest) := by
  by_cases hp : (s.pde pgdir a).isPresent
  · rw [walk_pgdir_of_present true hp] at h
    cases h
    exact .inl ⟨hp, rfl⟩
  · have ha := Bool.of_not_eq_true hp
    cases hl : s.freelist with
    | nil =>
      rw [walk_pgdir_alloc_empty ha hl] at h
      cases h
    | cons f rest =>
      rw [walk_pgdir_alloc ha hl] at h
      cases h
      exact .inr ⟨ha, f, rest, rfl, rfl⟩

end Writes

/-! ## The loop -/

section Loop

variable {s0 s sw : VmState} {pgdir a0 pa0 perm : UInt32} {k : Nat}

/-- A run from `s0` writes only pages that `s0` may write: its page tables are those of `s0` or
pages of the free list of `s0`. -/
theorem MapsRange.mayWrite (hr : MapsRange s0 s pgdir a0 pa0 perm k) (hf0 : FreeOk s0 pgdir)
    (hsub : ∀ f ∈ s.freelist, f ∈ s0.freelist) {p : Nat} (h : MayWrite s pgdir p) :
    MayWrite s0 pgdir p := by
  rcases h with h | ⟨y, hy, rfl⟩ | ⟨f, hf, rfl⟩
  · exact .inl h
  · rcases hr.pde y with h | ⟨-, f, hf, hnew⟩
    · rw [h] at hy ⊢
      exact .inr (.inl ⟨y, hy, rfl⟩)
    · rw [hnew, PTE.new_address (hf0.aligned f hf)]
      exact .inr (.inr ⟨f, hf, rfl⟩)
  · exact .inr (.inr ⟨f, hsub f hf, rfl⟩)

theorem FreshRun.zero (s0 : VmState) (pgdir a0 : UInt32) : FreshRun s0 s0 pgdir a0 0 where
  freelist := rfl
  visited _ h := absurd h (Nat.not_lt_zero _)
  pde_frame _ _ := rfl
  mem_frame _ _ := rfl
  kend := rfl

/-- After `k` turns, the directory entry of the `k`-th page is missing exactly when the page
starts a region whose entry `s0` misses: inside a region the turn before added it. -/
theorem FreshRun.absent_iff (hfr : FreshRun s0 s pgdir a0 k) (ha0 : a0.toNat % PGSIZE = 0)
    (hk : a0.toNat + k * PGSIZE < 2 ^ 32) :
    (s.pde pgdir (pageAt a0 k)).isPresent = false ↔
      (k = 0 ∨ (pageAt a0 k).toNat % 2 ^ 22 = 0) ∧
        (s0.pde pgdir (pageAt a0 k)).isPresent = false := by
  constructor
  · intro habs
    have hstart : k = 0 ∨ (pageAt a0 k).toNat % 2 ^ 22 = 0 := by
      by_contra hmid
      obtain ⟨hk0, hmid⟩ := not_or.mp hmid
      have hprev := hfr.visited (k - 1) (by omega)
      rw [← VmState.pde_congr (region_prev ha0 hk hmid), habs] at hprev
      cases hprev
    refine ⟨hstart, ?_⟩
    rw [← hfr.pde_frame _ (region_new hk hstart)]
    exact habs
  · rintro ⟨hstart, habs⟩
    rw [hfr.pde_frame _ (region_new hk hstart)]
    exact habs

/-- The `k`-th turn takes a page table exactly when the directory has none for its page. -/
theorem FreshRun.newTables_succ (hfr : FreshRun s0 s pgdir a0 k) (ha0 : a0.toNat % PGSIZE = 0)
    (hk : a0.toNat + k * PGSIZE < 2 ^ 32) :
    newTables s0 pgdir a0 (k + 1) = newTables s0 pgdir a0 k +
      if (s.pde pgdir (pageAt a0 k)).isPresent = false then 1 else 0 := by
  rw [newTables_step]
  exact congrArg _ (if_congr (hfr.absent_iff ha0 hk).symm rfl rfl)

/-- One turn of the loop at the `k`-th page, after its walk: the store of the page's entry keeps
`FreshRun` for one more page. -/
theorem FreshRun.turn (hfr : FreshRun s0 s pgdir a0 k) (hr : MapsRange s0 s pgdir a0 pa0 perm k)
    (hd : DirOk s pgdir) (hf : FreeOk s pgdir) (hf0 : FreeOk s0 pgdir)
    (ha0 : a0.toNat % PGSIZE = 0) (hk : a0.toNat + k * PGSIZE < 2 ^ 32) {pte : UInt32}
    (hw : walk_pgdir s pgdir (pageAt a0 k) true = (some pte, sw)) (e : PTE) :
    FreshRun s0 (sw.store (sw.slot pgdir (pageAt a0 k)) e) pgdir a0 (k + 1) := by
  have hsub : ∀ f ∈ s.freelist, f ∈ s0.freelist := fun f h =>
    List.mem_of_mem_drop (hfr.freelist ▸ h)
  obtain ⟨-, hp, hdw, -, -⟩ := walk_alloc_some hd hf hw
  have hpde : ∀ x, (sw.store (sw.slot pgdir (pageAt a0 k)) e).pde pgdir x = sw.pde pgdir x :=
    pde_store_slot hdw hp e
  have hcount := hfr.newTables_succ ha0 hk
  rcases walk_alloc_eq hw with ⟨hps, rfl⟩ | ⟨habs, f, rest, hl, rfl⟩
  · -- the page table is there: nothing is taken from the free list
    rw [hps, if_neg (by decide), Nat.add_zero] at hcount
    refine ⟨?_, fun j hj => ?_, fun x hx => ?_, fun x hx => ?_, hfr.kend⟩
    · rw [VmState.store_freelist, hcount]
      exact hfr.freelist
    · rw [hpde]
      rcases Nat.lt_succ_iff_lt_or_eq.mp hj with hj | rfl
      · exact hfr.visited j hj
      · exact hps
    · rw [hpde]
      exact hfr.pde_frame x fun j hj => hx j (Nat.lt_succ_of_lt hj)
    · -- the entry's page table is one that `s0` may write
      have htable := hr.mayWrite hf0 hsub (.inr (.inl ⟨_, hps, rfl⟩))
      rw [store_slot_mem e fun h => hx (h ▸ htable)]
      exact hfr.mem_frame x hx
  · -- a page table taken from the head of the free list
    have hn := hf.newTable hl
    have hf_mem : f ∈ s0.freelist := hsub f (by simp [hl])
    rw [habs, if_pos rfl] at hcount
    refine ⟨?_, fun j hj => ?_, fun x hx => ?_, fun x hx => ?_, hfr.kend⟩
    · rw [VmState.store_freelist, addTable_freelist, hcount, ← List.tail_drop, ← hfr.freelist, hl]
      rfl
    · rw [hpde, pde_addTable hd hn]
      split_ifs with hsame
      · exact PTE.isPresent_new_table _
      · rcases Nat.lt_succ_iff_lt_or_eq.mp hj with hj | rfl
        · exact hfr.visited j hj
        · exact absurd rfl hsame
    · rw [hpde, pde_addTable hd hn, if_neg (hx k (Nat.lt_succ_self k))]
      exact hfr.pde_frame x fun j hj => hx j (Nat.lt_succ_of_lt hj)
    · -- the new page table, the directory and the slot are pages that `s0` may write
      have hnew : ((s.addTable pgdir (pageAt a0 k) f rest).pde pgdir (pageAt a0 k)).address = v2p f := by
        rw [pde_addTable hd hn, if_pos rfl, PTE.new_address hn.aligned]
      have hfpage : x / PGSIZE ≠ (v2p f).toNat / PGSIZE := fun h =>
        hx (h ▸ .inr (.inr ⟨f, hf_mem, rfl⟩))
      have hdir : x / PGSIZE ≠ (v2p pgdir).toNat / PGSIZE := fun h => hx (h ▸ .inl rfl)
      rw [store_slot_mem e (by rw [hnew]; exact hfpage), addTable_mem hd.aligned hn.aligned hdir hfpage]
      exact hfr.mem_frame x hx

/-- The run of the loop from its `k`-th page, with turns enough for the `c` pages, over pages none
of which `s0` maps, with free pages enough for the page tables the range needs: it completes, and
keeps the directory and the free list fit. The induction is on the turns left, as for
`mapPagesLoop_spec`, with `FreshRun` carried along. -/
theorem mapPagesLoop_fresh {last : UInt32} {c : Nat} (ha0 : a0.toNat % PGSIZE = 0)
    (hlast : last.toNat = a0.toNat + (c - 1) * PGSIZE) (hf0 : FreeOk s0 pgdir)
    (hfresh : ∀ j < c, s0.mapped pgdir (pageAt a0 j) = false)
    (henough : newTables s0 pgdir a0 c ≤ s0.freelist.length) :
    ∀ (n k : Nat) (s : VmState), k < c → c ≤ k + n → DirOk s pgdir → FreeOk s pgdir →
      MapsRange s0 s pgdir a0 pa0 perm k → FreshRun s0 s pgdir a0 k →
      ∃ s', mapPagesLoop pgdir last perm n (pageAt a0 k) (pa0 + UInt32.ofNat (k * PGSIZE)) s =
          .ok (true, s') ∧ DirOk s' pgdir ∧ FreeOk s' pgdir ∧
        MapsRange s0 s' pgdir a0 pa0 perm c ∧ FreshRun s0 s' pgdir a0 c
  | 0, k, s, hk, hn, _, _, _, _ => absurd hk (by omega)
  | n + 1, k, s, hk, hn, hd, hf, hr, hfr => by
    have hbound := pageAt_bound hlast hk
    have hsub : ∀ f ∈ s.freelist, f ∈ s0.freelist := fun f h =>
      List.mem_of_mem_drop (hfr.freelist ▸ h)
    rw [mapPagesLoop]
    rcases hw : walk_pgdir s pgdir (pageAt a0 k) true with ⟨_ | pte, sw⟩
    · -- a missing page table with the free list spent: more page tables than free pages
      obtain ⟨-, hnil, habs⟩ := walk_alloc_none hw
      have hcount := hfr.newTables_succ ha0 hbound
      rw [habs, if_pos rfl] at hcount
      have hle := newTables_mono s0 pgdir a0 (show k + 1 ≤ c by omega)
      rw [hfr.freelist, List.drop_eq_nil_iff] at hnil
      omega
    · obtain ⟨rfl, hp, hdw, hfw, hg⟩ := walk_alloc_some hd hf hw
      have hmapped : sw.mapped pgdir (pageAt a0 k) = false := by
        rw [hg.mapped_eq, hr.mapped_eq ha0 hbound]
        exact hfresh k hk
      have hpres : (sw.load (sw.slot pgdir (pageAt a0 k))).isPresent = false := by
        simpa [VmState.mapped, VmState.entry, hp] using hmapped
      dsimp only
      rw [hpres, if_neg (by decide)]
      have hr' := hr.turn hsub hg hdw hp ha0 hbound
      have hfr' := hfr.turn hr hd hf hf0 ha0 hbound hw
        (PTE.new (pa0 + UInt32.ofNat (k * PGSIZE)) (perm ||| PTE.P))
      by_cases hend : (pageAt a0 k == last) = true
      · -- the last page: the whole range is mapped
        rw [if_pos hend]
        have hc : k + 1 = c := by
          have := (pageAt_beq_last hlast hk).mp hend
          omega
        rw [hc] at hr' hfr'
        exact ⟨_, rfl, hdw.store_slot hp _, hfw.store_slot hdw hp _, hr', hfr'⟩
      · rw [if_neg hend, pageAt_succ, UInt32.add_assoc, ← UInt32.ofNat_add, ← Nat.succ_mul]
        have hk' : k + 1 < c := by
          have : k ≠ c - 1 := fun h => hend ((pageAt_beq_last hlast hk).mpr h)
          omega
        exact mapPagesLoop_fresh ha0 hlast hf0 hfresh henough n (k + 1) _ hk' (by omega)
          (hdw.store_slot hp _) (hfw.store_slot hdw hp _) hr' hfr'

end Loop

/-! ## `map_pages` -/

section MapPages

variable {s : VmState} {pgdir va size pa perm : UInt32}

/-- `map_pages` over a range that does not wrap and that the directory does not map, with free
pages enough for the page tables it needs: it returns `true` having mapped the range
(`MapsRange`), with the directory and the free list still fit, the free list without the
`newTables` pages taken, the directory entries of other regions and the memory outside the pages
it may write as they were. -/
theorem map_pages_fresh (hdir : DirOk s pgdir) (hfree : FreeOk s pgdir) (hsize : 1 ≤ size.toNat)
    (hwrap : va.toNat + size.toNat - 1 < 2 ^ 32)
    (hfresh : ∀ j < pageCount va size, s.mapped pgdir (pageAt (pg_rounddown va) j) = false)
    (henough : newTables s pgdir (pg_rounddown va) (pageCount va size) ≤ s.freelist.length) :
    ∃ s', map_pages s pgdir va size pa perm = .ok (true, s') ∧ DirOk s' pgdir ∧ FreeOk s' pgdir ∧
      MapsRange s s' pgdir (pg_rounddown va) pa perm (pageCount va size) ∧
      FreshRun s s' pgdir (pg_rounddown va) (pageCount va size) := by
  have hc : 0 < pageCount va size := Nat.succ_pos _
  obtain ⟨s', hrun, hrest⟩ := mapPagesLoop_fresh (pg_rounddown_aligned va)
    (pageCount_last hsize hwrap) hfree hfresh henough (pageCount va size) 0 s hc (by omega) hdir
    hfree (MapsRange.zero s pgdir _ pa perm) (FreshRun.zero s pgdir _)
  have h0 : pageAt (pg_rounddown va) 0 = pg_rounddown va := by simp [pageAt]
  have hpa : pa + UInt32.ofNat (0 * PGSIZE) = pa := by simp
  rw [h0, hpa, ← map_pages_eq] at hrun
  exact ⟨s', hrun, hrest⟩

end MapPages

end Xv6
