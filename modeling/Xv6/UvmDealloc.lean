import Mathlib
import Xv6.PageTable

/-!
# `uvm_dealloc` and `vm_free`

The loop of `uvm_dealloc(pgdir, size_old, size_new)` runs from `pg_roundup size_new` up to
`size_old`: at a page whose page table is present it clears the entry when the entry is
present, and at a page without a page table it skips to the next 4 MB boundary. What it leaves is
stated as `Clears`: every directory entry as it was, the present entries of the pages of the range
null, and every other entry as it was. The loop's run is a chain of such clearings, one page or
one skipped 4 MB at a time (`Clears.trans`), with turns enough for every page below `size_old`
(`deallocLoop_clears`).

The loop panics with `"kfree"` at a present entry whose page is the physical page 0
(`uvm_dealloc_kfree`), so it completes only when no entry of the range maps that page; and its
clearing leaves the other entries alone only when the page tables are pages of their own
(`DirOk`).

`vm_free` runs `uvm_dealloc` over the whole user half, then frees the page table of each present
directory entry and the directory. Of a `Freeable` directory it frees exactly those pages, in the
order of the directory (`vm_free_spec`), and leaves the directory filled with `kfree`'s junk.
`Freeable` reads only the directory and its page tables (`Freeable.of_mem`).
-/

namespace Xv6

open Machine

/-- `s'` is `s` with the present entries of the pages from `lo` below `hi` cleared: every
directory entry, every other entry and the free list as they were. -/
structure Clears (s s' : VmState) (pgdir : UInt32) (lo hi : Nat) : Prop where
  pde : ∀ x, s'.pde pgdir x = s.pde pgdir x
  entry : ∀ x, s'.entry pgdir x =
    if lo ≤ (pg_rounddown x).toNat ∧ (pg_rounddown x).toNat < hi ∧ s.mapped pgdir x = true then
      some PTE.NULL
    else s.entry pgdir x
  freelist : s'.freelist = s.freelist

section Clears

variable {s s₁ s₂ : VmState} {pgdir : UInt32} {lo mid hi : Nat}

/-- A range with no present entry is cleared by doing nothing. -/
theorem Clears.of_unmapped
    (h : ∀ x, lo ≤ (pg_rounddown x).toNat → (pg_rounddown x).toNat < hi →
      s.mapped pgdir x = false) : Clears s s pgdir lo hi where
  pde _ := rfl
  entry x := by
    rw [if_neg]
    rintro ⟨hlo, hhi, hm⟩
    rw [h x hlo hhi] at hm
    cases hm
  freelist := rfl

/-- Clearing from `lo` below `mid`, then from `mid` below `hi`, clears from `lo` below `hi`
when nothing was mapped from `hi` below `mid` (a first step may overshoot the end). -/
theorem Clears.trans (h₁ : Clears s s₁ pgdir lo mid) (h₂ : Clears s₁ s₂ pgdir mid hi)
    (hmid : lo ≤ mid)
    (hgap : ∀ x, hi ≤ (pg_rounddown x).toNat → (pg_rounddown x).toNat < mid →
      s.mapped pgdir x = false) : Clears s s₂ pgdir lo hi where
  pde x := (h₂.pde x).trans (h₁.pde x)
  entry x := by
    rw [h₂.entry x]
    by_cases hfirst : lo ≤ (pg_rounddown x).toNat ∧ (pg_rounddown x).toNat < mid
    · -- a page of the first range: the second clearing does not reach it
      rw [if_neg (fun h => absurd h.1 (by omega)), h₁.entry x]
      by_cases hm : s.mapped pgdir x = true
      · have hhi : (pg_rounddown x).toNat < hi := by
          by_contra hge
          rw [hgap x (by omega) hfirst.2] at hm
          cases hm
        rw [if_pos ⟨hfirst.1, hfirst.2, hm⟩, if_pos ⟨hfirst.1, hhi, hm⟩]
      · rw [if_neg (by tauto), if_neg (by tauto)]
    · -- elsewhere the first clearing left the entry, and whether it is mapped
      have hentry : s₁.entry pgdir x = s.entry pgdir x := by
        rw [h₁.entry x, if_neg (by tauto)]
      have hmapped : s₁.mapped pgdir x = s.mapped pgdir x :=
        VmState.mapped_eq_of_entry (.inl hentry)
      rw [hentry, hmapped]
      by_cases hm : s.mapped pgdir x = true
      · by_cases hin : mid ≤ (pg_rounddown x).toNat ∧ (pg_rounddown x).toNat < hi
        · rw [if_pos ⟨hin.1, hin.2, hm⟩, if_pos ⟨by omega, hin.2, hm⟩]
        · rw [if_neg (by tauto), if_neg (fun h => hin ⟨by omega, h.2.1⟩)]
      · rw [if_neg (by tauto), if_neg (by tauto)]
  freelist := h₂.freelist.trans h₁.freelist

/-- Clearing the present entry of the page at `a`. -/
theorem clears_store_slot (hd : DirOk s pgdir) {a : UInt32} (ha : a.toNat % PGSIZE = 0)
    (hp : (s.pde pgdir a).isPresent = true) (hm : s.mapped pgdir a = true) :
    Clears s (s.store (s.slot pgdir a) PTE.NULL) pgdir a.toNat (a.toNat + PGSIZE) where
  pde := pde_store_slot hd hp PTE.NULL
  entry x := by
    rw [entry_store_slot hd hp, pg_rounddown_toNat]
    by_cases hpage : x.toNat / 4096 = a.toNat / 4096
    · rw [if_pos hpage, if_pos ⟨by unfold PGSIZE at ha; omega, by unfold PGSIZE at ha ⊢; omega,
        by rw [VmState.mapped_congr hpage]; exact hm⟩]
    · rw [if_neg hpage, if_neg (by unfold PGSIZE at ha ⊢; omega)]
  freelist := rfl

end Clears

/-- An address below `KERNBASE` is its own `UInt32`. -/
theorem ofNat_toNat_of_lt {a : Nat} (h : a < 2 ^ 32) : (UInt32.ofNat a).toNat = a := by
  rw [UInt32.toNat_ofNat']
  exact Nat.mod_eq_of_lt h

/-- The run of `uvm_dealloc`'s loop from a page boundary `a` below `KERNBASE`, with turns enough
to reach `size_old`, when no present entry of the range maps the page 0: it completes and clears
the present entries from `a` below `size_old`. The induction is on the turns; each turn clears one
page, or passes over a page whose entry is not present, or skips the 4 MB of a missing page
table, and `Clears.trans` chains it to the rest of the run. -/
theorem deallocLoop_clears {pgdir : UInt32} {size_old : Nat} (hold : size_old ≤ KERNBASE) :
    ∀ (n a : Nat) (s : VmState), a % PGSIZE = 0 → size_old ≤ a + n * PGSIZE → DirOk s pgdir →
      (∀ x e, a ≤ (pg_rounddown x).toNat → (pg_rounddown x).toNat < size_old →
        s.entry pgdir x = some e → e.isPresent = true → e.address ≠ 0) →
      ∃ s', deallocLoop pgdir size_old n s a = .ok s' ∧ Clears s s' pgdir a size_old
  | 0, a, s, _, hn, _, _ => by
    refine ⟨s, rfl, Clears.of_unmapped fun x hlo hhi => ?_⟩
    omega
  | n + 1, a, s, ha, hn, hd, hpa => by
    by_cases hlt : a < size_old
    · have ha32 : (UInt32.ofNat a).toNat = a := ofNat_toNat_of_lt (by unfold KERNBASE at hold; omega)
      have hal : (UInt32.ofNat a).toNat % PGSIZE = 0 := by rw [ha32]; exact ha
      -- the pages from `b` on are those of the rest of the run
      have hrest : ∀ (b : Nat) (s₁ : VmState), a ≤ b → b % PGSIZE = 0 → size_old ≤ b + n * PGSIZE →
          DirOk s₁ pgdir → Clears s s₁ pgdir a b →
          (∀ x, size_old ≤ (pg_rounddown x).toNat → (pg_rounddown x).toNat < b →
            s.mapped pgdir x = false) →
          ∃ s', deallocLoop pgdir size_old n s₁ b = .ok s' ∧ Clears s s' pgdir a size_old := by
        intro b s₁ hab hb hnb hd₁ hc₁ hgap
        obtain ⟨s', hrun, hc⟩ := deallocLoop_clears hold n b s₁ hb hnb hd₁ fun x e hlo hhi he hpres => by
          rw [hc₁.entry x, if_neg (by omega)] at he
          exact hpa x e (by omega) hhi he hpres
        exact ⟨s', hrun, hc₁.trans hc hab hgap⟩
      -- past `size_old`, the page of `a` holds no page boundary
      have hpast : ∀ x : UInt32, size_old ≤ (pg_rounddown x).toNat →
          ¬ (pg_rounddown x).toNat < a + PGSIZE := by
        intro x hge hlt'
        have hal' := pg_rounddown_toNat x
        unfold PGSIZE at ha hlt'
        omega
      simp only [deallocLoop, if_pos hlt]
      by_cases hp : (s.pde pgdir (UInt32.ofNat a)).isPresent
      · rw [walk_pgdir_of_present false hp]
        dsimp only
        have hentry : s.entry pgdir (UInt32.ofNat a) = some (s.load (s.slot pgdir (UInt32.ofNat a))) := by
          simp [VmState.entry, hp]
        by_cases hpres : (s.load (s.slot pgdir (UInt32.ofNat a))).isPresent
        · -- a present entry: its page is not page 0, and it is cleared
          have hm : s.mapped pgdir (UInt32.ofNat a) = true := by
            simp [VmState.mapped, hentry, hpres]
          have haddr := hpa (UInt32.ofNat a) _ (by rw [pg_rounddown_toNat, ha32]; unfold PGSIZE at ha; omega)
            (by rw [pg_rounddown_toNat, ha32]; unfold PGSIZE at ha; omega) hentry hpres
          rw [if_pos hpres, if_neg (by simpa using haddr)]
          have hc := clears_store_slot hd hal hp hm
          rw [ha32] at hc
          exact hrest (a + PGSIZE) _ (by omega) (by unfold PGSIZE at ha ⊢; omega)
            (by rw [Nat.succ_mul] at hn; omega) (hd.store_slot hp _) hc
            fun x hge hlt' => absurd hlt' (hpast x hge)
        · -- an entry that is not present: passed over
          rw [if_neg hpres]
          refine hrest (a + PGSIZE) s (by omega) (by unfold PGSIZE at ha ⊢; omega)
            (by rw [Nat.succ_mul] at hn; omega) hd (Clears.of_unmapped fun x hlo hhi => ?_)
            fun x hge hlt' => absurd hlt' (hpast x hge)
          have hpage : x.toNat / 4096 = (UInt32.ofNat a).toNat / 4096 := by
            rw [pg_rounddown_toNat] at hlo hhi
            rw [ha32]
            unfold PGSIZE at ha hhi
            omega
          rw [VmState.mapped_congr hpage]
          simp [VmState.mapped, hentry, hpres]
      · -- no page table: the 4 MB up to the next directory entry are skipped
        have habs : (s.pde pgdir (UInt32.ofNat a)).isPresent = false := by simpa using hp
        rw [walk_pgdir_of_absent habs]
        dsimp only
        have hjump : a + PGSIZE ≤ (a / 2 ^ 22 + 1) * 2 ^ 22 := by
          unfold PGSIZE at ha ⊢
          omega
        -- every page up to the next directory entry is without a page table
        have hskip : ∀ x, a ≤ (pg_rounddown x).toNat → (pg_rounddown x).toNat < (a / 2 ^ 22 + 1) * 2 ^ 22 →
            s.mapped pgdir x = false := by
          intro x hlo hhi
          have hdir : x.toNat / 2 ^ 22 = (UInt32.ofNat a).toNat / 2 ^ 22 := by
            rw [pg_rounddown_toNat] at hlo hhi
            rw [ha32]
            omega
          rw [VmState.mapped, VmState.entry_of_absent (by rw [VmState.pde_congr hdir]; exact habs)]
        exact hrest _ s (by omega) (by unfold PGSIZE; omega) (by rw [Nat.succ_mul] at hn; omega)
          hd (Clears.of_unmapped hskip) fun x hge hlt' => hskip x (by omega) hlt'
    · refine ⟨s, by simp [deallocLoop, hlt], Clears.of_unmapped fun x hlo hhi => ?_⟩
      omega

/-- `pg_roundup` of a size below `KERNBASE`: the next page boundary. -/
theorem pg_roundup_toNat {size : UInt32} (h : size.toNat < KERNBASE) :
    (pg_roundup size).toNat = (size.toNat + 4095) / 4096 * 4096 := by
  have hsum : (size + UInt32.ofNat PGSIZE - 1).toNat = size.toNat + 4095 := by
    rw [UInt32.toNat_sub, UInt32.toNat_add, UInt32.toNat_ofNat']
    simp only [UInt32.toNat_one]
    unfold PGSIZE
    unfold KERNBASE at h
    omega
  have hround : pg_roundup size = pg_rounddown (size + UInt32.ofNat PGSIZE - 1) := rfl
  rw [hround, pg_rounddown_toNat, hsum]

/-- `uvm_dealloc` of a directory whose page tables are pages of their own, to a smaller size
below `KERNBASE`, when no present entry of the pages from `pg_roundup size_new` below `size_old`
maps the page 0: its loop ends by its own test; it completes, returns `size_new`, and clears
exactly the present entries of those pages, every directory entry, every other entry and the free
list as they were. To a size that is not smaller it changes nothing and returns `size_old`. -/
theorem uvm_dealloc_spec (s : VmState) (pgdir size_old size_new : UInt32) (hdir : DirOk s pgdir)
    (hold : size_old.toNat ≤ KERNBASE)
    (hpa : ∀ x e, (pg_roundup size_new).toNat ≤ (pg_rounddown x).toNat →
      (pg_rounddown x).toNat < size_old.toNat → s.entry pgdir x = some e → e.isPresent = true →
      e.address ≠ 0) :
    (size_old ≤ size_new → uvm_dealloc s pgdir size_old size_new = .ok (size_old, s)) ∧
    (size_new < size_old →
      (∀ m, size_old.toNat / PGSIZE + 1 ≤ m →
        deallocLoop pgdir size_old.toNat m s (pg_roundup size_new).toNat =
          deallocLoop pgdir size_old.toNat (size_old.toNat / PGSIZE + 1) s
            (pg_roundup size_new).toNat) ∧
      ∃ s', uvm_dealloc s pgdir size_old size_new = .ok (size_new, s') ∧
        Clears s s' pgdir (pg_roundup size_new).toNat size_old.toNat) := by
  refine ⟨uvm_dealloc_of_le, fun hlt => ?_⟩
  have hlt' := UInt32.lt_iff_toNat_lt.mp hlt
  have hr : (pg_roundup size_new).toNat = _ := pg_roundup_toNat (by omega)
  have hal : (pg_roundup size_new).toNat % PGSIZE = 0 := by
    rw [hr]
    unfold PGSIZE
    omega
  have henough : size_old.toNat ≤ (pg_roundup size_new).toNat +
      (size_old.toNat / PGSIZE + 1) * PGSIZE := by
    unfold PGSIZE
    omega
  refine ⟨fun m hm => deallocLoop_fuel hal henough hm, ?_⟩
  obtain ⟨s', hrun, hc⟩ := deallocLoop_clears hold _ _ s hal henough hdir hpa
  refine ⟨s', ?_, hc⟩
  rw [uvm_dealloc, if_neg (by rw [UInt32.le_iff_toNat_le]; omega)]
  simp only [hrun, Outcome.ok_bind, Outcome.pure_eq]

/-! ## `vm_free` -/

/-- The page table that the `i`-th entry of the directory `pgdir` names, as the loop of `vm_free`
reads it: its kernel address, when the entry is present. -/
def tableAt (s : VmState) (pgdir : UInt32) (i : Nat) : Option UInt32 :=
  let pde := s.load (pgdir + 4 * UInt32.ofNat i)
  if pde.isPresent then some (p2v pde.address) else none

/-- The page tables of the directory `pgdir`, in the order `vm_free` frees them. -/
def dirTables (s : VmState) (pgdir : UInt32) : List UInt32 :=
  (List.range NPDENTRIES).filterMap (tableAt s pgdir)

/-- The physical pages, by number, of the directory `pgdir` and of its page tables. -/
def TablePages (s : VmState) (pgdir : UInt32) (p : Nat) : Prop :=
  p = (v2p pgdir).toNat / PGSIZE ∨
    ∃ y, (s.pde pgdir y).isPresent = true ∧ p = (s.pde pgdir y).address.toNat / PGSIZE

/-- A directory that `vm_free` frees without a panic: well formed, with no present user entry
that names the physical page 0, and with itself and its page tables pages that `kfree` takes. -/
structure Freeable (s : VmState) (pgdir : UInt32) : Prop where
  dir : DirOk s pgdir
  user : ∀ x e, x.toNat < KERNBASE → s.entry pgdir x = some e → e.isPresent = true →
    e.address ≠ 0
  tables : ∀ x, (s.pde pgdir x).isPresent = true →
    s.kend ≤ p2v (s.pde pgdir x).address ∧ (s.pde pgdir x).address.toNat < PHYSTOP
  ne_zero : pgdir ≠ 0
  kend_le : s.kend ≤ pgdir
  lt_phystop : (v2p pgdir).toNat < PHYSTOP

section Free

variable {s s' : VmState} {pgdir : UInt32}

/-- The `i`-th word of a directory is the entry of the `i`-th 4 MB region. -/
theorem load_dirSlot (s : VmState) (pgdir : UInt32) {i : Nat} (hi : i < NPDENTRIES) :
    s.load (pgdir + 4 * UInt32.ofNat i) = s.pde pgdir (UInt32.ofNat (i * 2 ^ 22)) := by
  have hidx : PDE.index (UInt32.ofNat (i * 2 ^ 22)) = UInt32.ofNat i := by
    apply UInt32.toNat_inj.mp
    rw [PDE.index_toNat, UInt32.toNat_ofNat', UInt32.toNat_ofNat']
    unfold NPDENTRIES at hi
    omega
  unfold VmState.pde
  rw [hidx]

/-- `tableAt` reads only the directory's entries. -/
theorem tableAt_congr (h : ∀ x, s'.pde pgdir x = s.pde pgdir x) {i : Nat} (hi : i < NPDENTRIES) :
    tableAt s' pgdir i = tableAt s pgdir i := by
  unfold tableAt
  rw [load_dirSlot s' pgdir hi, load_dirSlot s pgdir hi, h]

/-- A turn of `vm_free`'s loop frees the page table that `tableAt` names. -/
theorem freePdeStep_of_some {i : Nat} {t : UInt32} (h : tableAt s pgdir i = some t) :
    freePdeStep pgdir s i = kfree s t := by
  unfold tableAt at h
  unfold freePdeStep
  dsimp only at h ⊢
  split at h
  · rename_i hp
    rw [if_pos hp]
    obtain rfl := Option.some.inj h
    rfl
  · cases h

/-- A turn of `vm_free`'s loop at a missing entry does nothing. -/
theorem freePdeStep_of_none {i : Nat} (h : tableAt s pgdir i = none) :
    freePdeStep pgdir s i = pure s := by
  unfold tableAt at h
  unfold freePdeStep
  dsimp only at h ⊢
  split at h
  · cases h
  · rename_i hp
    rw [if_neg hp]

/-- Filling a page other than the directory's leaves the directory. -/
theorem pde_fill_of_ne (hD : (v2p pgdir).toNat % PGSIZE = 0) {t : UInt32}
    (ht : (v2p t).toNat % PGSIZE = 0) (hne : v2p t ≠ v2p pgdir) (b : UInt8) (x : UInt32) :
    (s.fill t b).pde pgdir x = s.pde pgdir x := by
  have hne' : (v2p t).toNat ≠ (v2p pgdir).toNat := fun h => hne (UInt32.toNat_inj.mp h)
  have hx := x.toNat_lt
  apply VmState.load_fill_of_disjoint
  rw [pdeAddr_toNat hD]
  unfold PGSIZE at *
  omega

/-- `kfree` of a page-aligned page at or above `end` and below `PHYSTOP` fills it with junk and
pushes it on the free list. -/
theorem kfree_ok {v : UInt32} (ha : (v2p v).toNat % PGSIZE = 0) (hk : s.kend ≤ v)
    (hp : (v2p v).toNat < PHYSTOP) :
    kfree s v = .ok { s.fill v 1 with freelist := v :: s.freelist } := by
  have hv : v.toNat % PGSIZE = 0 := by
    have h := congrArg UInt32.toNat (p2v_v2p v)
    have hK : (UInt32.ofNat KERNBASE).toNat = KERNBASE := rfl
    unfold p2v at h
    rw [UInt32.toNat_add, hK] at h
    unfold PGSIZE KERNBASE at *
    omega
  unfold kfree
  rw [if_neg (by simp [hv, hk, hp])]
  rfl

/-- The loop of `vm_free` over the directory entries `l`, from a state with the directory of a
freeable `s0`: it frees the page table of each present entry, in order, and keeps the
directory. By induction on `l`. -/
theorem freePdeRun {s0 : VmState} (hf : Freeable s0 pgdir) (l : List Nat) :
    ∀ (s : VmState), (∀ i ∈ l, i < NPDENTRIES) →
      (∀ x, s.pde pgdir x = s0.pde pgdir x) → s.kend = s0.kend →
      ∃ s', Outcome.run (freePdeStep pgdir) s l = .ok s' ∧
        s'.freelist = (l.filterMap (tableAt s0 pgdir)).reverse ++ s.freelist ∧
        (∀ x, s'.pde pgdir x = s0.pde pgdir x) ∧ s'.kend = s0.kend := by
  induction l with
  | nil => exact fun s _ hpde hk => ⟨s, rfl, by simp, hpde, hk⟩
  | cons i l ih =>
    intro s hl hpde hk
    have hi := hl i List.mem_cons_self
    have hrest : ∀ j ∈ l, j < NPDENTRIES := fun j hj => hl j (List.mem_cons_of_mem _ hj)
    rw [Outcome.run_cons]
    cases ht : tableAt s0 pgdir i with
    | none =>
      rw [freePdeStep_of_none (by rw [tableAt_congr hpde hi]; exact ht), Outcome.pure_eq,
        Outcome.ok_bind]
      obtain ⟨s', hrun, hfl, hpde', hk'⟩ := ih s hrest hpde hk
      refine ⟨s', hrun, ?_, hpde', hk'⟩
      rw [hfl, List.filterMap_cons_none ht]
    | some t =>
      -- a present entry: its page table is freed, and the directory stays
      rw [freePdeStep_of_some (by rw [tableAt_congr hpde hi]; exact ht)]
      have ht' := ht
      unfold tableAt at ht'
      rw [load_dirSlot s0 pgdir hi] at ht'
      generalize UInt32.ofNat (i * 2 ^ 22) = y at ht'
      dsimp only at ht'
      split at ht'
      · rename_i hy
        -- the table's address stays a variable: a `fill` at a computed address makes
        -- definitional unfolding expensive
        have htv := Option.some.inj ht'
        have hta : (v2p t).toNat % PGSIZE = 0 := by
          rw [← htv, v2p_p2v]
          exact table_aligned s0 pgdir y
        have hne : v2p t ≠ v2p pgdir := by
          rw [← htv, v2p_p2v]
          exact hf.dir.table_ne_dir y hy
        obtain ⟨hkt, hpt⟩ := hf.tables y hy
        rw [htv] at hkt
        rw [← v2p_p2v (s0.pde pgdir y).address, htv] at hpt
        rw [kfree_ok hta (by rw [hk]; exact hkt) hpt, Outcome.ok_bind]
        have hfill : ∀ x, ({ s.fill t 1 with freelist := t :: s.freelist } : VmState).pde pgdir x =
            s0.pde pgdir x := by
          intro x
          rw [VmState.pde, VmState.load_with_freelist, ← VmState.pde,
            pde_fill_of_ne hf.dir.aligned hta hne 1 x, hpde]
        obtain ⟨s', hrun, hfl, hpde', hk'⟩ := ih _ hrest hfill (by simpa using hk)
        refine ⟨s', hrun, ?_, hpde', hk'⟩
        rw [hfl, List.filterMap_cons_some ht]
        simp
      · cases ht'

/-- `vm_free` of a freeable directory frees its page tables, in the order of the directory, then
the directory, which it leaves filled with junk. -/
theorem vm_free_spec (hf : Freeable s pgdir) :
    ∃ s', vm_free s pgdir = .ok s' ∧
      s'.freelist = pgdir :: ((dirTables s pgdir).reverse ++ s.freelist) ∧
      ∀ x, s'.pde pgdir x = ⟨0x01010101⟩ := by
  have hD := hf.dir.aligned
  -- `uvm_dealloc` over the user half clears its entries and keeps the directory
  obtain ⟨s1, hloop, hc⟩ := deallocLoop_clears (le_refl KERNBASE) (KERNBASE / PGSIZE + 1) 0 s
    (by decide) (by unfold KERNBASE PGSIZE; omega) hf.dir fun x e _ hhi he hp =>
      hf.user x e (by
        rw [pg_rounddown_toNat] at hhi
        unfold KERNBASE at *
        omega) he hp
  have hdealloc : uvm_dealloc s pgdir (UInt32.ofNat KERNBASE) 0 = .ok (0, s1) := by
    have hK : (UInt32.ofNat KERNBASE).toNat = KERNBASE := rfl
    have h0 : (pg_roundup 0).toNat = 0 := by decide
    rw [uvm_dealloc, if_neg (by decide), hK, h0, hloop]
    rfl
  obtain ⟨s2, hrun, hfl2, -, hk2⟩ := freePdeRun hf (List.range NPDENTRIES) s1
    (fun i hi => List.mem_range.mp hi) hc.pde (deallocLoop_frame hloop).2
  refine ⟨{ s2.fill pgdir 1 with freelist := pgdir :: s2.freelist }, ?_, ?_, ?_⟩
  · unfold vm_free
    rw [if_neg (by simpa using hf.ne_zero)]
    simp only [hdealloc, hrun, Outcome.ok_bind]
    exact kfree_ok hD (by rw [hk2]; exact hf.kend_le) hf.lt_phystop
  · rw [hfl2, hc.freelist]
    rfl
  · intro x
    have hx := x.toNat_lt
    rw [VmState.pde, VmState.load_with_freelist, VmState.load_fill_of_mem 1
      (by rw [pdeAddr_toNat hD]; omega) (by rw [pdeAddr_toNat hD]; unfold PGSIZE; omega)]
    rfl

/-- A directory entry reads only the directory's page. -/
theorem VmState.pde_eq_of_mem (hD : (v2p pgdir).toNat % PGSIZE = 0)
    (h : ∀ x, x / PGSIZE = (v2p pgdir).toNat / PGSIZE → s'.mem x = s.mem x) (y : UInt32) :
    s'.pde pgdir y = s.pde pgdir y := by
  have hy := y.toNat_lt
  unfold VmState.pde
  apply VmState.load_congr
  intro k hk
  apply h
  rw [pdeAddr_toNat hD]
  unfold PGSIZE at *
  omega

/-- An entry reads only the directory's page and its page table's. -/
theorem VmState.entry_eq_of_mem (hD : (v2p pgdir).toNat % PGSIZE = 0)
    (h : ∀ x, TablePages s pgdir (x / PGSIZE) → s'.mem x = s.mem x) (y : UInt32) :
    s'.entry pgdir y = s.entry pgdir y := by
  have hpde : ∀ z, s'.pde pgdir z = s.pde pgdir z :=
    VmState.pde_eq_of_mem hD fun x hx => h x (.inl hx)
  unfold VmState.entry
  rw [hpde y]
  split
  · rename_i hp
    rw [VmState.slot_of_pde (hpde y)]
    congr 1
    apply VmState.load_congr
    intro k hk
    apply h
    refine .inr ⟨y, hp, ?_⟩
    have hT := table_aligned s pgdir y
    unfold VmState.slot
    rw [slotAddr_toNat hT]
    unfold PGSIZE at *
    omega
  · rfl

/-- `Freeable` reads only the directory, its page tables and `end`. -/
theorem Freeable.of_mem (hf : Freeable s pgdir)
    (h : ∀ x, TablePages s pgdir (x / PGSIZE) → s'.mem x = s.mem x) (hk : s'.kend = s.kend) :
    Freeable s' pgdir := by
  have hpde : ∀ z, s'.pde pgdir z = s.pde pgdir z :=
    VmState.pde_eq_of_mem hf.dir.aligned fun x hx => h x (.inl hx)
  exact {
    dir := hf.dir.of_pde hpde
    user := fun x e hx he hp => hf.user x e hx (by rw [← VmState.entry_eq_of_mem hf.dir.aligned h]; exact he) hp
    tables := fun x hx => by
      rw [hpde x, hk] at *
      exact hf.tables x hx
    ne_zero := hf.ne_zero
    kend_le := hk ▸ hf.kend_le
    lt_phystop := hf.lt_phystop }

end Free

/-- Away from its three entries, the memory of `twoPages` holds zero bytes. -/
theorem readLE_twoPages_of_gap {a : Nat} (h : 0x1002 ≤ a ∧ a + 4 ≤ 0x2000 ∨ 0x2006 ≤ a) :
    readLE twoPages.mem a 4 = 0 := by
  have hzero : readLE twoPages.mem a 4 = readLE (fun _ => 0) a 4 := by
    apply readLE_congr
    intro d hd
    simp only [twoPages]
    rw [if_neg (by omega), if_neg (by omega), if_neg (by omega), if_neg (by omega),
      if_neg (by omega), if_neg (by omega)]
  rw [hzero]
  rfl

/-- The directory of `twoPages` has one page table, for its first 4 MB. -/
theorem twoPages_pde (x : UInt32) :
    twoPages.pde (p2v 0x1000) x = if x.toNat / 2 ^ 22 = 0 then ⟨0x2007⟩ else PTE.NULL := by
  have hd : (v2p (p2v 0x1000)).toNat % PGSIZE = 0 := by decide
  have h1000 : (v2p (p2v 0x1000)).toNat = 0x1000 := by rw [v2p_p2v]; rfl
  have hx := x.toNat_lt
  unfold VmState.pde VmState.load
  rw [pdeAddr_toNat hd, h1000]
  split_ifs with h0
  · rw [h0]
    rfl
  · -- the other entries of the directory's page are zero bytes
    rw [readLE_twoPages_of_gap (by omega)]
    rfl

/-- The one present entry of `twoPages`'s directory is that of its first 4 MB. -/
theorem twoPages_present {x : UInt32} (hx : (twoPages.pde (p2v 0x1000) x).isPresent = true) :
    x.toNat / 2 ^ 22 = 0 := by
  rw [twoPages_pde] at hx
  split_ifs at hx with h0
  · exact h0
  · cases hx

/-- The directory of `twoPages` is well formed. -/
theorem twoPages_dirOk : DirOk twoPages (p2v 0x1000) :=
  ⟨by decide, fun x hx => by rw [twoPages_pde, if_pos (twoPages_present hx)]; decide,
    fun x y hx hy _ => by rw [twoPages_present hx, twoPages_present hy]⟩

/-- Shrinking `twoPages` from two pages to one clears the entry of its second page and keeps
that of its first. -/
theorem uvm_dealloc_twoPages :
    ∃ s', uvm_dealloc twoPages (p2v 0x1000) 8192 4096 = .ok (4096, s') ∧
      s'.entry (p2v 0x1000) 0x1000 = some PTE.NULL ∧
      s'.entry (p2v 0x1000) 0 = twoPages.entry (p2v 0x1000) 0 := by
  obtain ⟨-, hshrink⟩ := uvm_dealloc_spec twoPages (p2v 0x1000) 8192 4096 twoPages_dirOk
    (by decide)
    fun x e hlo hhi he _ => by
      -- the one page of the range is the second, mapped to `0x4000`
      have hpage : x.toNat / 4096 = (0x1000 : UInt32).toNat / 4096 := by
        rw [pg_rounddown_toNat] at hlo hhi
        have : (pg_roundup 4096).toNat = 4096 := by decide
        rw [this] at hlo
        have : (8192 : UInt32).toNat = 8192 := rfl
        rw [this] at hhi
        have : (0x1000 : UInt32).toNat = 4096 := rfl
        rw [this]
        omega
      rw [VmState.entry_congr hpage, show twoPages.entry (p2v 0x1000) 0x1000 = some ⟨0x4007⟩ by
        decide] at he
      cases he
      decide
  obtain ⟨-, s', hrun, hc⟩ := hshrink (by decide)
  refine ⟨s', hrun, ?_, ?_⟩
  · rw [hc.entry, if_pos ⟨by decide, by decide, by decide⟩]
  · rw [hc.entry, if_neg (by decide)]

/-- A process of two pages whose second page's entry is present and names the physical page 0. -/
def pageZero : VmState where
  mem a :=
    if a = 0x1000 then 0x07 else if a = 0x1001 then 0x20
    else if a = 0x2000 then 0x07 else if a = 0x2001 then 0x30
    else if a = 0x2004 then 0x07
    else 0
  freelist := []
  kend := p2v 0x1000

set_option maxRecDepth 20000 in
/-- Shrinking that process to one page panics on the entry of its second page. -/
theorem uvm_dealloc_kfree :
    (Prod.fst <$> uvm_dealloc pageZero (p2v 0x1000) 8192 4096) = .panic "kfree" := by
  decide

end Xv6
