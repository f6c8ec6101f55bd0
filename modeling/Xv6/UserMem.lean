import Mathlib
import Xv6.UvmCopy

/-!
# The user memory of an address space

What a process sees through its page directory: for each address below `KERNBASE`, the flags of
its page and its byte, when the page is present (`VmState.view`). The loops of `uvm_alloc` and of
`uvm_copy` give a directory its pages one at a time: a turn takes the head of the free list,
fills it, with zeros or with a copy of the parent's page, and maps it with `map_pages`, which may
take the next free page as a page table.

`UserOk` is what the turns keep of a directory: well formed (`DirOk`), with a free list of other
pages (`FreeOk`), and with user pages of its own (`Separate`): none of them is the directory, one
of its page tables, or a free page, the pages that `map_pages` may write (`MayWrite`). `Fills`
carries a run of turns: the pages visited show what the turns put in them, and every other user
address shows what it showed before the run (`Fills.turn`). So `uvm_alloc`, with free pages
enough, maps each page from `pg_roundup size_old` up to `size_new` to a fresh page of zeros and
changes nothing else the process sees (`uvm_alloc_maps_zeroed`); and `uvm_copy` of a directory
that maps every page below `size` gives the child exactly the parent's view below
`pg_roundup size` and nothing else below `KERNBASE`, and leaves the parent's view as it was
(`uvm_copy_copies`).
-/

namespace Xv6

open Machine

/-- What the address `va` reads through the directory `pgdir`, as the processor's walk finds it:
the flags of its page and its byte, when the page is present. -/
def VmState.view (s : VmState) (pgdir va : UInt32) : Option (UInt32 × UInt8) :=
  match s.entry pgdir va with
  | some e => if e.isPresent then some (e.flags, s.mem (e.address.toNat + va.toNat % PGSIZE))
    else none
  | none => none

theorem VmState.view_eq (s : VmState) (pgdir va : UInt32) :
    s.view pgdir va =
      match s.entry pgdir va with
      | some e => if e.isPresent then some (e.flags, s.mem (e.address.toNat + va.toNat % PGSIZE))
        else none
      | none => none := rfl

/-- The user pages of `pgdir` are pages of their own: no present entry below `KERNBASE` names the
directory, one of its page tables, or a free page. -/
def Separate (s : VmState) (pgdir : UInt32) : Prop :=
  ∀ x : UInt32, x.toNat < KERNBASE → ∀ e, s.entry pgdir x = some e → e.isPresent = true →
    ¬ MayWrite s pgdir (e.address.toNat / PGSIZE)

/-- A directory that the loops of `uvm_alloc` and `uvm_copy` can give fresh pages. -/
structure UserOk (s : VmState) (pgdir : UInt32) : Prop where
  dir : DirOk s pgdir
  free : FreeOk s pgdir
  sep : Separate s pgdir

/-- The physical pages, by number, that the view of `pgdir` below `KERNBASE` reads: the
directory, its page tables, and the user pages that its present entries name. -/
def ViewPages (s : VmState) (pgdir : UInt32) (p : Nat) : Prop :=
  TablePages s pgdir p ∨ ∃ x : UInt32, x.toNat < KERNBASE ∧
    ∃ e, s.entry pgdir x = some e ∧ e.isPresent = true ∧ p = e.address.toNat / PGSIZE

/-! ## The flags of an entry -/

namespace PTE

/-- `PTE::new` keeps the low twelve bits of its flags. -/
theorem flags_new (x fl : UInt32) : (PTE.new x fl).flags = fl &&& 0xfff := by
  have h0 : (UInt32.toBitVec (~~~0xfff) &&& UInt32.toBitVec 0xfff) = 0#32 := by decide
  unfold PTE.new PTE.flags
  apply UInt32.toBitVec_inj.mp
  simp only [UInt32.toBitVec_and, UInt32.toBitVec_or, BitVec.and_or_distrib_right,
    BitVec.and_assoc, BitVec.and_self, h0, BitVec.and_zero, BitVec.zero_or]

/-- The flags of a present entry have `P` already. -/
theorem flags_or_P {e : PTE} (he : e.isPresent = true) : e.flags ||| PTE.P = e.flags := by
  unfold PTE.isPresent PTE.P at he
  unfold PTE.flags PTE.P
  -- bit 0 of the entry is set, and it is the only bit of `P`
  have hb : e.bits.toBitVec.getLsbD 0 = true := by
    have h1 : e.bits &&& 1 ≠ 0 := by simpa using he
    by_contra hne
    apply h1
    apply UInt32.toBitVec_inj.mp
    apply BitVec.eq_of_getLsbD_eq
    intro i hi
    simp only [UInt32.toBitVec_and, BitVec.getLsbD_and]
    rcases Nat.eq_zero_or_pos i with rfl | hpos
    · rw [Bool.eq_false_iff.mpr hne]
      rfl
    · simp [BitVec.getLsbD_one]
      omega
  apply UInt32.toBitVec_inj.mp
  apply BitVec.eq_of_getLsbD_eq
  intro i hi
  simp only [UInt32.toBitVec_and, UInt32.toBitVec_or, BitVec.getLsbD_or, BitVec.getLsbD_and]
  rcases Nat.eq_zero_or_pos i with rfl | hpos
  · simp [hb]
  · simp [BitVec.getLsbD_one]
    omega

/-- The flags of an entry are twelve bits. -/
theorem flags_and (e : PTE) : e.flags &&& 0xfff = e.flags := by
  unfold PTE.flags
  rw [UInt32.and_assoc, UInt32.and_self]

end PTE

/-! ## The view -/

namespace VmState

variable {s s' : VmState} {pgdir : UInt32}

/-- An address shows nothing exactly when its page is not mapped. -/
theorem view_eq_none_iff {x : UInt32} : s.view pgdir x = none ↔ s.mapped pgdir x = false := by
  cases he : s.entry pgdir x with
  | none => simp [VmState.view_eq, mapped_eq, he]
  | some e => by_cases hp : e.isPresent = true <;> simp [VmState.view_eq, mapped_eq, he, hp]

/-- An address whose entry is present shows the entry's flags and the byte of its page. -/
theorem view_of_entry {x : UInt32} {e : PTE} (h : s.entry pgdir x = some e)
    (he : e.isPresent = true) :
    s.view pgdir x = some (e.flags, s.mem (e.address.toNat + x.toNat % PGSIZE)) := by
  simp [VmState.view_eq, h, he]

/-- A byte at an offset inside a page lies in that page. -/
theorem page_add_offset {b : Nat} (hb : b % PGSIZE = 0) (x : Nat) :
    (b + x % PGSIZE) / PGSIZE = b / PGSIZE := by
  unfold PGSIZE at *
  omega

/-- The byte that an entry shows lies in the page it names. -/
theorem page_of_offset (e : PTE) (x : UInt32) :
    (e.address.toNat + x.toNat % PGSIZE) / PGSIZE = e.address.toNat / PGSIZE :=
  page_add_offset (PTE.address_toNat e) x.toNat

/-- An entry as it was, or null where there was none, over a page whose bytes are as they were:
the address shows what it showed. -/
theorem view_eq_of_entry {x : UInt32}
    (h : s'.entry pgdir x = s.entry pgdir x ∨
      (s.entry pgdir x = none ∧ s'.entry pgdir x = some PTE.NULL))
    (hmem : ∀ e, s.entry pgdir x = some e → e.isPresent = true →
      ∀ y, y / PGSIZE = e.address.toNat / PGSIZE → s'.mem y = s.mem y) :
    s'.view pgdir x = s.view pgdir x := by
  rcases h with h | ⟨hnone, hnull⟩
  · cases he : s.entry pgdir x with
    | none => simp [VmState.view_eq, h, he]
    | some e =>
      by_cases hp : e.isPresent = true
      · rw [view_of_entry (h.trans he) hp, view_of_entry he hp,
          hmem e he hp _ (page_of_offset e x)]
      · simp [VmState.view_eq, h, he, hp]
  · simp [VmState.view_eq, hnone, hnull]

/-- The view below `KERNBASE` reads only the pages of `ViewPages`. -/
theorem view_eq_of_mem (hD : (v2p pgdir).toNat % PGSIZE = 0)
    (h : ∀ y, ViewPages s pgdir (y / PGSIZE) → s'.mem y = s.mem y) {x : UInt32}
    (hx : x.toNat < KERNBASE) : s'.view pgdir x = s.view pgdir x := by
  have hentry : s'.entry pgdir x = s.entry pgdir x :=
    entry_eq_of_mem hD (fun y hy => h y (.inl hy)) x
  refine view_eq_of_entry (.inl hentry) fun e he hp y hy => h y (.inr ⟨x, hx, e, he, hp, hy⟩)

end VmState

/-- A state that keeps the bytes of the pages the view reads keeps those pages. -/
theorem ViewPages.of_mem {s s' : VmState} {pgdir : UInt32} (hD : (v2p pgdir).toNat % PGSIZE = 0)
    (h : ∀ y, ViewPages s pgdir (y / PGSIZE) → s'.mem y = s.mem y) {p : Nat}
    (hp : ViewPages s' pgdir p) : ViewPages s pgdir p := by
  have hpde : ∀ z, s'.pde pgdir z = s.pde pgdir z :=
    VmState.pde_eq_of_mem hD fun y hy => h y (.inl (.inl hy))
  have hentry : ∀ z, s'.entry pgdir z = s.entry pgdir z :=
    VmState.entry_eq_of_mem hD fun y hy => h y (.inl hy)
  rcases hp with (hp | ⟨y, hy, hp⟩) | ⟨x, hx, e, he, hep, hp⟩
  · exact .inl (.inl hp)
  · rw [hpde] at hy hp
    exact .inl (.inr ⟨y, hy, hp⟩)
  · rw [hentry] at he
    exact .inr ⟨x, hx, e, he, hep, hp⟩

/-! ## One page mapped -/

section OnePage

variable {s s' : VmState} {pgdir a : UInt32}

/-- The pages that `map_pages` may write shrink as the free list does. -/
theorem MayWrite.mono (hpde : ∀ x, s'.pde pgdir x = s.pde pgdir x)
    (hsub : ∀ f ∈ s'.freelist, f ∈ s.freelist) {p : Nat} (h : MayWrite s' pgdir p) :
    MayWrite s pgdir p := by
  rcases h with h | ⟨y, hy, rfl⟩ | ⟨f, hf, rfl⟩
  · exact .inl h
  · rw [hpde] at hy ⊢
    exact .inr (.inl ⟨y, hy, rfl⟩)
  · exact .inr (.inr ⟨f, hsub f hf, rfl⟩)

/-- A page-aligned user address: its page is itself. -/
theorem pg_rounddown_of_aligned (ha : a.toNat % PGSIZE = 0) : pg_rounddown a = a := by
  apply UInt32.toNat_inj.mp
  rw [pg_rounddown_toNat]
  unfold PGSIZE at ha
  omega

/-- `map_pages` of one page from a page-aligned address below `KERNBASE` takes one turn. -/
theorem pageCount_page (ha : a.toNat % PGSIZE = 0) (hau : a.toNat < KERNBASE) :
    pageCount a (UInt32.ofNat PGSIZE) = 1 := by
  have h4096 : (UInt32.ofNat PGSIZE).toNat = 1 * PGSIZE := rfl
  have hmul := @pageCount_mul a (UInt32.ofNat PGSIZE) ha (by decide) (by decide)
    (by rw [h4096]; unfold KERNBASE at hau; unfold PGSIZE; omega)
  rw [h4096] at hmul
  exact Nat.eq_of_mul_eq_mul_right (by decide) hmul

/-- `map_pages` of the one page at `a`, unmapped, below `KERNBASE`, with a free page for a page
table: it maps `a`'s page to `pa` with `perm | P`, leaves every other entry as it was or null, and
writes only pages it may write, from a free list that loses a page at most. -/
theorem map_pages_one (hd : DirOk s pgdir) (hf : FreeOk s pgdir) (ha : a.toNat % PGSIZE = 0)
    (hau : a.toNat < KERNBASE) (hun : s.mapped pgdir a = false) (hl : s.freelist ≠ [])
    (pa perm : UInt32) :
    ∃ s', map_pages s pgdir a (UInt32.ofNat PGSIZE) pa perm = .ok (true, s') ∧ DirOk s' pgdir ∧
      FreeOk s' pgdir ∧ (∃ t ≤ 1, s'.freelist = s.freelist.drop t) ∧ s'.kend = s.kend ∧
      (∀ x : UInt32, x.toNat / PGSIZE = a.toNat / PGSIZE →
        s'.entry pgdir x = some (PTE.new pa (perm ||| PTE.P))) ∧
      (∀ x : UInt32, x.toNat / PGSIZE ≠ a.toNat / PGSIZE → s'.entry pgdir x = s.entry pgdir x ∨
        (s.entry pgdir x = none ∧ s'.entry pgdir x = some PTE.NULL)) ∧
      (∀ p, MayWrite s' pgdir p → MayWrite s pgdir p) ∧
      (∀ y, ¬ MayWrite s pgdir (y / PGSIZE) → s'.mem y = s.mem y) := by
  have hround := pg_rounddown_of_aligned ha
  have hcount := pageCount_page ha hau
  have h0 : pageAt a 0 = a := by simp [pageAt]
  have hfresh : ∀ j < pageCount a (UInt32.ofNat PGSIZE),
      s.mapped pgdir (pageAt (pg_rounddown a) j) = false := by
    intro j hj
    rw [hcount] at hj
    rw [show j = 0 by omega, hround, h0]
    exact hun
  -- one page table at most, which the free list has
  have henough : newTables s pgdir (pg_rounddown a) (pageCount a (UInt32.ofNat PGSIZE)) ≤
      s.freelist.length := by
    have hpos := List.length_pos_of_ne_nil hl
    rw [hcount, newTables, newTables]
    split_ifs <;> omega
  obtain ⟨s', hrun, hd', hf', hr, hfr⟩ := map_pages_fresh hd hf (by decide)
    (by unfold KERNBASE at hau; show a.toNat + 4096 - 1 < 2 ^ 32; omega) hfresh henough
  rw [hround, hcount] at hr hfr
  have hin : ∀ x : UInt32, inPages a 1 x ↔ x.toNat / PGSIZE = a.toNat / PGSIZE := by
    intro x
    unfold inPages
    rw [pg_rounddown_toNat]
    unfold PGSIZE at ha ⊢
    omega
  have hsub : ∀ f ∈ s'.freelist, f ∈ s.freelist := fun f h =>
    List.mem_of_mem_drop (hfr.freelist ▸ h)
  refine ⟨s', hrun, hd', hf', ⟨newTables s pgdir a 1, ?_, hfr.freelist⟩, hfr.kend, ?_,
    fun x hx => hr.frame x fun h => hx ((hin x).mp h), fun p h => hr.mayWrite hf hsub h,
    hfr.mem_frame⟩
  · unfold newTables newTables
    split_ifs <;> omega
  · -- the entry of `a`'s page names `pa` itself: the offset from `a` is zero
    intro x hx
    rw [hr.mapped x ((hin x).mpr hx), pg_rounddown_toNat]
    unfold PGSIZE at ha hx
    have hoff : x.toNat / 4096 * 4096 - a.toNat = 0 := by omega
    rw [hoff]
    simp

end OnePage

/-! ## The turns of the loops -/

/-- What the turns over the pages `done` leave of `s0` in the directory `pgdir`: the directory
still fit, at most two free pages taken for each page, nothing written outside the pages that
`map_pages` may write from `s0`, the addresses of each page visited showing `c`, and every other
user address what it showed in `s0`. -/
structure Fills (s0 s : VmState) (pgdir : UInt32) (c : UInt32 → Option (UInt32 × UInt8))
    (done : List UInt32) : Prop where
  ok : UserOk s pgdir
  freelist : ∃ k ≤ 2 * done.length, s.freelist = s0.freelist.drop k
  kend : s.kend = s0.kend
  mayWrite : ∀ p, MayWrite s pgdir p → MayWrite s0 pgdir p
  mem_frame : ∀ y, ¬ MayWrite s0 pgdir (y / PGSIZE) → s.mem y = s0.mem y
  view : ∀ x : UInt32, x.toNat < KERNBASE → s.view pgdir x =
    if ∃ a ∈ done, x.toNat / PGSIZE = a.toNat / PGSIZE then c x else s0.view pgdir x

section Turn

variable {s0 s s1 : VmState} {pgdir m a : UInt32} {rest : List UInt32}
  {c : UInt32 → Option (UInt32 × UInt8)} {done : List UInt32}

/-- Taking the head off a fit free list, with the directory entries as they were, keeps it fit. -/
theorem FreeOk.tail (hf : FreeOk s pgdir) (hl : s.freelist = m :: rest)
    (hpde : ∀ x, s1.pde pgdir x = s.pde pgdir x) (hl1 : s1.freelist = rest) :
    FreeOk s1 pgdir where
  aligned f hm := hf.aligned f (by rw [hl]; exact List.mem_cons_of_mem _ (hl1 ▸ hm))
  ne_dir f hm := hf.ne_dir f (by rw [hl]; exact List.mem_cons_of_mem _ (hl1 ▸ hm))
  ne_table f hm x hx := by
    rw [hpde] at hx ⊢
    exact hf.ne_table f (by rw [hl]; exact List.mem_cons_of_mem _ (hl1 ▸ hm)) x hx
  nodup := by
    have hn := hf.nodup
    rw [hl, List.map_cons, List.nodup_cons] at hn
    rw [hl1]
    exact hn.2

/-- The page taken from the head of a fit free list is none of the pages that `map_pages` may
write afterwards: not the directory, not a page table, and, the list having no page twice, not
free. -/
theorem not_mayWrite_head (hd : DirOk s pgdir) (hf : FreeOk s pgdir) (hl : s.freelist = m :: rest)
    (hpde : ∀ x, s1.pde pgdir x = s.pde pgdir x) (hl1 : s1.freelist = rest) :
    ¬ MayWrite s1 pgdir ((v2p m).toNat / PGSIZE) := by
  have hm : m ∈ s.freelist := by simp [hl]
  have hself : ¬ TablePages s pgdir ((v2p m).toNat / PGSIZE) :=
    fun h => hf.not_tablePages hd hm h rfl
  rintro (h | ⟨y, hy, h⟩ | ⟨f, hfr, h⟩)
  · exact hself (.inl h)
  · rw [hpde] at hy h
    exact hself (.inr ⟨y, hy, h⟩)
  · -- a page of the rest of the list with the page of `m` would be `m` twice
    have hn := hf.nodup
    rw [hl, List.map_cons, List.nodup_cons] at hn
    have hfrest : f ∈ rest := hl1 ▸ hfr
    have hfD : (v2p f).toNat % PGSIZE = 0 := hf.aligned f (by rw [hl]; exact List.mem_cons_of_mem _ hfrest)
    have heq : v2p m = v2p f := eq_of_page_eq (hf.aligned m hm) hfD h
    exact hn.1 (heq ▸ List.mem_map_of_mem hfrest)

/-- A page of `done ++ [a]` is one of `done` or `a`'s. -/
theorem exists_page_append {x : UInt32} :
    (∃ b ∈ done ++ [a], x.toNat / PGSIZE = b.toNat / PGSIZE) ↔
      (∃ b ∈ done, x.toNat / PGSIZE = b.toNat / PGSIZE) ∨ x.toNat / PGSIZE = a.toNat / PGSIZE := by
  simp [or_and_right, exists_or]

/-- Before any turn, a fit directory shows what it shows. -/
theorem Fills.start (h : UserOk s0 pgdir) (c : UInt32 → Option (UInt32 × UInt8)) :
    Fills s0 s0 pgdir c [] where
  ok := h
  freelist := ⟨0, Nat.zero_le _, rfl⟩
  kend := rfl
  mayWrite _ h := h
  mem_frame _ _ := rfl
  view x _ := by simp

/-- One turn at the page `a`, not visited and not mapped: the head `m` of the free list taken and
written (`s1`), then mapped at `a` with `perm`. When what `a`'s page then shows is what `c` says,
the run goes on with `a` visited. -/
theorem Fills.turn (hF : Fills s0 s pgdir c done) (hl : s.freelist = m :: rest) (hrest : rest ≠ [])
    (hfl : s1.freelist = rest) (hk : s1.kend = s.kend)
    (hw : ∀ y, y / PGSIZE ≠ (v2p m).toNat / PGSIZE → s1.mem y = s.mem y)
    (ha : a.toNat % PGSIZE = 0) (hau : a.toNat < KERNBASE)
    (hnew : ∀ b ∈ done, a.toNat / PGSIZE ≠ b.toNat / PGSIZE) (hfresh : s0.view pgdir a = none)
    (perm : UInt32)
    (hc : ∀ x : UInt32, x.toNat / PGSIZE = a.toNat / PGSIZE →
      c x = some ((perm ||| PTE.P) &&& 0xfff, s1.mem ((v2p m).toNat + x.toNat % PGSIZE))) :
    ∃ s2, map_pages s1 pgdir a (UInt32.ofNat PGSIZE) (v2p m) perm = .ok (true, s2) ∧
      Fills s0 s2 pgdir c (done ++ [a]) := by
  obtain ⟨hd, hf, hsep⟩ := hF.ok
  have hm : m ∈ s.freelist := by simp [hl]
  have hmD : (v2p m).toNat % PGSIZE = 0 := hf.aligned m hm
  -- the page `m` holds no entry of the directory, so writing it leaves them all
  have hnotT : ∀ y, TablePages s pgdir (y / PGSIZE) → s1.mem y = s.mem y :=
    fun y hy => hw y (hf.not_tablePages hd hm hy)
  have hpde1 : ∀ x, s1.pde pgdir x = s.pde pgdir x :=
    VmState.pde_eq_of_mem hd.aligned fun y hy => hnotT y (.inl hy)
  have hentry1 : ∀ x, s1.entry pgdir x = s.entry pgdir x := VmState.entry_eq_of_mem hd.aligned hnotT
  have hsub1 : ∀ f ∈ s1.freelist, f ∈ s.freelist := by
    intro f h
    rw [hfl] at h
    rw [hl]
    exact List.mem_cons_of_mem _ h
  have hmw1 : ∀ p, MayWrite s1 pgdir p → MayWrite s pgdir p := fun _ => MayWrite.mono hpde1 hsub1
  have hmfree : MayWrite s pgdir ((v2p m).toNat / PGSIZE) := .inr (.inr ⟨m, hm, rfl⟩)
  have hnotm := not_mayWrite_head hd hf hl hpde1 hfl
  -- `a` is not mapped yet
  have hun : s1.mapped pgdir a = false := by
    have hview : s.view pgdir a = none := by
      rw [hF.view a hau, if_neg fun ⟨b, hb, h⟩ => hnew b hb h]
      exact hfresh
    unfold VmState.mapped
    rw [hentry1]
    exact VmState.view_eq_none_iff.mp hview
  obtain ⟨s2, hrun, hd2, hf2, ⟨t, ht, hfl2⟩, hk2, hmapped, hframe, hmw2, hmem2⟩ :=
    map_pages_one (hd.of_pde hpde1) (hf.tail hl hpde1 hfl) ha hau hun (by rw [hfl]; exact hrest)
      (v2p m) perm
  have hmw : ∀ p, MayWrite s2 pgdir p → MayWrite s pgdir p := fun p h => hmw1 p (hmw2 p h)
  -- a byte outside the pages `map_pages` may write from `s` keeps its value through both writes
  have hkeep : ∀ y, ¬ MayWrite s pgdir (y / PGSIZE) → s2.mem y = s.mem y := by
    intro y hy
    rw [hmem2 y fun h => hy (hmw1 _ h)]
    exact hw y fun h => hy (h ▸ hmfree)
  have hview_old : ∀ x : UInt32, x.toNat < KERNBASE → x.toNat / PGSIZE ≠ a.toNat / PGSIZE →
      s2.view pgdir x = s.view pgdir x := by
    intro x hx hxa
    apply VmState.view_eq_of_entry (by rw [← hentry1 x]; exact hframe x hxa)
    intro e he hp y hy
    exact hkeep y (hy ▸ hsep x hx e he hp)
  have hnew_entry : ∀ x : UInt32, x.toNat / PGSIZE = a.toNat / PGSIZE →
      s2.view pgdir x = some ((perm ||| PTE.P) &&& 0xfff,
        s1.mem ((v2p m).toNat + x.toNat % PGSIZE)) := by
    intro x hxa
    rw [VmState.view_of_entry (hmapped x hxa) (PTE.isPresent_new _ _), PTE.flags_new,
      PTE.new_address hmD, hmem2]
    intro h
    exact hnotm (by rwa [VmState.page_add_offset hmD] at h)
  refine ⟨s2, hrun, ⟨⟨hd2, hf2, ?_⟩, ?_, hk2.trans (hk.trans hF.kend),
    fun p h => hF.mayWrite p (hmw p h),
    fun y hy => (hkeep y fun h => hy (hF.mayWrite _ h)).trans (hF.mem_frame y hy), ?_⟩⟩
  · -- the new page is `m`, which `map_pages` may not write any more; the others were apart
    intro x hx e he hp
    by_cases hxa : x.toNat / PGSIZE = a.toNat / PGSIZE
    · rw [hmapped x hxa] at he
      rw [← Option.some.inj he, PTE.new_address hmD]
      exact fun h => hnotm (hmw2 _ h)
    · rcases hframe x hxa with h | ⟨-, hnull⟩
      · rw [h, hentry1] at he
        exact fun h' => hsep x hx e he hp (hmw _ h')
      · rw [hnull] at he
        rw [← Option.some.inj he, PTE.isPresent_NULL] at hp
        cases hp
  · -- the free list lost `m` and at most one page table
    obtain ⟨k, hk', hs⟩ := hF.freelist
    refine ⟨k + 1 + t, ?_, ?_⟩
    · rw [List.length_append, List.length_singleton]
      omega
    · have hrest' : rest = s.freelist.drop 1 := by
        rw [hl]
        rfl
      rw [hfl2, hfl, hrest', hs, List.drop_drop, List.drop_drop]
      congr 1
      omega
  · intro x hx
    by_cases hxa : x.toNat / PGSIZE = a.toNat / PGSIZE
    · rw [if_pos (exists_page_append.mpr (.inr hxa)), hnew_entry x hxa, hc x hxa]
    · rw [hview_old x hx hxa, hF.view x hx]
      exact if_congr (exists_page_append.trans (or_iff_left hxa)).symm rfl rfl

end Turn

/-! ## `uvm_alloc` -/

section Alloc

variable {s0 s : VmState} {pgdir : UInt32}

/-- Filling a page sets every byte of it. -/
theorem VmState.mem_fill_of_mem {f : UInt32} (b : UInt8) {x : Nat}
    (h : (v2p f).toNat ≤ x ∧ x < (v2p f).toNat + PGSIZE) : (s.fill f b).mem x = b := by
  unfold VmState.fill
  exact if_pos h

/-- Filling the page `f` leaves every byte of every other page. -/
theorem VmState.mem_fill_of_page_ne {f : UInt32} (hf : (v2p f).toNat % PGSIZE = 0) (b : UInt8)
    {y : Nat} (hy : y / PGSIZE ≠ (v2p f).toNat / PGSIZE) : (s.fill f b).mem y = s.mem y := by
  apply VmState.mem_fill_of_not_mem
  unfold PGSIZE at *
  omega

/-- What a page that `uvm_alloc` maps shows: the flags `W | U | P`, and zero. -/
def zeroPage : UInt32 → Option (UInt32 × UInt8) := fun _ => some (PTE.W ||| PTE.U ||| PTE.P, 0)

/-- A turn of `uvm_alloc`'s loop whose `map_pages` completes ends with its state. -/
theorem allocStep_of_map {s2 : VmState} {a m : UInt32} {rest : List UInt32}
    (hl : s.freelist = m :: rest)
    (h : map_pages ({ s with freelist := rest }.fill m 0) pgdir a (UInt32.ofNat PGSIZE) (v2p m)
      (PTE.W ||| PTE.U) = .ok (true, s2)) :
    allocStep pgdir s a = .ok s2 := by
  simp only [allocStep, kalloc_zeroed, kalloc, hl, h, Outcome.ok_bind]
  rfl

/-- The `i`-th address that `stepRange` visits below `KERNBASE`: no wrap, and below `stop`. -/
theorem stepRange_toNat {start stop : UInt32} (hstop : stop.toNat < KERNBASE) {i : Nat}
    (hi : i < (stop.toNat - start.toNat + PGSIZE - 1) / PGSIZE) :
    (UInt32.ofNat (start.toNat + i * PGSIZE)).toNat = start.toNat + i * PGSIZE ∧
      start.toNat + i * PGSIZE < stop.toNat := by
  have hlt : start.toNat + i * PGSIZE < stop.toNat := by
    unfold PGSIZE at *
    omega
  refine ⟨?_, hlt⟩
  rw [UInt32.toNat_ofNat', Nat.mod_eq_of_lt]
  unfold KERNBASE at hstop
  omega

/-- From a page-aligned `start`, `(start..stop).step_by(PGSIZE)` below `KERNBASE` visits exactly
the page-aligned addresses from `start` up to `stop`. -/
theorem mem_stepRange_iff {start stop a : UInt32} (hs : start.toNat % PGSIZE = 0)
    (hstop : stop.toNat < KERNBASE) :
    a ∈ stepRange start stop ↔
      a.toNat % PGSIZE = 0 ∧ start.toNat ≤ a.toNat ∧ a.toNat < stop.toNat := by
  unfold stepRange
  rw [List.mem_map]
  constructor
  · rintro ⟨i, hi, rfl⟩
    obtain ⟨heq, hlt⟩ := stepRange_toNat hstop (List.mem_range.mp hi)
    rw [heq]
    unfold PGSIZE at *
    omega
  · rintro ⟨ha, hlo, hhi⟩
    have hi : (a.toNat - start.toNat) / PGSIZE < (stop.toNat - start.toNat + PGSIZE - 1) / PGSIZE := by
      unfold PGSIZE at *
      omega
    refine ⟨(a.toNat - start.toNat) / PGSIZE, List.mem_range.mpr hi, ?_⟩
    apply UInt32.toNat_inj.mp
    rw [(stepRange_toNat hstop hi).1]
    unfold PGSIZE at *
    omega

/-- The pages of `stepRange` are distinct. -/
theorem stepRange_pages_nodup {start stop : UInt32} (hs : start.toNat % PGSIZE = 0)
    (hstop : stop.toNat < KERNBASE) :
    ((stepRange start stop).map fun a => a.toNat / PGSIZE).Nodup := by
  have hnodup : (stepRange start stop).Nodup := by
    unfold stepRange
    refine (List.nodup_range).map_on fun i hi j hj h => ?_
    have hij := congrArg UInt32.toNat h
    rw [(stepRange_toNat hstop (List.mem_range.mp hi)).1,
      (stepRange_toNat hstop (List.mem_range.mp hj)).1] at hij
    exact Nat.eq_of_mul_eq_mul_right (by decide) (Nat.add_left_cancel hij)
  refine hnodup.map_on fun a ha b hb h => ?_
  exact eq_of_page_eq ((mem_stepRange_iff hs hstop).mp ha).1
    ((mem_stepRange_iff hs hstop).mp hb).1 h

/-- The addresses whose page `stepRange` visits, from a page-aligned `start`, are those from
`start` up to `stop` rounded up to a page. -/
theorem exists_page_stepRange {start stop x : UInt32} (hs : start.toNat % PGSIZE = 0)
    (hstop : stop.toNat < KERNBASE) :
    (∃ a ∈ stepRange start stop, x.toNat / PGSIZE = a.toNat / PGSIZE) ↔
      start.toNat ≤ x.toNat ∧ x.toNat < (pg_roundup stop).toNat := by
  rw [pg_roundup_toNat hstop]
  constructor
  · -- a page the loop visits lies between `start` and `stop` rounded up
    rintro ⟨a, ha, hxa⟩
    obtain ⟨haa, hlo, hhi⟩ := (mem_stepRange_iff hs hstop).mp ha
    unfold PGSIZE at *
    omega
  · -- and each such page is the page of an address the loop visits
    rintro ⟨hlo, hhi⟩
    have hpage : (UInt32.ofNat (x.toNat / PGSIZE * PGSIZE)).toNat = x.toNat / PGSIZE * PGSIZE := by
      rw [UInt32.toNat_ofNat',
        Nat.mod_eq_of_lt (lt_of_le_of_lt (Nat.div_mul_le_self _ _) x.toNat_lt)]
    refine ⟨UInt32.ofNat (x.toNat / PGSIZE * PGSIZE), (mem_stepRange_iff hs hstop).mpr ?_, ?_⟩
    · rw [hpage]
      unfold PGSIZE at *
      omega
    · rw [hpage]
      unfold PGSIZE
      omega

/-- The loop of `uvm_alloc` over pages that are distinct, page-aligned, below `KERNBASE`, not
mapped and not visited yet, with two free pages for each of them: it completes, each page
showing a page of zeros. By induction on the pages, a turn each (`Fills.turn`). -/
theorem allocRun : ∀ (as done : List UInt32) (s : VmState), Fills s0 s pgdir zeroPage done →
    (∀ a ∈ as, a.toNat % PGSIZE = 0 ∧ a.toNat < KERNBASE ∧ s0.view pgdir a = none) →
    (as.map fun a => a.toNat / PGSIZE).Nodup →
    (∀ a ∈ as, ∀ b ∈ done, a.toNat / PGSIZE ≠ b.toNat / PGSIZE) →
    2 * (done.length + as.length) ≤ s0.freelist.length →
    ∃ s', Outcome.run (allocStep pgdir) s as = .ok s' ∧ Fills s0 s' pgdir zeroPage (done ++ as)
  | [], done, s, hF, _, _, _, _ => ⟨s, rfl, by simpa using hF⟩
  | a :: as, done, s, hF, hpages, hnodup, hdisj, henough => by
    obtain ⟨ha, hau, hfresh⟩ := hpages a (List.mem_cons_self ..)
    rw [List.map_cons, List.nodup_cons] at hnodup
    -- two free pages at least are left: the page and a page table
    obtain ⟨m, rest, hl, hrest⟩ : ∃ m rest, s.freelist = m :: rest ∧ rest ≠ [] := by
      obtain ⟨k, hk, hs⟩ := hF.freelist
      have hlen : 2 ≤ s.freelist.length := by
        rw [hs, List.length_drop]
        rw [List.length_cons] at henough
        omega
      match hfl : s.freelist, hlen with
      | m :: r :: rest, _ => exact ⟨m, r :: rest, rfl, List.cons_ne_nil _ _⟩
    have hmD : (v2p m).toNat % PGSIZE = 0 := hF.ok.free.aligned m (by simp [hl])
    have hc : ∀ x : UInt32, x.toNat / PGSIZE = a.toNat / PGSIZE →
        zeroPage x = some ((PTE.W ||| PTE.U ||| PTE.P) &&& 0xfff,
          ({ s with freelist := rest }.fill m 0).mem ((v2p m).toNat + x.toNat % PGSIZE)) := by
      intro x _
      rw [VmState.mem_fill_of_mem 0 (by unfold PGSIZE; omega)]
      rfl
    have hfl1 : ({ s with freelist := rest }.fill m 0).freelist = rest := rfl
    have hk1 : ({ s with freelist := rest }.fill m 0).kend = s.kend := rfl
    obtain ⟨s2, hmap, hF2⟩ := hF.turn hl hrest hfl1 hk1
      (fun y hy => VmState.mem_fill_of_page_ne hmD 0 hy) ha hau
      (fun b hb => hdisj a (List.mem_cons_self ..) b hb) hfresh (PTE.W ||| PTE.U) hc
    obtain ⟨s', hrun, hF'⟩ := allocRun as (done ++ [a]) s2 hF2
      (fun b hb => hpages b (List.mem_cons_of_mem _ hb)) hnodup.2
      (fun b hb d hd => by
        rcases List.mem_append.mp hd with hd | hd
        · exact hdisj b (List.mem_cons_of_mem _ hb) d hd
        · rw [List.mem_singleton.mp hd]
          exact fun h => hnodup.1 (h ▸ List.mem_map_of_mem hb))
      (by rw [List.length_append, List.length_singleton]; rw [List.length_cons] at henough; omega)
    refine ⟨s', ?_, by simpa using hF'⟩
    rw [Outcome.run_cons, allocStep_of_map hl hmap, Outcome.ok_bind]
    exact hrun

/-- `uvm_alloc` from `size_old` to `size_new` below `KERNBASE`, of a fit directory that maps no
page from `pg_roundup size_old` up to `pg_roundup size_new`, with two free pages for each of those
pages: it returns `size_new` having mapped each of them, writable and user, to a fresh page of
zeros, and every other user address shows what it showed; the directory is still fit, and no byte
outside the pages that `map_pages` may write changes. -/
theorem uvm_alloc_maps_zeroed {size_old size_new : UInt32} (hok : UserOk s pgdir)
    (hnew : size_new.toNat < KERNBASE) (hle : size_old ≤ size_new)
    (hfresh : ∀ x : UInt32, (pg_roundup size_old).toNat ≤ x.toNat →
      x.toNat < (pg_roundup size_new).toNat → s.view pgdir x = none)
    (henough : 2 * (((pg_roundup size_new).toNat - (pg_roundup size_old).toNat) / PGSIZE) ≤
      s.freelist.length) :
    ∃ s', uvm_alloc s pgdir size_old size_new = .ok (size_new, s') ∧ UserOk s' pgdir ∧
      (∀ x : UInt32, x.toNat < KERNBASE → s'.view pgdir x =
        if (pg_roundup size_old).toNat ≤ x.toNat ∧ x.toNat < (pg_roundup size_new).toNat
        then some (PTE.W ||| PTE.U ||| PTE.P, 0) else s.view pgdir x) ∧
      (∀ y, ¬ MayWrite s pgdir (y / PGSIZE) → s'.mem y = s.mem y) := by
  have hold : size_old.toNat ≤ size_new.toNat := UInt32.le_iff_toNat_le.mp hle
  have hR := pg_roundup_toNat (lt_of_le_of_lt hold hnew)
  have hN := pg_roundup_toNat hnew
  have hRa : (pg_roundup size_old).toNat % PGSIZE = 0 := by
    rw [hR]
    unfold PGSIZE
    omega
  have hlen : (stepRange (pg_roundup size_old) size_new).length =
      ((pg_roundup size_new).toNat - (pg_roundup size_old).toNat) / PGSIZE := by
    unfold stepRange
    rw [List.length_map, List.length_range, hR, hN]
    unfold PGSIZE
    omega
  -- the loop visits the pages from `pg_roundup size_old` up to `size_new`, none of them mapped
  obtain ⟨s', hrun, hF⟩ := allocRun (stepRange (pg_roundup size_old) size_new) [] s
    (Fills.start hok zeroPage)
    (fun a ha => by
      obtain ⟨haa, hlo, hhi⟩ := (mem_stepRange_iff hRa hnew).mp ha
      refine ⟨haa, lt_trans hhi hnew, hfresh a hlo ?_⟩
      rw [hN]
      omega)
    (stepRange_pages_nodup hRa hnew) (fun _ _ _ hb => absurd hb List.not_mem_nil)
    (by rw [List.length_nil, Nat.zero_add, hlen]; exact henough)
  have hbig : ¬ UInt32.ofNat KERNBASE ≤ size_new := by
    rw [UInt32.le_iff_toNat_le]
    exact Nat.not_le.mpr hnew
  have hshrink : ¬ size_new < size_old := by
    rw [UInt32.lt_iff_toNat_lt]
    exact Nat.not_lt.mpr hold
  refine ⟨s', ?_, hF.ok, fun x hx => ?_, hF.mem_frame⟩
  · rw [uvm_alloc, if_neg hbig, if_neg hshrink, hrun]
    rfl
  · rw [hF.view x hx, List.nil_append]
    exact if_congr (exists_page_stepRange hRa hnew) rfl rfl

end Alloc

/-! ## `uvm_copy` -/

section Copy

variable {s0 s : VmState} {pgdir dir : UInt32}

/-- `copy_nonoverlapping` of a page into the page `m` leaves every byte of every other page. -/
theorem copy_nonoverlapping_of_page_ne {src m : UInt32} (hm : (v2p m).toNat % PGSIZE = 0)
    {y : Nat} (hy : y / PGSIZE ≠ (v2p m).toNat / PGSIZE) :
    (copy_nonoverlapping s src m PGSIZE).mem y = s.mem y := by
  unfold copy_nonoverlapping
  dsimp only
  rw [if_neg]
  unfold PGSIZE at *
  omega

/-- `copy_nonoverlapping` of a page: byte `k` of the page `m` is byte `k` of the source. -/
theorem copy_nonoverlapping_page {m pa : UInt32} {k : Nat} (hk : k < PGSIZE) :
    (copy_nonoverlapping s (p2v pa) m PGSIZE).mem ((v2p m).toNat + k) = s.mem (pa.toNat + k) := by
  unfold copy_nonoverlapping
  dsimp only
  rw [if_pos (by omega), v2p_p2v]
  congr 1
  omega

/-- A copy of a page whose `map_pages` completes maps it. -/
theorem copyPage_of_map {s2 : VmState} {i pa flags m : UInt32} {rest : List UInt32}
    (hl : s.freelist = m :: rest)
    (h : map_pages (copy_nonoverlapping { s with freelist := rest } (p2v pa) m PGSIZE) dir i
      (UInt32.ofNat PGSIZE) (v2p m) flags = .ok (true, s2)) :
    copyPage s dir i pa flags = .ok (true, s2) := by
  simp only [copyPage, kalloc, hl, h, Outcome.ok_bind]
  rfl

/-- A turn of `uvm_copy`'s loop at a page the parent maps, whose copy is mapped: the loop goes on
from the state the copy leaves. -/
theorem copyLoop_of_copy {s2 : VmState} {i : UInt32} {rest : List UInt32}
    (hp : (s.pde pgdir i).isPresent = true) (he : (s.load (s.slot pgdir i)).isPresent = true)
    (h : copyPage s dir i (s.load (s.slot pgdir i)).address (s.load (s.slot pgdir i)).flags =
      .ok (true, s2)) :
    copyLoop pgdir dir (i :: rest) s = copyLoop pgdir dir rest s2 := by
  rw [copyLoop, walk_pgdir_of_present false hp]
  dsimp only
  rw [if_neg (by simp [he]), h, Outcome.ok_bind]
  rfl

/-- The loop of `uvm_copy` over pages that are distinct, page-aligned, below `KERNBASE`, mapped
in the parent's directory and not in the child's, with two free pages for each: when the pages
the parent's view reads are none that `map_pages` may write into the child's directory, it
completes, each page of the child showing what the parent's shows. By induction on the pages, a
turn each (`Fills.turn`), with the parent's pages unchanged along the run. -/
theorem copyRun (hD : (v2p pgdir).toNat % PGSIZE = 0)
    (hpar : ∀ p, ViewPages s0 pgdir p → ¬ MayWrite s0 dir p) :
    ∀ (is done : List UInt32) (s : VmState), Fills s0 s dir (s0.view pgdir) done →
    (∀ a ∈ is, a.toNat % PGSIZE = 0 ∧ a.toNat < KERNBASE ∧ s0.view dir a = none ∧
      s0.mapped pgdir a = true) →
    (is.map fun a => a.toNat / PGSIZE).Nodup →
    (∀ a ∈ is, ∀ b ∈ done, a.toNat / PGSIZE ≠ b.toNat / PGSIZE) →
    2 * (done.length + is.length) ≤ s0.freelist.length →
    ∃ s', copyLoop pgdir dir is s = .ok (some dir, s') ∧
      Fills s0 s' dir (s0.view pgdir) (done ++ is)
  | [], done, s, hF, _, _, _, _ => ⟨s, rfl, by simpa using hF⟩
  | a :: is, done, s, hF, hpages, hnodup, hdisj, henough => by
    obtain ⟨ha, hau, hfresh, hmapped⟩ := hpages a (List.mem_cons_self ..)
    rw [List.map_cons, List.nodup_cons] at hnodup
    obtain ⟨m, rest, hl, hrest⟩ : ∃ m rest, s.freelist = m :: rest ∧ rest ≠ [] := by
      obtain ⟨k, hk, hs⟩ := hF.freelist
      have hlen : 2 ≤ s.freelist.length := by
        rw [hs, List.length_drop]
        rw [List.length_cons] at henough
        omega
      match hfl : s.freelist, hlen with
      | m :: r :: rest, _ => exact ⟨m, r :: rest, rfl, List.cons_ne_nil _ _⟩
    have hmD : (v2p m).toNat % PGSIZE = 0 := hF.ok.free.aligned m (by simp [hl])
    -- the run has not written the parent's pages: its entry of `a` is that of `s0`
    have hkeep : ∀ y, ViewPages s0 pgdir (y / PGSIZE) → s.mem y = s0.mem y :=
      fun y hy => hF.mem_frame y (hpar _ hy)
    have hpde : ∀ z, s.pde pgdir z = s0.pde pgdir z :=
      VmState.pde_eq_of_mem hD fun y hy => hkeep y (.inl (.inl hy))
    have hentry : ∀ z, s.entry pgdir z = s0.entry pgdir z :=
      VmState.entry_eq_of_mem hD fun y hy => hkeep y (.inl hy)
    obtain ⟨e, he0, hep⟩ := VmState.mapped_iff.mp hmapped
    have hp : (s.pde pgdir a).isPresent = true := by
      rw [hpde]
      exact VmState.isPresent_of_mapped hmapped
    have hload : s.load (s.slot pgdir a) = e := by
      have h := hentry a
      rw [VmState.entry, if_pos hp, he0] at h
      exact Option.some.inj h
    -- the copy of the parent's page into `m`
    have hfl1 : (copy_nonoverlapping { s with freelist := rest } (p2v e.address) m PGSIZE).freelist =
        rest := rfl
    have hk1 : (copy_nonoverlapping { s with freelist := rest } (p2v e.address) m PGSIZE).kend =
        s.kend := rfl
    have hc : ∀ x : UInt32, x.toNat / PGSIZE = a.toNat / PGSIZE →
        s0.view pgdir x = some ((e.flags ||| PTE.P) &&& 0xfff,
          (copy_nonoverlapping { s with freelist := rest } (p2v e.address) m PGSIZE).mem
            ((v2p m).toNat + x.toNat % PGSIZE)) := by
      intro x hxa
      have hex : s0.entry pgdir x = some e := by
        rw [VmState.entry_congr hxa]
        exact he0
      rw [VmState.view_of_entry hex hep, PTE.flags_or_P hep, PTE.flags_and,
        copy_nonoverlapping_page (Nat.mod_lt _ (by decide))]
      -- the parent's page is one its view reads, which the run has not written
      have hpage : ViewPages s0 pgdir ((e.address.toNat + x.toNat % PGSIZE) / PGSIZE) := by
        rw [VmState.page_of_offset]
        exact .inr ⟨a, hau, e, he0, hep, rfl⟩
      rw [← hkeep _ hpage]
    obtain ⟨s2, hmap, hF2⟩ := hF.turn hl hrest hfl1 hk1
      (fun y hy => copy_nonoverlapping_of_page_ne hmD hy) ha hau
      (fun b hb => hdisj a (List.mem_cons_self ..) b hb) hfresh e.flags hc
    obtain ⟨s', hrun, hF'⟩ := copyRun hD hpar is (done ++ [a]) s2 hF2
      (fun b hb => hpages b (List.mem_cons_of_mem _ hb)) hnodup.2
      (fun b hb d hd => by
        rcases List.mem_append.mp hd with hd | hd
        · exact hdisj b (List.mem_cons_of_mem _ hb) d hd
        · rw [List.mem_singleton.mp hd]
          exact fun h => hnodup.1 (h ▸ List.mem_map_of_mem hb))
      (by rw [List.length_append, List.length_singleton]; rw [List.length_cons] at henough; omega)
    refine ⟨s', ?_, by simpa using hF'⟩
    rw [copyLoop_of_copy hp (by rw [hload]; exact hep)
      (by rw [hload]; exact copyPage_of_map hl hmap)]
    exact hrun

/-- `uvm_copy` for `fork`, from a free list of distinct pages headed by `d` with 64 pages for
`kvm_setup` and two for each page below `size`, of a fit parent directory that maps every page
below `size`, under `KERNBASE`: it returns `d`, the child's directory, fit, whose user half shows
exactly what the parent's shows below `size` rounded up to a page, and nothing above; the parent
shows what it showed. -/
theorem uvm_copy_copies {data size d : UInt32} {rest : List UInt32}
    (hdata : data.toNat % PGSIZE = 0) (htext : KERNLINK < data.toNat)
    (hphys : data.toNat < KERNBASE + PHYSTOP) (hl : s.freelist = d :: rest)
    (hpar : UserOk s pgdir) (hsize : size.toNat < KERNBASE)
    (hmapped : ∀ x : UInt32, x.toNat < size.toNat → s.mapped pgdir x = true)
    (henough : 64 + 2 * ((pg_roundup size).toNat / PGSIZE) ≤ rest.length) :
    ∃ s', uvm_copy s data pgdir size = .ok (some d, s') ∧ UserOk s' d ∧
      (∀ x : UInt32, x.toNat < KERNBASE → s'.view d x =
        if x.toNat < (pg_roundup size).toNat then s.view pgdir x else none) ∧
      ∀ x : UInt32, x.toNat < KERNBASE → s'.view pgdir x = s.view pgdir x := by
  obtain ⟨hdir, hfree, hsep⟩ := hpar
  have hD := hdir.aligned
  obtain ⟨s1, hsetup, hfl1, hd1, hf1, habs, hmw1, hmem1, -⟩ :=
    kvm_setup_fit hdata htext hphys hl (by omega) hfree.aligned hfree.nodup
  -- the pages the parent's view reads are not free, so `kvm_setup` leaves them
  have hnotfree : ∀ p, ViewPages s pgdir p → ∀ f ∈ s.freelist, p ≠ (v2p f).toNat / PGSIZE := by
    rintro p (hp | ⟨x, hx, e, he, hep, rfl⟩) f hf
    · have hne := hfree.not_tablePages hdir hf (x := p * PGSIZE)
        (by rwa [Nat.mul_div_cancel _ (by decide)])
      rwa [Nat.mul_div_cancel _ (by decide)] at hne
    · exact fun h => hsep x hx e he hep (.inr (.inr ⟨f, hf, h⟩))
  have hkeep1 : ∀ y, ViewPages s pgdir (y / PGSIZE) → s1.mem y = s.mem y :=
    fun y hy => hmem1 y (hnotfree _ hy)
  have hview1 : ∀ x : UInt32, x.toNat < KERNBASE → s1.view pgdir x = s.view pgdir x :=
    fun x hx => VmState.view_eq_of_mem hD hkeep1 hx
  -- and they are none of the pages that `map_pages` may write into the child's directory
  have hpar1 : ∀ p, ViewPages s1 pgdir p → ¬ MayWrite s1 d p := by
    intro p hp hmw
    obtain ⟨f, hf, rfl⟩ := hmw1 p hmw
    exact hnotfree _ (ViewPages.of_mem hD hkeep1 hp) f hf rfl
  -- the child's user half is empty
  have hnone : ∀ x : UInt32, x.toNat < KERNBASE → s1.entry d x = none :=
    fun x hx => VmState.entry_of_absent (habs x hx)
  have hchild : UserOk s1 d := ⟨hd1, hf1, fun x hx e he _ => by rw [hnone x hx] at he; cases he⟩
  have hlen : (stepRange 0 size).length = (pg_roundup size).toNat / PGSIZE := by
    have h0 : (0 : UInt32).toNat = 0 := rfl
    unfold stepRange
    rw [List.length_map, List.length_range, pg_roundup_toNat hsize, h0]
    unfold PGSIZE
    omega
  obtain ⟨s', hrun, hF⟩ := copyRun hD hpar1 (stepRange 0 size) [] s1 (Fills.start hchild _)
    (fun a ha => by
      obtain ⟨haa, -, hhi⟩ := (mem_stepRange_iff (by decide) hsize).mp ha
      refine ⟨haa, lt_trans hhi hsize, ?_, ?_⟩
      · rw [VmState.view_eq_none_iff, VmState.mapped, hnone a (lt_trans hhi hsize)]
      · rw [VmState.mapped, VmState.entry_eq_of_mem hD (fun y hy => hkeep1 y (.inl hy)),
          ← VmState.mapped]
        exact hmapped a hhi)
    (stepRange_pages_nodup (by decide) hsize) (fun _ _ _ hb => absurd hb List.not_mem_nil)
    (by rw [List.length_nil, Nat.zero_add, hlen, hfl1, List.length_drop]; omega)
  refine ⟨s', ?_, hF.ok, fun x hx => ?_, fun x hx => ?_⟩
  · rw [uvm_copy, hsetup, Outcome.ok_bind]
    exact hrun
  · have hempty : s1.view d x = none := by
      rw [VmState.view_eq_none_iff, VmState.mapped, hnone x hx]
    rw [hF.view x hx, List.nil_append, hview1 x hx, hempty]
    refine if_congr ((exists_page_stepRange (by decide) hsize).trans ?_) rfl rfl
    exact and_iff_right (Nat.zero_le _)
  · rw [← hview1 x hx]
    exact VmState.view_eq_of_mem hD (fun y hy => hF.mem_frame y (hpar1 _ hy)) hx

end Copy

/-! ## The runs on `twoPages` -/

/-- `twoPages` with 69 free pages, from the physical page `0x100000` up: room for `fork`. -/
def forkRoom : VmState :=
  { twoPages with
    freelist := (List.range 69).map fun j => p2v (UInt32.ofNat (0x100000 + j * PGSIZE)) }

/-- The physical address of `forkRoom`'s free page `j`. -/
theorem forkRoom_page_toNat {j : Nat} (hj : j < 69) :
    (v2p (p2v (UInt32.ofNat (0x100000 + j * PGSIZE)))).toNat = 0x100000 + j * PGSIZE := by
  rw [v2p_p2v, UInt32.toNat_ofNat']
  unfold PGSIZE
  omega

/-- The free pages of `forkRoom`, by their physical addresses. -/
theorem forkRoom_free {f : UInt32} (hf : f ∈ forkRoom.freelist) :
    ∃ j < 69, (v2p f).toNat = 0x100000 + j * PGSIZE := by
  obtain ⟨j, hj, rfl⟩ := List.mem_map.mp hf
  have hj' := List.mem_range.mp hj
  exact ⟨j, hj', forkRoom_page_toNat hj'⟩

/-- `forkRoom` has the memory, hence the page table, of `twoPages`. -/
theorem forkRoom_entry (x : UInt32) :
    forkRoom.entry (p2v 0x1000) x = twoPages.entry (p2v 0x1000) x :=
  VmState.entry_eq_of_mem (by decide) (fun _ _ => rfl) x

theorem forkRoom_pde (x : UInt32) : forkRoom.pde (p2v 0x1000) x = twoPages.pde (p2v 0x1000) x :=
  VmState.pde_eq_of_mem (by decide) (fun _ _ => rfl) x

/-- The pages that `map_pages` may write into `forkRoom`'s directory: the directory `0x1000`, its
page table `0x2000`, and the free pages from `0x100000`. -/
theorem forkRoom_mayWrite {p : Nat} (h : MayWrite forkRoom (p2v 0x1000) p) :
    p = 1 ∨ p = 2 ∨ 256 ≤ p := by
  rcases h with h | ⟨y, hy, rfl⟩ | ⟨f, hf, rfl⟩
  · rw [h]
    decide
  · rw [forkRoom_pde] at hy ⊢
    rw [twoPages_pde, if_pos (twoPages_present hy)]
    decide
  · obtain ⟨j, _, h⟩ := forkRoom_free hf
    rw [h]
    unfold PGSIZE
    omega

/-- `forkRoom`'s directory is fit: its free pages lie above its own, and its two user pages
`0x3000` and `0x4000` are neither. -/
theorem forkRoom_userOk : UserOk forkRoom (p2v 0x1000) where
  dir := twoPages_dirOk.of_pde forkRoom_pde
  free :=
    { aligned := fun f hf => by
        obtain ⟨j, _, h⟩ := forkRoom_free hf
        rw [h]
        unfold PGSIZE
        omega
      ne_dir := fun f hf heq => by
        obtain ⟨j, _, h⟩ := forkRoom_free hf
        rw [heq, show (v2p (p2v 0x1000)).toNat = 0x1000 by decide] at h
        unfold PGSIZE at h
        omega
      ne_table := fun f hf x hx heq => by
        obtain ⟨j, _, h⟩ := forkRoom_free hf
        rw [forkRoom_pde] at hx heq
        rw [← heq, twoPages_pde, if_pos (twoPages_present hx),
          show (PTE.address ⟨0x2007⟩).toNat = 0x2000 by decide] at h
        unfold PGSIZE at h
        omega
      nodup := by
        -- distinct page numbers give distinct physical addresses
        change (((List.range 69).map fun j => p2v (UInt32.ofNat (0x100000 + j * PGSIZE))).map
          v2p).Nodup
        rw [List.map_map]
        refine List.nodup_range.map_on fun i hi j hj h => ?_
        have hij := congrArg UInt32.toNat h
        simp only [Function.comp_apply] at hij
        rw [forkRoom_page_toNat (List.mem_range.mp hi), forkRoom_page_toNat (List.mem_range.mp hj)]
          at hij
        unfold PGSIZE at hij
        omega }
  sep x _ e he hp hmw := by
    rw [forkRoom_entry, twoPages_entry] at he
    -- the present entries name the pages `0x3000` and `0x4000`
    have hpage : e.address.toNat / PGSIZE = 3 ∨ e.address.toNat / PGSIZE = 4 := by
      split_ifs at he <;> cases he
      · exact .inl (by decide)
      · exact .inr (by decide)
      · cases hp
    rcases forkRoom_mayWrite hmw with h | h | h <;> omega

/-- Growing `forkRoom` from two pages to three maps the third to a page of zeros. -/
theorem uvm_alloc_maps_zeroed_forkRoom :
    UserOk forkRoom (p2v 0x1000) ∧
      ∃ s', uvm_alloc forkRoom (p2v 0x1000) 8192 12288 = .ok (12288, s') ∧
        s'.view (p2v 0x1000) 0x2010 = some (PTE.W ||| PTE.U ||| PTE.P, 0) ∧
        s'.view (p2v 0x1000) 0x1010 = forkRoom.view (p2v 0x1000) 0x1010 := by
  have hfresh : ∀ x : UInt32, (pg_roundup 8192).toNat ≤ x.toNat →
      x.toNat < (pg_roundup 12288).toNat → forkRoom.view (p2v 0x1000) x = none := by
    intro x hlo hhi
    rw [show (pg_roundup 8192).toNat = 8192 by decide] at hlo
    rw [show (pg_roundup 12288).toNat = 12288 by decide] at hhi
    rw [VmState.view_eq_none_iff, VmState.mapped, forkRoom_entry, twoPages_entry,
      if_pos (by omega), if_neg (by omega), if_neg (by omega)]
    rfl
  obtain ⟨s', hrun, -, hview, -⟩ := uvm_alloc_maps_zeroed forkRoom_userOk (by decide)
    (by decide) hfresh (by decide)
  refine ⟨forkRoom_userOk, s', hrun, ?_, ?_⟩
  · rw [hview 0x2010 (by decide), if_pos (by decide)]
  · rw [hview 0x1010 (by decide), if_neg (by decide)]

/-- `fork` of `forkRoom`: the child's directory is the first free page, and it shows the parent's
two pages and nothing above them. -/
theorem uvm_copy_copies_forkRoom :
    UserOk forkRoom (p2v 0x1000) ∧
      ∃ s', uvm_copy forkRoom 0x80108000 (p2v 0x1000) 8192 = .ok (some (p2v 0x100000), s') ∧
        s'.view (p2v 0x100000) 0x1010 = forkRoom.view (p2v 0x1000) 0x1010 ∧
        s'.view (p2v 0x100000) 0x2010 = none := by
  have hmapped : ∀ x : UInt32, x.toNat < (8192 : UInt32).toNat →
      forkRoom.mapped (p2v 0x1000) x = true := by
    intro x hx
    rw [show (8192 : UInt32).toNat = 8192 from rfl] at hx
    rw [VmState.mapped, forkRoom_entry, twoPages_entry, if_pos (by omega)]
    by_cases h0 : x.toNat / 4096 = 0
    · rw [if_pos h0]
      rfl
    · rw [if_neg h0, if_pos (by omega)]
      rfl
  obtain ⟨s', hrun, -, hchild, -⟩ := uvm_copy_copies
    (by decide : (0x80108000 : UInt32).toNat % PGSIZE = 0) (by decide) (by decide)
    (show forkRoom.freelist = p2v 0x100000 :: forkRoom.freelist.tail from rfl) forkRoom_userOk
    (by decide) hmapped (by decide)
  refine ⟨forkRoom_userOk, s', hrun, ?_, ?_⟩
  · rw [hchild 0x1010 (by decide), if_pos (by decide)]
  · rw [hchild 0x2010 (by decide), if_neg (by decide)]

end Xv6
