import Mathlib
import Xv6.CopyOut

/-!
# The page table as the kernel reads it

The directory entry and the page-table entry of an address, as `walk_pgdir` finds them in the
bytes of physical memory (`VmState.pde`, `VmState.entry`), and the writes that `map_pages` and
`uvm_dealloc` make: an entry stored into a page table, and a page table taken from the free list,
zeroed and entered in the directory.

The entries are words of the directory's page and of the page-table pages, so a store to one
leaves the others alone when the directory is a page of its own and the page table of each present
directory entry is another page, of no other entry (`DirOk`), and the pages of the free list are
none of these (`FreeOk`). Then a store into the entry of a page changes the entry of that page and
of no other (`entry_store_slot`), and a new page table reads as null entries over the 4 MB of its
directory entry (`entry_addTable`). Both writes keep `DirOk` and `FreeOk`.
-/

namespace Xv6

open Machine

/-! ## Indices and addresses -/

/-- The directory index of an address is its top ten bits. -/
theorem PDE.index_toNat (va : UInt32) : (PDE.index va).toNat = va.toNat / 2 ^ 22 := by
  have hmask : (0x3ff : UInt32).toNat = 2 ^ 10 - 1 := rfl
  have hva := va.toNat_lt
  unfold PDE.index
  rw [UInt32.toNat_and, UInt32.toNat_shiftRight, hmask, Nat.and_two_pow_sub_one_eq_mod,
    show (22 : UInt32).toNat % 32 = 22 from rfl, Nat.shiftRight_eq_div_pow]
  omega

/-- The table index of an address is the ten bits below them. -/
theorem PTE.index_toNat (va : UInt32) : (PTE.index va).toNat = va.toNat / 4096 % 1024 := by
  have hmask : (0x3ff : UInt32).toNat = 2 ^ 10 - 1 := rfl
  unfold PTE.index
  rw [UInt32.toNat_and, UInt32.toNat_shiftRight, hmask, Nat.and_two_pow_sub_one_eq_mod,
    show (12 : UInt32).toNat % 32 = 12 from rfl, Nat.shiftRight_eq_div_pow]

/-- Addresses with the same top ten bits have the same directory index. -/
theorem PDE.index_eq {x y : UInt32} (h : x.toNat / 2 ^ 22 = y.toNat / 2 ^ 22) :
    PDE.index x = PDE.index y := by
  apply UInt32.toNat_inj.mp
  rw [PDE.index_toNat, PDE.index_toNat, h]

/-- Addresses of one page have the same table index. -/
theorem PTE.index_eq {x y : UInt32} (h : x.toNat / 4096 = y.toNat / 4096) :
    PTE.index x = PTE.index y := by
  apply UInt32.toNat_inj.mp
  rw [PTE.index_toNat, PTE.index_toNat, h]

theorem v2p_add (q y : UInt32) : v2p (q + y) = v2p q + y := by
  unfold v2p
  rw [UInt32.sub_eq_add_neg, UInt32.sub_eq_add_neg, UInt32.add_assoc, UInt32.add_comm y,
    ← UInt32.add_assoc]

@[simp] theorem p2v_v2p (va : UInt32) : p2v (v2p va) = va := by
  unfold p2v v2p
  exact UInt32.sub_add_cancel _ _

/-- A page-aligned address, masked to its page, is itself. -/
theorem and_pageMask_of_aligned {x : UInt32} (h : x.toNat % PGSIZE = 0) : x &&& ~~~0xfff = x := by
  have hmask : ~~~(0xfff : UInt32) = 0xFFFFF000 := by decide
  have hval : (0xFFFFF000 : UInt32).toNat = 0xFFFFF000 := rfl
  apply UInt32.toNat_inj.mp
  rw [hmask, UInt32.toNat_and, hval, and_pageMask x.toNat_lt]
  unfold PGSIZE at h
  omega

/-- The physical address of the directory entry of `va`: the word of its index in the
directory's page. -/
theorem pdeAddr_toNat {pgdir : UInt32} (hd : (v2p pgdir).toNat % PGSIZE = 0) (va : UInt32) :
    (v2p (pgdir + 4 * PDE.index va)).toNat = (v2p pgdir).toNat + 4 * (va.toNat / 2 ^ 22) := by
  have hidx := PDE.index_toNat va
  have hva := va.toNat_lt
  have hlt := (v2p pgdir).toNat_lt
  have h4 : (4 * PDE.index va).toNat = 4 * (va.toNat / 2 ^ 22) := by
    rw [UInt32.toNat_mul, hidx, show (4 : UInt32).toNat = 4 from rfl]
    omega
  rw [v2p_add, UInt32.toNat_add, h4]
  unfold PGSIZE at hd
  omega

/-- The physical address of the entry of `va` in the page table at the physical page `T`. -/
theorem slotAddr_toNat {T : UInt32} (hT : T.toNat % PGSIZE = 0) (va : UInt32) :
    (v2p (p2v T + 4 * PTE.index va)).toNat = T.toNat + 4 * (va.toNat / 4096 % 1024) := by
  have hidx := PTE.index_toNat va
  have hlt := T.toNat_lt
  have h4 : (4 * PTE.index va).toNat = 4 * (va.toNat / 4096 % 1024) := by
    rw [UInt32.toNat_mul, hidx, show (4 : UInt32).toNat = 4 from rfl]
    omega
  rw [v2p_add, v2p_p2v, UInt32.toNat_add, h4]
  unfold PGSIZE at hT
  omega

/-! ## Entries -/

namespace PTE

/-- `PTE::new` keeps the page of a page-aligned address. -/
theorem new_address {x : UInt32} (hx : x.toNat % PGSIZE = 0) (fl : UInt32) :
    (PTE.new x fl).address = x := by
  have h0 : (UInt32.toBitVec 0xfff &&& UInt32.toBitVec (~~~0xfff)) = 0#32 := by decide
  unfold PTE.new PTE.address
  rw [← and_pageMask_of_aligned hx]
  apply UInt32.toBitVec_inj.mp
  simp only [UInt32.toBitVec_and, UInt32.toBitVec_or, BitVec.and_or_distrib_right,
    BitVec.and_assoc, BitVec.and_self, h0, BitVec.and_zero, BitVec.or_zero]

/-- An entry made with `P` among its flags is present. -/
theorem isPresent_new (x fl : UInt32) : (PTE.new x (fl ||| PTE.P)).isPresent = true := by
  unfold PTE.new PTE.isPresent PTE.P
  simp only [bne_iff_ne, ne_eq]
  intro h
  -- bit 0 of the entry is the `P` of its flags
  have hbit := congrArg (fun w => (UInt32.toBitVec w).getLsbD 0) h
  simp at hbit

/-- The entry that `walk_pgdir` puts in the directory for a new page table is present. -/
theorem isPresent_new_table (x : UInt32) :
    (PTE.new x (PTE.P ||| PTE.W ||| PTE.U)).isPresent = true := by
  rw [show PTE.P ||| PTE.W ||| PTE.U = (PTE.W ||| PTE.U) ||| PTE.P by decide]
  exact isPresent_new x _

@[simp] theorem isPresent_NULL : PTE.NULL.isPresent = false := by decide

end PTE

namespace VmState

/-- The entry of `va` in the directory `pgdir`. -/
def pde (s : VmState) (pgdir va : UInt32) : PTE := s.load (pgdir + 4 * PDE.index va)

/-- The kernel address of the entry of `va` in the page table that its directory entry names. -/
def slot (s : VmState) (pgdir va : UInt32) : UInt32 :=
  p2v (s.pde pgdir va).address + 4 * PTE.index va

/-- The entry of `va` in its page table, as `walk_pgdir(pgdir, va, false)` finds it; none when
the directory has no page table for it. -/
def entry (s : VmState) (pgdir va : UInt32) : Option PTE :=
  if (s.pde pgdir va).isPresent then some (s.load (s.slot pgdir va)) else none

/-- `va` is mapped: its entry is present. -/
def mapped (s : VmState) (pgdir va : UInt32) : Bool :=
  match s.entry pgdir va with
  | some e => e.isPresent
  | none => false

theorem mapped_eq (s : VmState) (pgdir va : UInt32) :
    mapped s pgdir va =
      match s.entry pgdir va with
      | some e => e.isPresent
      | none => false := rfl

variable {s : VmState} {pgdir : UInt32}

theorem pde_congr {x y : UInt32} (h : x.toNat / 2 ^ 22 = y.toNat / 2 ^ 22) :
    s.pde pgdir x = s.pde pgdir y := by
  unfold pde
  rw [PDE.index_eq h]

/-- The entries of two addresses of one page are one. -/
theorem entry_congr {x y : UInt32} (h : x.toNat / 4096 = y.toNat / 4096) :
    s.entry pgdir x = s.entry pgdir y := by
  have hd : s.pde pgdir x = s.pde pgdir y := pde_congr (by omega)
  unfold entry slot
  rw [hd, PTE.index_eq h]

/-- The slot of an address depends only on its directory entry. -/
theorem slot_of_pde {s' : VmState} {x : UInt32} (h : s'.pde pgdir x = s.pde pgdir x) :
    s'.slot pgdir x = s.slot pgdir x := by
  unfold slot
  rw [h]

theorem mapped_congr {x y : UInt32} (h : x.toNat / 4096 = y.toNat / 4096) :
    s.mapped pgdir x = s.mapped pgdir y := by
  simp only [mapped_eq]
  rw [entry_congr h]

/-- An address whose directory entry is missing has no entry. -/
theorem entry_of_absent {x : UInt32} (h : (s.pde pgdir x).isPresent = false) :
    s.entry pgdir x = none := by
  simp [entry, h]

/-- An entry as it was, or a null one where there was none: the address is mapped as it was. -/
theorem mapped_eq_of_entry {s' : VmState} {x : UInt32}
    (h : s'.entry pgdir x = s.entry pgdir x ∨
      (s.entry pgdir x = none ∧ s'.entry pgdir x = some PTE.NULL)) :
    s'.mapped pgdir x = s.mapped pgdir x := by
  rcases h with h | ⟨hnone, hnull⟩
  · simp only [mapped_eq]
    rw [h]
  · simp [mapped_eq, hnone, hnull]

/-- A mapped address has an entry, and it is present. -/
theorem mapped_iff {x : UInt32} :
    s.mapped pgdir x = true ↔ ∃ e, s.entry pgdir x = some e ∧ e.isPresent = true := by
  simp only [mapped_eq]
  split <;> simp_all

/-- A mapped address has its directory entry. -/
theorem isPresent_of_mapped {x : UInt32} (h : s.mapped pgdir x = true) :
    (s.pde pgdir x).isPresent = true := by
  by_contra hp
  rw [mapped_eq, entry_of_absent (Bool.of_not_eq_true hp)] at h
  cases h

end VmState

/-- `walk_pgdir` on an address whose directory entry is present: the entry's slot in its page
table, with nothing written. -/
theorem walk_pgdir_of_present {s : VmState} {pgdir va : UInt32} (alloc : Bool)
    (h : (s.pde pgdir va).isPresent = true) :
    walk_pgdir s pgdir va alloc = (some (s.slot pgdir va), s) := by
  have hp : (s.load (pgdir + 4 * PDE.index va)).isPresent = true := h
  unfold walk_pgdir
  simp only [hp, if_true]
  rfl

/-- Without allocation, `walk_pgdir` on an address without a page table finds nothing and
writes nothing. -/
theorem walk_pgdir_of_absent {s : VmState} {pgdir va : UInt32}
    (h : (s.pde pgdir va).isPresent = false) : walk_pgdir s pgdir va false = (none, s) := by
  have hp : (s.load (pgdir + 4 * PDE.index va)).isPresent = false := h
  unfold walk_pgdir
  simp [hp]

/-! ## Loads after writes -/

namespace VmState

variable {s : VmState}

/-- A load of the entry just stored returns it. -/
theorem load_store_self (s : VmState) (q : UInt32) (e : PTE) : (s.store q e).load q = e := by
  have hbits : e.bits.toNat < 256 ^ 4 := by
    have := e.bits.toNat_lt
    norm_num at this ⊢
    exact this
  unfold load store
  dsimp only
  rw [readLE_writeLE hbits, UInt32.ofNat_toNat]

/-- A store leaves the entries whose words it does not cover. -/
theorem load_store_of_disjoint {q q' : UInt32} (e : PTE)
    (h : (v2p q).toNat + 4 ≤ (v2p q').toNat ∨ (v2p q').toNat + 4 ≤ (v2p q).toNat) :
    (s.store q e).load q' = s.load q' := by
  unfold load store
  dsimp only
  rw [readLE_writeLE_of_disjoint h]

/-- Filling a page leaves the entries outside it. -/
theorem load_fill_of_disjoint {f q : UInt32} (b : UInt8)
    (h : (v2p q).toNat + 4 ≤ (v2p f).toNat ∨ (v2p f).toNat + PGSIZE ≤ (v2p q).toNat) :
    (s.fill f b).load q = s.load q := by
  unfold load fill
  dsimp only
  congr 2
  apply readLE_congr
  intro d hd
  rw [if_neg (by omega)]

/-- An entry inside a filled page is the fill byte four times. -/
theorem load_fill_of_mem {f q : UInt32} (b : UInt8) (hlo : (v2p f).toNat ≤ (v2p q).toNat)
    (hhi : (v2p q).toNat + 4 ≤ (v2p f).toNat + PGSIZE) :
    (s.fill f b).load q = ⟨UInt32.ofNat (readLE (fun _ => b) 0 4)⟩ := by
  have hfill : readLE (s.fill f b).mem (v2p q).toNat 4 = readLE (fun _ => b) (v2p q).toNat 4 := by
    apply readLE_congr
    intro d hd
    simp only [fill]
    rw [if_pos ⟨by omega, by omega⟩]
  unfold load
  rw [hfill]
  rfl

/-- An entry inside a page filled with zeros is null. -/
theorem load_fill_zero {f q : UInt32} (hlo : (v2p f).toNat ≤ (v2p q).toNat)
    (hhi : (v2p q).toNat + 4 ≤ (v2p f).toNat + PGSIZE) : (s.fill f 0).load q = PTE.NULL := by
  rw [load_fill_of_mem 0 hlo hhi]
  rfl

@[simp] theorem load_with_freelist (s : VmState) (l : List UInt32) (q : UInt32) :
    ({ s with freelist := l } : VmState).load q = s.load q := rfl

/-- A store leaves every byte outside its word. -/
theorem mem_store_of_not_mem {q : UInt32} (e : PTE) {x : Nat}
    (h : x < (v2p q).toNat ∨ (v2p q).toNat + 4 ≤ x) : (s.store q e).mem x = s.mem x :=
  writeLE_of_not_mem h

/-- Filling a page leaves every byte outside it. -/
theorem mem_fill_of_not_mem {f : UInt32} (b : UInt8) {x : Nat}
    (h : x < (v2p f).toNat ∨ (v2p f).toNat + PGSIZE ≤ x) : (s.fill f b).mem x = s.mem x := by
  unfold fill
  dsimp only
  rw [if_neg (by omega)]

end VmState

/-! ## Well-formed directories -/

/-- A page directory whose entries can be written one at a time: the directory is a whole page,
and the page table of each present entry is a page other than the directory's and than the page
table of every other entry. -/
structure DirOk (s : VmState) (pgdir : UInt32) : Prop where
  aligned : (v2p pgdir).toNat % PGSIZE = 0
  table_ne_dir : ∀ x, (s.pde pgdir x).isPresent = true → (s.pde pgdir x).address ≠ v2p pgdir
  table_inj : ∀ x y, (s.pde pgdir x).isPresent = true → (s.pde pgdir y).isPresent = true →
    (s.pde pgdir x).address = (s.pde pgdir y).address → x.toNat / 2 ^ 22 = y.toNat / 2 ^ 22

/-- A free list whose pages can become page tables of the directory `pgdir`: whole pages, none of
them the directory or a page table of it, and none twice. -/
structure FreeOk (s : VmState) (pgdir : UInt32) : Prop where
  aligned : ∀ f ∈ s.freelist, (v2p f).toNat % PGSIZE = 0
  ne_dir : ∀ f ∈ s.freelist, v2p f ≠ v2p pgdir
  ne_table : ∀ f ∈ s.freelist, ∀ x, (s.pde pgdir x).isPresent = true →
    (s.pde pgdir x).address ≠ v2p f
  nodup : (s.freelist.map v2p).Nodup

section WellFormed

variable {s s' : VmState} {pgdir : UInt32}

/-- `DirOk` reads only the directory entries. -/
theorem DirOk.of_pde (hd : DirOk s pgdir) (h : ∀ x, s'.pde pgdir x = s.pde pgdir x) :
    DirOk s' pgdir where
  aligned := hd.aligned
  table_ne_dir x hx := by
    rw [h] at hx ⊢
    exact hd.table_ne_dir x hx
  table_inj x y hx hy := by
    rw [h, h] at *
    exact hd.table_inj x y hx hy

/-- `FreeOk` reads only the directory entries and the free list. -/
theorem FreeOk.of_pde (hf : FreeOk s pgdir) (h : ∀ x, s'.pde pgdir x = s.pde pgdir x)
    (hl : s'.freelist = s.freelist) : FreeOk s' pgdir where
  aligned f hm := hf.aligned f (hl ▸ hm)
  ne_dir f hm := hf.ne_dir f (hl ▸ hm)
  ne_table f hm x hx := by
    rw [h] at hx ⊢
    exact hf.ne_table f (hl ▸ hm) x hx
  nodup := hl ▸ hf.nodup

/-- The table address a directory entry holds is page aligned. -/
theorem table_aligned (s : VmState) (pgdir x : UInt32) :
    ((s.pde pgdir x).address).toNat % PGSIZE = 0 :=
  PTE.address_toNat _

/-- The words of a directory entry and of a page-table entry are apart. -/
theorem pde_slot_disjoint (hd : DirOk s pgdir) {a : UInt32}
    (ha : (s.pde pgdir a).isPresent = true) (x : UInt32) :
    (v2p (s.slot pgdir a)).toNat + 4 ≤ (v2p (pgdir + 4 * PDE.index x)).toNat ∨
      (v2p (pgdir + 4 * PDE.index x)).toNat + 4 ≤ (v2p (s.slot pgdir a)).toNat := by
  have hne : ((s.pde pgdir a).address).toNat ≠ (v2p pgdir).toNat := fun h =>
    hd.table_ne_dir a ha (UInt32.toNat_inj.mp h)
  have hT := table_aligned s pgdir a
  have hD := hd.aligned
  unfold VmState.slot
  rw [slotAddr_toNat hT, pdeAddr_toNat hD]
  have := x.toNat_lt
  unfold PGSIZE at hT hD
  omega

/-- The words of the entries of two pages are apart. -/
theorem slot_disjoint (hd : DirOk s pgdir) {a x : UInt32}
    (ha : (s.pde pgdir a).isPresent = true) (hx : (s.pde pgdir x).isPresent = true)
    (hne : x.toNat / 4096 ≠ a.toNat / 4096) :
    (v2p (s.slot pgdir a)).toNat + 4 ≤ (v2p (s.slot pgdir x)).toNat ∨
      (v2p (s.slot pgdir x)).toNat + 4 ≤ (v2p (s.slot pgdir a)).toNat := by
  have hTa := table_aligned s pgdir a
  have hTx := table_aligned s pgdir x
  unfold VmState.slot
  rw [slotAddr_toNat hTa, slotAddr_toNat hTx]
  by_cases hdir : x.toNat / 2 ^ 22 = a.toNat / 2 ^ 22
  · -- one page table: the table indices differ
    rw [VmState.pde_congr hdir]
    omega
  · -- two page tables, on two pages
    have hT : ((s.pde pgdir x).address).toNat ≠ ((s.pde pgdir a).address).toNat := fun h =>
      hdir (hd.table_inj x a hx ha (UInt32.toNat_inj.mp h))
    unfold PGSIZE at hTa hTx
    omega

end WellFormed

/-! ## A store into a page table -/

section Store

variable {s : VmState} {pgdir a : UInt32}

/-- A store into the entry of `a` leaves every directory entry. -/
theorem pde_store_slot (hd : DirOk s pgdir) (ha : (s.pde pgdir a).isPresent = true) (e : PTE)
    (x : UInt32) : (s.store (s.slot pgdir a) e).pde pgdir x = s.pde pgdir x :=
  VmState.load_store_of_disjoint e (pde_slot_disjoint hd ha x)

/-- A store into the entry of `a` changes the entry of the page of `a`, and no other. -/
theorem entry_store_slot (hd : DirOk s pgdir) (ha : (s.pde pgdir a).isPresent = true) (e : PTE)
    (x : UInt32) :
    (s.store (s.slot pgdir a) e).entry pgdir x =
      if x.toNat / 4096 = a.toNat / 4096 then some e else s.entry pgdir x := by
  have hpde : ∀ y, (s.store (s.slot pgdir a) e).pde pgdir y = s.pde pgdir y :=
    pde_store_slot hd ha e
  split_ifs with hpage
  · -- the page of `a`: the slot is the one written
    rw [VmState.entry_congr hpage]
    simp only [VmState.entry, hpde, ha, if_true, VmState.slot_of_pde (hpde a),
      VmState.load_store_self]
  · by_cases hx : (s.pde pgdir x).isPresent
    · simp only [VmState.entry, hpde, hx, if_true, VmState.slot_of_pde (hpde x)]
      rw [VmState.load_store_of_disjoint e (slot_disjoint hd ha hx hpage)]
    · simp [VmState.entry, hpde, hx]

/-- A store into a page table keeps the directory well formed. -/
theorem DirOk.store_slot (hd : DirOk s pgdir) (ha : (s.pde pgdir a).isPresent = true)
    (e : PTE) : DirOk (s.store (s.slot pgdir a) e) pgdir :=
  hd.of_pde (pde_store_slot hd ha e)

/-- A store into a page table keeps the free list fit for page tables. -/
theorem FreeOk.store_slot (hd : DirOk s pgdir) (hf : FreeOk s pgdir)
    (ha : (s.pde pgdir a).isPresent = true) (e : PTE) : FreeOk (s.store (s.slot pgdir a) e) pgdir :=
  hf.of_pde (pde_store_slot hd ha e) rfl

end Store

/-! ## A new page table -/

/-- What `walk_pgdir` leaves when it allocates the page `f` as the page table of `a`: `f` off the
free list, zeroed, and entered in the directory with `P | W | U`. -/
def VmState.addTable (s : VmState) (pgdir a f : UInt32) (rest : List UInt32) : VmState :=
  ({ s with freelist := rest }.fill f 0).store (pgdir + 4 * PDE.index a)
    (PTE.new (v2p f) (PTE.P ||| PTE.W ||| PTE.U))

/-- `walk_pgdir` with allocation on an address without a page table takes the head of the free
list as its page table. -/
theorem walk_pgdir_alloc {s : VmState} {pgdir a f : UInt32} {rest : List UInt32}
    (ha : (s.pde pgdir a).isPresent = false) (hl : s.freelist = f :: rest) :
    walk_pgdir s pgdir a true = (some (f + 4 * PTE.index a), s.addTable pgdir a f rest) := by
  have hp : (s.load (pgdir + 4 * PDE.index a)).isPresent = false := ha
  unfold walk_pgdir
  simp only [hp, Bool.false_eq_true, if_false, Bool.not_true]
  simp only [kalloc_zeroed, kalloc, hl]
  rfl

/-- With the free list empty, `walk_pgdir` finds no page table and writes nothing. -/
theorem walk_pgdir_alloc_empty {s : VmState} {pgdir a : UInt32}
    (ha : (s.pde pgdir a).isPresent = false) (hl : s.freelist = []) :
    walk_pgdir s pgdir a true = (none, s) := by
  have hp : (s.load (pgdir + 4 * PDE.index a)).isPresent = false := ha
  unfold walk_pgdir
  simp only [hp, Bool.false_eq_true, if_false, Bool.not_true]
  simp only [kalloc_zeroed, kalloc, hl]

section Alloc

variable {s : VmState} {pgdir a f : UInt32} {rest : List UInt32}

@[simp] theorem addTable_freelist : (s.addTable pgdir a f rest).freelist = rest := rfl

/-- The facts about the new page `f` that the writes of `addTable` need. -/
structure NewTable (s : VmState) (pgdir f : UInt32) : Prop where
  aligned : (v2p f).toNat % PGSIZE = 0
  ne_dir : (v2p f).toNat ≠ (v2p pgdir).toNat
  ne_table : ∀ x, (s.pde pgdir x).isPresent = true → ((s.pde pgdir x).address).toNat ≠ (v2p f).toNat

/-- The head of a fit free list is fit to be a page table. -/
theorem FreeOk.newTable (hf : FreeOk s pgdir) (hl : s.freelist = f :: rest) :
    NewTable s pgdir f where
  aligned := hf.aligned f (by simp [hl])
  ne_dir h := hf.ne_dir f (by simp [hl]) (UInt32.toNat_inj.mp h)
  ne_table x hx h := hf.ne_table f (by simp [hl]) x hx (UInt32.toNat_inj.mp h)

/-- The new page table's entry in the directory, and every other directory entry as it was. -/
theorem pde_addTable (hd : DirOk s pgdir) (hn : NewTable s pgdir f) (x : UInt32) :
    (s.addTable pgdir a f rest).pde pgdir x =
      if x.toNat / 2 ^ 22 = a.toNat / 2 ^ 22 then PTE.new (v2p f) (PTE.P ||| PTE.W ||| PTE.U)
      else s.pde pgdir x := by
  have hD := hd.aligned
  have hF := hn.aligned
  have hne := hn.ne_dir
  have hx32 := x.toNat_lt
  unfold VmState.addTable VmState.pde
  split_ifs with hdir
  · rw [PDE.index_eq hdir, VmState.load_store_self]
  · rw [VmState.load_store_of_disjoint _ (by rw [pdeAddr_toNat hD, pdeAddr_toNat hD]; omega),
      VmState.load_fill_of_disjoint _ (by rw [pdeAddr_toNat hD]; unfold PGSIZE at hD hF ⊢; omega),
      VmState.load_with_freelist]

/-- The new page table's 4 MB read as null entries, and every other entry as it was. -/
theorem entry_addTable (hd : DirOk s pgdir) (hn : NewTable s pgdir f) (x : UInt32) :
    (s.addTable pgdir a f rest).entry pgdir x =
      if x.toNat / 2 ^ 22 = a.toNat / 2 ^ 22 then some PTE.NULL else s.entry pgdir x := by
  have hD := hd.aligned
  have hF := hn.aligned
  have hne := hn.ne_dir
  have hpde : (s.addTable pgdir a f rest).pde pgdir x = _ := pde_addTable hd hn x
  have hx32 := x.toNat_lt
  have ha32 := a.toNat_lt
  by_cases hdir : x.toNat / 2 ^ 22 = a.toNat / 2 ^ 22
  · -- the slot is a word of the zeroed page, which the directory store does not reach
    rw [if_pos hdir] at hpde
    have hslot := slotAddr_toNat hF x
    rw [if_pos hdir]
    unfold VmState.entry VmState.slot
    rw [hpde, PTE.isPresent_new_table, if_pos rfl, PTE.new_address hF]
    unfold VmState.addTable
    rw [VmState.load_store_of_disjoint _ (by rw [hslot, pdeAddr_toNat hD]; unfold PGSIZE at hD hF; omega),
      VmState.load_fill_zero (by rw [hslot]; omega) (by rw [hslot]; unfold PGSIZE; omega)]
  · rw [if_neg hdir] at hpde
    rw [if_neg hdir]
    by_cases hx : (s.pde pgdir x).isPresent
    · -- an old page table, apart from the zeroed page and from the directory
      have hT := table_aligned s pgdir x
      have hTF := hn.ne_table x hx
      have hTD : ((s.pde pgdir x).address).toNat ≠ (v2p pgdir).toNat := fun h =>
        hd.table_ne_dir x hx (UInt32.toNat_inj.mp h)
      have hslot := slotAddr_toNat hT x
      unfold VmState.entry
      rw [hpde, if_pos hx, if_pos hx, VmState.slot_of_pde hpde]
      unfold VmState.slot VmState.addTable
      rw [VmState.load_store_of_disjoint _ (by rw [hslot, pdeAddr_toNat hD]; unfold PGSIZE at hD hT; omega),
        VmState.load_fill_of_disjoint _ (by rw [hslot]; unfold PGSIZE at hT hF ⊢; omega),
        VmState.load_with_freelist]
    · rw [VmState.entry_of_absent (by rw [hpde]; simpa using hx),
        VmState.entry_of_absent (by simpa using hx)]

/-- The slot of `a` in its new page table is the one `walk_pgdir` returns. -/
theorem slot_addTable (hd : DirOk s pgdir) (hn : NewTable s pgdir f) :
    (s.addTable pgdir a f rest).slot pgdir a = f + 4 * PTE.index a := by
  unfold VmState.slot
  rw [pde_addTable hd hn a, if_pos rfl, PTE.new_address hn.aligned, p2v_v2p]

/-- A new page table keeps the directory well formed. -/
theorem DirOk.addTable (hd : DirOk s pgdir) (hn : NewTable s pgdir f) :
    DirOk (s.addTable pgdir a f rest) pgdir where
  aligned := hd.aligned
  table_ne_dir x hx := by
    rw [pde_addTable hd hn x] at hx ⊢
    split_ifs at hx ⊢ with hdir
    · rw [PTE.new_address hn.aligned]
      exact fun h => hn.ne_dir (congrArg UInt32.toNat h)
    · exact hd.table_ne_dir x hx
  table_inj x y hx hy hxy := by
    rw [pde_addTable hd hn x] at hx hxy
    rw [pde_addTable hd hn y] at hy hxy
    split_ifs at hx hy hxy with hdx hdy hdy
    · omega
    · -- the new page table is not an old one
      rw [PTE.new_address hn.aligned] at hxy
      exact absurd (congrArg UInt32.toNat hxy.symm) (hn.ne_table y hy)
    · rw [PTE.new_address hn.aligned] at hxy
      exact absurd (congrArg UInt32.toNat hxy) (hn.ne_table x hx)
    · exact hd.table_inj x y hx hy hxy

/-- A new page table from the head of the free list leaves the rest of it fit. -/
theorem FreeOk.addTable (hd : DirOk s pgdir) (hf : FreeOk s pgdir) (hl : s.freelist = f :: rest) :
    FreeOk (s.addTable pgdir a f rest) pgdir where
  aligned g hg := hf.aligned g (hl ▸ List.mem_cons_of_mem f hg)
  ne_dir g hg := hf.ne_dir g (hl ▸ List.mem_cons_of_mem f hg)
  ne_table g hg x hx := by
    have hn := hf.newTable hl
    rw [pde_addTable hd hn x] at hx ⊢
    split_ifs at hx ⊢ with hdir
    · -- the new page table is not another page of the free list
      rw [PTE.new_address hn.aligned]
      intro h
      have hnd := hf.nodup
      rw [hl, List.map_cons, List.nodup_cons] at hnd
      exact hnd.1 (List.mem_map.mpr ⟨g, hg, h.symm⟩)
    · exact hf.ne_table g (hl ▸ List.mem_cons_of_mem f hg) x hx
  nodup := by
    have hnd := hf.nodup
    rw [hl, List.map_cons, List.nodup_cons] at hnd
    exact hnd.2

end Alloc

end Xv6
