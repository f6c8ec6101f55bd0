import Xv6.Param
import Xv6.Lib.Outcome
import Xv6.Lib.Bytes

/-!
# Physical pages and page tables

The physical page allocator of `kalloc.c` and the page-table code of `vm.rs`. Physical memory is
a byte memory; the kernel reaches a physical address `pa` at the kernel address `p2v pa`, and the
entries of page directories and page tables are little-endian `u32` words in it. `kmem`'s free
list is kept as a list of the free pages' kernel addresses, head first, rather than as the links
that `kfree` writes into the pages themselves. Addresses and sizes are `usize`, 32 bits wide on
i386, so they are `UInt32`.

The loops over page ranges are runs (`Machine.Outcome.run`) over the list of addresses that the
code's `for` visits; `map_pages` runs its `loop` for the number of pages from `pg_rounddown va` to
`pg_rounddown (va + size - 1)`, the point where the code's `a == last` ends it.

`uvm_alloc` refuses a size past `KERNBASE` (`uvm_alloc_too_big`), but its out-of-memory paths reach
the `unimplemented!()` left where the C code undoes its work: with the free list empty it panics
at its first page (`uvm_alloc_out_of_memory`).
-/

namespace Xv6

open Machine

/-- `PHYSTOP`, the top of physical memory. -/
def PHYSTOP : Nat := 0xE000000

/-- `NPDENTRIES`, the entries of a page directory. -/
def NPDENTRIES : Nat := 1024

/-- `p2v`: the kernel address of a physical address. -/
def p2v (pa : UInt32) : UInt32 := pa + UInt32.ofNat KERNBASE

/-- `v2p`: the physical address of a kernel address. -/
def v2p (va : UInt32) : UInt32 := va - UInt32.ofNat KERNBASE

/-- `pg_roundup`. -/
def pg_roundup (size : UInt32) : UInt32 := (size + UInt32.ofNat PGSIZE - 1) &&& ~~~(UInt32.ofNat PGSIZE - 1)

/-- `pg_rounddown`. -/
def pg_rounddown (size : UInt32) : UInt32 := size &&& ~~~(UInt32.ofNat PGSIZE - 1)

/-- `pg_address`: the address of entry `entry_id` of table `tbl_id`, at `offset`. -/
def pg_address (tbl_id entry_id offset : UInt32) : UInt32 :=
  (tbl_id <<< 22) ||| (entry_id <<< 12) ||| offset

/-- `PTE`, a page-table entry: a page's physical address and its flags. A `PDE` is the same word,
with the address of a page table. -/
structure PTE where
  /-- The entry's word. -/
  bits : UInt32
  deriving DecidableEq, Repr

namespace PTE

/-- `PTE::NULL`. -/
def NULL : PTE := ⟨0⟩

/-- `PTE::P`: present. -/
def P : UInt32 := 0x001
/-- `PTE::W`: writable. -/
def W : UInt32 := 0x002
/-- `PTE::U`: user. -/
def U : UInt32 := 0x004

/-- `PTE::new`: the page address's high bits and the flags' low bits. -/
def new (addr flags : UInt32) : PTE := ⟨(addr &&& ~~~0xfff) ||| (flags &&& 0xfff)⟩

/-- `PTE::is_present`. -/
def isPresent (e : PTE) : Bool := e.bits &&& P != 0

/-- `PTE::is_user`. -/
def isUser (e : PTE) : Bool := e.bits &&& U != 0

/-- `PTE::address`. -/
def address (e : PTE) : UInt32 := e.bits &&& ~~~0xfff

/-- `PTE::flags`. -/
def flags (e : PTE) : UInt32 := e.bits &&& 0xfff

/-- `PTE::index`: the entry of `va` in its page table. -/
def index (va : UInt32) : UInt32 := (va >>> 12) &&& 0x3ff

end PTE

/-- `PDE::index`: the entry of `va` in the page directory. -/
def PDE.index (va : UInt32) : UInt32 := (va >>> 22) &&& 0x3ff

/-- Physical memory and the allocator. -/
structure VmState where
  /-- The bytes of physical memory. -/
  mem : Nat → UInt8
  /-- `kmem.freelist`: the free pages, as kernel addresses, the head first. -/
  freelist : List UInt32
  /-- `end`, the first address after the kernel's image; set at link time. -/
  kend : UInt32

namespace VmState

/-- The entry at the kernel address `va`. -/
def load (s : VmState) (va : UInt32) : PTE :=
  ⟨UInt32.ofNat (readLE s.mem (v2p va).toNat 4)⟩

/-- A write of the entry `e` to the kernel address `va`. -/
def store (s : VmState) (va : UInt32) (e : PTE) : VmState :=
  { s with mem := writeLE s.mem (v2p va).toNat 4 e.bits.toNat }

/-- The page at the kernel address `va` filled with the byte `b`, as `memset` does. -/
def fill (s : VmState) (va : UInt32) (b : UInt8) : VmState :=
  { s with mem := fun x => if (v2p va).toNat ≤ x ∧ x < (v2p va).toNat + PGSIZE then b else s.mem x }

end VmState

/-- `kalloc`: the head of the free list, or nothing when it is empty. -/
def kalloc (s : VmState) : Option UInt32 × VmState :=
  match s.freelist with
  | r :: rest => (some r, { s with freelist := rest })
  | [] => (none, s)

/-- `kfree`: check the page, fill it with junk, and push it on the free list. -/
def kfree (s : VmState) (v : UInt32) : Outcome VmState :=
  if v.toNat % PGSIZE != 0 || v < s.kend || PHYSTOP ≤ (v2p v).toNat then .panic "kfree"
  else pure { s.fill v 1 with freelist := v :: s.freelist }

/-- `kalloc_zeroed`: `kalloc`, then zero the page. -/
def kalloc_zeroed (s : VmState) : Option UInt32 × VmState :=
  match kalloc s with
  | (some addr, s) => (some addr, s.fill addr 0)
  | (none, s) => (none, s)

/-- `walk_pgdir`: the kernel address of the entry of `va` in the page table of `pgdir`; with
`alloc`, a missing page table is allocated, zeroed and entered in the directory. -/
def walk_pgdir (s : VmState) (pgdir va : UInt32) (alloc : Bool) : Option UInt32 × VmState :=
  let pde := pgdir + 4 * PDE.index va
  if (s.load pde).isPresent then (some (p2v (s.load pde).address + 4 * PTE.index va), s)
  else if !alloc then (none, s)
  else
    match kalloc_zeroed s with
    | (some pgtab, s) =>
      (some (pgtab + 4 * PTE.index va), s.store pde (PTE.new (v2p pgtab) (PTE.P ||| PTE.W ||| PTE.U)))
    | (none, s) => (none, s)

/-- The `loop` of `map_pages` from `a`, mapping to `pa`, for `n` more pages; the last one is
`last`. -/
def mapPagesLoop (pgdir last perm : UInt32) : Nat → UInt32 → UInt32 → VmState →
    Outcome (Bool × VmState)
  | 0, _, _, s => pure (true, s)
  | n + 1, a, pa, s =>
    match walk_pgdir s pgdir a true with
    | (some pte, s) =>
      if (s.load pte).isPresent then .panic "remap"
      else
        let s := s.store pte (PTE.new pa (perm ||| PTE.P))
        if a == last then pure (true, s)
        else mapPagesLoop pgdir last perm n (a + UInt32.ofNat PGSIZE) (pa + UInt32.ofNat PGSIZE) s
    | (none, s) => pure (false, s)

/-- `map_pages`: map the pages of `[va, va + size)` to the physical pages from `pa`. The loop
ends at `last` after `(last - a) / PGSIZE + 1` pages. -/
def map_pages (s : VmState) (pgdir va size pa perm : UInt32) : Outcome (Bool × VmState) :=
  let a := pg_rounddown va
  let last := pg_rounddown (va + size - 1)
  mapPagesLoop pgdir last perm ((last - a).toNat / PGSIZE + 1) a pa s

/-- The addresses that `(start..stop).step_by(PGSIZE)` visits. -/
def stepRange (start stop : UInt32) : List UInt32 :=
  (List.range ((stop.toNat - start.toNat + PGSIZE - 1) / PGSIZE)).map
    fun i => UInt32.ofNat (start.toNat + i * PGSIZE)

/-- One turn of `uvm_alloc`'s loop at `a`: a zeroed page, mapped at `a` for the user. Running out
of memory reaches `unimplemented!()`. -/
def allocStep (pgdir : UInt32) (s : VmState) (a : UInt32) : Outcome VmState :=
  match kalloc_zeroed s with
  | (some mem, s) => do
    let (ok, s) ← map_pages s pgdir a (UInt32.ofNat PGSIZE) (v2p mem) (PTE.W ||| PTE.U)
    if ok then pure s else .panic "not implemented"
  | (none, _) => .panic "not implemented"

/-- `uvm_alloc`: grow the user memory of `pgdir` from `size_old` to `size_new`; the new size, or
zero when `size_new` reaches `KERNBASE`. -/
def uvm_alloc (s : VmState) (pgdir size_old size_new : UInt32) : Outcome (UInt32 × VmState) :=
  if UInt32.ofNat KERNBASE ≤ size_new then pure (0, s)
  else if size_new < size_old then pure (size_old, s)
  else do
    let s ← Outcome.run (allocStep pgdir) s (stepRange (pg_roundup size_old) size_new)
    pure (size_new, s)

/-- The `while` loop of `uvm_dealloc` from `a`, for at most `n` more turns: clear the entry of
each present user page below `size_old`, and skip the range of a missing page table to the next
directory entry, `pg_address(PDE::index(a) + 1, 0, 0)`. Each turn moves `a` up by a page at
least, so `uvm_dealloc` gives the loop as many turns as there are pages below `size_old`, and it
ends by its test (`deallocLoop_fuel`). The loop counts in `Nat`: the code's `a += PGSIZE` would
wrap only for a `size_old` above `2 ^ 32 - PGSIZE`, and every caller's is at most `KERNBASE`. -/
def deallocLoop (pgdir : UInt32) (size_old : Nat) : Nat → VmState → Nat → Outcome VmState
  | 0, s, _ => pure s
  | n + 1, s, a =>
    if a < size_old then
      match walk_pgdir s pgdir (UInt32.ofNat a) false with
      | (some pte, s) =>
        if (s.load pte).isPresent then
          if (s.load pte).address == 0 then .panic "kfree"
          -- the page itself is not freed: the call to `kfree` is commented out
          else deallocLoop pgdir size_old n (s.store pte PTE.NULL) (a + PGSIZE)
        else deallocLoop pgdir size_old n s (a + PGSIZE)
      | (none, s) => deallocLoop pgdir size_old n s ((a / 2 ^ 22 + 1) * 2 ^ 22)
    else pure s

/-- `uvm_dealloc`: shrink the user memory of `pgdir` from `size_old` to `size_new`; the new
size. -/
def uvm_dealloc (s : VmState) (pgdir size_old size_new : UInt32) : Outcome (UInt32 × VmState) :=
  if size_old ≤ size_new then pure (size_old, s)
  else do
    let s ← deallocLoop pgdir size_old.toNat (size_old.toNat / PGSIZE + 1) s
      (pg_roundup size_new).toNat
    pure (size_new, s)

/-- `uvm_alloc` refuses a size at or past `KERNBASE`, and changes nothing. -/
theorem uvm_alloc_too_big {s : VmState} {pgdir size_old size_new : UInt32}
    (h : KERNBASE ≤ size_new.toNat) : uvm_alloc s pgdir size_old size_new = .ok (0, s) := by
  have hle : UInt32.ofNat KERNBASE ≤ size_new := by
    rw [UInt32.le_iff_toNat_le]
    exact h
  rw [uvm_alloc, if_pos hle]
  rfl

/-- A range that is not empty starts with its first address. -/
theorem stepRange_of_lt {start stop : UInt32} (h : start < stop) :
    ∃ rest, stepRange start stop = start :: rest := by
  have hlt := UInt32.lt_iff_toNat_lt.mp h
  obtain ⟨k, hk⟩ : ∃ k, (stop.toNat - start.toNat + PGSIZE - 1) / PGSIZE = k + 1 :=
    ⟨(stop.toNat - start.toNat + PGSIZE - 1) / PGSIZE - 1, by unfold PGSIZE; omega⟩
  refine ⟨(List.range k).map fun i => UInt32.ofNat (start.toNat + (i + 1) * PGSIZE), ?_⟩
  rw [stepRange, hk, List.range_succ_eq_map, List.map_cons, List.map_map]
  simp [Function.comp_def]

/-- With the free list empty, `uvm_alloc` of a range with a page to map reaches `unimplemented!()`
at its first page: it panics, where the C code it replaces undoes its work and returns zero. -/
theorem uvm_alloc_out_of_memory {s : VmState} {pgdir size_old size_new : UInt32}
    (hfree : s.freelist = []) (hnew : size_new.toNat < KERNBASE) (hold : size_old ≤ size_new)
    (hpage : pg_roundup size_old < size_new) :
    uvm_alloc s pgdir size_old size_new = .panic "not implemented" := by
  have hbig : ¬ UInt32.ofNat KERNBASE ≤ size_new := by
    rw [UInt32.le_iff_toNat_le]
    exact Nat.not_le.mpr hnew
  have hshrink : ¬ size_new < size_old := by
    rw [UInt32.lt_iff_toNat_lt]
    exact Nat.not_lt.mpr (UInt32.le_iff_toNat_le.mp hold)
  -- the first turn finds no page
  have hstep : allocStep pgdir s (pg_roundup size_old) = .panic "not implemented" := by
    simp [allocStep, kalloc_zeroed, kalloc, hfree]
  obtain ⟨rest, hrange⟩ := stepRange_of_lt hpage
  rw [uvm_alloc, if_neg hbig, if_neg hshrink, hrange, Outcome.run_cons, hstep]
  rfl

/-- `uvm_dealloc` to a size that is not smaller changes nothing. -/
theorem uvm_dealloc_of_le {s : VmState} {pgdir size_old size_new : UInt32}
    (h : size_old ≤ size_new) : uvm_dealloc s pgdir size_old size_new = .ok (size_old, s) := by
  rw [uvm_dealloc, if_pos h]
  rfl

/-- The loop of `uvm_dealloc` has turns enough: from a page boundary `a`, once `a + n * PGSIZE`
reaches `size_old`, it ends by its own test, and more turns change nothing. -/
theorem deallocLoop_fuel {pgdir : UInt32} {size_old n m a : Nat} {s : VmState}
    (ha : a % PGSIZE = 0) (henough : size_old ≤ a + n * PGSIZE) (hnm : n ≤ m) :
    deallocLoop pgdir size_old m s a = deallocLoop pgdir size_old n s a := by
  induction n generalizing m s a with
  | zero =>
    -- no turn is needed: the test fails at once
    have hdone : ¬ a < size_old := by omega
    cases m with
    | zero => rfl
    | succ m => simp [deallocLoop, hdone]
  | succ n ih =>
    obtain ⟨k, rfl⟩ : ∃ k, m = k + 1 := ⟨m - 1, by omega⟩
    -- every turn moves `a` up by a page at least, to another page boundary
    have hnext : ∀ (s' : VmState) (a' : Nat), a' % PGSIZE = 0 → a + PGSIZE ≤ a' →
        deallocLoop pgdir size_old k s' a' = deallocLoop pgdir size_old n s' a' := by
      intro s' a' ha' hle
      apply ih ha' _ (by omega)
      rw [Nat.succ_mul] at henough
      omega
    have hjump : (a / 2 ^ 22 + 1) * 2 ^ 22 % PGSIZE = 0 ∧ a + PGSIZE ≤ (a / 2 ^ 22 + 1) * 2 ^ 22 := by
      unfold PGSIZE at ha ⊢
      constructor <;> omega
    simp only [deallocLoop]
    split
    · split
      · split
        · split
          · rfl
          · exact hnext _ _ (by unfold PGSIZE at ha ⊢; omega) (Nat.le_refl _)
        · exact hnext _ _ (by unfold PGSIZE at ha ⊢; omega) (Nat.le_refl _)
      · exact hnext _ _ hjump.1 hjump.2
    · rfl

/-- One turn of `vm_free`'s loop over the directory: free the page table of a present entry. -/
def freePdeStep (pgdir : UInt32) (s : VmState) (i : Nat) : Outcome VmState :=
  let pde := s.load (pgdir + 4 * UInt32.ofNat i)
  if pde.isPresent then kfree s (p2v pde.address) else pure s

/-- `vm_free`: drop the user memory, then free every page table of the directory, and the
directory. -/
def vm_free (s : VmState) (pgdir : UInt32) : Outcome VmState :=
  if pgdir == 0 then .panic "vm_Free: no pgdir"
  else do
    let (_, s) ← uvm_dealloc s pgdir (UInt32.ofNat KERNBASE) 0
    let s ← Outcome.run (freePdeStep pgdir) s (List.range NPDENTRIES)
    kfree s pgdir

/-- The pages that the directory at `pgdir` owns: itself, the page table of each present entry,
and the page of each present entry of those tables below `KERNBASE`. -/
def ownedPages (s : VmState) (pgdir : UInt32) : List UInt32 :=
  pgdir :: (List.range NPDENTRIES).flatMap fun i =>
    let pde := s.load (pgdir + 4 * UInt32.ofNat i)
    if pde.isPresent then
      let pgtab := p2v pde.address
      pgtab :: if i < KERNBASE / 2 ^ 22 then
        (List.range 1024).filterMap fun j =>
          let pte := s.load (pgtab + 4 * UInt32.ofNat j)
          if pte.isPresent then some (p2v pte.address) else none
      else []
    else []

/-! ## The free list -/

namespace VmState

@[simp] theorem store_freelist (s : VmState) (va : UInt32) (e : PTE) :
    (s.store va e).freelist = s.freelist := rfl

@[simp] theorem fill_freelist (s : VmState) (va : UInt32) (b : UInt8) :
    (s.fill va b).freelist = s.freelist := rfl

@[simp] theorem store_kend (s : VmState) (q : UInt32) (e : PTE) : (s.store q e).kend = s.kend :=
  rfl

@[simp] theorem fill_kend (s : VmState) (f : UInt32) (b : UInt8) : (s.fill f b).kend = s.kend :=
  rfl

end VmState

/-- A walk that may not allocate changes nothing. -/
@[simp] theorem walk_pgdir_snd (s : VmState) (pgdir va : UInt32) :
    (walk_pgdir s pgdir va false).2 = s := by
  unfold walk_pgdir
  dsimp only
  split
  · rfl
  · rfl

/-- The loop of `uvm_dealloc` only clears entries: the free list and `end` are what they
were. -/
theorem deallocLoop_frame {pgdir : UInt32} {size_old n a : Nat} {s s' : VmState}
    (h : deallocLoop pgdir size_old n s a = .ok s') :
    s'.freelist = s.freelist ∧ s'.kend = s.kend := by
  induction n generalizing s a with
  | zero =>
    cases h
    exact ⟨rfl, rfl⟩
  | succ n ih =>
    unfold deallocLoop at h
    split at h
    · -- the walk neither allocates nor writes; the turn writes at most a null entry
      have hwalk := walk_pgdir_snd s pgdir (UInt32.ofNat a)
      split at h
      · rename_i pte s₁ heq
        obtain rfl : s₁ = s := by simpa [heq] using hwalk
        split at h
        · split at h
          · cases h
          · simpa using ih h
        · exact ih h
      · rename_i s₁ heq
        obtain rfl : s₁ = s := by simpa [heq] using hwalk
        exact ih h
    · cases h
      exact ⟨rfl, rfl⟩

/-- A process whose directory is the physical page `0x1000`, with one page table, at `0x2000`,
that maps its two user pages: `0x3000` at address 0 and `0x4000` at `0x1000`. The free list is
empty, and so is the kernel half of the directory, which `uvm_dealloc` does not read. -/
def twoPages : VmState where
  mem a :=
    if a = 0x1000 then 0x07 else if a = 0x1001 then 0x20
    else if a = 0x2000 then 0x07 else if a = 0x2001 then 0x30
    else if a = 0x2004 then 0x07 else if a = 0x2005 then 0x40
    else 0
  freelist := []
  kend := p2v 0x1000

set_option maxRecDepth 20000 in
/-- Shrinking that process from two pages to one clears the entry of its second page and frees
nothing: the page `0x4000` is then neither free nor owned by the directory. -/
theorem uvm_dealloc_loses_page :
    ownedPages twoPages (p2v 0x1000) = [p2v 0x1000, p2v 0x2000, p2v 0x3000, p2v 0x4000] ∧
    (do
      let (sz, s) ← uvm_dealloc twoPages (p2v 0x1000) 8192 4096
      pure (sz, ownedPages s (p2v 0x1000), s.freelist)) =
      .ok (4096, [p2v 0x1000, p2v 0x2000, p2v 0x3000], []) := by
  constructor
  · decide
  · decide

/-- A process of two pages, with no free page left, asks `sbrk` for one more: the kernel
panics. -/
theorem uvm_alloc_out_of_memory_twoPages :
    twoPages.freelist = [] ∧ (12288 : UInt32).toNat < KERNBASE ∧ (8192 : UInt32) ≤ 12288 ∧
      pg_roundup 8192 < 12288 ∧
      uvm_alloc twoPages (p2v 0x1000) 8192 12288 = .panic "not implemented" :=
  ⟨rfl, by decide, by decide, by decide, uvm_alloc_out_of_memory rfl (by decide) (by decide)
    (by decide)⟩

end Xv6
