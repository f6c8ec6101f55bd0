import Xv6.Vm

/-!
# Growing a process

`sys_sbrk` of `sysproc.c`, the Rust `growproc` binding and `grow_my_process` of `proc.rs`. The
binding converts the `bool` of `grow_my_process` with `into()`, to one or zero, while `sys_sbrk`
takes a negative result for a failure; so once its argument is read, `sys_sbrk` returns the old
size whatever happened, and a size past `KERNBASE`, refused by `uvm_alloc`, is reported as a
success (`sys_sbrk_too_big`).

`uvm_switch`, which loads the page directory into the processor, is left out: the model has no
processor state.
-/

namespace Xv6

open Machine

/-- The memory of the current process: its size and its page directory. -/
structure ProcMem where
  /-- `Process::sz`. -/
  sz : UInt32
  /-- `Process::pgdir`, a kernel address. -/
  pgdir : UInt32
  deriving DecidableEq, Repr

/-- `unsigned_abs` of an `isize`, 32 bits wide. -/
def unsignedAbs (n : Int32) : UInt32 := UInt32.ofNat n.toInt.natAbs

/-- `grow_my_process`: grow by `n` bytes with `uvm_alloc`, or shrink with `uvm_dealloc`; a new
size of zero is a failure, and the size is only then left alone. -/
def grow_my_process (s : VmState) (p : ProcMem) (n : Int32) : Outcome (Bool × ProcMem × VmState) := do
  let (sz, s) ←
    if 0 < n then uvm_alloc s p.pgdir p.sz (p.sz + unsignedAbs n)
    else if n < 0 then uvm_dealloc s p.pgdir p.sz (p.sz - unsignedAbs n)
    else pure (p.sz, s)
  if sz == 0 then pure (false, p, s)
  else pure (true, { p with sz }, s)

/-- The `growproc` binding: `grow_my_process(n as isize).into()`, one or zero. -/
def growproc (s : VmState) (p : ProcMem) (n : Int32) : Outcome (Int32 × ProcMem × VmState) := do
  let (grown, p, s) ← grow_my_process s p n
  pure (if grown then 1 else 0, p, s)

/-- `sys_sbrk`, given what `argint(0, &n)` read: `-1` when that failed or when `growproc` is
negative, and otherwise the old size. -/
def sys_sbrk (s : VmState) (p : ProcMem) (arg : Option Int32) : Outcome (Int32 × ProcMem × VmState) :=
  match arg with
  | some n => do
    let addr := p.sz.toInt32
    let (r, p, s) ← growproc s p n
    if r < 0 then pure (-1, p, s) else pure (addr, p, s)
  | none => pure (-1, p, s)

/-! ## What `sys_sbrk` returns -/

/-- `unsigned_abs` of a positive `i32` is its value. -/
theorem toNat_unsignedAbs (n : Int32) : (unsignedAbs n).toNat = n.toInt.natAbs := by
  have hlt := n.toInt_lt
  have hge := n.le_toInt
  rw [unsignedAbs, UInt32.toNat_ofNat']
  exact Nat.mod_eq_of_lt (by omega)

/-- A growth past `KERNBASE`, which `uvm_alloc` refuses, is reported as a success: `sys_sbrk`
returns the old size and nothing changes. -/
theorem sys_sbrk_too_big (s : VmState) (p : ProcMem) (n : Int32) (hsz : p.sz.toNat < KERNBASE)
    (hn : 0 < n) (hbig : KERNBASE ≤ p.sz.toNat + n.toInt.natAbs) :
    sys_sbrk s p (some n) = .ok (p.sz.toInt32, p, s) := by
  -- `sz + |n|` does not wrap: both are below `2 ^ 31`
  have hsum : (p.sz + unsignedAbs n).toNat = p.sz.toNat + n.toInt.natAbs := by
    have hlt := n.toInt_lt
    have hpos : 0 < n.toInt := by simpa using Int32.lt_iff_toInt_lt.mp hn
    rw [UInt32.toNat_add, toNat_unsignedAbs]
    unfold KERNBASE at hsz
    exact Nat.mod_eq_of_lt (by omega)
  have halloc : uvm_alloc s p.pgdir p.sz (p.sz + unsignedAbs n) = .ok (0, s) :=
    uvm_alloc_too_big (hsum ▸ hbig)
  simp only [sys_sbrk, growproc, grow_my_process, if_pos hn, halloc, Outcome.ok_bind]
  rfl

/-- Process 1 of one page asks for `0x7fffffff` more bytes. -/
theorem sys_sbrk_too_big_at :
    (⟨4096, p2v 0x1000⟩ : ProcMem).sz.toNat < KERNBASE ∧ (0 : Int32) < 0x7fffffff ∧
      KERNBASE ≤ (⟨4096, p2v 0x1000⟩ : ProcMem).sz.toNat + (0x7fffffff : Int32).toInt.natAbs ∧
      sys_sbrk twoPages ⟨4096, p2v 0x1000⟩ (some 0x7fffffff) =
        .ok (4096, ⟨4096, p2v 0x1000⟩, twoPages) := by
  refine ⟨by decide, by decide, by decide, ?_⟩
  exact sys_sbrk_too_big twoPages ⟨4096, p2v 0x1000⟩ 0x7fffffff (by decide) (by decide) (by decide)

end Xv6
