import Mathlib
import Xv6.Param
import Xv6.Lib.Outcome
import Xv6.Lib.Bytes
import Xv6.Strings

/-!
# System-call entry

The system-call path of `trap_handler` in `trap.rs` and `syscall`, `fetchint`, `argint` and
`argptr` of `syscall.rs`. The kernel is built for i386 in release mode, so `usize` is 32 bits
wide and its arithmetic wraps: the model uses `UInt32` for it. The user address space is a byte
memory, read as little-endian words.

The handlers `sys_fork` to `sys_close` are a parameter `handler`: what each one does is the
business of its own module, and the dispatcher only chooses which one runs and stores its result
in `eax`. A number that is not one of `syscall.h`'s, zero included since `num - 1` wraps, panics
(`syscall_unknown`). `argint` adds the stack pointer and the offset with wrapping.

The C callers of `argptr` pass an `int` size, which `argptr` takes as a `usize`, and a negative
size makes `i + size` wrap below `sz`, so the block is accepted (`argptr_negative_size`). `fetchstr` checks only `addr < sz`
and then counts with a `strlen` over four-byte Rust `char`s, so the length it returns is not the
byte length of the string (`fetchstr_counts_chars`).
-/

namespace Xv6

open Machine

/-- `SystemCall`, the system calls of `syscall.h`, under the names of the Rust enum. -/
inductive SystemCall where
  | Fork | Exit | Wait | Pipe | Read | Kill | Exec | FileStatus | ChangeDirectory | Duplicate
  | GetProcessID | SpaceBreak | Sleep | UpTime | Open | Write | MakeNode | Unlink | Link
  | MakeDirectory | Close
  deriving DecidableEq, Repr

/-- The number of a system call, its discriminant in `SystemCall` and in `syscall.h`. -/
def SystemCall.number : SystemCall → Nat
  | .Fork => 1 | .Exit => 2 | .Wait => 3 | .Pipe => 4 | .Read => 5 | .Kill => 6 | .Exec => 7
  | .FileStatus => 8 | .ChangeDirectory => 9 | .Duplicate => 10 | .GetProcessID => 11
  | .SpaceBreak => 12 | .Sleep => 13 | .UpTime => 14 | .Open => 15 | .Write => 16
  | .MakeNode => 17 | .Unlink => 18 | .Link => 19 | .MakeDirectory => 20 | .Close => 21

/-- `SYSCALLS`, the table of `syscall`: its handlers in order, each given by the system call it
implements (`sys_fork` implements `Fork`, and so on). -/
def SYSCALLS : List SystemCall :=
  [.Fork, .Exit, .Wait, .Pipe, .Read, .Kill, .Exec, .FileStatus, .ChangeDirectory, .Duplicate,
    .GetProcessID, .SpaceBreak, .Sleep, .UpTime, .Open, .Write, .MakeNode, .Unlink, .Link,
    .MakeDirectory, .Close]

/-- The registers of `TrapFrame` that the system-call path reads. -/
structure TrapFrame where
  /-- The system call number, and then its result. -/
  eax : UInt32
  /-- The user stack pointer. -/
  esp : UInt32
  deriving DecidableEq, Repr

/-- What the system-call path reads of the current `Process`. -/
structure Proc where
  /-- The process id. -/
  pid : Nat
  /-- The size of the process's memory, a `usize`. -/
  sz : UInt32
  /-- Non-zero once the process has been killed. -/
  killed : Int
  /-- The trap frame of the current system call. -/
  tf : TrapFrame
  /-- The user address space. -/
  mem : Nat → UInt8

/-- `fetchint`: the `i32` at `addr` of the process, or `-1` (`none`) when the four bytes are not
below `sz`. `addr + 4` wraps. -/
def fetchint (p : Proc) (addr : UInt32) : Option Int32 :=
  if addr ≥ p.sz || addr + 4 > p.sz then none
  else some (Int32.ofNat (readLE p.mem addr.toNat 4))

/-- `argint`: the `n`th argument, the word at `esp + 4 + 4 * n`, computed in `u32`. -/
def argint (p : Proc) (n : UInt32) : Option Int32 :=
  fetchint p (p.tf.esp + 4 + 4 * n)

/-- `argptr`: the `n`th argument as a pointer to `size` bytes inside the process. -/
def argptr (p : Proc) (n size : UInt32) : Option UInt32 :=
  match argint p n with
  | some i => if i.toUInt32 ≥ p.sz || i.toUInt32 + size > p.sz then none else some i.toUInt32
  | none => none

/-- A Rust `char` loaded from the four little-endian bytes at `a`: loading a value that is not a
Unicode scalar value is undefined behaviour. -/
def loadChar (mem : Nat → UInt8) (a : Nat) : Outcome Nat :=
  let v := readLE mem a 4
  if v < 0xD800 ∨ 0xE000 ≤ v ∧ v ≤ 0x10FFFF then pure v else .ub

/-- `strlen` of `syscall.rs`, over `*const char`: the number of four-byte `char`s before the first
zero `char` from `p`. -/
def strlen (mem : Nat → UInt8) (p : Nat) : Outcome Nat :=
  Outcome.countWhile (fun i => do
    let c ← loadChar mem (p + 4 * i)
    pure (c != 0)) ((2 ^ 32 - p) / 4) 0

/-- `fetchstr`: the `strlen` of the string at `addr`, as an `i32`, or `-1` for an address at or
past `sz`. -/
def fetchstr (p : Proc) (addr : UInt32) : Outcome Int32 :=
  if addr ≥ p.sz then pure (-1)
  else do
    let n ← strlen p.mem addr.toNat
    pure (Int32.ofNat n)

/-- `argstr`: `fetchstr` of the `n`th argument, an `i32` taken as a `usize`. -/
def argstr (p : Proc) (n : UInt32) : Outcome Int32 :=
  match argint p n with
  | some addr => fetchstr p addr.toUInt32
  | none => pure (-1)

/-- `syscall`: run the handler of the number in `eax` and store its result in `eax`; the table is
indexed by `num - 1`, which wraps, and a number outside the table panics. -/
def syscall (handler : SystemCall → Proc → Outcome (Proc × UInt32)) (p : Proc) : Outcome Proc :=
  let num := p.tf.eax
  match SYSCALLS[(num - 1).toNat]? with
  | some call => do
    let (p, eax) ← handler call p
    pure { p with tf := { p.tf with eax } }
  | none => .panic s!"{p.pid}: unknown syscall {num}"

/-- The `T_SYSCALL` branch of `trap_handler` on the trap frame `tf`: a killed process exits, before
the call and after it. The flag returned says whether the process exits. -/
def trapSyscall (handler : SystemCall → Proc → Outcome (Proc × UInt32)) (p : Proc)
    (tf : TrapFrame) : Outcome (Proc × Bool) :=
  if p.killed != 0 then pure (p, true)
  else do
    let p ← syscall handler { p with tf }
    pure (p, p.killed != 0)

/-! ## Dispatch -/

theorem length_SYSCALLS : SYSCALLS.length = 21 := rfl

variable (handler : SystemCall → Proc → Outcome (Proc × UInt32))

/-- Any other number panics, zero included: `num - 1` wraps to the largest `usize`. -/
theorem syscall_unknown (p : Proc) (h : p.tf.eax.toNat = 0 ∨ 21 < p.tf.eax.toNat) :
    syscall handler p = .panic s!"{p.pid}: unknown syscall {p.tf.eax}" := by
  have hidx : 21 ≤ (p.tf.eax - 1).toNat := by
    rw [UInt32.toNat_sub]
    have hlt := p.tf.eax.toNat_lt
    rcases h with h | h
    · rw [h]
      decide
    · rw [show (1 : UInt32).toNat = 1 from rfl]
      omega
  have hnone : SYSCALLS[(p.tf.eax - 1).toNat]? = none := by
    rw [List.getElem?_eq_none_iff, length_SYSCALLS]
    exact hidx
  simp only [syscall, hnone]

/-- A process that is not killed, trapping with a number outside `syscall.h` in `eax`, panics
the kernel. -/
theorem trapSyscall_unknown (p : Proc) (tf : TrapFrame) (hlive : p.killed = 0)
    (hnum : tf.eax.toNat = 0 ∨ 21 < tf.eax.toNat) :
    trapSyscall handler p tf = .panic s!"{p.pid}: unknown syscall {tf.eax}" := by
  have hsys := syscall_unknown handler { p with tf } hnum
  unfold trapSyscall
  rw [if_neg (by simp [hlive]), hsys]
  rfl

/-- Process 1, live, traps with zero in `eax`. -/
theorem trapSyscall_eax_zero :
    trapSyscall (fun _ p => .ok (p, 0)) ⟨1, 4096, 0, ⟨1, 0⟩, fun _ => 0⟩ ⟨0, 4092⟩ =
      .panic "1: unknown syscall 0" := by
  rw [trapSyscall_unknown _ _ _ rfl (Or.inl rfl)]
  congr 1

/-! ## Arguments -/

/-- A `char` below the surrogates is loaded as it is. -/
theorem loadChar_of_lt {mem : Nat → UInt8} {a : Nat} (h : readLE mem a 4 < 0xD800) :
    loadChar mem a = .ok (readLE mem a 4) := by
  simp only [loadChar, if_pos (Or.inl h)]
  rfl

/-- The `strlen` of `syscall.rs` counts four-byte `char`s, not bytes: a string of two ASCII bytes
followed by six zero bytes is one `char` long. So `fetchstr` returns one, where the bytes before
the terminator, as the byte `strlen` of `string.rs` counts them, are two. -/
theorem fetchstr_counts_chars (p : Proc) (addr : UInt32) (hin : addr < p.sz)
    (hend : addr.toNat + 8 ≤ 2 ^ 32) (h0 : p.mem addr.toNat ≠ 0) (h1 : p.mem (addr.toNat + 1) ≠ 0)
    (hascii : p.mem addr.toNat < 0x80 ∧ p.mem (addr.toNat + 1) < 0x80)
    (hzero : ∀ j, 2 ≤ j → j < 8 → p.mem (addr.toNat + j) = 0) :
    fetchstr p addr = .ok 1 ∧ Str.strlen p.mem addr.toNat = .ok 2 := by
  have hb0 : (p.mem addr.toNat).toNat < 0x80 := UInt8.lt_iff_toNat_lt.mp hascii.1
  have hb1 : (p.mem (addr.toNat + 1)).toNat < 0x80 := UInt8.lt_iff_toNat_lt.mp hascii.2
  have hnz0 : (p.mem addr.toNat).toNat ≠ 0 := fun h => h0 (UInt8.toNat_inj.mp h)
  have hz : ∀ j, 2 ≤ j → j < 8 → (p.mem (addr.toNat + j)).toNat = 0 := fun j hj hj' => by
    rw [hzero j hj hj']
    rfl
  -- the first `char` holds the two bytes, the second is zero
  have hc0 : readLE p.mem addr.toNat 4 =
      (p.mem addr.toNat).toNat + 256 * (p.mem (addr.toNat + 1)).toNat := by
    simp only [readLE_succ, readLE_zero, Nat.add_assoc, hz 2 (by omega) (by omega),
      hz 3 (by omega) (by omega)]
    omega
  have hc1 : readLE p.mem (addr.toNat + 4 * 1) 4 = 0 := by
    simp only [readLE_succ, readLE_zero, Nat.add_assoc, hz 4 (by omega) (by omega),
      hz 5 (by omega) (by omega), hz 6 (by omega) (by omega), hz 7 (by omega) (by omega)]
  have hlen : strlen p.mem addr.toNat = .ok 1 := by
    rw [strlen, Outcome.countWhile_eq_ok]
    refine ⟨by omega, by omega, fun j _ hj => ?_, ?_⟩
    · obtain rfl : j = 0 := by omega
      rw [Nat.mul_zero, Nat.add_zero]
      have hlt : readLE p.mem addr.toNat 4 < 0xD800 := by
        rw [hc0]
        omega
      rw [loadChar_of_lt hlt, Outcome.ok_bind, hc0]
      simp only [Outcome.pure_eq, Outcome.ok.injEq, bne_iff_ne, ne_eq]
      omega
    · rw [loadChar_of_lt (by rw [hc1]; decide), hc1]
      rfl
  have hbytes : Str.strlen p.mem addr.toNat = .ok 2 := by
    refine Str.strlen_eq_ok.mpr ⟨by omega, fun j hj => ?_, hzero 2 (by omega) (by omega)⟩
    rcases (by omega : j = 0 ∨ j = 1) with rfl | rfl
    · exact h0
    · exact h1
  refine ⟨?_, hbytes⟩
  rw [fetchstr, if_neg (by simpa using hin), hlen]
  rfl

/-- A process whose memory holds the string `"ab"` at `0x100`. -/
def abProc : Proc :=
  ⟨1, 0x1000, 0, ⟨7, 0xff0⟩, fun a => if a = 0x100 then 0x61 else if a = 0x101 then 0x62 else 0⟩

/-- There `fetchstr` gives the string one byte. -/
theorem fetchstr_counts_chars_ab :
    fetchstr abProc 0x100 = .ok 1 ∧ Str.strlen abProc.mem 0x100 = .ok 2 :=
  fetchstr_counts_chars abProc 0x100 (by decide) (by decide) (by decide) (by decide)
    ⟨by decide, by decide⟩ (by decide)

/-- An `int` size as `argptr` receives it, a `usize`: a negative size is `2 ^ 32` past its value. -/
theorem toNat_toUInt32_of_neg {x : Int32} (h : x < 0) : x.toUInt32.toNat + x.toInt.natAbs = 2 ^ 32 := by
  have hnat : x.toUInt32.toNat = x.toBitVec.toNat := rfl
  have hint : x.toInt = x.toBitVec.toInt := rfl
  have hlt : x.toInt < 0 := Int32.lt_iff_toInt_lt.mp h
  have hb := x.toBitVec.isLt
  rw [BitVec.toInt_eq_toNat_cond] at hint
  split at hint <;> omega

/-- A negative size passes `argptr`'s check whenever the pointer lies at least its magnitude
inside the process: `i + size` wraps to a point below `i`, so the block is accepted although it
reaches the whole address space past `i`. -/
theorem argptr_negative_size {p : Proc} {n : UInt32} {i size : Int32} (hi : argint p n = some i)
    (hin : i.toUInt32 < p.sz) (hneg : size < 0) (hmag : size.toInt.natAbs ≤ i.toUInt32.toNat) :
    argptr p n size.toUInt32 = some i.toUInt32 := by
  have hsize := toNat_toUInt32_of_neg hneg
  have hlt := UInt32.lt_iff_toNat_lt.mp hin
  -- the sum wraps to `i - |size|`
  have hadd : (i.toUInt32 + size.toUInt32).toNat = i.toUInt32.toNat - size.toInt.natAbs := by
    rw [UInt32.toNat_add]
    have hmod : (i.toUInt32.toNat + size.toUInt32.toNat) = (i.toUInt32.toNat - size.toInt.natAbs) + 2 ^ 32 := by
      omega
    rw [hmod, Nat.add_mod_right, Nat.mod_eq_of_lt (by have := i.toUInt32.toNat_lt; omega)]
  have htest : (i.toUInt32 ≥ p.sz || i.toUInt32 + size.toUInt32 > p.sz) = false := by
    simp only [ge_iff_le, gt_iff_lt, UInt32.le_iff_toNat_le, UInt32.lt_iff_toNat_lt, hadd,
      Bool.or_eq_false_iff, decide_eq_false_iff_not]
    omega
  simp [argptr, hi, htest]

/-- `argptest`'s `read(fd, sbrk(0) - 1, -1)` in a process of three pages: the pointer argument,
the word at `esp + 8 = 0xff8`, is `0x2fff`. -/
def argptestProc : Proc :=
  ⟨3, 0x3000, 0, ⟨5, 0xff0⟩, writeLE (fun _ => 0) 0xff8 4 0x2fff⟩

/-- There `argptr` accepts the block of size `-1` at the last byte of the process. -/
theorem argptr_negative_size_argptest :
    argint argptestProc 1 = some 0x2fff ∧ (0x2fff : Int32).toUInt32 < argptestProc.sz ∧
      (-1 : Int32) < 0 ∧ (-1 : Int32).toInt.natAbs ≤ (0x2fff : Int32).toUInt32.toNat ∧
      argptr argptestProc 1 (-1 : Int32).toUInt32 = some 0x2fff := by
  have harg : argint argptestProc 1 = some 0x2fff := by decide
  exact ⟨harg, by decide, by decide, by decide,
    argptr_negative_size harg (by decide) (by decide) (by decide)⟩

end Xv6
