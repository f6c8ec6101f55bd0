import Mathlib
import Xv6.Fs.Inode

/-!
# The Rust port of the block allocator

`zero_block`, `allocate_block` and `free_block` of `fs.rs`, the port of `bzero`, `balloc` and
`bfree` of `fs.c` that the kernel does not link yet (the `#[no_mangle]` of its bindings is
commented out). They take the superblock as an argument where the C functions read the global
`sb`, and `BUFFER_CACHE.read` and `release` are `bread` and `brelse`, so they run in the same
`FsM` as the model of `fs.c`, on the same block numbers.

The scan of a bitmap block is a `while` loop here, which stops at the first bit past the end of
the file system, where the model of `balloc` looks for the first free bit below it among all the
bits of the block (`allocScan_eq_freeBit`). With that, `allocate_block` of the superblock that
`balloc` reads does what `balloc` does, the same block marked, logged, zeroed and returned, and it
panics exactly when `balloc` does, only with `"out of blocks"` in place of
`"balloc: out of blocks"` (`allocate_block_agrees`); `free_block` is `bfree`
(`free_block_eq_bfree`).

Block numbers are `Nat` in both models. The sum `b + bi` is an `int` in `fs.c` and a `usize` in
the port; neither comes near its bound on a file system of `FSSIZE` blocks.
-/

namespace Xv6.Fs

open Machine

/-- `bblock`: the bitmap block that holds the bit of block `b`. -/
def bblock (b : Nat) (sb : SuperBlock) : Nat := b / BPB + sb.bmapstart

/-- `zero_block`: zero block `bno` and log it. -/
def zero_block (bno : Nat) : FsM Unit := do
  setBlock bno zeroBlock
  log_write bno

/-- The `while` loop of `allocate_block` over the bitmap block `data` of the blocks from `b`, from
bit `bi`: the first free bit while `bi < BPB` and block `b + bi` is in the file system. -/
def allocScan (data : Block) (b size : Nat) (bi : Nat) : Option Nat :=
  if bi < BPB ∧ b + bi < size then
    let m := (1 : UInt8) <<< UInt8.ofNat (bi % 8)
    if memOfVector data (bi / 8) &&& m == 0 then some bi else allocScan data b size (bi + 1)
  else none
termination_by BPB - bi

/-- The `for` loop of `allocate_block` over `b` in `(0..sb.size).step_by(BPB)`. -/
def allocateBlockLoop (sb : SuperBlock) : List Nat → FsM Nat
  | [] => kpanic "out of blocks"
  | b :: bs => do
    let s ← get
    match allocScan (s.disk (bblock b sb)) b sb.size 0 with
    | some bi => do
      setBlock (bblock b sb) (setBit (s.disk (bblock b sb)) bi)
      log_write (bblock b sb)
      zero_block (b + bi)
      pure (b + bi)
    | none => allocateBlockLoop sb bs

/-- `allocate_block(sb, dev)`. -/
def allocate_block (sb : SuperBlock) : FsM Nat :=
  allocateBlockLoop sb ((List.range ((sb.size + BPB - 1) / BPB)).map (· * BPB))

/-- `free_block(sb, dev, bno)`: clear the bit of block `bno`, which must be set, and log the
bitmap block. -/
def free_block (sb : SuperBlock) (bno : Nat) : FsM Unit := do
  let s ← get
  let buf := s.disk (bblock bno sb)
  let bi := bno % BPB
  let m := (1 : UInt8) <<< UInt8.ofNat (bi % 8)
  if memOfVector buf (bi / 8) &&& m == 0 then kpanic "freeing free block"
  else do
    setBlock (bblock bno sb) (clearBit buf bi)
    log_write (bblock bno sb)

/-! ## The port does what `fs.c` does -/

/-- The `while` loop from `bi` finds what a search of the bits from `bi` on finds: past the end
of the file system no later bit is in it either. By induction on the bits left. -/
theorem allocScan_eq_find (data : Block) (b size : Nat) :
    ∀ bi ≤ BPB, allocScan data b size bi =
      (List.range' bi (BPB - bi)).find? fun bj => decide (b + bj < size) && bitClear data bj := by
  intro bi hbi
  induction h : BPB - bi generalizing bi with
  | zero =>
    rw [allocScan, if_neg (by omega)]
    rfl
  | succ k ih =>
    rw [allocScan, List.range'_succ, List.find?_cons]
    by_cases hin : b + bi < size
    · have hbit : (memOfVector data (bi / 8) &&& (1 : UInt8) <<< UInt8.ofNat (bi % 8) == 0) =
          bitClear data bi := rfl
      rw [if_pos ⟨by omega, hin⟩]
      dsimp only
      rw [hbit]
      cases bitClear data bi
      · simpa [hin] using ih (bi + 1) (by omega) (by omega)
      · simp [hin]
    · -- no block from here on is in the file system
      rw [if_neg (fun h => hin h.2)]
      have hnone : ∀ bj ∈ List.range' (bi + 1) k,
          (decide (b + bj < size) && bitClear data bj) = false := by
        intro bj hbj
        have : bi + 1 ≤ bj := (List.mem_range'_1.mp hbj).1
        simp only [Bool.and_eq_false_iff, decide_eq_false_iff_not]
        exact Or.inl (by omega)
      have hrest : (List.range' (bi + 1) k).find?
          (fun bj => decide (b + bj < size) && bitClear data bj) = none :=
        List.find?_eq_none.mpr fun bj hbj => by rw [hnone bj hbj]; decide
      simp [hin, hrest]

/-- The scan of a bitmap block is the search of `balloc`'s model. -/
theorem allocScan_eq_freeBit (data : Block) (b size : Nat) :
    allocScan data b size 0 = freeBit data b size := by
  rw [allocScan_eq_find data b size 0 (Nat.zero_le _), Nat.sub_zero]
  unfold freeBit
  rw [List.range_eq_range']

theorem bblock_eq_BBLOCK : bblock = BBLOCK := rfl

/-- The loops of `allocate_block` and `balloc` over the same bitmap blocks agree, but for the
message of their last panic. By induction on the blocks left. -/
theorem allocateBlockLoop_agrees (bs : List Nat) :
    ∀ s : FsState, ((allocateBlockLoop s.sb bs).run s).Agree ((ballocLoop bs).run s) := by
  induction bs with
  | nil => intro s; exact Outcome.Agree.panic _ _
  | cons b bs ih =>
    intro s
    rw [allocateBlockLoop, ballocLoop, bblock_eq_BBLOCK, StateT.run_bind, StateT.run_bind,
      StateT.run_get, Outcome.pure_eq, Outcome.ok_bind, Outcome.ok_bind]
    dsimp only
    rw [allocScan_eq_freeBit]
    -- the same bit, then the same writes; or on to the next bitmap block
    cases freeBit (s.disk (BBLOCK b s.sb)) b s.sb.size with
    | some bi => exact Outcome.Agree.refl _
    | none => exact ih s

/-- `free_block` of the superblock that `bfree` reads is `bfree`. -/
theorem free_block_eq_bfree (bno : Nat) (s : FsState) :
    (free_block s.sb bno).run s = (bfree bno).run s := by
  rw [free_block, bfree, StateT.run_bind, StateT.run_bind, StateT.run_get, Outcome.pure_eq,
    Outcome.ok_bind, Outcome.ok_bind]
  dsimp only
  -- the test of the mask is `bitClear`
  have hbit : (memOfVector (s.disk (bblock bno s.sb)) (bno % BPB / 8) &&&
      (1 : UInt8) <<< UInt8.ofNat (bno % BPB % 8) == 0) =
      bitClear (s.disk (BBLOCK bno s.sb)) (bno % BPB) := rfl
  rw [hbit, bblock_eq_BBLOCK]

/-- `allocate_block` of the superblock that `balloc` reads returns the block that `balloc`
returns, with the same writes and the same log, and panics exactly when `balloc` does; and
`free_block` of that superblock is `bfree`. -/
theorem allocate_block_agrees (sb : SuperBlock) (s : FsState) (hsb : s.sb = sb) :
    ((allocate_block sb).run s).Agree (balloc.run s) ∧
      ∀ bno, (free_block sb bno).run s = (bfree bno).run s := by
  subst hsb
  refine ⟨?_, fun bno => free_block_eq_bfree bno s⟩
  rw [balloc, StateT.run_bind, StateT.run_get, Outcome.pure_eq, Outcome.ok_bind]
  exact allocateBlockLoop_agrees _ s

/-- A state over the layout of `mkfs` with every block zero, no inode cached and no file open. -/
def zeroDiskState : FsState :=
  ⟨mkfsSuperBlock, fun _ => zeroBlock, fun _ => ⟨0, 0, 0, false, false, 0, 0, 0, 0, 0, []⟩,
    Log.init, some ROOTINO, FileTable.new, fun _ => none, []⟩

theorem allocate_block_agrees_zeroDisk :
    ((allocate_block mkfsSuperBlock).run zeroDiskState).Agree (balloc.run zeroDiskState) ∧
      ∀ bno, (free_block mkfsSuperBlock bno).run zeroDiskState = (bfree bno).run zeroDiskState :=
  allocate_block_agrees mkfsSuperBlock zeroDiskState rfl

end Xv6.Fs
