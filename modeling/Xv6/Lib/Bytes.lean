import Mathlib

/-!
# Little-endian words in a byte memory

A byte-addressed memory is a function from addresses to bytes. `readLE mem addr n` is the number
whose `n` bytes, least significant first, start at `addr`, and `writeLE mem addr n v` stores the
`n` low bytes of `v` there. The lemmas are the ones a model of a word-sized load or store needs:
a read after a write of the same place returns the value written, a write leaves every other byte
alone, and a read only depends on the bytes it covers.
-/

namespace Machine

/-- The number whose `n` little-endian bytes start at `addr`. -/
def readLE (mem : Nat → UInt8) (addr : Nat) : Nat → Nat
  | 0 => 0
  | n + 1 => (mem addr).toNat + 256 * readLE mem (addr + 1) n

/-- `mem` with the `n` low little-endian bytes of `v` stored from `addr`. -/
def writeLE (mem : Nat → UInt8) (addr : Nat) : Nat → Nat → Nat → UInt8
  | 0, _ => mem
  | n + 1, v => Function.update (writeLE mem (addr + 1) n (v / 256)) addr (UInt8.ofNat v)

variable {mem mem' : Nat → UInt8}

@[simp] theorem readLE_zero (addr : Nat) : readLE mem addr 0 = 0 := rfl

theorem readLE_succ (addr n : Nat) :
    readLE mem addr (n + 1) = (mem addr).toNat + 256 * readLE mem (addr + 1) n := rfl

theorem writeLE_succ (addr n v : Nat) :
    writeLE mem addr (n + 1) v =
      Function.update (writeLE mem (addr + 1) n (v / 256)) addr (UInt8.ofNat v) := rfl

/-- A read depends only on the bytes it covers. -/
theorem readLE_congr {addr n : Nat} (h : ∀ d, d < n → mem (addr + d) = mem' (addr + d)) :
    readLE mem addr n = readLE mem' addr n := by
  induction n generalizing addr with
  | zero => rfl
  | succ n ih =>
    have h0 : mem addr = mem' addr := h 0 (Nat.succ_pos n)
    have hrest : readLE mem (addr + 1) n = readLE mem' (addr + 1) n := by
      apply ih
      intro d hd
      have := h (d + 1) (by omega)
      rwa [Nat.add_assoc, Nat.add_comm 1 d] at *
    rw [readLE_succ, readLE_succ, h0, hrest]

/-- A write leaves every byte outside its range alone. -/
theorem writeLE_of_not_mem {addr n v x : Nat} (h : x < addr ∨ addr + n ≤ x) :
    writeLE mem addr n v x = mem x := by
  induction n generalizing addr v with
  | zero => rfl
  | succ n ih =>
    have hne : x ≠ addr := by omega
    rw [writeLE_succ, Function.update_of_ne hne, ih (by omega)]

/-- A read of the `n` bytes just written returns the value written, when it fits. -/
theorem readLE_writeLE {addr n v : Nat} (hv : v < 256 ^ n) :
    readLE (writeLE mem addr n v) addr n = v := by
  induction n generalizing addr v with
  | zero => simp_all
  | succ n ih =>
    have hrest : v / 256 < 256 ^ n := by
      rw [Nat.pow_succ] at hv
      exact Nat.div_lt_of_lt_mul (by rwa [Nat.mul_comm])
    -- the rest of the write sits above `addr`, so the low byte is the update's
    have hlow : (writeLE mem addr (n + 1) v) addr = UInt8.ofNat v := by
      simp [writeLE_succ]
    have hhigh : readLE (writeLE mem addr (n + 1) v) (addr + 1) n =
        readLE (writeLE mem (addr + 1) n (v / 256)) (addr + 1) n := by
      apply readLE_congr
      intro d _
      rw [writeLE_succ, Function.update_of_ne (by omega)]
    rw [readLE_succ, hlow, hhigh, ih hrest, UInt8.toNat_ofNat']
    omega

/-- A read of bytes that a write does not cover sees the memory from before the write. -/
theorem readLE_writeLE_of_disjoint {addr n v a k : Nat} (h : addr + n ≤ a ∨ a + k ≤ addr) :
    readLE (writeLE mem addr n v) a k = readLE mem a k := by
  apply readLE_congr
  intro d hd
  exact writeLE_of_not_mem (by omega)

/-- The bytes of a vector as a memory, zero past its end. -/
def memOfVector {n : Nat} (v : Vector UInt8 n) : Nat → UInt8 := fun i => v.toArray.getD i 0

/-- The first `n` bytes of a memory, as a vector. -/
def vectorOfMem (n : Nat) (m : Nat → UInt8) : Vector UInt8 n := Vector.ofFn fun i => m i

theorem memOfVector_vectorOfMem {n i : Nat} (m : Nat → UInt8) (h : i < n) :
    memOfVector (vectorOfMem n m) i = m i := by
  simp [memOfVector, vectorOfMem, Array.getD, h]

/-! ## Bits of a byte -/

/-- `|||` distributes over a following `&&&`. -/
theorem or_and_distrib_byte (x m n : UInt8) : (x ||| m) &&& n = (x &&& n) ||| (m &&& n) := by
  apply UInt8.toBitVec_inj.mp
  simp only [UInt8.toBitVec_and, UInt8.toBitVec_or]
  exact BitVec.and_or_distrib_right

/-- The masks of two different bits of a byte have no bit in common. -/
theorem bitMask_and_bitMask : ∀ a c : Fin 8, a ≠ c →
    ((1 : UInt8) <<< UInt8.ofNat a) &&& ((1 : UInt8) <<< UInt8.ofNat c) = 0 := by
  decide

/-- Clearing bit `a` of a byte keeps bit `c`. -/
theorem not_bitMask_and_bitMask : ∀ a c : Fin 8, a ≠ c →
    ~~~((1 : UInt8) <<< UInt8.ofNat a) &&& ((1 : UInt8) <<< UInt8.ofNat c) =
      (1 : UInt8) <<< UInt8.ofNat c := by
  decide

set_option maxRecDepth 20000 in
/-- A byte with bit `a` set has bit `a` set. -/
theorem or_bitMask_and_bitMask : ∀ x : Fin 256, ∀ a : Fin 8,
    ((UInt8.ofNat x ||| (1 : UInt8) <<< UInt8.ofNat a) &&& ((1 : UInt8) <<< UInt8.ofNat a) == 0) =
      false := by
  decide

end Machine
