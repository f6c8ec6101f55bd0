import Mathlib

/-!
# Ring buffers with free-running counters

A ring buffer of `n` slots whose counters are never reset to the start of the buffer: the
reader's counter `nread` and the writer's counter `nwrite` count every element ever taken out
and put in, in 32-bit arithmetic that wraps at `2 ^ 32`, and the element of counter value `c`
lives in slot `c % n`. The buffer holds the `nwrite - nread` elements from counter value `nread`
on; `ringContents` lists them, oldest first.

This survives the wrap of the counters because `n` divides `2 ^ 32`, so that the slot of a
wrapped counter value is the slot of the unwrapped one (`mod_add_of_dvd`). Putting an element
into a buffer that is not full appends it (`ringContents_put`), and taking one out of a buffer
that is not empty removes the oldest (`ringContents_take`); the tests for a full and an empty
buffer compare the counters (`ringCount_eq_iff`, `ringCount_eq_zero`).
-/

namespace Machine

/-- The number of elements: `nwrite - nread` in wrapping arithmetic. -/
def ringCount (nread nwrite : UInt32) : Nat := (nwrite - nread).toNat

theorem ringCount_eq (nread nwrite : UInt32) : ringCount nread nwrite = (nwrite - nread).toNat := rfl

section Count

variable {nread nwrite : UInt32}

/-- The buffer is empty exactly when the counters are equal. -/
theorem ringCount_eq_zero : ringCount nread nwrite = 0 ↔ nread = nwrite := by
  have hr := nread.toNat_lt
  have hw := nwrite.toNat_lt
  rw [ringCount_eq, UInt32.toNat_sub, ← UInt32.toNat_inj]
  constructor <;> intro h <;> omega

/-- The buffer holds `m` elements exactly when `nwrite` is `m` past `nread`. -/
theorem ringCount_eq_iff {m : Nat} (hm : m < 2 ^ 32) :
    ringCount nread nwrite = m ↔ nwrite = nread + m.toUInt32 := by
  have hr := nread.toNat_lt
  have hw := nwrite.toNat_lt
  rw [ringCount_eq, UInt32.toNat_sub, ← UInt32.toNat_inj, UInt32.toNat_add, Nat.toUInt32,
    UInt32.toNat_ofNat']
  constructor <;> intro h <;> omega

/-- Putting an element in adds one to the count, unless the count would reach `2 ^ 32`. -/
theorem ringCount_put (h : ringCount nread nwrite + 1 < 2 ^ 32) :
    ringCount nread (nwrite + 1) = ringCount nread nwrite + 1 := by
  have hr := nread.toNat_lt
  have hw := nwrite.toNat_lt
  simp only [ringCount_eq, UInt32.toNat_sub, UInt32.toNat_add, UInt32.toNat_one] at h ⊢
  omega

/-- Taking an element out of a buffer that is not empty takes one from the count. -/
theorem ringCount_take (h : ringCount nread nwrite ≠ 0) :
    ringCount (nread + 1) nwrite = ringCount nread nwrite - 1 := by
  have hr := nread.toNat_lt
  have hw := nwrite.toNat_lt
  simp only [ringCount_eq, UInt32.toNat_sub, UInt32.toNat_add, UInt32.toNat_one] at h ⊢
  omega

/-- Taking back the last element put in takes one from the count. -/
theorem ringCount_unput (h : ringCount nread nwrite ≠ 0) :
    ringCount nread (nwrite - 1) = ringCount nread nwrite - 1 := by
  have hr := nread.toNat_lt
  have hw := nwrite.toNat_lt
  simp only [ringCount_eq, UInt32.toNat_sub, UInt32.toNat_one] at h ⊢
  omega

/-- A counter `c` between `nread` and `nwrite` splits the count there. -/
theorem ringCount_split {c : UInt32} (h : ringCount nread c ≤ ringCount nread nwrite) :
    ringCount nread nwrite = ringCount nread c + ringCount c nwrite := by
  have hr := nread.toNat_lt
  have hw := nwrite.toNat_lt
  have hc := c.toNat_lt
  simp only [ringCount_eq, UInt32.toNat_sub] at h ⊢
  omega

end Count

/-- Wrapping at `2 ^ 32` does not move a slot of a buffer whose size divides `2 ^ 32`. -/
theorem mod_add_of_dvd {n : Nat} (hdvd : n ∣ 2 ^ 32) (a k : Nat) :
    (a % 2 ^ 32 + k) % n = (a + k) % n := by
  rw [Nat.add_mod, Nat.mod_mod_of_dvd a hdvd, ← Nat.add_mod]

section Contents

variable {α : Type} {n : Nat} [NeZero n]

/-- The slot of counter value `c`. -/
def ringSlot (n : Nat) [NeZero n] (c : Nat) : Fin n := ⟨c % n, Nat.mod_lt _ (NeZero.pos n)⟩

theorem ringSlot_eq (c : Nat) : ringSlot n c = ⟨c % n, Nat.mod_lt _ (NeZero.pos n)⟩ := rfl

/-- The elements of the buffer, oldest first. -/
def ringContents (data : Vector α n) (nread nwrite : UInt32) : List α :=
  (List.range (ringCount nread nwrite)).map fun k => data.get (ringSlot n (nread.toNat + k))

theorem ringContents_eq (data : Vector α n) (nread nwrite : UInt32) :
    ringContents data nread nwrite =
      (List.range (ringCount nread nwrite)).map fun k => data.get (ringSlot n (nread.toNat + k)) :=
  rfl

@[simp] theorem length_ringContents (data : Vector α n) (nread nwrite : UInt32) :
    (ringContents data nread nwrite).length = ringCount nread nwrite := by
  simp [ringContents_eq]

/-- An empty buffer has no contents. -/
@[simp] theorem ringContents_self (data : Vector α n) (c : UInt32) : ringContents data c c = [] := by
  simp [ringContents_eq, ringCount_eq]

/-- Taking back the last element put in drops it from the contents. -/
theorem ringContents_unput (data : Vector α n) {nread nwrite : UInt32}
    (h : ringCount nread nwrite ≠ 0) :
    ringContents data nread (nwrite - 1) = (ringContents data nread nwrite).dropLast := by
  obtain ⟨c, hc⟩ := Nat.exists_eq_succ_of_ne_zero h
  simp only [ringContents_eq]
  rw [ringCount_unput h, hc, Nat.succ_sub_one, List.range_succ, List.map_append, List.map_singleton,
    List.dropLast_concat]

/-- Distinct offsets below `n` from one counter value are distinct slots. -/
theorem ringSlot_ne (a : Nat) {k c : Nat} (hk : k < c) (hc : c < n) :
    ringSlot n (a + k) ≠ ringSlot n (a + c) := by
  intro h
  have hmod : a + k ≡ a + c [MOD n] := Fin.val_eq_of_eq h
  have hkc : k % n = c % n := Nat.ModEq.add_left_cancel' a hmod
  rw [Nat.mod_eq_of_lt (hk.trans hc), Nat.mod_eq_of_lt hc] at hkc
  omega

variable (hdvd : n ∣ 2 ^ 32)
include hdvd

/-- `nwrite` is the slot after the last element. -/
theorem ringSlot_nwrite (nread nwrite : UInt32) :
    ringSlot n nwrite.toNat = ringSlot n (nread.toNat + ringCount nread nwrite) := by
  have hr := nread.toNat_lt
  have hw := nwrite.toNat_lt
  have hc : ringCount nread nwrite = (2 ^ 32 - nread.toNat + nwrite.toNat) % 2 ^ 32 :=
    UInt32.toNat_sub _ _
  -- the count reaches `nwrite` from `nread` directly, or across the wrap
  have hcases : nread.toNat + ringCount nread nwrite = nwrite.toNat ∨
      nread.toNat + ringCount nread nwrite = nwrite.toNat + 2 ^ 32 := by omega
  obtain ⟨m, hm⟩ := hdvd
  rcases hcases with h | h
  · rw [h]
  · simp only [ringSlot_eq, h, hm, Nat.add_mul_mod_self_left]

/-- The contents of a buffer split at a counter `c` between `nread` and `nwrite`: the elements
before `c`, then those from `c` on. -/
theorem ringContents_split (data : Vector α n) {nread nwrite c : UInt32}
    (h : ringCount nread c ≤ ringCount nread nwrite) :
    ringContents data nread nwrite = ringContents data nread c ++ ringContents data c nwrite := by
  have hslot : ∀ k, ringSlot n (nread.toNat + (ringCount nread c + k)) = ringSlot n (c.toNat + k) := by
    intro k
    have hc := ringSlot_nwrite hdvd nread c
    simp only [ringSlot_eq, Fin.mk.injEq] at hc ⊢
    rw [← Nat.add_assoc, Nat.add_mod, ← hc, ← Nat.add_mod]
  simp only [ringContents_eq]
  rw [ringCount_split h, List.range_add, List.map_append, List.map_map]
  congr 1
  exact List.map_congr_left fun k _ => by rw [Function.comp_apply, hslot]

/-- Putting `x` into a buffer that is not full appends it. -/
theorem ringContents_put (hn : n < 2 ^ 32) (data : Vector α n) {nread nwrite : UInt32}
    (h : ringCount nread nwrite < n) (x : α) :
    ringContents (data.set (ringSlot n nwrite.toNat) x) nread (nwrite + 1) =
      ringContents data nread nwrite ++ [x] := by
  have hslot := ringSlot_nwrite hdvd nread nwrite
  simp only [ringContents_eq]
  rw [ringCount_put (by omega), List.range_succ, List.map_append, List.map_singleton]
  congr 1
  · -- the older elements are in other slots than the new one
    refine List.map_congr_left fun k hk => ?_
    have hne := ringSlot_ne nread.toNat (List.mem_range.mp hk) h
    rw [← hslot] at hne
    simp only [Vector.get_eq_getElem, Vector.getElem_set, Fin.val_ne_of_ne hne.symm, if_false]
  · simp [Vector.get_eq_getElem, hslot]

/-- The newest element of a buffer that is not empty is in the slot before `nwrite`. -/
theorem ringContents_last (hn : n < 2 ^ 32) (data : Vector α n) {nread nwrite : UInt32}
    (h : ringCount nread nwrite ≠ 0) (hle : ringCount nread nwrite ≤ n) :
    ringContents data nread nwrite =
      ringContents data nread (nwrite - 1) ++ [data.get (ringSlot n (nwrite - 1).toNat)] := by
  have hlt : ringCount nread (nwrite - 1) < n := by
    rw [ringCount_unput h]
    omega
  have hput := ringContents_put hdvd hn data hlt (data.get (ringSlot n (nwrite - 1).toNat))
  simp only [Vector.get_eq_getElem, Vector.set_getElem_self, UInt32.sub_add_cancel] at hput
  exact hput

/-- Taking an element out of a buffer that is not empty takes the oldest. -/
theorem ringContents_take (data : Vector α n) {nread nwrite : UInt32}
    (h : ringCount nread nwrite ≠ 0) :
    ringContents data nread nwrite =
      data.get (ringSlot n nread.toNat) :: ringContents data (nread + 1) nwrite := by
  obtain ⟨c, hc⟩ := Nat.exists_eq_succ_of_ne_zero h
  simp only [ringContents_eq]
  rw [ringCount_take h, hc, List.range_succ_eq_map, List.map_cons, List.map_map]
  congr 1
  refine List.map_congr_left fun k _ => ?_
  -- `nread + 1` may have wrapped
  have hslot : ringSlot n ((nread + 1).toNat + k) = ringSlot n (nread.toNat + (k + 1)) := by
    simp only [ringSlot_eq, UInt32.toNat_add, UInt32.toNat_one, mod_add_of_dvd hdvd]
    congr 2
    omega
  simp only [Function.comp_apply, Nat.succ_eq_add_one, hslot]

end Contents

end Machine
