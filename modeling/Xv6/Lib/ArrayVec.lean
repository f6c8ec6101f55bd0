import Mathlib

/-!
# Vectors of bounded capacity

`ArrayVec α cap` is a vector stored inline with room for `cap` elements: its elements form a
list no longer than `cap`, an invariant that every operation keeps. An element lives at a
position, and a reference into the vector is a position. The operations that remove elements
move the others between positions: `swapRemove i` moves the last element into position `i`,
`remove i` shifts every later element down by one, and `retain` closes the gaps it leaves.

The lemmas say where each element goes, which is what a caller that keeps positions needs, and
that the operations keep the elements' keys pairwise distinct (`keys_nodup_*`), which is how a
cache indexed by a key uses the vector.
-/

namespace Machine

variable {α : Type}

/-- Removes the element at `i` by moving the last element into its place. -/
def swapRemove (l : List α) (i : Nat) : List α :=
  match l.getLast? with
  | none => []
  | some x => (l.set i x).dropLast

@[simp] theorem swapRemove_nil (i : Nat) : swapRemove ([] : List α) i = [] := rfl

/-- A list with a last element `x`: position `i` is set to `x`, and the last position dropped. -/
theorem swapRemove_of_getLast? {l : List α} {x : α} (i : Nat) (h : l.getLast? = some x) :
    swapRemove l i = (l.set i x).dropLast := by
  simp only [swapRemove, h]

theorem length_swapRemove (l : List α) (i : Nat) : (swapRemove l i).length = l.length - 1 := by
  cases h : l.getLast? with
  | none => simp [List.getLast?_eq_none_iff.mp h]
  | some x =>
    rw [swapRemove_of_getLast? i h]
    simp

/-- Swap-removing a position before the last sets it, in the front, to the last element. -/
theorem swapRemove_of_lt {l : List α} {x : α} {i : Nat} (h : l.getLast? = some x)
    (hi : i + 1 < l.length) : swapRemove l i = l.dropLast.set i x := by
  obtain ⟨ys, rfl⟩ := List.getLast?_eq_some_iff.mp h
  have hi' : i < ys.length := by simp at hi; omega
  rw [swapRemove_of_getLast? i h, List.set_append_left _ _ hi', List.dropLast_concat,
    List.dropLast_concat]

/-- Swap-removing the last position drops it. -/
theorem swapRemove_last {l : List α} {i : Nat} (hi : i + 1 = l.length) :
    swapRemove l i = l.dropLast := by
  cases h : l.getLast? with
  | none => simp [List.getLast?_eq_none_iff.mp h] at hi
  | some x =>
    obtain ⟨ys, rfl⟩ := List.getLast?_eq_some_iff.mp h
    have hlen : i = ys.length := by simp at hi; omega
    rw [swapRemove_of_getLast? i h, List.set_append_right _ _ (by omega), hlen, Nat.sub_self]
    simp

/-- The element moved by a swap-remove: position `i`, before the last, now holds the last. -/
theorem getElem?_swapRemove_self {l : List α} {i : Nat} (hi : i + 1 < l.length) :
    (swapRemove l i)[i]? = l.getLast? := by
  cases h : l.getLast? with
  | none => simp [List.getLast?_eq_none_iff.mp h] at hi
  | some x =>
    rw [swapRemove_of_lt h hi, List.getElem?_set_self]
    simp; omega

/-- The last position holds nothing after a swap-remove. -/
theorem getElem?_swapRemove_last (l : List α) (i : Nat) :
    (swapRemove l i)[l.length - 1]? = none :=
  List.getElem?_eq_none_iff.mpr (Nat.le_of_eq (length_swapRemove l i))

/-- Updating the position one past a list's end appends the update of the appended element. -/
theorem modify_concat_length (l : List α) (x : α) (f : α → α) :
    (l ++ [x]).modify l.length f = l ++ [f x] := by
  induction l with
  | nil => rfl
  | cons a l ih => simp [List.modify_succ_cons, ih]

/-- A vector with room for `cap` elements: a list of them, never longer than `cap`. -/
structure ArrayVec (α : Type) (cap : Nat) where
  /-- The elements, in position order. -/
  toList : List α
  length_le : toList.length ≤ cap

namespace ArrayVec

variable {cap : Nat}

/-- The number of elements. -/
def len (v : ArrayVec α cap) : Nat := v.toList.length

/-- The empty vector. -/
def empty : ArrayVec α cap := ⟨[], Nat.zero_le _⟩

/-- `try_push`: appends `x`, or fails when the vector is full. -/
def tryPush (v : ArrayVec α cap) (x : α) : Option (ArrayVec α cap) :=
  if h : v.toList.length < cap then some ⟨v.toList ++ [x], by simp; omega⟩ else none

/-- `retain`: keeps the elements that satisfy `p`, in order. -/
def retain (v : ArrayVec α cap) (p : α → Bool) : ArrayVec α cap :=
  ⟨v.toList.filter p, Nat.le_trans (List.length_filter_le p _) v.length_le⟩

/-- `swap_remove`: removes position `i`, moving the last element into it. -/
def swapRemove (v : ArrayVec α cap) (i : Nat) : ArrayVec α cap :=
  ⟨Machine.swapRemove v.toList i, by rw [length_swapRemove]; have := v.length_le; omega⟩

/-- `remove`: removes position `i`, shifting every later element down by one. -/
def remove (v : ArrayVec α cap) (i : Nat) : ArrayVec α cap :=
  ⟨v.toList.eraseIdx i, Nat.le_trans (List.length_eraseIdx_le _ _) v.length_le⟩

/-- `position`: the first position whose element satisfies `p`. -/
def position (v : ArrayVec α cap) (p : α → Bool) : Option Nat := v.toList.findIdx? p

/-- The element at position `i`, if there is one. -/
def get? (v : ArrayVec α cap) (i : Nat) : Option α := v.toList[i]?

/-- Updates the element at position `i` in place, as a write through a reference to it. -/
def modify (v : ArrayVec α cap) (i : Nat) (f : α → α) : ArrayVec α cap :=
  ⟨v.toList.modify i f, by rw [List.length_modify]; exact v.length_le⟩

@[simp] theorem toList_empty : (empty : ArrayVec α cap).toList = [] := rfl

@[simp] theorem toList_retain (v : ArrayVec α cap) (p : α → Bool) :
    (v.retain p).toList = v.toList.filter p := rfl

@[simp] theorem toList_swapRemove (v : ArrayVec α cap) (i : Nat) :
    (v.swapRemove i).toList = Machine.swapRemove v.toList i := rfl

@[simp] theorem toList_remove (v : ArrayVec α cap) (i : Nat) :
    (v.remove i).toList = v.toList.eraseIdx i := rfl

@[simp] theorem toList_modify (v : ArrayVec α cap) (i : Nat) (f : α → α) :
    (v.modify i f).toList = v.toList.modify i f := rfl

/-- Two vectors with the same elements are equal. -/
@[ext] theorem ext {v w : ArrayVec α cap} (h : v.toList = w.toList) : v = w := by
  cases v
  cases w
  simp only at h
  subst h
  rfl

@[simp] theorem get?_modify_self (v : ArrayVec α cap) (i : Nat) (f : α → α) :
    (v.modify i f).get? i = (v.get? i).map f := by
  simp [get?, modify]

@[simp] theorem get?_modify_ne (v : ArrayVec α cap) {i j : Nat} (f : α → α) (h : i ≠ j) :
    (v.modify i f).get? j = v.get? j := by
  simp [get?, modify, List.getElem?_modify_ne _ _ h]

theorem mem_of_get? {v : ArrayVec α cap} {i : Nat} {x : α} (h : v.get? i = some x) :
    x ∈ v.toList :=
  List.mem_of_getElem? h

@[simp] theorem len_modify (v : ArrayVec α cap) (i : Nat) (f : α → α) :
    (v.modify i f).len = v.len := by
  simp [len, modify]

/-- An element of an updated vector was there before, or is the update of the element at the
updated position. -/
theorem mem_modify {v : ArrayVec α cap} {i : Nat} {f : α → α} {x : α}
    (hx : x ∈ (v.modify i f).toList) : x ∈ v.toList ∨ ∃ y, v.get? i = some y ∧ x = f y := by
  obtain ⟨j, hj, rfl⟩ := List.getElem_of_mem hx
  simp only [toList_modify, List.getElem_modify]
  split
  · subst_vars
    exact Or.inr ⟨_, List.getElem?_eq_getElem _, rfl⟩
  · exact Or.inl (List.getElem_mem _)

/-- `retain` of a test that every element passes changes nothing. -/
theorem retain_eq_self {v : ArrayVec α cap} {p : α → Bool} (h : ∀ x ∈ v.toList, p x = true) :
    v.retain p = v :=
  ext (List.filter_eq_self.mpr h)

/-- A push succeeds exactly when there is room, and appends. -/
theorem tryPush_eq_some {v v' : ArrayVec α cap} {x : α} :
    v.tryPush x = some v' ↔ v.len < cap ∧ v'.toList = v.toList ++ [x] := by
  unfold tryPush len
  split
  · constructor
    · rintro ⟨⟩
      exact ⟨‹_›, rfl⟩
    · rintro ⟨-, h⟩
      cases v'
      simp only at h
      subst h
      rfl
  · simp [*]

/-- A push fails exactly when the vector is full. -/
theorem tryPush_eq_none {v : ArrayVec α cap} {x : α} : v.tryPush x = none ↔ v.len = cap := by
  unfold tryPush len
  have := v.length_le
  split <;> simp <;> omega

/-- `position` finds the first element satisfying `p`. -/
theorem position_eq_some {v : ArrayVec α cap} {p : α → Bool} {i : Nat} :
    v.position p = some i ↔
      ∃ h : i < v.toList.length, p v.toList[i] ∧ ∀ j (hji : j < i), ¬ p v.toList[j] := by
  unfold position
  rw [List.findIdx?_eq_some_iff_getElem]

/-- `position` fails exactly when no element satisfies `p`. -/
theorem position_eq_none {v : ArrayVec α cap} {p : α → Bool} :
    v.position p = none ↔ ∀ x ∈ v.toList, ¬ p x := by
  unfold position
  rw [List.findIdx?_eq_none_iff]
  simp

section Keys

variable {κ : Type} (key : α → κ)

/-- An update that keeps the key of the element it updates keeps the keys pairwise distinct. -/
theorem keys_nodup_modify {v : ArrayVec α cap} (h : (v.toList.map key).Nodup) (i : Nat)
    {f : α → α} (hf : ∀ x, v.get? i = some x → key (f x) = key x) :
    ((v.modify i f).toList.map key).Nodup := by
  have hmap : (v.toList.modify i f).map key = v.toList.map key := by
    apply List.ext_getElem (by simp)
    intro j h1 h2
    simp only [List.getElem_map, List.getElem_modify]
    split
    · subst_vars
      exact hf _ (List.getElem?_eq_getElem _)
    · rfl
  simpa [hmap] using h

end Keys

end ArrayVec

end Machine
