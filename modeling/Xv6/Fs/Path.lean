import Mathlib
import Xv6.Fs.Dir

/-!
# Path names

What `skipelem` and `namex` of `fs.c` make of a path. The elements of a path are its maximal runs
of bytes other than `/`, in order (`elements`). `skipelem` takes the first element, cut to
`DIRSIZ` bytes, and returns the rest of the path with no slash in front, or `0` when only slashes
are left (`skipelem_eq_none_iff`, `skipelem_elements`, `skipelem_rest_head`); its successive calls
copy out the elements in order (`skipelems_eq`). In the name buffer, an element shorter than
`DIRSIZ` is followed by a zero and a longer one fills the buffer, which is what `namecmp` reads
back (`namecmp_skipelemName`).

`namex` is then the walk over those names from the root or the current directory
(`namexLoop_eq`, `namex_eq`): a step locks the directory, checks that it is one, and looks the
name up. The `*path == '\0'` test on the rest of the path is the test for the last element, as the
rest starts with no slash, so `nameiparent` walks the names but the last as `namei` does, and
only checks that the directory it ends at is one (`namexWalk_parent`).
-/

namespace Xv6.Fs

open Machine

/-- The elements of a path: its maximal runs of bytes other than `/`, in order. -/
def elements (path : List UInt8) : List (List UInt8) := (path.splitOn slash).filter (· ≠ [])

/-- The names of the elements of a path, as `skipelem` copies them: cut to `DIRSIZ` bytes. -/
def elementNames (path : List UInt8) : List (List UInt8) := (elements path).map (·.take DIRSIZ)

theorem elementNames_eq (path : List UInt8) :
    elementNames path = (elements path).map (·.take DIRSIZ) := rfl

/-! ## The elements of a path -/

section Elements

@[simp] theorem elements_nil : elements [] = [] := by
  simp [elements]

/-- A slash splits the elements of a path. -/
theorem elements_append_slash (x y : List UInt8) :
    elements (x ++ slash :: y) = elements x ++ elements y := by
  unfold elements
  rw [List.splitOn_append_cons_self, List.filter_append]

/-- A slash in front belongs to no element. -/
@[simp] theorem elements_slash_cons (y : List UInt8) : elements (slash :: y) = elements y := by
  simpa using elements_append_slash [] y

/-- Nor do the slashes that `skipelem` drops. -/
theorem elements_dropWhile_slash (path : List UInt8) :
    elements (path.dropWhile (· == slash)) = elements path := by
  induction path with
  | nil => rfl
  | cons c cs ih =>
    by_cases hc : c = slash
    · subst hc
      rw [List.dropWhile_cons_of_pos (by simp), ih, elements_slash_cons]
    · rw [List.dropWhile_cons_of_neg (by simpa using hc)]

/-- A run of bytes other than `/` is one element. -/
theorem elements_of_no_slash {w : List UInt8} (hne : w ≠ []) (h : ∀ c ∈ w, (c == slash) = false) :
    elements w = [w] := by
  rw [elements, List.splitOn_eq_singleton_of_beq_eq_false h]
  simp [hne]

/-- A path that starts with a byte other than `/` starts with the element up to the next slash. -/
theorem elements_cons_of_ne {c : UInt8} (hc : c ≠ slash) (cs : List UInt8) :
    elements (c :: cs) = (c :: cs).takeWhile (· != slash) ::
      elements ((c :: cs).dropWhile (· != slash)) := by
  have hword : ∀ x ∈ (c :: cs).takeWhile (· != slash), (x == slash) = false := fun x hx => by
    simpa using List.mem_takeWhile_imp hx
  have hne : (c :: cs).takeWhile (· != slash) ≠ [] := by
    rw [List.takeWhile_cons_of_pos (by simpa using hc)]
    exact List.cons_ne_nil _ _
  conv_lhs => rw [← List.takeWhile_append_dropWhile (p := (· != slash)) (l := c :: cs)]
  cases hrest : (c :: cs).dropWhile (· != slash) with
  | nil =>
    rw [List.append_nil, elements_of_no_slash hne hword, elements_nil]
  | cons s r =>
    -- the rest starts at the next slash
    have hs : s = slash := by
      have := List.head?_dropWhile_not (· != slash) (c :: cs)
      simpa [hrest] using this
    rw [hs, elements_append_slash, elements_of_no_slash hne hword, elements_slash_cons,
      List.singleton_append]

end Elements

/-! ## `skipelem` -/

section Skipelem

variable {path name rest : List UInt8}

/-- `skipelem` returns `0` exactly when only slashes are left. -/
theorem skipelem_eq_none_iff : skipelem path = none ↔ ∀ c ∈ path, c = slash := by
  simp only [skipelem_eq]
  split
  · rename_i hempty
    simp only [List.isEmpty_iff, List.dropWhile_eq_nil_iff, beq_iff_eq] at hempty
    simpa using hempty
  · rename_i hne
    simp only [List.isEmpty_iff, List.dropWhile_eq_nil_iff, beq_iff_eq] at hne
    simpa using hne

/-- The rest of the path that `skipelem` returns has no slash in front. -/
theorem skipelem_rest_head (h : skipelem path = some (name, rest)) : rest.head? ≠ some slash := by
  simp only [skipelem_eq] at h
  split at h
  · cases h
  · cases h
    intro hhead
    have := List.head?_dropWhile_not (· == slash)
      ((path.dropWhile (· == slash)).dropWhile (· != slash))
    simp [hhead] at this

/-- `skipelem` copies out the first element, cut to `DIRSIZ` bytes, and the elements of the rest
are the others. -/
theorem skipelem_elements (h : skipelem path = some (name, rest)) :
    ∃ e, elements path = e :: elements rest ∧ name = e.take DIRSIZ := by
  simp only [skipelem_eq] at h
  split at h
  · cases h
  · rename_i hne
    cases h
    -- the path from its first byte other than a slash
    obtain ⟨c, cs, hcs⟩ : ∃ c cs, path.dropWhile (· == slash) = c :: cs := by
      cases hq : path.dropWhile (· == slash) with
      | nil => simp [hq] at hne
      | cons c cs => exact ⟨c, cs, rfl⟩
    have hc : c ≠ slash := by
      have := List.head?_dropWhile_not (· == slash) path
      simpa [hcs] using this
    refine ⟨(c :: cs).takeWhile (· != slash), ?_, by rw [hcs]⟩
    rw [← elements_dropWhile_slash path, hcs, elements_cons_of_ne hc, elements_dropWhile_slash]

/-- A rest with no slash in front has no element left exactly when it is empty. -/
theorem elements_eq_nil_iff {rest : List UInt8} (h : rest.head? ≠ some slash) :
    elements rest = [] ↔ rest = [] := by
  cases rest with
  | nil => simp
  | cons c cs =>
    have hc : c ≠ slash := fun hc => h (by simp [hc])
    simp [elements_cons_of_ne hc]

theorem elementNames_of_none (h : skipelem path = none) : elementNames path = [] := by
  have hall := skipelem_eq_none_iff.mp h
  rw [elementNames_eq, ← elements_dropWhile_slash, List.dropWhile_eq_nil_iff.mpr (by simpa using hall)]
  rfl

theorem elementNames_of_some (h : skipelem path = some (name, rest)) :
    elementNames path = name :: elementNames rest := by
  obtain ⟨e, he, rfl⟩ := skipelem_elements h
  rw [elementNames_eq, he, List.map_cons, elementNames_eq]

/-- The `*path == '\0'` test on the rest is the test for the last element. -/
theorem isEmpty_elementNames (h : skipelem path = some (name, rest)) :
    (elementNames rest).isEmpty = rest.isEmpty := by
  have hiff := elements_eq_nil_iff (skipelem_rest_head h)
  rw [elementNames_eq, List.isEmpty_map, Bool.eq_iff_iff, List.isEmpty_iff, List.isEmpty_iff]
  exact hiff

end Skipelem

/-- The names that the successive calls of `skipelem` from `path` copy out, until it
returns `0`. -/
def skipelems (path : List UInt8) : List (List UInt8) :=
  match _h : skipelem path with
  | none => []
  | some (name, rest) => name :: skipelems rest
termination_by path.length
decreasing_by exact skipelem_length _h

/-- The successive calls of `skipelem` copy out the elements of the path in order, each cut to
`DIRSIZ` bytes. By induction along the calls. -/
theorem skipelems_eq (path : List UInt8) : skipelems path = elementNames path := by
  rw [skipelems]
  split
  · rename_i hnone
    rw [elementNames_of_none hnone]
  · rename_i name rest hsome
    rw [elementNames_of_some hsome, skipelems_eq rest]
termination_by path.length
decreasing_by exact skipelem_length (by assumption)

/-! ## The name buffer -/

/-- The `DIRSIZ` bytes of the name buffer `buf` after `skipelem` copies the element `e` into it:
the first `DIRSIZ` bytes of a long element, with no terminator, or a shorter element and a zero,
with the rest of the buffer as it was. -/
def skipelemName (buf e : List UInt8) : List UInt8 :=
  if e.length ≥ DIRSIZ then e.take DIRSIZ
  else e ++ 0 :: buf.drop (e.length + 1)

/-- `namecmp` reads the name of the buffer back as the element cut to `DIRSIZ` bytes: the
elements of a C string hold no zero. -/
theorem namecmp_skipelemName (buf e : List UInt8) (h0 : ∀ c ∈ e, c ≠ 0) :
    ((skipelemName buf e).takeWhile (· ≠ 0)).take DIRSIZ = e.take DIRSIZ := by
  have hword : e.takeWhile (· ≠ 0) = e := List.takeWhile_eq_self_iff.mpr (by simpa using h0)
  unfold skipelemName
  split_ifs with hlong
  · -- the buffer is full, with no terminator
    have hcut : (e.take DIRSIZ).takeWhile (· ≠ 0) = e.take DIRSIZ :=
      List.takeWhile_eq_self_iff.mpr fun c hc => by simpa using h0 c (List.mem_of_mem_take hc)
    rw [hcut, List.take_take, Nat.min_self]
  · -- the terminator after the element
    rw [List.takeWhile_append_of_pos (by simpa using h0), List.takeWhile_cons_of_neg (by simp),
      List.append_nil]

/-! ## `namex` -/

/-- The walk of `namex` over a list of names from the inode `ip`: at each name the directory is
locked and checked, and the name looked up in it; with `nameiparent`, the walk stops at the last
name and returns the directory it is in. -/
def namexWalk (nameiparent : Bool) (ip : Nat) :
    List (List UInt8) → List UInt8 → FsM (Option Nat × List UInt8)
  | [], lastName =>
    if nameiparent then do
      iput ip
      pure (none, lastName)
    else pure (some ip, lastName)
  | name :: names, _ => do
    ilock ip
    if (← getInode ip).type != T_DIR then do
      iunlockput ip
      pure (none, name)
    else if nameiparent && names.isEmpty then do
      iunlock ip
      pure (some ip, name)
    else do
      match ← dirlookup ip name with
      | none => do
        iunlockput ip
        pure (none, name)
      | some (next, _) => do
        iunlockput ip
        namexWalk nameiparent next names name

/-- The loop of `namex` over a path is the walk over its elements' names. By induction along the
calls of `skipelem`. -/
theorem namexLoop_eq (b : Bool) (ip : Nat) (path lastName : List UInt8) :
    namexLoop b ip path lastName = namexWalk b ip (elementNames path) lastName := by
  rw [namexLoop]
  split
  · rename_i hnone
    rw [elementNames_of_none hnone, namexWalk]
  · rename_i name rest hsome
    have ih : ∀ next, namexLoop b next rest name = namexWalk b next (elementNames rest) name :=
      fun next => namexLoop_eq b next rest name
    rw [elementNames_of_some hsome, namexWalk, isEmpty_elementNames hsome]
    -- the same steps, with the walk from the next directory in place of the loop
    refine congrArg (ilock ip >>= ·) (funext fun _ => ?_)
    refine congrArg (getInode ip >>= ·) (funext fun _ => ?_)
    split
    · rfl
    · split
      · rfl
      · refine congrArg (dirlookup ip name >>= ·) (funext fun found => ?_)
        rcases found with _ | ⟨next, off⟩
        · rfl
        · exact congrArg (iunlockput ip >>= ·) (funext fun _ => ih next)
termination_by path.length
decreasing_by exact skipelem_length (by assumption)

/-- `namex` walks the names of the path's elements from the root when the path starts with `/`,
and from the current directory otherwise. -/
theorem namex_eq (path : List UInt8) (b : Bool) :
    namex path b = (do
      let ip ← if path.head? == some slash then iget ROOTDEV ROOTINO
        else match (← get).cwd with
          | some cwd => idup cwd
          | none => StateT.lift .ub
      namexWalk b ip (elementNames path) []) := by
  simp only [← namexLoop_eq]
  rfl

/-- `nameiparent`'s walk is `namei`'s over all names but the last; at the directory it ends at,
it only checks that it is one, and returns it with the last name. By induction on the names. -/
theorem namexWalk_parent (name : List UInt8) :
    ∀ (names : List (List UInt8)) (ip : Nat) (lastName : List UInt8),
      namexWalk true ip (names ++ [name]) lastName = (do
        let (r, failed) ← namexWalk false ip names lastName
        match r with
        | none => pure (none, failed)
        | some dp => do
          ilock dp
          if (← getInode dp).type != T_DIR then do
            iunlockput dp
            pure (none, name)
          else do
            iunlock dp
            pure (some dp, name))
  | [], ip, lastName => by
    simp [namexWalk]
  | n :: names, ip, lastName => by
    -- `n` is not the last name: both walks look it up, and go on from what they find
    simp only [namexWalk, Bool.false_and, Bool.false_eq_true, if_false, bind_assoc]
    refine congrArg (ilock ip >>= ·) (funext fun _ => ?_)
    refine congrArg (getInode ip >>= ·) (funext fun ino => ?_)
    split
    · simp
    · rw [if_neg (by simp), bind_assoc]
      refine congrArg (dirlookup ip n >>= ·) (funext fun found => ?_)
      rcases found with _ | ⟨next, off⟩
      · simp
      · simp only [List.append_eq, namexWalk_parent name names next n, bind_assoc]

/-- `skipelem` returns `0` exactly when only slashes are left, and otherwise the first element cut
to `DIRSIZ` bytes and a rest with no slash in front whose elements are the others; its successive
calls copy out the elements in order; the name buffer reads back as the element cut to `DIRSIZ`
bytes; `namex` walks those names from the root or the current directory, and `nameiparent` walks
all but the last as `namei` does. -/
theorem skipelem_namex_elements :
    (∀ path : List UInt8, skipelem path = none ↔ ∀ c ∈ path, c = slash) ∧
    (∀ path name rest : List UInt8, skipelem path = some (name, rest) →
      ∃ e, elements path = e :: elements rest ∧ name = e.take DIRSIZ ∧
        rest.head? ≠ some slash) ∧
    (∀ path : List UInt8, skipelems path = (elements path).map (·.take DIRSIZ)) ∧
    (∀ buf e : List UInt8, (∀ c ∈ e, c ≠ 0) →
      ((skipelemName buf e).takeWhile (· ≠ 0)).take DIRSIZ = e.take DIRSIZ) ∧
    (∀ (path : List UInt8) (b : Bool), namex path b = (do
      let ip ← if path.head? == some slash then iget ROOTDEV ROOTINO
        else match (← get).cwd with
          | some cwd => idup cwd
          | none => StateT.lift .ub
      namexWalk b ip (elementNames path) [])) ∧
    (∀ (name : List UInt8) (names : List (List UInt8)) (ip : Nat) (lastName : List UInt8),
      namexWalk true ip (names ++ [name]) lastName = (do
        let (r, failed) ← namexWalk false ip names lastName
        match r with
        | none => pure (none, failed)
        | some dp => do
          ilock dp
          if (← getInode dp).type != T_DIR then do
            iunlockput dp
            pure (none, name)
          else do
            iunlock dp
            pure (some dp, name))) := by
  refine ⟨fun _ => skipelem_eq_none_iff, ?_, skipelems_eq, namecmp_skipelemName, namex_eq,
    fun name => namexWalk_parent name⟩
  intro path name rest h
  obtain ⟨e, he, hname⟩ := skipelem_elements h
  exact ⟨e, he, hname, skipelem_rest_head h⟩

/-- `skipelem("///a//bb", name)` copies `a` and returns `bb`; `a` in a name buffer of zeroes reads
back as `a`. -/
theorem skipelem_namex_slashes :
    (∃ e, elements [47, 47, 47, 97, 47, 47, 98, 98] = e :: elements [98, 98] ∧
        [97] = e.take DIRSIZ ∧ [98, 98].head? ≠ some slash) ∧
      ((skipelemName (List.replicate DIRSIZ 0) [97]).takeWhile (· ≠ 0)).take DIRSIZ =
        [97].take DIRSIZ :=
  ⟨skipelem_namex_elements.2.1 _ _ _ rfl, skipelem_namex_elements.2.2.2.1 _ _ (by simp)⟩

end Xv6.Fs
