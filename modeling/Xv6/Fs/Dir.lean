import Mathlib
import Xv6.Fs.Inode

/-!
# Directories and path names

`dirlookup`, `dirlink`, `skipelem`, `namex`, `namei` and `nameiparent` of `fs.c`. A directory is
a file of 16-byte entries, read and written through `readi` and `writei`; a C string is the list
of its bytes before the terminator, and a name buffer of `DIRSIZ` bytes is the list of its bytes
up to its terminator, if it has one.

The loops over a directory's entries run over the offsets `0, 16, ..` below the directory's size,
which `readi` does not change. `namex` walks the path one element at a time, dropping each
directory it leaves with `iunlockput`: that is where a call that only looks a name up can free
an inode, which is why `namex` must run inside a transaction.
-/

namespace Xv6.Fs

open Machine

/-- The offsets `0, 16, ..` of the entries below `size`. -/
def direntOffsets (size : UInt32) : List UInt32 :=
  (List.range ((size.toNat + DIRENT_SIZE - 1) / DIRENT_SIZE)).map
    fun k => UInt32.ofNat (DIRENT_SIZE * k)

/-- The loop of `dirlookup`: the first live entry from `offs` whose name is `name`, as a
referenced inode and the entry's offset. -/
def dirlookupLoop (dp : Nat) (name : List UInt8) : List UInt32 → FsM (Option (Nat × UInt32))
  | [] => pure none
  | off :: offs => do
    match ← readi dp off 16 with
    | some bytes =>
      if bytes.length != DIRENT_SIZE then kpanic "dirlookup read"
      else
        let de := readDirent bytes
        if de.inum == 0 then dirlookupLoop dp name offs
        else if namecmp name de.name then do
          let ip ← iget (← getInode dp).dev de.inum
          pure (some (ip, off))
        else dirlookupLoop dp name offs
    | none => kpanic "dirlookup read"

/-- `dirlookup`: the entry of directory `dp` named `name`, as a referenced, unlocked inode and the
entry's offset, or `none`. -/
def dirlookup (dp : Nat) (name : List UInt8) : FsM (Option (Nat × UInt32)) := do
  let ip ← getInode dp
  if ip.type != T_DIR then kpanic "dirlookup not DIR"
  else dirlookupLoop dp name (direntOffsets ip.size)

/-- The loop of `dirlink` that looks for a free entry: the offset of the first free entry from
`offs`, or `past`, the offset the loop ends on. -/
def emptySlotLoop (dp : Nat) (past : UInt32) : List UInt32 → FsM UInt32
  | [] => pure past
  | off :: offs => do
    match ← readi dp off 16 with
    | some bytes =>
      if bytes.length != DIRENT_SIZE then kpanic "dirlink read"
      else if (readDirent bytes).inum == 0 then pure off
      else emptySlotLoop dp past offs
    | none => kpanic "dirlink read"

/-- `dirlink`: a new entry `(name, inum)` in directory `dp`, in the first free entry or at the
end; `-1` when the name is there already. -/
def dirlink (dp : Nat) (name : List UInt8) (inum : Nat) : FsM Int := do
  match ← dirlookup dp name with
  | some (ip, _) => do
    iput ip
    pure (-1)
  | none => do
    let offs := direntOffsets (← getInode dp).size
    let off ← emptySlotLoop dp (UInt32.ofNat (DIRENT_SIZE * offs.length)) offs
    let r ← writei dp (direntBytes ⟨inum, strncpyName name⟩) off 16
    if r != DIRENT_SIZE then kpanic "dirlink" else pure 0

/-- The byte `/`. -/
def slash : UInt8 := 47

/-- `skipelem`: the next element of the path, cut to `DIRSIZ` bytes, and the rest of the path
after the slashes that follow it; `none` when no element is left. -/
def skipelem (path : List UInt8) : Option (List UInt8 × List UInt8) :=
  let path := path.dropWhile (· == slash)
  if path.isEmpty then none
  else some ((path.takeWhile (· != slash)).take DIRSIZ,
    (path.dropWhile (· != slash)).dropWhile (· == slash))

theorem skipelem_eq (path : List UInt8) :
    skipelem path =
      if (path.dropWhile (· == slash)).isEmpty then none
      else some (((path.dropWhile (· == slash)).takeWhile (· != slash)).take DIRSIZ,
        ((path.dropWhile (· == slash)).dropWhile (· != slash)).dropWhile (· == slash)) := rfl

/-- The rest of the path is shorter than the path. -/
theorem skipelem_length {path name rest : List UInt8} (h : skipelem path = some (name, rest)) :
    rest.length < path.length := by
  dsimp only [skipelem_eq] at h
  split at h
  · cases h
  · rename_i hne
    cases h
    -- the element starts with a byte that is not a slash, and dropping it shortens the path
    obtain ⟨c, cs, hcs⟩ : ∃ c cs, path.dropWhile (· == slash) = c :: cs := by
      cases hq : path.dropWhile (· == slash) with
      | nil => simp [hq] at hne
      | cons c cs => exact ⟨c, cs, rfl⟩
    have hc : (c == slash) = false := by
      have := List.head?_dropWhile_not (· == slash) path
      simpa [hcs] using this
    have hp : (c :: cs).length ≤ path.length := hcs ▸ (List.dropWhile_suffix _).length_le
    have hdrop : ((c :: cs).dropWhile (· != slash)).length ≤ cs.length := by
      rw [List.dropWhile_cons_of_pos (by simpa using hc)]
      exact (List.dropWhile_suffix _).length_le
    have hrest := (List.dropWhile_suffix (fun x => x == slash)
      (l := (c :: cs).dropWhile (· != slash))).length_le
    rw [hcs]
    simp only [List.length_cons] at hp
    omega

/-- The loop of `namex` from the inode `ip`, which the walk holds a reference to. With
`nameiparent`, it stops one element early and returns the parent, locked no more, with the last
element's name. -/
def namexLoop (nameiparent : Bool) (ip : Nat) (path lastName : List UInt8) :
    FsM (Option Nat × List UInt8) :=
  match _h : skipelem path with
  | none =>
    if nameiparent then do
      iput ip
      pure (none, lastName)
    else pure (some ip, lastName)
  | some (name, rest) => do
    ilock ip
    if (← getInode ip).type != T_DIR then do
      iunlockput ip
      pure (none, name)
    else if nameiparent && rest.isEmpty then do
      -- stop one level early
      iunlock ip
      pure (some ip, name)
    else do
      match ← dirlookup ip name with
      | none => do
        iunlockput ip
        pure (none, name)
      | some (next, _) => do
        iunlockput ip
        namexLoop nameiparent next rest name
termination_by path.length
decreasing_by exact skipelem_length _h

/-- `namex`: from the root for a path that starts with `/`, from the current directory
otherwise. -/
def namex (path : List UInt8) (nameiparent : Bool) : FsM (Option Nat × List UInt8) := do
  let ip ← if path.head? == some slash then iget ROOTDEV ROOTINO
    else match (← get).cwd with
      | some cwd => idup cwd
      | none => StateT.lift .ub
  namexLoop nameiparent ip path []

/-- `namei`: the inode a path names, referenced and unlocked. -/
def namei (path : List UInt8) : FsM (Option Nat) := do
  return (← namex path false).1

/-- `nameiparent`: the directory holding a path's last element, and that element's name. -/
def nameiparent (path : List UInt8) : FsM (Option Nat × List UInt8) :=
  namex path true

end Xv6.Fs
