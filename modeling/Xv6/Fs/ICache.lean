import Mathlib
import Xv6.Param
import Xv6.Lib.Outcome
import Xv6.Fs.Layout

/-!
# The inode cache, across processes

`iget`, `idup`, `ilock`, `iunlock` and `iput` of `fs.c` at the grain of their locks, for any
number of processes, with every call that hands out a reference: `namex`'s `iget` of the root,
`dirlookup`'s `iget` of the inode a directory entry names, `ialloc`'s, and `idup` of a reference
held (`namex`'s of the current directory, `fork`'s). `iget` and `idup` run under `icache.lock`;
`ilock` takes the entry's sleep lock and reads the disk inode unless the entry's copy is valid;
`iput` takes the sleep lock, reads the reference count under `icache.lock` if the inode is valid
with no links, frees the inode on disk if that count is one, releases the sleep lock, and then
drops its reference under `icache.lock`. The steps of `iput` are separate steps here (`Pc`), since
other processes run between them. A disk inode is reduced to what the cache's decisions read, its
type and its link count, and its content to the directory entries it holds, which the holder of
the directory's lock reads (`dirlookup`) and writes (`dirlink`, and `sys_unlink`'s zeroing of an
entry); `relink` is the `nlink++` or `nlink--` and `iupdate` of `sys_link`, `sys_unlink` and
`create`. `itrunc` empties the content and frees its blocks, of which the model keeps only the
emptying; `ialloc` takes any free disk inode.

The references handed out are tokens `(p, i)`, process `p` holding a pointer to entry `i`: the
calls above add one, the end of `iput` removes one. `Reaches s` is a run from the zeroed cache.
`IState.step` computes each step, and `IState.step_sound` makes its runs runs of `Step`.

The invariant is in two layers: `Counted`, of the counts and the copies, which each change of an
entry keeps (`Counted.bump`, `Counted.drop`, ...), and `Inv`, which adds the protocol of the sleep
locks and of `iput`'s counter and is kept by each event (`Inv.iget`, ..., `Inv.iputDrop`). By
`Reaches.inv`, every run keeps at most one entry with references per inode, each entry's `ref` the
number of its tokens, and the copy of a locked entry valid; `iput` decides to free only when it
holds the entry's one reference (`Inv.decides`), and frees only a valid inode with no links
(`Inv.frees`). Nothing keeps the count at one between the decision and the free: the `..` entry of
a directory unlinked from an unlinked parent still names the parent, and `free_while_referenced` is
a run of `unlink` and `chdir` in which a process takes a reference to a directory through it while
the other process's `iput` frees the directory.
-/

namespace Xv6.ICache

open Machine

/-- The fields of a disk inode that the cache's decisions read: the type, zero for a free inode,
and the link count. -/
structure DiskInode where
  /-- The file type. -/
  type : Nat
  /-- The number of directory entries naming the inode. -/
  nlink : Nat
  deriving DecidableEq, Repr

/-- An entry of `icache`: `struct inode` with the holder of its sleep lock, and of the copied
fields those the cache's decisions read. -/
structure Entry where
  /-- Device number. -/
  dev : Nat
  /-- Inode number. -/
  inum : Nat
  /-- Reference count, an `int`. -/
  ref : Int
  /-- The process holding `ip->lock`. -/
  lock : Option Nat
  /-- The copy below has been read from disk. -/
  valid : Bool
  /-- Copy of the type. -/
  type : Nat
  /-- Copy of the link count. -/
  nlink : Nat
  deriving DecidableEq, Repr

/-- An entry of the zeroed `icache`. -/
def Entry.empty : Entry := ⟨0, 0, 0, none, false, 0, 0⟩

/-! ## The functions, under their locks -/

/-- `iget(dev, inum)`: the entry caching the inode, with one more reference, or the first entry
with no references, recycled for it and not valid. -/
def iget (c : Nat → Entry) (dev inum : Nat) : Outcome ((Nat → Entry) × Nat) :=
  match (List.range NINODE).find? fun i =>
      decide (0 < (c i).ref) && (c i).dev == dev && (c i).inum == inum with
  | some i => .ok (Function.update c i { c i with ref := (c i).ref + 1 }, i)
  | none =>
    match (List.range NINODE).find? fun i => (c i).ref == 0 with
    | some i => .ok (Function.update c i { c i with dev, inum, ref := 1, valid := false }, i)
    | none => .panic "iget: no inodes"

/-- A directory entry in use with the name `name`, as `namecmp` compares names. -/
def entryNamed (name : List UInt8) (de : Fs.Dirent) : Bool :=
  de.inum != 0 && Fs.namecmp name de.name

/-- The entry of a directory's content that `dirlookup`'s loop stops at: the first in use with the
name. -/
def lookupEntry (des : List Fs.Dirent) (name : List UInt8) : Option Fs.Dirent :=
  des.find? (entryNamed name)

/-- `dirlookup(dp, name, poff)` on entry `i`, whose lock the caller holds: `iget` of the inode
named by the directory's entry with the name, or none. -/
def dirlookup (c : Nat → Entry) (dirs : Nat × Nat → List Fs.Dirent) (i : Nat) (name : List UInt8) :
    Outcome (Option ((Nat → Entry) × Nat)) :=
  let dp := c i
  if dp.type != Fs.T_DIR then .panic "dirlookup not DIR"
  else
    match lookupEntry (dirs (dp.dev, dp.inum)) name with
    | some de => some <$> iget c dp.dev de.inum
    | none => pure none

/-- `dirlink(dp, name, inum)` once its `dirlookup` has found no entry with the name: the entry,
its name as `strncpy` copies it, in the first free slot, or past the last one. -/
def dirlink (des : List Fs.Dirent) (name : List UInt8) (inum : Nat) : List Fs.Dirent :=
  let de : Fs.Dirent := ⟨inum, Fs.strncpyName name⟩
  match des.findIdx? (·.inum == 0) with
  | some off => des.set off de
  | none => des ++ [de]

/-- `sys_unlink`'s `memset(&de, 0, sizeof(de))` and `writei` of the zeroed entry at the offset its
`dirlookup` found. -/
def unlinkEntry (des : List Fs.Dirent) (name : List UInt8) : List Fs.Dirent :=
  match des.findIdx? (entryNamed name) with
  | some off => des.set off ⟨0, List.replicate Fs.DIRSIZ 0⟩
  | none => des

/-- `ialloc` once its search has found the free disk inode `inum`: the disk inode zeroed with the
type `type`, so with no content, then `iget`. Which free inode the search finds is left open. -/
def ialloc (c : Nat → Entry) (disk : Nat × Nat → DiskInode) (dirs : Nat × Nat → List Fs.Dirent)
    (dev inum type : Nat) :
    Outcome ((Nat → Entry) × (Nat × Nat → DiskInode) × (Nat × Nat → List Fs.Dirent) × Nat) := do
  let disk := Function.update disk (dev, inum) ⟨type, 0⟩
  let dirs := Function.update dirs (dev, inum) []
  let (c, i) ← iget c dev inum
  pure (c, disk, dirs, i)

/-- `idup`: one more reference. -/
def idup (c : Nat → Entry) (i : Nat) : Nat → Entry :=
  Function.update c i { c i with ref := (c i).ref + 1 }

/-- `ilock` by process `p`: take the sleep lock, and copy the disk inode unless the copy is
valid. -/
def ilock (c : Nat → Entry) (disk : Nat × Nat → DiskInode) (p i : Nat) : Outcome (Nat → Entry) :=
  let ip := c i
  if ip.ref < 1 then .panic "ilock"
  else if ip.lock.isSome then .block
  else if !ip.valid then
    let d := disk (ip.dev, ip.inum)
    if d.type == 0 then .panic "ilock: no type"
    else .ok (Function.update c i { ip with lock := some p, type := d.type, nlink := d.nlink, valid := true })
  else .ok (Function.update c i { ip with lock := some p })

/-- `iunlock` by process `p`. -/
def iunlock (c : Nat → Entry) (p i : Nat) : Outcome (Nat → Entry) :=
  let ip := c i
  if ip.lock != some p || ip.ref < 1 then .panic "iunlock"
  else .ok (Function.update c i { ip with lock := none })

/-- `ip->nlink++` (`up`) or `ip->nlink--`, then `iupdate(ip)`, by the holder of the lock. -/
def relink (c : Nat → Entry) (disk : Nat × Nat → DiskInode) (i : Nat) (up : Bool) :
    Outcome ((Nat → Entry) × (Nat × Nat → DiskInode)) :=
  let ip := c i
  if !up && ip.nlink < 1 then .panic "unlink: nlink < 1"
  else
    let nlink := if up then ip.nlink + 1 else ip.nlink - 1
    .ok (Function.update c i { ip with nlink }, Function.update disk (ip.dev, ip.inum) ⟨ip.type, nlink⟩)

/-- `iput` by process `p` up to its decision: `acquiresleep(&ip->lock)`, and whether the inode is
valid, has no links, and has the one reference, read under `icache.lock`. -/
def iputLock (c : Nat → Entry) (p i : Nat) : Outcome ((Nat → Entry) × Bool) :=
  let ip := c i
  if ip.lock.isSome then .block
  else .ok (Function.update c i { ip with lock := some p }, ip.valid && ip.nlink == 0 && ip.ref == 1)

/-- `iput`'s free, if it decided on one: `itrunc`, which empties the content, `ip->type = 0`,
`iupdate`, `ip->valid = 0`. -/
def iputFree (c : Nat → Entry) (disk : Nat × Nat → DiskInode) (dirs : Nat × Nat → List Fs.Dirent)
    (i : Nat) (free : Bool) :
    (Nat → Entry) × (Nat × Nat → DiskInode) × (Nat × Nat → List Fs.Dirent) :=
  let ip := c i
  if free then
    (Function.update c i { ip with type := 0, valid := false },
      Function.update disk (ip.dev, ip.inum) ⟨0, ip.nlink⟩, Function.update dirs (ip.dev, ip.inum) [])
  else (c, disk, dirs)

/-- `releasesleep(&ip->lock)` at the end of `iput`. -/
def iputUnlock (c : Nat → Entry) (i : Nat) : Nat → Entry :=
  Function.update c i { c i with lock := none }

/-- `ip->ref--` under `icache.lock`, the last step of `iput`. -/
def iputDrop (c : Nat → Entry) (i : Nat) : Nat → Entry :=
  Function.update c i { c i with ref := (c i).ref - 1 }

/-! ## Processes -/

/-- Where a process is in `iput`. -/
inductive Pc where
  /-- Not in `iput`. -/
  | idle
  /-- Holds the sleep lock of entry `i`, and has decided whether to free the inode. -/
  | deciding (i : Nat) (free : Bool)
  /-- Past the free, at `releasesleep`. -/
  | unlocking (i : Nat)
  /-- At `ip->ref--`. -/
  | dropping (i : Nat)
  deriving DecidableEq, Repr

/-- The entry whose sleep lock `iput` holds at this counter. -/
def Pc.holds : Pc → Nat → Bool
  | .deciding i _, j => i == j
  | .unlocking i, j => i == j
  | _, _ => false

/-- The entry `iput` is putting at this counter. -/
def Pc.entry : Pc → Option Nat
  | .idle => none
  | .deciding i _ | .unlocking i | .dropping i => some i

/-- The cache, the disk inodes and their contents, the references handed out, and where each
process is in `iput`. -/
structure IState where
  /-- `icache.inode`, by index. -/
  icache : Nat → Entry
  /-- The disk inodes, by device and inode number. -/
  disk : Nat × Nat → DiskInode
  /-- The content of each inode, read as directory entries. -/
  dirs : Nat × Nat → List Fs.Dirent
  /-- The references handed out and not yet put: process and entry. -/
  refs : List (Nat × Nat)
  /-- Where each process is in `iput`. -/
  pc : Nat → Pc

/-- The cache as `iinit` leaves it, over the disk inodes `disk` with the contents `dirs`. -/
def IState.init (disk : Nat × Nat → DiskInode) (dirs : Nat × Nat → List Fs.Dirent) : IState :=
  ⟨fun _ => Entry.empty, disk, dirs, [], fun _ => .idle⟩

/-- A step of a process. -/
inductive Event where
  /-- `namex`'s `iget(ROOTDEV, ROOTINO)` by process `p`, for a path from the root. -/
  | namexRoot (p : Nat)
  /-- `dirlookup` by process `p` of the name `name` in the directory of entry `i`. -/
  | dirlookup (p i : Nat) (name : List UInt8)
  /-- `ialloc` by process `p`, of the free disk inode `inum`, with the type `type`. -/
  | ialloc (p dev inum type : Nat)
  /-- `idup` by process `p` of its entry `i`, the new reference going to `q`: `namex`'s of the
  current directory (`q = p`), or `fork`'s (`q` the child). -/
  | idup (p q i : Nat)
  /-- `ilock` by process `p`. -/
  | ilock (p i : Nat)
  /-- `iunlock` by process `p`. -/
  | iunlock (p i : Nat)
  /-- `dirlink` by process `p` of the name `name` for the inode `inum` in the directory of entry
  `i`. -/
  | dirlink (p i : Nat) (name : List UInt8) (inum : Nat)
  /-- `sys_unlink`'s write by process `p` over the entry `name` of the directory of entry `i`. -/
  | unlink (p i : Nat) (name : List UInt8)
  /-- The holder of the lock adds (`up`) or removes a link. -/
  | relink (p i : Nat) (up : Bool)
  /-- `iput` by process `p`: the sleep lock and the decision. -/
  | iputLock (p i : Nat)
  /-- `iput`'s free, if decided. -/
  | iputFree (p : Nat)
  /-- `iput`'s `releasesleep`. -/
  | iputUnlock (p : Nat)
  /-- `iput`'s `ref--`. -/
  | iputDrop (p : Nat)

/-- The inode that entry `i` caches. -/
def IState.key (s : IState) (i : Nat) : Nat × Nat := ((s.icache i).dev, (s.icache i).inum)

/-- `Step s e s'`: the event `e` may happen in `s` and leads to `s'`. A process outside `iput` is
at `idle`, and makes its calls on entries it holds a reference to, or, for `dirlookup`, the
directory writes and `relink`, holds the lock of; one inside takes only `iput`'s steps. A
`dirlink` that finds the name takes and puts a reference, a `dirlookup` and an `iput`, and
writes nothing. -/
def Step (s : IState) : Event → IState → Prop
  | .namexRoot p, s' =>
    s.pc p = .idle ∧ ∃ c i, iget s.icache ROOTDEV Fs.ROOTINO = .ok (c, i) ∧
      s' = { s with icache := c, refs := s.refs ++ [(p, i)] }
  | .dirlookup p i name, s' =>
    s.pc p = .idle ∧ (s.icache i).lock = some p ∧
      ((∃ c j, dirlookup s.icache s.dirs i name = .ok (some (c, j)) ∧
          s' = { s with icache := c, refs := s.refs ++ [(p, j)] }) ∨
        dirlookup s.icache s.dirs i name = .ok none ∧ s' = s)
  | .ialloc p dev inum type, s' =>
    s.pc p = .idle ∧ (s.disk (dev, inum)).type = 0 ∧
      ∃ c d ds i, ialloc s.icache s.disk s.dirs dev inum type = .ok (c, d, ds, i) ∧
      s' = { s with icache := c, disk := d, dirs := ds, refs := s.refs ++ [(p, i)] }
  | .idup p q i, s' =>
    s.pc p = .idle ∧ (p, i) ∈ s.refs ∧
      s' = { s with icache := idup s.icache i, refs := s.refs ++ [(q, i)] }
  | .ilock p i, s' =>
    s.pc p = .idle ∧ (p, i) ∈ s.refs ∧ ∃ c, ilock s.icache s.disk p i = .ok c ∧
      s' = { s with icache := c }
  | .iunlock p i, s' =>
    s.pc p = .idle ∧ ∃ c, iunlock s.icache p i = .ok c ∧ s' = { s with icache := c }
  | .dirlink p i name inum, s' =>
    s.pc p = .idle ∧ (s.icache i).lock = some p ∧ lookupEntry (s.dirs (s.key i)) name = none ∧
      s' = { s with dirs := Function.update s.dirs (s.key i) (dirlink (s.dirs (s.key i)) name inum) }
  | .unlink p i name, s' =>
    s.pc p = .idle ∧ (s.icache i).lock = some p ∧ Fs.namecmp name Fs.dot = false ∧
      Fs.namecmp name Fs.dotdot = false ∧
      s' = { s with dirs := Function.update s.dirs (s.key i) (unlinkEntry (s.dirs (s.key i)) name) }
  | .relink p i up, s' =>
    s.pc p = .idle ∧ (s.icache i).lock = some p ∧ ∃ c d, relink s.icache s.disk i up = .ok (c, d) ∧
      s' = { s with icache := c, disk := d }
  | .iputLock p i, s' =>
    s.pc p = .idle ∧ (p, i) ∈ s.refs ∧ ∃ c free, iputLock s.icache p i = .ok (c, free) ∧
      s' = { s with icache := c, pc := Function.update s.pc p (.deciding i free) }
  | .iputFree p, s' =>
    ∃ i free, s.pc p = .deciding i free ∧
      s' = { s with
        icache := (iputFree s.icache s.disk s.dirs i free).1
        disk := (iputFree s.icache s.disk s.dirs i free).2.1
        dirs := (iputFree s.icache s.disk s.dirs i free).2.2
        pc := Function.update s.pc p (.unlocking i) }
  | .iputUnlock p, s' =>
    ∃ i, s.pc p = .unlocking i ∧
      s' = { s with icache := iputUnlock s.icache i, pc := Function.update s.pc p (.dropping i) }
  | .iputDrop p, s' =>
    ∃ i, s.pc p = .dropping i ∧
      s' = { s with
        icache := iputDrop s.icache i
        refs := s.refs.erase (p, i)
        pc := Function.update s.pc p .idle }

/-- `Reaches s`: a run from the zeroed cache reaches `s`. -/
inductive Reaches : IState → Prop where
  | init (disk : Nat × Nat → DiskInode) (dirs : Nat × Nat → List Fs.Dirent) :
      Reaches (IState.init disk dirs)
  | step {s s' : IState} {e : Event} : Reaches s → Step s e s' → Reaches s'

/-! ## References -/

/-- The references to entry `i` handed out and not yet put. -/
def refCount (refs : List (Nat × Nat)) (i : Nat) : Nat := refs.countP fun r => r.2 == i

theorem refCount_eq (refs : List (Nat × Nat)) (i : Nat) : refCount refs i = refs.countP fun r => r.2 == i :=
  rfl

theorem refCount_append (refs : List (Nat × Nat)) (p i j : Nat) :
    refCount (refs ++ [(p, i)]) j = refCount refs j + if i = j then 1 else 0 := by
  by_cases hij : i = j <;> simp [refCount_eq, List.countP_append, hij]

theorem refCount_erase {refs : List (Nat × Nat)} {p i : Nat} (h : (p, i) ∈ refs) (j : Nat) :
    refCount (refs.erase (p, i)) j = refCount refs j - if i = j then 1 else 0 := by
  by_cases hij : i = j
  · subst hij
    simp [refCount_eq, List.countP_erase, h]
  · simp [refCount_eq, List.countP_erase, hij]

theorem refCount_pos {refs : List (Nat × Nat)} {p i : Nat} (h : (p, i) ∈ refs) :
    0 < refCount refs i :=
  List.countP_pos_iff.mpr ⟨(p, i), h, by simp⟩

/-! ## What each function does -/

section Specs

variable {c c' : Nat → Entry} {disk disk' : Nat × Nat → DiskInode} {p i : Nat}

/-- `iget` returns the entry caching the inode, or recycles an entry with no references when no
entry with references caches it. -/
theorem iget_spec {dev inum : Nat} (h : iget c dev inum = .ok (c', i)) :
    i < NINODE ∧
      ((0 < (c i).ref ∧ (c i).dev = dev ∧ (c i).inum = inum ∧
          c' = Function.update c i { c i with ref := (c i).ref + 1 }) ∨
        ((∀ j < NINODE, 0 < (c j).ref → (c j).dev = dev → (c j).inum ≠ inum) ∧ (c i).ref = 0 ∧
          c' = Function.update c i { c i with dev, inum, ref := 1, valid := false })) := by
  unfold iget at h
  split at h
  · rename_i i₀ hfind
    cases h
    have hmem := List.mem_range.mp (List.mem_of_find?_eq_some hfind)
    have hsat := List.find?_some hfind
    simp only [Bool.and_eq_true, decide_eq_true_eq, beq_iff_eq] at hsat
    exact ⟨hmem, .inl ⟨hsat.1.1, hsat.1.2, hsat.2, rfl⟩⟩
  · rename_i hnone
    split at h
    · rename_i i₀ hfind
      cases h
      have hmem := List.mem_range.mp (List.mem_of_find?_eq_some hfind)
      have hsat := List.find?_some hfind
      refine ⟨hmem, .inr ⟨fun j hj hr hd hn => ?_, by simpa using hsat, rfl⟩⟩
      have hj' := List.find?_eq_none.mp hnone j (List.mem_range.mpr hj)
      simp [hr, hd, hn] at hj'
    · cases h

/-- `ilock` finds the entry referenced and its lock free, takes the lock, and makes the copy
valid, from a disk inode with a type. -/
theorem ilock_spec (h : ilock c disk p i = .ok c') :
    1 ≤ (c i).ref ∧ (c i).lock = none ∧
      ((c i).valid = true ∧ c' = Function.update c i { c i with lock := some p } ∨
        (c i).valid = false ∧ (disk ((c i).dev, (c i).inum)).type ≠ 0 ∧
          c' = Function.update c i { c i with
            lock := some p, type := (disk ((c i).dev, (c i).inum)).type,
            nlink := (disk ((c i).dev, (c i).inum)).nlink, valid := true }) := by
  unfold ilock at h
  dsimp only at h
  split_ifs at h with href hlock hvalid htype
  · cases h
    refine ⟨by omega, by simpa using hlock, .inr ⟨by simpa using hvalid, by simpa using htype, rfl⟩⟩
  · cases h
    refine ⟨by omega, by simpa using hlock, .inl ⟨by simpa using hvalid, rfl⟩⟩

/-- `iunlock` by the holder releases the lock. -/
theorem iunlock_spec (h : iunlock c p i = .ok c') :
    (c i).lock = some p ∧ c' = Function.update c i { c i with lock := none } := by
  unfold iunlock at h
  dsimp only at h
  split_ifs at h with hbad
  cases h
  simp only [Bool.or_eq_true, bne_iff_ne, ne_eq, decide_eq_true_eq, not_or, not_not] at hbad
  exact ⟨hbad.1, rfl⟩

/-- `relink` changes the copy's link count and writes the disk inode from the copy. -/
theorem relink_spec {up : Bool} (h : relink c disk i up = .ok (c', disk')) :
    ∃ n, c' = Function.update c i { c i with nlink := n } ∧
      disk' = Function.update disk ((c i).dev, (c i).inum) ⟨(c i).type, n⟩ := by
  unfold relink at h
  dsimp only at h
  split_ifs at h <;> cases h <;> exact ⟨_, rfl, rfl⟩

/-- `iput` finds the lock free and takes it, deciding to free exactly a valid unlinked inode with
one reference. -/
theorem iputLock_spec {free : Bool} (h : iputLock c p i = .ok (c', free)) :
    (c i).lock = none ∧ c' = Function.update c i { c i with lock := some p } ∧
      (free = true ↔ (c i).valid = true ∧ (c i).nlink = 0 ∧ (c i).ref = 1) := by
  unfold iputLock at h
  dsimp only at h
  split_ifs at h with hlock
  cases h
  refine ⟨by simpa using hlock, rfl, ?_⟩
  simp [and_assoc]

end Specs

/-- Changing one entry in a way that keeps a field of it keeps that field of every entry. -/
theorem field_of_update {α : Type} (f : Entry → α) {c c' : Nat → Entry} {i : Nat}
    (hold : ∀ j, j ≠ i → c' j = c j) (hi : f (c' i) = f (c i)) (j : Nat) : f (c' j) = f (c j) := by
  by_cases hj : j = i
  · subst hj
    exact hi
  · rw [hold j hj]

/-- `field_of_update` for a `Function.update`. -/
theorem field_update {α : Type} (f : Entry → α) (c : Nat → Entry) (i : Nat) (e : Entry)
    (he : f e = f (c i)) (j : Nat) : f (Function.update c i e j) = f (c j) :=
  field_of_update f (fun _ hj => Function.update_of_ne hj _ _) (by rw [Function.update_self, he]) j

/-- `ialloc` is `iget` after the write of the disk inode and of its content. -/
theorem ialloc_eq_ok {c c' : Nat → Entry} {disk d : Nat × Nat → DiskInode}
    {dirs ds : Nat × Nat → List Fs.Dirent} {dev inum type i : Nat}
    (h : ialloc c disk dirs dev inum type = .ok (c', d, ds, i)) :
    iget c dev inum = .ok (c', i) ∧ d = Function.update disk (dev, inum) ⟨type, 0⟩ ∧
      ds = Function.update dirs (dev, inum) [] := by
  unfold ialloc at h
  obtain ⟨⟨c₁, i₁⟩, hget, hpure⟩ := Outcome.bind_eq_ok.mp h
  cases hpure
  exact ⟨hget, rfl, rfl⟩

/-- `dirlookup` that finds the name is `iget` of the inode its entry names, on the device of a
directory. -/
theorem dirlookup_eq_some {c c' : Nat → Entry} {dirs : Nat × Nat → List Fs.Dirent} {i j : Nat}
    {name : List UInt8} (h : dirlookup c dirs i name = .ok (some (c', j))) :
    (c i).type = Fs.T_DIR ∧ ∃ de, lookupEntry (dirs ((c i).dev, (c i).inum)) name = some de ∧
      iget c (c i).dev de.inum = .ok (c', j) := by
  unfold dirlookup at h
  dsimp only at h
  split_ifs at h with htype
  split at h
  · rename_i de hde
    obtain ⟨⟨c₁, j₁⟩, hget, hsome⟩ := Outcome.bind_eq_ok.mp h
    cases hsome
    exact ⟨by simpa using htype, de, hde, hget⟩
  · cases h

/-! ## Counting and caching -/

/-- The part of the invariant that reads no lock and no process: the counts, and the copies. -/
structure Counted (c : Nat → Entry) (disk : Nat × Nat → DiskInode) (refs : List (Nat × Nat)) :
    Prop where
  /-- Each entry's `ref` counts its references. -/
  ref_count : ∀ i, (c i).ref = refCount refs i
  /-- References are to entries of `icache`. -/
  refs_range : ∀ r ∈ refs, r.2 < NINODE
  /-- At most one entry with references caches an inode. -/
  unique : ∀ i j, 0 < (c i).ref → 0 < (c j).ref → (c i).dev = (c j).dev → (c i).inum = (c j).inum →
    i = j
  /-- A valid copy with references is the disk inode's, which has a type. -/
  cached : ∀ i, 0 < (c i).ref → (c i).valid = true →
    disk ((c i).dev, (c i).inum) = ⟨(c i).type, (c i).nlink⟩ ∧ (c i).type ≠ 0

section Counted

variable {c : Nat → Entry} {disk : Nat × Nat → DiskInode} {refs : List (Nat × Nat)}

/-- A referenced entry has references. -/
theorem Counted.ref_pos (h : Counted c disk refs) {p i : Nat} (hr : (p, i) ∈ refs) :
    0 < (c i).ref := by
  rw [h.ref_count]
  exact_mod_cast refCount_pos hr

/-- Entries with references are entries of `icache`. -/
theorem Counted.lt_of_ref_pos (h : Counted c disk refs) {i : Nat} (hi : 0 < (c i).ref) :
    i < NINODE := by
  rw [h.ref_count] at hi
  obtain ⟨r, hr, hri⟩ := List.countP_pos_iff.mp (by exact_mod_cast hi : 0 < refCount refs i)
  rw [beq_iff_eq] at hri
  exact hri ▸ h.refs_range r hr

/-- A write of the disk inode cached by entry `i` leaves the copies of the other entries with
references right. -/
theorem Counted.cached_other (h : Counted c disk refs) {i j : Nat} (hi : 0 < (c i).ref)
    (hj : 0 < (c j).ref) (hv : (c j).valid = true) (hji : j ≠ i) (d : DiskInode) :
    Function.update disk ((c i).dev, (c i).inum) d ((c j).dev, (c j).inum) =
      ⟨(c j).type, (c j).nlink⟩ ∧ (c j).type ≠ 0 := by
  have hne : ((c j).dev, (c j).inum) ≠ ((c i).dev, (c i).inum) := by
    intro heq
    obtain ⟨hd, hn⟩ := Prod.mk.inj heq
    exact hji (h.unique j i hj hi hd hn)
  rw [Function.update_of_ne hne]
  exact h.cached j hj hv

/-- A change of a lock alone. -/
theorem Counted.setLock (h : Counted c disk refs) (i : Nat) (l : Option Nat) :
    Counted (Function.update c i { c i with lock := l }) disk refs := by
  have hdev := field_update Entry.dev c i { c i with lock := l } rfl
  have hinum := field_update Entry.inum c i { c i with lock := l } rfl
  have href := field_update Entry.ref c i { c i with lock := l } rfl
  have hvalid := field_update Entry.valid c i { c i with lock := l } rfl
  have htype := field_update Entry.type c i { c i with lock := l } rfl
  have hnlink := field_update Entry.nlink c i { c i with lock := l } rfl
  refine ⟨fun j => ?_, h.refs_range, fun j k hj hk hd hn => ?_, fun j hj hv => ?_⟩
  · rw [href]
    exact h.ref_count j
  · rw [href] at hj hk
    rw [hdev, hdev] at hd
    rw [hinum, hinum] at hn
    exact h.unique j k hj hk hd hn
  · rw [href] at hj
    rw [hvalid] at hv
    rw [hdev, hinum, htype, hnlink]
    exact h.cached j hj hv

/-- One more reference to an entry with references: `idup`, and `iget` of a cached inode. -/
theorem Counted.bump (h : Counted c disk refs) (q : Nat) {i : Nat} (hi : 0 < (c i).ref) :
    Counted (idup c i) disk (refs ++ [(q, i)]) := by
  have hdev : ∀ j, (idup c i j).dev = (c j).dev := field_update Entry.dev c i _ rfl
  have hinum : ∀ j, (idup c i j).inum = (c j).inum := field_update Entry.inum c i _ rfl
  have hvalid : ∀ j, (idup c i j).valid = (c j).valid := field_update Entry.valid c i _ rfl
  have htype : ∀ j, (idup c i j).type = (c j).type := field_update Entry.type c i _ rfl
  have hnlink : ∀ j, (idup c i j).nlink = (c j).nlink := field_update Entry.nlink c i _ rfl
  have href : ∀ j, (idup c i j).ref = (c j).ref + if i = j then 1 else 0 := by
    intro j
    by_cases hj : j = i
    · subst hj
      simp [idup]
    · simp [idup, Function.update_of_ne hj, Ne.symm hj]
  -- `idup` only raises counts
  have hpos : ∀ j, 0 < (idup c i j).ref → 0 < (c j).ref := by
    intro j hj
    rw [href] at hj
    split_ifs at hj with hij
    · exact hij ▸ hi
    · simpa using hj
  refine ⟨fun j => ?_, fun r hr => ?_, fun j k hj hk hd hn => ?_, fun j hj hv => ?_⟩
  · rw [href, h.ref_count, refCount_append]
    split_ifs <;> simp
  · rcases List.mem_append.mp hr with hr | hr
    · exact h.refs_range r hr
    · rw [List.mem_singleton] at hr
      subst hr
      exact h.lt_of_ref_pos hi
  · rw [hdev, hdev] at hd
    rw [hinum, hinum] at hn
    exact h.unique j k (hpos j hj) (hpos k hk) hd hn
  · rw [hvalid] at hv
    rw [hdev, hinum, htype, hnlink]
    exact h.cached j (hpos j hj) hv

/-- An entry with no references recycled for an inode that no entry with references caches:
`iget` of an inode not in the cache. -/
theorem Counted.recycle (h : Counted c disk refs) (q dev inum : Nat) {i : Nat} (hi : i < NINODE)
    (h0 : (c i).ref = 0)
    (hnone : ∀ j < NINODE, 0 < (c j).ref → (c j).dev = dev → (c j).inum ≠ inum) :
    Counted (Function.update c i { c i with dev, inum, ref := 1, valid := false }) disk
      (refs ++ [(q, i)]) := by
  set c' := Function.update c i { c i with dev, inum, ref := 1, valid := false } with hc
  have hnew : c' i = { c i with dev, inum, ref := 1, valid := false } := Function.update_self ..
  have hold : ∀ j, j ≠ i → c' j = c j := fun j hj => Function.update_of_ne hj _ _
  have hcount : refCount refs i = 0 := by
    have := h.ref_count i
    omega
  -- no entry with references other than `i` caches the inode
  have hother : ∀ k, k ≠ i → 0 < (c' k).ref → (c' k).dev = (c' i).dev →
      (c' k).inum ≠ (c' i).inum := by
    intro k hk hpos hd
    rw [hold k hk] at hpos hd ⊢
    rw [hnew] at hd ⊢
    exact hnone k (h.lt_of_ref_pos hpos) hpos hd
  refine ⟨fun j => ?_, fun r hr => ?_, fun j k hj hk hd hn => ?_, fun j hj hv => ?_⟩
  · rw [refCount_append]
    by_cases hj : j = i
    · subst hj
      simp [hnew, hcount]
    · rw [hold j hj, if_neg (Ne.symm hj), add_zero]
      exact h.ref_count j
  · rcases List.mem_append.mp hr with hr | hr
    · exact h.refs_range r hr
    · rw [List.mem_singleton] at hr
      subst hr
      exact hi
  · by_cases hji : j = i <;> by_cases hki : k = i
    · rw [hji, hki]
    · subst hji
      exact absurd hn.symm (hother k hki hk hd.symm)
    · subst hki
      exact absurd hn (hother j hji hj hd)
    · rw [hold j hji, hold k hki] at hd hn
      rw [hold j hji] at hj
      rw [hold k hki] at hk
      exact h.unique j k hj hk hd hn
  · by_cases hji : j = i
    · subst hji
      simp [hnew] at hv
    · rw [hold j hji] at hj hv ⊢
      exact h.cached j hj hv

/-- The write of a disk inode that no valid entry with references caches: a free one. -/
theorem Counted.setDisk (h : Counted c disk refs) {dev inum : Nat} (d : DiskInode)
    (hfree : (disk (dev, inum)).type = 0) : Counted c (Function.update disk (dev, inum) d) refs where
  ref_count := h.ref_count
  refs_range := h.refs_range
  unique := h.unique
  cached j hj hv := by
    obtain ⟨hd, ht⟩ := h.cached j hj hv
    -- the inodes of valid copies have a type
    have hne : ((c j).dev, (c j).inum) ≠ (dev, inum) := by
      intro heq
      rw [heq] at hd
      rw [hd] at hfree
      exact ht hfree
    exact ⟨by rw [Function.update_of_ne hne, hd], ht⟩

/-- `ilock`'s read of the disk inode into the copy of entry `i`. -/
theorem Counted.load (h : Counted c disk refs) (i : Nat) (l : Option Nat)
    (ht : (disk ((c i).dev, (c i).inum)).type ≠ 0) :
    Counted (Function.update c i { c i with
      lock := l, type := (disk ((c i).dev, (c i).inum)).type,
      nlink := (disk ((c i).dev, (c i).inum)).nlink, valid := true }) disk refs := by
  set c' := Function.update c i { c i with
    lock := l, type := (disk ((c i).dev, (c i).inum)).type,
    nlink := (disk ((c i).dev, (c i).inum)).nlink, valid := true } with hc
  have hdev : ∀ j, (c' j).dev = (c j).dev := field_update Entry.dev c i _ rfl
  have hinum : ∀ j, (c' j).inum = (c j).inum := field_update Entry.inum c i _ rfl
  have href : ∀ j, (c' j).ref = (c j).ref := field_update Entry.ref c i _ rfl
  have hnew : c' i = { c i with
      lock := l, type := (disk ((c i).dev, (c i).inum)).type,
      nlink := (disk ((c i).dev, (c i).inum)).nlink, valid := true } :=
    Function.update_self ..
  have hold : ∀ j, j ≠ i → c' j = c j := fun j hj => Function.update_of_ne hj _ _
  refine ⟨fun j => ?_, h.refs_range, fun j k hj hk hd hn => ?_, fun j hj hv => ?_⟩
  · rw [href]
    exact h.ref_count j
  · rw [href] at hj hk
    rw [hdev, hdev] at hd
    rw [hinum, hinum] at hn
    exact h.unique j k hj hk hd hn
  · by_cases hji : j = i
    · subst hji
      simp [hnew, ht]
    · rw [hold j hji] at hj hv ⊢
      exact h.cached j hj hv

/-- A new link count of entry `i` written to its disk inode: `relink`. -/
theorem Counted.relink (h : Counted c disk refs) {i : Nat} (hi : 0 < (c i).ref) (n : Nat) :
    Counted (Function.update c i { c i with nlink := n })
      (Function.update disk ((c i).dev, (c i).inum) ⟨(c i).type, n⟩) refs := by
  have hdev := field_update Entry.dev c i { c i with nlink := n } rfl
  have hinum := field_update Entry.inum c i { c i with nlink := n } rfl
  have href := field_update Entry.ref c i { c i with nlink := n } rfl
  refine ⟨fun j => ?_, h.refs_range, fun j k hj hk hd hn => ?_, fun j hj hv => ?_⟩
  · rw [href]
    exact h.ref_count j
  · rw [href] at hj hk
    rw [hdev, hdev] at hd
    rw [hinum, hinum] at hn
    exact h.unique j k hj hk hd hn
  · by_cases hji : j = i
    · subst hji
      simp only [Function.update_self] at hj hv ⊢
      simpa using (h.cached j hj hv).2
    · rw [Function.update_of_ne hji] at hj hv ⊢
      exact h.cached_other hi hj hv hji _

/-- `iput`'s free of the inode of entry `i`. -/
theorem Counted.free (h : Counted c disk refs) {i : Nat} (hi : 0 < (c i).ref) :
    Counted (Function.update c i { c i with type := 0, valid := false })
      (Function.update disk ((c i).dev, (c i).inum) ⟨0, (c i).nlink⟩) refs := by
  have hdev := field_update Entry.dev c i { c i with type := 0, valid := false } rfl
  have hinum := field_update Entry.inum c i { c i with type := 0, valid := false } rfl
  have href := field_update Entry.ref c i { c i with type := 0, valid := false } rfl
  refine ⟨fun j => ?_, h.refs_range, fun j k hj hk hd hn => ?_, fun j hj hv => ?_⟩
  · rw [href]
    exact h.ref_count j
  · rw [href] at hj hk
    rw [hdev, hdev] at hd
    rw [hinum, hinum] at hn
    exact h.unique j k hj hk hd hn
  · by_cases hji : j = i
    · subst hji
      simp at hv
    · rw [Function.update_of_ne hji] at hj hv ⊢
      exact h.cached_other hi hj hv hji _

/-- The end of `iput`: the reference `(p, i)` is put. -/
theorem Counted.drop (h : Counted c disk refs) {p i : Nat} (hr : (p, i) ∈ refs) :
    Counted (iputDrop c i) disk (refs.erase (p, i)) := by
  have hdev : ∀ j, (iputDrop c i j).dev = (c j).dev := field_update Entry.dev c i _ rfl
  have hinum : ∀ j, (iputDrop c i j).inum = (c j).inum := field_update Entry.inum c i _ rfl
  have hvalid : ∀ j, (iputDrop c i j).valid = (c j).valid := field_update Entry.valid c i _ rfl
  have htype : ∀ j, (iputDrop c i j).type = (c j).type := field_update Entry.type c i _ rfl
  have hnlink : ∀ j, (iputDrop c i j).nlink = (c j).nlink := field_update Entry.nlink c i _ rfl
  have href : ∀ j, (iputDrop c i j).ref = (c j).ref - if i = j then 1 else 0 := by
    intro j
    by_cases hj : j = i
    · subst hj
      simp [iputDrop]
    · simp [iputDrop, Function.update_of_ne hj, Ne.symm hj]
  -- the put only lowers counts
  have hpos : ∀ j, 0 < (iputDrop c i j).ref → 0 < (c j).ref := by
    intro j hj
    rw [href] at hj
    split_ifs at hj <;> omega
  refine ⟨fun j => ?_, fun r hr' => h.refs_range r (List.mem_of_mem_erase hr'),
    fun j k hj hk hd hn => ?_, fun j hj hv => ?_⟩
  · have hcount := refCount_pos hr
    rw [href, h.ref_count, refCount_erase hr]
    split_ifs with hij
    · subst hij
      omega
    · simp
  · rw [hdev, hdev] at hd
    rw [hinum, hinum] at hn
    exact h.unique j k (hpos j hj) (hpos k hk) hd hn
  · rw [hvalid] at hv
    rw [hdev, hinum, htype, hnlink]
    exact h.cached j (hpos j hj) hv

end Counted

/-! ## The invariant -/

/-- What holds in every state of a run: the counts and copies, and the protocol of the sleep
locks and of `iput`. -/
structure Inv (s : IState) : Prop extends Counted s.icache s.disk s.refs where
  /-- The holder of a lock holds a reference. -/
  holder_ref : ∀ i p, (s.icache i).lock = some p → (p, i) ∈ s.refs
  /-- A lock held outside `iput` is on a valid copy: `ilock` has read it. -/
  locked_valid : ∀ i p, (s.icache i).lock = some p → (s.pc p).holds i = false →
    (s.icache i).valid = true
  /-- `iput` holds the lock where its counter says it does. -/
  holds_locked : ∀ p i, (s.pc p).holds i = true → (s.icache i).lock = some p
  /-- A call of `iput` holds the reference it puts. -/
  putting_ref : ∀ p i, (s.pc p).entry = some i → (p, i) ∈ s.refs
  /-- `iput` has released the lock by the time it drops the reference. -/
  dropping_unlocked : ∀ p i, s.pc p = .dropping i → (s.icache i).lock ≠ some p
  /-- A decision to free stays on a valid copy with no links: only the holder of the lock changes
  them. -/
  deciding_free : ∀ p i, s.pc p = .deciding i true →
    (s.icache i).valid = true ∧ (s.icache i).nlink = 0

theorem inv_init (disk : Nat × Nat → DiskInode) (dirs : Nat × Nat → List Fs.Dirent) :
    Inv (IState.init disk dirs) where
  ref_count _ := rfl
  refs_range _ h := absurd h List.not_mem_nil
  unique _ _ h := absurd h (lt_irrefl 0)
  cached _ h := absurd h (lt_irrefl 0)
  holder_ref _ _ h := by cases h
  locked_valid _ _ h := by cases h
  holds_locked _ _ h := by cases h
  putting_ref _ _ h := by cases h
  dropping_unlocked _ _ h := by cases h
  deciding_free _ _ h := by cases h

section Lemmas

variable {s : IState}

/-- A locked entry has references. -/
theorem Inv.lock_ref_pos (h : Inv s) {p i : Nat} (hl : (s.icache i).lock = some p) :
    0 < (s.icache i).ref :=
  h.ref_pos (h.holder_ref i p hl)

/-- A call of `iput` before its `releasesleep` holds the entry's lock. -/
theorem Inv.lock_of_deciding (h : Inv s) {p i : Nat} {free : Bool}
    (hp : s.pc p = .deciding i free) : (s.icache i).lock = some p :=
  h.holds_locked p i (by simp [hp, Pc.holds])

/-- A process outside `iput` holds no lock of `iput`'s. -/
theorem Inv.ne_of_holds (h : Inv s) {p q i : Nat} (hp : s.pc p = .idle)
    (hl : (s.icache i).lock = some p) {j : Nat} (hh : (s.pc q).holds j = true) : j ≠ i := by
  rintro rfl
  rw [h.holds_locked q j hh] at hl
  cases hl
  rw [hp] at hh
  cases hh

/-- No `iput` holds the lock of an unlocked entry. -/
theorem Inv.ne_of_unlocked (h : Inv s) {q i j : Nat} (hl : (s.icache i).lock = none)
    (hh : (s.pc q).holds j = true) : j ≠ i := by
  rintro rfl
  rw [h.holds_locked q j hh] at hl
  cases hl

/-- A process outside `iput` holds no lock of `iput`'s. -/
theorem holds_of_idle {pc : Pc} (hp : pc = .idle) (i : Nat) : pc.holds i = false := by
  rw [hp]
  rfl

/-- `iget` of a cached inode and `idup`: one more reference to an entry that no `iput` has
decided to free. -/
theorem Inv.bump (h : Inv s) (q i : Nat) (hi : 0 < (s.icache i).ref) :
    Inv { s with icache := idup s.icache i, refs := s.refs ++ [(q, i)] } := by
  have hlock : ∀ j, (idup s.icache i j).lock = (s.icache j).lock :=
    field_update Entry.lock _ i _ rfl
  have hvalid : ∀ j, (idup s.icache i j).valid = (s.icache j).valid :=
    field_update Entry.valid _ i _ rfl
  have hnlink : ∀ j, (idup s.icache i j).nlink = (s.icache j).nlink :=
    field_update Entry.nlink _ i _ rfl
  refine ⟨h.toCounted.bump q hi, ?_, ?_, ?_, ?_, ?_, ?_⟩ <;> dsimp only
  · intro j p hl
    rw [hlock] at hl
    exact List.mem_append_left _ (h.holder_ref j p hl)
  · intro j p hl hh
    rw [hlock] at hl
    rw [hvalid]
    exact h.locked_valid j p hl hh
  · intro p j hh
    rw [hlock]
    exact h.holds_locked p j hh
  · intro p j he
    exact List.mem_append_left _ (h.putting_ref p j he)
  · intro p j hd
    rw [hlock]
    exact h.dropping_unlocked p j hd
  · intro p j hd
    rw [hvalid, hnlink]
    exact h.deciding_free p j hd

/-- `iget` of an inode not in the cache: a recycled entry has no holder and no `iput`. -/
theorem Inv.recycle (h : Inv s) (q dev inum : Nat) {i : Nat} (hi : i < NINODE)
    (h0 : (s.icache i).ref = 0)
    (hnone : ∀ j < NINODE, 0 < (s.icache j).ref → (s.icache j).dev = dev →
      (s.icache j).inum ≠ inum) :
    Inv { s with
      icache := Function.update s.icache i { s.icache i with dev, inum, ref := 1, valid := false }
      refs := s.refs ++ [(q, i)] } := by
  have hlock := field_update Entry.lock s.icache i
    { s.icache i with dev, inum, ref := 1, valid := false } rfl
  have hunlocked : (s.icache i).lock = none := by
    cases hl : (s.icache i).lock with
    | none => rfl
    | some p =>
      have := h.lock_ref_pos hl
      omega
  refine ⟨h.toCounted.recycle q dev inum hi h0 hnone, ?_, ?_, ?_, ?_, ?_, ?_⟩ <;> dsimp only
  · intro j p hl
    rw [hlock] at hl
    exact List.mem_append_left _ (h.holder_ref j p hl)
  · intro j p hl hh
    rw [hlock] at hl
    have hji : j ≠ i := by
      rintro rfl
      rw [hunlocked] at hl
      cases hl
    rw [Function.update_of_ne hji]
    exact h.locked_valid j p hl hh
  · intro p j hh
    rw [hlock]
    exact h.holds_locked p j hh
  · intro p j he
    exact List.mem_append_left _ (h.putting_ref p j he)
  · intro p j hd
    rw [hlock]
    exact h.dropping_unlocked p j hd
  · intro p j hd
    -- the deciding process holds a reference to its entry, and the recycled entry has none
    have hji : j ≠ i := by
      rintro rfl
      have := h.ref_pos (h.putting_ref p j (by simp [hd, Pc.entry]))
      omega
    rw [Function.update_of_ne hji]
    exact h.deciding_free p j hd

/-- `iget`, of any inode. -/
theorem Inv.iget (h : Inv s) {p dev inum i : Nat} {c : Nat → Entry}
    (hget : iget s.icache dev inum = .ok (c, i)) :
    Inv { s with icache := c, refs := s.refs ++ [(p, i)] } := by
  obtain ⟨hi, ⟨hpos, -, -, rfl⟩ | ⟨hnone, h0, rfl⟩⟩ := iget_spec hget
  · exact h.bump p i hpos
  · exact h.recycle p dev inum hi h0 hnone

/-- A write of the directory contents alone. -/
theorem Inv.setDirs (h : Inv s) (ds : Nat × Nat → List Fs.Dirent) : Inv { s with dirs := ds } :=
  { h with }

/-- The write of a free disk inode. -/
theorem Inv.setDisk (h : Inv s) {dev inum : Nat} (d : DiskInode)
    (hfree : (s.disk (dev, inum)).type = 0) :
    Inv { s with disk := Function.update s.disk (dev, inum) d } :=
  { h with toCounted := h.toCounted.setDisk d hfree }

/-- `ialloc` of a free disk inode. -/
theorem Inv.ialloc (h : Inv s) {p dev inum type i : Nat} {c : Nat → Entry}
    {d : Nat × Nat → DiskInode} {ds : Nat × Nat → List Fs.Dirent}
    (hfree : (s.disk (dev, inum)).type = 0)
    (ha : ialloc s.icache s.disk s.dirs dev inum type = .ok (c, d, ds, i)) :
    Inv { s with icache := c, disk := d, dirs := ds, refs := s.refs ++ [(p, i)] } := by
  obtain ⟨hget, rfl, rfl⟩ := ialloc_eq_ok ha
  exact ((h.setDisk ⟨type, 0⟩ hfree).iget hget).setDirs _

/-- `ilock` by a process outside `iput`, of an entry it holds a reference to. -/
theorem Inv.ilock (h : Inv s) {p i : Nat} {c : Nat → Entry} (hp : s.pc p = .idle)
    (hr : (p, i) ∈ s.refs) (hc : ilock s.icache s.disk p i = .ok c) :
    Inv { s with icache := c } := by
  obtain ⟨-, hfree, hcase⟩ := ilock_spec hc
  have hold : ∀ j, j ≠ i → c j = s.icache j := by
    rcases hcase with ⟨-, rfl⟩ | ⟨-, -, rfl⟩ <;> exact fun j hj => Function.update_of_ne hj _ _
  have hnew : (c i).lock = some p ∧ (c i).valid = true := by
    rcases hcase with ⟨hv, rfl⟩ | ⟨-, -, rfl⟩
    · simp [hv]
    · simp
  have hcounted : Counted c s.disk s.refs := by
    rcases hcase with ⟨-, rfl⟩ | ⟨-, ht, rfl⟩
    · exact h.toCounted.setLock i (some p)
    · exact h.toCounted.load i (some p) ht
  refine ⟨hcounted, ?_, ?_, ?_, ?_, ?_, ?_⟩ <;> dsimp only
  · intro j q hl
    by_cases hji : j = i
    · subst hji
      rw [hnew.1] at hl
      cases hl
      exact hr
    · rw [hold j hji] at hl
      exact h.holder_ref j q hl
  · intro j q hl hh
    by_cases hji : j = i
    · subst hji
      exact hnew.2
    · rw [hold j hji] at hl ⊢
      exact h.locked_valid j q hl hh
  · intro q j hh
    rw [hold j (h.ne_of_unlocked hfree hh)]
    exact h.holds_locked q j hh
  · exact h.putting_ref
  · intro q j hd
    by_cases hji : j = i
    · subst hji
      rw [hnew.1]
      -- the locker is outside `iput`
      intro hpq
      cases hpq
      rw [hp] at hd
      cases hd
    · rw [hold j hji]
      exact h.dropping_unlocked q j hd
  · intro q j hd
    have hh : (s.pc q).holds j = true := by simp [hd, Pc.holds]
    rw [hold j (h.ne_of_unlocked hfree hh)]
    exact h.deciding_free q j hd

/-- A lock after a release of entry `i` is a lock of another entry from before. -/
theorem lock_of_release {c : Nat → Entry} {i j p : Nat}
    (hl : (Function.update c i { c i with lock := none } j).lock = some p) :
    j ≠ i ∧ (c j).lock = some p := by
  by_cases hji : j = i
  · subst hji
    simp at hl
  · rw [Function.update_of_ne hji] at hl
    exact ⟨hji, hl⟩

/-- Whether a process holds the lock of entry `j` is as before a change of another process's
counter, or of its own from one that does not hold it. -/
theorem holds_of_update {pc : Nat → Pc} {p q j : Nat} {x : Pc} (hp : (pc p).holds j = false)
    (hh : (Function.update pc p x q).holds j = false) : (pc q).holds j = false := by
  by_cases hq : q = p
  · subst hq
    exact hp
  · rwa [Function.update_of_ne hq] at hh

/-- A counter found after a change of process `p`'s counter to another one is of another process,
and was there before. -/
theorem pc_of_update {pc : Nat → Pc} {p q : Nat} {x y : Pc} (h : Function.update pc p x q = y)
    (hxy : x ≠ y) : q ≠ p ∧ pc q = y := by
  by_cases hqp : q = p
  · subst hqp
    rw [Function.update_self] at h
    exact absurd h hxy
  · rw [Function.update_of_ne hqp] at h
    exact ⟨hqp, h⟩

/-- `iunlock` by a process outside `iput`. -/
theorem Inv.iunlock (h : Inv s) {p i : Nat} {c : Nat → Entry} (hp : s.pc p = .idle)
    (hc : iunlock s.icache p i = .ok c) : Inv { s with icache := c } := by
  obtain ⟨hheld, rfl⟩ := iunlock_spec hc
  have hvalid := field_update Entry.valid s.icache i { s.icache i with lock := none } rfl
  have hnlink := field_update Entry.nlink s.icache i { s.icache i with lock := none } rfl
  refine ⟨h.toCounted.setLock i none, ?_, ?_, ?_, ?_, ?_, ?_⟩ <;> dsimp only
  · intro j q hl
    exact h.holder_ref j q (lock_of_release hl).2
  · intro j q hl hh
    rw [hvalid]
    exact h.locked_valid j q (lock_of_release hl).2 hh
  · intro q j hh
    rw [Function.update_of_ne (h.ne_of_holds hp hheld hh)]
    exact h.holds_locked q j hh
  · exact h.putting_ref
  · intro q j hd
    by_cases hji : j = i
    · subst hji
      simp
    · rw [Function.update_of_ne hji]
      exact h.dropping_unlocked q j hd
  · intro q j hd
    rw [hvalid, hnlink]
    exact h.deciding_free q j hd

/-- `relink` by the holder of the lock, outside `iput`. -/
theorem Inv.relink (h : Inv s) {p i : Nat} {up : Bool} {c : Nat → Entry}
    {d : Nat × Nat → DiskInode} (hp : s.pc p = .idle) (hl : (s.icache i).lock = some p)
    (hc : relink s.icache s.disk i up = .ok (c, d)) : Inv { s with icache := c, disk := d } := by
  obtain ⟨n, rfl, rfl⟩ := relink_spec hc
  have hlock := field_update Entry.lock s.icache i { s.icache i with nlink := n } rfl
  have hvalid := field_update Entry.valid s.icache i { s.icache i with nlink := n } rfl
  refine ⟨h.toCounted.relink (h.lock_ref_pos hl) n, ?_, ?_, ?_, ?_, ?_, ?_⟩ <;> dsimp only
  · intro j q hq
    rw [hlock] at hq
    exact h.holder_ref j q hq
  · intro j q hq hh
    rw [hlock] at hq
    rw [hvalid]
    exact h.locked_valid j q hq hh
  · intro q j hh
    rw [hlock]
    exact h.holds_locked q j hh
  · exact h.putting_ref
  · intro q j hd
    rw [hlock]
    exact h.dropping_unlocked q j hd
  · intro q j hd
    -- the relinking process holds the lock, so no `iput` is deciding on the entry
    have hh : (s.pc q).holds j = true := by simp [hd, Pc.holds]
    rw [Function.update_of_ne (h.ne_of_holds hp hl hh)]
    exact h.deciding_free q j hd

/-- `iput`'s lock and decision, by a process outside `iput`, of an entry it holds a reference
to. -/
theorem Inv.iputLock (h : Inv s) {p i : Nat} {free : Bool} {c : Nat → Entry}
    (hp : s.pc p = .idle) (hr : (p, i) ∈ s.refs) (hc : iputLock s.icache p i = .ok (c, free)) :
    Inv { s with icache := c, pc := Function.update s.pc p (.deciding i free) } := by
  obtain ⟨hfree, rfl, hdecide⟩ := iputLock_spec hc
  have hvalid := field_update Entry.valid s.icache i { s.icache i with lock := some p } rfl
  have hnlink := field_update Entry.nlink s.icache i { s.icache i with lock := some p } rfl
  refine ⟨h.toCounted.setLock i (some p), ?_, ?_, ?_, ?_, ?_, ?_⟩ <;> dsimp only
  · intro j q hl
    by_cases hji : j = i
    · subst hji
      simp only [Function.update_self, Option.some.injEq] at hl
      subst hl
      exact hr
    · rw [Function.update_of_ne hji] at hl
      exact h.holder_ref j q hl
  · intro j q hl hh
    by_cases hji : j = i
    · -- the new holder is deciding, and holds the lock
      subst hji
      simp only [Function.update_self, Option.some.injEq] at hl
      subst hl
      simp [Pc.holds] at hh
    · rw [Function.update_of_ne hji] at hl ⊢
      exact h.locked_valid j q hl (holds_of_update (holds_of_idle hp j) hh)
  · intro q j hh
    by_cases hq : q = p
    · subst hq
      simp only [Function.update_self, Pc.holds, beq_iff_eq] at hh
      subst hh
      simp
    · rw [Function.update_of_ne hq] at hh
      rw [Function.update_of_ne (h.ne_of_unlocked hfree hh)]
      exact h.holds_locked q j hh
  · intro q j he
    by_cases hq : q = p
    · subst hq
      simp only [Function.update_self, Pc.entry, Option.some.injEq] at he
      subst he
      exact hr
    · rw [Function.update_of_ne hq] at he
      exact h.putting_ref q j he
  · intro q j hd
    by_cases hq : q = p
    · subst hq
      simp at hd
    · rw [Function.update_of_ne hq] at hd
      by_cases hji : j = i
      · subst hji
        simp [Ne.symm hq]
      · rw [Function.update_of_ne hji]
        exact h.dropping_unlocked q j hd
  · intro q j hd
    by_cases hq : q = p
    · -- the decision is to free a valid copy with no links
      subst hq
      simp only [Function.update_self, Pc.deciding.injEq] at hd
      obtain ⟨hij, rfl⟩ := hd
      subst hij
      obtain ⟨hv, hn, -⟩ := hdecide.mp rfl
      exact ⟨by simp [hv], by simp [hn]⟩
    · rw [Function.update_of_ne hq] at hd
      rw [hvalid, hnlink]
      exact h.deciding_free q j hd

/-- `iput`'s free, if decided: the counter moves from `deciding` to `unlocking`, which hold the
same lock and put the same reference. -/
theorem Inv.iputFree (h : Inv s) {p i : Nat} {free : Bool} (hp : s.pc p = .deciding i free) :
    Inv { s with
      icache := (iputFree s.icache s.disk s.dirs i free).1
      disk := (iputFree s.icache s.disk s.dirs i free).2.1
      dirs := (iputFree s.icache s.disk s.dirs i free).2.2
      pc := Function.update s.pc p (.unlocking i) } := by
  have hholds : ∀ q, (Function.update s.pc p (.unlocking i) q).holds = (s.pc q).holds := by
    intro q
    by_cases hq : q = p
    · subst hq
      rw [Function.update_self, hp]
      rfl
    · rw [Function.update_of_ne hq]
  have hentry : ∀ q, (Function.update s.pc p (.unlocking i) q).entry = (s.pc q).entry := by
    intro q
    by_cases hq : q = p
    · subst hq
      rw [Function.update_self, hp]
      rfl
    · rw [Function.update_of_ne hq]
  have hheld := h.lock_of_deciding hp
  cases free
  case false =>
    show Inv { s with pc := Function.update s.pc p (.unlocking i) }
    refine ⟨h.toCounted, h.holder_ref, ?_, ?_, ?_, ?_, ?_⟩ <;> dsimp only
    · intro j q hl hh
      rw [hholds] at hh
      exact h.locked_valid j q hl hh
    · intro q j hh
      rw [hholds] at hh
      exact h.holds_locked q j hh
    · intro q j he
      rw [hentry] at he
      exact h.putting_ref q j he
    · intro q j hd
      exact h.dropping_unlocked q j (pc_of_update hd (by simp)).2
    · intro q j hd
      exact h.deciding_free q j (pc_of_update hd (by simp)).2
  case true =>
    have hi : 0 < (s.icache i).ref := h.ref_pos (h.putting_ref p i (by simp [hp, Pc.entry]))
    show Inv { s with
      icache := Function.update s.icache i { s.icache i with type := 0, valid := false }
      disk := Function.update s.disk ((s.icache i).dev, (s.icache i).inum) ⟨0, (s.icache i).nlink⟩
      dirs := Function.update s.dirs ((s.icache i).dev, (s.icache i).inum) []
      pc := Function.update s.pc p (.unlocking i) }
    have hlock := field_update Entry.lock s.icache i { s.icache i with type := 0, valid := false } rfl
    have hnlink :=
      field_update Entry.nlink s.icache i { s.icache i with type := 0, valid := false } rfl
    refine ⟨h.toCounted.free hi, ?_, ?_, ?_, ?_, ?_, ?_⟩ <;> dsimp only
    · intro j q hl
      rw [hlock] at hl
      exact h.holder_ref j q hl
    · intro j q hl hh
      rw [hlock] at hl
      rw [hholds] at hh
      -- the freed entry's lock is held by the freeing `iput`
      have hji : j ≠ i := by
        rintro rfl
        rw [hheld] at hl
        cases hl
        rw [hp] at hh
        simp [Pc.holds] at hh
      rw [Function.update_of_ne hji]
      exact h.locked_valid j q hl hh
    · intro q j hh
      rw [hholds] at hh
      rw [hlock]
      exact h.holds_locked q j hh
    · intro q j he
      rw [hentry] at he
      exact h.putting_ref q j he
    · intro q j hd
      rw [hlock]
      exact h.dropping_unlocked q j (pc_of_update hd (by simp)).2
    · intro q j hd
      obtain ⟨hqp, hdq⟩ := pc_of_update hd (by simp)
      have hji : j ≠ i := by
        rintro rfl
        rw [h.lock_of_deciding hdq] at hheld
        cases hheld
        exact hqp rfl
      rw [Function.update_of_ne hji]
      exact h.deciding_free q j hdq

/-- `iput`'s `releasesleep`. -/
theorem Inv.iputUnlock (h : Inv s) {p i : Nat} (hp : s.pc p = .unlocking i) :
    Inv { s with icache := iputUnlock s.icache i, pc := Function.update s.pc p (.dropping i) } := by
  have hheld : (s.icache i).lock = some p := h.holds_locked p i (by simp [hp, Pc.holds])
  have hpi : (p, i) ∈ s.refs := h.putting_ref p i (by simp [hp, Pc.entry])
  have hvalid : ∀ j, (ICache.iputUnlock s.icache i j).valid = (s.icache j).valid :=
    field_update Entry.valid _ i _ rfl
  have hnlink : ∀ j, (ICache.iputUnlock s.icache i j).nlink = (s.icache j).nlink :=
    field_update Entry.nlink _ i _ rfl
  have hlock : ∀ j, j ≠ i → (ICache.iputUnlock s.icache i j).lock = (s.icache j).lock :=
    fun j hj => by rw [ICache.iputUnlock, Function.update_of_ne hj]
  have hreleased : (ICache.iputUnlock s.icache i i).lock = none := by simp [ICache.iputUnlock]
  refine ⟨h.toCounted.setLock i none, ?_, ?_, ?_, ?_, ?_, ?_⟩ <;> dsimp only
  · intro j q hl
    exact h.holder_ref j q (lock_of_release hl).2
  · intro j q hl hh
    obtain ⟨hji, hl⟩ := lock_of_release hl
    have hpj : (s.pc p).holds j = false := by simp [hp, Pc.holds, Ne.symm hji]
    rw [hvalid]
    exact h.locked_valid j q hl (holds_of_update hpj hh)
  · intro q j hh
    have hqp : q ≠ p := by
      rintro rfl
      simp [Pc.holds] at hh
    rw [Function.update_of_ne hqp] at hh
    -- `iput` holds the lock it releases, so no other process holds it
    have hji : j ≠ i := by
      rintro rfl
      rw [h.holds_locked q j hh] at hheld
      cases hheld
      exact hqp rfl
    rw [hlock j hji]
    exact h.holds_locked q j hh
  · intro q j he
    by_cases hq : q = p
    · subst hq
      simp only [Function.update_self, Pc.entry, Option.some.injEq] at he
      subst he
      exact hpi
    · rw [Function.update_of_ne hq] at he
      exact h.putting_ref q j he
  · intro q j hd
    by_cases hji : j = i
    · subst hji
      rw [hreleased]
      simp
    · rw [hlock j hji]
      have hqp : q ≠ p := by
        rintro rfl
        simp only [Function.update_self, Pc.dropping.injEq] at hd
        exact hji hd.symm
      rw [Function.update_of_ne hqp] at hd
      exact h.dropping_unlocked q j hd
  · intro q j hd
    have hqp : q ≠ p := by
      rintro rfl
      simp at hd
    rw [Function.update_of_ne hqp] at hd
    rw [hvalid, hnlink]
    exact h.deciding_free q j hd

/-- `iput`'s `ref--`: the reference is put, and the process leaves `iput`. -/
theorem Inv.iputDrop (h : Inv s) {p i : Nat} (hp : s.pc p = .dropping i) :
    Inv { s with
      icache := iputDrop s.icache i
      refs := s.refs.erase (p, i)
      pc := Function.update s.pc p .idle } := by
  have hr : (p, i) ∈ s.refs := h.putting_ref p i (by simp [hp, Pc.entry])
  have hlock : ∀ j, (ICache.iputDrop s.icache i j).lock = (s.icache j).lock :=
    field_update Entry.lock _ i _ rfl
  have hvalid : ∀ j, (ICache.iputDrop s.icache i j).valid = (s.icache j).valid :=
    field_update Entry.valid _ i _ rfl
  have hnlink : ∀ j, (ICache.iputDrop s.icache i j).nlink = (s.icache j).nlink :=
    field_update Entry.nlink _ i _ rfl
  refine ⟨h.toCounted.drop hr, ?_, ?_, ?_, ?_, ?_, ?_⟩ <;> dsimp only
  · intro j q hl
    rw [hlock] at hl
    -- the putting process released the entry's lock before the put
    have hne : (q, j) ≠ (p, i) := by
      intro heq
      obtain ⟨rfl, rfl⟩ := Prod.mk.inj heq
      exact h.dropping_unlocked _ _ hp hl
    exact (List.mem_erase_of_ne hne).mpr (h.holder_ref j q hl)
  · intro j q hl hh
    rw [hlock] at hl
    rw [hvalid]
    exact h.locked_valid j q hl (holds_of_update (by simp [hp, Pc.holds]) hh)
  · intro q j hh
    have hqp : q ≠ p := by
      rintro rfl
      simp [Pc.holds] at hh
    rw [Function.update_of_ne hqp] at hh
    rw [hlock]
    exact h.holds_locked q j hh
  · intro q j he
    have hqp : q ≠ p := by
      rintro rfl
      simp [Pc.entry] at he
    rw [Function.update_of_ne hqp] at he
    exact (List.mem_erase_of_ne fun heq => hqp (Prod.mk.inj heq).1).mpr (h.putting_ref q j he)
  · intro q j hd
    rw [hlock]
    exact h.dropping_unlocked q j (pc_of_update hd (by simp)).2
  · intro q j hd
    rw [hvalid, hnlink]
    exact h.deciding_free q j (pc_of_update hd (by simp)).2

/-- Every step of a run keeps the invariant. -/
theorem Inv.step (h : Inv s) {e : Event} {s' : IState} (hs : Step s e s') : Inv s' := by
  cases e with
  | namexRoot p =>
    obtain ⟨-, c, i, hget, rfl⟩ := hs
    exact h.iget hget
  | dirlookup p i name =>
    obtain ⟨-, -, ⟨c, j, hl, rfl⟩ | ⟨-, rfl⟩⟩ := hs
    · obtain ⟨-, de, -, hget⟩ := dirlookup_eq_some hl
      exact h.iget hget
    · exact h
  | ialloc p dev inum type =>
    obtain ⟨-, hfree, c, d, ds, i, ha, rfl⟩ := hs
    exact h.ialloc hfree ha
  | idup p q i =>
    obtain ⟨-, hr, rfl⟩ := hs
    exact h.bump q i (h.ref_pos hr)
  | ilock p i =>
    obtain ⟨hp, hr, c, hc, rfl⟩ := hs
    exact h.ilock hp hr hc
  | iunlock p i =>
    obtain ⟨hp, c, hc, rfl⟩ := hs
    exact h.iunlock hp hc
  | dirlink p i name inum =>
    obtain ⟨-, -, -, rfl⟩ := hs
    exact h.setDirs _
  | unlink p i name =>
    obtain ⟨-, -, -, -, rfl⟩ := hs
    exact h.setDirs _
  | relink p i up =>
    obtain ⟨hp, hlk, c, d, hc, rfl⟩ := hs
    exact h.relink hp hlk hc
  | iputLock p i =>
    obtain ⟨hp, hr, c, free, hc, rfl⟩ := hs
    exact h.iputLock hp hr hc
  | iputFree p =>
    obtain ⟨i, free, hp, rfl⟩ := hs
    exact h.iputFree hp
  | iputUnlock p =>
    obtain ⟨i, hp, rfl⟩ := hs
    exact h.iputUnlock hp
  | iputDrop p =>
    obtain ⟨i, hp, rfl⟩ := hs
    exact h.iputDrop hp

/-- Every state of a run satisfies the invariant. -/
theorem Reaches.inv (hr : Reaches s) : Inv s := by
  induction hr with
  | init disk dirs => exact inv_init disk dirs
  | step _ hs ih => exact ih.step hs

end Lemmas

/-! ## The cache across runs -/

/-- `Step`, computed: the state the event leads to, `block` if the event may not happen, or the
call's panic. -/
def IState.step (s : IState) : Event → Outcome IState
  | .namexRoot p =>
    if s.pc p = .idle then do
      let (c, i) ← iget s.icache ROOTDEV Fs.ROOTINO
      pure { s with icache := c, refs := s.refs ++ [(p, i)] }
    else .block
  | .dirlookup p i name =>
    if s.pc p = .idle ∧ (s.icache i).lock = some p then do
      match ← dirlookup s.icache s.dirs i name with
      | some (c, j) => pure { s with icache := c, refs := s.refs ++ [(p, j)] }
      | none => pure s
    else .block
  | .ialloc p dev inum type =>
    if s.pc p = .idle ∧ (s.disk (dev, inum)).type = 0 then do
      let (c, d, ds, i) ← ialloc s.icache s.disk s.dirs dev inum type
      pure { s with icache := c, disk := d, dirs := ds, refs := s.refs ++ [(p, i)] }
    else .block
  | .idup p q i =>
    if s.pc p = .idle ∧ (p, i) ∈ s.refs then
      pure { s with icache := idup s.icache i, refs := s.refs ++ [(q, i)] }
    else .block
  | .ilock p i =>
    if s.pc p = .idle ∧ (p, i) ∈ s.refs then do
      let c ← ilock s.icache s.disk p i
      pure { s with icache := c }
    else .block
  | .iunlock p i =>
    if s.pc p = .idle then do
      let c ← iunlock s.icache p i
      pure { s with icache := c }
    else .block
  | .dirlink p i name inum =>
    if s.pc p = .idle ∧ (s.icache i).lock = some p ∧
        lookupEntry (s.dirs (s.key i)) name = none then
      pure { s with dirs := Function.update s.dirs (s.key i) (dirlink (s.dirs (s.key i)) name inum) }
    else .block
  | .unlink p i name =>
    if s.pc p = .idle ∧ (s.icache i).lock = some p ∧ Fs.namecmp name Fs.dot = false ∧
        Fs.namecmp name Fs.dotdot = false then
      pure { s with dirs := Function.update s.dirs (s.key i) (unlinkEntry (s.dirs (s.key i)) name) }
    else .block
  | .relink p i up =>
    if s.pc p = .idle ∧ (s.icache i).lock = some p then do
      let (c, d) ← relink s.icache s.disk i up
      pure { s with icache := c, disk := d }
    else .block
  | .iputLock p i =>
    if s.pc p = .idle ∧ (p, i) ∈ s.refs then do
      let (c, free) ← iputLock s.icache p i
      pure { s with icache := c, pc := Function.update s.pc p (.deciding i free) }
    else .block
  | .iputFree p =>
    match s.pc p with
    | .deciding i free =>
      pure { s with
        icache := (iputFree s.icache s.disk s.dirs i free).1
        disk := (iputFree s.icache s.disk s.dirs i free).2.1
        dirs := (iputFree s.icache s.disk s.dirs i free).2.2
        pc := Function.update s.pc p (.unlocking i) }
    | _ => .block
  | .iputUnlock p =>
    match s.pc p with
    | .unlocking i =>
      pure { s with icache := iputUnlock s.icache i, pc := Function.update s.pc p (.dropping i) }
    | _ => .block
  | .iputDrop p =>
    match s.pc p with
    | .dropping i =>
      pure { s with
        icache := iputDrop s.icache i
        refs := s.refs.erase (p, i)
        pc := Function.update s.pc p .idle }
    | _ => .block

/-- A computed step is a step. -/
theorem IState.step_sound {s s' : IState} {e : Event} (h : s.step e = .ok s') : Step s e s' := by
  -- each call's guard holds, and its function completes with the new state's parts
  cases e with
  | namexRoot p =>
    simp only [IState.step] at h
    split_ifs at h with hp
    obtain ⟨⟨c, i⟩, hget, hs⟩ := Outcome.bind_eq_ok.mp h
    cases hs
    exact ⟨hp, c, i, hget, rfl⟩
  | dirlookup p i name =>
    simp only [IState.step] at h
    split_ifs at h with hp
    obtain ⟨r, hl, hs⟩ := Outcome.bind_eq_ok.mp h
    refine ⟨hp.1, hp.2, ?_⟩
    rcases r with _ | ⟨c, j⟩
    · cases hs
      exact .inr ⟨hl, rfl⟩
    · cases hs
      exact .inl ⟨c, j, hl, rfl⟩
  | ialloc p dev inum type =>
    simp only [IState.step] at h
    split_ifs at h with hp
    obtain ⟨⟨c, d, ds, i⟩, ha, hs⟩ := Outcome.bind_eq_ok.mp h
    cases hs
    exact ⟨hp.1, hp.2, c, d, ds, i, ha, rfl⟩
  | idup p q i =>
    simp only [IState.step] at h
    split_ifs at h with hp
    cases h
    exact ⟨hp.1, hp.2, rfl⟩
  | ilock p i =>
    simp only [IState.step] at h
    split_ifs at h with hp
    obtain ⟨c, hc, hs⟩ := Outcome.bind_eq_ok.mp h
    cases hs
    exact ⟨hp.1, hp.2, c, hc, rfl⟩
  | iunlock p i =>
    simp only [IState.step] at h
    split_ifs at h with hp
    obtain ⟨c, hc, hs⟩ := Outcome.bind_eq_ok.mp h
    cases hs
    exact ⟨hp, c, hc, rfl⟩
  | dirlink p i name inum =>
    simp only [IState.step] at h
    split_ifs at h with hp
    cases h
    exact ⟨hp.1, hp.2.1, hp.2.2, rfl⟩
  | unlink p i name =>
    simp only [IState.step] at h
    split_ifs at h with hp
    cases h
    exact ⟨hp.1, hp.2.1, hp.2.2.1, hp.2.2.2, rfl⟩
  | relink p i up =>
    simp only [IState.step] at h
    split_ifs at h with hp
    obtain ⟨⟨c, d⟩, hc, hs⟩ := Outcome.bind_eq_ok.mp h
    cases hs
    exact ⟨hp.1, hp.2, c, d, hc, rfl⟩
  | iputLock p i =>
    simp only [IState.step] at h
    split_ifs at h with hp
    obtain ⟨⟨c, free⟩, hc, hs⟩ := Outcome.bind_eq_ok.mp h
    cases hs
    exact ⟨hp.1, hp.2, c, free, hc, rfl⟩
  | iputFree p =>
    simp only [IState.step] at h
    split at h
    · rename_i i free hp
      cases h
      exact ⟨i, free, hp, rfl⟩
    all_goals cases h
  | iputUnlock p =>
    simp only [IState.step] at h
    split at h
    · rename_i i hp
      cases h
      exact ⟨i, hp, rfl⟩
    all_goals cases h
  | iputDrop p =>
    simp only [IState.step] at h
    split at h
    · rename_i i hp
      cases h
      exact ⟨i, hp, rfl⟩
    all_goals cases h

/-- A computed run from a reached state reaches its last state. -/
theorem Reaches.run {s s' : IState} {es : List Event} (hr : Reaches s)
    (h : Outcome.run IState.step s es = .ok s') : Reaches s' :=
  Outcome.run_inv Reaches (fun _ _ _ hs hstep => hs.step (IState.step_sound hstep)) es s s' hr h

end Xv6.ICache
