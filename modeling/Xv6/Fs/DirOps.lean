import Mathlib
import Xv6.Fs.Room
import Xv6.Fs.Dir

/-!
# Looking up and adding directory entries

What `dirlookup` and `dirlink` of `fs.c` do to a directory of `mkfs`'s file system whose blocks
are its own and whose size is a whole number of entries (`DirFile`). Entry `k` of a directory is
what its bytes `16 k .. 16 k + 15` decode to (`entryAt`).

`dirlookup` finds the first live entry whose name matches (`dirlookup_run`). `dirlink` of a name
already there puts the inode back and returns `-1`; of a new name it writes the entry into the
first free entry, or just past the last one, and then `dirlookup` of the name finds it, with every
other entry as it was (`dirlink_dirlookup`). The write is the one step that can fail, and only as
`writei` does: with room on the disk and in the log (`WriteRoom`) it completes.
-/

namespace Xv6.Fs

open Machine

/-! ## Entries -/

/-- The offset of entry `k`. -/
def entryOff (k : Nat) : UInt32 := UInt32.ofNat (DIRENT_SIZE * k)

/-- The 16 bytes of entry `k` of directory `dp`. -/
def entryBytes (s : FsState) (dp k : Nat) : List UInt8 :=
  (List.range DIRENT_SIZE).map fun j => byteAt s.disk (s.icache dp) (DIRENT_SIZE * k + j)

/-- Entry `k` of directory `dp`, decoded. -/
def entryAt (s : FsState) (dp k : Nat) : Dirent := readDirent (entryBytes s dp k)

/-- The number of entries of directory `dp`. -/
def entryCount (s : FsState) (dp : Nat) : Nat := (s.icache dp).size.toNat / DIRENT_SIZE

/-- Entry `k` is live and holds `name`, as `dirlookup` compares names. -/
def Names (s : FsState) (dp : Nat) (name : List UInt8) (k : Nat) : Bool :=
  (entryAt s dp k).inum != 0 && namecmp name (entryAt s dp k).name

/-- Entry `k` is free. -/
def Free (s : FsState) (dp k : Nat) : Bool := (entryAt s dp k).inum == 0

/-- The entry `dirlink` fills: the first free one, or the one just past the last. -/
def freeSlot (s : FsState) (dp : Nat) : Nat :=
  ((List.range (entryCount s dp)).find? (Free s dp)).getD (entryCount s dp)

/-- A directory of `mkfs`'s file system whose blocks are its own, of whole entries. -/
structure DirFile (s : FsState) (dp nb : Nat) : Prop where
  file : FileOk s dp nb
  dir : (s.icache dp).type = T_DIR
  whole : (s.icache dp).size.toNat % DIRENT_SIZE = 0

theorem entryBytes_length (s : FsState) (dp k : Nat) : (entryBytes s dp k).length = DIRENT_SIZE := by
  simp [entryBytes]

theorem toNat_entryOff {k : Nat} (h : DIRENT_SIZE * k < 2 ^ 32) :
    (entryOff k).toNat = DIRENT_SIZE * k := by
  rw [entryOff, UInt32.toNat_ofNat', Nat.mod_eq_of_lt h]

/-- The entries of a directory end with its size. -/
theorem DirFile.entry_end (hd : DirFile s dp nb) :
    DIRENT_SIZE * entryCount s dp = (s.icache dp).size.toNat := by
  have hw := hd.whole
  unfold entryCount DIRENT_SIZE at *
  omega

/-- The offsets `dirlookup` and `dirlink` visit are those of the directory's entries. -/
theorem DirFile.direntOffsets_eq (hd : DirFile s dp nb) :
    direntOffsets (s.icache dp).size = (List.range (entryCount s dp)).map entryOff := by
  have hw := hd.whole
  have hcount : ((s.icache dp).size.toNat + DIRENT_SIZE - 1) / DIRENT_SIZE = entryCount s dp := by
    unfold entryCount DIRENT_SIZE at *
    omega
  rw [direntOffsets, hcount]
  rfl

/-- An entry of the directory ends within the directory. -/
theorem DirFile.entry_le (hd : DirFile s dp nb) {k : Nat} (hk : k < entryCount s dp) :
    DIRENT_SIZE * k + DIRENT_SIZE ≤ (s.icache dp).size.toNat := by
  rw [← hd.entry_end]
  exact Nat.mul_succ DIRENT_SIZE k ▸ Nat.mul_le_mul_left DIRENT_SIZE hk

/-- `readi` of a directory entry returns its 16 bytes and changes nothing. -/
theorem readi_entry (hd : DirFile s dp nb) {k : Nat} (hk : k < entryCount s dp) :
    (readi dp (entryOff k) 16).run s = .ok (some (entryBytes s dp k), s) := by
  have hk' := hd.entry_le hk
  have hsize := (s.icache dp).size.toNat_lt
  have hoffN := toNat_entryOff (k := k) (by omega)
  have hoff : entryOff k ≤ (s.icache dp).size := by
    rw [UInt32.le_iff_toNat_le, hoffN]
    omega
  have hwrap : ¬entryOff k + 16 < entryOff k := by
    rw [UInt32.lt_iff_toNat_lt, UInt32.toNat_add, hoffN]
    unfold DIRENT_SIZE at *
    simp only [UInt32.reduceToNat]
    omega
  rw [readi_spec dp (entryOff k) 16 hd.file.not_dev hd.file.owned hd.file.size_le hoff hwrap, hoffN]
  have hmin : min (16 : UInt32).toNat ((s.icache dp).size.toNat - DIRENT_SIZE * k) = DIRENT_SIZE := by
    unfold DIRENT_SIZE at *
    simp only [UInt32.reduceToNat]
    omega
  rw [hmin]
  rfl

/-! ## `dirlookup` -/

/-- What `dirlookup` does on finding entry `k`: a reference to the entry's inode, and the entry's
offset. -/
def lookupHit (s : FsState) (dp k : Nat) : FsM (Option (Nat × UInt32)) := do
  let ip ← iget (s.icache dp).dev (entryAt s dp k).inum
  pure (some (ip, entryOff k))

/-- `dirlookup`'s loop over entries of the directory finds the first live one named `name`, and
reads nothing else into the state. By induction along the entries. -/
theorem dirlookupLoop_run (hd : DirFile s dp nb) (name : List UInt8) :
    ∀ ks : List Nat, (∀ k ∈ ks, k < entryCount s dp) →
      (dirlookupLoop dp name (ks.map entryOff)).run s =
        match ks.find? (Names s dp name) with
        | none => .ok (none, s)
        | some k => (lookupHit s dp k).run s
  | [], _ => rfl
  | k :: ks, hks => by
    have ih := dirlookupLoop_run hd name ks fun j hj => hks j (List.mem_cons_of_mem k hj)
    rw [List.map_cons, dirlookupLoop, StateT.run_bind, readi_entry hd (hks k List.mem_cons_self),
      Outcome.ok_bind]
    dsimp only
    have he : readDirent (entryBytes s dp k) = entryAt s dp k := rfl
    rw [if_neg (by simp [entryBytes_length]), he]
    simp only [beq_iff_eq]
    -- the three ways out of a turn: a free entry, the name, another name
    by_cases hfree : (entryAt s dp k).inum = 0
    · have hn : Names s dp name k = false := by simp [Names, hfree]
      rw [List.find?_cons_of_neg (by simp [hn]), if_pos hfree]
      exact ih
    · rw [if_neg hfree]
      by_cases hname : namecmp name (entryAt s dp k).name = true
      · have hn : Names s dp name k = true := by simp [Names, hfree, hname]
        rw [List.find?_cons_of_pos hn, if_pos hname]
        rfl
      · have hn : Names s dp name k = false := by simp [Names, hname]
        rw [List.find?_cons_of_neg (by simp [hn]), if_neg hname]
        exact ih

/-- `dirlookup` of a directory finds its first live entry named `name`, and until it takes a
reference to the entry's inode it changes nothing. -/
theorem dirlookup_run (hd : DirFile s dp nb) (name : List UInt8) :
    (dirlookup dp name).run s =
      match (List.range (entryCount s dp)).find? (Names s dp name) with
      | none => .ok (none, s)
      | some k => (lookupHit s dp k).run s := by
  rw [dirlookup, StateT.run_bind, getInode_run, Outcome.ok_bind]
  dsimp only
  rw [if_neg (by simp [hd.dir]), hd.direntOffsets_eq]
  exact dirlookupLoop_run hd name _ fun k hk => List.mem_range.mp hk

/-- The empty file of the full disk made a directory. -/
def emptyDir : Inode := { emptyFile with type := T_DIR }

/-- `mkfs`'s file system with every block in use, and an empty directory in every slot of the
inode cache. -/
def fullDiskDirState : FsState := { fullDiskState with icache := fun _ => emptyDir }

/-- The entries `(1, ".")` and `(3, "a")`, in bytes. -/
def twoEntries : List UInt8 := direntBytes ⟨1, strncpyName [46]⟩ ++ direntBytes ⟨3, strncpyName [97]⟩

/-- A block holding `twoEntries`, zeroes after them. -/
def twoEntryBlock : Block := vectorOfMem BSIZE fun j => twoEntries.getD j 0

/-- A directory of the two entries, in the first data block. -/
def twoEntryDir : Inode :=
  { emptyDir with size := 32, addrs := DATASTART :: List.replicate NDIRECT 0 }

/-- The full disk with the two entries in the first data block, and the directory in every slot
of the inode cache. -/
def twoEntryDirState : FsState :=
  { fullDiskDirState with
    disk := Function.update fullDiskDirState.disk DATASTART twoEntryBlock
    icache := fun _ => twoEntryDir }

theorem twoEntryDirState_dirFile : DirFile twoEntryDirState 0 1 := by
  have hblocks : ownedBlocks twoEntryDirState.disk twoEntryDir 1 = [DATASTART] := by decide
  have hused : ∀ b < BPB, used twoEntryDirState.disk b = true := by
    intro b hb
    rw [used, show twoEntryDirState.disk BMAP = fullBlock from rfl, bitClear_fullBlock hb]
    rfl
  have hunmapped : ∀ bn, 1 ≤ bn → blockOf twoEntryDirState.disk twoEntryDir bn = 0 := by
    intro bn hbn
    obtain ⟨k, rfl⟩ : ∃ k, bn = k + 1 := ⟨bn - 1, by omega⟩
    unfold blockOf
    dsimp only
    split
    · simp [twoEntryDir]
    · rfl
  refine ⟨⟨rfl, by decide, ⟨by decide, by decide, fun bn h _ => hunmapped bn h,
    fun h => absurd h (by decide), hblocks ▸ List.nodup_singleton _, fun b hb => ?_,
    fun b hb => hused b (lt_trans hb (by decide))⟩, by decide, by decide⟩, rfl, rfl⟩
  change b ∈ ownedBlocks twoEntryDirState.disk twoEntryDir 1 at hb
  rw [hblocks, List.mem_singleton] at hb
  subst hb
  exact ⟨le_refl _, by decide, hused _ (by decide)⟩

/-- The bytes of the directory are those of the two entries. -/
theorem byteAt_twoEntryDir {j : Nat} (hj : j < 32) :
    byteAt twoEntryDirState.disk twoEntryDir j = twoEntries.getD j 0 := by
  have hblock : blockOf twoEntryDirState.disk twoEntryDir (j / BSIZE) = DATASTART := by
    rw [Nat.div_eq_of_lt (lt_trans hj (by decide))]
    rfl
  have hdisk : twoEntryDirState.disk DATASTART = twoEntryBlock := by
    simp only [twoEntryDirState, Function.update_self]
  rw [byteAt, hblock, hdisk, twoEntryBlock, memOfVector_vectorOfMem _ (Nat.mod_lt _ (by decide)),
    Nat.mod_eq_of_lt (lt_trans hj (by decide))]

theorem entryAt_twoEntryDir {k : Nat} (hk : k < 2) :
    entryAt twoEntryDirState 0 k = readDirent ((twoEntries.drop (DIRENT_SIZE * k)).take DIRENT_SIZE) := by
  have hlen : twoEntries.length = 32 := by decide
  unfold entryAt entryBytes
  congr 1
  apply List.ext_getElem (by simp [hlen]; unfold DIRENT_SIZE; omega)
  intro j hj _
  simp only [List.length_map, List.length_range] at hj
  rw [List.getElem_map, List.getElem_range, show twoEntryDirState.icache 0 = twoEntryDir from rfl,
    byteAt_twoEntryDir (by unfold DIRENT_SIZE at *; omega), List.getElem_take, List.getElem_drop,
    List.getD_eq_getElem _ _ (by rw [hlen]; unfold DIRENT_SIZE at *; omega)]

/-- The second entry of the directory is the first named `a`: the search passes the entry `.`. -/
theorem find_twoEntryDir :
    (List.range (entryCount twoEntryDirState 0)).find? (Names twoEntryDirState 0 [97]) = some 1 := by
  have h0 : Names twoEntryDirState 0 [97] 0 = false := by
    rw [Names, entryAt_twoEntryDir (by decide)]
    decide
  have h1 : Names twoEntryDirState 0 [97] 1 = true := by
    rw [Names, entryAt_twoEntryDir (by decide)]
    decide
  rw [show entryCount twoEntryDirState 0 = 2 from rfl, List.range_succ, List.range_one]
  simp [h0, h1]

/-- `dirlookup` of `a` in the directory of `.` and `a` takes a reference to inode 3, with the
offset of the second entry. -/
theorem dirlookup_run_twoEntries :
    (dirlookup 0 [97]).run twoEntryDirState = (do
      let ip ← iget (twoEntryDirState.icache 0).dev 3
      pure (some (ip, entryOff 1))).run twoEntryDirState := by
  have hinum : (entryAt twoEntryDirState 0 1).inum = 3 := by
    rw [entryAt_twoEntryDir (by decide)]
    decide
  rw [dirlookup_run twoEntryDirState_dirFile [97], find_twoEntryDir]
  dsimp only
  rw [lookupHit, hinum]

/-! ## The free entry -/

/-- `dirlink`'s search for a free entry returns the offset of the first one, or `past`, and
changes nothing. By induction along the entries. -/
theorem emptySlotLoop_run (hd : DirFile s dp nb) (past : UInt32) :
    ∀ ks : List Nat, (∀ k ∈ ks, k < entryCount s dp) →
      (emptySlotLoop dp past (ks.map entryOff)).run s =
        .ok (((ks.find? (Free s dp)).map entryOff).getD past, s)
  | [], _ => rfl
  | k :: ks, hks => by
    have ih := emptySlotLoop_run hd past ks fun j hj => hks j (List.mem_cons_of_mem k hj)
    rw [List.map_cons, emptySlotLoop, StateT.run_bind, readi_entry hd (hks k List.mem_cons_self),
      Outcome.ok_bind]
    dsimp only
    have he : ((readDirent (entryBytes s dp k)).inum == 0) = Free s dp k := rfl
    rw [if_neg (by simp [entryBytes_length]), he]
    by_cases hfree : Free s dp k = true
    · rw [List.find?_cons_of_pos hfree, if_pos hfree]
      rfl
    · rw [List.find?_cons_of_neg hfree, if_neg hfree]
      exact ih

/-- The entry `dirlink` fills is at most one past the last, every entry before it is live, and it
is free when it is one of the directory's. -/
theorem freeSlot_spec (s : FsState) (dp : Nat) :
    freeSlot s dp ≤ entryCount s dp ∧ (∀ j < freeSlot s dp, Free s dp j = false) ∧
      (freeSlot s dp < entryCount s dp → Free s dp (freeSlot s dp) = true) := by
  unfold freeSlot
  cases hfind : (List.range (entryCount s dp)).find? (Free s dp) with
  | none =>
    have hnone := List.find?_range_eq_none.mp hfind
    refine ⟨le_refl _, fun j hj => by simpa using hnone j hj, fun h => absurd h (lt_irrefl _)⟩
  | some k =>
    obtain ⟨hk, hmem, hbefore⟩ := List.find?_range_eq_some.mp hfind
    exact ⟨(List.mem_range.mp hmem).le, fun j hj => by simpa using hbefore j hj, fun _ => hk⟩

/-! ## The new entry -/

theorem strncpyName_length (name : List UInt8) : (strncpyName name).length = DIRSIZ := by
  have hle := List.length_take_le DIRSIZ (name.takeWhile (· ≠ 0))
  simp only [strncpyName, List.length_append, List.length_replicate]
  omega

/-- The name `dirlink` copies into an entry is the name `dirlookup` compares it with. -/
theorem namecmp_strncpyName (name : List UInt8) : namecmp name (strncpyName name) = true := by
  unfold namecmp strncpyName
  -- the copied bytes hold no terminator, and the padding starts with one, if there is any
  have hword : ∀ c ∈ (name.takeWhile (· ≠ 0)).take DIRSIZ, decide (c ≠ 0) = true :=
    fun c hc => by
      have hc' := List.mem_takeWhile_imp (List.mem_of_mem_take hc)
      simpa using hc'
  have hpad : ∀ n, (List.replicate n (0 : UInt8)).takeWhile (· ≠ 0) = [] := by
    intro n
    cases n <;> simp [List.replicate_succ]
  rw [List.takeWhile_append_of_pos hword, hpad, List.append_nil,
    List.take_of_length_le (List.length_take_le _ _)]
  exact beq_self_eq_true _

/-- An entry's 16 bytes decode to the entry, for an inode number that fits its two bytes. -/
theorem readDirent_direntBytes {inum : Nat} {name : List UInt8} (hinum : inum < 65536)
    (hname : name.length = DIRSIZ) : readDirent (direntBytes ⟨inum, name⟩) = ⟨inum, name⟩ := by
  have hnum : readLE (fun k => (direntBytes ⟨inum, name⟩).getD k 0) 0 2 = inum := by
    simp only [readLE_succ, readLE_zero, direntBytes, List.cons_append, List.nil_append,
      List.getD_cons_zero, List.getD_cons_succ, UInt8.toNat_ofNat']
    omega
  have hrest : ((direntBytes ⟨inum, name⟩).drop 2).take DIRSIZ = name := by
    simp [direntBytes, ← hname]
  rw [readDirent, hnum, hrest]

/-- A list of `n` bytes read back one index at a time. -/
theorem map_getD_range (l : List UInt8) : (List.range l.length).map (fun j => l.getD j 0) = l := by
  refine List.ext_getElem (by simp) fun i h₁ h₂ => ?_
  simp [List.getElem?_eq_getElem h₂]

section Write

variable {s s' : FsState} {dp k : Nat} {src : List UInt8}

/-- A write of 16 bytes at entry `k` that leaves the bytes it does not write as they were. -/
def WroteEntry (s s' : FsState) (dp k : Nat) (src : List UInt8) : Prop :=
  ∀ x < (s'.icache dp).size.toNat, byteAt s'.disk (s'.icache dp) x =
    if DIRENT_SIZE * k ≤ x ∧ x < DIRENT_SIZE * k + DIRENT_SIZE then src.getD (x - DIRENT_SIZE * k) 0
    else byteAt s.disk (s.icache dp) x

/-- The entry a write puts at `k` holds the bytes written. -/
theorem WroteEntry.entryBytes_self (hw : WroteEntry s s' dp k src) (hsrc : src.length = DIRENT_SIZE)
    (hk : DIRENT_SIZE * k + DIRENT_SIZE ≤ (s'.icache dp).size.toNat) : entryBytes s' dp k = src := by
  conv_rhs => rw [← map_getD_range src, hsrc]
  refine List.map_congr_left fun j hj => ?_
  have hj' := List.mem_range.mp hj
  rw [hw _ (by omega), if_pos (by omega), Nat.add_sub_cancel_left]

/-- The other entries keep their bytes. -/
theorem WroteEntry.entryBytes_other (hw : WroteEntry s s' dp k src) {j : Nat} (hjk : j ≠ k)
    (hj : DIRENT_SIZE * j + DIRENT_SIZE ≤ (s'.icache dp).size.toNat) :
    entryBytes s' dp j = entryBytes s dp j := by
  refine List.map_congr_left fun i hi => ?_
  have hi' := List.mem_range.mp hi
  -- the entries are 16 bytes apart, so the byte is outside the one written
  have hout : ¬(DIRENT_SIZE * k ≤ DIRENT_SIZE * j + i ∧ DIRENT_SIZE * j + i < DIRENT_SIZE * k + DIRENT_SIZE) := by
    rintro ⟨h₁, h₂⟩
    unfold DIRENT_SIZE at *
    omega
  rw [hw _ (by omega), if_neg hout]

end Write

/-- `writei` to a file keeps its type and device: it changes only its blocks and its size. -/
theorem writei_keeps {i : Nat} {src : List UInt8} {off n : UInt32} {nb : Nat} {s s' : FsState}
    {r : Int} (hf : FileOk s i nb) (hoff : off ≤ (s.icache i).size) (hwrap : ¬off + n < off)
    (hmax : (off + n).toNat ≤ MAXFILE * BSIZE) (hsrc : n.toNat ≤ src.length)
    (h : (writei i src off n).run s = .ok (r, s')) :
    (s'.icache i).type = (s.icache i).type ∧ (s'.icache i).dev = (s.icache i).dev := by
  have hend := toNat_add_of_not_lt hwrap
  have hoff' := UInt32.le_iff_toNat_le.mp hoff
  obtain ⟨-, e, s₁, h₁, h⟩ := writei_ok hf.not_dev hoff hwrap hmax h
  obtain ⟨-, hR, -⟩ := writeiLoop_spec i src off 0 n hf.sb_eq hf.owned
    (le_trans hoff' hf.size_le) UInt32.zero_le hsrc (by simp; omega) h₁
  obtain ⟨addrs, hinode⟩ := hR.inode_eq
  split at h
  · -- the inode grows, and only its size changes
    obtain ⟨d, log, written, rfl⟩ := h
    simp [hinode]
  · subst h
    simp [hinode]

/-! ## `dirlink` -/

/-- Two steps that agree from `s` go on alike. -/
theorem run_bind_of_run_eq {α β : Type} {x y : FsM α} {f : α → FsM β} (h : x.run s = y.run s) :
    (x >>= f).run s = (y >>= f).run s := by
  rw [StateT.run_bind, StateT.run_bind, h]

/-- `dirlink` of a name the directory holds puts back the inode `dirlookup` took and returns
`-1`. -/
theorem dirlink_present (hd : DirFile s dp nb) {name : List UInt8} {k : Nat} (inum : Nat)
    (hk : (List.range (entryCount s dp)).find? (Names s dp name) = some k) :
    (dirlink dp name inum).run s = (do
      let ip ← iget (s.icache dp).dev (entryAt s dp k).inum
      iput ip
      pure (-1)).run s := by
  have hrun : (dirlookup dp name).run s = (lookupHit s dp k).run s := by
    rw [dirlookup_run hd name, hk]
  rw [dirlink, run_bind_of_run_eq hrun, lookupHit]
  simp only [bind_assoc, pure_bind]

/-- `dirlink` of a name the directory does not hold writes the new entry into `freeSlot`. -/
theorem dirlink_absent (hd : DirFile s dp nb) {name : List UInt8} (inum : Nat)
    (habsent : (List.range (entryCount s dp)).find? (Names s dp name) = none) :
    (dirlink dp name inum).run s = (do
      let r ← writei dp (direntBytes ⟨inum, strncpyName name⟩) (entryOff (freeSlot s dp)) 16
      if r != DIRENT_SIZE then kpanic "dirlink" else pure 0).run s := by
  rw [dirlink, StateT.run_bind, dirlookup_run hd name, habsent, Outcome.ok_bind]
  dsimp only
  rw [StateT.run_bind, getInode_run, Outcome.ok_bind]
  dsimp only
  rw [hd.direntOffsets_eq, StateT.run_bind,
    emptySlotLoop_run hd _ _ fun k hk => List.mem_range.mp hk, Outcome.ok_bind]
  -- the search ends past the last entry when no entry is free
  have hpast : UInt32.ofNat (DIRENT_SIZE * ((List.range (entryCount s dp)).map entryOff).length) =
      entryOff (entryCount s dp) := by
    rw [List.length_map, List.length_range]
    rfl
  rw [hpast, Option.getD_map]
  rfl

/-- `dirlink` of a new name: with room on the disk and in the log for the entry's write, it returns
`0` with the new entry in `freeSlot`, the directory one entry longer if that was past its end,
every other entry as it was, and `dirlookup` of the name then finding the new entry; without that
room it may instead panic as the write does. -/
theorem dirlink_new (hd : DirFile s dp nb) {name : List UInt8} {inum : Nat}
    (hinum : 0 < inum ∧ inum < 65536)
    (hroom : DIRENT_SIZE * (entryCount s dp + 1) ≤ MAXFILE * BSIZE)
    (habsent : (List.range (entryCount s dp)).find? (Names s dp name) = none) :
    (¬WriteRoom s dp (entryOff (freeSlot s dp)) 16 ∧
        ∃ msg, WritePanic msg ∧ (dirlink dp name inum).run s = .panic msg) ∨
      ∃ s', (dirlink dp name inum).run s = .ok (0, s') ∧ (∃ nb', DirFile s' dp nb') ∧
        entryAt s' dp (freeSlot s dp) = ⟨inum, strncpyName name⟩ ∧
        entryCount s' dp = max (entryCount s dp) (freeSlot s dp + 1) ∧
        (∀ j < entryCount s dp, j ≠ freeSlot s dp → entryAt s' dp j = entryAt s dp j) ∧
        (dirlookup dp name).run s' = (do
          let ip ← iget (s.icache dp).dev inum
          pure (some (ip, entryOff (freeSlot s dp)))).run s' := by
  rw [dirlink_absent hd inum habsent]
  obtain ⟨hk_le, -, -⟩ := freeSlot_spec s dp
  set k := freeSlot s dp
  have hend := hd.entry_end
  -- the write's guards pass: the entry starts within the directory and ends below `MAXFILE`
  have hkroom : DIRENT_SIZE * k + DIRENT_SIZE ≤ MAXFILE * BSIZE := by
    have hle : DIRENT_SIZE * k ≤ DIRENT_SIZE * entryCount s dp := Nat.mul_le_mul_left _ hk_le
    rw [Nat.mul_succ] at hroom
    omega
  have hmaxfile : MAXFILE * BSIZE = 71680 := rfl
  have hoffN : (entryOff k).toNat = DIRENT_SIZE * k := toNat_entryOff (by omega)
  have hoff : entryOff k ≤ (s.icache dp).size := by
    rw [UInt32.le_iff_toNat_le, hoffN, ← hend]
    exact Nat.mul_le_mul_left _ hk_le
  have hendN : (entryOff k + 16).toNat = DIRENT_SIZE * k + DIRENT_SIZE := by
    rw [UInt32.toNat_add, hoffN]
    unfold DIRENT_SIZE at *
    simp only [UInt32.reduceToNat]
    omega
  have hwrap : ¬entryOff k + 16 < entryOff k := by
    rw [UInt32.lt_iff_toNat_lt, hendN, hoffN]
    omega
  have hmax : (entryOff k + 16).toNat ≤ MAXFILE * BSIZE := hendN ▸ hkroom
  have hlen : (direntBytes ⟨inum, strncpyName name⟩).length = DIRENT_SIZE := by
    simp only [direntBytes, List.length_append, strncpyName_length]
    rfl
  have hsrc : (16 : UInt32).toNat ≤ (direntBytes ⟨inum, strncpyName name⟩).length := by
    rw [hlen]
    decide
  rcases writei_total_room dp _ _ _ hd.file hoff hwrap hmax hsrc with
    ⟨hnroom, msg, hmsg, hpanic⟩ | ⟨s', hrun, hsize, nb', hf', hbytes⟩
  · exact .inl ⟨hnroom, msg, hmsg, by rw [StateT.run_bind, hpanic]; rfl⟩
  right
  have hkeep := writei_keeps hd.file hoff hwrap hmax hsrc hrun
  have hsize' : (s'.icache dp).size.toNat =
      max (s.icache dp).size.toNat (DIRENT_SIZE * k + DIRENT_SIZE) := by
    rw [hsize, hoffN]
    rfl
  have hd' : DirFile s' dp nb' := by
    refine ⟨hf', hkeep.1.trans hd.dir, ?_⟩
    have hw := hd.whole
    rw [hsize']
    unfold DIRENT_SIZE at *
    omega
  have hcount : entryCount s' dp = max (entryCount s dp) (k + 1) := by
    unfold entryCount
    rw [hsize', ← hend]
    unfold DIRENT_SIZE
    omega
  have hw : WroteEntry s s' dp k (direntBytes ⟨inum, strncpyName name⟩) := by
    intro x hx
    rw [hbytes x hx, hoffN]
    rfl
  have hk' : DIRENT_SIZE * k + DIRENT_SIZE ≤ (s'.icache dp).size.toNat := by
    rw [hsize']
    exact le_max_right _ _
  have hentry : entryAt s' dp k = ⟨inum, strncpyName name⟩ := by
    rw [entryAt, hw.entryBytes_self hlen hk']
    exact readDirent_direntBytes hinum.2 (strncpyName_length name)
  have hother : ∀ j < entryCount s dp, j ≠ k → entryAt s' dp j = entryAt s dp j := by
    intro j hj hjk
    have hj' := hd.entry_le hj
    rw [entryAt, entryAt, hw.entryBytes_other hjk (by rw [hsize']; exact le_max_of_le_left hj')]
  -- the lookup stops at the new entry: those before it are as they were, and none held the name
  have hfind : (List.range (entryCount s' dp)).find? (Names s' dp name) = some k := by
    have hnone := List.find?_range_eq_none.mp habsent
    refine List.find?_range_eq_some.mpr ⟨?_, ?_, fun j hj => ?_⟩
    · simp [Names, hentry, hinum.1.ne', namecmp_strncpyName]
    · rw [List.mem_range, hcount]
      omega
    · have hjc : j < entryCount s dp := by omega
      have hsame : Names s' dp name j = Names s dp name j := by
        rw [Names, Names, hother j hjc (Nat.ne_of_lt hj)]
      rw [hsame]
      exact hnone j hjc
  refine ⟨s', ?_, ⟨nb', hd'⟩, hentry, hcount, hother, ?_⟩
  · rw [StateT.run_bind, hrun, Outcome.ok_bind]
    rfl
  · rw [dirlookup_run hd' name, hfind]
    dsimp only
    rw [lookupHit, hentry, hkeep.2]

/-- `dirlink` on a directory of `mkfs`'s file system: a name the directory holds makes it put back
the inode and return `-1`; a new name, with room on the disk and in the log for the entry's write,
makes it return `0` with the entry written into the first free entry, or past the last, every
other entry as it was, and `dirlookup` of the name finding the new entry, and without that room it
may instead panic as the write does. -/
theorem dirlink_dirlookup (hd : DirFile s dp nb) {name : List UInt8} {inum : Nat}
    (hinum : 0 < inum ∧ inum < 65536)
    (hroom : DIRENT_SIZE * (entryCount s dp + 1) ≤ MAXFILE * BSIZE) :
    (∀ k, (List.range (entryCount s dp)).find? (Names s dp name) = some k →
      (dirlink dp name inum).run s = (do
        let ip ← iget (s.icache dp).dev (entryAt s dp k).inum
        iput ip
        pure (-1)).run s) ∧
    ((List.range (entryCount s dp)).find? (Names s dp name) = none →
      (¬WriteRoom s dp (entryOff (freeSlot s dp)) 16 ∧
          ∃ msg, WritePanic msg ∧ (dirlink dp name inum).run s = .panic msg) ∨
      ∃ s', (dirlink dp name inum).run s = .ok (0, s') ∧ (∃ nb', DirFile s' dp nb') ∧
        entryAt s' dp (freeSlot s dp) = ⟨inum, strncpyName name⟩ ∧
        entryCount s' dp = max (entryCount s dp) (freeSlot s dp + 1) ∧
        (∀ j < entryCount s dp, j ≠ freeSlot s dp → entryAt s' dp j = entryAt s dp j) ∧
        (dirlookup dp name).run s' = (do
          let ip ← iget (s.icache dp).dev inum
          pure (some (ip, entryOff (freeSlot s dp)))).run s') :=
  ⟨fun _ hk => dirlink_present hd inum hk, dirlink_new hd hinum hroom⟩

/-- The fresh file system, in its transaction, with an empty directory in every slot of the inode
cache. -/
def freshDirState : FsState := { freshState with icache := fun _ => emptyDir }

theorem freshDirState_dirFile : DirFile freshDirState 0 0 :=
  ⟨⟨rfl, by decide, freshState_fileOk.owned.of_addrs rfl, Nat.le_refl _, by decide⟩, rfl, rfl⟩

/-- The first entry of the empty directory has room: it takes one data block and the indirect
block, both free on the fresh disk. -/
theorem freshDirState_writeRoom : WriteRoom freshDirState 0 (entryOff (freeSlot freshDirState 0)) 16 :=
  ⟨le_trans (by decide) two_le_card_freeBlocks_fresh, by decide⟩

/-- `dirlink` of `A` into the empty directory of the fresh file system has room for its entry and
returns `0`, after which `dirlookup` finds it; `dirlink` of `a`, which the directory of `.` and `a`
holds, puts back inode 3 and returns `-1`. -/
theorem dirlink_dirlookup_fresh :
    ((List.range (entryCount freshDirState 0)).find? (Names freshDirState 0 [65]) = none ∧
      WriteRoom freshDirState 0 (entryOff (freeSlot freshDirState 0)) 16 ∧
      ∃ s', (dirlink 0 [65] 3).run freshDirState = .ok (0, s') ∧ (∃ nb', DirFile s' 0 nb') ∧
        entryAt s' 0 (freeSlot freshDirState 0) = ⟨3, strncpyName [65]⟩ ∧
        entryCount s' 0 = max (entryCount freshDirState 0) (freeSlot freshDirState 0 + 1) ∧
        (∀ j < entryCount freshDirState 0, j ≠ freeSlot freshDirState 0 →
          entryAt s' 0 j = entryAt freshDirState 0 j) ∧
        (dirlookup 0 [65]).run s' = (do
          let ip ← iget (freshDirState.icache 0).dev 3
          pure (some (ip, entryOff (freeSlot freshDirState 0)))).run s') ∧
    (dirlink 0 [97] 5).run twoEntryDirState = (do
      let ip ← iget (twoEntryDirState.icache 0).dev (entryAt twoEntryDirState 0 1).inum
      iput ip
      pure (-1)).run twoEntryDirState :=
  have hnone : (List.range (entryCount freshDirState 0)).find? (Names freshDirState 0 [65]) =
      none := rfl
  ⟨⟨hnone, freshDirState_writeRoom,
      ((dirlink_dirlookup freshDirState_dirFile ⟨by decide, by decide⟩ (by decide)).2
        hnone).resolve_left fun h => h.1 freshDirState_writeRoom⟩,
    (dirlink_dirlookup twoEntryDirState_dirFile ⟨by decide, by decide⟩ (by decide)).1 1
      find_twoEntryDir⟩

end Xv6.Fs
