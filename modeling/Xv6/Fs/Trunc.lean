import Mathlib
import Xv6.Fs.Room

/-!
# What `itrunc` frees

`itrunc` of `fs.c` on a file of `mkfs`'s file system whose blocks are its own (`FileOk`): it frees
the direct blocks, the blocks the indirect block names and the indirect block, zeroes the
addresses and the size, and writes the inode back. It frees exactly the file's blocks, each once,
and changes no other block's bit in the bitmap (`itrunc_frees`); the file is then an empty file
that owns no block. It can panic only in `log_write`, and only when the log had no room at the
start (`LogRoom`): outside a transaction, or with the header too full for the bitmap block and the
inode's block.

`bfree` panics on a block already free. That panic is out of reach: the file's blocks are in use
and distinct, and each is freed once, so the loops keep the invariant that a block is free exactly
when it was free before or has been freed by an earlier turn (`Frees`). Every `log_write` of the
loops logs the bitmap block, which takes at most one entry in all, so the invariant also keeps
the log's room. The proof runs the loops with the triples of `Xv6.Lib.Hoare`, with `TruncBad` as
the panics ruled out, and takes the panics that remain, all of the log's, from `Xv6.Lib.Ends`.
-/

namespace Xv6.Fs

open Machine

/-- The panic of `bfree` on a free block. -/
def FreeingFree (msg : String) : Prop := msg = "freeing free block"

/-- The panics `itrunc` never reaches: `bfree`'s on a free block, and the log's when `R`, that the
log had room at the start, holds. -/
def TruncBad (R : Prop) (msg : String) : Prop := FreeingFree msg ∨ (R ∧ LogPanic msg)

theorem not_freeingFree_of_logPanic {msg : String} (h : LogPanic msg) : ¬FreeingFree msg := by
  unfold LogPanic at h
  unfold FreeingFree
  rcases h with rfl | rfl <;> decide

/-- A turn of `itrunc`'s loop over the direct blocks. -/
def freeDirect (i k : Nat) : FsM Unit := do
  let a := ((← getInode i).addrs).getD k 0
  if a != 0 then do
    bfree a
    modifyInode i fun ip => { ip with addrs := ip.addrs.set k 0 }

/-- A turn of `itrunc`'s loop over the entries of the indirect block `ind`. -/
def freeEntry (ind j : Nat) : FsM Unit := do
  let a := blockField ((← get).disk ind) (4 * j) 4
  if a != 0 then bfree a

/-- `itrunc`'s work on the indirect block `ind`: its entries, then the block. -/
def freeIndirect (i ind : Nat) : FsM Unit := do
  (List.range NINDIRECT).forM (freeEntry ind)
  bfree ind
  modifyInode i fun ip => { ip with addrs := ip.addrs.set NDIRECT 0 }

theorem itrunc_eq (i : Nat) : itrunc i = (do
    (List.range NDIRECT).forM (freeDirect i)
    let ind := ((← getInode i).addrs).getD NDIRECT 0
    if ind != 0 then freeIndirect i ind
    modifyInode i fun ip => { ip with size := 0 }
    iupdate i) := by
  -- `freeIndirect` groups the steps that `itrunc` runs one after the other
  simp only [itrunc, freeIndirect, bind_assoc]
  rfl

/-! ## The steps as triples -/

section Steps

variable {i b : Nat} {R : Prop} {bad : String → Prop}

theorem getInode_triple {Q : Inode → FsState → Prop} :
    Triple bad (fun s => Q (s.icache i) s) (getInode i) Q :=
  Triple.bind Triple.get fun _ => Triple.pure fun _ hs => hs

theorem modifyInode_triple {f : Inode → Inode} {Q : Unit → FsState → Prop} :
    Triple bad (fun s => Q () { s with icache := Function.update s.icache i (f (s.icache i)) })
      (modifyInode i f) Q :=
  Triple.modify _

/-- A step whose panics are the log's, and which completes when `R` gives it room, reaches no
panic of `TruncBad R`. -/
theorem not_truncBad {α : Type} {m : FsM α} {s : FsState} {msg : String} (hends : Ends LogPanic m)
    (hok : R → ∃ r, m.run s = .ok r) (h : m.run s = .panic msg) : ¬TruncBad R msg := by
  have hlog : LogPanic msg := by
    have hend := hends s
    rw [h] at hend
    exact hend
  rintro (hff | ⟨hR, -⟩)
  · exact not_freeingFree_of_logPanic hlog hff
  · obtain ⟨r, hr⟩ := hok hR
    rw [hr] at h
    cases h

/-- `log_write` completes with the log that the log's own step returns, and panics only as the
log does; when `R` gives it room it completes, and leaves one entry less, none for the bitmap
block. -/
theorem log_write_triple {k : Nat} {Q : Unit → FsState → Prop} :
    Triple (TruncBad R) (fun s => (R → LogRoom s.log (k + if b = BMAP then 0 else 1)) ∧
      ∀ log, Xv6.log_write s.log b = .ok log → (R → LogRoom log k) →
        Q () { s with log, written := s.written.modifyLast (· ++ [b]) }) (log_write b) Q := by
  intro s ⟨hroom, hQ⟩
  refine ⟨fun msg h => not_truncBad (log_write_logPanic b) (fun hR => ?_) h, fun _ _ h => ?_⟩
  · obtain ⟨log, hok, -⟩ := log_write_room_of b (hroom hR)
    exact ⟨_, by rw [log_write_run, hok, Outcome.ok_bind]⟩
  · rw [log_write_run, Outcome.bind_eq_ok] at h
    obtain ⟨log, hok, h⟩ := h
    cases h
    refine hQ log hok fun hR => ?_
    -- the log that room gives is the one the step returned
    obtain ⟨log', hok', hroom'⟩ := log_write_room_of b (hroom hR)
    rw [hok'] at hok
    cases hok
    exact hroom'

/-- `iupdate` writes the inode's block and logs it; when `R` gives the log room for it, it
completes. -/
theorem iupdate_triple {Q : Unit → FsState → Prop} :
    Triple (TruncBad R) (fun s => (R → LogRoom s.log 1) ∧ ∀ d log written, Q ()
      { s with disk := Function.update s.disk (IBLOCK (s.icache i).inum s.sb) d, log, written })
      (iupdate i) Q := by
  intro s ⟨hroom, hQ⟩
  refine ⟨fun msg h => not_truncBad (iupdate_logPanic i) (fun hR => ?_) h, fun _ _ h => ?_⟩
  · obtain ⟨s', hok, -⟩ := iupdate_room (k := 0) i (hroom hR)
    exact ⟨_, hok⟩
  · obtain ⟨d, log, written, rfl⟩ := iupdate_ok h
    exact hQ d log written

/-- `bfree` of a block in use clears its bit and logs the bitmap block. -/
theorem bfree_triple {k : Nat} {Q : Unit → FsState → Prop} :
    Triple (TruncBad R) (fun s => bitClear (s.disk (BBLOCK b s.sb)) (b % BPB) = false ∧
      (R → LogRoom s.log (k + if BBLOCK b s.sb = BMAP then 0 else 1)) ∧
      ∀ log, Xv6.log_write s.log (BBLOCK b s.sb) = .ok log → (R → LogRoom log k) → Q () { s with
        disk := Function.update s.disk (BBLOCK b s.sb) (clearBit (s.disk (BBLOCK b s.sb)) (b % BPB)),
        log, written := s.written.modifyLast (· ++ [BBLOCK b s.sb]) }) (bfree b) Q := by
  intro s ⟨hclear, hroom, hQ⟩
  have hrun : (bfree b).run s = (log_write (BBLOCK b s.sb)).run { s with
      disk := Function.update s.disk (BBLOCK b s.sb) (clearBit (s.disk (BBLOCK b s.sb)) (b % BPB)) } := by
    simp [bfree, hclear, setBlock]
  rw [hrun]
  exact log_write_triple _ ⟨hroom, hQ⟩

theorem bfree_ends (b : Nat) : Ends (fun msg => LogPanic msg ∨ FreeingFree msg) (bfree b) := by
  unfold bfree
  refine Ends.bind Ends.get fun s => Ends.ite (fun _ => Ends.panic (Or.inr rfl)) fun _ => ?_
  exact Ends.bind (setBlock_ends _ _) fun _ => (log_write_logPanic _).mono fun _ => Or.inl

end Steps

/-! ## The blocks freed so far -/

/-- Clearing the bit of block `b` frees it and keeps the other marks. -/
theorem used_clearBit {disk : Nat → Block} {b : Nat} (hb : b < BPB) (x : Nat) (hx : x < BPB) :
    used (Function.update disk BMAP (clearBit (disk BMAP) b)) x = (used disk x && x != b) := by
  simp only [used, Function.update_self]
  by_cases hxb : x = b
  · subst hxb
    simp [bitClear_clearBit_self _ hb]
  · simp [bitClear_clearBit_of_ne _ hx hxb, hxb]

/-- `s` is `s0` with the blocks `F` holds freed in the bitmap, other blocks as they were but the
bitmap's, other inodes as they were, and the log's room kept: what the loops of `itrunc` change,
`F` the blocks freed so far. -/
structure Frees (s0 : FsState) (i : Nat) (F : Nat → Prop) (s : FsState) : Prop where
  sb : s.sb = s0.sb
  marks : ∀ b < FSSIZE, used s.disk b = true ↔ used s0.disk b = true ∧ ¬F b
  disk : ∀ b, b ≠ BMAP → s.disk b = s0.disk b
  other : ∀ j, j ≠ i → s.icache j = s0.icache j
  /-- The loops log only the bitmap block, so the room the log had for one more block stays. -/
  room : LogRoom s0.log 1 → LogRoom s.log 1

section Frees

variable {s0 s : FsState} {i b : Nat} {F : Nat → Prop}

theorem Frees.start (s0 : FsState) (i : Nat) : Frees s0 i (fun _ => False) s0 :=
  ⟨rfl, fun _ _ => by simp, fun _ _ => rfl, fun _ _ => rfl, id⟩

/-- A change to inode `i` keeps what is freed. -/
theorem Frees.setInode (h : Frees s0 i F s) (ip : Inode) :
    Frees s0 i F { s with icache := Function.update s.icache i ip } :=
  ⟨h.sb, h.marks, h.disk, fun j hj => by rw [← h.other j hj]; exact Function.update_of_ne hj _ _,
    h.room⟩

/-- The same blocks freed, named otherwise. -/
theorem Frees.congr {F' : Nat → Prop} (h : Frees s0 i F s) (hF : ∀ b, F b ↔ F' b) :
    Frees s0 i F' s :=
  ⟨h.sb, fun b hb => by rw [h.marks b hb, hF b], h.disk, h.other, h.room⟩

/-- `bfree` of a block of `mkfs`'s file system that was in use and is not freed yet: its bit is in
the bitmap block and set, the log keeps its room when it logs the bitmap block, and clearing the
bit frees one more block. -/
theorem Frees.bfree (h : Frees s0 i F s) (hsb : s0.sb = mkfsSuperBlock) (hb : b < FSSIZE)
    (hu : used s0.disk b = true) (hF : ¬F b) :
    bitClear (s.disk (BBLOCK b s.sb)) (b % BPB) = false ∧
      (LogRoom s0.log 1 → LogRoom s.log (1 + if BBLOCK b s.sb = BMAP then 0 else 1)) ∧
      ∀ log, Xv6.log_write s.log (BBLOCK b s.sb) = .ok log → (LogRoom s0.log 1 → LogRoom log 1) →
        Frees s0 i (fun x => F x ∨ x = b) { s with
          disk := Function.update s.disk (BBLOCK b s.sb) (clearBit (s.disk (BBLOCK b s.sb)) (b % BPB)),
          log, written := s.written.modifyLast (· ++ [BBLOCK b s.sb]) } := by
  have hBPB : b < BPB := lt_of_lt_of_le hb (by decide)
  have hblock : BBLOCK b s.sb = BMAP := by
    rw [h.sb, hsb]
    exact BBLOCK_mkfs hb
  have hmod : b % BPB = b := Nat.mod_eq_of_lt hBPB
  rw [hblock, hmod, if_pos rfl]
  refine ⟨?_, h.room, fun log _ hroom => ⟨h.sb, fun x hx => ?_, fun x hx => ?_, h.other, hroom⟩⟩
  · -- the bit is set: the block was in use and has not been freed
    have hused : used s.disk b = true := (h.marks b hb).mpr ⟨hu, hF⟩
    simpa [used] using hused
  · have hxBPB : x < BPB := lt_of_lt_of_le hx (by decide)
    simp only
    rw [used_clearBit hBPB x hxBPB, Bool.and_eq_true, h.marks x hx, bne_iff_ne, ne_eq]
    tauto
  · simp only
    rw [Function.update_of_ne hx]
    exact h.disk x hx

end Frees

/-! ## The direct blocks -/

/-- The addresses `A` with the entries at `pre` zeroed, one after the other. -/
def zeroAt (pre A : List Nat) : List Nat := pre.foldl (fun A k => A.set k 0) A

theorem zeroAt_eq (pre A : List Nat) : zeroAt pre A = pre.foldl (fun A k => A.set k 0) A := rfl

theorem getD_set_zero (A : List Nat) (k j : Nat) :
    (A.set k 0).getD j 0 = if j = k then 0 else A.getD j 0 := by
  simp only [List.getD_eq_getElem?_getD, List.getElem?_set]
  by_cases hjk : j = k
  · subst hjk
    by_cases hj : j < A.length
    · simp [hj]
    · simp [hj]
  · simp [Ne.symm hjk, hjk]

theorem getD_zeroAt (pre A : List Nat) (j : Nat) :
    (zeroAt pre A).getD j 0 = if j ∈ pre then 0 else A.getD j 0 := by
  induction pre generalizing A with
  | nil => simp [zeroAt_eq]
  | cons k pre ih =>
    rw [zeroAt_eq, List.foldl_cons, ← zeroAt_eq, ih, getD_set_zero]
    by_cases hj : j ∈ pre
    · simp [hj]
    · by_cases hjk : j = k <;> simp [hj, hjk]

theorem getD_zeroAt_of_not_mem {pre A : List Nat} {j : Nat} (h : j ∉ pre) :
    (zeroAt pre A).getD j 0 = A.getD j 0 := by
  rw [getD_zeroAt, if_neg h]

theorem length_zeroAt (pre A : List Nat) : (zeroAt pre A).length = A.length := by
  induction pre generalizing A with
  | nil => rfl
  | cons k pre ih => rw [zeroAt_eq, List.foldl_cons, ← zeroAt_eq, ih, List.length_set]

theorem zeroAt_append (pre A : List Nat) (k : Nat) : zeroAt (pre ++ [k]) A = (zeroAt pre A).set k 0 := by
  rw [zeroAt_eq, List.foldl_append]
  rfl

/-- Zeroing an entry that is zero changes nothing. -/
theorem set_zero_of_getD {A : List Nat} {k : Nat} (h : A.getD k 0 = 0) : A.set k 0 = A := by
  by_cases hk : k < A.length
  · have hget : A[k] = 0 := by simpa [List.getD_eq_getElem?_getD, hk] using h
    rw [← hget, List.set_getElem_self]
  · exact List.set_eq_of_length_le (Nat.le_of_not_lt hk)

/-- A split of `List.range n` at `k`: `k` is below `n` and comes after the others of `pre`. -/
theorem range_eq_append_cons {n k : Nat} {pre post : List Nat} (hl : List.range n = pre ++ k :: post) :
    k < n ∧ k ∉ pre ∧ ∀ x ∈ pre, x < n := by
  have hnodup : (pre ++ k :: post).Nodup := hl ▸ List.nodup_range
  refine ⟨List.mem_range.mp (hl ▸ List.mem_append_right pre List.mem_cons_self),
    fun h => (List.nodup_append.mp hnodup).2.2 k h k List.mem_cons_self rfl,
    fun x hx => List.mem_range.mp (hl ▸ List.mem_append_left _ hx)⟩

/-- The blocks that `s0`'s inode `i` maps at the block numbers `bns`. -/
def Freed (s0 : FsState) (i : Nat) (bns : List Nat) (b : Nat) : Prop :=
  ∃ bn ∈ bns, b = blockOf s0.disk (s0.icache i) bn ∧ b ≠ 0

section Freed

variable {s0 s : FsState} {i nb bn b : Nat} {bns : List Nat}

theorem freed_append : Freed s0 i (bns ++ [bn]) b ↔
    Freed s0 i bns b ∨ (b = blockOf s0.disk (s0.icache i) bn ∧ b ≠ 0) := by
  simp only [Freed, List.mem_append, List.mem_singleton]
  constructor
  · rintro ⟨bn', hbn' | rfl, hb⟩
    · exact .inl ⟨bn', hbn', hb⟩
    · exact .inr hb
  · rintro (⟨bn', hbn', hb⟩ | hb)
    · exact ⟨bn', .inl hbn', hb⟩
    · exact ⟨bn, .inr rfl, hb⟩

/-- A block number the file does not map frees nothing. -/
theorem freed_append_zero (h : blockOf s0.disk (s0.icache i) bn = 0) (b : Nat) :
    Freed s0 i (bns ++ [bn]) b ↔ Freed s0 i bns b := by
  rw [freed_append, h]
  exact or_iff_left fun ⟨hb, hb0⟩ => hb0 hb

/-- A block number that maps a block is one of the file's first `nb`. -/
theorem Owned.lt_of_blockOf_ne_zero {disk : Nat → Block} {ip : Inode} (hO : Owned disk ip nb)
    (hbn : bn < MAXFILE) (h : blockOf disk ip bn ≠ 0) : bn < nb :=
  Nat.lt_of_not_le fun hle => h (hO.unmapped bn hle hbn)

/-- `bfree` of the block at a block number not freed yet. The block is the file's, so in use,
and by `Owned.nodup` it is the block of no block number freed before. -/
theorem Frees.free_block (h : Frees s0 i (Freed s0 i bns) s) (hf : FileOk s0 i nb)
    (hbns : ∀ bn' ∈ bns, bn' < MAXFILE) (hbn : bn < MAXFILE) (hnot : bn ∉ bns)
    (hb : blockOf s0.disk (s0.icache i) bn = b) (h0 : b ≠ 0) :
    bitClear (s.disk (BBLOCK b s.sb)) (b % BPB) = false ∧
      (LogRoom s0.log 1 → LogRoom s.log (1 + if BBLOCK b s.sb = BMAP then 0 else 1)) ∧
      ∀ log, Xv6.log_write s.log (BBLOCK b s.sb) = .ok log → (LogRoom s0.log 1 → LogRoom log 1) →
        Frees s0 i (Freed s0 i (bns ++ [bn])) { s with
          disk := Function.update s.disk (BBLOCK b s.sb) (clearBit (s.disk (BBLOCK b s.sb)) (b % BPB)),
          log, written := s.written.modifyLast (· ++ [BBLOCK b s.sb]) } := by
  subst hb
  have hlt : bn < nb := hf.owned.lt_of_blockOf_ne_zero hbn h0
  obtain ⟨-, hfs, hu⟩ := hf.owned.data _ (mem_ownedBlocks_of_lt hlt)
  have hfresh : ¬Freed s0 i bns (blockOf s0.disk (s0.icache i) bn) := by
    rintro ⟨bn', hbn', heq, hb0⟩
    have hlt' : bn' < nb := hf.owned.lt_of_blockOf_ne_zero (hbns bn' hbn') (heq ▸ hb0)
    have hsame : bn = bn' := hf.owned.blockOf_injective hlt hlt' heq
    exact hnot (hsame ▸ hbn')
  obtain ⟨hclear, hroom, hnext⟩ := h.bfree hf.sb_eq hfs hu hfresh
  refine ⟨hclear, hroom, fun log hok hlog => (hnext log hok hlog).congr fun x => ?_⟩
  rw [freed_append]
  constructor
  · rintro (hx | rfl)
    · exact .inl hx
    · exact .inr ⟨rfl, h0⟩
  · rintro (hx | ⟨rfl, -⟩)
    · exact .inl hx
    · exact .inr rfl

end Freed

/-- The invariant of the loop over the direct blocks, after the entries `pre`: their blocks
freed and their addresses zeroed. -/
def DirectDone (s0 : FsState) (i : Nat) (pre : List Nat) (s : FsState) : Prop :=
  Frees s0 i (Freed s0 i pre) s ∧
    s.icache i = { s0.icache i with addrs := zeroAt pre (s0.icache i).addrs }

section Direct

variable {s0 : FsState} {i nb : Nat}

/-- The turn at entry `k` frees its block, if it has one, and zeroes its address. -/
theorem freeDirect_triple (hf : FileOk s0 i nb) {pre post : List Nat} {k : Nat}
    (hl : List.range NDIRECT = pre ++ k :: post) :
    Triple (TruncBad (LogRoom s0.log 1)) (DirectDone s0 i pre) (freeDirect i k)
      fun _ => DirectDone s0 i (pre ++ [k]) := by
  intro s ⟨hF, hip⟩
  obtain ⟨hk, hkpre, hpre⟩ := range_eq_append_cons hl
  have hblock : blockOf s0.disk (s0.icache i) k = (s0.icache i).addrs.getD k 0 := by
    rw [blockOf_eq, if_pos hk]
  -- the address the turn reads is the file's, since no earlier turn zeroed it
  have ha : (s.icache i).addrs.getD k 0 = (s0.icache i).addrs.getD k 0 := by
    rw [hip]
    dsimp only
    exact getD_zeroAt_of_not_mem hkpre
  have hrun : (freeDirect i k).run s =
      (if (s0.icache i).addrs.getD k 0 != 0 then do
        bfree ((s0.icache i).addrs.getD k 0)
        modifyInode i fun ip => { ip with addrs := ip.addrs.set k 0 }
      else pure ()).run s := by
    rw [freeDirect, StateT.run_bind, getInode_run, Outcome.ok_bind]
    dsimp only
    rw [ha]
  rw [hrun]
  by_cases ha0 : (s0.icache i).addrs.getD k 0 = 0
  · -- no block: nothing changes, and the address is zero already
    rw [if_neg fun h => bne_iff_ne.mp h ha0]
    refine Triple.pure (P := (· = s)) (fun _ hs' => ?_) s rfl
    subst hs'
    refine ⟨hF.congr fun b => (freed_append_zero (hblock.trans ha0) b).symm, ?_⟩
    rw [hip, zeroAt_append, set_zero_of_getD ((getD_zeroAt_of_not_mem hkpre).trans ha0)]
  · rw [if_pos (bne_iff_ne.mpr ha0)]
    have hMAX : ∀ x < NDIRECT, x < MAXFILE := fun x hx => lt_of_lt_of_le hx (by decide)
    obtain ⟨hclear, hroom, hnext⟩ :=
      hF.free_block hf (fun x hx => hMAX x (hpre x hx)) (hMAX k hk) hkpre hblock ha0
    refine (Triple.bind bfree_triple fun _ => modifyInode_triple) s
      ⟨hclear, hroom, fun log hok hlog => ⟨(hnext log hok hlog).setInode _, ?_⟩⟩
    simp [hip, zeroAt_append]

theorem directDone_nil (s0 : FsState) (i : Nat) : DirectDone s0 i [] s0 :=
  ⟨(Frees.start s0 i).congr fun _ => by simp [Freed], rfl⟩

end Direct

/-! ## The indirect block -/

/-- The block numbers of the direct blocks and of the indirect block's entries `pre`. -/
def entryBns (pre : List Nat) : List Nat := List.range NDIRECT ++ pre.map (NDIRECT + ·)

theorem entryBns_eq (pre : List Nat) : entryBns pre = List.range NDIRECT ++ pre.map (NDIRECT + ·) :=
  rfl

theorem entryBns_append (pre : List Nat) (j : Nat) :
    entryBns (pre ++ [j]) = entryBns pre ++ [NDIRECT + j] := by
  simp [entryBns_eq]

theorem entryBns_range : entryBns (List.range NINDIRECT) = List.range MAXFILE := by
  rw [entryBns_eq, MAXFILE, List.range_add]

theorem lt_of_mem_entryBns {pre : List Nat} (hpre : ∀ x ∈ pre, x < NINDIRECT) :
    ∀ bn ∈ entryBns pre, bn < MAXFILE := by
  intro bn hbn
  simp only [entryBns_eq, List.mem_append, List.mem_range, List.mem_map] at hbn
  rcases hbn with hbn | ⟨x, hx, rfl⟩
  · exact lt_of_lt_of_le hbn (by decide)
  · have := hpre x hx
    unfold MAXFILE
    omega

theorem not_mem_entryBns {pre : List Nat} {j : Nat} (hj : j ∉ pre) : NDIRECT + j ∉ entryBns pre := by
  simp only [entryBns_eq, List.mem_append, List.mem_range, List.mem_map, not_or, not_exists, not_and]
  exact ⟨by omega, fun x hx heq => hj (Nat.add_left_cancel heq ▸ hx)⟩

/-- The invariant of the loop over the indirect block's entries, after the entries `pre`: the
direct blocks and the blocks of these entries freed, the addresses as the direct loop left them. -/
def EntriesDone (s0 : FsState) (i : Nat) (pre : List Nat) (s : FsState) : Prop :=
  Frees s0 i (Freed s0 i (entryBns pre)) s ∧
    s.icache i = { s0.icache i with addrs := zeroAt (List.range NDIRECT) (s0.icache i).addrs }

theorem DirectDone.entriesDone {s0 s : FsState} {i : Nat} (h : DirectDone s0 i (List.range NDIRECT) s) :
    EntriesDone s0 i [] s :=
  ⟨h.1.congr fun _ => by simp [entryBns_eq], h.2⟩

section Owned

variable {disk : Nat → Block} {ip : Inode} {nb b : Nat}

/-- The file's blocks: the blocks its block numbers map, and its indirect block. -/
theorem Owned.mem_ownedBlocks_iff (hO : Owned disk ip nb) :
    b ∈ ownedBlocks disk ip nb ↔ (∃ bn ∈ List.range MAXFILE, b = blockOf disk ip bn ∧ b ≠ 0) ∨
      (ip.addrs.getD NDIRECT 0 ≠ 0 ∧ b = ip.addrs.getD NDIRECT 0) := by
  have hne : b ∈ ownedBlocks disk ip nb → b ≠ 0 := fun hb h =>
    absurd (hO.data b hb).1 (by rw [h]; decide)
  constructor
  · intro hb
    rw [ownedBlocks, List.mem_append, List.mem_map] at hb
    rcases hb with ⟨bn, hbn, rfl⟩ | hb
    · have hlt : bn < nb := List.mem_range.mp hbn
      refine .inl ⟨bn, List.mem_range.mpr (lt_of_lt_of_le hlt hO.nb_le), rfl, ?_⟩
      exact hne (mem_ownedBlocks_of_lt hlt)
    · split_ifs at hb with hind
      · exact absurd hb List.not_mem_nil
      · exact .inr ⟨hind, List.mem_singleton.mp hb⟩
  · rintro (⟨bn, hbn, rfl, h0⟩ | ⟨hind, rfl⟩)
    · exact mem_ownedBlocks_of_lt (hO.lt_of_blockOf_ne_zero (List.mem_range.mp hbn) h0)
    · exact ind_mem_ownedBlocks hind

/-- An inode whose addresses are all zero owns no block. -/
theorem owned_replicate (haddrs : ip.addrs = List.replicate (NDIRECT + 1) 0)
    (hres : ∀ b < DATASTART, used disk b = true) : Owned disk ip 0 := by
  have hzero : ∀ bn, blockOf disk ip bn = 0 := by
    intro bn
    simp only [blockOf_eq]
    split <;> simp [haddrs]
  have hnone : ownedBlocks disk ip 0 = [] := by
    simp [ownedBlocks, haddrs]
  refine ⟨Nat.zero_le _, by rw [haddrs, List.length_replicate], fun bn _ _ => hzero bn,
    fun h => absurd h (Nat.not_lt_zero _), hnone ▸ List.nodup_nil, fun b hb => ?_, hres⟩
  rw [hnone] at hb
  exact absurd hb List.not_mem_nil

end Owned

/-- Zeroing every address of a list of `n`. -/
theorem zeroAt_range {A : List Nat} {n : Nat} (hlen : A.length = n) :
    zeroAt (List.range n) A = List.replicate n 0 := by
  refine List.eq_replicate_iff.mpr ⟨by rw [length_zeroAt, hlen], fun x hx => ?_⟩
  obtain ⟨j, hj, rfl⟩ := List.getElem_of_mem hx
  rw [length_zeroAt, hlen] at hj
  rw [← List.getD_eq_getElem _ 0, getD_zeroAt, if_pos (List.mem_range.mpr hj)]

section Indirect

variable {s0 : FsState} {i nb : Nat}

/-- The turn at entry `j` of the indirect block frees the block it names, if it names one. -/
theorem freeEntry_triple (hf : FileOk s0 i nb) (hind : (s0.icache i).addrs.getD NDIRECT 0 ≠ 0)
    {pre post : List Nat} {j : Nat} (hl : List.range NINDIRECT = pre ++ j :: post) :
    Triple (TruncBad (LogRoom s0.log 1)) (EntriesDone s0 i pre)
      (freeEntry ((s0.icache i).addrs.getD NDIRECT 0) j) fun _ => EntriesDone s0 i (pre ++ [j]) := by
  intro s ⟨hF, hip⟩
  obtain ⟨hj, hjpre, hpre⟩ := range_eq_append_cons hl
  -- the entry the turn reads names the file's block `NDIRECT + j`: only the bitmap has changed
  have hdisk : s.disk ((s0.icache i).addrs.getD NDIRECT 0) = s0.disk ((s0.icache i).addrs.getD NDIRECT 0) :=
    hF.disk _ (hf.owned.ne_BMAP (ind_mem_ownedBlocks hind))
  have hblock : blockOf s0.disk (s0.icache i) (NDIRECT + j) =
      blockField (s.disk ((s0.icache i).addrs.getD NDIRECT 0)) (4 * j) 4 := by
    simp only [blockOf_eq]
    rw [if_neg (by omega), if_neg hind, hdisk, Nat.add_sub_cancel_left]
  rw [freeEntry, StateT.run_bind, StateT.run_get, Outcome.pure_eq, Outcome.ok_bind]
  dsimp only
  rw [← hblock]
  have hstep : ∀ b, Freed s0 i (entryBns pre ++ [NDIRECT + j]) b ↔ Freed s0 i (entryBns (pre ++ [j])) b :=
    fun b => by rw [entryBns_append]
  by_cases ha0 : blockOf s0.disk (s0.icache i) (NDIRECT + j) = 0
  · rw [if_neg fun h => bne_iff_ne.mp h ha0]
    refine Triple.pure (P := (· = s)) (fun _ hs' => ?_) s rfl
    subst hs'
    exact ⟨(hF.congr fun b => (freed_append_zero ha0 b).symm).congr hstep, hip⟩
  · rw [if_pos (bne_iff_ne.mpr ha0)]
    have hbn : NDIRECT + j < MAXFILE := by
      unfold MAXFILE
      omega
    obtain ⟨hclear, hroom, hnext⟩ :=
      hF.free_block hf (lt_of_mem_entryBns hpre) hbn (not_mem_entryBns hjpre) rfl ha0
    exact bfree_triple s ⟨hclear, hroom, fun log hok hlog => ⟨(hnext log hok hlog).congr hstep, hip⟩⟩

/-- The invariant after both loops: the file's blocks freed, its addresses zero. -/
def Emptied (s0 : FsState) (i nb : Nat) (s : FsState) : Prop :=
  Frees s0 i (· ∈ ownedBlocks s0.disk (s0.icache i) nb) s ∧
    s.icache i = { s0.icache i with addrs := List.replicate (NDIRECT + 1) 0 }

/-- `freeIndirect` frees the blocks the entries name, then the indirect block, which is none of
them, and zeroes its address. -/
theorem freeIndirect_triple (hf : FileOk s0 i nb) (hind : (s0.icache i).addrs.getD NDIRECT 0 ≠ 0) :
    Triple (TruncBad (LogRoom s0.log 1)) (EntriesDone s0 i [])
      (freeIndirect i ((s0.icache i).addrs.getD NDIRECT 0)) fun _ => Emptied s0 i nb := by
  refine Triple.bind (Triple.forM_prefix fun pre j post hl => freeEntry_triple hf hind hl) fun _ => ?_
  intro s ⟨hF, hip⟩
  rw [entryBns_range] at hF
  have hO := hf.owned
  -- the indirect block is the block of no block number
  have hfresh : ¬Freed s0 i (List.range MAXFILE) ((s0.icache i).addrs.getD NDIRECT 0) := by
    rintro ⟨bn, hbn, heq, h0⟩
    have hlt : bn < nb := hO.lt_of_blockOf_ne_zero (List.mem_range.mp hbn) (heq ▸ h0)
    exact hO.blockOf_ne_ind hlt hind heq.symm
  obtain ⟨-, hfs, hu⟩ := hO.data _ (ind_mem_ownedBlocks hind)
  obtain ⟨hclear, hroom, hnext⟩ := hF.bfree hf.sb_eq hfs hu hfresh
  refine (Triple.bind bfree_triple fun _ => modifyInode_triple) s
    ⟨hclear, hroom, fun log hok hlog => ⟨((hnext log hok hlog).setInode _).congr fun b => ?_, ?_⟩⟩
  · rw [hO.mem_ownedBlocks_iff, Freed]
    constructor
    · rintro (h | rfl)
      · exact .inl h
      · exact .inr ⟨hind, rfl⟩
    · rintro (h | ⟨-, rfl⟩)
      · exact .inl h
      · exact .inr rfl
  · have hrange : (zeroAt (List.range NDIRECT) (s0.icache i).addrs).set NDIRECT 0 =
        List.replicate (NDIRECT + 1) 0 := by
      rw [← zeroAt_append, ← List.range_succ, zeroAt_range hO.length_addrs]
    simp [hip, hrange]

/-- With no indirect block, the direct blocks are all the file's blocks. -/
theorem DirectDone.emptied (hf : FileOk s0 i nb) (hind : (s0.icache i).addrs.getD NDIRECT 0 = 0)
    {s : FsState} (h : DirectDone s0 i (List.range NDIRECT) s) : Emptied s0 i nb s := by
  have hO := hf.owned
  refine ⟨h.1.congr fun b => ?_, ?_⟩
  · rw [hO.mem_ownedBlocks_iff, hind]
    simp only [ne_eq, not_true_eq_false, false_and, or_false]
    -- the block numbers past the direct ones map no block
    constructor
    · rintro ⟨bn, hbn, hb⟩
      exact ⟨bn, List.mem_range.mpr (lt_of_lt_of_le (List.mem_range.mp hbn) (by decide)), hb⟩
    · rintro ⟨bn, hbn, hb, h0⟩
      refine ⟨bn, List.mem_range.mpr (Nat.lt_of_not_le fun hle => h0 ?_), hb, h0⟩
      rw [hb]
      simp only [blockOf_eq]
      rw [if_neg (by omega), if_pos hind]
  · -- the indirect address is zero already
    have hset : (zeroAt (List.range NDIRECT) (s0.icache i).addrs).set NDIRECT 0 =
        zeroAt (List.range NDIRECT) (s0.icache i).addrs :=
      set_zero_of_getD ((getD_zeroAt_of_not_mem List.not_mem_range_self).trans hind)
    rw [h.2, ← hset, ← zeroAt_append, ← List.range_succ, zeroAt_range hO.length_addrs]

end Indirect

/-! ## `itrunc` -/

/-- What `itrunc` leaves of the file `i` of `s0`, whose first `nb` blocks are its own. -/
structure Truncated (s0 : FsState) (i nb : Nat) (s : FsState) : Prop where
  /-- The file is an empty file that owns no block. -/
  file : FileOk s i 0
  /-- Its size and addresses are zero, the rest of the inode as it was. -/
  inode : s.icache i = { s0.icache i with size := 0, addrs := List.replicate (NDIRECT + 1) 0 }
  /-- Exactly its blocks have been freed. -/
  marks : ∀ b < FSSIZE,
    used s.disk b = true ↔ used s0.disk b = true ∧ b ∉ ownedBlocks s0.disk (s0.icache i) nb
  /-- The other inodes are as they were. -/
  other : ∀ j, j ≠ i → s.icache j = s0.icache j
  /-- The blocks but the bitmap and the inode's block are as they were. -/
  disk : ∀ b, b ≠ BMAP → b ≠ IBLOCK (s0.icache i).inum s0.sb → s.disk b = s0.disk b

section Itrunc

variable {s0 : FsState} {i nb : Nat}

/-- The end of `itrunc`: the size set to zero and the inode written back. -/
theorem emptied_triple (hf : FileOk s0 i nb) :
    Triple (TruncBad (LogRoom s0.log 1)) (Emptied s0 i nb)
      (do modifyInode i fun ip => { ip with size := 0 }; iupdate i) fun _ => Truncated s0 i nb := by
  intro s ⟨hF, hip⟩
  refine (Triple.bind modifyInode_triple fun _ => iupdate_triple) s ⟨hF.room, fun d log written => ?_⟩
  -- `iupdate` writes the inode's block, which is not the bitmap
  have hIB : IBLOCK (s0.icache i).inum s0.sb ≠ BMAP := by
    rw [hf.sb_eq]
    exact (IBLOCK_lt_BMAP hf.inum_lt).ne
  have hblk : IBLOCK (Function.update s.icache i { s.icache i with size := 0 } i).inum s.sb =
      IBLOCK (s0.icache i).inum s0.sb := by
    simp [hip, hF.sb]
  have hused : ∀ b < FSSIZE, used (Function.update s.disk (IBLOCK (s0.icache i).inum s0.sb) d) b =
      true ↔ used s0.disk b = true ∧ b ∉ ownedBlocks s0.disk (s0.icache i) nb := by
    intro b hb
    rw [used_update hIB d]
    exact hF.marks b hb
  simp only [hblk]
  refine ⟨⟨hF.sb.trans hf.sb_eq, by simpa [hip] using hf.not_dev, owned_replicate (by simp [hip])
    fun b hb => ?_, by simp, by simpa [hip] using hf.inum_lt⟩, by simp [hip], hused,
    fun j hj => ?_, fun b hb hb' => ?_⟩
  · -- the reserved blocks are none of the file's, so still in use
    have hlt : b < FSSIZE := lt_trans hb (by decide)
    refine (hused b hlt).mpr ⟨hf.owned.reserved b hb, fun hmem => ?_⟩
    exact absurd (hf.owned.data b hmem).1 (by omega)
  · simp only
    rw [Function.update_of_ne hj]
    exact hF.other j hj
  · simp only
    rw [Function.update_of_ne hb']
    exact hF.disk b hb

/-- `itrunc` on a file whose first `nb` blocks are its own: it never frees a free block, and
when the log has room it does not panic; if it completes, it has truncated the file and freed
exactly its blocks. -/
theorem itrunc_triple (hf : FileOk s0 i nb) :
    Triple (TruncBad (LogRoom s0.log 1)) (· = s0) (itrunc i) fun _ => Truncated s0 i nb := by
  rw [itrunc_eq]
  -- the loop over the direct blocks, from `directDone_nil`
  refine Triple.bind (Triple.conseq (Triple.forM_prefix fun _ _ _ hl => freeDirect_triple hf hl)
    (fun s hs => hs ▸ directDone_nil s0 i) fun _ _ h => h) fun _ => ?_
  refine Triple.bind (Triple.conseq
    (getInode_triple (Q := fun ip s => DirectDone s0 i (List.range NDIRECT) s ∧ ip = s.icache i))
    (fun s hs => ⟨hs, rfl⟩) fun _ _ h => h) fun ip => ?_
  intro s ⟨hD, hip⟩
  subst hip
  -- the indirect address `itrunc` reads is the file's: the direct loop zeroed the others
  have hind : (s.icache i).addrs.getD NDIRECT 0 = (s0.icache i).addrs.getD NDIRECT 0 := by
    rw [hD.2]
    dsimp only
    exact getD_zeroAt_of_not_mem List.not_mem_range_self
  dsimp only
  rw [hind]
  -- the join point of the `if` is the end of `itrunc`
  refine Triple.ite (P := DirectDone s0 i (List.range NDIRECT)) (fun hne => ?_) (fun heq => ?_) s hD
  · exact Triple.bind ((freeIndirect_triple hf (bne_iff_ne.mp hne)).conseq (fun _ h => h.entriesDone)
      fun _ _ h => h) fun _ => emptied_triple hf
  · exact (emptied_triple hf).conseq (fun _ h => h.emptied hf (by simpa using heq)) fun _ _ h => h

/-- `itrunc` ends: its panics are the log's and `bfree`'s. -/
theorem itrunc_ends (i : Nat) : Ends (fun msg => LogPanic msg ∨ FreeingFree msg) (itrunc i) := by
  rw [itrunc_eq]
  refine Ends.bind (Ends.forM fun k _ => ?_) fun _ => Ends.bind (getInode_ends i) fun ip => ?_
  · unfold freeDirect
    exact Ends.bind (getInode_ends i) fun _ => Ends.ite
      (fun _ => Ends.bind (bfree_ends _) fun _ => modifyInode_ends _ _) fun _ => Ends.pure _
  · have hend : Ends (fun msg => LogPanic msg ∨ FreeingFree msg)
        (do modifyInode i fun ip => { ip with size := 0 }; iupdate i) :=
      Ends.bind (modifyInode_ends _ _) fun _ => (iupdate_logPanic i).mono fun _ => Or.inl
    dsimp only
    refine Ends.ite (fun _ => Ends.bind ?_ fun _ => hend) fun _ => hend
    unfold freeIndirect
    refine Ends.bind (Ends.forM fun j _ => ?_) fun _ =>
      Ends.bind (bfree_ends _) fun _ => modifyInode_ends _ _
    unfold freeEntry
    exact Ends.bind Ends.get fun _ => Ends.ite (fun _ => bfree_ends _) fun _ => Ends.pure _

/-- `itrunc` of `fs.c` on a file of `mkfs`'s file system whose first `nb` blocks are its own
leaves the file empty with no block, frees exactly the file's blocks, each once, and changes no
other inode and no block but the bitmap and the inode's block; or, only when the log had no room
for the bitmap block and the inode's block (no transaction open, or the header too full), it
panics with one of the log's messages. The panic `freeing free block` is out of reach. -/
theorem itrunc_frees (hf : FileOk s0 i nb) :
    (¬LogRoom s0.log 1 ∧ ∃ msg, LogPanic msg ∧ (itrunc i).run s0 = .panic msg) ∨
      ∃ s', (itrunc i).run s0 = .ok ((), s') ∧ Truncated s0 i nb s' := by
  rcases (itrunc_ends i).run_of_triple (itrunc_triple hf) rfl with
    ⟨msg, hmsg, hbad, h⟩ | ⟨⟨⟩, s', h, hs'⟩
  · -- not `bfree`'s panic, and not the log's if the log had room
    have hlog : LogPanic msg := hmsg.resolve_right fun hff => hbad (.inl hff)
    exact .inl ⟨fun hroom => hbad (.inr ⟨hroom, hlog⟩), msg, hlog, h⟩
  · exact .inr ⟨s', h, hs'⟩

/-- A file of one block, the first data block, on the full disk. -/
def oneBlockFile : Inode :=
  { emptyFile with size := 512, addrs := DATASTART :: List.replicate NDIRECT 0 }

/-- `mkfs`'s file system with every block in use, the one-block file in every slot of the inode
cache, and one operation of a transaction running. -/
def oneBlockState : FsState :=
  { fullDiskState with icache := fun _ => oneBlockFile, log := { Log.init with outstanding := 1 } }

theorem oneBlockState_fileOk : FileOk oneBlockState 0 1 := by
  have hblocks : ownedBlocks oneBlockState.disk oneBlockFile 1 = [DATASTART] := by decide
  have hused : ∀ b < BPB, used oneBlockState.disk b = true := by
    intro b hb
    rw [used, show oneBlockState.disk BMAP = fullBlock from rfl, bitClear_fullBlock hb]
    rfl
  have hunmapped : ∀ bn, 1 ≤ bn → blockOf oneBlockState.disk oneBlockFile bn = 0 := by
    intro bn hbn
    obtain ⟨k, rfl⟩ : ∃ k, bn = k + 1 := ⟨bn - 1, by omega⟩
    simp only [blockOf_eq]
    split
    · simp [oneBlockFile]
    · -- the file has no indirect block
      rfl
  refine ⟨rfl, by decide, ⟨by decide, by decide, fun bn h _ => hunmapped bn h,
    fun h => absurd h (by decide), hblocks ▸ List.nodup_singleton _, fun b hb => ?_,
    fun b hb => hused b (lt_trans hb (by decide))⟩, by decide, by decide⟩
  change b ∈ ownedBlocks oneBlockState.disk oneBlockFile 1 at hb
  rw [hblocks, List.mem_singleton] at hb
  subst hb
  exact ⟨le_refl _, by decide, hused _ (by decide)⟩

/-- In its transaction, with an empty log, `itrunc` of the one-block file has room and
completes: it frees the first data block and leaves the file empty. -/
theorem itrunc_frees_oneBlock :
    LogRoom oneBlockState.log 1 ∧
      ∃ s', (itrunc 0).run oneBlockState = .ok ((), s') ∧ Truncated oneBlockState 0 1 s' :=
  have hroom : LogRoom oneBlockState.log 1 := by decide
  ⟨hroom, (itrunc_frees oneBlockState_fileOk).resolve_left fun h => h.1 hroom⟩

end Itrunc

end Xv6.Fs
