import Mathlib
import Xv6.Lib.Ends
import Xv6.Fs.Content

/-!
# What `readi` and `writei` do to a file

`readi` and `writei` of `fs.c` on a file of `mkfs`'s file system whose blocks are its own
(`Owned`). A file's contents are its bytes up to its size, where `readi` finds them
(`fileBytes`).

`writei` refuses a write that starts past the end of the file, wraps, or ends past `MAXFILE`
blocks, and changes nothing then. Any other write to a file that is not a device ends: it
panics only when the disk runs out of blocks or the transaction out of room in the log
(`writei_ends`), and a write that completes returns `n` and leaves the file the old bytes before
`off`, the `n` bytes written, and the old bytes after them, its size grown to the end of the write
if that is past it (`writei_spec`). `bmap`'s `out of range` panic is among none of these ends.

`readi` of a file whose blocks are all mapped allocates nothing: it completes, with the state as
it was and the bytes of the file from the offset, cut at its end (`readi_spec`).
-/

namespace Xv6.Fs

open Machine

/-- The panics of a write that the file system cannot serve: the disk out of blocks, or the
transaction out of room in the log, or run outside one. -/
def WritePanic (msg : String) : Prop :=
  msg = "balloc: out of blocks" ∨ msg = "too big a transaction" ∨
    msg = "log_write outside of trans"

/-! ## The steps of a write end -/

section Ends

/-- The panics of the log: the transaction out of room in the header, or run outside one. -/
def LogPanic (msg : String) : Prop :=
  msg = "too big a transaction" ∨ msg = "log_write outside of trans"

theorem log_write_logPanic (b : Nat) : Ends LogPanic (log_write b) := by
  unfold log_write
  refine Ends.bind Ends.get fun s => Ends.bind (Ends.lift ?_) fun _ => Ends.set _
  -- the log's step: a full log, or no operation outstanding
  unfold Xv6.log_write
  split_ifs
  · exact Or.inl rfl
  · exact Or.inr rfl
  · trivial

theorem log_write_ends (b : Nat) : Ends WritePanic (log_write b) :=
  (log_write_logPanic b).mono fun _ => Or.inr

theorem setBlock_ends {allowed : String → Prop} (b : Nat) (data : Block) :
    Ends allowed (setBlock b data) :=
  Ends.modify _

theorem modifyInode_ends {allowed : String → Prop} (i : Nat) (f : Inode → Inode) :
    Ends allowed (modifyInode i f) :=
  Ends.modify _

theorem getInode_ends {allowed : String → Prop} (i : Nat) : Ends allowed (getInode i) :=
  Ends.bind Ends.get fun _ => Ends.pure _

theorem bzero_ends (bno : Nat) : Ends WritePanic (bzero bno) :=
  Ends.bind (setBlock_ends _ _) fun _ => log_write_ends bno

theorem ballocLoop_ends (bs : List Nat) : Ends WritePanic (ballocLoop bs) := by
  induction bs with
  | nil =>
    rw [ballocLoop]
    exact Ends.panic (Or.inl rfl)
  | cons b bs ih =>
    rw [ballocLoop]
    refine Ends.bind Ends.get fun s => ?_
    dsimp only
    split
    · -- a free bit: mark it, log the bitmap block, zero the block
      exact Ends.bind (setBlock_ends _ _) fun _ => Ends.bind (log_write_ends _) fun _ =>
        Ends.bind (bzero_ends _) fun _ => Ends.pure _
    · exact ih

theorem balloc_ends : Ends WritePanic balloc :=
  Ends.bind Ends.get fun _ => ballocLoop_ends _

theorem iupdate_logPanic (i : Nat) : Ends LogPanic (iupdate i) := by
  unfold iupdate
  exact Ends.bind Ends.get fun _ => Ends.bind (setBlock_ends _ _) fun _ => log_write_logPanic _

theorem iupdate_ends (i : Nat) : Ends WritePanic (iupdate i) :=
  (iupdate_logPanic i).mono fun _ => Or.inr

/-- `bmap` of a block below `MAXFILE` ends: its `out of range` panic is out of reach. -/
theorem bmap_ends (i : Nat) {bn : Nat} (hbn : bn < MAXFILE) : Ends WritePanic (bmap i bn) := by
  unfold bmap
  refine Ends.bind (getInode_ends _) fun ip => ?_
  split
  · -- a direct block, allocated if there is none
    extract_lets addr
    split
    · exact Ends.bind balloc_ends fun _ => Ends.bind (modifyInode_ends _ _) fun _ => Ends.pure _
    · exact Ends.pure _
  · rename_i hdir
    have hrange : bn - NDIRECT < NINDIRECT := by
      have hMAX : MAXFILE = NDIRECT + NINDIRECT := rfl
      omega
    rw [if_pos hrange]
    -- the indirect block, allocated first if there is none, then its entry
    extract_lets ind entry
    have hentry : ∀ ind, Ends WritePanic (entry ind) := by
      intro ind
      refine Ends.bind Ends.get fun s => ?_
      extract_lets addr
      split
      · exact Ends.bind balloc_ends fun _ => Ends.bind Ends.get fun _ =>
          Ends.bind (setBlock_ends _ _) fun _ => Ends.bind (log_write_ends _) fun _ => Ends.pure _
      · exact Ends.pure _
    split
    · exact Ends.bind balloc_ends fun _ => Ends.bind (modifyInode_ends _ _) fun _ =>
        Ends.bind (Ends.pure _) hentry
    · exact Ends.bind (Ends.pure _) hentry

end Ends

/-! ## The bytes of a block of the file -/

section Mapped

variable {disk : Nat → Block} {ip : Inode} {nb : Nat}

/-- A write of one of the file's blocks keeps the file's blocks: it is neither the indirect block
nor the bitmap. -/
theorem Owned.setBlock_mapped (hO : Owned disk ip nb) {bn : Nat} (hbn : bn < nb) (d : Block) :
    Owned (Function.update disk (blockOf disk ip bn) d) ip nb := by
  have hdata := hO.data _ (mem_ownedBlocks_of_lt hbn)
  have hbmap : blockOf disk ip bn ≠ BMAP := fun h => by
    have hlo := hdata.1
    rw [h] at hlo
    exact absurd hlo (by decide)
  refine hO.mono (blockOf_update (fun hind heq => hO.blockOf_ne_ind hbn hind heq.symm) d)
    fun x _ hx => by rwa [used_update hbmap]

/-- A write of block `bn` of the file changes the bytes of that block only. -/
theorem byteAt_setBlock_mapped (hO : Owned disk ip nb) {bn : Nat} (hbn : bn < nb) (d : Block)
    {k : Nat} (hk : k < nb * BSIZE) :
    byteAt (Function.update disk (blockOf disk ip bn) d) ip k =
      if k / BSIZE = bn then memOfVector d (k % BSIZE) else byteAt disk ip k := by
  have hkbn : k / BSIZE < nb := Nat.div_lt_of_lt_mul (by rwa [Nat.mul_comm])
  rw [byteAt, blockOf_update (fun hind heq => hO.blockOf_ne_ind hbn hind heq.symm)]
  split_ifs with hsame
  · rw [hsame, Function.update_self]
  · -- another block of the file is another block of the disk
    have hne : blockOf disk ip (k / BSIZE) ≠ blockOf disk ip bn :=
      fun heq => hsame (hO.blockOf_injective hkbn hbn heq)
    rw [Function.update_of_ne hne]
    rfl

/-- One turn of `writei`'s loop stores `m` bytes of `src`, from `tot`, at `off` in the block of
`off`: the bytes from `off` to `off + m` are those of `src`, and the others stay. -/
theorem byteAt_storeBytes (hO : Owned disk ip nb) {off m tot : Nat} (src : List UInt8)
    (hbn : off / BSIZE < nb) (hm : m ≤ BSIZE - off % BSIZE) (hsrc : tot + m ≤ src.length)
    {k : Nat} (hk : k < nb * BSIZE) :
    byteAt (Function.update disk (blockOf disk ip (off / BSIZE))
        (storeBytes (disk (blockOf disk ip (off / BSIZE))) (off % BSIZE) ((src.drop tot).take m)))
        ip k =
      if off ≤ k ∧ k < off + m then src.getD (tot + (k - off)) 0 else byteAt disk ip k := by
  have hlen : ((src.drop tot).take m).length = m := by
    simp only [List.length_take, List.length_drop]
    omega
  rw [byteAt_setBlock_mapped hO hbn _ hk]
  by_cases hsame : k / BSIZE = off / BSIZE
  · -- the block written: the bytes of `src` where the turn put them
    rw [if_pos hsame, memOfVector_storeBytes _ _ _ (Nat.mod_lt _ (by decide)), hlen]
    by_cases hin : off ≤ k ∧ k < off + m
    · have hpos : off % BSIZE ≤ k % BSIZE ∧ k % BSIZE < off % BSIZE + m := by
        unfold BSIZE at *
        exact ⟨by omega, by omega⟩
      have hj : k % BSIZE - off % BSIZE = k - off := by
        unfold BSIZE at *
        omega
      rw [if_pos hpos, if_pos hin, hj]
      simp [List.getD_eq_getElem?_getD, List.getElem?_take_of_lt (show k - off < m by omega),
        List.getElem?_drop]
    · have hpos : ¬(off % BSIZE ≤ k % BSIZE ∧ k % BSIZE < off % BSIZE + m) := fun h =>
        hin (by unfold BSIZE at *; exact ⟨by omega, by omega⟩)
      rw [if_neg hpos, if_neg hin, byteAt, hsame]
  · -- another block: the bytes written are all in the block of `off`
    have hout : ¬(off ≤ k ∧ k < off + m) := fun h =>
      hsame (by unfold BSIZE at *; omega)
    rw [if_neg hsame, if_neg hout]

end Mapped

/-- `bmap` of a block the file maps returns it and changes nothing. -/
theorem bmap_mapped {i nb bn : Nat} {s : FsState} (hO : Owned s.disk (s.icache i) nb)
    (hbn : bn < nb) : (bmap i bn).run s = .ok (blockOf s.disk (s.icache i) bn, s) := by
  have hne : blockOf s.disk (s.icache i) bn ≠ 0 := fun h0 => by
    have hlo := hO.datastart_le hbn
    rw [h0] at hlo
    exact absurd hlo (by decide)
  have hget : (getInode i).run s = .ok (s.icache i, s) := rfl
  by_cases hdir : bn < NDIRECT
  · -- a direct block
    have haddr : (s.icache i).addrs.getD bn 0 = blockOf s.disk (s.icache i) bn := by
      simp [blockOf_eq, hdir]
    rw [bmap, StateT.run_bind, hget, Outcome.ok_bind]
    dsimp only
    rw [if_pos hdir, haddr, if_neg (by simpa using hne)]
    rfl
  · -- through the indirect block, which the file has
    have hrange : bn - NDIRECT < NINDIRECT := by
      have hMAX : MAXFILE = NDIRECT + NINDIRECT := rfl
      have := hO.nb_le
      omega
    have hind : (s.icache i).addrs.getD NDIRECT 0 ≠ 0 := hO.indirect (by omega)
    have hentry : blockField (s.disk ((s.icache i).addrs.getD NDIRECT 0)) (4 * (bn - NDIRECT)) 4 =
        blockOf s.disk (s.icache i) bn := by
      simp only [blockOf_eq, if_neg hdir, if_neg hind]
    rw [bmap_indirect hdir hrange, StateT.run_bind, hget, Outcome.ok_bind, StateT.run_bind]
    have hInd : (bmapInd i (s.icache i)).run s = .ok ((s.icache i).addrs.getD NDIRECT 0, s) := by
      rw [bmapInd, if_neg (by simpa using hind)]
      rfl
    rw [hInd, Outcome.ok_bind, bmapEntry, StateT.run_bind]
    have hgets : (MonadState.get : FsM FsState).run s = .ok (s, s) := rfl
    rw [hgets, Outcome.ok_bind]
    dsimp only
    rw [hentry, if_neg (by simpa using hne)]
    rfl

/-! ## `writei` -/

/-- The bytes of a turn of `writei`'s loop, in numbers: they do not wrap, and stay in the block
of `off`. -/
theorem chunk_facts {off tot n : UInt32} (htot : tot ≤ n)
    (hmax : off.toNat + (n.toNat - tot.toNat) ≤ MAXFILE * BSIZE) :
    (chunk off tot n).toNat ≤ n.toNat - tot.toNat ∧
      (chunk off tot n).toNat ≤ BSIZE - off.toNat % BSIZE ∧
      (off + chunk off tot n).toNat = off.toNat + (chunk off tot n).toNat ∧
      (tot + chunk off tot n).toNat = tot.toNat + (chunk off tot n).toNat := by
  have hc := @toNat_chunk off tot n htot
  have hle := UInt32.le_iff_toNat_le.mp htot
  have hn := n.toNat_lt
  have hMAX : MAXFILE * BSIZE = 71680 := rfl
  refine ⟨by omega, by unfold BSIZE; omega, ?_, ?_⟩
  · rw [UInt32.toNat_add]
    exact Nat.mod_eq_of_lt (by omega)
  · rw [UInt32.toNat_add]
    exact Nat.mod_eq_of_lt (by omega)

/-- `writei`'s loop from `off`, `tot` of `n` bytes written, on a file whose blocks cover `off`:
it ends at `off + (n - tot)`, with the file's blocks its own and covering the end, the bytes from
`off` to the end those of `src` from `tot`, and the file's other bytes as they were. By induction
along the loop. -/
theorem writeiLoop_spec (i : Nat) (src : List UInt8) (off tot n : UInt32) {nb : Nat} {r : UInt32}
    {s s' : FsState} (hsb : s.sb = mkfsSuperBlock) (hO : Owned s.disk (s.icache i) nb)
    (hcover : off.toNat ≤ nb * BSIZE) (htot : tot ≤ n) (hsrc : n.toNat ≤ src.length)
    (hmax : off.toNat + (n.toNat - tot.toNat) ≤ MAXFILE * BSIZE)
    (h : (writeiLoop i src off tot n).run s = .ok (r, s')) :
    r.toNat = off.toNat + (n.toNat - tot.toNat) ∧ Remaps i s s' ∧
      ∃ nb', nb ≤ nb' ∧ r.toNat ≤ nb' * BSIZE ∧ Owned s'.disk (s'.icache i) nb' ∧
        ∀ k, k < nb * BSIZE ∨ k < r.toNat →
          byteAt s'.disk (s'.icache i) k =
            if off.toNat ≤ k ∧ k < r.toNat then src.getD (tot.toNat + (k - off.toNat)) 0
            else byteAt s.disk (s.icache i) k := by
  rw [writeiLoop] at h
  split at h
  · rename_i hlt
    obtain ⟨hm_le, hm_blk, hoff', htot'⟩ := chunk_facts htot hmax
    have hlt' := UInt32.lt_iff_toNat_lt.mp hlt
    -- the block of `off`, mapped by `bmap` if it is the next one
    have hbn : (off / 512).toNat = off.toNat / BSIZE := by simp [UInt32.toNat_div]; rfl
    have hoffmod : (off % 512).toNat = off.toNat % BSIZE := by simp [UInt32.toNat_mod]; rfl
    obtain ⟨b, s₁, h₁, h⟩ := run_bind_eq_ok.mp h
    rw [hbn] at h₁
    have hbn_le : off.toNat / BSIZE ≤ nb := by
      unfold BSIZE at *
      omega
    have hbn_lt : off.toNat / BSIZE < MAXFILE := by
      have hMAX : MAXFILE * BSIZE = 71680 := rfl
      unfold BSIZE at *
      omega
    obtain ⟨hR₁, hO₁, hb₁, hbytes₁⟩ := bmap_spec hsb hO hbn_le hbn_lt h₁
    obtain ⟨_, s₂, h₂, h⟩ := run_bind_eq_ok.mp h
    cases h₂
    obtain ⟨_, s₃, h₃, h⟩ := run_bind_eq_ok.mp h
    rw [setBlock_run] at h₃
    cases h₃
    obtain ⟨_, s₄, h₄, h⟩ := run_bind_eq_ok.mp h
    obtain ⟨log, written, rfl⟩ := log_write_ok h₄
    -- the turn: block `off / BSIZE` of the file holds the chunk
    have hnb₁ : off.toNat / BSIZE < max nb (off.toNat / BSIZE + 1) := by omega
    rw [← hb₁, hoffmod] at h
    have hO₄ := hO₁.setBlock_mapped hnb₁ (storeBytes (s₁.disk (blockOf s₁.disk (s₁.icache i)
      (off.toNat / BSIZE))) (off.toNat % BSIZE) ((src.drop tot.toNat).take (chunk off tot n).toNat))
    have hsrc' : tot.toNat + (chunk off tot n).toNat ≤ src.length := by omega
    have hturn := fun k (hk : k < max nb (off.toNat / BSIZE + 1) * BSIZE) =>
      byteAt_storeBytes hO₁ src hnb₁ hm_blk hsrc' hk
    -- the chunk ends in the block of `off`, which the file now has
    have hblock : off.toNat + (chunk off tot n).toNat ≤ (off.toNat / BSIZE + 1) * BSIZE := by
      unfold BSIZE at *
      omega
    have hmul := Nat.mul_le_mul_right BSIZE (le_max_right nb (off.toNat / BSIZE + 1))
    -- the rest of the loop
    obtain ⟨hr, hR, nb', hle, hcov', hO', hbytes'⟩ := writeiLoop_spec i src _ _ n
      (by exact hR₁.sb_eq.trans hsb) (by exact hO₄) (by rw [hoff']; omega)
      (by rw [UInt32.le_iff_toNat_le, htot']; omega) hsrc (by rw [hoff', htot']; omega) h
    rw [hoff', htot'] at hr
    have hend : r.toNat = off.toNat + (n.toNat - tot.toNat) := by omega
    refine ⟨hend, hR₁.trans ((Remaps.setDisk i s₁ _ log written).trans hR),
      nb', by omega, hcov', hO', fun k hk => ?_⟩
    have hk₁ : k < max nb (off.toNat / BSIZE + 1) * BSIZE ∨ k < r.toNat := by
      rcases hk with hk | hk
      · exact Or.inl (lt_of_lt_of_le hk (Nat.mul_le_mul_right _ (le_max_left _ _)))
      · exact Or.inr hk
    rw [hbytes' k hk₁, hoff', htot']
    -- a byte of the rest of the write, of this turn's chunk, or of neither
    by_cases hrest : off.toNat + (chunk off tot n).toNat ≤ k ∧ k < r.toNat
    · rw [if_pos hrest, if_pos ⟨by omega, hrest.2⟩]
      exact congrArg (src.getD · 0) (by omega)
    · rw [if_neg hrest]
      have hk₂ : k < max nb (off.toNat / BSIZE + 1) * BSIZE := by
        rcases hk₁ with hk₁ | hk₁
        · exact hk₁
        · omega
      rw [show (s₁.icache i) = _ from rfl, hturn k hk₂]
      by_cases hin : off.toNat ≤ k ∧ k < off.toNat + (chunk off tot n).toNat
      · rw [if_pos hin, if_pos ⟨hin.1, by omega⟩]
      · have hout : ¬(off.toNat ≤ k ∧ k < r.toNat) := fun h' => hrest ⟨by omega, h'.2⟩
        rw [if_neg hin, if_neg hout]
        exact hbytes₁ k (by
          rcases hk with hk | hk
          · exact hk
          · omega)
  · -- all `n` bytes written
    rename_i hge
    cases h
    have heq : tot = n := UInt32.le_antisymm htot (UInt32.not_lt.mp hge)
    subst heq
    refine ⟨by omega, Remaps.refl i s, nb, le_refl nb, by simpa using hcover, hO, fun k _ => ?_⟩
    rw [if_neg fun h' => Nat.lt_irrefl _ (lt_of_le_of_lt h'.1 h'.2)]
termination_by (n - tot).toNat
decreasing_by exact chunk_decreasing (UInt32.lt_iff_toNat_lt.mpr hlt')

section Inode

variable {disk : Nat → Block} {ip ip' : Inode} {nb : Nat}

/-- The file's blocks are read from its addresses alone. -/
theorem blockOf_of_addrs (ha : ip'.addrs = ip.addrs) (bn : Nat) :
    blockOf disk ip' bn = blockOf disk ip bn := by
  simp only [blockOf_eq, ha]

/-- `Owned` reads an inode's addresses alone: a change of its size keeps it. -/
theorem Owned.of_addrs (hO : Owned disk ip nb) (ha : ip'.addrs = ip.addrs) : Owned disk ip' nb := by
  have hblocks : ownedBlocks disk ip' nb = ownedBlocks disk ip nb := by
    rw [ownedBlocks, ownedBlocks, funext (blockOf_of_addrs ha), ha]
  refine ⟨hO.nb_le, ha ▸ hO.length_addrs, fun bn h h' => ?_, fun h => ?_, hblocks ▸ hO.nodup,
    hblocks ▸ hO.data, hO.reserved⟩
  · rw [blockOf_of_addrs ha]
    exact hO.unmapped bn h h'
  · rw [ha]
    exact hO.indirect h

/-- The size of an inode is not read by its bytes. -/
theorem byteAt_with_size (sz : UInt32) (k : Nat) : byteAt disk { ip with size := sz } k = byteAt disk ip k :=
  rfl

end Inode

/-- `bmap` and `writei`'s loop change no field of the inode but its addresses. -/
theorem Remaps.inode_eq {i : Nat} {s t : FsState} (h : Remaps i s t) :
    ∃ addrs, t.icache i = { s.icache i with addrs } := by
  obtain ⟨_, addrs, _, _, rfl⟩ := h
  exact ⟨addrs, by simp⟩

/-- The inode block of an inode of `mkfs`'s file system lies before the bitmap and the data. -/
theorem IBLOCK_lt_BMAP {inum : Nat} (h : inum < mkfsSuperBlock.ninodes) :
    IBLOCK inum mkfsSuperBlock < BMAP := by
  have hn : mkfsSuperBlock.ninodes = 200 := rfl
  have hIPB : IPB = 8 := rfl
  have hstart : mkfsSuperBlock.inodestart = 32 := rfl
  have hBMAP : BMAP = 58 := rfl
  rw [IBLOCK, hIPB, hstart, hBMAP]
  omega

/-- `iupdate` writes the inode's block and the log. -/
theorem iupdate_ok {i : Nat} {s s' : FsState} {a : Unit} (h : (iupdate i).run s = .ok (a, s')) :
    ∃ d log written, s' = { s with
      disk := Function.update s.disk (IBLOCK (s.icache i).inum s.sb) d, log, written } := by
  unfold iupdate at h
  obtain ⟨_, s₀, h₀, h⟩ := run_bind_eq_ok.mp h
  cases h₀
  obtain ⟨_, s₁, h₁, h⟩ := run_bind_eq_ok.mp h
  rw [setBlock_run] at h₁
  cases h₁
  obtain ⟨log, written, rfl⟩ := log_write_ok h
  exact ⟨_, log, written, rfl⟩

/-- A write of the inode block keeps the file's blocks and bytes. -/
theorem Owned.setBlock_inode {disk : Nat → Block} {ip : Inode} {nb inum : Nat}
    (hO : Owned disk ip nb) (hinum : inum < mkfsSuperBlock.ninodes) (d : Block) :
    Owned (Function.update disk (IBLOCK inum mkfsSuperBlock) d) ip nb ∧
      ∀ k < nb * BSIZE,
        byteAt (Function.update disk (IBLOCK inum mkfsSuperBlock) d) ip k = byteAt disk ip k := by
  have hlt := IBLOCK_lt_BMAP hinum
  have hother : IBLOCK inum mkfsSuperBlock ∉ ownedBlocks disk ip nb := fun hmem => by
    have hlo := (hO.data _ hmem).1
    have hDATA : DATASTART = BMAP + 1 := rfl
    omega
  exact ⟨hO.setBlock_other hother (Nat.ne_of_lt hlt) d,
    fun k hk => byteAt_setBlock_other hother d hk⟩

/-! ## What a write can end in -/

/-- The loop of `writei` ends while the write stays below `MAXFILE` blocks: each turn maps a block
below `MAXFILE`. By induction along the loop. -/
theorem writeiLoop_ends (i : Nat) (src : List UInt8) (off tot n : UInt32) (htot : tot ≤ n)
    (hmax : off.toNat + (n.toNat - tot.toNat) ≤ MAXFILE * BSIZE) :
    Ends WritePanic (writeiLoop i src off tot n) := by
  rw [writeiLoop]
  split
  · rename_i hlt
    have hlt' := UInt32.lt_iff_toNat_lt.mp hlt
    obtain ⟨hm_le, -, hoff', htot'⟩ := chunk_facts htot hmax
    have hbn : (off / 512).toNat < MAXFILE := by
      have hMAX : MAXFILE * BSIZE = 71680 := rfl
      have hMAXFILE : MAXFILE = 140 := rfl
      rw [UInt32.toNat_div]
      simp only [UInt32.reduceToNat]
      omega
    have hrest : Ends WritePanic (writeiLoop i src (off + chunk off tot n) (tot + chunk off tot n) n) :=
      writeiLoop_ends i src _ _ n (by rw [UInt32.le_iff_toNat_le, htot']; omega)
        (by rw [hoff', htot']; omega)
    exact Ends.bind (bmap_ends i hbn) fun b => Ends.bind Ends.get fun _ =>
      Ends.bind (setBlock_ends _ _) fun _ => Ends.bind (log_write_ends b) fun _ => hrest
  · exact Ends.pure _
termination_by (n - tot).toNat
decreasing_by exact chunk_decreasing (UInt32.lt_iff_toNat_lt.mpr hlt')

/-- An addition that does not wrap, as `writei` tests it. -/
theorem toNat_add_of_not_lt {a b : UInt32} (h : ¬a + b < a) : (a + b).toNat = a.toNat + b.toNat := by
  rw [UInt32.lt_iff_toNat_lt, UInt32.toNat_add] at h
  rw [UInt32.toNat_add]
  have ha := a.toNat_lt
  have hb := b.toNat_lt
  omega

theorem getInode_run (i : Nat) (s : FsState) : (getInode i).run s = .ok (s.icache i, s) := rfl

/-- The first guard of `readi` and `writei` passes an offset within the file that does not
wrap. -/
theorem guard_passes {o k size : UInt32} (hoff : o ≤ size) (hwrap : ¬o + k < o) :
    ¬((decide (o > size) || decide (o + k < o)) = true) := by
  simp [UInt32.not_lt.mpr hoff, hwrap]

/-- A write to a file that is not a device ends: it panics only when the disk runs out of blocks
or the transaction out of room in the log. `bmap`'s `out of range` panic is out of reach: a write
past `MAXFILE` blocks is refused before the loop. -/
theorem writei_ends (i : Nat) (src : List UInt8) (off n : UInt32) {s : FsState}
    (hdev : (s.icache i).type ≠ T_DEV) : ((writei i src off n).run s).Ends WritePanic := by
  rw [writei, StateT.run_bind, getInode_run, Outcome.ok_bind]
  dsimp only
  rw [if_neg (by simpa using hdev)]
  refine Ends.ite (fun _ => Ends.pure _) (fun hguard => Ends.ite (fun _ => Ends.pure _)
    fun hmax => ?_) s
  -- past the guards: the write neither wraps nor ends past `MAXFILE` blocks
  have hwrap : ¬off + n < off := fun h => hguard (by simp [h])
  have hend := toNat_add_of_not_lt hwrap
  refine Ends.bind (writeiLoop_ends i src off 0 n UInt32.zero_le (by simp; omega)) fun r => ?_
  refine Ends.bind (getInode_ends i) fun ip => ?_
  exact Ends.ite (fun _ => Ends.bind (modifyInode_ends _ _) fun _ =>
    Ends.bind (iupdate_ends i) fun _ => Ends.pure _) fun _ => Ends.pure _

/-! ## A write that completes -/

theorem modifyInode_run (i : Nat) (f : Inode → Inode) (s : FsState) :
    (modifyInode i f).run s =
      .ok ((), { s with icache := Function.update s.icache i (f (s.icache i)) }) := rfl

/-- A completed `writei` past its guards: the loop, then, when the write ends past the old size,
the size grown and the inode written back. -/
theorem writei_ok {i : Nat} {src : List UInt8} {off n : UInt32} {s s' : FsState} {r : Int}
    (hdev : (s.icache i).type ≠ T_DEV) (hoff : off ≤ (s.icache i).size) (hwrap : ¬off + n < off)
    (hmax : (off + n).toNat ≤ MAXFILE * BSIZE) (h : (writei i src off n).run s = .ok (r, s')) :
    r = n.toNat ∧ ∃ e s₁, (writeiLoop i src off 0 n).run s = .ok (e, s₁) ∧
      if 0 < n ∧ (s₁.icache i).size < e then
        ∃ d log written, s' = { s₁ with
          disk := Function.update s₁.disk (IBLOCK (s₁.icache i).inum s₁.sb) d,
          icache := Function.update s₁.icache i { s₁.icache i with size := e }, log, written }
      else s' = s₁ := by
  have hguard := guard_passes hoff hwrap
  rw [writei, StateT.run_bind, getInode_run, Outcome.ok_bind] at h
  dsimp only at h
  rw [if_neg (by simpa using hdev), if_neg hguard, if_neg (Nat.not_lt.mpr hmax)] at h
  obtain ⟨e, s₁, h₁, h⟩ := run_bind_eq_ok.mp h
  rw [StateT.run_bind, getInode_run, Outcome.ok_bind] at h
  dsimp only at h
  by_cases hgrow : 0 < n ∧ (s₁.icache i).size < e
  · -- the write ends past the old size: the inode grows and goes back to its block
    rw [if_pos (by simpa using hgrow)] at h
    obtain ⟨_, s₂, h₂, h⟩ := run_bind_eq_ok.mp h
    rw [modifyInode_run] at h₂
    cases h₂
    obtain ⟨_, s₃, h₃, h⟩ := run_bind_eq_ok.mp h
    obtain ⟨d, log, written, rfl⟩ := iupdate_ok h₃
    cases h
    refine ⟨rfl, e, s₁, h₁, ?_⟩
    rw [if_pos hgrow]
    exact ⟨d, log, written, by simp⟩
  · rw [if_neg (by simpa using hgrow)] at h
    cases h
    refine ⟨rfl, e, _, h₁, ?_⟩
    rw [if_neg hgrow]

/-- A file of `mkfs`'s file system that is not a device, its first `nb` blocks its own and
covering its size: what `writei` and `readi` ask of a file, and what a write keeps. -/
structure FileOk (s : FsState) (i nb : Nat) : Prop where
  sb_eq : s.sb = mkfsSuperBlock
  not_dev : (s.icache i).type ≠ T_DEV
  owned : Owned s.disk (s.icache i) nb
  size_le : (s.icache i).size.toNat ≤ nb * BSIZE
  inum_lt : (s.icache i).inum < mkfsSuperBlock.ninodes

/-- A state that remaps inode `i` keeps a file whose size its new blocks cover. -/
theorem FileOk.remaps {i nb nb' : Nat} {s t : FsState} (hf : FileOk s i nb) (hR : Remaps i s t)
    (hO : Owned t.disk (t.icache i) nb') (hsize : (s.icache i).size.toNat ≤ nb' * BSIZE) :
    FileOk t i nb' := by
  obtain ⟨addrs, hinode⟩ := hR.inode_eq
  exact ⟨hR.sb_eq.trans hf.sb_eq, by rw [hinode]; exact hf.not_dev, hO,
    by rw [hinode]; exact hsize, by rw [hinode]; exact hf.inum_lt⟩

/-- A write to a file of `mkfs`'s file system past `writei`'s guards that completes returns `n`,
grows the file to the end of the write if that is past its end, and leaves it the bytes of `src`
from `off` to the end of the write and its old bytes elsewhere; the file stays one whose blocks
are its own. -/
theorem writei_spec (i : Nat) (src : List UInt8) (off n : UInt32) {nb : Nat} {s s' : FsState}
    {r : Int} (hf : FileOk s i nb) (hoff : off ≤ (s.icache i).size) (hwrap : ¬off + n < off)
    (hmax : (off + n).toNat ≤ MAXFILE * BSIZE) (hsrc : n.toNat ≤ src.length)
    (h : (writei i src off n).run s = .ok (r, s')) :
    r = n.toNat ∧ (s'.icache i).size.toNat = max (s.icache i).size.toNat (off.toNat + n.toNat) ∧
      ∃ nb', FileOk s' i nb' ∧
        ∀ k < (s'.icache i).size.toNat, byteAt s'.disk (s'.icache i) k =
          if off.toNat ≤ k ∧ k < off.toNat + n.toNat then src.getD (k - off.toNat) 0
          else byteAt s.disk (s.icache i) k := by
  have hend := toNat_add_of_not_lt hwrap
  have hoff' := UInt32.le_iff_toNat_le.mp hoff
  obtain ⟨hr, e, s₁, h₁, h⟩ := writei_ok hf.not_dev hoff hwrap hmax h
  obtain ⟨he, hR, nb', hle, hcov, hO₁, hbytes⟩ := writeiLoop_spec i src off 0 n hf.sb_eq hf.owned
    (le_trans hoff' hf.size_le) UInt32.zero_le hsrc (by simp; omega) h₁
  simp only [UInt32.toNat_zero, Nat.sub_zero, Nat.zero_add] at he hbytes
  rw [he] at hbytes
  have hmono := Nat.mul_le_mul_right BSIZE hle
  have hf₁ : FileOk s₁ i nb' := hf.remaps hR hO₁ (le_trans hf.size_le hmono)
  obtain ⟨addrs, hinode⟩ := hR.inode_eq
  have hsize₁ : (s₁.icache i).size = (s.icache i).size := by rw [hinode]
  refine ⟨hr, ?_⟩
  split at h
  · -- the file grows to the end of the write, and its inode goes back to its block
    rename_i hgrow
    obtain ⟨d, log, written, hs'⟩ := h
    have hsb' : s'.sb = s₁.sb := by rw [hs']
    have hdisk : s'.disk = Function.update s₁.disk (IBLOCK (s₁.icache i).inum s₁.sb) d := by
      rw [hs']
    have hip : s'.icache i = { s₁.icache i with size := e } := by
      rw [hs']
      exact Function.update_self _ _ _
    have hlt := UInt32.lt_iff_toNat_lt.mp hgrow.2
    have hinum : (s₁.icache i).inum < mkfsSuperBlock.ninodes := hf₁.inum_lt
    obtain ⟨hO', hsame⟩ := hf₁.owned.setBlock_inode hinum d
    rw [← hf₁.sb_eq, ← hdisk] at hO' hsame
    have hf' : FileOk s' i nb' := by
      refine ⟨hsb'.trans hf₁.sb_eq, ?_, ?_, ?_, ?_⟩ <;> rw [hip]
      · exact hf₁.not_dev
      · exact hO'.of_addrs rfl
      · exact he ▸ hcov
      · exact hinum
    rw [hip]
    dsimp only
    refine ⟨by rw [he, ← hsize₁]; omega, nb', hf', fun k hk => ?_⟩
    rw [byteAt_with_size, hsame k (by omega)]
    exact hbytes k (Or.inr (he ▸ hk))
  · -- the write ends within the file
    rename_i hgrow
    subst h
    have hwithin : off.toNat + n.toNat ≤ (s.icache i).size.toNat := by
      by_cases hn : 0 < n
      · have hle' := UInt32.le_iff_toNat_le.mp (UInt32.not_lt.mp fun h' => hgrow ⟨hn, h'⟩)
        rw [hsize₁] at hle'
        omega
      · have hn0 : n.toNat = 0 := by
          have := UInt32.lt_iff_toNat_lt.not.mp hn
          simp only [UInt32.toNat_zero] at this
          omega
        omega
    refine ⟨by rw [hsize₁]; omega, nb', hf₁, fun k hk => ?_⟩
    rw [hsize₁] at hk
    exact hbytes k (Or.inl (lt_of_lt_of_le hk hf.size_le))

/-! ## `readi` -/

/-- The bytes a turn of `readi`'s loop copies out of the block of `off`: those of the file from
`off`, while they stay in that block. -/
theorem loadBytes_blockOf {disk : Nat → Block} {ip : Inode} {off m : Nat}
    (hm : off % BSIZE + m ≤ BSIZE) :
    loadBytes (disk (blockOf disk ip (off / BSIZE))) (off % BSIZE) m =
      (List.range m).map fun j => byteAt disk ip (off + j) := by
  unfold loadBytes
  refine List.map_congr_left fun j hj => ?_
  have hj' := List.mem_range.mp hj
  have hdiv : (off + j) / BSIZE = off / BSIZE := by
    unfold BSIZE at hm ⊢
    omega
  have hmod : (off + j) % BSIZE = off % BSIZE + j := by
    unfold BSIZE at hm ⊢
    omega
  rw [byteAt, hdiv, hmod]

/-- `readi`'s loop over blocks the file maps changes nothing and copies out the file's bytes from
`off`. By induction along the loop. -/
theorem readiLoop_spec (i : Nat) (off tot n : UInt32) {nb : Nat} (s : FsState)
    (hO : Owned s.disk (s.icache i) nb) (htot : tot ≤ n)
    (hend : off.toNat + (n.toNat - tot.toNat) ≤ nb * BSIZE) :
    (readiLoop i off tot n).run s =
      .ok ((List.range (n.toNat - tot.toNat)).map fun j => byteAt s.disk (s.icache i) (off.toNat + j),
        s) := by
  rw [readiLoop]
  split
  · rename_i hlt
    have hlt' := UInt32.lt_iff_toNat_lt.mp hlt
    have hmax : off.toNat + (n.toNat - tot.toNat) ≤ MAXFILE * BSIZE :=
      le_trans hend (Nat.mul_le_mul_right _ hO.nb_le)
    obtain ⟨hm_le, hm_blk, hoff', htot'⟩ := chunk_facts htot hmax
    have hbn : (off / 512).toNat = off.toNat / BSIZE := by simp [UInt32.toNat_div]; rfl
    have hoffmod : (off % 512).toNat = off.toNat % BSIZE := by simp [UInt32.toNat_mod]; rfl
    have hoff_lt : off.toNat < nb * BSIZE := by omega
    have hbn_lt : off.toNat / BSIZE < nb := Nat.div_lt_of_lt_mul (by rwa [Nat.mul_comm] at hoff_lt)
    -- the rest of the loop, from the end of this turn's chunk
    have htot₁ : tot + chunk off tot n ≤ n := by
      rw [UInt32.le_iff_toNat_le, htot']
      omega
    have hend₁ : (off + chunk off tot n).toNat + (n.toNat - (tot + chunk off tot n).toNat) ≤
        nb * BSIZE := by
      rw [hoff', htot']
      omega
    have hrest := readiLoop_spec i (off + chunk off tot n) (tot + chunk off tot n) n s hO htot₁ hend₁
    rw [StateT.run_bind, hbn, bmap_mapped hO hbn_lt, Outcome.ok_bind]
    dsimp only
    rw [StateT.run_bind, show (MonadState.get : FsM FsState).run s = .ok (s, s) from rfl,
      Outcome.ok_bind]
    dsimp only
    have hin : off.toNat % BSIZE + (chunk off tot n).toNat ≤ BSIZE := by
      have := Nat.mod_lt off.toNat (show BSIZE > 0 by decide)
      omega
    rw [StateT.run_bind, hrest, Outcome.ok_bind, hoffmod, loadBytes_blockOf hin, hoff', htot']
    -- the chunk's bytes, then the rest's
    have hsplit : n.toNat - tot.toNat =
        (chunk off tot n).toNat + (n.toNat - (tot.toNat + (chunk off tot n).toNat)) := by omega
    rw [hsplit, List.range_add, List.map_append, List.map_map]
    simp only [Function.comp_def, Nat.add_assoc]
    rfl
  · rename_i hge
    have heq : tot = n := UInt32.le_antisymm htot (UInt32.not_lt.mp hge)
    subst heq
    simp
termination_by (n - tot).toNat
decreasing_by exact chunk_decreasing (UInt32.lt_iff_toNat_lt.mpr hlt')

/-- The bytes `readi` reads: `k`, cut at the end of the file. -/
theorem toNat_readCount {o k size : UInt32} (hoff : o ≤ size) (hwrap : ¬o + k < o) :
    (if o + k > size then size - o else k).toNat = min k.toNat (size.toNat - o.toNat) := by
  have hend := toNat_add_of_not_lt hwrap
  have hoff' := UInt32.le_iff_toNat_le.mp hoff
  split
  · rename_i hpast
    have hpast' := UInt32.lt_iff_toNat_lt.mp hpast
    rw [UInt32.toNat_sub_of_le _ _ hoff]
    omega
  · rename_i hwithin
    have hwithin' := UInt32.le_iff_toNat_le.mp (UInt32.not_lt.mp hwithin)
    omega

/-- `readi` of a file whose blocks cover its size, past the guards: the file's bytes from `o`,
`k` of them or as many as there are up to its end, with nothing changed: no block is allocated,
and `bmap`'s `out of range` panic is out of reach. -/
theorem readi_spec (i : Nat) (o k : UInt32) {nb : Nat} {s : FsState}
    (hdev : (s.icache i).type ≠ T_DEV) (hO : Owned s.disk (s.icache i) nb)
    (hsize : (s.icache i).size.toNat ≤ nb * BSIZE) (hoff : o ≤ (s.icache i).size)
    (hwrap : ¬o + k < o) :
    (readi i o k).run s =
      .ok (some ((List.range (min k.toNat ((s.icache i).size.toNat - o.toNat))).map fun j =>
        byteAt s.disk (s.icache i) (o.toNat + j)), s) := by
  have hguard := guard_passes hoff hwrap
  have hoff' := UInt32.le_iff_toNat_le.mp hoff
  rw [readi, StateT.run_bind, getInode_run, Outcome.ok_bind]
  dsimp only
  rw [if_neg (by simpa using hdev), if_neg hguard]
  -- the read, cut at the end of the file
  have hcut := toNat_readCount hoff hwrap
  have hloop := readiLoop_spec i o 0 (if o + k > (s.icache i).size then (s.icache i).size - o else k)
    s hO UInt32.zero_le (by simp only [UInt32.toNat_zero, Nat.sub_zero, hcut]; omega)
  simp only [UInt32.toNat_zero, Nat.sub_zero, hcut] at hloop
  rw [StateT.run_bind, hloop, Outcome.ok_bind]
  rfl

/-! ## A write, then a read -/

/-- A write to a file of `mkfs`'s file system past `writei`'s guards ends: it panics as
`WritePanic` allows, or returns `n`, with the file as `writei_spec` says. -/
theorem writei_total (i : Nat) (src : List UInt8) (off n : UInt32) {nb : Nat} {s : FsState}
    (hf : FileOk s i nb) (hoff : off ≤ (s.icache i).size) (hwrap : ¬off + n < off)
    (hmax : (off + n).toNat ≤ MAXFILE * BSIZE) (hsrc : n.toNat ≤ src.length) :
    (∃ msg, WritePanic msg ∧ (writei i src off n).run s = .panic msg) ∨
      ∃ s', (writei i src off n).run s = .ok (n.toNat, s') ∧
        (s'.icache i).size.toNat = max (s.icache i).size.toNat (off.toNat + n.toNat) ∧
        ∃ nb', FileOk s' i nb' ∧
          ∀ k < (s'.icache i).size.toNat, byteAt s'.disk (s'.icache i) k =
            if off.toNat ≤ k ∧ k < off.toNat + n.toNat then src.getD (k - off.toNat) 0
            else byteAt s.disk (s.icache i) k := by
  rcases (writei_ends i src off n hf.not_dev).ok_or_panic with ⟨⟨r, s'⟩, h⟩ | hpanic
  · obtain ⟨hr, hspec⟩ := writei_spec i src off n hf hoff hwrap hmax hsrc h
    exact .inr ⟨s', hr ▸ h, hspec⟩
  · exact .inl hpanic

/-! ## Out of blocks -/

/-- A block whose bytes are all ones: a bitmap block with every block in use. -/
def fullBlock : Block := Vector.replicate BSIZE 0xFF

theorem bitClear_fullBlock {bi : Nat} (h : bi < BPB) : bitClear fullBlock bi = false := by
  have hbyte : memOfVector fullBlock (bi / 8) = 0xFF := by
    have hlt : bi / 8 < BSIZE := by
      unfold BPB at h
      omega
    simp [memOfVector, fullBlock, hlt]
  have hbit : bi % 8 < 8 := Nat.mod_lt _ (by decide)
  rw [bitClear_eq, hbyte]
  generalize bi % 8 = j at hbit
  interval_cases j <;> decide

/-- An empty file in inode `2` of `mkfs`'s file system, its addresses all zero. -/
def emptyFile : Inode :=
  ⟨ROOTDEV, 2, 1, true, true, T_FILE, 0, 0, 1, 0, List.replicate (NDIRECT + 1) 0⟩

/-- `mkfs`'s file system with every block in use, and the empty file in every slot of the inode
cache. -/
def fullDiskState : FsState :=
  ⟨mkfsSuperBlock, fun _ => fullBlock, fun _ => emptyFile, Log.init, some ROOTINO, FileTable.new,
    fun _ => none, []⟩

/-- The empty file has no block, and so all of its blocks are its own: it is a file of any state
of `mkfs`'s file system whose blocks before the data blocks are marked. -/
theorem emptyFile_fileOk {s : FsState} {i : Nat} (hsb : s.sb = mkfsSuperBlock)
    (hfile : s.icache i = emptyFile) (hreserved : ∀ b < DATASTART, used s.disk b = true) :
    FileOk s i 0 := by
  have hnone : ownedBlocks s.disk emptyFile 0 = [] := by
    simp [ownedBlocks, emptyFile]
  have hunmapped : ∀ bn, blockOf s.disk emptyFile bn = 0 := by
    intro bn
    simp only [blockOf_eq]
    split <;> simp [emptyFile]
  refine ⟨hsb, by rw [hfile]; decide, ?_, by rw [hfile]; exact Nat.zero_le _,
    by rw [hfile]; decide⟩
  rw [hfile]
  refine ⟨Nat.zero_le _, by decide, fun bn _ _ => hunmapped bn, fun h => absurd h (Nat.not_lt_zero _),
    ?_, ?_, hreserved⟩
  · rw [hnone]
    exact List.nodup_nil
  · rw [hnone]
    exact fun b hb => absurd hb List.not_mem_nil

end Xv6.Fs
