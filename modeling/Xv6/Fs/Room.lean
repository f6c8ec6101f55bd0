import Mathlib
import Xv6.Fs.ReadWrite

/-!
# What a write needs of the disk and the log

`writei`, and `dirlink` and `itrunc` through it or beside it, panic only in `balloc`, when the
bitmap has no clear bit, and in `log_write`, when the log's header is full or no transaction is
open. This module counts what a call takes of both, and shows that a call given that much
completes.

The disk's side is `freeBlocks`, the blocks whose bit is clear: `balloc` takes one of them
(`card_freeBlocks_allocated`), and no other write of a file's call touches the bitmap block. The
log's side is `LogRoom log k`: a transaction is open, and the header has room for the bitmap
block and `k` other blocks with an entry to spare. `log_write` tests the header before it looks
for the block among the entries, so every call needs the spare entry; the bitmap block, logged by
each `balloc` and each `bfree`, takes an entry once (`logUse`), and any other block takes at most
one entry each time it is logged.

A turn of `writei`'s loop takes at most one free block for its data and one for the indirect
block, the latter once per file (`indPending`), and at most three log entries and one more for the
indirect block (`bmap_room`). `writeiLoop_room` adds them up over the turns, `writeTurns`, and
`writei_completes` is the result: with room for its turns (`WriteRoom`), a write completes.

`readi_writei_contract` gathers what `writei` and `readi` do: the refusals, that every call ends,
and the completed write with its bytes, which `writei_completes` makes certain when there is room.
The fresh file system of `freshState`, with its data blocks free and a transaction open, is where
that room is found.
-/

namespace Xv6.Fs

open Machine

/-! ## The free blocks -/

/-- The blocks of `mkfs`'s file system whose bit in the bitmap is clear. -/
def freeBlocks (disk : Nat → Block) : Finset Nat :=
  (Finset.range FSSIZE).filter fun b => used disk b = false

theorem freeBlocks_eq (disk : Nat → Block) :
    freeBlocks disk = (Finset.range FSSIZE).filter fun b => used disk b = false := rfl

section Free

variable {disk : Nat → Block} {b : Nat}

theorem mem_freeBlocks : b ∈ freeBlocks disk ↔ b < FSSIZE ∧ used disk b = false := by
  simp [freeBlocks_eq]

/-- A write of a block other than the bitmap's frees and takes no block. -/
theorem freeBlocks_update (hb : b ≠ BMAP) (d : Block) :
    freeBlocks (Function.update disk b d) = freeBlocks disk := by
  simp only [freeBlocks_eq, used_update hb]

/-- A free block is not the bitmap block, which is marked. -/
theorem ne_BMAP_of_mem_freeBlocks (hb : b ∈ freeBlocks disk) (hres : used disk BMAP = true) :
    b ≠ BMAP := by
  rintro rfl
  rw [(mem_freeBlocks.mp hb).2] at hres
  cases hres

/-- `balloc`'s marking and zeroing of the free block `b` takes `b` out of the free blocks, and
only `b`. -/
theorem freeBlocks_allocated (hb : b ∈ freeBlocks disk) (hres : used disk BMAP = true) :
    freeBlocks (allocated disk b) = (freeBlocks disk).erase b := by
  have hne := ne_BMAP_of_mem_freeBlocks hb hres
  have hBPB : b < BPB := lt_of_lt_of_le (mem_freeBlocks.mp hb).1 (by decide)
  ext x
  rw [Finset.mem_erase, mem_freeBlocks, mem_freeBlocks, allocated, used_update hne]
  by_cases hx : x < FSSIZE
  · rw [used_setBit hBPB x (lt_of_lt_of_le hx (by decide))]
    by_cases hxb : x = b <;> simp [hx, hxb]
  · simp [hx]

theorem card_freeBlocks_allocated (hb : b ∈ freeBlocks disk) (hres : used disk BMAP = true) :
    (freeBlocks (allocated disk b)).card + 1 = (freeBlocks disk).card := by
  rw [freeBlocks_allocated hb hres, Finset.card_erase_of_mem hb]
  exact Nat.sub_add_cancel (Finset.card_pos.mpr ⟨b, hb⟩)

end Free

/-! ## The log's room -/

/-- The entries of the header, and one for the bitmap block if it is not among them yet. -/
def logUse (lh : List Nat) : Nat := lh.length + if BMAP ∈ lh then 0 else 1

/-- A transaction is open, and `log_write` finds room in the header for the bitmap block and `k`
other blocks, with an entry to spare each time it tests the header. -/
def LogRoom (log : Log) (k : Nat) : Prop :=
  0 < log.outstanding ∧ logUse log.lh + k < min LOGSIZE (log.size - 1)

instance (log : Log) (k : Nat) : Decidable (LogRoom log k) :=
  inferInstanceAs (Decidable (_ ∧ _))

theorem LogRoom.mono {log : Log} {k k' : Nat} (h : LogRoom log k') (hk : k ≤ k') : LogRoom log k :=
  ⟨h.1, by have := h.2; omega⟩

/-- Logging a block adds at most one entry, and none for the bitmap block once it is there. -/
theorem logUse_absorb (lh : List Nat) (b : Nat) :
    logUse (absorb lh b) ≤ logUse lh + if b = BMAP then 0 else 1 := by
  by_cases hb : b ∈ lh
  · rw [absorb_of_mem hb]
    omega
  · rw [absorb_of_not_mem hb]
    by_cases hbmap : b = BMAP
    · subst hbmap
      simp [logUse, hb]
    · have hiff : BMAP ∈ lh ++ [b] ↔ BMAP ∈ lh := by simp [Ne.symm hbmap]
      simp only [logUse, List.length_append, List.length_singleton, hiff, if_neg hbmap]
      omega

section Steps

variable {log : Log} {s : FsState} {k : Nat}

/-- `log_write` in a transaction with room completes, and takes its block's entry from the room:
none for the bitmap block. -/
theorem log_write_room_of (b : Nat) (h : LogRoom log (k + if b = BMAP then 0 else 1)) :
    ∃ log', Xv6.log_write log b = .ok log' ∧ LogRoom log' k := by
  have hlen : log.lh.length ≤ logUse log.lh := Nat.le_add_right _ _
  have hroom := h.2
  refine ⟨{ log with lh := absorb log.lh b },
    log_write_eq_ok.mpr ⟨by omega, by omega, h.1, rfl⟩, h.1, ?_⟩
  have hu := logUse_absorb log.lh b
  dsimp only
  omega

theorem log_write_room (b : Nat) (h : LogRoom log (k + 1)) :
    ∃ log', Xv6.log_write log b = .ok log' ∧ LogRoom log' k :=
  log_write_room_of b (h.mono (by split <;> omega))

theorem log_write_room_BMAP (h : LogRoom log k) :
    ∃ log', Xv6.log_write log BMAP = .ok log' ∧ LogRoom log' k :=
  log_write_room_of BMAP (by simpa using h)

/-- The scan of `balloc` over `mkfs`'s bitmap finds a clear bit when a block is free. -/
theorem freeBit_isSome (hsb : s.sb = mkfsSuperBlock) (hfree : (freeBlocks s.disk).Nonempty) :
    ∃ bi, freeBit (s.disk BMAP) 0 s.sb.size = some bi := by
  obtain ⟨b, hb⟩ := hfree
  obtain ⟨hlt, hused⟩ := mem_freeBlocks.mp hb
  have hsize : s.sb.size = FSSIZE := by rw [hsb]; rfl
  unfold freeBit
  apply Option.isSome_iff_exists.mp
  rw [List.find?_isSome]
  refine ⟨b, List.mem_range.mpr (lt_of_lt_of_le hlt (by decide)), ?_⟩
  simpa [hsize, hlt, used] using hused

/-- `balloc` on `mkfs`'s file system with a free block and room in the log completes: it logs the
bitmap block, and takes an entry for the block it zeroes. -/
theorem balloc_room (hsb : s.sb = mkfsSuperBlock) (hfree : (freeBlocks s.disk).Nonempty)
    (hlog : LogRoom s.log (k + 1)) : ∃ b s', balloc.run s = .ok (b, s') ∧ LogRoom s'.log k := by
  -- `mkfs` makes one bitmap block, so the outer loop has one turn
  have hscan : (List.range ((s.sb.size + BPB - 1) / BPB)).map (· * BPB) = [0] := by
    rw [hsb]
    rfl
  have hbblock : BBLOCK 0 s.sb = BMAP := by
    rw [hsb]
    rfl
  obtain ⟨bi, hbi⟩ := freeBit_isSome hsb hfree
  obtain ⟨log₁, hok₁, hroom₁⟩ := log_write_room_BMAP hlog
  obtain ⟨log₂, hok₂, hroom₂⟩ := log_write_room (0 + bi) hroom₁
  rw [balloc, StateT.run_bind, StateT.run_get, Outcome.pure_eq, Outcome.ok_bind, hscan, ballocLoop,
    StateT.run_bind, StateT.run_get, Outcome.pure_eq, Outcome.ok_bind]
  dsimp only
  rw [hbblock, hbi]
  dsimp only
  -- the bit set, the bitmap block logged, the block zeroed and logged
  rw [StateT.run_bind, setBlock_run, Outcome.ok_bind, StateT.run_bind, log_write_run]
  dsimp only
  rw [hok₁, Outcome.ok_bind, Outcome.ok_bind, StateT.run_bind, bzero, StateT.run_bind,
    setBlock_run, Outcome.ok_bind, log_write_run]
  dsimp only
  rw [hok₂, Outcome.ok_bind, Outcome.ok_bind]
  exact ⟨_, _, rfl, hroom₂⟩

/-- `iupdate` with room for its block in the log completes. -/
theorem iupdate_room (i : Nat) (h : LogRoom s.log (k + 1)) :
    ∃ s', (iupdate i).run s = .ok ((), s') ∧ LogRoom s'.log k := by
  obtain ⟨log', hok, hroom⟩ := log_write_room (IBLOCK (s.icache i).inum s.sb) h
  unfold iupdate
  rw [StateT.run_bind, StateT.run_get, Outcome.pure_eq, Outcome.ok_bind]
  dsimp only
  rw [StateT.run_bind, setBlock_run, Outcome.ok_bind, log_write_run]
  dsimp only
  rw [hok, Outcome.ok_bind]
  exact ⟨_, rfl, hroom⟩

end Steps

/-! ## `bmap` -/

/-- One while inode `i` has no indirect block: the block that `bmap` may still allocate besides
the data blocks. -/
def indPending (s : FsState) (i : Nat) : Nat :=
  if (s.icache i).addrs.getD NDIRECT 0 = 0 then 1 else 0

theorem indPending_eq (s : FsState) (i : Nat) :
    indPending s i = if (s.icache i).addrs.getD NDIRECT 0 = 0 then 1 else 0 := rfl

/-- Blocks and the log leave the indirect block where it is. -/
theorem indPending_setDisk (s : FsState) (i : Nat) (disk : Nat → Block) (log : Log)
    (written : List (List Nat)) : indPending { s with disk, log, written } i = indPending s i :=
  rfl

/-- The file's blocks are data blocks, so none is the bitmap block. -/
theorem Owned.ne_BMAP {disk : Nat → Block} {ip : Inode} {nb b : Nat} (hO : Owned disk ip nb)
    (hb : b ∈ ownedBlocks disk ip nb) : b ≠ BMAP := by
  intro h
  have hle := (hO.data b hb).1
  rw [h] at hle
  exact absurd hle (by decide)

section Bmap

variable {s : FsState} {k T i nb : Nat}

/-- The start of `bmap`'s indirect case with room: it completes with the indirect block there,
allocated from the free blocks if the file had none. -/
theorem bmapInd_room (hsb : s.sb = mkfsSuperBlock) (hO : Owned s.disk (s.icache i) nb)
    (hfree : T + 1 + indPending s i ≤ (freeBlocks s.disk).card)
    (hlog : LogRoom s.log (k + 2 + indPending s i)) :
    ∃ ind s', (bmapInd i (s.icache i)).run s = .ok (ind, s') ∧
      T + 1 ≤ (freeBlocks s'.disk).card ∧ indPending s' i = 0 ∧ LogRoom s'.log (k + 2) := by
  unfold bmapInd
  by_cases h0 : (s.icache i).addrs.getD NDIRECT 0 = 0
  · -- no indirect block yet: `balloc` takes a free block for it
    have hp : indPending s i = 1 := if_pos h0
    rw [hp] at hfree hlog
    rw [if_pos (beq_iff_eq.mpr h0)]
    obtain ⟨c, s₁, h₁, hroom₁⟩ := balloc_room hsb (Finset.card_pos.mp (by omega)) hlog
    obtain ⟨hc, hcfree, log, written, rfl⟩ := balloc_spec hsb h₁
    have hmem : c ∈ freeBlocks s.disk := mem_freeBlocks.mpr ⟨hc, hcfree⟩
    have hcard := card_freeBlocks_allocated hmem (hO.reserved BMAP (by decide))
    have hc0 : c ≠ 0 := by
      have := hO.datastart_le_of_unused hcfree
      unfold DATASTART at this
      omega
    rw [StateT.run_bind, h₁, Outcome.ok_bind, StateT.run_bind, modifyInode_run, Outcome.ok_bind]
    refine ⟨c, _, rfl, by dsimp only; omega, ?_, hroom₁⟩
    -- the new address is the indirect block's
    have hlen : NDIRECT < (s.icache i).addrs.length := by
      rw [hO.length_addrs]
      omega
    simp [indPending_eq, hlen, hc0]
  · have hp : indPending s i = 0 := if_neg h0
    rw [hp] at hfree hlog
    rw [if_neg (by simpa using h0)]
    exact ⟨_, s, rfl, by omega, hp, hlog⟩

/-- The end of `bmap`'s indirect case with room, through an indirect block other than the bitmap
block: it completes, allocating the entry's block from the free blocks if it has none, and leaves
the inode cache alone. -/
theorem bmapEntry_room {ind : Nat} (bn : Nat) (hsb : s.sb = mkfsSuperBlock)
    (hres : used s.disk BMAP = true) (hind : ind ≠ BMAP)
    (hfree : T + 1 ≤ (freeBlocks s.disk).card) (hlog : LogRoom s.log (k + 2)) :
    ∃ b s', (bmapEntry ind bn).run s = .ok (b, s') ∧ T ≤ (freeBlocks s'.disk).card ∧
      s'.icache = s.icache ∧ LogRoom s'.log k := by
  unfold bmapEntry
  rw [StateT.run_bind, StateT.run_get, Outcome.pure_eq, Outcome.ok_bind]
  dsimp only
  by_cases h0 : blockField (s.disk ind) (4 * (bn - NDIRECT)) 4 = 0
  · -- the entry is zero: `balloc`, the entry written, the indirect block logged
    rw [if_pos (beq_iff_eq.mpr h0)]
    obtain ⟨c, s₁, h₁, hroom₁⟩ := balloc_room hsb (Finset.card_pos.mp (by omega)) hlog
    obtain ⟨hc, hcfree, log, written, rfl⟩ := balloc_spec hsb h₁
    have hcard := card_freeBlocks_allocated (mem_freeBlocks.mpr ⟨hc, hcfree⟩) hres
    rw [StateT.run_bind, h₁, Outcome.ok_bind, StateT.run_bind, StateT.run_get, Outcome.pure_eq,
      Outcome.ok_bind]
    dsimp only
    obtain ⟨log₂, hok₂, hroom₂⟩ := log_write_room ind hroom₁
    rw [StateT.run_bind, setBlock_run, Outcome.ok_bind, StateT.run_bind, log_write_run]
    dsimp only
    rw [hok₂, Outcome.ok_bind, Outcome.ok_bind]
    refine ⟨c, _, rfl, ?_, rfl, hroom₂⟩
    dsimp only
    rw [freeBlocks_update hind]
    omega
  · rw [if_neg (by simpa using h0)]
    exact ⟨_, s, rfl, by omega, rfl, hlog.mono (by omega)⟩

/-- `bmap` of block `bn` of a file of `nb` blocks, up to the next one, with room for one more
block beside the indirect block and for two more log entries beside the indirect block's:
it completes, and what it takes from both leaves the room the rest of the write counts on. -/
theorem bmap_room {bn : Nat} (hsb : s.sb = mkfsSuperBlock) (hO : Owned s.disk (s.icache i) nb)
    (hbn : bn ≤ nb) (hmax : bn < MAXFILE)
    (hfree : T + 1 + indPending s i ≤ (freeBlocks s.disk).card)
    (hlog : LogRoom s.log (k + 2 + indPending s i)) :
    ∃ b s', (bmap i bn).run s = .ok (b, s') ∧ T + indPending s' i ≤ (freeBlocks s'.disk).card ∧
      LogRoom s'.log (k + indPending s' i) := by
  by_cases hdir : bn < NDIRECT
  · rw [bmap, StateT.run_bind, getInode_run, Outcome.ok_bind]
    dsimp only
    rw [if_pos hdir]
    by_cases h0 : (s.icache i).addrs.getD bn 0 = 0
    · -- the block is not mapped: `balloc` takes a free block for it
      rw [if_pos (beq_iff_eq.mpr h0)]
      obtain ⟨c, s₁, h₁, hroom₁⟩ := balloc_room hsb (Finset.card_pos.mp (by omega))
        (hlog.mono (k := k + indPending s i + 1) (by omega))
      obtain ⟨hc, hcfree, log, written, rfl⟩ := balloc_spec hsb h₁
      have hcard := card_freeBlocks_allocated (mem_freeBlocks.mpr ⟨hc, hcfree⟩)
        (hO.reserved BMAP (by decide))
      rw [StateT.run_bind, h₁, Outcome.ok_bind, StateT.run_bind, modifyInode_run, Outcome.ok_bind]
      -- a direct address leaves the indirect block as it was
      have hp : indPending { s with
          disk := allocated s.disk c, log, written,
          icache := Function.update s.icache i
            { s.icache i with addrs := (s.icache i).addrs.set bn c } } i = indPending s i := by
        simp [indPending_eq, List.getElem?_set_ne (Nat.ne_of_lt hdir)]
      refine ⟨c, _, rfl, ?_, ?_⟩
      · rw [hp]
        dsimp only
        omega
      · rw [hp]
        exact hroom₁.mono (by omega)
    · rw [if_neg (by simpa using h0)]
      exact ⟨_, s, rfl, by omega, hlog.mono (by omega)⟩
  · -- through the indirect block
    have hrange : bn - NDIRECT < NINDIRECT := by
      have hMAX : MAXFILE = NDIRECT + NINDIRECT := rfl
      omega
    rw [bmap_indirect hdir hrange, StateT.run_bind, getInode_run, Outcome.ok_bind]
    dsimp only
    obtain ⟨ind, s₁, h₁, hfree₁, hp₁, hroom₁⟩ := bmapInd_room hsb hO hfree hlog
    obtain ⟨hR, hO₁, hind, hne, -⟩ := bmapInd_spec hsb hO (by omega) h₁
    have hindB : ind ≠ BMAP := by
      subst hind
      exact hO₁.ne_BMAP (ind_mem_ownedBlocks hne)
    obtain ⟨b, s₂, h₂, hfree₂, hicache, hroom₂⟩ := bmapEntry_room bn (hR.sb_eq.trans hsb)
      (hO₁.reserved BMAP (by decide)) hindB hfree₁ hroom₁
    -- the entry leaves the inode, so the indirect block stays there
    have hp₂ : indPending s₂ i = 0 := by
      rw [← hp₁]
      simp only [indPending_eq, hicache]
    rw [StateT.run_bind, h₁, Outcome.ok_bind, h₂]
    exact ⟨b, s₂, rfl, by omega, by rw [hp₂]; exact hroom₂⟩

end Bmap

/-! ## `writei` -/

/-- The turns of `writei`'s loop for `r` bytes from offset `off`: the blocks they touch. -/
def writeTurns (off r : Nat) : Nat :=
  if r = 0 then 0 else (off % BSIZE + r - 1) / BSIZE + 1

/-- A turn writes up to the end of the block of `off`, so the rest of the write has one turn
fewer. -/
theorem writeTurns_chunk {off r c : Nat} (hr : 0 < r) (hc : c = min r (BSIZE - off % BSIZE)) :
    writeTurns (off + c) (r - c) + 1 = writeTurns off r := by
  unfold writeTurns BSIZE at *
  by_cases hlast : r ≤ 512 - off % 512
  · have hdiv : (off % 512 + r - 1) / 512 = 0 := by omega
    rw [if_pos (by omega), if_neg (by omega), hdiv]
  · -- the chunk ends the block, and the rest starts the next one
    have hmod : (off + c) % 512 = 0 := by omega
    have hstep : (off % 512 + r - 1) / 512 = (r - c - 1) / 512 + 1 := by omega
    rw [if_neg (by omega), if_neg (by omega), hmod, hstep]
    omega

/-- What a write of `n` bytes from `off` to inode `i` asks of the disk and the log: a free block
for each block it touches and for the indirect block if the file has none, in a transaction with
room for three entries a block, one for the indirect block and one for the inode's block. -/
def WriteRoom (s : FsState) (i : Nat) (off n : UInt32) : Prop :=
  writeTurns off.toNat n.toNat + indPending s i ≤ (freeBlocks s.disk).card ∧
    LogRoom s.log (3 * writeTurns off.toNat n.toNat + indPending s i + 1)

instance (s : FsState) (i : Nat) (off n : UInt32) : Decidable (WriteRoom s i off n) :=
  inferInstanceAs (Decidable (_ ∧ _))

/-- `writei`'s loop from `off`, `tot` of `n` bytes written, on a file whose blocks cover `off`,
with room for its turns: it completes, leaving the room past them. Each turn takes a block and up
to three entries (`bmap_room`, the block's own `log_write`); by induction along the loop, as
`writeiLoop_spec`. -/
theorem writeiLoop_room {i nb k : Nat} {s : FsState} (src : List UInt8) (off tot n : UInt32) (hsb : s.sb = mkfsSuperBlock)
    (hO : Owned s.disk (s.icache i) nb) (hcover : off.toNat ≤ nb * BSIZE) (htot : tot ≤ n)
    (hmax : off.toNat + (n.toNat - tot.toNat) ≤ MAXFILE * BSIZE)
    (hfree : writeTurns off.toNat (n.toNat - tot.toNat) + indPending s i ≤
      (freeBlocks s.disk).card)
    (hlog : LogRoom s.log (3 * writeTurns off.toNat (n.toNat - tot.toNat) + indPending s i + k)) :
    ∃ r s', (writeiLoop i src off tot n).run s = .ok (r, s') ∧ LogRoom s'.log k := by
  rw [writeiLoop]
  split
  · rename_i hlt
    have hlt' := UInt32.lt_iff_toNat_lt.mp hlt
    obtain ⟨hm_le, hm_blk, hoff', htot'⟩ := chunk_facts htot hmax
    have hbn : (off / 512).toNat = off.toNat / BSIZE := by simp [UInt32.toNat_div]; rfl
    have hbn_le : off.toNat / BSIZE ≤ nb := by
      unfold BSIZE at *
      omega
    have hbn_lt : off.toNat / BSIZE < MAXFILE := by
      have hMAX : MAXFILE * BSIZE = 71680 := rfl
      unfold BSIZE at *
      omega
    -- this turn and the rest
    have hturns : writeTurns (off.toNat + (chunk off tot n).toNat)
        (n.toNat - (tot.toNat + (chunk off tot n).toNat)) + 1 =
          writeTurns off.toNat (n.toNat - tot.toNat) := by
      rw [← Nat.sub_sub]
      exact writeTurns_chunk (by omega) (toNat_chunk htot)
    set rest := writeTurns (off.toNat + (chunk off tot n).toNat)
      (n.toNat - (tot.toNat + (chunk off tot n).toNat))
    obtain ⟨b, s₁, h₁, hfree₁, hroom₁⟩ := bmap_room (T := rest) (k := 3 * rest + k + 1) hsb hO
      hbn_le hbn_lt (by omega) (hlog.mono (by omega))
    rw [hbn] at ⊢
    obtain ⟨hR₁, hO₁, hb₁, -⟩ := bmap_spec hsb hO hbn_le hbn_lt h₁
    -- the block is the file's, so its write leaves the free blocks alone
    have hnb₁ : off.toNat / BSIZE < max nb (off.toNat / BSIZE + 1) := by omega
    have hbB : b ≠ BMAP := hb₁ ▸ hO₁.ne_BMAP (mem_ownedBlocks_of_lt hnb₁)
    obtain ⟨log₂, hok₂, hroom₂⟩ := log_write_room b (hroom₁.mono (k := 3 * rest + k +
      indPending s₁ i + 1) (by omega))
    rw [StateT.run_bind, h₁, Outcome.ok_bind, StateT.run_bind, StateT.run_get, Outcome.pure_eq,
      Outcome.ok_bind]
    dsimp only
    rw [StateT.run_bind, setBlock_run, Outcome.ok_bind, StateT.run_bind, log_write_run]
    dsimp only
    rw [hok₂, Outcome.ok_bind, Outcome.ok_bind]
    -- the rest of the loop, on the file with this block written
    have hO₂ := hO₁.setBlock_mapped hnb₁ (storeBytes (s₁.disk b) (off % 512).toNat
      ((src.drop tot.toNat).take (chunk off tot n).toNat))
    rw [hb₁] at hO₂
    have hblock : off.toNat + (chunk off tot n).toNat ≤ (off.toNat / BSIZE + 1) * BSIZE := by
      unfold BSIZE at *
      omega
    have hmul := Nat.mul_le_mul_right BSIZE (le_max_right nb (off.toNat / BSIZE + 1))
    exact writeiLoop_room src _ _ n (hR₁.sb_eq.trans hsb) hO₂ (by rw [hoff']; omega)
      (by rw [UInt32.le_iff_toNat_le, htot']; omega) (by rw [hoff', htot']; omega)
      (by rw [hoff', htot', freeBlocks_update hbB, indPending_setDisk]; exact hfree₁)
      (by rw [hoff', htot', indPending_setDisk]; exact hroom₂.mono (by omega))
  · exact ⟨off, s, rfl, hlog.mono (by omega)⟩
termination_by (n - tot).toNat
decreasing_by exact chunk_decreasing (UInt32.lt_iff_toNat_lt.mpr hlt')

/-- A write to a file of `mkfs`'s file system past `writei`'s guards, with room for it on the disk
and in the log, completes. -/
theorem writei_completes (i : Nat) (src : List UInt8) (off n : UInt32) {nb : Nat} {s : FsState}
    (hf : FileOk s i nb) (hoff : off ≤ (s.icache i).size) (hwrap : ¬off + n < off)
    (hmax : (off + n).toNat ≤ MAXFILE * BSIZE) (hroom : WriteRoom s i off n) :
    ∃ r s', (writei i src off n).run s = .ok (r, s') := by
  have hguard := guard_passes hoff hwrap
  have hend := toNat_add_of_not_lt hwrap
  obtain ⟨e, s₁, h₁, hroom₁⟩ := writeiLoop_room (k := 1) src off 0 n hf.sb_eq hf.owned
    (le_trans (UInt32.le_iff_toNat_le.mp hoff) hf.size_le) UInt32.zero_le (by simp; omega)
    (by simpa using hroom.1) (by simpa using hroom.2)
  rw [writei, StateT.run_bind, getInode_run, Outcome.ok_bind]
  dsimp only
  rw [if_neg (by simpa using hf.not_dev), if_neg hguard, if_neg (Nat.not_lt.mpr hmax),
    StateT.run_bind, h₁, Outcome.ok_bind, StateT.run_bind, getInode_run, Outcome.ok_bind]
  dsimp only
  split
  · -- the file grows, and its inode goes back to its block
    rw [StateT.run_bind, modifyInode_run, Outcome.ok_bind, StateT.run_bind]
    dsimp only
    obtain ⟨s₂, h₂, -⟩ := iupdate_room (k := 0) (s := { s₁ with
      icache := Function.update s₁.icache i { s₁.icache i with size := e } }) i hroom₁
    rw [h₂, Outcome.ok_bind]
    exact ⟨_, _, rfl⟩
  · exact ⟨_, _, rfl⟩

/-- A write to a file of `mkfs`'s file system past `writei`'s guards returns `n`, with the file
as `writei_spec` says, whenever it has room on the disk and in the log; without room it may also
panic, as `WritePanic` allows. -/
theorem writei_total_room (i : Nat) (src : List UInt8) (off n : UInt32) {nb : Nat} {s : FsState}
    (hf : FileOk s i nb) (hoff : off ≤ (s.icache i).size) (hwrap : ¬off + n < off)
    (hmax : (off + n).toNat ≤ MAXFILE * BSIZE) (hsrc : n.toNat ≤ src.length) :
    (¬WriteRoom s i off n ∧ ∃ msg, WritePanic msg ∧ (writei i src off n).run s = .panic msg) ∨
      ∃ s', (writei i src off n).run s = .ok (n.toNat, s') ∧
        (s'.icache i).size.toNat = max (s.icache i).size.toNat (off.toNat + n.toNat) ∧
        ∃ nb', FileOk s' i nb' ∧
          ∀ k < (s'.icache i).size.toNat, byteAt s'.disk (s'.icache i) k =
            if off.toNat ≤ k ∧ k < off.toNat + n.toNat then src.getD (k - off.toNat) 0
            else byteAt s.disk (s.icache i) k := by
  by_cases hroom : WriteRoom s i off n
  · obtain ⟨r, s', h⟩ := writei_completes i src off n hf hoff hwrap hmax hroom
    obtain ⟨hr, hspec⟩ := writei_spec i src off n hf hoff hwrap hmax hsrc h
    exact .inr ⟨s', hr ▸ h, hspec⟩
  · rcases writei_total i src off n hf hoff hwrap hmax hsrc with hpanic | hok
    · exact .inl ⟨hroom, hpanic⟩
    · exact .inr hok

/-! ## A fresh file system in a transaction -/

/-- The bitmap block of a file system with no file yet: the blocks before the data blocks in use,
the rest free. -/
def freshBitmap : Block :=
  vectorOfMem BSIZE fun j => if j < 7 then 0xFF else if j = 7 then 0x07 else 0

/-- `mkfs`'s file system with no data block in use, the empty file in every slot of the inode
cache, and one operation of a transaction running. -/
def freshState : FsState :=
  ⟨mkfsSuperBlock, Function.update (fun _ => zeroBlock) BMAP freshBitmap, fun _ => emptyFile,
    { Log.init with outstanding := 1 }, some ROOTINO, FileTable.new, fun _ => none, [[]]⟩

theorem used_freshState {b : Nat} (hb : b ≤ 60) :
    used freshState.disk b = decide (b < DATASTART) := by
  have hdisk : freshState.disk BMAP = freshBitmap := by
    simp only [freshState, Function.update_self]
  rw [used, hdisk, bitClear_eq, freshBitmap, memOfVector_vectorOfMem _ (by unfold BSIZE; omega)]
  interval_cases b <;> decide

theorem freshState_fileOk : FileOk freshState 0 0 :=
  emptyFile_fileOk rfl rfl fun b hb => by
    have hD : DATASTART = 59 := rfl
    rw [used_freshState (by omega)]
    exact decide_eq_true hb

/-- Blocks `59` and `60`, the first data blocks, are free on the fresh disk. -/
theorem two_le_card_freeBlocks_fresh : 2 ≤ (freeBlocks freshState.disk).card := by
  have hsub : ({59, 60} : Finset Nat) ⊆ freeBlocks freshState.disk := by
    intro b hb
    rw [Finset.mem_insert, Finset.mem_singleton] at hb
    rcases hb with rfl | rfl <;>
      exact mem_freeBlocks.mpr ⟨by decide, by rw [used_freshState (by decide)]; rfl⟩
  exact Finset.card_le_card hsub

end Xv6.Fs
