import Mathlib
import Xv6.Fs.Transactions

/-!
# The bytes of a file

What `balloc`, `bmap` and `writei` of `fs.c` do to the bytes of one file, on `mkfs`'s file
system, whose one bitmap block `BMAP` holds the bit of every block.

A file's bytes are where `readi` finds them: byte `k` is byte `k % BSIZE` of the block that `bmap`
maps block `k / BSIZE` of the inode to, read without allocating (`blockOf`, `byteAt`). `Owned`
says that the first `nb` blocks of an inode are its own, as the allocator keeps them: they and
the indirect block are distinct data blocks marked in the bitmap, the blocks past them are not
mapped, and every block before the data blocks is marked, so that `balloc` never hands out one of
them. A write of a block outside the inode's blocks, `balloc`, and `iupdate` leave its bytes alone
(`Owned.setBlock_other`, `balloc_spec`); `bmap` of the next block maps a fresh block and keeps the
others (`bmap_spec`). What `readi` and `writei` then do to a file is in `Xv6.Fs.ReadWrite`.
-/

namespace Xv6.Fs

open Machine

/-- The bitmap block of `mkfs`'s file system. -/
def BMAP : Nat := mkfsSuperBlock.bmapstart

/-- The first data block of `mkfs`'s file system: before it lie the boot block, the superblock,
the log, the inode blocks and the bitmap block. -/
def DATASTART : Nat := mkfsSuperBlock.bmapstart + 1

/-- Block `b` is in use: its bit is set in the bitmap. -/
def used (disk : Nat → Block) (b : Nat) : Bool := !bitClear (disk BMAP) b

/-- The block `bmap` finds for block `bn` of the inode copy `ip` without allocating one: the
direct address, or the entry of the indirect block; zero where there is none. -/
def blockOf (disk : Nat → Block) (ip : Inode) (bn : Nat) : Nat :=
  if bn < NDIRECT then ip.addrs.getD bn 0
  else
    let ind := ip.addrs.getD NDIRECT 0
    if ind = 0 then 0 else blockField (disk ind) (4 * (bn - NDIRECT)) 4

theorem blockOf_eq (disk : Nat → Block) (ip : Inode) (bn : Nat) :
    blockOf disk ip bn =
      if bn < NDIRECT then ip.addrs.getD bn 0
      else if ip.addrs.getD NDIRECT 0 = 0 then 0
      else blockField (disk (ip.addrs.getD NDIRECT 0)) (4 * (bn - NDIRECT)) 4 := rfl

/-- Byte `k` of the inode's contents, where `readi` finds it. -/
def byteAt (disk : Nat → Block) (ip : Inode) (k : Nat) : UInt8 :=
  memOfVector (disk (blockOf disk ip (k / BSIZE))) (k % BSIZE)

theorem byteAt_eq (disk : Nat → Block) (ip : Inode) (k : Nat) :
    byteAt disk ip k = memOfVector (disk (blockOf disk ip (k / BSIZE))) (k % BSIZE) := rfl

/-- The first `len` bytes of the inode's contents. -/
def fileBytes (disk : Nat → Block) (ip : Inode) (len : Nat) : List UInt8 :=
  (List.range len).map (byteAt disk ip)

/-- The disk after `balloc` hands out block `b`: its bit set in the bitmap and the block zeroed. -/
def allocated (disk : Nat → Block) (b : Nat) : Nat → Block :=
  Function.update (Function.update disk BMAP (setBit (disk BMAP) b)) b zeroBlock

/-- The blocks holding the inode's first `nb` blocks, then its indirect block if it has one. -/
def ownedBlocks (disk : Nat → Block) (ip : Inode) (nb : Nat) : List Nat :=
  (List.range nb).map (blockOf disk ip) ++
    if ip.addrs.getD NDIRECT 0 = 0 then [] else [ip.addrs.getD NDIRECT 0]

/-- The first `nb` blocks of the inode copy `ip` are its own, as `balloc` and `bmap` keep them. -/
structure Owned (disk : Nat → Block) (ip : Inode) (nb : Nat) : Prop where
  /-- No file has more than `MAXFILE` blocks. -/
  nb_le : nb ≤ MAXFILE
  /-- The copy has its `NDIRECT + 1` addresses, as `ilock` reads them. -/
  length_addrs : ip.addrs.length = NDIRECT + 1
  /-- The blocks past the first `nb` are not mapped. -/
  unmapped : ∀ bn, nb ≤ bn → bn < MAXFILE → blockOf disk ip bn = 0
  /-- The indirect block exists when the blocks reach past the direct ones. -/
  indirect : NDIRECT < nb → ip.addrs.getD NDIRECT 0 ≠ 0
  /-- No block serves twice. -/
  nodup : (ownedBlocks disk ip nb).Nodup
  /-- The blocks are data blocks of the file system, marked in the bitmap. -/
  data : ∀ b ∈ ownedBlocks disk ip nb, DATASTART ≤ b ∧ b < FSSIZE ∧ used disk b = true
  /-- The blocks before the data blocks are marked in the bitmap. -/
  reserved : ∀ b < DATASTART, used disk b = true

section Owned

variable {disk : Nat → Block} {ip : Inode} {nb : Nat}

theorem mem_ownedBlocks_of_lt {bn : Nat} (h : bn < nb) :
    blockOf disk ip bn ∈ ownedBlocks disk ip nb :=
  List.mem_append_left _ (List.mem_map.mpr ⟨bn, List.mem_range.mpr h, rfl⟩)

theorem ind_mem_ownedBlocks (h : ip.addrs.getD NDIRECT 0 ≠ 0) :
    ip.addrs.getD NDIRECT 0 ∈ ownedBlocks disk ip nb := by
  rw [ownedBlocks, if_neg h]
  exact List.mem_append_right _ (List.mem_singleton_self _)

/-- A mapped block is a data block. -/
theorem Owned.datastart_le (hO : Owned disk ip nb) {bn : Nat} (h : bn < nb) :
    DATASTART ≤ blockOf disk ip bn :=
  (hO.data _ (mem_ownedBlocks_of_lt h)).1

/-- Different blocks of the file are in different blocks of the disk. -/
theorem Owned.blockOf_injective (hO : Owned disk ip nb) {bn bn' : Nat} (h : bn < nb)
    (h' : bn' < nb) (heq : blockOf disk ip bn = blockOf disk ip bn') : bn = bn' := by
  have hmap : ((List.range nb).map (blockOf disk ip)).Nodup := (List.nodup_append.mp hO.nodup).1
  exact List.inj_on_of_nodup_map hmap (List.mem_range.mpr h) (List.mem_range.mpr h') heq

/-- The indirect block holds no bytes of the file. -/
theorem Owned.blockOf_ne_ind (hO : Owned disk ip nb) {bn : Nat} (h : bn < nb)
    (hind : ip.addrs.getD NDIRECT 0 ≠ 0) : blockOf disk ip bn ≠ ip.addrs.getD NDIRECT 0 := by
  have hdisj := (List.nodup_append.mp hO.nodup).2.2
  intro heq
  refine hdisj _ (List.mem_map.mpr ⟨bn, List.mem_range.mpr h, rfl⟩) _ ?_ heq
  rw [if_neg hind]
  exact List.mem_singleton_self _

/-- A block out of use is none of the file's. -/
theorem Owned.not_mem_of_unused (hO : Owned disk ip nb) {b : Nat} (hb : used disk b = false) :
    b ∉ ownedBlocks disk ip nb := fun hmem => by
  rw [(hO.data b hmem).2.2] at hb
  cases hb

/-- A block out of use is a data block. -/
theorem Owned.datastart_le_of_unused (hO : Owned disk ip nb) {b : Nat} (hb : used disk b = false) :
    DATASTART ≤ b := by
  by_contra hlt
  rw [hO.reserved b (by omega)] at hb
  cases hb

/-- The blocks depend on the disk only through the mappings. -/
theorem ownedBlocks_congr {disk' : Nat → Block} (hmap : ∀ bn, blockOf disk' ip bn = blockOf disk ip bn) :
    ownedBlocks disk' ip nb = ownedBlocks disk ip nb := by
  rw [ownedBlocks, ownedBlocks, funext hmap]

/-- `Owned` reads the disk only through the mappings and the marks: it survives a change that
keeps every mapping and every mark. -/
theorem Owned.mono (hO : Owned disk ip nb) {disk' : Nat → Block}
    (hmap : ∀ bn, blockOf disk' ip bn = blockOf disk ip bn)
    (hused : ∀ b < FSSIZE, used disk b = true → used disk' b = true) : Owned disk' ip nb := by
  have hblocks : ownedBlocks disk' ip nb = ownedBlocks disk ip nb := ownedBlocks_congr hmap
  refine ⟨hO.nb_le, hO.length_addrs, fun bn h h' => ?_, hO.indirect, ?_, fun b hb => ?_,
    fun b hb => ?_⟩
  · rw [hmap]
    exact hO.unmapped bn h h'
  · rw [hblocks]
    exact hO.nodup
  · rw [hblocks] at hb
    obtain ⟨hlo, hhi, hu⟩ := hO.data b hb
    exact ⟨hlo, hhi, hused b hhi hu⟩
  · have hlt : b < FSSIZE := lt_of_lt_of_le hb (by decide)
    exact hused b hlt (hO.reserved b hb)

/-- A mapping reads the disk only at the indirect block. -/
theorem blockOf_update {b : Nat} (hb : ip.addrs.getD NDIRECT 0 ≠ 0 → ip.addrs.getD NDIRECT 0 ≠ b)
    (d : Block) (bn : Nat) : blockOf (Function.update disk b d) ip bn = blockOf disk ip bn := by
  simp only [blockOf_eq]
  split_ifs with hbn hind
  · rfl
  · rfl
  · rw [Function.update_of_ne (hb hind)]

/-- The marks are in the bitmap block. -/
theorem used_update {b : Nat} (hb : b ≠ BMAP) (d : Block) :
    used (Function.update disk b d) = used disk := by
  funext x
  simp only [used, Function.update_of_ne (Ne.symm hb)]

/-- A write of a block that is none of the file's and not the bitmap keeps the file's mappings. -/
theorem blockOf_setBlock_other {b : Nat} (hb : b ∉ ownedBlocks disk ip nb) (d : Block) (bn : Nat) :
    blockOf (Function.update disk b d) ip bn = blockOf disk ip bn :=
  blockOf_update (fun hind heq => hb (by rw [← heq]; exact ind_mem_ownedBlocks hind)) d bn

/-- A write of a block that is none of the file's and not the bitmap keeps the file's blocks. -/
theorem Owned.setBlock_other (hO : Owned disk ip nb) {b : Nat} (hb : b ∉ ownedBlocks disk ip nb)
    (hbmap : b ≠ BMAP) (d : Block) : Owned (Function.update disk b d) ip nb :=
  hO.mono (blockOf_setBlock_other hb d) fun x _ hx => by rwa [used_update hbmap]

/-- A write of a block that is none of the file's keeps the file's bytes. -/
theorem byteAt_setBlock_other {b : Nat} (hb : b ∉ ownedBlocks disk ip nb) (d : Block) {k : Nat} (hk : k < nb * BSIZE) :
    byteAt (Function.update disk b d) ip k = byteAt disk ip k := by
  have hbn : k / BSIZE < nb := Nat.div_lt_of_lt_mul (by rwa [Nat.mul_comm])
  have hne : blockOf disk ip (k / BSIZE) ≠ b := fun heq => hb (by
    rw [← heq]
    exact mem_ownedBlocks_of_lt hbn)
  rw [byteAt_eq, byteAt_eq, blockOf_setBlock_other hb, Function.update_of_ne hne]

/-- Setting the bit of block `b` marks it and keeps the other marks. -/
theorem used_setBit {b : Nat} (hb : b < BPB) (x : Nat) (hx : x < BPB) :
    used (Function.update disk BMAP (setBit (disk BMAP) b)) x = (used disk x || x == b) := by
  simp only [used, Function.update_self]
  by_cases hxb : x = b
  · subst hxb
    simp [bitClear_setBit_self _ hb]
  · simp [bitClear_setBit_of_ne _ hx hxb, hxb]

/-- Setting a bit of the bitmap keeps the file's blocks. -/
theorem Owned.mark (hO : Owned disk ip nb) {b : Nat} (hb : b < BPB) :
    Owned (Function.update disk BMAP (setBit (disk BMAP) b)) ip nb := by
  -- the bitmap block is none of the file's
  have hbmap : BMAP ∉ ownedBlocks disk ip nb := fun hmem => by
    have := (hO.data BMAP hmem).1
    exact absurd this (by decide)
  have hlt : ∀ x < FSSIZE, x < BPB := fun x hx => lt_of_lt_of_le hx (by decide)
  refine hO.mono (blockOf_setBlock_other hbmap _) fun x hx hu => ?_
  rw [used_setBit hb x (hlt x hx), hu, Bool.true_or]

/-- The blocks of one more mapped block: the old ones and the new one. -/
theorem ownedBlocks_succ_perm {disk' : Nat → Block} {ip' : Inode}
    (hmap : ∀ bn < nb, blockOf disk' ip' bn = blockOf disk ip bn)
    (hind : ip'.addrs.getD NDIRECT 0 = ip.addrs.getD NDIRECT 0) :
    (ownedBlocks disk' ip' (nb + 1)).Perm (ownedBlocks disk ip nb ++ [blockOf disk' ip' nb]) := by
  have hprefix : (List.range nb).map (blockOf disk' ip') = (List.range nb).map (blockOf disk ip) :=
    List.map_congr_left fun bn hbn => hmap bn (List.mem_range.mp hbn)
  rw [ownedBlocks, ownedBlocks, List.range_succ, List.map_append, hprefix, hind, List.map_singleton,
    List.append_assoc, List.append_assoc]
  exact List.perm_append_comm.append_left _

/-- One more block mapped, to a fresh data block, with every other mapping kept. -/
theorem Owned.extend (hO : Owned disk ip nb) {disk' : Nat → Block} {ip' : Inode} {b : Nat}
    (hnb : nb < MAXFILE) (hlen : ip'.addrs.length = NDIRECT + 1)
    (hmap : ∀ bn, bn ≠ nb → bn < MAXFILE → blockOf disk' ip' bn = blockOf disk ip bn)
    (hind : ip'.addrs.getD NDIRECT 0 = ip.addrs.getD NDIRECT 0)
    (hindirect : NDIRECT < nb + 1 → ip'.addrs.getD NDIRECT 0 ≠ 0)
    (hnew : blockOf disk' ip' nb = b) (hfresh : b ∉ ownedBlocks disk ip nb)
    (hdata : DATASTART ≤ b ∧ b < FSSIZE ∧ used disk' b = true)
    (hused : ∀ x < FSSIZE, used disk x = true → used disk' x = true) :
    Owned disk' ip' (nb + 1) := by
  have hperm : (ownedBlocks disk' ip' (nb + 1)).Perm (ownedBlocks disk ip nb ++ [b]) := by
    rw [← hnew]
    exact ownedBlocks_succ_perm (fun bn hbn => hmap bn (by omega) (by omega)) hind
  refine ⟨hnb, hlen, fun bn h h' => ?_, hindirect, ?_, fun x hx => ?_, fun x hx => ?_⟩
  · rw [hmap bn (by omega) h']
    exact hO.unmapped bn (by omega) h'
  · refine hperm.nodup_iff.mpr (List.nodup_append.mpr ⟨hO.nodup, List.nodup_singleton b, ?_⟩)
    intro x hx y hy hxy
    rw [List.mem_singleton] at hy
    rw [hxy, hy] at hx
    exact hfresh hx
  · rcases List.mem_append.mp (hperm.mem_iff.mp hx) with hx | hx
    · obtain ⟨hlo, hhi, hu⟩ := hO.data x hx
      exact ⟨hlo, hhi, hused x hhi hu⟩
    · rw [List.mem_singleton] at hx
      exact hx ▸ hdata
  · exact hused x (lt_of_lt_of_le hx (by decide)) (hO.reserved x hx)

/-- A change of a direct address below `NDIRECT` changes only that block's mapping. -/
theorem blockOf_setDirect {a : Nat} (ha : a < NDIRECT) (hlen : ip.addrs.length = NDIRECT + 1)
    (b bn : Nat) :
    blockOf disk { ip with addrs := ip.addrs.set a b } bn =
      if bn = a then b else blockOf disk ip bn := by
  have hind : (ip.addrs.set a b).getD NDIRECT 0 = ip.addrs.getD NDIRECT 0 := by
    simp [Nat.ne_of_lt ha]
  simp only [blockOf_eq]
  rw [hind]
  by_cases hbn : bn = a
  · subst hbn
    have hlt : bn < NDIRECT + 1 := by omega
    rw [if_pos ha, if_pos rfl]
    simp [hlen, hlt]
  · simp [hbn, Ne.symm hbn]

/-- `balloc`'s marking and zeroing keeps the file's blocks and bytes, and hands out a block that
is none of them. -/
theorem Owned.alloc (hO : Owned disk ip nb) {b : Nat} (hb : b < FSSIZE)
    (hfree : used disk b = false) :
    Owned (allocated disk b) ip nb ∧ (∀ bn, blockOf (allocated disk b) ip bn = blockOf disk ip bn) ∧
      (∀ k < nb * BSIZE, byteAt (allocated disk b) ip k = byteAt disk ip k) ∧
      b ∉ ownedBlocks (allocated disk b) ip nb ∧ DATASTART ≤ b ∧ used (allocated disk b) b = true := by
  have hBPB : b < BPB := lt_of_lt_of_le hb (by decide)
  have hfresh := hO.not_mem_of_unused hfree
  have hdata := hO.datastart_le_of_unused hfree
  have hbmap : BMAP ∉ ownedBlocks disk ip nb := fun hmem =>
    absurd (hO.data BMAP hmem).1 (by decide)
  have hne : b ≠ BMAP := by
    unfold DATASTART at hdata
    unfold BMAP
    omega
  -- first the bit, then the zeroing
  have hO₁ := hO.mark hBPB
  have hmap₁ : ∀ bn, blockOf (Function.update disk BMAP (setBit (disk BMAP) b)) ip bn =
      blockOf disk ip bn := blockOf_setBlock_other hbmap _
  have hfresh₁ : b ∉ ownedBlocks (Function.update disk BMAP (setBit (disk BMAP) b)) ip nb := by
    rw [ownedBlocks_congr hmap₁]
    exact hfresh
  have hmap₂ := blockOf_setBlock_other hfresh₁ zeroBlock
  have hmap : ∀ bn, blockOf (allocated disk b) ip bn = blockOf disk ip bn := fun bn => by
    rw [allocated, hmap₂, hmap₁]
  refine ⟨hO₁.setBlock_other hfresh₁ hne zeroBlock, hmap, fun k hk => ?_, ?_, hdata, ?_⟩
  · rw [allocated, byteAt_setBlock_other hfresh₁ _ hk, byteAt_setBlock_other hbmap _ hk]
  · rw [ownedBlocks_congr hmap]
    exact hfresh
  · rw [allocated, used_update hne, used_setBit hBPB b hBPB]
    simp

/-- The mappings of the blocks below `NDIRECT` do not read the indirect block. -/
theorem blockOf_of_lt {disk' : Nat → Block} {ip' : Inode} {bn : Nat} (hbn : bn < NDIRECT)
    (h : ip'.addrs.getD bn 0 = ip.addrs.getD bn 0) : blockOf disk' ip' bn = blockOf disk ip bn := by
  simp only [blockOf_eq, if_pos hbn, h]

/-- A fresh zeroed block made the indirect block of a file of `NDIRECT` blocks that has none. -/
theorem Owned.setIndirect (hO : Owned disk ip NDIRECT) (hind0 : ip.addrs.getD NDIRECT 0 = 0)
    {c : Nat} (hzero : disk c = zeroBlock) (hfresh : c ∉ ownedBlocks disk ip NDIRECT)
    (hdata : DATASTART ≤ c ∧ c < FSSIZE ∧ used disk c = true) :
    Owned disk { ip with addrs := ip.addrs.set NDIRECT c } NDIRECT ∧
      ∀ bn < NDIRECT, blockOf disk { ip with addrs := ip.addrs.set NDIRECT c } bn =
        blockOf disk ip bn := by
  have hc0 : c ≠ 0 := by
    have : 0 < DATASTART := by decide
    omega
  have hind : (ip.addrs.set NDIRECT c).getD NDIRECT 0 = c := by
    simp [hO.length_addrs]
  have hdirect : ∀ bn < NDIRECT,
      blockOf disk { ip with addrs := ip.addrs.set NDIRECT c } bn = blockOf disk ip bn :=
    fun bn hbn => blockOf_of_lt hbn (by simp [(Nat.ne_of_lt hbn).symm])
  -- the entries of the zeroed block map nothing
  have hentries : ∀ bn, NDIRECT ≤ bn →
      blockOf disk { ip with addrs := ip.addrs.set NDIRECT c } bn = 0 := by
    intro bn hbn
    simp only [blockOf_eq, if_neg (Nat.not_lt.mpr hbn), hind, if_neg hc0, hzero, blockField_zeroBlock]
  have hblocks : ownedBlocks disk { ip with addrs := ip.addrs.set NDIRECT c } NDIRECT =
      ownedBlocks disk ip NDIRECT ++ [c] := by
    have hprefix : (List.range NDIRECT).map (blockOf disk { ip with addrs := ip.addrs.set NDIRECT c }) =
        (List.range NDIRECT).map (blockOf disk ip) :=
      List.map_congr_left fun bn hbn => hdirect bn (List.mem_range.mp hbn)
    simp only [ownedBlocks, hprefix, hind, if_neg hc0, hind0, if_pos, List.append_nil]
  refine ⟨⟨le_of_lt (by decide), by simp [hO.length_addrs], fun bn h _ => hentries bn h,
    fun h => absurd h (lt_irrefl _), ?_, fun b hb => ?_, hO.reserved⟩, hdirect⟩
  · rw [hblocks]
    refine List.nodup_append.mpr ⟨hO.nodup, List.nodup_singleton c, ?_⟩
    intro x hx y hy hxy
    rw [List.mem_singleton] at hy
    rw [hxy, hy] at hx
    exact hfresh hx
  · rw [hblocks] at hb
    rcases List.mem_append.mp hb with hb | hb
    · exact hO.data b hb
    · rw [List.mem_singleton] at hb
      exact hb ▸ hdata

/-- A fresh data block entered in the existing indirect block, as block `nb` of the file. -/
theorem Owned.mapIndirect (hO : Owned disk ip nb) (hlo : NDIRECT ≤ nb) (hnb : nb < MAXFILE)
    (hind : ip.addrs.getD NDIRECT 0 ≠ 0) {b : Nat} (hfresh : b ∉ ownedBlocks disk ip nb)
    (hdata : DATASTART ≤ b ∧ b < FSSIZE ∧ used disk b = true) :
    Owned (Function.update disk (ip.addrs.getD NDIRECT 0)
        (setBlockField (disk (ip.addrs.getD NDIRECT 0)) (4 * (nb - NDIRECT)) 4 b)) ip (nb + 1) ∧
      blockOf (Function.update disk (ip.addrs.getD NDIRECT 0)
        (setBlockField (disk (ip.addrs.getD NDIRECT 0)) (4 * (nb - NDIRECT)) 4 b)) ip nb = b ∧
      ∀ k < nb * BSIZE, byteAt (Function.update disk (ip.addrs.getD NDIRECT 0)
        (setBlockField (disk (ip.addrs.getD NDIRECT 0)) (4 * (nb - NDIRECT)) 4 b)) ip k =
          byteAt disk ip k := by
  have hMAX : MAXFILE = NDIRECT + 128 := rfl
  have hBSIZE : BSIZE = 512 := rfl
  have hindmem : ip.addrs.getD NDIRECT 0 ∈ ownedBlocks disk ip nb := ind_mem_ownedBlocks hind
  have hbmap : ip.addrs.getD NDIRECT 0 ≠ BMAP := by
    have := (hO.data _ hindmem).1
    unfold DATASTART at this
    unfold BMAP
    omega
  have hb256 : b < 256 ^ 4 := lt_of_lt_of_le hdata.2.1 (by decide)
  -- the new entry, and the entries beside it
  have hnew : blockOf (Function.update disk (ip.addrs.getD NDIRECT 0)
      (setBlockField (disk (ip.addrs.getD NDIRECT 0)) (4 * (nb - NDIRECT)) 4 b)) ip nb = b := by
    simp only [blockOf_eq, if_neg (Nat.not_lt.mpr hlo), if_neg hind, Function.update_self]
    exact blockField_setBlockField _ (by omega) hb256
  have hmap : ∀ bn, bn ≠ nb → bn < MAXFILE →
      blockOf (Function.update disk (ip.addrs.getD NDIRECT 0)
        (setBlockField (disk (ip.addrs.getD NDIRECT 0)) (4 * (nb - NDIRECT)) 4 b)) ip bn =
        blockOf disk ip bn := by
    intro bn hne hbn
    by_cases hlt : bn < NDIRECT
    · exact blockOf_of_lt hlt rfl
    · simp only [blockOf_eq, if_neg hlt, if_neg hind, Function.update_self]
      exact blockField_setBlockField_of_disjoint _ (by omega) (by omega)
  have hused : ∀ x < FSSIZE, used disk x = true → used (Function.update disk
      (ip.addrs.getD NDIRECT 0) (setBlockField (disk (ip.addrs.getD NDIRECT 0))
        (4 * (nb - NDIRECT)) 4 b)) x = true := fun x _ hx => by rwa [used_update hbmap]
  refine ⟨hO.extend hnb hO.length_addrs hmap rfl (fun _ => hind) hnew hfresh
    ⟨hdata.1, hdata.2.1, hused b hdata.2.1 hdata.2.2⟩ hused, hnew, fun k hk => ?_⟩
  have hbn : k / BSIZE < nb := Nat.div_lt_of_lt_mul (by rwa [Nat.mul_comm])
  have hne := hO.blockOf_ne_ind hbn hind
  rw [byteAt_eq, byteAt_eq, hmap _ (Nat.ne_of_lt hbn) (by omega), Function.update_of_ne hne]

/-- A byte is kept where its block is mapped to the same block, holding the same data. -/
theorem byteAt_congr {disk' : Nat → Block} {ip' : Inode} {k : Nat}
    (hmap : blockOf disk' ip' (k / BSIZE) = blockOf disk ip (k / BSIZE))
    (hdata : disk' (blockOf disk ip (k / BSIZE)) = disk (blockOf disk ip (k / BSIZE))) :
    byteAt disk' ip' k = byteAt disk ip k := by
  rw [byteAt_eq, byteAt_eq, hmap, hdata]

/-- `bmap`'s direct case: a block from `balloc` entered as direct block `nb`. -/
theorem Owned.allocDirect (hO : Owned disk ip nb) (hnb : nb < NDIRECT) {b : Nat} (hb : b < FSSIZE)
    (hfree : used disk b = false) :
    Owned (allocated disk b) { ip with addrs := ip.addrs.set nb b } (nb + 1) ∧
      blockOf (allocated disk b) { ip with addrs := ip.addrs.set nb b } nb = b ∧
      ∀ k < nb * BSIZE, byteAt (allocated disk b) { ip with addrs := ip.addrs.set nb b } k =
        byteAt disk ip k := by
  obtain ⟨hO₁, hmap₁, hbytes₁, hfresh, hdata, hused⟩ := hO.alloc hb hfree
  have hmap : ∀ bn, blockOf (allocated disk b) { ip with addrs := ip.addrs.set nb b } bn =
      if bn = nb then b else blockOf (allocated disk b) ip bn :=
    blockOf_setDirect hnb hO.length_addrs b
  have hnew : blockOf (allocated disk b) { ip with addrs := ip.addrs.set nb b } nb = b := by
    rw [hmap, if_pos rfl]
  have hind : (ip.addrs.set nb b).getD NDIRECT 0 = ip.addrs.getD NDIRECT 0 := by
    simp [Nat.ne_of_lt hnb]
  have hMAX : MAXFILE = NDIRECT + 128 := rfl
  refine ⟨hO₁.extend (by omega) (by simp [hO.length_addrs])
    (fun bn hne _ => by rw [hmap, if_neg hne]) hind (fun h => absurd h (by omega)) hnew hfresh
    ⟨hdata, hb, hused⟩ (fun _ _ hx => hx), hnew, fun k hk => ?_⟩
  have hbn : k / BSIZE < nb := Nat.div_lt_of_lt_mul (by rwa [Nat.mul_comm])
  rw [← hbytes₁ k hk]
  exact byteAt_congr (by rw [hmap, if_neg (Nat.ne_of_lt hbn)]) rfl

/-- `bmap`'s first indirect case: a block from `balloc` made the indirect block of a file of
`NDIRECT` blocks. -/
theorem Owned.allocIndirect (hO : Owned disk ip NDIRECT) (hind0 : ip.addrs.getD NDIRECT 0 = 0)
    {c : Nat} (hc : c < FSSIZE) (hfree : used disk c = false) :
    Owned (allocated disk c) { ip with addrs := ip.addrs.set NDIRECT c } NDIRECT ∧
      (ip.addrs.set NDIRECT c).getD NDIRECT 0 = c ∧ c ≠ 0 ∧
      ∀ k < NDIRECT * BSIZE,
        byteAt (allocated disk c) { ip with addrs := ip.addrs.set NDIRECT c } k = byteAt disk ip k := by
  obtain ⟨hO₁, -, hbytes₁, hfresh, hdata, hused⟩ := hO.alloc hc hfree
  have hzero : allocated disk c c = zeroBlock := Function.update_self _ _ _
  obtain ⟨hO₂, hdirect⟩ := hO₁.setIndirect hind0 hzero hfresh ⟨hdata, hc, hused⟩
  have hc0 : c ≠ 0 := by
    have : 0 < DATASTART := by decide
    omega
  refine ⟨hO₂, by simp [hO.length_addrs], hc0, fun k hk => ?_⟩
  have hbn : k / BSIZE < NDIRECT := Nat.div_lt_of_lt_mul (by rwa [Nat.mul_comm])
  rw [← hbytes₁ k hk]
  exact byteAt_congr (hdirect _ hbn) rfl

/-- `bmap`'s second indirect case: a block from `balloc` entered in the indirect block as block
`nb` of the file. -/
theorem Owned.allocMapIndirect (hO : Owned disk ip nb) (hlo : NDIRECT ≤ nb) (hnb : nb < MAXFILE)
    (hind : ip.addrs.getD NDIRECT 0 ≠ 0) {b : Nat} (hb : b < FSSIZE)
    (hfree : used disk b = false) :
    Owned (Function.update (allocated disk b) (ip.addrs.getD NDIRECT 0)
        (setBlockField (allocated disk b (ip.addrs.getD NDIRECT 0)) (4 * (nb - NDIRECT)) 4 b))
        ip (nb + 1) ∧
      blockOf (Function.update (allocated disk b) (ip.addrs.getD NDIRECT 0)
        (setBlockField (allocated disk b (ip.addrs.getD NDIRECT 0)) (4 * (nb - NDIRECT)) 4 b))
        ip nb = b ∧
      ∀ k < nb * BSIZE, byteAt (Function.update (allocated disk b) (ip.addrs.getD NDIRECT 0)
        (setBlockField (allocated disk b (ip.addrs.getD NDIRECT 0)) (4 * (nb - NDIRECT)) 4 b))
        ip k = byteAt disk ip k := by
  obtain ⟨hO₁, -, hbytes₁, hfresh, hdata, hused⟩ := hO.alloc hb hfree
  obtain ⟨hO₂, hnew, hbytes₂⟩ := hO₁.mapIndirect hlo hnb hind hfresh ⟨hdata, hb, hused⟩
  exact ⟨hO₂, hnew, fun k hk => by rw [hbytes₂ k hk, hbytes₁ k hk]⟩

end Owned

/-! ## The allocator -/

section Steps

variable {s s' : FsState}

theorem setBlock_run (b : Nat) (d : Block) (s : FsState) :
    (setBlock b d).run s = .ok ((), { s with disk := Function.update s.disk b d }) := rfl

/-- `t` is `s` with other blocks, other addresses of inode `i` and a longer log: what `bmap` and
`writei`'s loop may change. -/
def Remaps (i : Nat) (s t : FsState) : Prop :=
  ∃ disk addrs log written,
    t = { s with disk, icache := Function.update s.icache i { s.icache i with addrs }, log, written }

theorem Remaps.refl (i : Nat) (s : FsState) : Remaps i s s :=
  ⟨s.disk, (s.icache i).addrs, s.log, s.written, by simp⟩

theorem Remaps.trans {i : Nat} {t u : FsState} (h₁ : Remaps i s t) (h₂ : Remaps i t u) :
    Remaps i s u := by
  obtain ⟨d, a, l, w, rfl⟩ := h₁
  obtain ⟨d', a', l', w', rfl⟩ := h₂
  exact ⟨d', a', l', w', by simp⟩

theorem Remaps.sb_eq {i : Nat} {t : FsState} (h : Remaps i s t) : t.sb = s.sb := by
  obtain ⟨_, _, _, _, rfl⟩ := h
  rfl

theorem Remaps.setDisk (i : Nat) (s : FsState) (disk : Nat → Block) (log : Log)
    (written : List (List Nat)) : Remaps i s { s with disk, log, written } :=
  ⟨disk, (s.icache i).addrs, log, written, by simp⟩

theorem Remaps.setAddrs (i : Nat) (s : FsState) (addrs : List Nat) :
    Remaps i s { s with icache := Function.update s.icache i { s.icache i with addrs } } :=
  ⟨s.disk, addrs, s.log, s.written, rfl⟩

/-- `log_write` changes only the log and the trace. -/
theorem log_write_ok {b : Nat} {a : Unit} (h : (log_write b).run s = .ok (a, s')) :
    ∃ log written, s' = { s with log, written } := by
  rw [log_write_run, Outcome.bind_eq_ok] at h
  obtain ⟨log, -, h⟩ := h
  cases h
  exact ⟨log, _, rfl⟩

/-- `bzero` zeroes the block. -/
theorem bzero_ok {b : Nat} {a : Unit} (h : (bzero b).run s = .ok (a, s')) :
    ∃ log written, s' = { s with disk := Function.update s.disk b zeroBlock, log, written } := by
  obtain ⟨_, s₁, h₁, h₂⟩ := run_bind_eq_ok.mp h
  rw [setBlock_run] at h₁
  cases h₁
  obtain ⟨log, written, rfl⟩ := log_write_ok h₂
  exact ⟨log, written, rfl⟩

/-- The bit the inner loop of `balloc` finds is a clear one, of a block below the size. -/
theorem freeBit_spec {data : Block} {b size bi : Nat} (h : freeBit data b size = some bi) :
    bi < BPB ∧ b + bi < size ∧ bitClear data bi = true := by
  unfold freeBit at h
  have hmem := List.mem_range.mp (List.mem_of_find?_eq_some h)
  have hsat := List.find?_some h
  simp only [Bool.and_eq_true, decide_eq_true_eq] at hsat
  exact ⟨hmem, hsat⟩

/-- A turn of `balloc`'s outer loop that completes: it found a clear bit `bi`, set it, logged the
bitmap block and zeroed block `b + bi`. -/
theorem ballocLoop_singleton_spec {b r : Nat} (h : (ballocLoop [b]).run s = .ok (r, s')) :
    ∃ bi, freeBit (s.disk (BBLOCK b s.sb)) b s.sb.size = some bi ∧ r = b + bi ∧
      ∃ log written, s' = { s with
        disk := Function.update (Function.update s.disk (BBLOCK b s.sb)
          (setBit (s.disk (BBLOCK b s.sb)) bi)) (b + bi) zeroBlock, log, written } := by
  rw [ballocLoop] at h
  obtain ⟨_, s₀, h₀, h⟩ := run_bind_eq_ok.mp h
  cases h₀
  dsimp only at h
  split at h
  · rename_i bi hfree
    obtain ⟨_, s₁, h₁, h⟩ := run_bind_eq_ok.mp h
    rw [setBlock_run] at h₁
    cases h₁
    obtain ⟨_, s₂, h₂, h⟩ := run_bind_eq_ok.mp h
    obtain ⟨log₂, written₂, rfl⟩ := log_write_ok h₂
    obtain ⟨_, s₃, h₃, h⟩ := run_bind_eq_ok.mp h
    obtain ⟨log₃, written₃, rfl⟩ := bzero_ok h₃
    cases h
    exact ⟨bi, hfree, rfl, log₃, written₃, rfl⟩
  · -- no clear bit: the loop runs out of blocks
    rw [ballocLoop] at h
    cases h

/-- `balloc` on `mkfs`'s file system marks a block that was out of use, and zeroes it. -/
theorem balloc_spec {b : Nat} (hsb : s.sb = mkfsSuperBlock) (h : balloc.run s = .ok (b, s')) :
    b < FSSIZE ∧ used s.disk b = false ∧
      ∃ log written, s' = { s with disk := allocated s.disk b, log, written } := by
  -- `mkfs` makes one bitmap block, so the outer loop has one turn
  have hscan : (List.range ((s.sb.size + BPB - 1) / BPB)).map (· * BPB) = [0] := by
    rw [hsb]
    rfl
  have hbblock : BBLOCK 0 s.sb = BMAP := by
    rw [hsb]
    rfl
  obtain ⟨_, s₀, h₀, h⟩ := run_bind_eq_ok.mp h
  cases h₀
  rw [hscan] at h
  obtain ⟨bi, hfree, rfl, log, written, rfl⟩ := ballocLoop_singleton_spec h
  rw [hbblock] at hfree
  obtain ⟨-, hsize, hclear⟩ := freeBit_spec hfree
  rw [hsb] at hsize
  have hlt : 0 + bi < FSSIZE := hsize
  refine ⟨hlt, by simpa [used] using hclear, log, written, ?_⟩
  rw [hbblock, Nat.zero_add, allocated]

/-- The start of `bmap`'s indirect case: the indirect block of inode `i`, allocated if it has
none. -/
def bmapInd (i : Nat) (ip : Inode) : FsM Nat := do
  let ind := ip.addrs.getD NDIRECT 0
  if ind == 0 then do
    let ind ← balloc
    modifyInode i fun ip => { ip with addrs := ip.addrs.set NDIRECT ind }
    pure ind
  else pure ind

/-- The end of `bmap`'s indirect case: the entry of block `bn` in the indirect block `ind`,
allocated if it is zero. -/
def bmapEntry (ind bn : Nat) : FsM Nat := do
  let addr := blockField ((← get).disk ind) (4 * (bn - NDIRECT)) 4
  if addr == 0 then do
    let addr ← balloc
    setBlock ind (setBlockField ((← get).disk ind) (4 * (bn - NDIRECT)) 4 addr)
    log_write ind
    pure addr
  else pure addr

/-- `bmap`'s indirect case is its two halves in turn. -/
theorem bmap_indirect {i bn : Nat} (hdir : ¬ bn < NDIRECT) (hrange : bn - NDIRECT < NINDIRECT) :
    bmap i bn = (do
      let ip ← getInode i
      let ind ← bmapInd i ip
      bmapEntry ind bn) := by
  simp only [bmap, if_neg hdir, if_pos hrange, bmapInd, bmapEntry]
  congr 1
  funext ip
  split <;> simp

/-- `bmap`'s direct case: block `bn` of a file of `nb` blocks, up to the next one. -/
theorem bmap_direct_spec {i bn nb b : Nat} (hsb : s.sb = mkfsSuperBlock)
    (hO : Owned s.disk (s.icache i) nb) (hdir : bn < NDIRECT) (hbn : bn ≤ nb)
    (h : (bmap i bn).run s = .ok (b, s')) :
    Remaps i s s' ∧ Owned s'.disk (s'.icache i) (max nb (bn + 1)) ∧
      blockOf s'.disk (s'.icache i) bn = b ∧
      ∀ k < nb * BSIZE, byteAt s'.disk (s'.icache i) k = byteAt s.disk (s.icache i) k := by
  obtain ⟨ip, s₀, h₀, h⟩ := run_bind_eq_ok.mp h
  cases h₀
  rw [if_pos hdir] at h
  by_cases h0 : (s.icache i).addrs.getD bn 0 = 0
  · -- block `bn` is not mapped, so it is block `nb`
    have hnb : bn = nb := by
      by_contra hne
      have hlo := hO.datastart_le (lt_of_le_of_ne hbn hne)
      rw [blockOf_eq, if_pos hdir, h0] at hlo
      exact absurd hlo (by decide)
    subst hnb
    rw [if_pos (beq_iff_eq.mpr h0)] at h
    obtain ⟨c, s₁, h₁, h⟩ := run_bind_eq_ok.mp h
    obtain ⟨hc, hfree, log, written, rfl⟩ := balloc_spec hsb h₁
    obtain ⟨_, s₂, h₂, h⟩ := run_bind_eq_ok.mp h
    cases h₂
    cases h
    obtain ⟨hO', hnew, hbytes⟩ := hO.allocDirect hdir hc hfree
    have hmax : max bn (bn + 1) = bn + 1 := by omega
    refine ⟨(Remaps.setDisk i s _ log written).trans (Remaps.setAddrs i _ _), ?_, ?_, ?_⟩
    · simpa [hmax] using hO'
    · simpa using hnew
    · simpa using hbytes
  · -- block `bn` is mapped, so it is one of the first `nb`
    rw [if_neg (by rw [beq_iff_eq]; exact h0)] at h
    cases h
    have hlt : bn < nb := by
      by_contra hle
      exact h0 (by simpa [blockOf_eq, hdir] using
        hO.unmapped bn (by omega) (lt_of_lt_of_le hdir (by decide)))
    have hmax : max nb (bn + 1) = nb := by omega
    refine ⟨Remaps.refl i s, by rw [hmax]; exact hO, by simp [blockOf_eq, hdir], fun _ _ => rfl⟩

/-- The start of `bmap`'s indirect case: the indirect block is there, allocated fresh for a file
of `NDIRECT` blocks that had none. -/
theorem bmapInd_spec {i nb ind : Nat} (hsb : s.sb = mkfsSuperBlock)
    (hO : Owned s.disk (s.icache i) nb) (hnb : NDIRECT ≤ nb)
    (h : (bmapInd i (s.icache i)).run s = .ok (ind, s')) :
    Remaps i s s' ∧ Owned s'.disk (s'.icache i) nb ∧ (s'.icache i).addrs.getD NDIRECT 0 = ind ∧
      ind ≠ 0 ∧ ∀ k < nb * BSIZE, byteAt s'.disk (s'.icache i) k = byteAt s.disk (s.icache i) k := by
  unfold bmapInd at h
  by_cases h0 : (s.icache i).addrs.getD NDIRECT 0 = 0
  · -- no indirect block yet, so the file has exactly `NDIRECT` blocks
    have hnb' : nb = NDIRECT := by
      by_contra hne
      exact hO.indirect (by omega) h0
    subst hnb'
    rw [if_pos (beq_iff_eq.mpr h0)] at h
    obtain ⟨c, s₁, h₁, h⟩ := run_bind_eq_ok.mp h
    obtain ⟨hc, hfree, log, written, rfl⟩ := balloc_spec hsb h₁
    obtain ⟨_, s₂, h₂, h⟩ := run_bind_eq_ok.mp h
    cases h₂
    cases h
    obtain ⟨hO', hind, hc0, hbytes⟩ := hO.allocIndirect h0 hc hfree
    refine ⟨(Remaps.setDisk i s _ log written).trans (Remaps.setAddrs i _ _), ?_, ?_, hc0, ?_⟩
    · simpa using hO'
    · simpa using hind
    · simpa using hbytes
  · rw [if_neg (by rw [beq_iff_eq]; exact h0)] at h
    cases h
    exact ⟨Remaps.refl i s, hO, rfl, h0, fun _ _ => rfl⟩

/-- The end of `bmap`'s indirect case: block `bn` of a file of `nb` blocks, up to the next one,
through the indirect block `ind`. -/
theorem bmapEntry_spec {i nb ind bn b : Nat} (hsb : s.sb = mkfsSuperBlock)
    (hO : Owned s.disk (s.icache i) nb) (hind : (s.icache i).addrs.getD NDIRECT 0 = ind)
    (hne : ind ≠ 0) (hlo : NDIRECT ≤ bn) (hbn : bn ≤ nb) (hmax : bn < MAXFILE)
    (h : (bmapEntry ind bn).run s = .ok (b, s')) :
    Remaps i s s' ∧ Owned s'.disk (s'.icache i) (max nb (bn + 1)) ∧
      blockOf s'.disk (s'.icache i) bn = b ∧
      ∀ k < nb * BSIZE, byteAt s'.disk (s'.icache i) k = byteAt s.disk (s.icache i) k := by
  subst hind
  have hentry : blockField (s.disk ((s.icache i).addrs.getD NDIRECT 0)) (4 * (bn - NDIRECT)) 4 =
      blockOf s.disk (s.icache i) bn := by
    simp only [blockOf_eq, if_neg (Nat.not_lt.mpr hlo), if_neg hne]
  unfold bmapEntry at h
  obtain ⟨_, s₀, h₀, h⟩ := run_bind_eq_ok.mp h
  cases h₀
  by_cases h0 : blockOf s.disk (s.icache i) bn = 0
  · -- block `bn` is not mapped, so it is block `nb`
    have hnb : bn = nb := by
      by_contra hne'
      have hlo' := hO.datastart_le (lt_of_le_of_ne hbn hne')
      rw [h0] at hlo'
      exact absurd hlo' (by decide)
    subst hnb
    rw [if_pos (beq_iff_eq.mpr (hentry.trans h0))] at h
    obtain ⟨c, s₁, h₁, h⟩ := run_bind_eq_ok.mp h
    obtain ⟨hc, hfree, log, written, rfl⟩ := balloc_spec hsb h₁
    obtain ⟨_, s₂, h₂, h⟩ := run_bind_eq_ok.mp h
    cases h₂
    obtain ⟨_, s₃, h₃, h⟩ := run_bind_eq_ok.mp h
    rw [setBlock_run] at h₃
    cases h₃
    obtain ⟨_, s₄, h₄, h⟩ := run_bind_eq_ok.mp h
    obtain ⟨log', written', rfl⟩ := log_write_ok h₄
    cases h
    obtain ⟨hO', hnew, hbytes⟩ := hO.allocMapIndirect hlo hmax hne hc hfree
    have hmax' : max bn (bn + 1) = bn + 1 := by omega
    refine ⟨Remaps.setDisk i s _ log' written', ?_, hnew, hbytes⟩
    rw [hmax']
    exact hO'
  · -- block `bn` is mapped, so it is one of the first `nb`
    rw [if_neg (by rw [beq_iff_eq, hentry]; exact h0)] at h
    cases h
    have hlt : bn < nb := by
      by_contra hle
      exact h0 (hO.unmapped bn (by omega) hmax)
    have hmax' : max nb (bn + 1) = nb := by omega
    exact ⟨Remaps.refl i s, by rw [hmax']; exact hO, hentry.symm, fun _ _ => rfl⟩

/-- `bmap` of block `bn` of a file of `nb` blocks, up to the next one: the block it returns is the
block the file maps `bn` to from then on, the file's first `max nb (bn + 1)` blocks are its own,
and its first `nb` blocks keep their bytes. -/
theorem bmap_spec {i bn nb b : Nat} (hsb : s.sb = mkfsSuperBlock)
    (hO : Owned s.disk (s.icache i) nb) (hbn : bn ≤ nb) (hmax : bn < MAXFILE)
    (h : (bmap i bn).run s = .ok (b, s')) :
    Remaps i s s' ∧ Owned s'.disk (s'.icache i) (max nb (bn + 1)) ∧
      blockOf s'.disk (s'.icache i) bn = b ∧
      ∀ k < nb * BSIZE, byteAt s'.disk (s'.icache i) k = byteAt s.disk (s.icache i) k := by
  by_cases hdir : bn < NDIRECT
  · exact bmap_direct_spec hsb hO hdir hbn h
  · have hrange : bn - NDIRECT < NINDIRECT := by
      have hMAX : MAXFILE = NDIRECT + NINDIRECT := rfl
      omega
    rw [bmap_indirect hdir hrange] at h
    obtain ⟨ip, s₀, h₀, h⟩ := run_bind_eq_ok.mp h
    cases h₀
    obtain ⟨ind, t, h₁, h⟩ := run_bind_eq_ok.mp h
    obtain ⟨hR, hOt, hind, hne, hbytes⟩ := bmapInd_spec hsb hO (by omega) h₁
    obtain ⟨hR', hO', hnew, hbytes'⟩ :=
      bmapEntry_spec (hR.sb_eq.trans hsb) hOt hind hne (by omega) hbn hmax h
    exact ⟨hR.trans hR', hO', hnew, fun k hk => (hbytes' k hk).trans (hbytes k hk)⟩

end Steps

end Xv6.Fs
