import Mathlib
import Xv6.Param
import Xv6.Lib.Bytes

/-!
# The on-disk format of the file system

The layout of `fs.h` and the superblock that `mkfs` writes: the boot block, the superblock, the
log, the inode blocks, one bitmap block, then the data blocks. A block's contents are bytes, and
the structures in it are read and written as the kernel's C code does, as little-endian fields at
fixed byte offsets: a `struct dinode` is 64 bytes, `IPB` of them to an inode block; a
`struct dirent` is 16 bytes; the bitmap has one bit per block. Block numbers and inode numbers
are `Nat`s, since nothing here depends on their 32-bit wrap.

`mkfs` sizes the bitmap as `FSSIZE / BPB + 1` blocks: with `FSSIZE = 1000` below `BPB = 4096`,
every block's bit lies in the one bitmap block (`BBLOCK_mkfs`).
-/

namespace Xv6.Fs

open Machine

/-- `struct superblock`. -/
structure SuperBlock where
  /-- Size of the file-system image, in blocks. -/
  size : Nat
  /-- Number of data blocks. -/
  nblocks : Nat
  /-- Number of inodes. -/
  ninodes : Nat
  /-- Number of log blocks. -/
  nlog : Nat
  /-- First log block. -/
  logstart : Nat
  /-- First inode block. -/
  inodestart : Nat
  /-- First bitmap block. -/
  bmapstart : Nat
  deriving DecidableEq, Repr

/-- The root's inode number. -/
def ROOTINO : Nat := 1
/-- Direct block addresses in an inode. -/
def NDIRECT : Nat := 12
/-- Block addresses in the indirect block. -/
def NINDIRECT : Nat := BSIZE / 4
/-- Largest file, in blocks. -/
def MAXFILE : Nat := NDIRECT + NINDIRECT
/-- `sizeof(struct dinode)`. -/
def DINODE_SIZE : Nat := 64
/-- Inodes per block. -/
def IPB : Nat := BSIZE / DINODE_SIZE
/-- Bitmap bits per block. -/
def BPB : Nat := BSIZE * 8
/-- Bytes of a name in a directory entry. -/
def DIRSIZ : Nat := 14
/-- `sizeof(struct dirent)`. -/
def DIRENT_SIZE : Nat := 16
/-- Number of inodes `mkfs` makes. -/
def NINODES : Nat := 200
/-- Largest major device number. -/
def NDEV : Nat := 10
/-- The console's major device number, the one entry of `devsw`. -/
def CONSOLE : Nat := 1

/-- `T_DIR`: a directory. -/
def T_DIR : Nat := 1
/-- `T_FILE`: a file. -/
def T_FILE : Nat := 2
/-- `T_DEV`: a device. -/
def T_DEV : Nat := 3

/-- The block holding inode `i`. -/
def IBLOCK (i : Nat) (sb : SuperBlock) : Nat := i / IPB + sb.inodestart

/-- The bitmap block holding the bit of block `b`. -/
def BBLOCK (b : Nat) (sb : SuperBlock) : Nat := b / BPB + sb.bmapstart

/-- The superblock `mkfs` writes: `nbitmap = FSSIZE / (BSIZE * 8) + 1`,
`ninodeblocks = NINODES / IPB + 1`, `nlog = LOGSIZE`, and the meta blocks first. -/
def mkfsSuperBlock : SuperBlock :=
  let nbitmap := FSSIZE / (BSIZE * 8) + 1
  let ninodeblocks := NINODES / IPB + 1
  let nlog := LOGSIZE
  let nmeta := 2 + nlog + ninodeblocks + nbitmap
  ⟨FSSIZE, FSSIZE - nmeta, NINODES, nlog, 2, 2 + nlog, 2 + nlog + ninodeblocks⟩

/-- Every block of `mkfs`'s file system has its bit in the first bitmap block. -/
theorem BBLOCK_mkfs {b : Nat} (hb : b < mkfsSuperBlock.size) :
    BBLOCK b mkfsSuperBlock = mkfsSuperBlock.bmapstart := by
  have hdiv : b / BPB = 0 := Nat.div_eq_of_lt (lt_of_lt_of_le hb (by decide))
  rw [BBLOCK, hdiv, Nat.zero_add]

/-! ## Fields of a block -/

/-- The `n`-byte little-endian field at byte `off` of a block. -/
def blockField (data : Block) (off n : Nat) : Nat := readLE (memOfVector data) off n

/-- The block with its `n`-byte field at byte `off` set to `v`. -/
def setBlockField (data : Block) (off n v : Nat) : Block :=
  vectorOfMem BSIZE (writeLE (memOfVector data) off n v)

theorem setBlockField_eq (data : Block) (off n v : Nat) :
    setBlockField data off n v = vectorOfMem BSIZE (writeLE (memOfVector data) off n v) := rfl

/-- The block with the bytes `src` stored from byte `off`, as `memmove` into it does. -/
def storeBytes (data : Block) (off : Nat) (src : List UInt8) : Block :=
  vectorOfMem BSIZE fun k => if off ≤ k ∧ k < off + src.length then src.getD (k - off) 0
    else memOfVector data k

/-- The `n` bytes of a block from byte `off`. -/
def loadBytes (data : Block) (off n : Nat) : List UInt8 :=
  (List.range n).map fun k => memOfVector data (off + k)

/-! ## Inodes on disk -/

/-- `struct dinode`. The `short` fields hold the small non-negative values the kernel stores. -/
structure DInode where
  /-- File type, zero for a free inode. -/
  type : Nat
  /-- Major device number. -/
  major : Nat
  /-- Minor device number. -/
  minor : Nat
  /-- Number of directory entries that name the inode. -/
  nlink : Nat
  /-- Size of the file in bytes. -/
  size : Nat
  /-- `addrs[0..NDIRECT]`: the direct blocks, then the indirect block. -/
  addrs : List Nat
  deriving DecidableEq, Repr

/-- Byte offset of inode `inum` in its block. -/
def dinodeOff (inum : Nat) : Nat := inum % IPB * DINODE_SIZE

/-- The inode `inum` as its block holds it. -/
def readDinode (data : Block) (inum : Nat) : DInode :=
  let o := dinodeOff inum
  { type := blockField data o 2, major := blockField data (o + 2) 2,
    minor := blockField data (o + 4) 2, nlink := blockField data (o + 6) 2,
    size := blockField data (o + 8) 4,
    addrs := (List.range (NDIRECT + 1)).map fun k => blockField data (o + 12 + 4 * k) 4 }

/-- The block with inode `inum` set to `d`, field by field. -/
def writeDinode (data : Block) (inum : Nat) (d : DInode) : Block :=
  let o := dinodeOff inum
  let data := setBlockField data o 2 d.type
  let data := setBlockField data (o + 2) 2 d.major
  let data := setBlockField data (o + 4) 2 d.minor
  let data := setBlockField data (o + 6) 2 d.nlink
  let data := setBlockField data (o + 8) 4 d.size
  (List.range (NDIRECT + 1)).foldl
    (fun data k => setBlockField data (o + 12 + 4 * k) 4 (d.addrs.getD k 0)) data

/-! ## Directory entries -/

/-- `struct dirent`: an inode number, zero for a free entry, and a name of `DIRSIZ` bytes. -/
structure Dirent where
  /-- The inode the entry names. -/
  inum : Nat
  /-- The name's `DIRSIZ` bytes, padded with zeroes. -/
  name : List UInt8
  deriving DecidableEq, Repr

/-- The entry whose 16 bytes are `bytes`. -/
def readDirent (bytes : List UInt8) : Dirent :=
  ⟨readLE (fun k => bytes.getD k 0) 0 2, (bytes.drop 2).take DIRSIZ⟩

/-- `strncpy(de.name, name, DIRSIZ)`: the bytes of `name` up to its terminator, then zeroes. -/
def strncpyName (name : List UInt8) : List UInt8 :=
  let s := (name.takeWhile (· ≠ 0)).take DIRSIZ
  s ++ List.replicate (DIRSIZ - s.length) 0

/-- The 16 bytes of an entry. -/
def direntBytes (de : Dirent) : List UInt8 :=
  [UInt8.ofNat de.inum, UInt8.ofNat (de.inum / 256)] ++ de.name

/-- `namecmp(s, t) == 0`, that is `strncmp(s, t, DIRSIZ) == 0`: the names agree up to their
terminators, in their first `DIRSIZ` bytes. -/
def namecmp (s t : List UInt8) : Bool :=
  (s.takeWhile (· ≠ 0)).take DIRSIZ == (t.takeWhile (· ≠ 0)).take DIRSIZ

/-- The name `.`. -/
def dot : List UInt8 := [46]
/-- The name `..`. -/
def dotdot : List UInt8 := [46, 46]

/-! ## The bitmap -/

/-- The bit of block `b + bi` is clear in the bitmap block that holds it: `bi / 8`'s byte, bit
`bi % 8`. -/
def bitClear (data : Block) (bi : Nat) : Bool :=
  memOfVector data (bi / 8) &&& ((1 : UInt8) <<< UInt8.ofNat (bi % 8)) == 0

theorem bitClear_eq (data : Block) (bi : Nat) :
    bitClear data bi = (memOfVector data (bi / 8) &&& ((1 : UInt8) <<< UInt8.ofNat (bi % 8)) == 0) :=
  rfl

/-- The bitmap block with bit `bi` set. -/
def setBit (data : Block) (bi : Nat) : Block :=
  vectorOfMem BSIZE (Function.update (memOfVector data) (bi / 8)
    (memOfVector data (bi / 8) ||| ((1 : UInt8) <<< UInt8.ofNat (bi % 8))))

theorem setBit_eq (data : Block) (bi : Nat) :
    setBit data bi = vectorOfMem BSIZE (Function.update (memOfVector data) (bi / 8)
      (memOfVector data (bi / 8) ||| ((1 : UInt8) <<< UInt8.ofNat (bi % 8)))) := rfl

/-- The bitmap block with bit `bi` cleared. -/
def clearBit (data : Block) (bi : Nat) : Block :=
  vectorOfMem BSIZE (Function.update (memOfVector data) (bi / 8)
    (memOfVector data (bi / 8) &&& ~~~((1 : UInt8) <<< UInt8.ofNat (bi % 8))))

theorem clearBit_eq (data : Block) (bi : Nat) :
    clearBit data bi = vectorOfMem BSIZE (Function.update (memOfVector data) (bi / 8)
      (memOfVector data (bi / 8) &&& ~~~((1 : UInt8) <<< UInt8.ofNat (bi % 8)))) := rfl

/-! ## What the writes of a block change -/

@[simp] theorem memOfVector_zeroBlock (k : Nat) : memOfVector zeroBlock k = 0 := by
  by_cases hk : k < BSIZE <;> simp [memOfVector, zeroBlock, Array.getD, hk]

/-- `memmove` into a block changes the bytes it covers. -/
theorem memOfVector_storeBytes (data : Block) (off : Nat) (src : List UInt8) {k : Nat}
    (hk : k < BSIZE) :
    memOfVector (storeBytes data off src) k =
      if off ≤ k ∧ k < off + src.length then src.getD (k - off) 0 else memOfVector data k :=
  memOfVector_vectorOfMem _ hk

/-- A field of a block reads as the field of its bytes. -/
theorem blockField_vectorOfMem (m : Nat → UInt8) {off n : Nat} (h : off + n ≤ BSIZE) :
    blockField (vectorOfMem BSIZE m) off n = readLE m off n :=
  readLE_congr fun _ hd => memOfVector_vectorOfMem _ (by omega)

/-- A field read after its write returns the value written, when it fits. -/
theorem blockField_setBlockField (data : Block) {off n v : Nat} (hoff : off + n ≤ BSIZE)
    (hv : v < 256 ^ n) : blockField (setBlockField data off n v) off n = v := by
  rw [setBlockField_eq, blockField_vectorOfMem _ hoff, readLE_writeLE hv]

/-- The write of a field leaves the fields beside it alone. -/
theorem blockField_setBlockField_of_disjoint (data : Block) {off n v a k : Nat}
    (ha : a + k ≤ BSIZE) (h : off + n ≤ a ∨ a + k ≤ off) :
    blockField (setBlockField data off n v) a k = blockField data a k := by
  rw [setBlockField_eq, blockField_vectorOfMem _ ha, readLE_writeLE_of_disjoint h]
  rfl

/-- Every field of a zeroed block is zero. -/
theorem blockField_zeroBlock (off n : Nat) : blockField zeroBlock off n = 0 := by
  induction n generalizing off with
  | zero => rfl
  | succ n ih =>
    have hrest : readLE (memOfVector zeroBlock) (off + 1) n = 0 := ih (off + 1)
    rw [blockField, readLE_succ, memOfVector_zeroBlock, hrest]
    rfl

/-- Setting a bit sets it. -/
theorem bitClear_setBit_self (data : Block) {bi : Nat} (h : bi < BPB) :
    bitClear (setBit data bi) bi = false := by
  have hbyte : bi / 8 < BSIZE := by
    unfold BPB at h
    omega
  have hset := or_bitMask_and_bitMask ⟨(memOfVector data (bi / 8)).toNat, UInt8.toNat_lt _⟩
    ⟨bi % 8, Nat.mod_lt _ (by decide)⟩
  simp only [UInt8.ofNat_toNat] at hset
  rw [bitClear_eq, setBit_eq, memOfVector_vectorOfMem _ hbyte, Function.update_self]
  exact hset

/-- Setting a bit leaves the other bits alone. -/
theorem bitClear_setBit_of_ne (data : Block) {bi bj : Nat} (hj : bj < BPB) (hne : bj ≠ bi) :
    bitClear (setBit data bi) bj = bitClear data bj := by
  have hbyte : bj / 8 < BSIZE := by
    unfold BPB at hj
    omega
  rw [bitClear_eq, bitClear_eq, setBit_eq, memOfVector_vectorOfMem _ hbyte]
  by_cases hb : bj / 8 = bi / 8
  · -- the same byte: the bit set is another one of it
    have hbit : (⟨bi % 8, Nat.mod_lt _ (by decide)⟩ : Fin 8) ≠ ⟨bj % 8, Nat.mod_lt _ (by decide)⟩ := by
      intro heq
      rw [Fin.mk.injEq] at heq
      omega
    have hmask := bitMask_and_bitMask _ _ hbit
    simp only at hmask
    rw [hb, Function.update_self, or_and_distrib_byte, hmask, UInt8.or_zero]
  · rw [Function.update_of_ne hb]

/-- Clearing a bit clears it. -/
theorem bitClear_clearBit_self (data : Block) {bi : Nat} (h : bi < BPB) :
    bitClear (clearBit data bi) bi = true := by
  have hbyte : bi / 8 < BSIZE := by
    unfold BPB at h
    omega
  rw [bitClear_eq, clearBit_eq, memOfVector_vectorOfMem _ hbyte, Function.update_self, UInt8.and_assoc,
    UInt8.not_and_self, UInt8.and_zero]
  rfl

/-- Clearing a bit leaves the other bits alone. -/
theorem bitClear_clearBit_of_ne (data : Block) {bi bj : Nat} (hj : bj < BPB) (hne : bj ≠ bi) :
    bitClear (clearBit data bi) bj = bitClear data bj := by
  have hbyte : bj / 8 < BSIZE := by
    unfold BPB at hj
    omega
  rw [bitClear_eq, bitClear_eq, clearBit_eq, memOfVector_vectorOfMem _ hbyte]
  by_cases hb : bj / 8 = bi / 8
  · -- the same byte: the bit cleared is another one of it
    have hbit : (⟨bi % 8, Nat.mod_lt _ (by decide)⟩ : Fin 8) ≠ ⟨bj % 8, Nat.mod_lt _ (by decide)⟩ := by
      intro heq
      rw [Fin.mk.injEq] at heq
      omega
    have hmask := not_bitMask_and_bitMask _ _ hbit
    simp only at hmask
    rw [hb, Function.update_self, UInt8.and_assoc, hmask]
  · rw [Function.update_of_ne hb]

end Xv6.Fs
