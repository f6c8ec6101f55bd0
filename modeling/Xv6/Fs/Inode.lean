import Mathlib
import Xv6.Log
import Xv6.File
import Xv6.Fs.Layout

/-!
# Blocks and inodes

The lower layers of `fs.c`: the block allocator (`balloc`, `bfree`, `bzero`), the inode
allocator and cache (`ialloc`, `iget`, `idup`, `ilock`, `iunlock`, `iupdate`, `iput`), and an
inode's contents (`bmap`, `itrunc`, `readi`, `writei`).

The state is what one process sees of the file system while it runs a call: the superblock, the
blocks as the buffer cache shows them, the `NINODE` entries of `icache`, the log, and the
process's current directory. `bread`, a change to `bp->data`, `log_write(bp)` and `brelse(bp)`
read and write the block itself; the buffer cache that stands between, with its own defects, is
the business of `Xv6.Buf`. `log_write` is `Xv6.log_write` of the log model, with its two panics,
and the blocks passed to it are also kept in `written`, a trace that no code reads, so that a
transaction's writes can be counted. Each `ip->lock` is held or free; acquiring one the process
already holds sleeps forever, and the model stops there. Of the `devsw` drivers only the
console's exists: `consolewrite` unlocks and relocks the inode around its output, and
`consoleread` waits for keyboard input, where the model stops.

Every function is a step of `FsM`, a `StateT` over `Outcome`, written in the order of the C text.
The loops that stop on a test are recursions over the values the loop variable takes, and the byte
loops of `readi` and `writei` recurse on the bytes left.
-/

namespace Xv6.Fs

open Machine

/-- `struct inode`, an entry of `icache`, with its sleep lock as a flag. -/
structure Inode where
  /-- Device number. -/
  dev : Nat
  /-- Inode number. -/
  inum : Nat
  /-- Reference count. -/
  ref : Int
  /-- `ip->lock` is held, by the running process. -/
  locked : Bool
  /-- The copy of the disk inode below has been read. -/
  valid : Bool
  /-- Copy of the disk inode's type. -/
  type : Nat
  /-- Copy of the major device number. -/
  major : Nat
  /-- Copy of the minor device number. -/
  minor : Nat
  /-- Copy of the link count, a `short`: `nlink--` of zero gives `-1`. -/
  nlink : Int16
  /-- Copy of the size, a `uint`. -/
  size : UInt32
  /-- Copy of `addrs[0..NDIRECT]`. -/
  addrs : List Nat
  deriving DecidableEq, Repr

/-- What a process's file-system call reads and writes. -/
structure FsState where
  /-- `sb`, read from block 1 at boot. -/
  sb : SuperBlock
  /-- The blocks of the root device, as `bread` returns them. -/
  disk : Nat → Block
  /-- `icache.inode[0..NINODE)`; a pointer to an in-memory inode is its index. -/
  icache : Nat → Inode
  /-- `struct log`. -/
  log : Log
  /-- `myproc()->cwd`, or `none` once `exit` has dropped it. -/
  cwd : Option Nat
  /-- `FILE_TABLE`, the open files. -/
  ftable : FileTable
  /-- `myproc()->ofile`: the position in `ftable` of each open file descriptor. -/
  ofile : Nat → Option Nat
  /-- The blocks passed to `log_write` in each transaction the process began, oldest first:
  `begin_op` opens an entry and `log_write` adds to the last one. A trace for the proofs, read
  by no code. -/
  written : List (List Nat)

/-- A step of a file-system call. -/
abbrev FsM := StateT FsState Outcome

/-- `panic(msg)`. -/
def kpanic {α : Type} (msg : String) : FsM α := StateT.lift (.panic msg)

/-- A step that sleeps until another process acts: the model stops here. -/
def sleepForever {α : Type} : FsM α := StateT.lift .block

/-- A write of the process's changes to `bp->data` of block `b`. -/
def setBlock (b : Nat) (data : Block) : FsM Unit :=
  modify fun s => { s with disk := Function.update s.disk b data }

/-- A change to the in-memory inode `i`. -/
def modifyInode (i : Nat) (f : Inode → Inode) : FsM Unit :=
  modify fun s => { s with icache := Function.update s.icache i (f (s.icache i)) }

/-- The in-memory inode `i`. -/
def getInode (i : Nat) : FsM Inode := do
  return (← get).icache i

/-! ## The log's calls -/

/-- `log_write(bp)` of block `b`. -/
def log_write (b : Nat) : FsM Unit := do
  let s ← get
  let log ← StateT.lift (Xv6.log_write s.log b)
  set { s with log, written := s.written.modifyLast (· ++ [b]) }

/-- `begin_op`. -/
def begin_op : FsM Unit := do
  let s ← get
  let log ← StateT.lift (Xv6.begin_op s.log)
  set { s with log, written := s.written ++ [[]] }

/-- `end_op`: the last operation commits, which leaves the blocks as the cache shows them and
empties the header. -/
def end_op : FsM Unit := do
  let s ← get
  let (log, doCommit) ← StateT.lift (Xv6.end_op s.log)
  set { s with log := if doCommit then commitDone log else log }

/-! ## Blocks -/

/-- `bzero`: zero block `bno` and log it. -/
def bzero (bno : Nat) : FsM Unit := do
  setBlock bno zeroBlock
  log_write bno

/-- The first bit `bi` of the bitmap block of blocks `b ..` whose block `b + bi` is below `size`
and free: the inner loop of `balloc`. -/
def freeBit (data : Block) (b size : Nat) : Option Nat :=
  (List.range BPB).find? fun bi => decide (b + bi < size) && bitClear data bi

-- unfolding `ballocLoop` must not run the scan of the 4096 bits
attribute [irreducible] freeBit

/-- The outer loop of `balloc`, over `b = 0, BPB, 2 * BPB, ..` below `sb.size`: mark the first
free block in use, log the bitmap block, zero the block. -/
def ballocLoop : List Nat → FsM Nat
  | [] => kpanic "balloc: out of blocks"
  | b :: bs => do
    let s ← get
    let bblock := BBLOCK b s.sb
    match freeBit (s.disk bblock) b s.sb.size with
    | some bi => do
      setBlock bblock (setBit (s.disk bblock) bi)
      log_write bblock
      bzero (b + bi)
      pure (b + bi)
    | none => ballocLoop bs

/-- `balloc`: allocate a zeroed block. -/
def balloc : FsM Nat := do
  let s ← get
  ballocLoop ((List.range ((s.sb.size + BPB - 1) / BPB)).map (· * BPB))

/-- `bfree`: clear block `b`'s bit and log the bitmap block. -/
def bfree (b : Nat) : FsM Unit := do
  let s ← get
  let bblock := BBLOCK b s.sb
  let bi := b % BPB
  if bitClear (s.disk bblock) bi then kpanic "freeing free block"
  else do
    setBlock bblock (clearBit (s.disk bblock) bi)
    log_write bblock

/-! ## The inode cache -/

/-- `iget`: the entry caching inode `inum`, with one more reference, or the first free entry,
recycled for it and not yet read. -/
def iget (dev inum : Nat) : FsM Nat := do
  let s ← get
  match (List.range NINODE).find? fun i =>
      decide (0 < (s.icache i).ref) && (s.icache i).dev == dev && (s.icache i).inum == inum with
  | some i => do
    modifyInode i fun ip => { ip with ref := ip.ref + 1 }
    pure i
  | none =>
    match (List.range NINODE).find? fun i => (s.icache i).ref == 0 with
    | some i => do
      modifyInode i fun ip => { ip with dev := dev, inum := inum, ref := 1, valid := false }
      pure i
    | none => kpanic "iget: no inodes"

/-- `idup`: one more reference. -/
def idup (i : Nat) : FsM Nat := do
  modifyInode i fun ip => { ip with ref := ip.ref + 1 }
  pure i

/-- The loop of `ialloc` over the inode numbers `1 .. sb.ninodes - 1`: the first free disk inode
is zeroed, given the type and logged, and its cache entry returned. -/
def iallocLoop (dev type : Nat) : List Nat → FsM Nat
  | [] => kpanic "ialloc: no inodes"
  | inum :: rest => do
    let s ← get
    let iblock := IBLOCK inum s.sb
    if (readDinode (s.disk iblock) inum).type == 0 then do
      setBlock iblock (writeDinode (s.disk iblock) inum
        ⟨type, 0, 0, 0, 0, List.replicate (NDIRECT + 1) 0⟩)
      log_write iblock
      iget dev inum
    else iallocLoop dev type rest

/-- `ialloc`: allocate an inode of type `type`. -/
def ialloc (dev type : Nat) : FsM Nat := do
  let s ← get
  iallocLoop dev type (List.range' 1 (s.sb.ninodes - 1))

/-- `iupdate`: copy the in-memory inode to its disk inode and log the inode block. -/
def iupdate (i : Nat) : FsM Unit := do
  let s ← get
  let ip := s.icache i
  let iblock := IBLOCK ip.inum s.sb
  setBlock iblock (writeDinode (s.disk iblock) ip.inum
    ⟨ip.type, ip.major, ip.minor, ip.nlink.toUInt16.toNat, ip.size.toNat, ip.addrs⟩)
  log_write iblock

/-- `ilock`: take the inode's lock, and read the disk inode unless the copy is valid. -/
def ilock (i : Nat) : FsM Unit := do
  let s ← get
  let ip := s.icache i
  if ip.ref < 1 then kpanic "ilock"
  else if ip.locked then sleepForever
  else do
    modifyInode i fun ip => { ip with locked := true }
    if !ip.valid then do
      let d := readDinode (s.disk (IBLOCK ip.inum s.sb)) ip.inum
      modifyInode i fun ip =>
        { ip with
          type := d.type, major := d.major, minor := d.minor, nlink := Int16.ofNat d.nlink,
          size := UInt32.ofNat d.size, addrs := d.addrs, valid := true }
      if d.type == 0 then kpanic "ilock: no type" else pure ()

/-- `iunlock`. -/
def iunlock (i : Nat) : FsM Unit := do
  let ip ← getInode i
  if !ip.locked || ip.ref < 1 then kpanic "iunlock"
  else modifyInode i fun ip => { ip with locked := false }

/-! ## Contents -/

/-- `bmap`: the block holding block `bn` of the inode, allocated if there is none. -/
def bmap (i bn : Nat) : FsM Nat := do
  let ip ← getInode i
  if bn < NDIRECT then
    let addr := ip.addrs.getD bn 0
    if addr == 0 then do
      let addr ← balloc
      modifyInode i fun ip => { ip with addrs := ip.addrs.set bn addr }
      pure addr
    else pure addr
  else if bn - NDIRECT < NINDIRECT then do
    -- load the indirect block, allocating it if necessary
    let ind ← do
      let ind := ip.addrs.getD NDIRECT 0
      if ind == 0 then do
        let ind ← balloc
        modifyInode i fun ip => { ip with addrs := ip.addrs.set NDIRECT ind }
        pure ind
      else pure ind
    let addr := blockField ((← get).disk ind) (4 * (bn - NDIRECT)) 4
    if addr == 0 then do
      let addr ← balloc
      setBlock ind (setBlockField ((← get).disk ind) (4 * (bn - NDIRECT)) 4 addr)
      log_write ind
      pure addr
    else pure addr
  else kpanic "bmap: out of range"

/-- `itrunc`: free the inode's blocks, the indirect block's entries, the indirect block, and
write the emptied inode. -/
def itrunc (i : Nat) : FsM Unit := do
  (List.range NDIRECT).forM fun k => do
    let a := ((← getInode i).addrs).getD k 0
    if a != 0 then do
      bfree a
      modifyInode i fun ip => { ip with addrs := ip.addrs.set k 0 }
  let ind := ((← getInode i).addrs).getD NDIRECT 0
  if ind != 0 then do
    (List.range NINDIRECT).forM fun j => do
      let a := blockField ((← get).disk ind) (4 * j) 4
      if a != 0 then bfree a
    bfree ind
    modifyInode i fun ip => { ip with addrs := ip.addrs.set NDIRECT 0 }
  modifyInode i fun ip => { ip with size := 0 }
  iupdate i

/-- `iput`: drop a reference; the last reference to an inode with no links truncates and frees it. -/
def iput (i : Nat) : FsM Unit := do
  let ip ← getInode i
  if ip.locked then sleepForever
  else do
    modifyInode i fun ip => { ip with locked := true }
    if ip.valid && ip.nlink == 0 && ip.ref == 1 then do
      itrunc i
      modifyInode i fun ip => { ip with type := 0 }
      iupdate i
      modifyInode i fun ip => { ip with valid := false }
    modifyInode i fun ip => { ip with locked := false, ref := ip.ref - 1 }

/-- `iunlockput`. -/
def iunlockput (i : Nat) : FsM Unit := do
  iunlock i
  iput i

/-- `min(n - tot, BSIZE - off % BSIZE)`, with `fs.c`'s `min` macro: the bytes of one turn of
`readi`'s and `writei`'s loops. -/
def chunk (off tot n : UInt32) : UInt32 :=
  if n - tot < 512 - off % 512 then n - tot else 512 - off % 512

/-- The bytes of one turn, as numbers. -/
theorem toNat_chunk {off tot n : UInt32} (h : tot ≤ n) :
    (chunk off tot n).toNat = min (n.toNat - tot.toNat) (512 - off.toNat % 512) := by
  have hmod : off % 512 ≤ 512 := by
    rw [UInt32.le_iff_toNat_le, UInt32.toNat_mod]
    exact Nat.le_of_lt (Nat.mod_lt _ (by decide))
  have hsub : (n - tot).toNat = n.toNat - tot.toNat := UInt32.toNat_sub_of_le _ _ h
  have hsub' : (512 - off % 512).toNat = 512 - off.toNat % 512 := by
    rw [UInt32.toNat_sub_of_le _ _ hmod, UInt32.toNat_mod]
    rfl
  unfold chunk
  split
  · rename_i hlt
    rw [UInt32.lt_iff_toNat_lt, hsub, hsub'] at hlt
    rw [hsub]
    omega
  · rename_i hlt
    rw [UInt32.lt_iff_toNat_lt, hsub, hsub'] at hlt
    rw [hsub']
    omega

/-- The bytes still to copy shrink each turn, and the count of bytes copied does not wrap. -/
theorem chunk_decreasing {off tot n : UInt32} (h : tot < n) :
    (n - (tot + chunk off tot n)).toNat < (n - tot).toNat := by
  have hle : tot ≤ n := UInt32.le_of_lt h
  have hc := @toNat_chunk off tot n hle
  have hlt := UInt32.lt_iff_toNat_lt.mp h
  have hmod : off.toNat % 512 < 512 := Nat.mod_lt _ (by decide)
  have hn := n.toNat_lt
  have hsum : (tot + chunk off tot n).toNat = tot.toNat + (chunk off tot n).toNat := by
    rw [UInt32.toNat_add]
    exact Nat.mod_eq_of_lt (by omega)
  have hle' : tot + chunk off tot n ≤ n := by
    rw [UInt32.le_iff_toNat_le, hsum]
    omega
  rw [UInt32.toNat_sub_of_le _ _ hle', UInt32.toNat_sub_of_le _ _ hle, hsum]
  omega

/-- The loop of `readi`: the bytes of the blocks from `off`, `tot` of `n` already read. -/
def readiLoop (i : Nat) (off tot n : UInt32) : FsM (List UInt8) :=
  if _h : tot < n then do
    let b ← bmap i (off / 512).toNat
    let m := chunk off tot n
    let bytes := loadBytes ((← get).disk b) (off % 512).toNat m.toNat
    let rest ← readiLoop i (off + m) (tot + m) n
    pure (bytes ++ rest)
  else pure []
termination_by (n - tot).toNat
decreasing_by exact chunk_decreasing _h

/-- `readi`: `n` bytes from offset `off`, cut at the end of the file, or `none` for `-1`. -/
def readi (i : Nat) (off n : UInt32) : FsM (Option (List UInt8)) := do
  let ip ← getInode i
  if ip.type == T_DEV then
    if NDEV ≤ ip.major || ip.major != CONSOLE then pure none else sleepForever
  else if off > ip.size || off + n < off then pure none
  else do
    let n := if off + n > ip.size then ip.size - off else n
    let bytes ← readiLoop i off 0 n
    pure (some bytes)

/-- The loop of `writei`: copy `src` from `tot` on into the blocks from `off`, logging each block;
the offset reached is returned. -/
def writeiLoop (i : Nat) (src : List UInt8) (off tot n : UInt32) : FsM UInt32 :=
  if _h : tot < n then do
    let b ← bmap i (off / 512).toNat
    let m := chunk off tot n
    setBlock b (storeBytes ((← get).disk b) (off % 512).toNat
      ((src.drop tot.toNat).take m.toNat))
    log_write b
    writeiLoop i src (off + m) (tot + m) n
  else pure off
termination_by (n - tot).toNat
decreasing_by exact chunk_decreasing _h

/-- `writei`: write `n` bytes of `src` at offset `off`, growing the file up to `MAXFILE` blocks;
the number of bytes, or `-1`. -/
def writei (i : Nat) (src : List UInt8) (off n : UInt32) : FsM Int := do
  let ip ← getInode i
  if ip.type == T_DEV then
    if NDEV ≤ ip.major || ip.major != CONSOLE then pure (-1)
    else do
      -- `consolewrite` unlocks the inode around its output and returns `n`, as an `int`
      iunlock i
      ilock i
      pure n.toInt32.toInt
  else if off > ip.size || off + n < off then pure (-1)
  else if MAXFILE * BSIZE < (off + n).toNat then pure (-1)
  else do
    let off ← writeiLoop i src off 0 n
    if 0 < n && off > (← getInode i).size then do
      modifyInode i fun ip => { ip with size := off }
      iupdate i
    pure n.toNat

end Xv6.Fs
