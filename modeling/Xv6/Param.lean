/-!
# Parameters

The constants of `param.rs` (the same values as `param.h`), of the on-disk format (`fs.rs`,
`fs.h`) and of the memory layout (`memlayout.rs`, `mmu.rs`) that the modelled code reads, and the
type of a disk block's contents.
-/

namespace Xv6

/-- Maximum number of processes. -/
def NPROC : Nat := 64
/-- Open files per process. -/
def NOFILE : Nat := 16
/-- Open files per system. -/
def NFILE : Nat := 100
/-- Maximum number of active i-nodes. -/
def NINODE : Nat := 50
/-- Maximum number of blocks any file-system operation writes. -/
def MAXOPBLOCKS : Nat := 10
/-- Maximum number of data blocks in the on-disk log. -/
def LOGSIZE : Nat := MAXOPBLOCKS * 3
/-- Size of the disk block cache. -/
def NBUF : Nat := MAXOPBLOCKS * 3
/-- Size of the file system in blocks. -/
def FSSIZE : Nat := 1000
/-- Device number of the file system's root disk. -/
def ROOTDEV : Nat := 1

/-- Block size in bytes. -/
def BSIZE : Nat := 512
/-- Page size in bytes. -/
def PGSIZE : Nat := 4096
/-- First kernel virtual address. -/
def KERNBASE : Nat := 0x80000000

/-- The contents of a disk block: `data: [u8; BSIZE]` of a buffer, or one block of the disk. -/
abbrev Block := Vector UInt8 BSIZE

/-- A block of zeroes, as a fresh buffer's `[0; BSIZE]`. -/
def zeroBlock : Block := Vector.replicate BSIZE 0

end Xv6
