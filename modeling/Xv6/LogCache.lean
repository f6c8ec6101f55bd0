import Xv6.LogDisk

/-!
# File-system operations through the log and the cache

The log of `Xv6.Log` and the buffer cache of `Xv6.Buf` together, as the file-system calls use
them: inside an operation a process reads a block with `bread`, changes it, hands it to
`log_write`, which records the block in the header and pins its buffer in the cache as `DIRTY`,
and releases it with `brelse`; the last `end_op` runs `commit` of `Xv6.LogDisk`. A process may
read more blocks than it logs, as `namei` reads directories and `bmap` the indirect block.

A pinned buffer stays in the cache until the commit installs it, and so does a buffer that a
process holds. The log lets the header grow to `LOGSIZE - 1` blocks, while the cache has room for
`NBUF = LOGSIZE` buffers: once the running operations have logged `LOGSIZE - 1` blocks, a second
block held by a reader exhausts the cache, and the next `bread` of a new block panics
(`cache_exhausted`).
-/

namespace Xv6

open Machine

/-- The log with its running operations, and the cache and the disk. -/
structure FsSys where
  /-- The log and the operations between their `begin_op` and `end_op`. -/
  logs : LogSys
  /-- The buffer cache and the disk. -/
  disk : Disk

/-- What a process does in the file system. Buffers are named by their position in the cache, as
the references that `bread` hands out are. -/
inductive FsAction where
  /-- `begin_op`. -/
  | begin (pid : Nat)
  /-- `bread` of a block of the log's device, inside an operation. -/
  | read (pid blockno : Nat)
  /-- `log_write` of the buffer at a position. -/
  | logWrite (pid idx : Nat)
  /-- `brelse` of the buffer at a position. -/
  | release (pid idx : Nat)
  /-- `end_op`. -/
  | finish (pid : Nat)
  /-- `commit`, run by the process whose `end_op` started it. -/
  | commit (pid : Nat)

namespace FsSys

/-- One action. `log_write` is the log's step on the buffer's block, then the buffer is marked
`DIRTY`; `commit` writes the log and installs it with the disk operations of `commit`, then
`end_op` clears `committing`. -/
def step (s : FsSys) : FsAction → Outcome FsSys
  | .begin pid => do
    let logs ← s.logs.step (.begin pid)
    pure { s with logs }
  | .read pid blockno =>
    if (s.logs.find pid).isSome then do
      let (disk, _) ← s.disk.bread pid s.logs.log.dev blockno
      pure { s with disk }
    else .block
  | .logWrite pid idx =>
    match s.disk.cache.buffers.get? idx with
    | some buf => do
      let logs ← s.logs.step (.write pid buf.blockno)
      let cache : BufferCache :=
        ⟨s.disk.cache.buffers.modify idx fun b => { b with flags := { b.flags with dirty := true } }⟩
      pure ⟨logs, { s.disk with cache }⟩
    | none => .ub
  | .release pid idx => do
    let disk ← s.disk.brelse pid idx
    pure { s with disk }
  | .finish pid => do
    let logs ← s.logs.step (.finish pid)
    pure { s with logs }
  | .commit pid =>
    if s.logs.log.committing then do
      let (log, disk) ← Xv6.commit s.logs.log pid s.disk
      pure ⟨⟨commitDone log, s.logs.ops⟩, disk⟩
    else .block

/-- At boot, after recovery: an empty log, no operation, an empty cache, and a blank disk. -/
def init : FsSys := ⟨LogSys.init, ⟨BufferCache.new, IDE.blank⟩⟩

end FsSys

/-- Process `pid` reads block `blockno` into position `idx`, logs it, and releases it. -/
def logBlock (pid blockno idx : Nat) : List FsAction :=
  [.read pid blockno, .logWrite pid idx, .release pid idx]

/-- Process `pid` logs the `count` blocks from `first` on, whose buffers go to the positions from
`idx` on. -/
def logBlocks (pid first count idx : Nat) : List FsAction :=
  ((List.range count).map fun i => logBlock pid (first + i) (idx + i)).flatten

set_option maxRecDepth 20000 in
/-- Three operations log ten, ten and nine blocks, which the log admits; the `DIRTY` buffers take
29 positions of the cache. Process 1 then reads block 500, which it holds, and process 2 reads
block 501: the cache has no room left, and `bread` panics. -/
theorem cache_exhausted :
    (do
      let _ ← Outcome.run FsSys.step FsSys.init
        ([FsAction.begin 1, .begin 2, .begin 3] ++ logBlocks 1 100 10 0 ++
          logBlocks 2 200 10 10 ++ logBlocks 3 300 9 20 ++ [FsAction.read 1 500, .read 2 501])
      pure ()) = .panic "BufferCache::get: no buffer" := by
  decide

end Xv6
