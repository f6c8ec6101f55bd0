import Xv6.Buf
import Xv6.Log
import Xv6.Lib.Bytes

/-!
# The log on disk

`write_log`, `write_head`, `install_trans`, `commit`, `read_head` and `recover_from_log` of
`log.c`, run through the buffer cache and the disk controller of `Xv6.Buf`. The header block holds
`n` and `block[0..n)` as little-endian `int`s (`headerBytes`, read back by `readHeader`); the log
blocks follow it. Every disk write is one `IDE::rw` of a whole block, appended to the disk's list of
writes, so a crash during `commit` leaves a prefix of the writes that `commit` made.

`commit` runs when no operation is running, so no other process holds a buffer meanwhile; its
buffers come and go at the end of the cache. `recover_from_log` runs at boot on an empty cache,
where `install_trans` pushes the log block and then the home block: releasing the log block moves
the home block's buffer to the log block's position, and the release of the home block goes
through the position it no longer holds (`install_moves_home`). So a crash after the header
write, the commit point, leaves a disk that recovery cannot replay (`recover_after_commit_point`).
-/

namespace Xv6

open Machine

/-- What the log's disk work changes: the buffer cache and the disk. -/
structure Disk where
  /-- The buffer cache. -/
  cache : BufferCache
  /-- The disk controller and the disks. -/
  ide : IDE

namespace Disk

/-- `bread`. -/
def bread (d : Disk) (pid dev blockno : Nat) : Outcome (Disk × Nat) := do
  let (cache, ide, h) ← Xv6.bread d.cache d.ide pid dev blockno
  pure (⟨cache, ide⟩, h)

/-- `bwrite`. -/
def bwrite (d : Disk) (pid h : Nat) : Outcome Disk := do
  let (cache, ide) ← Xv6.bwrite d.cache d.ide pid h
  pure ⟨cache, ide⟩

/-- `brelse`. -/
def brelse (d : Disk) (pid h : Nat) : Outcome Disk := do
  let cache ← Xv6.brelse d.cache pid h
  pure ⟨cache, d.ide⟩

/-- `memmove(dst->data, src->data, BSIZE)`. -/
def copy (d : Disk) (dst src : Nat) : Outcome Disk := do
  let data ← bdata d.cache src
  let cache ← bsetData d.cache dst data
  pure ⟨cache, d.ide⟩

end Disk

/-- The entries `block[i]` from byte `addr` on, as `write_head` stores them. -/
def writeEntries (m : Nat → UInt8) (addr : Nat) : List Nat → Nat → UInt8
  | [] => m
  | b :: bs => writeEntries (writeLE m addr 4 b) (addr + 4) bs

/-- The header block's data after `write_head` has stored `hb->n` and `hb->block[0..n)` in the
data `data` it read. -/
def headerBytes (data : Block) (lh : List Nat) : Block :=
  vectorOfMem BSIZE (writeEntries (writeLE (memOfVector data) 0 4 lh.length) 4 lh)

/-- `read_head`'s reading of the header: `lh->n`, then `lh->block[0..n)`. A count that is negative
or above `LOGSIZE`, which neither `mkfs` nor `write_head` writes, would index past `lh.block`;
the model gives it no meaning. -/
def readHeader (data : Block) : Option (List Nat) :=
  let m := memOfVector data
  let n := readLE m 0 4
  if n ≤ LOGSIZE then some ((List.range n).map fun i => readLE m (4 + 4 * i) 4) else none

/-- One turn of `write_log`: the cached block `lh.block[tail]` (`from`) copied to log block `tail`
(`to`). -/
def writeLogStep (log : Log) (pid : Nat) (d : Disk) (tail : Nat) : Outcome Disk := do
  let (d, dst) ← d.bread pid log.dev (log.start + tail + 1)
  let (d, src) ← d.bread pid log.dev (log.lh.getD tail 0)
  let d ← d.copy dst src
  let d ← d.bwrite pid dst
  let d ← d.brelse pid src
  d.brelse pid dst

/-- `write_log`. -/
def write_log (log : Log) (pid : Nat) (d : Disk) : Outcome Disk :=
  Outcome.run (writeLogStep log pid) d (List.range log.lh.length)

/-- `write_head`: the in-memory header written to the header block. -/
def write_head (log : Log) (pid : Nat) (d : Disk) : Outcome Disk := do
  let (d, buf) ← d.bread pid log.dev log.start
  let data ← bdata d.cache buf
  let cache ← bsetData d.cache buf (headerBytes data log.lh)
  let d ← Disk.bwrite ⟨cache, d.ide⟩ pid buf
  d.brelse pid buf

/-- One turn of `install_trans`: log block `tail` copied to its home `lh.block[tail]`. -/
def installStep (log : Log) (pid : Nat) (d : Disk) (tail : Nat) : Outcome Disk := do
  let (d, lbuf) ← d.bread pid log.dev (log.start + tail + 1)
  let (d, dbuf) ← d.bread pid log.dev (log.lh.getD tail 0)
  let d ← d.copy dbuf lbuf
  let d ← d.bwrite pid dbuf
  let d ← d.brelse pid lbuf
  d.brelse pid dbuf

/-- `install_trans`. -/
def install_trans (log : Log) (pid : Nat) (d : Disk) : Outcome Disk :=
  Outcome.run (installStep log pid) d (List.range log.lh.length)

/-- `read_head`: the header block read into the in-memory header. -/
def read_head (log : Log) (pid : Nat) (d : Disk) : Outcome (Log × Disk) := do
  let (d, buf) ← d.bread pid log.dev log.start
  let data ← bdata d.cache buf
  match readHeader data with
  | some lh => do
    let d ← d.brelse pid buf
    pure ({ log with lh }, d)
  | none => .ub

/-- `commit`: the log blocks, the header (the commit point), the home blocks, and the header
emptied. -/
def commit (log : Log) (pid : Nat) (d : Disk) : Outcome (Log × Disk) :=
  if 0 < log.lh.length then do
    let d ← write_log log pid d
    let d ← write_head log pid d
    let d ← install_trans log pid d
    let log := { log with lh := [] }
    let d ← write_head log pid d
    pure (log, d)
  else pure (log, d)

/-- `recover_from_log`: replay the logged transaction, if any, and empty the header. -/
def recover_from_log (log : Log) (pid : Nat) (d : Disk) : Outcome (Log × Disk) := do
  let (log, d) ← read_head log pid d
  let d ← install_trans log pid d
  let log := { log with lh := [] }
  let d ← write_head log pid d
  pure (log, d)

/-! ## The disk operations on a known cache -/

namespace Disk

variable {c c' : BufferCache} {ide ide' : IDE} {pid : Nat}

theorem bread_of_ok {dev blockno h : Nat} (hb : Xv6.bread c ide pid dev blockno = .ok (c', ide', h)) :
    Disk.bread ⟨c, ide⟩ pid dev blockno = .ok (⟨c', ide'⟩, h) := by
  simp [Disk.bread, hb]

theorem bwrite_of_ok {h : Nat} (hb : Xv6.bwrite c ide pid h = .ok (c', ide')) :
    Disk.bwrite ⟨c, ide⟩ pid h = .ok ⟨c', ide'⟩ := by
  simp [Disk.bwrite, hb]

theorem brelse_of_ok {h : Nat} (hb : Xv6.brelse c pid h = .ok c') :
    Disk.brelse ⟨c, ide⟩ pid h = .ok ⟨c', ide⟩ := by
  simp [Disk.brelse, hb]

theorem brelse_of_ub {h : Nat} (hb : Xv6.brelse c pid h = .ub) : Disk.brelse ⟨c, ide⟩ pid h = .ub := by
  simp [Disk.brelse, hb]

/-- `memmove` between two handles of the cache. -/
theorem copy_of_get? {dst src : Nat} {bd bs : Buffer} (hd : c.buffers.get? dst = some bd)
    (hs : c.buffers.get? src = some bs) :
    Disk.copy ⟨c, ide⟩ dst src = .ok ⟨⟨c.buffers.modify dst fun b => { b with data := bs.data }⟩, ide⟩ := by
  simp [Disk.copy, bdata_of_get? hs, bsetData_of_get? hd]

end Disk

/-! ## Recovery at boot -/

/-- An empty cache has one buffer per block. -/
theorem cacheOk_of_nil {c : BufferCache} (hc : c.buffers.toList = []) : CacheOk c :=
  ⟨by simp [hc], by simp [hc]⟩

/-- `read_head` on the empty cache of boot reads the header and leaves the cache empty. -/
theorem read_head_of_nil {log : Log} {pid : Nat} {c : BufferCache} {ide : IDE} {lh : List Nat}
    (hc : c.buffers.toList = []) (hdisk : log.dev ≠ 0 → ide.havedisk1 = true)
    (hstart : log.start < FSSIZE) (hhead : readHeader (ide.disk (log.dev % 2, log.start)) = some lh) :
    ∃ c', read_head log pid ⟨c, ide⟩ = .ok ({ log with lh }, ⟨c', ide⟩) ∧ c'.buffers.toList = [] := by
  have hlen : c.buffers.len = 0 := by simp [ArrayVec.len, hc]
  obtain ⟨c₁, hread, hl₁⟩ := @bread_miss _ _ pid _ _ (cacheOk_of_nil hc) (by simp [hc])
    (by rw [hlen]; decide) hstart hdisk
  rw [hlen] at hread
  rw [hc, List.nil_append] at hl₁
  -- the header buffer is the only one, and its release empties the cache
  have hb : c₁.buffers.get? 0 = some (ide.fresh pid log.dev log.start) := by
    simp [ArrayVec.get?, hl₁]
  obtain ⟨c₂, hrel, hl₂⟩ := @brelse_last c₁ pid [] _ (by simpa using hl₁) (by simp)
    (by simp [IDE.fresh, SleepLock.isLocked]) rfl rfl
  rw [List.length_nil] at hrel
  refine ⟨c₂, ?_, hl₂⟩
  simp only [read_head, Disk.bread_of_ok hread, Outcome.ok_bind, bdata_of_get? hb]
  simp only [IDE.fresh] at hhead ⊢
  simp only [hhead, Disk.brelse_of_ok hrel, Outcome.ok_bind, Outcome.pure_eq]

/-- **The first turn of `install_trans` on an empty cache dangles.** The log block is pushed at
position 0 and the home block at position 1; releasing the log block moves the home block's buffer
to position 0, and the release of the home block goes through position 1, past the end. -/
theorem installStep_dangles {log : Log} {pid : Nat} {c : BufferCache} {ide : IDE}
    (hc : c.buffers.toList = []) (hdisk : log.dev ≠ 0 → ide.havedisk1 = true)
    (hstart : log.start + 1 < FSSIZE) (hb : log.lh.getD 0 0 < FSSIZE)
    (hne : log.lh.getD 0 0 ≠ log.start + 1) :
    installStep log pid ⟨c, ide⟩ 0 = .ub := by
  generalize hhome : log.lh.getD 0 0 = home at hb hne
  have hlen : c.buffers.len = 0 := by simp [ArrayVec.len, hc]
  -- the log block, pushed at position 0
  obtain ⟨c₁, hread₁, hl₁⟩ := @bread_miss _ _ pid _ _ (cacheOk_of_nil hc) (by simp [hc])
    (by rw [hlen]; decide) hstart hdisk
  rw [hlen] at hread₁
  rw [hc, List.nil_append] at hl₁
  have hc₁ : CacheOk c₁ := ⟨by simp [hl₁], by simp [hl₁, Buffer.inUse, IDE.fresh]⟩
  have hlen₁ : c₁.buffers.len = 1 := by simp [ArrayVec.len, hl₁]
  -- the home block, pushed at position 1
  obtain ⟨c₂, hread₂, hl₂⟩ := @bread_miss _ _ pid _ _ hc₁
    (by simpa [hl₁, IDE.fresh, Buffer.key] using Ne.symm hne) (by rw [hlen₁]; decide) hb hdisk
  rw [hlen₁] at hread₂
  rw [hl₁] at hl₂
  set L := ide.fresh pid log.dev (log.start + 1)
  set D := ide.fresh pid log.dev home
  have hL : c₂.buffers.get? 0 = some L := by simp [ArrayVec.get?, hl₂]
  have hD : c₂.buffers.get? 1 = some D := by simp [ArrayVec.get?, hl₂]
  -- the copy and the write of the home block
  set D' : Buffer := { D with data := L.data }
  have hD' : (c₂.buffers.modify 1 fun b => { b with data := L.data }).get? 1 = some D' := by
    rw [ArrayVec.get?_modify_self, hD]
    rfl
  have hwrite := @bwrite_of_get? ⟨c₂.buffers.modify 1 fun b => { b with data := L.data }⟩ ide pid
    1 D' hD'
    (by simp [D', D, IDE.fresh, SleepLock.isLocked]) hb hdisk
  set c₄ : BufferCache := ⟨(c₂.buffers.modify 1 fun b => { b with data := L.data }).modify 1
    fun _ => { D' with flags := ⟨true, false⟩ }⟩
  have hl₄ : c₄.buffers.toList = [L, { D' with flags := ⟨true, false⟩ }] := by
    simp [c₄, hl₂, List.modify_succ_cons]
  have hc₄ : CacheOk c₄ := by
    constructor
    · simpa [hl₄, L, D', D, IDE.fresh, Buffer.key] using Ne.symm hne
    · simp [hl₄, L, D', D, IDE.fresh, Buffer.inUse]
  -- releasing the log block leaves position 1 empty
  obtain ⟨c₅, hrel, hnone⟩ := @brelse_moves_last c₄ pid 0 L hc₄
    (by simp [ArrayVec.get?, hl₄])
    (by simp [ArrayVec.len, hl₄]) (by simp [L, IDE.fresh, SleepLock.isLocked]) rfl rfl
  rw [show c₄.buffers.len - 1 = 1 by simp [ArrayVec.len, hl₄]] at hnone
  simp only [installStep, Disk.bread_of_ok hread₁, Outcome.ok_bind, hhome,
    Disk.bread_of_ok hread₂, Disk.copy_of_get? hD hL, Disk.bwrite_of_ok hwrite,
    Disk.brelse_of_ok hrel, Disk.brelse_of_ub (brelse_of_get?_none hnone)]

/-- **Recovery of a committed transaction dangles.** At boot the cache is empty; when the header
on disk logs a transaction of at least one block, outside the log's first block, `recover_from_log`
reads it and its first turn of `install_trans` releases the home block through a dangling handle.
-/
theorem recover_from_log_dangles {log : Log} {pid : Nat} {ide : IDE} {b : Nat} {bs : List Nat}
    (hdisk : log.dev ≠ 0 → ide.havedisk1 = true) (hstart : log.start + 1 < FSSIZE)
    (hhead : readHeader (ide.disk (log.dev % 2, log.start)) = some (b :: bs))
    (hb : b < FSSIZE) (hne : b ≠ log.start + 1) :
    recover_from_log log pid ⟨BufferCache.new, ide⟩ = .ub := by
  obtain ⟨c, hread, hc⟩ := @read_head_of_nil log pid BufferCache.new ide _ rfl hdisk
    (by omega) hhead
  have hinstall : install_trans { log with lh := b :: bs } pid ⟨c, ide⟩ = .ub := by
    rw [install_trans, List.length_cons, List.range_succ_eq_map, Outcome.run_cons,
      @installStep_dangles { log with lh := b :: bs } pid c ide hc hdisk hstart hb hne, Outcome.ub_bind]
  simp only [recover_from_log, hread, Outcome.ok_bind, hinstall, Outcome.ub_bind]

/-- A transaction of one block: block 40 of the root disk, logged and pinned `DIRTY` in the cache
with new contents, as `log_write` leaves it once its operation has released it. -/
def pinnedCache : BufferCache :=
  ⟨⟨[⟨⟨true, true⟩, ROOTDEV, 40, SleepLock.new, 0, Vector.replicate BSIZE 7⟩], by decide⟩⟩

/-- The first two writes of `commit` for that transaction: the log block, then the header. -/
def commitPointWrites : List ((Nat × Nat) × Block) :=
  [((1, 3), Vector.replicate BSIZE 7), ((1, 2), headerBytes zeroBlock [40])]

set_option maxRecDepth 20000 in
/-- `commit` of block 40 on a blank disk, cut after its second write, the header: recovery at the
next boot dangles. -/
theorem recover_after_commit_point :
    (do
      let (_, d) ← commit { Log.init with committing := true, lh := [40] } 1 ⟨pinnedCache, IDE.blank⟩
      pure (d.ide.writes.take 2)) = .ok commitPointWrites ∧
    (Log.init.dev ≠ 0 → ({ IDE.blank with writes := commitPointWrites } : IDE).havedisk1 = true) ∧
    Log.init.start + 1 < FSSIZE ∧
    readHeader (({ IDE.blank with writes := commitPointWrites } : IDE).disk
      (Log.init.dev % 2, Log.init.start)) = some [40] ∧
    40 < FSSIZE ∧ 40 ≠ Log.init.start + 1 ∧
    recover_from_log Log.init 1 ⟨BufferCache.new, { IDE.blank with writes := commitPointWrites }⟩ =
      .ub := by
  have hhead : readHeader (({ IDE.blank with writes := commitPointWrites } : IDE).disk
      (Log.init.dev % 2, Log.init.start)) = some [40] := by decide
  refine ⟨rfl, by decide, by decide, hhead, by decide, by decide, ?_⟩
  exact recover_from_log_dangles (by decide) (by decide) hhead (by decide) (by decide)

end Xv6
