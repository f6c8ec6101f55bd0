import Xv6.Param
import Xv6.SleepLock
import Xv6.Lib.ArrayVec
import Xv6.Lib.Writes

/-!
# The buffer cache

`BufferCache` of `buf.rs` keeps its buffers inline in an `ArrayVec<Buffer, NBUF>`. A caller of
`bread` gets a reference to a buffer, that is, a position in the vector, and keeps it until it
passes it to `brelse`. `get` first drops, with `retain`, every buffer that is neither referenced
nor `DIRTY`, and `release_buffer` removes a buffer whose last reference goes, with `swap_remove`.
Both move other buffers between positions while their holders keep the old positions.

The disk is `IDE::rw` of `ide.rs` at completion: a write stores the buffer's data in its block,
a read fills the buffer from it, and either sets `VALID` and clears `DIRTY`. The disk is its
initial contents and the list of single-block writes made to it (`Machine.applyWrites`), so that a
crash after any number of writes is a prefix of that list.

Each of `bread`, `bwrite` and `brelse` is one step. A step takes effect when the buffer's sleep
lock is free; while another holder has it, `bread` blocks. A step through a position that holds
no buffer any more writes through a dangling reference, which the model leaves undefined.

`CacheOk` says that the cache holds one buffer per block, each referenced or `DIRTY`.
`releaseBuffer_moves_last` shows what goes wrong with the positions: releasing the last reference
to a buffer that is not the last one moves the last buffer away from its holders' position, and
`bread_handle_moved` is the shortest run in which this happens.
-/

namespace Xv6

open Machine

/-- The two bits of `Buffer::flags` that the cache and the disk driver use. -/
structure Flags where
  /-- `Buffer::VALID`: the buffer has been read from disk. -/
  valid : Bool
  /-- `Buffer::DIRTY`: the buffer needs to be written to disk. -/
  dirty : Bool
  deriving DecidableEq, Repr

/-- `Buffer`, without the links `prev`, `next` and `qnext` that no modelled code reads. -/
structure Buffer where
  /-- `VALID` and `DIRTY`. -/
  flags : Flags
  /-- The device. -/
  dev : Nat
  /-- The block number on the device. -/
  blockno : Nat
  /-- The buffer's sleep lock. -/
  lock : SleepLock
  /-- The number of references handed out and not yet released. -/
  refcnt : Nat
  /-- The block's contents. -/
  data : Block
  deriving DecidableEq

namespace Buffer

/-- `Buffer::new`: no flags, one reference, a free lock, and zeroed data. -/
def new (dev blockno : Nat) : Buffer :=
  { flags := ⟨false, false⟩, dev, blockno, lock := SleepLock.new, refcnt := 1, data := zeroBlock }

/-- The block a buffer caches, `(dev, blockno)`. -/
def key (b : Buffer) : Nat × Nat := (b.dev, b.blockno)

/-- The test of `get`'s `retain`: the buffer is referenced or `DIRTY`. -/
def inUse (b : Buffer) : Bool := b.refcnt != 0 || b.flags.dirty

end Buffer

/-- The disk controller: whether disk 1 is present, and the two disks' blocks, as their initial
contents and the single-block writes made since, oldest first. -/
structure IDE where
  /-- Disk 1 answered at initialisation. -/
  havedisk1 : Bool
  /-- The blocks of disk `d` at `(d, b)`, before any write. -/
  base : Nat × Nat → Block
  /-- The writes made, oldest first. -/
  writes : List ((Nat × Nat) × Block)

namespace IDE

/-- What block `b` of disk `d` holds now. -/
def disk (ide : IDE) : Nat × Nat → Block := applyWrites ide.writes ide.base

/-- A completed `IDE::rw` by process `pid` on the buffer `buf`: its checks, then, through
`IDE::start` and `IDE::interrupt_handler`, a write of a `DIRTY` buffer's data to its block or a
read of the block into the buffer, after which the buffer is `VALID` and not `DIRTY`. The disk is
`dev & 1`; `IDE::start` refuses a block past the file system. -/
def rw (ide : IDE) (pid : Nat) (buf : Buffer) : Outcome (IDE × Buffer) :=
  if !buf.lock.isLocked pid then .panic "IDE::rw: buf not locked"
  else if buf.flags.valid && !buf.flags.dirty then .panic "IDE::rw: nothing to do"
  else if buf.dev != 0 && !ide.havedisk1 then .panic "IDE::rw: ide disk 1 not present"
  else if FSSIZE ≤ buf.blockno then .panic "incorrect blockno"
  else if buf.flags.dirty then
    .ok ({ ide with writes := ide.writes ++ [((buf.dev % 2, buf.blockno), buf.data)] },
      { buf with flags := ⟨true, false⟩ })
  else
    .ok (ide, { buf with flags := ⟨true, false⟩, data := ide.disk (buf.dev % 2, buf.blockno) })

end IDE

/-- `BufferCache`: the buffers, in an `ArrayVec` of capacity `NBUF`. -/
structure BufferCache where
  /-- The buffers, at their positions. -/
  buffers : ArrayVec Buffer NBUF

namespace BufferCache

/-- `BufferCache::new`: no buffers. -/
def new : BufferCache := ⟨ArrayVec.empty⟩

/-- `BufferCache::push` by process `pid`: a new buffer for the block, locked by the caller, at
the end; its position is returned. -/
def push (c : BufferCache) (dev blockno pid : Nat) : Outcome (BufferCache × Nat) := do
  let buf := Buffer.new dev blockno
  let lock ← buf.lock.acquire pid
  match c.buffers.tryPush { buf with lock } with
  | none => .panic "BufferCache::get: no buffer"
  | some buffers => pure (⟨buffers⟩, buffers.len - 1)

/-- `BufferCache::get` by process `pid`: drop the buffers neither referenced nor `DIRTY`, then
take a reference to, and lock, the block's buffer, or push a new one. The position is returned. -/
def get (c : BufferCache) (dev blockno pid : Nat) : Outcome (BufferCache × Nat) :=
  let buffers := c.buffers.retain Buffer.inUse
  match buffers.position fun buf => buf.dev == dev && buf.blockno == blockno with
  | some idx =>
    match buffers.get? idx with
    | some buf => do
      let lock ← buf.lock.acquire pid
      pure (⟨buffers.modify idx fun b => { b with refcnt := b.refcnt + 1, lock }⟩, idx)
    | none => .ub
  | none => BufferCache.push ⟨buffers⟩ dev blockno pid

/-- `BufferCache::read` by process `pid`: `get`, then a disk read unless the buffer is `VALID`. -/
def read (c : BufferCache) (ide : IDE) (dev blockno pid : Nat) :
    Outcome (BufferCache × IDE × Nat) := do
  let (c, idx) ← c.get dev blockno pid
  match c.buffers.get? idx with
  | some buf =>
    if buf.flags.valid then pure (c, ide, idx)
    else do
      let (ide, buf) ← ide.rw pid buf
      pure (⟨c.buffers.modify idx fun _ => buf⟩, ide, idx)
  | none => .ub

/-- `BufferCache::release_buffer` on the buffer at position `idx`: drop a reference; when none
is left and the buffer is not `DIRTY`, find the buffer's block and `swap_remove` it. -/
def releaseBuffer (c : BufferCache) (idx : Nat) : Outcome BufferCache :=
  match c.buffers.get? idx with
  | some buf =>
    let buffers := c.buffers.modify idx fun b => { b with refcnt := b.refcnt - 1 }
    if buf.refcnt - 1 == 0 && !buf.flags.dirty then
      match buffers.position fun v => v.dev == buf.dev && v.blockno == buf.blockno with
      | some index => pure ⟨buffers.swapRemove index⟩
      | none => .panic "called `Option::unwrap()` on a `None` value"
    else pure ⟨buffers⟩
  | none => .ub

end BufferCache

/-- `bread` by process `pid`: a locked buffer holding the block, as its position. -/
def bread (c : BufferCache) (ide : IDE) (pid dev blockno : Nat) :
    Outcome (BufferCache × IDE × Nat) :=
  c.read ide dev blockno pid

/-- `bwrite` (`Buffer::write`) by process `pid` on the buffer at position `idx`: the caller must
hold its lock; mark it `DIRTY` and write it to disk. -/
def bwrite (c : BufferCache) (ide : IDE) (pid idx : Nat) : Outcome (BufferCache × IDE) :=
  match c.buffers.get? idx with
  | some buf =>
    if !buf.lock.isLocked pid then .panic "Buffer::write"
    else do
      let (ide, buf) ← ide.rw pid { buf with flags := { buf.flags with dirty := true } }
      pure (⟨c.buffers.modify idx fun _ => buf⟩, ide)
  | none => .ub

/-- `brelse` (`Buffer::release`) by process `pid` on the buffer at position `idx`: the caller
must hold its lock; unlock it and release it to the cache. -/
def brelse (c : BufferCache) (pid idx : Nat) : Outcome BufferCache :=
  match c.buffers.get? idx with
  | some buf =>
    if !buf.lock.isLocked pid then .panic "Buffer::release"
    else BufferCache.releaseBuffer ⟨c.buffers.modify idx fun b => { b with lock := b.lock.release }⟩ idx
  | none => .ub

theorem brelse_eq (c : BufferCache) (pid idx : Nat) :
    brelse c pid idx =
      match c.buffers.get? idx with
      | some buf =>
        if !buf.lock.isLocked pid then .panic "Buffer::release"
        else
          BufferCache.releaseBuffer
            ⟨c.buffers.modify idx fun b => { b with lock := b.lock.release }⟩ idx
      | none => .ub := rfl

/-- The data of the buffer at position `idx`, read through the reference. -/
def bdata (c : BufferCache) (idx : Nat) : Outcome Block :=
  match c.buffers.get? idx with
  | some buf => pure buf.data
  | none => .ub

/-- A write of `data` to the buffer at position `idx`, through the reference, as `memmove` and
the header code do. -/
def bsetData (c : BufferCache) (idx : Nat) (data : Block) : Outcome BufferCache :=
  match c.buffers.get? idx with
  | some _ => pure ⟨c.buffers.modify idx fun b => { b with data }⟩
  | none => .ub

/-! ## What the operations keep -/

/-- The state that every operation of the cache keeps: one buffer per block, each referenced or
`DIRTY`. -/
structure CacheOk (c : BufferCache) : Prop where
  /-- No two buffers cache the same block. -/
  keys_nodup : (c.buffers.toList.map Buffer.key).Nodup
  /-- Every buffer is referenced or `DIRTY`. -/
  inUse : ∀ b ∈ c.buffers.toList, b.inUse = true

/-- The handle `idx` denotes the block `k` in `c`: the buffer at its position caches `k`. -/
def Denotes (c : BufferCache) (idx : Nat) (k : Nat × Nat) : Prop :=
  ∃ b, c.buffers.get? idx = some b ∧ b.key = k

theorem CacheOk.new : CacheOk BufferCache.new := ⟨List.nodup_nil, by simp [BufferCache.new]⟩

/-- With every buffer in use, `get`'s `retain` keeps them all. -/
theorem CacheOk.retain_eq {c : BufferCache} (hc : CacheOk c) :
    c.buffers.retain Buffer.inUse = c.buffers :=
  ArrayVec.retain_eq_self hc.inUse

/-- In a vector with one buffer per block, the block of the buffer at `idx` is found at `idx`. -/
theorem position_key {v : ArrayVec Buffer NBUF} (hv : (v.toList.map Buffer.key).Nodup)
    {idx : Nat} {b : Buffer} (hb : v.get? idx = some b) :
    v.position (fun x => x.dev == b.dev && x.blockno == b.blockno) = some idx := by
  rw [ArrayVec.get?, List.getElem?_eq_some_iff] at hb
  obtain ⟨hidx, rfl⟩ := hb
  rw [ArrayVec.position_eq_some]
  refine ⟨hidx, by simp, fun j hji => ?_⟩
  have hj : j < v.toList.length := by omega
  have hne : j ≠ idx := by omega
  have hj' : j < (v.toList.map Buffer.key).length := by simpa using hj
  have hidx' : idx < (v.toList.map Buffer.key).length := by simpa using hidx
  have hkeys : v.toList[j].key ≠ v.toList[idx].key := by
    intro hk
    exact hne ((@List.Nodup.getElem_inj_iff _ _ hv j hj' idx hidx').mp (by simpa using hk))
  simpa [Buffer.key] using hkeys

/-- Unlocking a buffer keeps one buffer per block, each in use. -/
theorem CacheOk.unlock {c : BufferCache} (hc : CacheOk c) (idx : Nat) :
    CacheOk ⟨c.buffers.modify idx fun b => { b with lock := b.lock.release }⟩ := by
  constructor
  · exact ArrayVec.keys_nodup_modify _ hc.keys_nodup idx fun _ _ => rfl
  · intro x hx
    rcases ArrayVec.mem_modify hx with hx | ⟨y, hy, rfl⟩
    · exact hc.inUse x hx
    · exact hc.inUse y (List.mem_of_getElem? hy)

/-- **What breaks handles.** Releasing the last reference to a buffer that is not `DIRTY` and not
the last one moves the last buffer into its position: the last position holds no buffer any
more, though its holders still have it, and the buffer they hold is now at `idx`. -/
theorem releaseBuffer_moves_last {c : BufferCache} {idx : Nat} {b : Buffer} (hc : CacheOk c)
    (hb : c.buffers.get? idx = some b) (hlast : idx + 1 < c.buffers.len) (href : b.refcnt = 1)
    (hclean : b.flags.dirty = false) :
    ∃ c', c.releaseBuffer idx = .ok c' ∧ c'.buffers.get? (c.buffers.len - 1) = none ∧
      c'.buffers.get? idx = c.buffers.get? (c.buffers.len - 1) := by
  have hkeys := ArrayVec.keys_nodup_modify Buffer.key hc.keys_nodup idx
    (f := fun b => { b with refcnt := b.refcnt - 1 }) fun _ _ => rfl
  have hb' : (c.buffers.modify idx fun b => { b with refcnt := b.refcnt - 1 }).get? idx =
      some { b with refcnt := b.refcnt - 1 } := by
    rw [ArrayVec.get?_modify_self, hb]; rfl
  refine ⟨⟨(c.buffers.modify idx fun b => { b with refcnt := b.refcnt - 1 }).swapRemove idx⟩,
    ?_, ?_, ?_⟩
  · unfold BufferCache.releaseBuffer
    simp only [hb, href, hclean, Nat.sub_self, beq_self_eq_true, Bool.not_false, Bool.and_self,
      if_true]
    rw [position_key hkeys hb']
    rfl
  · -- The last position is past the end.
    simp only [ArrayVec.get?, ArrayVec.toList_swapRemove, ArrayVec.len]
    simpa using getElem?_swapRemove_last (c.buffers.toList.modify idx _) idx
  · -- Position `idx` holds what the last position held.
    have hlen : idx + 1 < (c.buffers.toList.modify idx fun b => { b with refcnt := b.refcnt - 1 }).length := by
      simpa [ArrayVec.len] using hlast
    simp only [ArrayVec.get?, ArrayVec.toList_swapRemove, ArrayVec.toList_modify]
    rw [getElem?_swapRemove_self hlen, List.getLast?_eq_getElem?, List.length_modify,
      List.getElem?_modify_ne _ _ (by simp [ArrayVec.len] at hlast; omega)]
    rfl

/-! ## Each operation on a known cache -/

/-- The buffer that `bread` by `pid` leaves for a block it had to push: locked by the caller, with
one reference, `VALID`, and the block's data. -/
def IDE.fresh (ide : IDE) (pid dev blockno : Nat) : Buffer :=
  { flags := ⟨true, false⟩, dev, blockno, lock := ⟨true, pid⟩, refcnt := 1,
    data := ide.disk (dev % 2, blockno) }

/-- A block that no buffer caches gets a new buffer at the end. -/
theorem get_miss {c : BufferCache} {dev blockno pid : Nat} (hc : CacheOk c)
    (hnone : ∀ x ∈ c.buffers.toList, x.key ≠ (dev, blockno)) (hroom : c.buffers.len < NBUF) :
    ∃ c', c.get dev blockno pid = .ok (c', c.buffers.len) ∧
      c'.buffers.toList = c.buffers.toList ++ [{ Buffer.new dev blockno with lock := ⟨true, pid⟩ }] := by
  have hpos : c.buffers.position (fun buf => buf.dev == dev && buf.blockno == blockno) = none := by
    rw [ArrayVec.position_eq_none]
    intro x hx hk
    simp only [Bool.and_eq_true, beq_iff_eq] at hk
    exact hnone x hx (by simp [Buffer.key, hk.1, hk.2])
  obtain ⟨buffers, hpush⟩ :
      ∃ v, c.buffers.tryPush { Buffer.new dev blockno with lock := ⟨true, pid⟩ } = some v := by
    cases h : c.buffers.tryPush _ with
    | none => exact absurd (ArrayVec.tryPush_eq_none.mp h) (by omega)
    | some v => exact ⟨v, rfl⟩
  refine ⟨⟨buffers⟩, ?_, (ArrayVec.tryPush_eq_some.mp hpush).2⟩
  have hlen : buffers.len - 1 = c.buffers.len := by
    simp [ArrayVec.len, (ArrayVec.tryPush_eq_some.mp hpush).2]
  unfold BufferCache.get BufferCache.push
  simp only [hc.retain_eq, hpos, Buffer.new, SleepLock.new, SleepLock.acquire, Bool.false_eq_true,
    if_false, Outcome.ok_bind]
  simp only [Buffer.new, SleepLock.new] at hpush
  rw [hpush, ← hlen]
  rfl

/-- `bread` of a block that no buffer caches reads it from the disk into a new buffer at the end. -/
theorem bread_miss {c : BufferCache} {ide : IDE} {pid dev blockno : Nat} (hc : CacheOk c)
    (hnone : ∀ x ∈ c.buffers.toList, x.key ≠ (dev, blockno)) (hroom : c.buffers.len < NBUF)
    (hblock : blockno < FSSIZE) (hdisk : dev ≠ 0 → ide.havedisk1 = true) :
    ∃ c', bread c ide pid dev blockno = .ok (c', ide, c.buffers.len) ∧
      c'.buffers.toList = c.buffers.toList ++ [ide.fresh pid dev blockno] := by
  obtain ⟨c₁, hget, hlist⟩ := @get_miss c dev blockno pid hc hnone hroom
  have hb : c₁.buffers.get? c.buffers.len = some { Buffer.new dev blockno with lock := ⟨true, pid⟩ } := by
    simp [ArrayVec.get?, ArrayVec.len, hlist]
  -- the new buffer is not `VALID`, so `IDE::rw` reads it, past each of its checks
  have hrw : ide.rw pid { Buffer.new dev blockno with lock := ⟨true, pid⟩ } =
      .ok (ide, ide.fresh pid dev blockno) := by
    have hdev : (dev != 0 && !ide.havedisk1) = false := by
      by_cases h0 : dev = 0
      · simp [h0]
      · simp [hdisk h0]
    simp [IDE.rw, SleepLock.isLocked, Buffer.new, hdev, Nat.not_le.mpr hblock, IDE.fresh]
  refine ⟨⟨c₁.buffers.modify c.buffers.len fun _ => ide.fresh pid dev blockno⟩, ?_, ?_⟩
  · simp only [bread, BufferCache.read, hget, Outcome.ok_bind, hb]
    simp only [Buffer.new, Bool.false_eq_true, if_false]
    simp only [Buffer.new] at hrw
    rw [hrw]
    rfl
  · simp only [ArrayVec.toList_modify, hlist, ArrayVec.len]
    exact modify_concat_length _ _ _

/-- Reading the data through a handle. -/
theorem bdata_of_get? {c : BufferCache} {idx : Nat} {b : Buffer} (hb : c.buffers.get? idx = some b) :
    bdata c idx = .ok b.data := by
  simp [bdata, hb]

/-- Writing the data through a handle. -/
theorem bsetData_of_get? {c : BufferCache} {idx : Nat} {b : Buffer}
    (hb : c.buffers.get? idx = some b) (data : Block) :
    bsetData c idx data = .ok ⟨c.buffers.modify idx fun b => { b with data }⟩ := by
  simp [bsetData, hb]

/-- `bwrite` of a locked buffer writes its data to its block and leaves it `VALID`, not `DIRTY`. -/
theorem bwrite_of_get? {c : BufferCache} {ide : IDE} {pid idx : Nat} {b : Buffer}
    (hb : c.buffers.get? idx = some b) (hlock : b.lock.isLocked pid = true)
    (hblock : b.blockno < FSSIZE) (hdisk : b.dev ≠ 0 → ide.havedisk1 = true) :
    bwrite c ide pid idx =
      .ok (⟨c.buffers.modify idx fun _ => { b with flags := ⟨true, false⟩ }⟩,
        { ide with writes := ide.writes ++ [((b.dev % 2, b.blockno), b.data)] }) := by
  have hdev : (b.dev != 0 && !ide.havedisk1) = false := by
    by_cases h0 : b.dev = 0
    · simp [h0]
    · simp [hdisk h0]
  simp [bwrite, hb, hlock, IDE.rw, hdev, Nat.not_le.mpr hblock]

/-- A handle past the end of the cache dangles: `brelse` through it has no meaning. -/
theorem brelse_of_get?_none {c : BufferCache} {pid idx : Nat} (hb : c.buffers.get? idx = none) :
    brelse c pid idx = .ub := by
  simp [brelse_eq, hb]

/-- Releasing the only reference to a clean buffer at the end drops it, and moves nothing. -/
theorem brelse_last {c : BufferCache} {pid : Nat} {l : List Buffer} {x : Buffer}
    (hc : c.buffers.toList = l ++ [x]) (hkey : ∀ y ∈ l, y.key ≠ x.key)
    (hlock : x.lock.isLocked pid = true) (href : x.refcnt = 1) (hclean : x.flags.dirty = false) :
    ∃ c', brelse c pid l.length = .ok c' ∧ c'.buffers.toList = l := by
  have hb : c.buffers.get? l.length = some x := by simp [ArrayVec.get?, hc]
  -- after unlocking, the buffer is still the last one, and the only one of its block
  have hpos : ((c.buffers.modify l.length fun b => { b with lock := b.lock.release }).modify
      l.length (fun b => { b with refcnt := b.refcnt - 1 })).position
        (fun v => v.dev == x.dev && v.blockno == x.blockno) = some l.length := by
    rw [ArrayVec.position_eq_some]
    simp only [ArrayVec.toList_modify, hc, modify_concat_length]
    refine ⟨by simp, by simp, fun j hj => ?_⟩
    have hne := hkey l[j] (List.getElem_mem _)
    simp only [Buffer.key, ne_eq, Prod.mk.injEq, not_and] at hne
    simp only [List.getElem_append_left hj, Bool.and_eq_true, beq_iff_eq, not_and]
    exact hne
  refine ⟨⟨((c.buffers.modify l.length fun b => { b with lock := b.lock.release }).modify l.length
    fun b => { b with refcnt := b.refcnt - 1 }).swapRemove l.length⟩, ?_, ?_⟩
  · simp only [brelse_eq, hb, hlock, Bool.not_true, Bool.false_eq_true, if_false]
    unfold BufferCache.releaseBuffer
    simp only [ArrayVec.get?_modify_self, hb, Option.map_some, href, Nat.sub_self,
      beq_self_eq_true, hclean, Bool.not_false, Bool.and_self, if_true]
    rw [hpos]
    rfl
  · simp only [ArrayVec.toList_swapRemove, ArrayVec.toList_modify, hc, modify_concat_length]
    rw [swapRemove_last (by simp)]
    simp

/-- Releasing the only reference to a clean buffer before the last one leaves the last position
empty: the last buffer moves to the released one's position. -/
theorem brelse_moves_last {c : BufferCache} {pid idx : Nat} {b : Buffer} (hc : CacheOk c)
    (hb : c.buffers.get? idx = some b) (hlast : idx + 1 < c.buffers.len)
    (hlock : b.lock.isLocked pid = true) (href : b.refcnt = 1) (hclean : b.flags.dirty = false) :
    ∃ c', brelse c pid idx = .ok c' ∧ c'.buffers.get? (c.buffers.len - 1) = none := by
  have hb' : (c.buffers.modify idx fun b => { b with lock := b.lock.release }).get? idx =
      some { b with lock := b.lock.release } := by
    rw [ArrayVec.get?_modify_self, hb]
    rfl
  obtain ⟨c', hrel, hnone, -⟩ :=
    releaseBuffer_moves_last (hc.unlock idx) hb' (by simpa using hlast) href hclean
  refine ⟨c', ?_, by simpa using hnone⟩
  simp only [brelse_eq, hb, hlock, Bool.not_true, Bool.false_eq_true, if_false]
  exact hrel

/-- A controller with both disks present and every block zero. -/
def IDE.blank : IDE := ⟨true, fun _ => zeroBlock, []⟩

/-- Process 1 reads block 1 and process 2 block 2 of the root disk, into positions 0 and 1; when
process 1 releases its buffer, the buffer of block 2 moves to position 0, and the handle that
process 2 still holds points past the end. -/
theorem bread_handle_moved :
    (do
      let (c, ide, h1) ← bread BufferCache.new IDE.blank 1 ROOTDEV 1
      let (c, _, h2) ← bread c ide 2 ROOTDEV 2
      let c' ← brelse c 1 h1
      pure ((c.buffers.get? h2).map Buffer.key, (c'.buffers.get? h2).map Buffer.key,
        c'.buffers.position fun b => b.key == (ROOTDEV, 2)) :
        Outcome (Option (Nat × Nat) × Option (Nat × Nat) × Option Nat)) =
    .ok (some (ROOTDEV, 2), none, some 0) := by
  decide

end Xv6
