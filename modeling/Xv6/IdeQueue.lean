import Mathlib
import Xv6.Buf

/-!
# The disk request queue

`IDE::rw`, `IDE::start` and `IDE::interrupt_handler` of `ide.rs`, at the grain of `idelock`. A
caller of `rw` holds its buffer's sleep lock; `rw` appends the buffer to `idequeue`, starts the
controller on it if the queue was empty, and waits until the buffer is `VALID` and not `DIRTY`.
The interrupt that the controller raises when it finishes a command takes the head off the queue,
copies the sector in for a read that `wait_ide` finds without error, marks the buffer `VALID` and
not `DIRTY`, and starts the controller on the next request.

The controller is the command it is carrying out (`Command`, issued by `start`) and the two
disks; when it finishes, a write that succeeds stores its data. `Step` is a run of `rw` up to its
wait, an interrupt, the return of a caller whose buffer is done, and what other code does to a
buffer while it holds the buffer's sleep lock. `Reaches s l` records in `l` the buffers appended
to the queue, started and completed, in order.

`Reaches.inv` is the queue's invariant: the queue has no duplicates, the controller is working on
its head exactly when it is not empty, and the buffers completed, followed by the queue, are those
appended, and followed by the head those started; so each request is started once and completed
once, in the order of appending. A caller returns only with its buffer out of the queue, `VALID`
and not `DIRTY`. The completion copies the sector in or writes the data out when the controller
reports success; when it reports an error the buffer is marked `VALID` all the same, and
`rw_returns_stale_read` is a read that returns so without the block's data.
-/

namespace Xv6.IdeQueue

open Machine

/-- A command of the controller: for the buffer at `buf`, a read of block `blockno` of disk
`disk`, or a write of it with the data that `outsl` sent. -/
structure Command where
  /-- The buffer the command is for. -/
  buf : Nat
  /-- The disk, `dev & 1`. -/
  disk : Nat
  /-- The block. -/
  blockno : Nat
  /-- The data of a write. -/
  write : Option Block

/-- `IDE::start` on the buffer `buf` at address `b`: the command it issues. A block is one sector,
so the multi-sector checks never fire. -/
def start (b : Nat) (buf : Buffer) : Outcome Command :=
  if FSSIZE ≤ buf.blockno then .panic "incorrect blockno"
  else .ok ⟨b, buf.dev % 2, buf.blockno, if buf.flags.dirty then some buf.data else none⟩

/-- The driver, the controller and the disks, the buffers, named by their addresses, and the
buffer each process is in `IDE::rw` for. -/
structure IdeState where
  /-- `idequeue`, through the buffers' `qnext` links. -/
  queue : List Nat
  /-- The buffers. -/
  bufs : Nat → Buffer
  /-- Disk 1 answered at initialisation. -/
  havedisk1 : Bool
  /-- The command the controller is carrying out. -/
  device : Option Command
  /-- The blocks of the two disks. -/
  disk : Nat × Nat → Block
  /-- The buffer each process waits for in `IDE::rw`. -/
  waiting : Nat → Option Nat

/-- The driver after `init_ide`, with fresh buffers and the disks' contents `disk`. -/
def IdeState.init (havedisk1 : Bool) (disk : Nat × Nat → Block) : IdeState :=
  ⟨[], fun b => Buffer.new 0 b, havedisk1, none, disk, fun _ => none⟩

/-- `IDE::rw(b)` by process `p` up to its wait: the checks, the append to `idequeue`, and `start`
if the buffer is at the head, that is, if the queue was empty. -/
def rw (s : IdeState) (p b : Nat) : Outcome IdeState :=
  let buf := s.bufs b
  if !buf.lock.isLocked p then .panic "IDE::rw: buf not locked"
  else if buf.flags.valid && !buf.flags.dirty then .panic "IDE::rw: nothing to do"
  else if buf.dev != 0 && !s.havedisk1 then .panic "IDE::rw: ide disk 1 not present"
  else
    let s := { s with queue := s.queue ++ [b], waiting := Function.update s.waiting p (some b) }
    if s.queue.head? = some b then do
      let c ← start b buf
      pure { s with device := some c }
    else pure s

/-- `IDE::interrupt_handler`, given what `wait_ide` returns (`ok`) and the sector on the data port:
the head of the queue completes, and the controller starts on the next request. -/
def interrupt_handler (s : IdeState) (ok : Bool) (sector : Block) : Outcome IdeState :=
  match s.queue with
  | [] => pure s
  | b :: rest =>
    let buf := s.bufs b
    -- `insl` for a read that `wait_ide` finds without error
    let data := if !buf.flags.dirty && ok then sector else buf.data
    let s := { s with
      queue := rest
      bufs := Function.update s.bufs b { buf with flags := ⟨true, false⟩, data } }
    match rest with
    | [] => pure s
    | b' :: _ => do
      let c ← start b' (s.bufs b')
      pure { s with device := some c }

/-- The controller finishes the command `c`: a write that succeeds stores its data. -/
def complete (disk : Nat × Nat → Block) (c : Command) (ok : Bool) : Nat × Nat → Block :=
  match c.write with
  | some data => if ok then Function.update disk (c.disk, c.blockno) data else disk
  | none => disk

/-- The buffers a step appends to the queue, starts, and completes. -/
structure Log where
  /-- Appended by `rw`. -/
  appended : List Nat
  /-- Passed to `start`. -/
  started : List Nat
  /-- Taken off the queue by the interrupt. -/
  completed : List Nat

/-- One log after another. -/
def Log.append (l d : Log) : Log :=
  ⟨l.appended ++ d.appended, l.started ++ d.started, l.completed ++ d.completed⟩

/-- A step of the driver, the controller and the callers. -/
inductive Event where
  /-- Process `p` calls `IDE::rw` on the buffer `b`. -/
  | rw (p b : Nat)
  /-- The controller finishes its command, with success `ok`, and interrupts. -/
  | intr (ok : Bool)
  /-- Process `p`'s wait loop finds its buffer done, and `rw` returns. -/
  | finish (p : Nat)
  /-- Process `p` takes the sleep lock of buffer `b`. -/
  | acquire (p b : Nat)
  /-- Process `p` releases the sleep lock of buffer `b`. -/
  | release (p b : Nat)
  /-- Process `p`, holding buffer `b`'s sleep lock, changes the buffer to `buf`. -/
  | update (p b : Nat) (buf : Buffer)

/-- `Step s e s' d`: the event `e` may happen in `s`, leads to `s'`, and does `d` to the queue's
requests. The events other than `rw` and `finish` are those of a process outside `rw`. -/
def Step (s : IdeState) : Event → IdeState → Log → Prop
  | .rw p b, s', d =>
    s.waiting p = none ∧ rw s p b = .ok s' ∧
      d = ⟨[b], if s.queue = [] then [b] else [], []⟩
  | .intr ok, s', d =>
    ∃ c, s.device = some c ∧
      interrupt_handler { s with disk := complete s.disk c ok, device := none } ok
        (complete s.disk c ok (c.disk, c.blockno)) = .ok s' ∧
      d = ⟨[], s.queue.tail.take 1, s.queue.take 1⟩
  | .finish p, s', d =>
    ∃ b, s.waiting p = some b ∧ (s.bufs b).flags = ⟨true, false⟩ ∧
      s' = { s with waiting := Function.update s.waiting p none } ∧ d = ⟨[], [], []⟩
  | .acquire p b, s', d =>
    s.waiting p = none ∧ ∃ lock, (s.bufs b).lock.acquire p = .ok lock ∧
      s' = { s with bufs := Function.update s.bufs b { s.bufs b with lock } } ∧ d = ⟨[], [], []⟩
  | .release p b, s', d =>
    s.waiting p = none ∧ (s.bufs b).lock.isLocked p = true ∧
      s' = { s with bufs := Function.update s.bufs b { s.bufs b with lock := (s.bufs b).lock.release } } ∧
      d = ⟨[], [], []⟩
  | .update p b buf, s', d =>
    s.waiting p = none ∧ (s.bufs b).lock.isLocked p = true ∧ buf.lock = (s.bufs b).lock ∧
      s' = { s with bufs := Function.update s.bufs b buf } ∧ d = ⟨[], [], []⟩

/-- `Reaches s l`: a run from `init_ide` reaches `s`, with `l` what it did to the queue's requests. -/
inductive Reaches : IdeState → Log → Prop where
  | init (havedisk1 : Bool) (disk : Nat × Nat → Block) :
      Reaches (IdeState.init havedisk1 disk) ⟨[], [], []⟩
  | step {s s' : IdeState} {e : Event} {l d : Log} :
      Reaches s l → Step s e s' d → Reaches s' (l.append d)

@[simp] theorem Log.appended_append (l d : Log) : (l.append d).appended = l.appended ++ d.appended :=
  rfl

@[simp] theorem Log.started_append (l d : Log) : (l.append d).started = l.started ++ d.started :=
  rfl

@[simp] theorem Log.completed_append (l d : Log) :
    (l.append d).completed = l.completed ++ d.completed := rfl

@[simp] theorem Log.append_none (l : Log) : l.append ⟨[], [], []⟩ = l := by
  simp [Log.append]

/-! ## What each function does -/

section Specs

variable {s s' : IdeState} {p b : Nat}

/-- `start` issues its command for the buffer it is given, as the buffer is. -/
theorem start_eq_ok {buf : Buffer} {c : Command} (h : start b buf = .ok c) :
    buf.blockno < FSSIZE ∧
      c = ⟨b, buf.dev % 2, buf.blockno, if buf.flags.dirty then some buf.data else none⟩ := by
  unfold start at h
  by_cases hb : FSSIZE ≤ buf.blockno
  · rw [if_pos hb] at h
    cases h
  · rw [if_neg hb] at h
    cases h
    exact ⟨Nat.lt_of_not_le hb, rfl⟩

/-- `rw` passes its checks, appends the buffer, and starts it if it is the head. -/
theorem rw_spec (h : rw s p b = .ok s') :
    (s.bufs b).lock.isLocked p = true ∧ (s.bufs b).flags ≠ ⟨true, false⟩ ∧
      s'.queue = s.queue ++ [b] ∧ s'.bufs = s.bufs ∧ s'.disk = s.disk ∧
      s'.waiting = Function.update s.waiting p (some b) ∧
      ((s.queue ++ [b]).head? ≠ some b ∧ s'.device = s.device ∨
        (s.queue ++ [b]).head? = some b ∧ ∃ c, start b (s.bufs b) = .ok c ∧ s'.device = some c) := by
  unfold rw at h
  dsimp only at h
  split_ifs at h with hlock hvalid hdisk hhead
  · obtain ⟨c, hc, hs'⟩ := Outcome.bind_eq_ok.mp h
    cases hs'
    refine ⟨by simpa using hlock, ?_, rfl, rfl, rfl, rfl, .inr ⟨hhead, c, hc, rfl⟩⟩
    rintro hf
    simp [hf] at hvalid
  · cases h
    refine ⟨by simpa using hlock, ?_, rfl, rfl, rfl, rfl, .inl ⟨hhead, rfl⟩⟩
    rintro hf
    simp [hf] at hvalid

/-- The head of the queue, once the controller is done with it. -/
def finished (buf : Buffer) (ok : Bool) (sector : Block) : Buffer :=
  { buf with flags := ⟨true, false⟩, data := if !buf.flags.dirty && ok then sector else buf.data }

theorem finished_eq (buf : Buffer) (ok : Bool) (sector : Block) :
    finished buf ok sector =
      { buf with flags := ⟨true, false⟩, data := if !buf.flags.dirty && ok then sector else buf.data } :=
  rfl

/-- The interrupt completes the head and starts the controller on the next request. -/
theorem interrupt_handler_spec {ok : Bool} {sector : Block} {rest : List Nat}
    (hq : s.queue = b :: rest) (h : interrupt_handler s ok sector = .ok s') :
    s'.queue = rest ∧ s'.bufs = Function.update s.bufs b (finished (s.bufs b) ok sector) ∧
      s'.disk = s.disk ∧ s'.waiting = s.waiting ∧
      (rest = [] ∧ s'.device = s.device ∨
        ∃ b' rest' c, rest = b' :: rest' ∧ start b' (s'.bufs b') = .ok c ∧ s'.device = some c) := by
  unfold interrupt_handler at h
  rw [hq] at h
  cases rest with
  | nil =>
    cases h
    exact ⟨rfl, rfl, rfl, rfl, .inl ⟨rfl, rfl⟩⟩
  | cons b' rest' =>
    obtain ⟨c, hc, hs'⟩ := Outcome.bind_eq_ok.mp h
    cases hs'
    exact ⟨rfl, rfl, rfl, rfl, .inr ⟨b', rest', c, rfl, hc, rfl⟩⟩

end Specs

/-! ## The queue's invariant -/

/-- What holds in every reachable state, with the log of the run that reached it. -/
structure Inv (s : IdeState) (l : Log) : Prop where
  /-- No buffer is twice in the queue. -/
  nodup : s.queue.Nodup
  /-- The controller works on the head of the queue, and only when there is one. -/
  device_head : s.device.map Command.buf = s.queue.head?
  /-- The buffers appended are those completed and those still queued. -/
  appended : l.appended = l.completed ++ s.queue
  /-- The buffers started are those completed and the head. -/
  started : l.started = l.completed ++ s.queue.take 1
  /-- A queued buffer has a caller waiting for it. -/
  waiter : ∀ b ∈ s.queue, ∃ p, s.waiting p = some b
  /-- A caller holds the sleep lock of the buffer it waits for. -/
  holds : ∀ p b, s.waiting p = some b → (s.bufs b).lock.isLocked p = true
  /-- A queued buffer is not yet done. -/
  pending : ∀ b ∈ s.queue, (s.bufs b).flags ≠ ⟨true, false⟩
  /-- The controller's command is what `start` issues for its buffer as it is now. -/
  command : ∀ c, s.device = some c → start c.buf (s.bufs c.buf) = .ok c

theorem inv_init (havedisk1 : Bool) (disk : Nat × Nat → Block) :
    Inv (IdeState.init havedisk1 disk) ⟨[], [], []⟩ where
  nodup := List.nodup_nil
  device_head := rfl
  appended := rfl
  started := rfl
  waiter _ hb := absurd hb List.not_mem_nil
  holds _ _ h := by simp [IdeState.init] at h
  pending _ hb := absurd hb List.not_mem_nil
  command _ h := by simp [IdeState.init] at h

section Steps

variable {s s' : IdeState} {l : Log} {p b : Nat}

/-- The buffer of the controller's command is queued. -/
theorem Inv.device_mem (h : Inv s l) {c : Command} (hc : s.device = some c) : c.buf ∈ s.queue := by
  have hhead := h.device_head
  rw [hc] at hhead
  exact List.mem_of_mem_head? hhead.symm

/-- A buffer that a process outside `rw` holds, or that is free, is waited for by no one. -/
theorem Inv.not_waited (h : Inv s l) (hp : s.waiting p = none)
    (hlock : (s.bufs b).lock.isLocked p = true ∨ (s.bufs b).lock.locked = false) (q : Nat) :
    s.waiting q ≠ some b := by
  intro hq
  have hq' := SleepLock.isLocked_iff_holder.mp (h.holds q b hq)
  rcases hlock with hl | hl
  · -- the lock has one holder
    have hqp : q = p :=
      Option.some_injective _ (hq'.symm.trans (SleepLock.isLocked_iff_holder.mp hl))
    subst hqp
    simp [hp] at hq
  · simp [hl] at hq'

/-- A buffer waited for by no one is not queued. -/
theorem Inv.not_queued (h : Inv s l) (hnw : ∀ q, s.waiting q ≠ some b) : b ∉ s.queue :=
  fun hb => (h.waiter b hb).elim hnw

/-- A change to a buffer that no caller waits for keeps `Inv`. -/
theorem Inv.setBuf (h : Inv s l) (hnw : ∀ q, s.waiting q ≠ some b) (buf : Buffer) :
    Inv { s with bufs := Function.update s.bufs b buf } l where
  nodup := h.nodup
  device_head := h.device_head
  appended := h.appended
  started := h.started
  waiter := h.waiter
  holds q b' hq := by
    have hb : b' ≠ b := by
      rintro rfl
      exact hnw q hq
    simpa [hb] using h.holds q b' hq
  pending b' hb' := by
    have hb : b' ≠ b := by
      rintro rfl
      exact h.not_queued hnw hb'
    simpa [hb] using h.pending b' hb'
  command c hc := by
    have hb : c.buf ≠ b := by
      intro hcb
      exact h.not_queued hnw (hcb ▸ h.device_mem hc)
    simpa [hb] using h.command c hc

/-- A caller whose buffer is done leaves `rw`. -/
theorem Inv.finish (h : Inv s l) (hb : s.waiting p = some b)
    (hdone : (s.bufs b).flags = ⟨true, false⟩) :
    Inv { s with waiting := Function.update s.waiting p none } l where
  nodup := h.nodup
  device_head := h.device_head
  appended := h.appended
  started := h.started
  waiter b' hb' := by
    obtain ⟨q, hq⟩ := h.waiter b' hb'
    -- the caller leaving is not the one waiting for a queued buffer
    have hqp : q ≠ p := by
      rintro rfl
      rw [hb] at hq
      cases hq
      exact h.pending b hb' hdone
    exact ⟨q, by simpa [hqp] using hq⟩
  holds q b' hq := by
    by_cases hqp : q = p
    · subst hqp
      simp at hq
    · exact h.holds q b' (by simpa [hqp] using hq)
  pending := h.pending
  command := h.command

/-- `rw` appends a buffer that is not yet queued, and starts the controller on it if the queue was
empty. -/
theorem Inv.rw (h : Inv s l) (hp : s.waiting p = none) (hrw : rw s p b = .ok s') :
    Inv s' (l.append ⟨[b], if s.queue = [] then [b] else [], []⟩) := by
  obtain ⟨hlock, hflags, hq, hbufs, -, hw, hdev⟩ := rw_spec hrw
  have hnew : b ∉ s.queue := h.not_queued (h.not_waited hp (.inl hlock))
  have hmem : ∀ b', b' ∈ s'.queue ↔ b' ∈ s.queue ∨ b' = b := by simp [hq]
  -- `self.queue == buf` exactly when the queue was empty, since `b` was not queued
  have hdevice : (s.queue = [] ∧ ∃ c, start b (s.bufs b) = .ok c ∧ s'.device = some c) ∨
      (s.queue ≠ [] ∧ s'.device = s.device) := by
    by_cases he : s.queue = []
    · rcases hdev with ⟨hne, -⟩ | ⟨-, hc⟩
      · simp [he] at hne
      · exact .inl ⟨he, hc⟩
    · rcases hdev with ⟨-, hd⟩ | ⟨hhead, -⟩
      · exact .inr ⟨he, hd⟩
      · rw [List.head?_append_of_ne_nil _ he] at hhead
        exact absurd (List.mem_of_mem_head? hhead) hnew
  refine ⟨?nodup, ?device_head, ?appended, ?started, ?waiter, ?holds, ?pending, ?command⟩
  case nodup =>
    rw [hq]
    exact h.nodup.append (List.nodup_singleton b) (List.disjoint_singleton.mpr hnew)
  case appended => simp [hq, h.appended]
  case waiter =>
    intro b' hb'
    rcases (hmem b').mp hb' with hb' | rfl
    · obtain ⟨q, hq'⟩ := h.waiter b' hb'
      have hqp : q ≠ p := by
        rintro rfl
        simp [hp] at hq'
      exact ⟨q, by simp [hw, hqp, hq']⟩
    · exact ⟨p, by simp [hw]⟩
  case holds =>
    intro q b' hq'
    rw [hbufs]
    by_cases hqp : q = p
    · subst hqp
      obtain rfl : b' = b := by simpa [hw] using hq'.symm
      exact hlock
    · exact h.holds q b' (by simpa [hw, hqp] using hq')
  case pending =>
    intro b' hb'
    rw [hbufs]
    rcases (hmem b').mp hb' with hb' | rfl
    · exact h.pending b' hb'
    · exact hflags
  all_goals rcases hdevice with ⟨he, c, hc, hd⟩ | ⟨he, hd⟩
  case device_head.inl =>
    rw [hd, hq, he, (start_eq_ok hc).2]
    rfl
  case device_head.inr =>
    rw [hd, hq, List.head?_append_of_ne_nil _ he]
    exact h.device_head
  case started.inl => simp [hq, he, h.started]
  case started.inr =>
    have hlen : 1 ≤ s.queue.length := List.length_pos_iff.mpr he
    simp [hq, he, h.started, List.take_append_of_le_length hlen]
  case command.inl =>
    intro c' hc'
    rw [hd] at hc'
    cases hc'
    have hcb : c.buf = b := by rw [(start_eq_ok hc).2]
    rw [hbufs, hcb]
    exact hc
  case command.inr =>
    intro c' hc'
    rw [hbufs]
    exact h.command c' (hd ▸ hc')

/-- The controller's command is for the head of the queue. -/
theorem Inv.queue_of_device (h : Inv s l) {c : Command} (hc : s.device = some c) :
    ∃ rest, s.queue = c.buf :: rest := by
  have hhead := h.device_head
  rw [hc] at hhead
  cases hq : s.queue with
  | nil =>
    rw [hq] at hhead
    cases hhead
  | cons b rest =>
    rw [hq] at hhead
    exact ⟨rest, by simpa using hhead.symm⟩

/-- The interrupt completes the head of the queue and starts the controller on the next
request. -/
theorem Inv.intr (h : Inv s l) {c : Command} (hc : s.device = some c) {ok : Bool}
    {disk : Nat × Nat → Block} {sector : Block}
    (hrun : interrupt_handler { s with disk := disk, device := none } ok sector = .ok s') :
    Inv s' (l.append ⟨[], s.queue.tail.take 1, s.queue.take 1⟩) := by
  obtain ⟨rest, hq⟩ := h.queue_of_device hc
  obtain ⟨hq', hbufs, -, hw, hdev⟩ :=
    interrupt_handler_spec (s := { s with disk := disk, device := none }) hq hrun
  have hnodup := hq ▸ h.nodup
  have hlock : ∀ b', (s'.bufs b').lock = (s.bufs b').lock := by
    intro b'
    by_cases hb : b' = c.buf
    · subst hb
      simp [hbufs, finished_eq]
    · simp [hbufs, hb]
  -- the rest of the queue keeps its buffers
  have hrest : ∀ b' ∈ rest, s'.bufs b' = s.bufs b' := by
    intro b' hb'
    have hb : b' ≠ c.buf := by
      rintro rfl
      exact (List.nodup_cons.mp hnodup).1 hb'
    simp [hbufs, hb]
  refine ⟨?nodup, ?device_head, ?appended, ?started, ?waiter, ?holds, ?pending, ?command⟩
  case nodup => exact hq' ▸ (List.nodup_cons.mp hnodup).2
  case appended => simp [hq, hq', h.appended]
  case started => simp [hq, hq', h.started]
  case waiter =>
    intro b' hb'
    rw [hw]
    exact h.waiter b' (by rw [hq]; exact List.mem_cons_of_mem _ (hq' ▸ hb'))
  case holds =>
    intro q b' hq₂
    rw [SleepLock.isLocked, hlock]
    exact h.holds q b' (hw ▸ hq₂)
  case pending =>
    intro b' hb'
    rw [hq'] at hb'
    rw [hrest b' hb']
    exact h.pending b' (by rw [hq]; exact List.mem_cons_of_mem _ hb')
  all_goals rcases hdev with ⟨hnil, hd⟩ | ⟨b', rest', c', hcons, hc', hd⟩
  case device_head.inl => rw [hd, hq', hnil]; rfl
  case device_head.inr => rw [hd, hq', hcons, (start_eq_ok hc').2]; rfl
  case command.inl =>
    intro c₂ hc₂
    rw [hd] at hc₂
    cases hc₂
  case command.inr =>
    intro c₂ hc₂
    rw [hd] at hc₂
    cases hc₂
    have hcb : c'.buf = b' := by rw [(start_eq_ok hc').2]
    rw [hcb]
    exact hc'

/-- Every step keeps `Inv`. -/
theorem Inv.step (h : Inv s l) {e : Event} {d : Log} (hs : Step s e s' d) :
    Inv s' (l.append d) := by
  cases e with
  | rw p b =>
    obtain ⟨hp, hrw, rfl⟩ := hs
    exact h.rw hp hrw
  | intr ok =>
    obtain ⟨c, hc, hrun, rfl⟩ := hs
    exact h.intr hc hrun
  | finish p =>
    obtain ⟨b, hb, hdone, rfl, rfl⟩ := hs
    simpa using h.finish hb hdone
  -- what a process outside `rw` does to a buffer it holds, or to a free one, no caller waits for
  | acquire p b =>
    obtain ⟨hp, lock, hacq, rfl, rfl⟩ := hs
    have hfree : (s.bufs b).lock.locked = false := (SleepLock.acquire_eq_ok.mp hacq).1
    simpa using h.setBuf (h.not_waited hp (.inr hfree)) _
  | release p b =>
    obtain ⟨hp, hl, rfl, rfl⟩ := hs
    simpa using h.setBuf (h.not_waited hp (.inl hl)) _
  | update p b buf =>
    obtain ⟨hp, hl, -, rfl, rfl⟩ := hs
    simpa using h.setBuf (h.not_waited hp (.inl hl)) buf

end Steps

/-- `Inv` holds in every reachable state. -/
theorem Reaches.inv {s : IdeState} {l : Log} (h : Reaches s l) : Inv s l := by
  induction h with
  | init havedisk1 disk => exact inv_init havedisk1 disk
  | step _ hs ih => exact ih.step hs

/-! ## Completion and return -/

section Completion

variable {s s' : IdeState} {l : Log}

/-- When the controller finishes the head's command, the head is `VALID` and not `DIRTY`; if the
controller reports success, a read has copied in its block and a write has stored its data. -/
theorem Inv.intr_completes (h : Inv s l) {b : Nat} {rest : List Nat} {ok : Bool} {d : Log}
    (hq : s.queue = b :: rest) (hs : Step s (.intr ok) s' d) :
    (s'.bufs b).flags = ⟨true, false⟩ ∧
      (ok = true → (s.bufs b).flags.dirty = false →
        (s'.bufs b).data = s.disk ((s.bufs b).dev % 2, (s.bufs b).blockno)) ∧
      (ok = true → (s.bufs b).flags.dirty = true →
        s'.disk ((s.bufs b).dev % 2, (s.bufs b).blockno) = (s.bufs b).data) := by
  obtain ⟨c, hc, hrun, -⟩ := hs
  -- the command is `start`'s for the head, as the head is now
  obtain ⟨rest', hq'⟩ := h.queue_of_device hc
  have hcb : c.buf = b := by
    rw [hq] at hq'
    exact (List.cons.inj hq').1.symm
  have hcmd := (start_eq_ok (hcb ▸ h.command c hc)).2
  have hkey : (c.disk, c.blockno) = ((s.bufs b).dev % 2, (s.bufs b).blockno) := by rw [hcmd]
  obtain ⟨-, hbufs, hdisk, -⟩ :=
    interrupt_handler_spec (s := { s with disk := complete s.disk c ok, device := none }) hq hrun
  refine ⟨by simp [hbufs, finished_eq], fun hok hclean => ?_, fun hok hdirty => ?_⟩
  · -- a read: the sector on the data port is the block, which the read left as it was
    have hwrite : c.write = none := by rw [hcmd]; simp [hclean]
    simp [hbufs, finished_eq, hclean, hok, complete, hwrite, hkey]
  · -- a write: the controller stored the data `outsl` sent
    have hwrite : c.write = some (s.bufs b).data := by rw [hcmd]; simp [hdirty]
    rw [hdisk, ← hkey]
    simp [complete, hwrite, hok]

end Completion

/-- The disk request queue: in every state reached by any interleaving of `IDE::rw` calls and
completion interrupts, the queue has no duplicates, the controller works on its head exactly when
it is not empty, and the buffers completed followed by those queued are those appended, and
followed by the head those started, so that each appended buffer is started once and completed
once, in the order of appending. A call of `rw` returns only once its buffer is out of the queue,
`VALID` and not `DIRTY`. The interrupt that completes a buffer marks it `VALID` and not `DIRTY`,
and when the controller reports success it has copied the block in for a read and stored the data
for a write. -/
theorem ide_queue_protocol :
    (∀ s l, Reaches s l → s.queue.Nodup ∧ s.device.map Command.buf = s.queue.head? ∧
      l.appended = l.completed ++ s.queue ∧ l.started = l.completed ++ s.queue.take 1) ∧
    (∀ s l s' d p, Reaches s l → Step s (.finish p) s' d →
      ∃ b, s.waiting p = some b ∧ b ∉ s.queue ∧ (s.bufs b).flags = ⟨true, false⟩) ∧
    (∀ s l s' d ok b rest, Reaches s l → s.queue = b :: rest → Step s (.intr ok) s' d →
      (s'.bufs b).flags = ⟨true, false⟩ ∧
      (ok = true → (s.bufs b).flags.dirty = false →
        (s'.bufs b).data = s.disk ((s.bufs b).dev % 2, (s.bufs b).blockno)) ∧
      (ok = true → (s.bufs b).flags.dirty = true →
        s'.disk ((s.bufs b).dev % 2, (s.bufs b).blockno) = (s.bufs b).data)) := by
  refine ⟨fun s l h => ?_, fun s l s' d p h hs => ?_,
    fun s l s' d ok b rest h hq hs => h.inv.intr_completes hq hs⟩
  · have hi := h.inv
    exact ⟨hi.nodup, hi.device_head, hi.appended, hi.started⟩
  · obtain ⟨b, hb, hdone, -⟩ := hs
    exact ⟨b, hb, fun hq => h.inv.pending b hq hdone, hdone⟩

/-- Process 1 has called `rw` on buffer 3: the queue is that buffer, started. -/
theorem ide_queue_protocol_queued :
    ∃ s l, Reaches s l ∧ s.queue = [3] ∧ s.queue.Nodup ∧
      s.device.map Command.buf = s.queue.head? ∧
      l.appended = l.completed ++ s.queue ∧ l.started = l.completed ++ s.queue.take 1 := by
  have hreach := Reaches.step (e := .rw 1 3)
    (.step (e := .acquire 1 3) (.init true fun _ => Vector.replicate BSIZE 7)
      ⟨rfl, _, rfl, rfl, rfl⟩)
    ⟨rfl, rfl, rfl⟩
  exact ⟨_, _, hreach, rfl, ide_queue_protocol.1 _ _ hreach⟩

/-- A read whose interrupt finds the controller reporting an error: `rw` returns with the buffer
`VALID` and not `DIRTY`, but without the block's data. -/
theorem rw_returns_stale_read :
    ∃ s l s' d, Reaches s l ∧ Step s (.finish 1) s' d ∧ s.waiting 1 = some 3 ∧
      (s.bufs 3).flags = ⟨true, false⟩ ∧ (s.bufs 3).dev = 0 ∧ (s.bufs 3).blockno = 3 ∧
      (s.bufs 3).data ≠ s.disk (0, 3) := by
  refine ⟨_, _, _, _,
    .step (e := .intr false)
      (.step (e := .rw 1 3)
        (.step (e := .acquire 1 3) (.init true fun _ => Vector.replicate BSIZE 7)
          ⟨rfl, _, rfl, rfl, rfl⟩)
        ⟨rfl, rfl, rfl⟩)
      ⟨_, rfl, rfl, rfl⟩,
    ⟨3, rfl, rfl, rfl, rfl⟩, rfl, rfl, rfl, rfl, ?_⟩
  -- the buffer kept the zeroes it was made with, the block holds sevens
  show zeroBlock ≠ Vector.replicate BSIZE 7
  intro h
  have h0 := congrArg (fun v : Block => v.get ⟨0, by decide⟩) h
  simp [zeroBlock] at h0

end Xv6.IdeQueue
