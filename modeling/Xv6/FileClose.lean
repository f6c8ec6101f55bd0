import Mathlib
import Xv6.File
import Xv6.Log
import Xv6.Spinlock

/-!
# `fileclose` under the file table's lock

The whole of `FileTable::close` of `file.rs`, with its locks: it takes `FILE_TABLE.lock`, drops
the reference (`FileTable.close`), and when the last one goes it closes the pipe end or puts the
inode back inside a transaction, `begin_op`, `iput`, `end_op` of `log.c`, before it releases the
lock. `begin_op` and `end_op` are here with their own lock `log.lock`, and with `sleep` and
`wakeup` on the log, which take `ptable.lock`; `iput`, `pipeclose` and `commit` belong to other
modules and are arguments (`Callees`), so that what is proved holds whatever they do.

`begin_op` and `end_op` do to the log what the lock-free model of `Xv6.Log` does. But the
transaction runs with `FILE_TABLE.lock` still held, so
every `sleep` on the way is entered with two spin locks: the one slept on and the file table's.
When a commit is running or the log has no room for another operation, `begin_op` sleeps, and the
close of the last reference to an inode file panics in `sched` with `"enter_scheduler: locks"`
(`fileclose_sleeps_locked`), as `sleep_locks` says of any sleep under a second lock.
-/

namespace Xv6.FileClose

open Machine ProcTable Spinlock

/-- The spin locks on the path of `fileclose`. -/
inductive Lock where
  /-- `FILE_TABLE.lock`. -/
  | ftable
  /-- `log.lock`. -/
  | log
  /-- `ptable.lock`. -/
  | ptable
  deriving DecidableEq, Repr

instance : Fintype Lock := ⟨{.ftable, .log, .ptable}, fun l => by cases l <;> simp⟩

/-- What `fileclose` reads and writes, seen from the CPU `κ` that runs it: the locks with the
CPU's nesting, the file table, the log, and the state of the current process (`none` when no
process runs). -/
structure Kernel (κ : Type) where
  /-- The three locks, and the CPU. -/
  locks : Locks Lock κ
  /-- `FILE_TABLE`. -/
  ftable : FileTable
  /-- `log`. -/
  log : Log
  /-- `myproc()->state`. -/
  proc : Option ProcState

/-- The functions of other modules that `fileclose` calls. -/
structure Callees (κ : Type) where
  /-- `pipeclose(pipe, writable)`. -/
  pipeclose : Nat → Nat → Kernel κ → Outcome (Kernel κ)
  /-- `iput(ip)`. -/
  iput : Nat → Kernel κ → Outcome (Kernel κ)
  /-- `commit()`: the log's disk work, with no lock taken on entry. -/
  commit : Kernel κ → Outcome (Kernel κ)

variable {κ : Type} [DecidableEq κ]

/-- `wakeup(chan)` of `proc.c`, run by `me`: `ptable.lock` around `wakeup1`, whose work on the
process table is `Xv6.ProcTable.wakeup`. -/
def wakeup (me : κ) (locks : Locks Lock κ) : Outcome (Locks Lock κ) := do
  let locks ← locks.step me (.acquire .ptable)
  locks.step me (.release .ptable)

/-- `sleep(&log, &log.lock)`, run by `me`. -/
def sleepOnLog {α : Type} (me : κ) (k : Kernel κ) : Outcome α :=
  Spinlock.sleep me k.locks.cpu (k.locks.locks .ptable) (k.locks.locks .log) k.proc

/-- `begin_op`, run by `me`: under `log.lock`, sleep while a commit runs or while this operation
might exhaust the log, or else count the operation in. A sleep is left in the scheduler, and the
loop's next test is a later step. -/
def begin_op (me : κ) (k : Kernel κ) : Outcome (Kernel κ) := do
  let locks ← k.locks.step me (.acquire .log)
  let k := { k with locks }
  if k.log.committing then sleepOnLog me k
  else if LOGSIZE < k.log.lh.length + (k.log.outstanding + 1) * MAXOPBLOCKS then sleepOnLog me k
  else
    let k := { k with log := { k.log with outstanding := k.log.outstanding + 1 } }
    let locks ← k.locks.step me (.release .log)
    pure { k with locks }

/-- `end_op`, run by `me`: under `log.lock`, one operation fewer, the panic, and either the start
of the commit or a `wakeup` of the operations waiting for room; then, for the last operation,
`commit` with no lock held, and under `log.lock` again the end of the commit and a `wakeup`. -/
def end_op (commit : Kernel κ → Outcome (Kernel κ)) (me : κ) (k : Kernel κ) :
    Outcome (Kernel κ) := do
  let locks ← k.locks.step me (.acquire .log)
  let log := { k.log with outstanding := k.log.outstanding - 1 }
  if log.committing then .panic "log.committing"
  else
    let do_commit := decide (log.outstanding = 0)
    let log := if do_commit then { log with committing := true } else log
    let locks ← if do_commit then pure locks else wakeup me locks
    let locks ← locks.step me (.release .log)
    let k := { k with locks, log }
    if do_commit then
      let k ← commit k
      let locks ← k.locks.step me (.acquire .log)
      let log := { k.log with committing := false }
      let locks ← wakeup me locks
      let locks ← locks.step me (.release .log)
      pure { k with locks, log }
    else pure k

/-- `FileTable::close` (`fileclose`) of the file at position `idx`, run by `me`: the reference
dropped under `FILE_TABLE.lock`, and what the file was closed while the lock is still held. -/
def fileclose (calls : Callees κ) (me : κ) (idx : Nat) (k : Kernel κ) : Outcome (Kernel κ) := do
  let locks ← k.locks.step me (.acquire .ftable)
  let (ftable, closing) ← k.ftable.close idx
  let k := { k with locks, ftable }
  let k ← match closing with
    | .none => pure k
    | .pipeclose pipe writable => calls.pipeclose pipe writable k
    | .iput ip => do
      let k ← begin_op me k
      let k ← calls.iput ip k
      end_op calls.commit me k
  let locks ← k.locks.step me (.release .ftable)
  pure { k with locks }

/-! ## The log, as `Xv6.Log` has it -/

/-- An `acquire` that completes takes a free lock for `me`, one `push_cli` deeper. -/
theorem step_acquire_eq_ok {locks locks' : Locks Lock κ} {me : κ} {l : Lock} :
    locks.step me (.acquire l) = .ok locks' ↔
      (locks.locks l).locked = false ∧
        locks' = ⟨Function.update locks.locks l ⟨true, some me⟩, push_cli locks.cpu⟩ := by
  constructor
  · intro h
    obtain ⟨⟨lk, cpu⟩, hacq, hret⟩ := Outcome.bind_eq_ok.mp h
    obtain ⟨hfree, rfl, rfl⟩ := acquire_eq_ok.mp hacq
    cases hret
    exact ⟨hfree, rfl⟩
  · rintro ⟨hfree, rfl⟩
    show (acquire (locks.locks l) me locks.cpu >>= _) = _
    rw [acquire_eq_ok.mpr ⟨hfree, rfl, rfl⟩]
    rfl

/-! ## The close of an inode file -/

/-- `begin_op` with no lock of its own held elsewhere, when it has to wait: the sleep on the log
is entered with every lock `me` held before plus `ptable.lock`, less `log.lock`. -/
theorem begin_op_waits {me : κ} {k : Kernel κ} (hlog : (k.locks.locks .log).locked = false)
    (hpt : (k.locks.locks .ptable).locked = false) (hp : k.proc = some p)
    (hn : 0 < k.locks.cpu.ncli)
    (hwait : k.log.committing = true ∨
      LOGSIZE < k.log.lh.length + (k.log.outstanding + 1) * MAXOPBLOCKS) :
    begin_op me k = .panic "enter_scheduler: locks" := by
  have hacq : k.locks.step me (.acquire .log) =
      .ok ⟨Function.update k.locks.locks .log ⟨true, some me⟩, push_cli k.locks.cpu⟩ :=
    step_acquire_eq_ok.mpr ⟨hlog, rfl⟩
  -- the sleep sees `log.lock` held by `me`, `ptable.lock` free, and two levels of nesting
  have hsleep : ∀ {α : Type}, (sleepOnLog me { k with
      locks := ⟨Function.update k.locks.locks .log ⟨true, some me⟩, push_cli k.locks.cpu⟩ } :
      Outcome α) = .panic "enter_scheduler: locks" := by
    intro α
    unfold sleepOnLog
    rw [hp]
    apply sleep_locks
    · simpa using hpt
    · simp [SpinLockC.heldBy]
    · exact push_cli_intr _
    · simp only [push_cli_ncli]
      omega
  unfold begin_op
  rw [hacq, Outcome.ok_bind]
  dsimp only
  rcases hwait with hc | hroom
  · rw [if_pos hc, hsleep]
  · by_cases hc : k.log.committing = true
    · rw [if_pos hc, hsleep]
    · rw [if_neg hc, if_pos hroom, hsleep]

/-- The close of the last reference to an inode file, while no CPU holds one of these locks,
panics in `sched` whenever `begin_op` has to wait: `sleep` is
entered with `FILE_TABLE.lock` still held. -/
theorem fileclose_sleeps_locked (calls : Callees κ) (me : κ) {k : Kernel κ} {idx : Nat}
    {f : File} (ht : TableOk k.ftable) (hf : k.ftable.files.get? idx = some f)
    (hone : f.ref_count = 1) (hkind : f.kind = .inode)
    (hfree : ∀ l, (k.locks.locks l).locked = false) (hp : k.proc = some p)
    (hwait : k.log.committing = true ∨
      LOGSIZE < k.log.lh.length + (k.log.outstanding + 1) * MAXOPBLOCKS) :
    fileclose calls me idx k = .panic "enter_scheduler: locks" := by
  have hacq : k.locks.step me (.acquire .ftable) =
      .ok ⟨Function.update k.locks.locks .ftable ⟨true, some me⟩, push_cli k.locks.cpu⟩ :=
    step_acquire_eq_ok.mpr ⟨hfree .ftable, rfl⟩
  have hclose := FileTable.close_last ht hf hone
  have hclosing : f.closing = .iput f.ip := by simp [File.closing, hkind]
  -- `begin_op` runs with `FILE_TABLE.lock` taken: one level of nesting, interrupts off
  have hbegin : begin_op me { k with
      locks := ⟨Function.update k.locks.locks .ftable ⟨true, some me⟩, push_cli k.locks.cpu⟩,
      ftable := ⟨k.ftable.files.remove idx⟩ } = .panic "enter_scheduler: locks" := by
    apply begin_op_waits (p := p)
    · simpa using hfree .log
    · simpa using hfree .ptable
    · exact hp
    · simp
    · exact hwait
  unfold fileclose
  rw [hacq, Outcome.ok_bind, hclose, Outcome.ok_bind, hclosing]
  dsimp only
  rw [hbegin]
  rfl

/-- Callees that do nothing. -/
def idleCallees : Callees Unit := ⟨fun _ _ k => pure k, fun _ k => pure k, pure⟩

/-- One CPU with every lock free, the console's file table, and a log whose commit is running. -/
def committingKernel : Kernel Unit :=
  ⟨Locks.boot, consoleTable, { Log.init with committing := true }, some .RUNNING⟩

/-- Closing the console's file while the log commits panics in `sched`. -/
theorem fileclose_during_commit :
    fileclose idleCallees () 0 committingKernel = .panic "enter_scheduler: locks" :=
  fileclose_sleeps_locked idleCallees () (f := consoleFile) (p := .RUNNING)
    (by simp [TableOk, committingKernel, consoleTable, consoleFile, File.new]) rfl rfl rfl
    (fun l => by cases l <;> rfl) rfl (Or.inl rfl)

end Xv6.FileClose
