import Mathlib
import Xv6.Lib.Ring

/-!
# Pipes

`Pipe` of `pipe.rs` and the functions that work on it under its spinlock: `pipewrite`,
`piperead` and `pipeclose`. The counters `nread` and `nwrite` are `usize`, 32 bits on the i386
target, and wrap; the buffer is a ring of `PIPESIZE` bytes over them (`Machine.ringContents`),
and `contents` lists the bytes in it, oldest first.

A call holds `p.lock` from its start to its return except while it sleeps, so a call is a
sequence of runs that no other call can come between, each from the start of the call or from a
wakeup up to a sleep or the return; `pipewriteLoop` and `piperead` are such runs. `PipeState` is
one pipe with any number of callers, `Step` the runs and the other events (`pipeclose`, and
`kill` or a stray wakeup making a sleeper RUNNABLE), and `Reaches s sent received` says that a run
from `pipealloc` reaches `s` having put the bytes `sent` into the pipe and returned the bytes
`received` to readers.

Each step conserves the bytes (`Step.conserves`): those in the pipe before it and those it puts
in are those it returns and those in the pipe after it. So `sent = received ++ contents` in every
reachable state, and `nwrite - nread` never exceeds `PIPESIZE` (`Reaches.fifo`).
`piperead_eq_nil` adds that a read of at least one byte returns none only when the pipe is empty
and its write end is closed.
-/

namespace Xv6

open Machine

/-- Bytes in a pipe's buffer. -/
def PIPESIZE : Nat := 512

instance : NeZero PIPESIZE := ⟨by decide⟩

/-- `Pipe`, less the spinlock that every function here holds. -/
structure Pipe where
  /-- The buffer. -/
  data : Vector UInt8 PIPESIZE
  /-- Number of bytes read. -/
  nread : UInt32
  /-- Number of bytes written. -/
  nwrite : UInt32
  /-- Is the read end still open? -/
  readopen : Bool
  /-- Is the write end still open? -/
  writeopen : Bool

namespace Pipe

/-- The pipe that `pipealloc` makes in a fresh page holding `data`. -/
def alloc (data : Vector UInt8 PIPESIZE) : Pipe := ⟨data, 0, 0, true, true⟩

/-- The number of bytes in the pipe: `nwrite - nread`. -/
def count (p : Pipe) : Nat := ringCount p.nread p.nwrite

/-- The bytes in the pipe, oldest first. -/
def contents (p : Pipe) : List UInt8 := ringContents p.data p.nread p.nwrite

/-! ## `pipewrite` -/

/-- `p.data[p.nwrite % PIPESIZE] = b; p.nwrite += 1`. -/
def put (p : Pipe) (b : UInt8) : Pipe :=
  { p with
    data := p.data.set (p.nwrite.toNat % PIPESIZE) b (Nat.mod_lt _ (NeZero.pos _))
    nwrite := p.nwrite + 1 }

/-- How a run of `pipewrite` ends. -/
inductive WriteEnd where
  /-- All `n` bytes written: `wakeup(&p.nread)` and `return n`. -/
  | wrote
  /-- The pipe full, and `readopen == 0` or the caller killed: `return -1`. -/
  | failed
  /-- The pipe full: `wakeup(&p.nread)`, then `sleep(&p.nwrite, &p.lock)`. -/
  | sleeps
  deriving DecidableEq, Repr

/-- The loop `for i in 0..n` of `pipewrite`, run from index `i` with `rest` the bytes at
`addr + i` on, by a caller whose `killed` flag is `killed`: the pipe after the run, the index at
which it stops, and how. -/
def pipewriteLoop (killed : Bool) : Pipe → Nat → List UInt8 → Pipe × Nat × WriteEnd
  | p, i, [] => (p, i, .wrote)
  | p, i, b :: rest =>
    -- `while p.nwrite == p.nread + PIPESIZE`
    if p.nwrite = p.nread + PIPESIZE.toUInt32 then
      if !p.readopen || killed then (p, i, .failed) else (p, i, .sleeps)
    else pipewriteLoop killed (p.put b) (i + 1) rest

/-! ## `piperead` -/

/-- `p.data[p.nread % PIPESIZE]`, the byte `piperead` copies out next. -/
def front (p : Pipe) : UInt8 :=
  p.data.get ⟨p.nread.toNat % PIPESIZE, Nat.mod_lt _ (NeZero.pos _)⟩

/-- `p.nread += 1`. -/
def consume (p : Pipe) : Pipe := { p with nread := p.nread + 1 }

/-- The loop `for i in 0..n` of `piperead`: the pipe after it, and the bytes it copies to `addr`,
whose number it returns. -/
def pipereadLoop : Pipe → Nat → Pipe × List UInt8
  | p, 0 => (p, [])
  | p, n + 1 =>
    if p.nread = p.nwrite then (p, [])
    else
      let r := pipereadLoop p.consume n
      (r.1, p.front :: r.2)

/-- How a run of `piperead` ends. -/
inductive ReadEnd where
  /-- `wakeup(&p.nwrite)` and `return i`, with these `i` bytes copied to `addr`. -/
  | read (bytes : List UInt8)
  /-- The pipe empty and open for writing, and the caller killed: `return -1`. -/
  | failed
  /-- The pipe empty and open for writing: `sleep(&p.nread, &p.lock)`. -/
  | sleeps

/-- The bytes a run of `piperead` returns. -/
def ReadEnd.bytes : ReadEnd → List UInt8
  | .read bytes => bytes
  | .failed | .sleeps => []

/-- A run of `piperead` of `n` bytes, from the start of the call or from a wakeup, by a caller
whose `killed` flag is `killed`. -/
def piperead (p : Pipe) (killed : Bool) (n : Nat) : Pipe × ReadEnd :=
  -- `while p.nread == p.nwrite && p.writeopen != 0`
  if p.nread = p.nwrite ∧ p.writeopen = true then
    if killed then (p, .failed) else (p, .sleeps)
  else
    let r := pipereadLoop p n
    (r.1, .read r.2)

/-! ## `pipeclose` -/

/-- `pipeclose` of the write end (`writable`) or of the read end. The wakeup of the callers at the
other end is `PipeState`'s; the page is freed once both ends are closed. -/
def pipeclose (p : Pipe) (writable : Bool) : Pipe :=
  if writable then { p with writeopen := false } else { p with readopen := false }

/-! ## The pipe as a ring of bytes -/

theorem PIPESIZE_dvd : PIPESIZE ∣ 2 ^ 32 := ⟨2 ^ 23, by decide⟩

theorem PIPESIZE_lt : PIPESIZE < 2 ^ 32 := by decide

/-- `pipewrite`'s test for a full pipe. -/
theorem full_iff (p : Pipe) : p.nwrite = p.nread + PIPESIZE.toUInt32 ↔ p.count = PIPESIZE :=
  (ringCount_eq_iff PIPESIZE_lt).symm

/-- `piperead`'s test for an empty pipe. -/
theorem empty_iff (p : Pipe) : p.nread = p.nwrite ↔ p.count = 0 :=
  ringCount_eq_zero.symm

theorem count_put (p : Pipe) (b : UInt8) (h : p.count < PIPESIZE) :
    (p.put b).count = p.count + 1 := by
  have hlt := PIPESIZE_lt
  unfold count at h ⊢
  show ringCount p.nread (p.nwrite + 1) = ringCount p.nread p.nwrite + 1
  exact ringCount_put (by omega)

theorem contents_put (p : Pipe) (b : UInt8) (h : p.count < PIPESIZE) :
    (p.put b).contents = p.contents ++ [b] :=
  ringContents_put PIPESIZE_dvd PIPESIZE_lt p.data h b

theorem count_consume (p : Pipe) (h : p.count ≠ 0) : p.consume.count = p.count - 1 :=
  ringCount_take h

theorem contents_consume (p : Pipe) (h : p.count ≠ 0) :
    p.contents = p.front :: p.consume.contents :=
  ringContents_take PIPESIZE_dvd p.data h

@[simp] theorem count_pipeclose (p : Pipe) (writable : Bool) :
    (p.pipeclose writable).count = p.count := by
  cases writable <;> rfl

@[simp] theorem contents_pipeclose (p : Pipe) (writable : Bool) :
    (p.pipeclose writable).contents = p.contents := by
  cases writable <;> rfl

@[simp] theorem count_alloc (data : Vector UInt8 PIPESIZE) : (alloc data).count = 0 :=
  ringCount_eq_zero.mpr rfl

@[simp] theorem contents_alloc (data : Vector UInt8 PIPESIZE) : (alloc data).contents = [] :=
  List.eq_nil_of_length_eq_zero (by rw [contents, length_ringContents]; exact count_alloc data)

/-! ## What a run does to the bytes -/

/-- A run of `pipewrite` puts the first bytes it has into the pipe, as many as it gets to, and
keeps the pipe within `PIPESIZE`. -/
theorem pipewriteLoop_spec (killed : Bool) (rest : List UInt8) :
    ∀ (p : Pipe) (i : Nat), p.count ≤ PIPESIZE →
      let r := pipewriteLoop killed p i rest
      i ≤ r.2.1 ∧ r.1.count ≤ PIPESIZE ∧ r.1.contents = p.contents ++ rest.take (r.2.1 - i) := by
  induction rest with
  | nil => intro p i h; simp [pipewriteLoop, h]
  | cons b rest ih =>
    intro p i h
    by_cases hfull : p.nwrite = p.nread + PIPESIZE.toUInt32
    · -- a full pipe: the run stops before `b`
      simp only [pipewriteLoop, hfull, if_true]
      split_ifs <;> simp [h]
    · have hlt : p.count < PIPESIZE := lt_of_le_of_ne h (mt (full_iff p).mpr hfull)
      obtain ⟨hi, hc, hcont⟩ := ih (p.put b) (i + 1) (by rw [count_put p b hlt]; omega)
      simp only [pipewriteLoop, hfull, if_false]
      refine ⟨by omega, hc, ?_⟩
      -- `b` went in first, then what the rest of the run put in
      have htake : (b :: rest).take ((pipewriteLoop killed (p.put b) (i + 1) rest).2.1 - i) =
          b :: rest.take ((pipewriteLoop killed (p.put b) (i + 1) rest).2.1 - (i + 1)) := by
        rw [show (pipewriteLoop killed (p.put b) (i + 1) rest).2.1 - i =
          (pipewriteLoop killed (p.put b) (i + 1) rest).2.1 - (i + 1) + 1 by omega]
        rfl
      rw [hcont, contents_put p b hlt, htake, List.append_assoc, List.singleton_append]

/-- A run of the read loop copies out the oldest bytes of the pipe. -/
theorem pipereadLoop_spec (n : Nat) :
    ∀ p : Pipe, p.count ≤ PIPESIZE →
      let r := pipereadLoop p n
      r.1.count ≤ PIPESIZE ∧ p.contents = r.2 ++ r.1.contents := by
  induction n with
  | zero => intro p h; simp [pipereadLoop, h]
  | succ n ih =>
    intro p h
    by_cases hempty : p.nread = p.nwrite
    · simp [pipereadLoop, hempty, h]
    · have hne : p.count ≠ 0 := mt (empty_iff p).mpr hempty
      obtain ⟨hc, hcont⟩ := ih p.consume (by rw [count_consume p hne]; omega)
      simp only [pipereadLoop, hempty, if_false]
      refine ⟨hc, ?_⟩
      rw [contents_consume p hne, hcont, List.cons_append]

/-- A run of `piperead` returns the oldest bytes of the pipe. -/
theorem piperead_spec (p : Pipe) (killed : Bool) (n : Nat) (h : p.count ≤ PIPESIZE) :
    let r := piperead p killed n
    r.1.count ≤ PIPESIZE ∧ p.contents = r.2.bytes ++ r.1.contents := by
  unfold piperead
  split_ifs
  · simp [ReadEnd.bytes, h]
  · simp [ReadEnd.bytes, h]
  · exact pipereadLoop_spec n p h

/-- A read of at least one byte returns none only when the pipe is empty and its write end is
closed, and then leaves the pipe as it was. -/
theorem piperead_eq_nil {p p' : Pipe} {killed : Bool} {n : Nat}
    (h : piperead p killed n = (p', .read [])) (hn : 0 < n) :
    p.nread = p.nwrite ∧ p.writeopen = false ∧ p' = p := by
  obtain ⟨k, rfl⟩ := Nat.exists_eq_add_one.mpr hn
  unfold piperead at h
  split_ifs at h with hwait
  · simp at h
  · simp at h
  -- past the `while`, the loop returns at once only if the pipe is empty
  by_cases hempty : p.nread = p.nwrite
  · simp only [pipereadLoop, hempty, if_true, Prod.mk.injEq] at h
    exact ⟨hempty, by simpa [hempty] using hwait, h.1.symm⟩
  · simp [pipereadLoop, hempty] at h

/-! ## Callers -/

/-- The addresses callers sleep on. -/
inductive Chan where
  /-- `&p.nread`, where readers wait for bytes. -/
  | nread
  /-- `&p.nwrite`, where writers wait for room. -/
  | nwrite
  deriving DecidableEq, Repr

/-- A call that has slept, with what it needs to go on. -/
inductive Call where
  /-- `pipewrite` of the bytes `src` at `addr`, at index `i` of its loop. -/
  | write (src : List UInt8) (i : Nat)
  /-- `piperead` of `n` bytes. -/
  | read (n : Nat)

/-- The address a call sleeps on. -/
def Call.chan : Call → Chan
  | .write .. => .nwrite
  | .read _ => .nread

/-- A caller between a sleep and the rest of its call: asleep, or woken and RUNNABLE. -/
structure Waiter where
  /-- The call it slept in. -/
  call : Call
  /-- SLEEPING, not yet woken. -/
  asleep : Bool

/-- One pipe and its callers: `waiting q` is the call that process `q` has slept in, if any. -/
structure PipeState where
  /-- The pipe. -/
  pipe : Pipe
  /-- The callers that have slept. -/
  waiting : Nat → Option Waiter

/-- `wakeup(chan)`: every caller asleep on `chan` is RUNNABLE. -/
def wakeup (w : Nat → Option Waiter) (chan : Chan) : Nat → Option Waiter := fun q =>
  match w q with
  | some ⟨c, true⟩ => if c.chan = chan then some ⟨c, false⟩ else some ⟨c, true⟩
  | other => other

/-- A run of `pipewrite` by process `q`, from index `i` of its loop over the bytes `src`: the state
after it, and the bytes it put into the pipe. -/
def writeRun (s : PipeState) (q : Nat) (killed : Bool) (src : List UInt8) (i : Nat) :
    PipeState × List UInt8 :=
  let r := pipewriteLoop killed s.pipe i (src.drop i)
  let waiting := match r.2.2 with
    | .wrote => Function.update (wakeup s.waiting .nread) q none
    | .failed => Function.update s.waiting q none
    | .sleeps => Function.update (wakeup s.waiting .nread) q (some ⟨.write src r.2.1, true⟩)
  (⟨r.1, waiting⟩, (src.drop i).take (r.2.1 - i))

/-- A run of `piperead` of `n` bytes by process `q`: the state after it, and the bytes it
returns. -/
def readRun (s : PipeState) (q : Nat) (killed : Bool) (n : Nat) : PipeState × List UInt8 :=
  let r := piperead s.pipe killed n
  let waiting := match r.2 with
    | .read _ => Function.update (wakeup s.waiting .nwrite) q none
    | .failed => Function.update s.waiting q none
    | .sleeps => Function.update s.waiting q (some ⟨.read n, true⟩)
  (⟨r.1, waiting⟩, r.2.bytes)

/-- A step of the pipe and its callers. -/
inductive Event where
  /-- Process `q` calls `pipewrite` with the bytes `src`. -/
  | write (q : Nat) (src : List UInt8) (killed : Bool)
  /-- Process `q` calls `piperead` for `n` bytes. -/
  | read (q : Nat) (n : Nat) (killed : Bool)
  /-- The scheduler runs the woken process `q`, which goes on with its call. -/
  | resume (q : Nat) (killed : Bool)
  /-- The last file of one end is closed: `pipeclose`. -/
  | close (writable : Bool)
  /-- `kill`, or another wakeup of the address, makes the sleeping `q` RUNNABLE. -/
  | wake (q : Nat)

/-- `Step s e s' stored returned`: the event `e` may happen in `s` and leads to `s'`, putting the
bytes `stored` into the pipe and returning the bytes `returned` to a reader. -/
def Step (s : PipeState) : Event → PipeState → List UInt8 → List UInt8 → Prop
  | .write q src killed, s', stored, returned =>
    s.waiting q = none ∧ writeRun s q killed src 0 = (s', stored) ∧ returned = []
  | .read q n killed, s', stored, returned =>
    s.waiting q = none ∧ readRun s q killed n = (s', returned) ∧ stored = []
  | .resume q killed, s', stored, returned =>
    (∃ src i, s.waiting q = some ⟨.write src i, false⟩ ∧
      writeRun s q killed src i = (s', stored) ∧ returned = []) ∨
    (∃ n, s.waiting q = some ⟨.read n, false⟩ ∧
      readRun s q killed n = (s', returned) ∧ stored = [])
  | .close writable, s', stored, returned =>
    s' = ⟨s.pipe.pipeclose writable, wakeup s.waiting (if writable then .nread else .nwrite)⟩ ∧
      stored = [] ∧ returned = []
  | .wake q, s', stored, returned =>
    ∃ c, s.waiting q = some ⟨c, true⟩ ∧
      s' = ⟨s.pipe, Function.update s.waiting q (some ⟨c, false⟩)⟩ ∧ stored = [] ∧ returned = []

/-- `Reaches s sent received`: a run from `pipealloc` reaches `s`, having put the bytes `sent`
into the pipe and returned the bytes `received` to readers, each in the order of the steps. -/
inductive Reaches : PipeState → List UInt8 → List UInt8 → Prop where
  | alloc (data : Vector UInt8 PIPESIZE) : Reaches ⟨alloc data, fun _ => none⟩ [] []
  | step {s s' : PipeState} {e : Event} {sent received stored returned : List UInt8} :
      Reaches s sent received → Step s e s' stored returned →
      Reaches s' (sent ++ stored) (received ++ returned)

/-! ## The pipe's contract -/

section Contract

variable {s s' : PipeState}

/-- A run of `pipewrite` appends the bytes it stores to the pipe. -/
theorem writeRun_conserves (q : Nat) (killed : Bool) (src : List UInt8) (i : Nat)
    (h : s.pipe.count ≤ PIPESIZE) :
    (writeRun s q killed src i).1.pipe.count ≤ PIPESIZE ∧
      s.pipe.contents ++ (writeRun s q killed src i).2 = (writeRun s q killed src i).1.pipe.contents := by
  obtain ⟨-, hc, hcont⟩ := pipewriteLoop_spec killed (src.drop i) s.pipe i h
  exact ⟨hc, hcont.symm⟩

/-- A run of `piperead` returns the bytes it takes from the front of the pipe. -/
theorem readRun_conserves (q : Nat) (killed : Bool) (n : Nat) (h : s.pipe.count ≤ PIPESIZE) :
    (readRun s q killed n).1.pipe.count ≤ PIPESIZE ∧
      s.pipe.contents = (readRun s q killed n).2 ++ (readRun s q killed n).1.pipe.contents :=
  piperead_spec s.pipe killed n h

/-- Every step conserves the bytes: those in the pipe before it and those it stores are those it
returns and those in the pipe after it. It keeps the pipe within `PIPESIZE`. -/
theorem Step.conserves {e : Event} {stored returned : List UInt8} (h : s.pipe.count ≤ PIPESIZE)
    (hs : Step s e s' stored returned) :
    s'.pipe.count ≤ PIPESIZE ∧ s.pipe.contents ++ stored = returned ++ s'.pipe.contents := by
  -- the runs of the calls, each either from its start or resumed
  have write : ∀ q killed src i, writeRun s q killed src i = (s', stored) → returned = [] →
      s'.pipe.count ≤ PIPESIZE ∧ s.pipe.contents ++ stored = returned ++ s'.pipe.contents := by
    rintro q killed src i hrun rfl
    obtain ⟨hc, hcont⟩ := writeRun_conserves q killed src i h
    rw [hrun] at hc hcont
    exact ⟨hc, hcont⟩
  have read : ∀ q killed n, readRun s q killed n = (s', returned) → stored = [] →
      s'.pipe.count ≤ PIPESIZE ∧ s.pipe.contents ++ stored = returned ++ s'.pipe.contents := by
    rintro q killed n hrun rfl
    obtain ⟨hc, hcont⟩ := readRun_conserves q killed n h
    rw [hrun] at hc hcont
    exact ⟨hc, by rw [List.append_nil, hcont]⟩
  cases e with
  | write q src killed =>
    obtain ⟨-, hrun, hret⟩ := hs
    exact write q killed src 0 hrun hret
  | read q n killed =>
    obtain ⟨-, hrun, hsto⟩ := hs
    exact read q killed n hrun hsto
  | resume q killed =>
    rcases hs with ⟨src, i, -, hrun, hret⟩ | ⟨n, -, hrun, hsto⟩
    · exact write q killed src i hrun hret
    · exact read q killed n hrun hsto
  | close writable =>
    obtain ⟨rfl, rfl, rfl⟩ := hs
    simpa using h
  | wake q =>
    obtain ⟨c, -, rfl, rfl, rfl⟩ := hs
    simpa using h

/-- In every reachable state the pipe holds at most `PIPESIZE` bytes, and the bytes put into it
are the bytes returned to readers followed by the bytes still in it. -/
theorem Reaches.fifo {sent received : List UInt8} (h : Reaches s sent received) :
    s.pipe.count ≤ PIPESIZE ∧ sent = received ++ s.pipe.contents := by
  induction h with
  | alloc data => simp
  | @step s s' e sent received stored returned _ hs ih =>
    obtain ⟨hc, hfifo⟩ := ih
    obtain ⟨hc', hcons⟩ := hs.conserves hc
    refine ⟨hc', ?_⟩
    calc sent ++ stored = received ++ (s.pipe.contents ++ stored) := by
          rw [hfifo, List.append_assoc]
      _ = received ++ returned ++ s'.pipe.contents := by rw [hcons, List.append_assoc]

end Contract

/-- The pipe is a FIFO: in every state reached from `pipealloc` by any interleaving of runs of
`pipewrite`, `piperead` and `pipeclose` by any callers, `nwrite - nread` in wrapping arithmetic is
at most `PIPESIZE`, and the bytes returned to readers followed by those in the pipe are the bytes
put into it, so the bytes returned are a prefix of those put in; and a `piperead` of at least one
byte returns none only when the pipe is empty and its write end closed. -/
theorem pipe_fifo :
    (∀ s sent received, Reaches s sent received →
      (s.pipe.nwrite - s.pipe.nread).toNat ≤ PIPESIZE ∧ sent = received ++ s.pipe.contents ∧
        received <+: sent) ∧
    (∀ p killed n p', piperead p killed n = (p', .read []) → 0 < n →
      p.nread = p.nwrite ∧ p.writeopen = false ∧ p' = p) := by
  refine ⟨fun s sent received h => ?_, fun p killed n p' h hn => piperead_eq_nil h hn⟩
  obtain ⟨hc, hfifo⟩ := h.fifo
  exact ⟨hc, hfifo, ⟨s.pipe.contents, hfifo.symm⟩⟩

/-- A writer puts three bytes in and a reader takes two of them out: the pipe holds the third, and
the two bytes read are the first two put in. -/
theorem pipe_fifo_threeBytes :
    ∃ s, Reaches s [1, 2, 3] [1, 2] ∧ s.pipe.contents = [3] ∧
      (s.pipe.nwrite - s.pipe.nread).toNat ≤ PIPESIZE ∧ [1, 2, 3] = [1, 2] ++ s.pipe.contents ∧
      ([1, 2] : List UInt8) <+: [1, 2, 3] := by
  have hreach : Reaches _ [1, 2, 3] [1, 2] := .step (e := .read 1 2 false)
    (.step (e := .write 0 [1, 2, 3] false) (.alloc (Vector.replicate PIPESIZE 0)) ⟨rfl, rfl, rfl⟩)
    ⟨rfl, rfl, rfl⟩
  exact ⟨_, hreach, by decide, pipe_fifo.1 _ _ _ hreach⟩

end Pipe

end Xv6
