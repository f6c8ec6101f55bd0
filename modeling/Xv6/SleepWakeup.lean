import Mathlib
import Xv6.SleepLock

/-!
# Sleep locks, with sleep and wakeup

`SleepLockC::acquire` and `release` of `sleeplock.rs`, at the grain of the two spinlocks they
use. `acquire` takes the sleep lock's spinlock `self.lock` and, while the lock is held, calls
`sleep(self, &self.lock)` of `proc.c`, which takes `ptable.lock` before it releases the spinlock,
marks the process SLEEPING on the lock's address, and gives the CPU to the scheduler, which
releases `ptable.lock`; once woken and run again, the process releases `ptable.lock`, takes the
spinlock back, and tests the lock again. `release` takes the spinlock, clears `locked` and `pid`,
and calls `wakeup(self)`, which takes `ptable.lock` to make every process sleeping on the lock
RUNNABLE, and then releases the spinlock.

A process's place in this code is its `Pc`. Each step of a process is what the code does between
two operations on the spinlocks, which no other CPU can come between; a step that takes a
spinlock waits until it is free. Besides the processes' own steps, another party (`kill`, or a
`wakeup` of the same address) may make a sleeping process RUNNABLE at any time. The steps that
take and clear the lock are those of `SleepLock`, the lock as one atomic step (`acquire_refines`,
`release_refines`).

`Inv` holds in every reachable state (`Reachable.inv`): the lock is held, with its `pid`, exactly
by the process between the end of `acquire` and the clearing in `release`; each spinlock is held by
the process whose counter says so; and a process that sleeps on the lock does so while the lock is
held, or while a `release` that has cleared it has still to wake the sleepers. This is where
`sleep` taking `ptable.lock` before it releases the spinlock matters: the `wakeup` of a `release`
cannot fall between a process's test of the lock and its sleep.
-/

namespace Xv6.SleepWakeup

open Machine

/-- Where a process is in `acquire`, `release` and the `sleep` that `acquire` calls. -/
inductive Pc where
  /-- Outside `acquire` and `release`, without the lock. -/
  | idle
  /-- `acquire`: `self.lock.acquire()`, waiting for the spinlock. -/
  | acquiring
  /-- `acquire`: holds the spinlock, at the test `while self.locked != 0`. -/
  | checking
  /-- `sleep`: holds the spinlock, `acquire(&ptable.lock)`. -/
  | sleepLocking
  /-- `sleep`: holds `ptable.lock` and has released the spinlock; next `p->state = SLEEPING`. -/
  | sleepMarking
  /-- SLEEPING on the lock. -/
  | asleep
  /-- RUNNABLE again, waiting for a CPU. -/
  | runnable
  /-- Back from `sched()` with `ptable.lock`: `p->chan = 0` and `release(&ptable.lock)`, then
  `acquire(lk)`. -/
  | resuming
  /-- `acquire` has returned: the process holds the lock. -/
  | holding
  /-- `release`: `self.lock.acquire()`, waiting for the spinlock. -/
  | releasing
  /-- `release`: holds the spinlock and has cleared the lock; `wakeup` takes `ptable.lock`. -/
  | waking
  /-- `release`: `self.lock.release()`. -/
  | unlocking
  deriving DecidableEq, Repr

namespace Pc

/-- The counters at which the process holds the sleep lock. -/
def holdsLock : Pc → Bool
  | .holding | .releasing => true
  | _ => false

/-- The counters at which the process holds the sleep lock's spinlock. -/
def holdsSpin : Pc → Bool
  | .checking | .sleepLocking | .waking | .unlocking => true
  | _ => false

/-- The counters at which the process holds `ptable.lock`. -/
def holdsPtable : Pc → Bool
  | .sleepMarking | .resuming => true
  | _ => false

/-- The counters at which the process has let the spinlock go to sleep on the lock. -/
def sleeps : Pc → Bool
  | .sleepMarking | .asleep => true
  | _ => false

end Pc

/-- The sleep lock, its spinlock, `ptable.lock`, and where each process is; processes are named
by their pids. -/
structure LockState where
  /-- `locked` and `pid`. -/
  lock : SleepLock
  /-- The process holding `self.lock`. -/
  spin : Option Nat
  /-- The process holding `ptable.lock`. -/
  ptable : Option Nat
  /-- Where each process is. -/
  pc : Nat → Pc

namespace LockState

/-- A free lock, free spinlocks, and no process in the lock's code. -/
def init : LockState := ⟨SleepLock.new, none, none, fun _ => .idle⟩

/-- Process `p` moves to `c`. -/
def setPc (s : LockState) (p : Nat) (c : Pc) : LockState :=
  { s with pc := Function.update s.pc p c }

@[simp] theorem setPc_pc_self (s : LockState) (p : Nat) (c : Pc) : (s.setPc p c).pc p = c := by
  simp [setPc]

@[simp] theorem setPc_pc_of_ne (s : LockState) {p q : Nat} (c : Pc) (h : q ≠ p) :
    (s.setPc p c).pc q = s.pc q := by
  simp [setPc, h]

@[simp] theorem setPc_lock (s : LockState) (p : Nat) (c : Pc) : (s.setPc p c).lock = s.lock := rfl

@[simp] theorem setPc_spin (s : LockState) (p : Nat) (c : Pc) : (s.setPc p c).spin = s.spin := rfl

@[simp] theorem setPc_ptable (s : LockState) (p : Nat) (c : Pc) :
    (s.setPc p c).ptable = s.ptable := rfl

end LockState

/-- `wakeup1` on the lock's address: every process asleep on the lock is RUNNABLE. -/
def wakeupAll (s : LockState) : LockState :=
  { s with pc := fun q => if s.pc q = .asleep then .runnable else s.pc q }

theorem wakeupAll_eq (s : LockState) :
    wakeupAll s = { s with pc := fun q => if s.pc q = .asleep then .runnable else s.pc q } := rfl

/-- The next step of process `p` in the lock's code, if it can take one now. -/
def next (s : LockState) (p : Nat) : Option LockState :=
  match s.pc p with
  | .acquiring =>
    if s.spin = none then some { s.setPc p .checking with spin := some p } else none
  | .checking =>
    -- the test of `locked`: take the lock and release the spinlock, or go to sleep
    match s.lock.acquire p with
    | .ok lock => some { s.setPc p .holding with lock, spin := none }
    | _ => some (s.setPc p .sleepLocking)
  | .sleepLocking =>
    if s.ptable = none then some { s.setPc p .sleepMarking with ptable := some p, spin := none }
    else none
  | .sleepMarking =>
    -- SLEEPING, and `sched()`: the scheduler releases `ptable.lock`
    some { s.setPc p .asleep with ptable := none }
  | .runnable =>
    -- the scheduler takes `ptable.lock` and switches to the process
    if s.ptable = none then some { s.setPc p .resuming with ptable := some p } else none
  | .resuming => some { s.setPc p .acquiring with ptable := none }
  | .releasing =>
    if s.spin = none then some { s.setPc p .waking with lock := s.lock.release, spin := some p }
    else none
  | .waking =>
    -- `wakeup`: `ptable.lock` is taken and released around `wakeup1`
    if s.ptable = none then some (wakeupAll (s.setPc p .unlocking)) else none
  | .unlocking => some { s.setPc p .idle with spin := none }
  | .idle | .asleep | .holding => none

/-- A step of the system. -/
inductive Event where
  /-- Process `p` calls `acquire`. -/
  | acquire (p : Nat)
  /-- Process `p`, holding the lock, calls `release`. -/
  | release (p : Nat)
  /-- Process `p` takes its next step. -/
  | next (p : Nat)
  /-- Another party makes the sleeping `p` RUNNABLE, under `ptable.lock`. -/
  | wake (p : Nat)

/-- `Step s e s'`: the event `e` may happen in `s` and leads to `s'`. -/
def Step (s : LockState) : Event → LockState → Prop
  | .acquire p, s' => s.pc p = .idle ∧ s' = s.setPc p .acquiring
  | .release p, s' => s.pc p = .holding ∧ s' = s.setPc p .releasing
  | .next p, s' => next s p = some s'
  | .wake p, s' => s.pc p = .asleep ∧ s.ptable = none ∧ s' = s.setPc p .runnable

/-- The states reached from `LockState.init`. -/
inductive Reachable : LockState → Prop where
  | init : Reachable LockState.init
  | step {s s' : LockState} {e : Event} : Reachable s → Step s e s' → Reachable s'

/-! ## The invariant -/

/-- What holds in every reachable state. -/
structure Inv (s : LockState) : Prop where
  /-- The lock's `locked` and `pid` name the process that holds it. -/
  lock_iff : ∀ q, (s.pc q).holdsLock = true ↔ s.lock.holder = some q
  /-- The spinlock is held by the process whose counter says so. -/
  spin_iff : ∀ q, (s.pc q).holdsSpin = true ↔ s.spin = some q
  /-- So is `ptable.lock`. -/
  ptable_iff : ∀ q, (s.pc q).holdsPtable = true ↔ s.ptable = some q
  /-- A process goes to sleep only when it has found the lock held. -/
  locked_of_sleepLocking : ∀ q, s.pc q = .sleepLocking → s.lock.locked = true
  /-- A process sleeps on the lock only while the lock is held or a wakeup is on its way. -/
  woken : ∀ q, (s.pc q).sleeps = true → s.lock.locked = true ∨ ∃ r, s.pc r = .waking

theorem inv_init : Inv LockState.init where
  lock_iff q := by simp [LockState.init, SleepLock.new, Pc.holdsLock]
  spin_iff q := by simp [LockState.init, Pc.holdsSpin]
  ptable_iff q := by simp [LockState.init, Pc.holdsPtable]
  locked_of_sleepLocking q := by simp [LockState.init]
  woken q := by simp [LockState.init, Pc.sleeps]

section Steps

variable {s : LockState} {p : Nat}

/-- A moving process leaves every other process where it is: a property of counters that the
old and the new counter of the mover share is unchanged for every process. -/
theorem holds_setPc (f : Pc → Bool) {c : Pc} (hc : f c = f (s.pc p)) (q : Nat) :
    f ((s.setPc p c).pc q) = f (s.pc q) := by
  by_cases hq : q = p
  · subst hq
    simpa using hc
  · simp [hq]

/-- A lock that the mover neither takes nor lets go keeps its holder. -/
theorem iff_setPc_keep (f : Pc → Bool) {P : Nat → Prop} (hiff : ∀ q, f (s.pc q) = true ↔ P q)
    {c : Pc} (hc : f c = f (s.pc p)) (q : Nat) : f ((s.setPc p c).pc q) = true ↔ P q := by
  rw [holds_setPc f hc]
  exact hiff q

/-- A free lock that the mover takes is then held by the mover alone. -/
theorem iff_setPc_take (f : Pc → Bool) {o : Option Nat}
    (hiff : ∀ q, f (s.pc q) = true ↔ o = some q) (hfree : o = none) {c : Pc} (hc : f c = true)
    (q : Nat) : f ((s.setPc p c).pc q) = true ↔ some p = some q := by
  by_cases hqp : q = p
  · subst hqp
    simp [hc]
  · have hq : f (s.pc q) = false :=
      Bool.eq_false_iff.mpr fun hf => by simpa [hfree] using (hiff q).mp hf
    simp [hqp, hq, Ne.symm hqp]

/-- A lock that the mover holds and lets go is then held by no one. -/
theorem iff_setPc_drop (f : Pc → Bool) {o : Option Nat}
    (hiff : ∀ q, f (s.pc q) = true ↔ o = some q) (hheld : f (s.pc p) = true) {c : Pc}
    (hc : f c = false) (q : Nat) : f ((s.setPc p c).pc q) = true ↔ none = some q := by
  have ho : o = some p := (hiff p).mp hheld
  by_cases hqp : q = p
  · subst hqp
    simp [hc]
  · have hq : f (s.pc q) = false := Bool.eq_false_iff.mpr fun hf =>
      hqp (Option.some_injective _ (ho.symm.trans ((hiff q).mp hf))).symm
    simp [hqp, hq]

/-- A process that is waking before a move, and is not the mover, is still waking after it. -/
theorem waking_setPc {c : Pc} (hp : s.pc p ≠ .waking) {r : Nat} (hr : s.pc r = .waking) :
    (s.setPc p c).pc r = .waking := by
  have hrp : r ≠ p := by
    rintro rfl
    exact hp hr
  simpa [hrp] using hr

/-- After a move that keeps the lock, a process at `sleepLocking` has found the lock held. -/
theorem Inv.sleepLocking_setPc (h : Inv s) {c : Pc} (hc : c = .sleepLocking → s.lock.locked = true)
    (q : Nat) (hq : (s.setPc p c).pc q = .sleepLocking) : s.lock.locked = true := by
  by_cases hqp : q = p
  · subst hqp
    exact hc (by simpa using hq)
  · exact h.locked_of_sleepLocking q (by simpa [hqp] using hq)

/-- After a move that keeps the lock, by a process that is not waking, a sleeper on the lock still
has the lock held or a wakeup on its way. -/
theorem Inv.woken_setPc (h : Inv s) {c : Pc}
    (hc : c.sleeps = true → s.lock.locked = true ∨ ∃ r, s.pc r = .waking)
    (hw : s.pc p ≠ .waking) (q : Nat) (hq : ((s.setPc p c).pc q).sleeps = true) :
    s.lock.locked = true ∨ ∃ r, (s.setPc p c).pc r = .waking := by
  have hold : s.lock.locked = true ∨ ∃ r, s.pc r = .waking := by
    by_cases hqp : q = p
    · subst hqp
      exact hc (by simpa using hq)
    · exact h.woken q (by simpa [hqp] using hq)
  rcases hold with hl | ⟨r, hr⟩
  · exact .inl hl
  · exact .inr ⟨r, waking_setPc hw hr⟩

/-- A move that changes nothing shared and nothing the mover holds keeps `Inv`. -/
theorem Inv.setPc (h : Inv s) {c : Pc} (hl : c.holdsLock = (s.pc p).holdsLock)
    (hs : c.holdsSpin = (s.pc p).holdsSpin) (ht : c.holdsPtable = (s.pc p).holdsPtable)
    (hsl : c = .sleepLocking → s.lock.locked = true)
    (hsleeps : c.sleeps = true → s.lock.locked = true ∨ ∃ r, s.pc r = .waking)
    (hw : s.pc p ≠ .waking) : Inv (s.setPc p c) where
  lock_iff := iff_setPc_keep _ h.lock_iff hl
  spin_iff := iff_setPc_keep _ h.spin_iff hs
  ptable_iff := iff_setPc_keep _ h.ptable_iff ht
  locked_of_sleepLocking := h.sleepLocking_setPc hsl
  woken := h.woken_setPc hsleeps hw

/-- `acquire` takes the spinlock. -/
theorem Inv.take_spin (h : Inv s) (hp : s.pc p = .acquiring) (hfree : s.spin = none) :
    Inv { s.setPc p .checking with spin := some p } where
  lock_iff := iff_setPc_keep _ h.lock_iff (by rw [hp]; rfl)
  spin_iff := iff_setPc_take _ h.spin_iff hfree rfl
  ptable_iff := iff_setPc_keep _ h.ptable_iff (by rw [hp]; rfl)
  locked_of_sleepLocking := h.sleepLocking_setPc (by simp)
  woken := h.woken_setPc (fun h => absurd h (by decide)) (by rw [hp]; decide)

/-- `acquire` finds the lock free, takes it and releases the spinlock. -/
theorem Inv.take_lock (h : Inv s) (hp : s.pc p = .checking) (hfree : s.lock.locked = false) :
    Inv { s.setPc p .holding with lock := ⟨true, p⟩, spin := none } where
  lock_iff := iff_setPc_take _ h.lock_iff (SleepLock.holder_eq_none.mpr hfree) rfl
  spin_iff := iff_setPc_drop _ h.spin_iff (by rw [hp]; rfl) rfl
  ptable_iff := iff_setPc_keep _ h.ptable_iff (by rw [hp]; rfl)
  locked_of_sleepLocking _ _ := rfl
  woken _ _ := .inl rfl

/-- `sleep` takes `ptable.lock` and releases the spinlock. -/
theorem Inv.sleep_take_ptable (h : Inv s) (hp : s.pc p = .sleepLocking)
    (hfree : s.ptable = none) :
    Inv { s.setPc p .sleepMarking with ptable := some p, spin := none } where
  lock_iff := iff_setPc_keep _ h.lock_iff (by rw [hp]; rfl)
  spin_iff := iff_setPc_drop _ h.spin_iff (by rw [hp]; rfl) rfl
  ptable_iff := iff_setPc_take _ h.ptable_iff hfree rfl
  locked_of_sleepLocking := h.sleepLocking_setPc (by simp)
  woken := h.woken_setPc (fun _ => .inl (h.locked_of_sleepLocking p hp)) (by rw [hp]; decide)

/-- `sleep` marks the process SLEEPING, and the scheduler releases `ptable.lock`. -/
theorem Inv.sleep_release_ptable (h : Inv s) (hp : s.pc p = .sleepMarking) :
    Inv { s.setPc p .asleep with ptable := none } where
  lock_iff := iff_setPc_keep _ h.lock_iff (by rw [hp]; rfl)
  spin_iff := iff_setPc_keep _ h.spin_iff (by rw [hp]; rfl)
  ptable_iff := iff_setPc_drop _ h.ptable_iff (by rw [hp]; rfl) rfl
  locked_of_sleepLocking := h.sleepLocking_setPc (by simp)
  woken := h.woken_setPc (fun _ => h.woken p (by rw [hp]; rfl)) (by rw [hp]; decide)

/-- The scheduler takes `ptable.lock` to run a RUNNABLE process. -/
theorem Inv.sched_take_ptable (h : Inv s) (hp : s.pc p = .runnable) (hfree : s.ptable = none) :
    Inv { s.setPc p .resuming with ptable := some p } where
  lock_iff := iff_setPc_keep _ h.lock_iff (by rw [hp]; rfl)
  spin_iff := iff_setPc_keep _ h.spin_iff (by rw [hp]; rfl)
  ptable_iff := iff_setPc_take _ h.ptable_iff hfree rfl
  locked_of_sleepLocking := h.sleepLocking_setPc (by simp)
  woken := h.woken_setPc (fun h => absurd h (by decide)) (by rw [hp]; decide)

/-- Back from `sched()`, `sleep` releases `ptable.lock`. -/
theorem Inv.resume_release_ptable (h : Inv s) (hp : s.pc p = .resuming) :
    Inv { s.setPc p .acquiring with ptable := none } where
  lock_iff := iff_setPc_keep _ h.lock_iff (by rw [hp]; rfl)
  spin_iff := iff_setPc_keep _ h.spin_iff (by rw [hp]; rfl)
  ptable_iff := iff_setPc_drop _ h.ptable_iff (by rw [hp]; rfl) rfl
  locked_of_sleepLocking := h.sleepLocking_setPc (by simp)
  woken := h.woken_setPc (fun h => absurd h (by decide)) (by rw [hp]; decide)

/-- `release` takes the spinlock and clears the lock: a wakeup is now on its way. -/
theorem Inv.clear_lock (h : Inv s) (hp : s.pc p = .releasing) (hfree : s.spin = none) :
    Inv { s.setPc p .waking with lock := s.lock.release, spin := some p } where
  lock_iff := iff_setPc_drop _ h.lock_iff (by rw [hp]; rfl) rfl
  spin_iff := iff_setPc_take _ h.spin_iff hfree rfl
  ptable_iff := iff_setPc_keep _ h.ptable_iff (by rw [hp]; rfl)
  locked_of_sleepLocking q hq := by
    -- a process at `sleepLocking` would hold the spinlock, which was free
    have hqp : q ≠ p := by
      rintro rfl
      simp at hq
    have hspin : s.spin = some q :=
      (h.spin_iff q).mp (by simp only [LockState.setPc_pc_of_ne _ _ hqp] at hq; simp [hq, Pc.holdsSpin])
    simp [hfree] at hspin
  woken _ _ := .inr ⟨p, by simp⟩

/-- A wakeup leaves the locks' holders as they are. -/
theorem holds_wakeupAll (f : Pc → Bool) (hf : f .runnable = f .asleep) (t : LockState) (q : Nat) :
    f ((wakeupAll t).pc q) = f (t.pc q) := by
  simp only [wakeupAll_eq]
  split_ifs with hq
  · rw [hq, hf]
  · rfl

/-- After a wakeup, the only processes still sleeping on the lock have not yet marked
themselves SLEEPING. -/
theorem sleepMarking_of_wakeupAll {t : LockState} {q : Nat}
    (hq : ((wakeupAll t).pc q).sleeps = true) : t.pc q = .sleepMarking := by
  simp only [wakeupAll_eq] at hq
  split_ifs at hq with ha
  · simp [Pc.sleeps] at hq
  · cases hc : t.pc q <;> simp_all [Pc.sleeps]

/-- After `release`'s wakeup no process sleeps on the lock: those asleep are RUNNABLE, and one that
has yet to mark itself SLEEPING would hold `ptable.lock`, which the wakeup found free. -/
theorem Inv.wakeupAll_sleeps (h : Inv s) (hp : s.pc p = .waking) (hfree : s.ptable = none)
    (q : Nat) : ((wakeupAll (s.setPc p .unlocking)).pc q).sleeps = false := by
  refine Bool.eq_false_iff.mpr fun hq => ?_
  have hm := sleepMarking_of_wakeupAll hq
  have hptable : s.ptable = some q := by
    refine (iff_setPc_keep _ h.ptable_iff (c := .unlocking) (by rw [hp]; rfl) q).mp ?_
    rw [hm]
    rfl
  simp [hfree] at hptable

/-- `release`'s `wakeup`, under `ptable.lock`, makes every sleeper on the lock RUNNABLE. -/
theorem Inv.wake_all (h : Inv s) (hp : s.pc p = .waking) (hfree : s.ptable = none) :
    Inv (wakeupAll (s.setPc p .unlocking)) where
  lock_iff q := by
    rw [holds_wakeupAll Pc.holdsLock rfl]
    exact iff_setPc_keep _ h.lock_iff (by rw [hp]; rfl) q
  spin_iff q := by
    rw [holds_wakeupAll Pc.holdsSpin rfl]
    exact iff_setPc_keep _ h.spin_iff (by rw [hp]; rfl) q
  ptable_iff q := by
    rw [holds_wakeupAll Pc.holdsPtable rfl]
    exact iff_setPc_keep _ h.ptable_iff (by rw [hp]; rfl) q
  locked_of_sleepLocking q hq := by
    have hq' : (s.setPc p .unlocking).pc q = .sleepLocking := by
      simp only [wakeupAll_eq] at hq
      split_ifs at hq
      exact hq
    exact h.sleepLocking_setPc (by simp) q hq'
  woken q hq := by
    rw [h.wakeupAll_sleeps hp hfree q] at hq
    cases hq

/-- `release` releases the spinlock. -/
theorem Inv.unlock_spin (h : Inv s) (hp : s.pc p = .unlocking) :
    Inv { s.setPc p .idle with spin := none } where
  lock_iff := iff_setPc_keep _ h.lock_iff (by rw [hp]; rfl)
  spin_iff := iff_setPc_drop _ h.spin_iff (by rw [hp]; rfl) rfl
  ptable_iff := iff_setPc_keep _ h.ptable_iff (by rw [hp]; rfl)
  locked_of_sleepLocking := h.sleepLocking_setPc (by simp)
  woken := h.woken_setPc (fun h => absurd h (by decide)) (by rw [hp]; decide)

/-- Every step of a process keeps `Inv`: one case for each counter the process can step from. -/
theorem Inv.of_next (h : Inv s) {s' : LockState} (hs : next s p = some s') : Inv s' := by
  unfold SleepWakeup.next at hs
  cases hp : s.pc p with
  | idle | asleep | holding => simp [hp] at hs
  | acquiring =>
    simp only [hp] at hs
    split_ifs at hs with hfree
    cases hs
    exact h.take_spin hp hfree
  | checking =>
    simp only [hp] at hs
    split at hs
    · rename_i lock hacq
      obtain ⟨hfree, rfl⟩ := SleepLock.acquire_eq_ok.mp hacq
      cases hs
      exact h.take_lock hp hfree
    · -- the lock is held: off to `sleep`, still holding the spinlock
      rename_i hacq
      cases hs
      exact h.setPc (by rw [hp]; rfl) (by rw [hp]; rfl) (by rw [hp]; rfl)
        (fun _ => SleepLock.locked_of_acquire_ne_ok hacq) (fun h => absurd h (by decide)) (by rw [hp]; decide)
  | sleepLocking =>
    simp only [hp] at hs
    split_ifs at hs with hfree
    cases hs
    exact h.sleep_take_ptable hp hfree
  | sleepMarking =>
    simp only [hp] at hs
    cases hs
    exact h.sleep_release_ptable hp
  | runnable =>
    simp only [hp] at hs
    split_ifs at hs with hfree
    cases hs
    exact h.sched_take_ptable hp hfree
  | resuming =>
    simp only [hp] at hs
    cases hs
    exact h.resume_release_ptable hp
  | releasing =>
    simp only [hp] at hs
    split_ifs at hs with hfree
    cases hs
    exact h.clear_lock hp hfree
  | waking =>
    simp only [hp] at hs
    split_ifs at hs with hfree
    cases hs
    exact h.wake_all hp hfree
  | unlocking =>
    simp only [hp] at hs
    cases hs
    exact h.unlock_spin hp

/-- Every event keeps `Inv`. -/
theorem Inv.step (h : Inv s) {e : Event} {s' : LockState} (hs : Step s e s') : Inv s' := by
  cases e with
  | acquire q =>
    obtain ⟨hq, rfl⟩ := hs
    exact h.setPc (by rw [hq]; rfl) (by rw [hq]; rfl) (by rw [hq]; rfl) (by simp)
      (fun h => absurd h (by decide)) (by rw [hq]; decide)
  | release q =>
    obtain ⟨hq, rfl⟩ := hs
    exact h.setPc (by rw [hq]; rfl) (by rw [hq]; rfl) (by rw [hq]; rfl) (by simp)
      (fun h => absurd h (by decide)) (by rw [hq]; decide)
  | next q => exact h.of_next hs
  | wake q =>
    obtain ⟨hq, -, rfl⟩ := hs
    exact h.setPc (by rw [hq]; rfl) (by rw [hq]; rfl) (by rw [hq]; rfl) (by simp)
      (fun h => absurd h (by decide)) (by rw [hq]; decide)

end Steps

/-- `Inv` holds in every reachable state. -/
theorem Reachable.inv {s : LockState} (h : Reachable s) : Inv s := by
  induction h with
  | init => exact inv_init
  | step _ hs ih => exact ih.step hs

/-! ## Mutual exclusion and wakeups -/

section Properties

variable {s s' : LockState}

/-- At most one process holds the lock. -/
theorem Inv.holder_unique (h : Inv s) {p q : Nat} (hp : (s.pc p).holdsLock = true)
    (hq : (s.pc q).holdsLock = true) : p = q :=
  Option.some_injective _ (((h.lock_iff p).mp hp).symm.trans ((h.lock_iff q).mp hq))

/-- `is_locked` answers true exactly to the holder. -/
theorem Inv.isLocked_eq (h : Inv s) (q : Nat) : s.lock.isLocked q = (s.pc q).holdsLock :=
  Bool.eq_iff_iff.mpr (SleepLock.isLocked_iff_holder.trans (h.lock_iff q).symm)

/-- The one step of a waking process is `release`'s wakeup. -/
theorem next_of_waking {p : Nat} (hp : s.pc p = .waking) (hs : next s p = some s') :
    s.ptable = none ∧ s' = wakeupAll (s.setPc p .unlocking) := by
  unfold next at hs
  simp only [hp] at hs
  split_ifs at hs with hfree
  exact ⟨hfree, (Option.some.inj hs).symm⟩

/-- `release`'s wakeup makes every process asleep on the lock RUNNABLE, and leaves none sleeping
on it. -/
theorem Inv.wakeup_wakes (h : Inv s) {p : Nat} (hp : s.pc p = .waking)
    (hs : next s p = some s') :
    (∀ q, s.pc q = .asleep → s'.pc q = .runnable) ∧ ∀ q, (s'.pc q).sleeps = false := by
  obtain ⟨hfree, rfl⟩ := next_of_waking hp hs
  refine ⟨fun q hq => ?_, h.wakeupAll_sleeps hp hfree⟩
  have hqp : q ≠ p := by
    rintro rfl
    rw [hp] at hq
    cases hq
  simp [wakeupAll_eq, hqp, hq]

/-- Only `acquire`'s test, when it finds the lock free, and `release`'s clearing write the lock. -/
theorem next_lock {p : Nat} (hs : next s p = some s') :
    s'.lock = s.lock ∨ (s.pc p = .checking ∧ s.lock.acquire p = .ok s'.lock ∧ s'.pc p = .holding) ∨
      (s.pc p = .releasing ∧ s'.lock = s.lock.release) := by
  unfold next at hs
  cases hp : s.pc p <;> simp only [hp, reduceCtorEq] at hs
  case checking =>
    split at hs
    · rename_i lock hacq
      cases hs
      exact .inr (.inl ⟨rfl, hacq, by simp⟩)
    · cases hs
      exact .inl rfl
  case releasing =>
    split_ifs at hs
    cases hs
    exact .inr (.inr ⟨rfl, rfl⟩)
  -- every other step moves the process and the other two locks only
  all_goals
    try split_ifs at hs
    cases hs
    exact .inl rfl

/-- Seen through the lock's own state, every step is a step of the atomic `SleepLock`: it leaves
the lock alone, or it is an `acquire` that takes the lock for the process that then holds it, or a
`release` by the holder. -/
theorem Inv.lock_step (h : Inv s) {e : Event} (hs : Step s e s') :
    s'.lock = s.lock ∨ (∃ p, s.lock.acquire p = .ok s'.lock ∧ (s'.pc p).holdsLock = true) ∨
      ∃ p, s.lock.isLocked p = true ∧ s'.lock = s.lock.release := by
  cases e with
  | acquire q =>
    obtain ⟨-, rfl⟩ := hs
    exact .inl rfl
  | release q =>
    obtain ⟨-, rfl⟩ := hs
    exact .inl rfl
  | wake q =>
    obtain ⟨-, -, rfl⟩ := hs
    exact .inl rfl
  | next q =>
    rcases next_lock hs with hl | ⟨-, hacq, hq⟩ | ⟨hq, hl⟩
    · exact .inl hl
    · exact .inr (.inl ⟨q, hacq, by rw [hq]; rfl⟩)
    · exact .inr (.inr ⟨q, by rw [h.isLocked_eq, hq]; rfl, hl⟩)

end Properties

/-- Mutual exclusion of sleep locks: in every reachable state at most one process holds the lock,
and `locked` and `pid` name it; a process sleeping on the lock has it held by another, or a
`release` that has cleared it is on its way to the wakeup; that wakeup makes every process asleep
on the lock RUNNABLE and leaves none sleeping; and `is_locked` is true exactly for the holder. -/
theorem sleeplock_mutual_exclusion :
    (∀ s, Reachable s → ∀ p q, (s.pc p).holdsLock = true → (s.pc q).holdsLock = true → p = q) ∧
    (∀ s, Reachable s → ∀ p,
      (s.pc p).holdsLock = true ↔ s.lock.locked = true ∧ s.lock.pid = p) ∧
    (∀ s, Reachable s → ∀ q, (s.pc q).sleeps = true →
      s.lock.locked = true ∨ ∃ r, s.pc r = .waking) ∧
    (∀ s s' r, Reachable s → s.pc r = .waking → Step s (.next r) s' →
      (∀ q, s.pc q = .asleep → s'.pc q = .runnable) ∧ ∀ q, (s'.pc q).sleeps = false) ∧
    (∀ s, Reachable s → ∀ p, s.lock.isLocked p = (s.pc p).holdsLock) := by
  refine ⟨fun s hs p q => hs.inv.holder_unique, fun s hs p => ?_, fun s hs => hs.inv.woken,
    fun s s' r hs hr hstep => hs.inv.wakeup_wakes hr hstep, fun s hs => hs.inv.isLocked_eq⟩
  rw [hs.inv.lock_iff p, SleepLock.holder_eq_some]

/-- Process 1 takes the lock and process 2, finding it held, goes to sleep on it: the lock names
process 1, and process 2 sleeps while it is held. -/
theorem sleeplock_mutual_exclusion_contended :
    ∃ s, Reachable s ∧ (s.pc 1).holdsLock = true ∧ s.pc 2 = .asleep ∧
      (s.lock.locked = true ∧ s.lock.pid = 1) ∧ (s.lock.locked = true ∨ ∃ r, s.pc r = .waking) := by
  have h₁ := Reachable.step (e := .next 1) (.step (e := .next 1)
    (.step (e := .acquire 1) .init ⟨rfl, rfl⟩) rfl) rfl
  have h₂ := Reachable.step (e := .next 2) (.step (e := .next 2)
    (.step (e := .acquire 2) h₁ ⟨rfl, rfl⟩) rfl) rfl
  have hreach := Reachable.step (e := .next 2) (.step (e := .next 2) h₂ rfl) rfl
  exact ⟨_, hreach, rfl, rfl, (sleeplock_mutual_exclusion.2.1 _ hreach 1).mp rfl,
    sleeplock_mutual_exclusion.2.2.1 _ hreach 2 rfl⟩

end Xv6.SleepWakeup
