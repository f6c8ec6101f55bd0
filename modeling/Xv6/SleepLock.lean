import Xv6.Lib.Outcome

/-!
# Sleep locks

`SleepLockC` of `sleeplock.rs`: a long-term lock that a process holds across sleeps. Its state is
whether it is held and by which process; the spinlock that protects that state makes each of
`acquire`, `release` and `is_locked` one atomic step here. `acquire` sleeps while the lock is held,
by another process or by the caller itself, so in a state where the lock is held it is a step
that blocks.
-/

namespace Xv6

open Machine

/-- `SleepLockC`: `locked` (a `u32` that is zero or one) and the holder's `pid`. -/
structure SleepLock where
  /-- Is the lock held? -/
  locked : Bool
  /-- The process holding the lock, or zero. -/
  pid : Nat
  deriving DecidableEq, Repr

namespace SleepLock

/-- `SleepLockC::new`: free. -/
def new : SleepLock := ⟨false, 0⟩

/-- `SleepLockC::acquire` by process `pid`: sleeps while the lock is held, then takes it. -/
def acquire (lk : SleepLock) (pid : Nat) : Outcome SleepLock :=
  if lk.locked then .block else .ok ⟨true, pid⟩

/-- `SleepLockC::release`: frees the lock (and wakes its sleepers). -/
def release (_lk : SleepLock) : SleepLock := ⟨false, 0⟩

/-- `SleepLockC::is_locked` (`holdingsleep`): held, and by the calling process `pid`. -/
def isLocked (lk : SleepLock) (pid : Nat) : Bool := lk.locked && lk.pid == pid

/-- The process holding the lock, if it is held. -/
def holder (lk : SleepLock) : Option Nat := if lk.locked then some lk.pid else none

@[simp] theorem holder_eq_some {lk : SleepLock} {pid : Nat} :
    lk.holder = some pid ↔ lk.locked = true ∧ lk.pid = pid := by
  unfold holder
  cases lk.locked <;> simp

@[simp] theorem holder_eq_none {lk : SleepLock} : lk.holder = none ↔ lk.locked = false := by
  unfold holder
  cases lk.locked <;> simp

/-- `is_locked` asks whether the caller is the holder. -/
theorem isLocked_iff_holder {lk : SleepLock} {pid : Nat} :
    lk.isLocked pid = true ↔ lk.holder = some pid := by
  simp [isLocked]

@[simp] theorem holder_release (lk : SleepLock) : lk.release.holder = none := rfl

/-- A lock that `acquire` does not take is held. -/
theorem locked_of_acquire_ne_ok {lk : SleepLock} {pid : Nat}
    (h : ∀ lk', lk.acquire pid ≠ .ok lk') : lk.locked = true := by
  unfold acquire at h
  cases hl : lk.locked
  · simp [hl] at h
  · rfl

/-- A lock is taken exactly when it is free, and then the caller holds it. -/
theorem acquire_eq_ok {lk lk' : SleepLock} {pid : Nat} :
    lk.acquire pid = .ok lk' ↔ lk.locked = false ∧ lk' = ⟨true, pid⟩ := by
  unfold acquire
  cases lk.locked <;> simp [eq_comm]

end SleepLock

end Xv6
