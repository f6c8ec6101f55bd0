import Mathlib
import Xv6.Lib.Outcome
import Xv6.Proc

/-!
# Spin locks and the nesting of `push_cli`

`push_cli` and `pop_cli` of `interrupt.rs`, the lock `SpinLockC` of `spinlock.rs` that the C half
of the kernel takes through `acquire` and `release`, `enter_scheduler` (`sched`) of `proc.rs` and
`sleep` of `proc.c`, on one CPU. `acquire` turns interrupts off with `push_cli` before it spins,
and `release` gives them back with `pop_cli`, so `ncli` counts the locks the CPU holds; the first
`push_cli` of a nesting records in `intena` whether interrupts were on, and the last `pop_cli`
turns them back on.

Every run of `push_cli` and `pop_cli` (`CliOp`, `cliStep`), among them the calls that `acquire`
and `release` make, from a CPU whose interrupts are off inside the nesting, panics at the first
pop that finds no push open and otherwise ends with `ncli` the number of pushes still open and
with `Cpu.outer`, whether interrupts are on outside the nesting, as it was (`cli_nesting`).

`Locks` is a finite family of locks with the CPU, and `Locks.step` one `acquire` or `release` of
one of them. `Nesting` is the invariant of their runs from the boot state: `ncli` is the number of
locks the CPU holds, and interrupts are off while it holds any.

`enter_scheduler` insists on `ncli = 1`, the lock of the process table alone. `sleep(chan, lk)`
takes that lock before it lets `lk` go, so with one more lock than `lk` held it panics with
`"enter_scheduler: locks"` (`sleep_locks`).

A lock that another CPU holds is spun on; that is a wait, the `block` of `Machine.Outcome`. A
process that goes to the scheduler runs again only after a `wakeup` and a turn of a scheduler,
which are other steps; here its call ends in `block` as well.
-/

namespace Xv6.Spinlock

open Machine ProcTable

/-- The part of `struct cpu` that the locks use: the depth `ncli` of `push_cli`, `intena` (the
`FL_IF` bit of `eflags` before the outermost `push_cli`, as a flag), and the `FL_IF` bit of the
CPU's `eflags` itself. `ncli` is an `i32` that `pop_cli` keeps from going below zero and that the
locks bound far below overflow. -/
structure Cpu where
  /-- Depth of `push_cli` nesting. -/
  ncli : Nat
  /-- Were interrupts enabled before `push_cli`? -/
  intena : Bool
  /-- Interrupts are enabled: `FL_IF` of `eflags`. -/
  intr : Bool
  deriving DecidableEq, Repr

/-- `push_cli`: read `eflags`, turn interrupts off, and at the outermost level record whether
they were on. -/
def push_cli (c : Cpu) : Cpu :=
  let eflags := c.intr
  let c := { c with intr := false }
  let c := if c.ncli = 0 then { c with intena := eflags } else c
  { c with ncli := c.ncli + 1 }

/-- `pop_cli`: the two panics, then one level less, with interrupts back on at the outermost
level if they were on before it. -/
def pop_cli (c : Cpu) : Outcome Cpu :=
  if c.intr then .panic "pop_cli - interruptible"
  else if c.ncli = 0 then .panic "pop_cli"
  else
    let c := { c with ncli := c.ncli - 1 }
    if c.ncli = 0 ∧ c.intena then pure { c with intr := true } else pure c

/-- `SpinLockC`: whether it is locked, and the CPU that holds it, `null` when none does. The
name and the call stack kept for debugging are not read by the kernel. -/
structure SpinLockC (κ : Type) where
  /-- Is the lock held? -/
  locked : Bool
  /-- The cpu holding the lock. -/
  cpu : Option κ
  deriving DecidableEq, Repr

/-- `SpinLockC::new`, and the lock as `release` leaves it. -/
def SpinLockC.new {κ : Type} : SpinLockC κ := ⟨false, none⟩

section Lock

variable {κ : Type} [DecidableEq κ]

/-- The lock is held by the CPU `me`. -/
def SpinLockC.heldBy (lk : SpinLockC κ) (me : κ) : Bool := lk.locked && lk.cpu == some me

theorem SpinLockC.heldBy_eq (lk : SpinLockC κ) (me : κ) :
    lk.heldBy me = (lk.locked && lk.cpu == some me) := rfl

/-- `is_locked`, run by `me`: whether it holds the lock, read inside `interrupt::free`, that is
between a `push_cli` and a `pop_cli`. -/
def is_locked (lk : SpinLockC κ) (me : κ) (c : Cpu) : Outcome (Bool × Cpu) := do
  let c := push_cli c
  let held := lk.heldBy me
  let c ← pop_cli c
  pure (held, c)

/-- `acquire`, run by `me`: interrupts off, the assertion that `me` does not hold the lock yet,
then the spin until the lock is free, which is a wait while another CPU holds it. -/
def acquire (lk : SpinLockC κ) (me : κ) (c : Cpu) : Outcome (SpinLockC κ × Cpu) := do
  let c := push_cli c
  let (held, c) ← is_locked lk me c
  if held then .panic "assertion failed: !self.is_locked()"
  else if lk.locked then .block
  else pure (⟨true, some me⟩, c)

/-- `release`, run by `me`: the assertion that `me` holds the lock, then the lock freed and one
level of `push_cli` undone. -/
def release (lk : SpinLockC κ) (me : κ) (c : Cpu) : Outcome (SpinLockC κ × Cpu) := do
  let (held, c) ← is_locked lk me c
  if !held then .panic "assertion failed: self.is_locked()"
  else
    let c ← pop_cli c
    pure (SpinLockC.new, c)

end Lock

/-- `enter_scheduler`, for the current process in state `p` (`none` when no process runs): the
checks, then `swtch` to the scheduler. -/
def enter_scheduler {α : Type} (c : Cpu) (p : Option ProcState) : Outcome α :=
  match p with
  | none => .panic "called `Option::unwrap()` on a `None` value"
  | some state =>
    if c.ncli ≠ 1 then .panic "enter_scheduler: locks"
    else if state = .RUNNING then .panic "enter_scheduler: running"
    else if c.intr then .panic "enter_scheduler: interruptible"
    else .block

/-- `sleep(chan, lk)` of `proc.c`, run by `me` with `lk` a lock other than `ptable.lock`: take
`ptable.lock`, let `lk` go, mark the process `SLEEPING` on `chan` and call `sched`. The channel is
only read by `wakeup`, and the lock is never null on the paths modelled. -/
def sleep {κ α : Type} [DecidableEq κ] (me : κ) (c : Cpu) (ptable lk : SpinLockC κ)
    (p : Option ProcState) : Outcome α := do
  let some _ := p | .panic "sleep"
  let (_, c) ← acquire ptable me c
  let (_, c) ← release lk me c
  enter_scheduler c (some .SLEEPING)

/-! ## One lock at a time -/

/-- Interrupts are off while `push_cli` is nested. -/
def Cpu.Wf (c : Cpu) : Prop := 0 < c.ncli → c.intr = false

section Specs

variable {κ : Type} [DecidableEq κ] {lk : SpinLockC κ} {me : κ} {c : Cpu}

@[simp] theorem push_cli_ncli (c : Cpu) : (push_cli c).ncli = c.ncli + 1 := by
  unfold push_cli
  dsimp only
  split_ifs <;> rfl

@[simp] theorem push_cli_intr (c : Cpu) : (push_cli c).intr = false := by
  unfold push_cli
  dsimp only
  split_ifs <;> rfl

/-- Inside a nesting, `push_cli` only adds a level. -/
theorem push_cli_of_nested (hintr : c.intr = false) (hn : 0 < c.ncli) :
    push_cli c = { c with ncli := c.ncli + 1 } := by
  unfold push_cli
  dsimp only
  rw [if_neg (by omega), ← hintr]

/-- Below the outermost level, `pop_cli` only takes a level off. -/
theorem pop_cli_of_nested (hintr : c.intr = false) (hn : 1 < c.ncli) :
    pop_cli c = .ok { c with ncli := c.ncli - 1 } := by
  have hlow : ¬(c.ncli - 1 = 0 ∧ c.intena = true) := fun h => by omega
  unfold pop_cli
  rw [if_neg (by simp [hintr]), if_neg (by omega)]
  exact if_neg hlow

/-- At the outermost level, `pop_cli` gives interrupts back as `intena` recorded them. -/
theorem pop_cli_outermost (hintr : c.intr = false) (hn : c.ncli = 1) :
    pop_cli c = .ok { c with ncli := 0, intr := c.intena } := by
  unfold pop_cli
  rw [if_neg (by simp [hintr]), if_neg (by omega)]
  cases hi : c.intena
  · simp [hn, hintr]
  · simp [hn]

/-- Inside a nesting, a `push_cli` and a `pop_cli` leave the CPU as it was. -/
theorem pop_cli_push_cli (hintr : c.intr = false) (hn : 0 < c.ncli) :
    pop_cli (push_cli c) = .ok c := by
  rw [push_cli_of_nested hintr hn, pop_cli_of_nested (c := { c with ncli := c.ncli + 1 }) hintr
    (by simp; omega)]
  rfl

/-- Inside a nesting, `is_locked` reads the lock and leaves the CPU as it was. -/
theorem is_locked_of_nested (hintr : c.intr = false) (hn : 0 < c.ncli) :
    is_locked lk me c = .ok (lk.heldBy me, c) := by
  unfold is_locked
  simp only [pop_cli_push_cli hintr hn, Outcome.ok_bind]
  rfl

/-- Whatever the CPU, `is_locked` answers whether `me` holds the lock. -/
theorem is_locked_fst {b : Bool} {c' : Cpu} (h : is_locked lk me c = .ok (b, c')) :
    b = lk.heldBy me := by
  unfold is_locked at h
  obtain ⟨c1, -, hret⟩ := Outcome.bind_eq_ok.mp h
  cases hret
  rfl

/-- `acquire` completes exactly when the lock is free; it then holds the lock for `me`, one level
of `push_cli` deeper. -/
theorem acquire_eq_ok {lk' : SpinLockC κ} {c' : Cpu} :
    acquire lk me c = .ok (lk', c') ↔ lk.locked = false ∧ lk' = ⟨true, some me⟩ ∧ c' = push_cli c := by
  have hlocked : is_locked lk me (push_cli c) = .ok (lk.heldBy me, push_cli c) :=
    is_locked_of_nested (push_cli_intr c) (by simp)
  unfold acquire
  dsimp only
  rw [hlocked, Outcome.ok_bind]
  cases hl : lk.locked
  · -- a free lock is not held, and is taken
    have hh : lk.heldBy me = false := by simp [SpinLockC.heldBy_eq, hl]
    simp only [hh, Bool.false_eq_true, if_false, Outcome.pure_eq, Outcome.ok.injEq, Prod.mk.injEq,
      true_and]
    constructor
    · rintro ⟨rfl, rfl⟩
      exact ⟨rfl, rfl⟩
    · rintro ⟨rfl, rfl⟩
      exact ⟨rfl, rfl⟩
  · cases hh : lk.heldBy me <;> simp

/-- `release` completes only for a lock that `me` holds. -/
theorem heldBy_of_release {r : SpinLockC κ × Cpu} (h : release lk me c = .ok r) :
    lk.heldBy me = true := by
  unfold release at h
  obtain ⟨⟨b, c1⟩, hlocked, hrest⟩ := Outcome.bind_eq_ok.mp h
  rw [← is_locked_fst hlocked]
  cases b
  · cases hrest
  · rfl

/-- `release` of a lock that `me` holds, inside a nesting, frees it and takes a level off. -/
theorem release_of_held (hheld : lk.heldBy me = true) (hintr : c.intr = false) (hn : 0 < c.ncli) :
    release lk me c = (pop_cli c >>= fun c => pure (SpinLockC.new, c)) := by
  unfold release
  rw [is_locked_of_nested hintr hn]
  simp [hheld]

end Specs

/-! ## Runs of `push_cli` and `pop_cli` -/

/-- A call of `push_cli` or of `pop_cli` on the CPU. -/
inductive CliOp where
  | push
  | pop
  deriving DecidableEq, Repr

/-- One call. -/
def cliStep (c : Cpu) : CliOp → Outcome Cpu
  | .push => pure (push_cli c)
  | .pop => pop_cli c

/-- The pushes not yet matched by a pop after the calls `ops`, from `d` open ones; `none` once a
pop finds none open. -/
def openAfter : Nat → List CliOp → Option Nat
  | d, [] => some d
  | d, .push :: ops => openAfter (d + 1) ops
  | 0, .pop :: _ => none
  | d + 1, .pop :: ops => openAfter d ops

/-- Whether interrupts are on outside the nesting: the flag itself at depth zero, and inside a
nesting the flag that its outermost `push_cli` recorded. -/
def Cpu.outer (c : Cpu) : Bool := if c.ncli = 0 then c.intr else c.intena

/-- `pop_cli` panics exactly when interrupts are on or no `push_cli` is open. -/
theorem pop_cli_panics_iff (c : Cpu) :
    (∃ msg, pop_cli c = .panic msg) ↔ c.intr = true ∨ c.ncli = 0 := by
  unfold pop_cli
  cases hi : c.intr
  · by_cases hn : c.ncli = 0
    · simp [hn]
    · -- neither check fires: the call completes
      simp only [hn, Bool.false_eq_true, if_false, false_or, iff_false, not_exists]
      intro msg
      split <;> simp
  · simp

/-- `push_cli` keeps what is on outside the nesting. -/
@[simp] theorem push_cli_outer (c : Cpu) : (push_cli c).outer = c.outer := by
  unfold push_cli Cpu.outer
  by_cases hn : c.ncli = 0 <;> simp [hn]

/-- A `pop_cli` that matches an open `push_cli`, with interrupts off inside the nesting: it takes
a level off and keeps what is on outside the nesting. -/
theorem pop_cli_matched {c : Cpu} (hwf : c.Wf) (hn : 0 < c.ncli) :
    ∃ c', pop_cli c = .ok c' ∧ c'.ncli = c.ncli - 1 ∧ c'.Wf ∧ c'.outer = c.outer := by
  have hintr : c.intr = false := hwf hn
  rcases Nat.lt_or_ge 1 c.ncli with hgt | hle
  · -- a level below the outermost: interrupts stay off and `intena` is kept
    refine ⟨_, pop_cli_of_nested hintr hgt, rfl, fun _ => hintr, ?_⟩
    simp only [Cpu.outer, if_neg (show c.ncli - 1 ≠ 0 by omega), if_neg (show c.ncli ≠ 0 by omega)]
  · -- the outermost level: interrupts come back as `intena` recorded them
    have h1 : c.ncli = 1 := by omega
    refine ⟨_, pop_cli_outermost hintr h1, by simp [h1], fun h => absurd h (Nat.lt_irrefl 0), ?_⟩
    simp [Cpu.outer, h1]

/-- Interrupt nesting on one CPU: `pop_cli` panics exactly on an unmatched pop or with interrupts
on; and every sequence of calls from a CPU whose interrupts are off inside the nesting panics if a
pop is unmatched, and otherwise ends with `ncli` the number of pushes still open, interrupts off
while it is positive, and what is on outside the nesting as it was, so that the pop that closes
the nesting turns interrupts on exactly when they were on before its first push. -/
theorem cli_nesting :
    (∀ c : Cpu, (∃ msg, pop_cli c = .panic msg) ↔ c.intr = true ∨ c.ncli = 0) ∧
      ∀ (c : Cpu) (ops : List CliOp), c.Wf →
        (openAfter c.ncli ops = none → ∃ msg, Outcome.run cliStep c ops = .panic msg) ∧
        ∀ d, openAfter c.ncli ops = some d → ∃ c', Outcome.run cliStep c ops = .ok c' ∧
          c'.ncli = d ∧ c'.Wf ∧ c'.outer = c.outer := by
  refine ⟨pop_cli_panics_iff, fun c ops hc => ?_⟩
  -- induction on the calls, from any CPU whose interrupts are off inside the nesting
  induction ops generalizing c with
  | nil =>
    refine ⟨fun h => (nomatch h), fun d hd => ?_⟩
    cases hd
    exact ⟨c, rfl, rfl, hc, rfl⟩
  | cons op ops ih =>
    cases op with
    | push =>
      have hwf : (push_cli c).Wf := fun _ => push_cli_intr c
      have hopen : openAfter c.ncli (.push :: ops) = openAfter (push_cli c).ncli ops := by
        simp [openAfter]
      simp only [hopen, Outcome.run_cons, cliStep, Outcome.pure_eq, Outcome.ok_bind]
      obtain ⟨hnone, hsome⟩ := ih (push_cli c) hwf
      refine ⟨hnone, fun d hd => ?_⟩
      obtain ⟨c', hrun, hd', hwf', hout⟩ := hsome d hd
      exact ⟨c', hrun, hd', hwf', by rw [hout, push_cli_outer]⟩
    | pop =>
      cases hn : c.ncli with
      | zero =>
        -- an unmatched pop
        obtain ⟨msg, hpop⟩ := (pop_cli_panics_iff c).mpr (Or.inr hn)
        refine ⟨fun _ => ⟨msg, ?_⟩, fun d hd => by simp [openAfter] at hd⟩
        simp only [Outcome.run_cons, cliStep, hpop, Outcome.panic_bind]
      | succ k =>
        obtain ⟨c', hpop, hk, hwf', hout⟩ := pop_cli_matched hc (by omega)
        have hopen : openAfter (k + 1) (.pop :: ops) = openAfter c'.ncli ops := by
          rw [hk, hn]
          rfl
        simp only [hopen, Outcome.run_cons, cliStep, hpop, Outcome.ok_bind]
        obtain ⟨hnone, hsome⟩ := ih c' hwf'
        refine ⟨hnone, fun d hd => ?_⟩
        obtain ⟨c'', hrun, hd', hwf'', hout'⟩ := hsome d hd
        exact ⟨c'', hrun, hd', hwf'', hout'.trans hout⟩

/-- A CPU with interrupts on, through an `acquire` and a `release`: the nesting closes and the
interrupts are on again. -/
theorem cli_nesting_acquire_release :
    ∃ c', Outcome.run cliStep ⟨0, false, true⟩ [.push, .push, .pop, .push, .pop, .pop] = .ok c' ∧
      c'.ncli = 0 ∧ c'.Wf ∧ c'.outer = true :=
  (cli_nesting.2 ⟨0, false, true⟩ _ (fun h => absurd h (Nat.lt_irrefl 0))).2 0 rfl

/-! ## A family of locks -/

/-- The locks of a finite family and the CPU `me` that takes them. -/
structure Locks (ι κ : Type) where
  /-- The locks. -/
  locks : ι → SpinLockC κ
  /-- The CPU. -/
  cpu : Cpu

/-- An `acquire` or a `release` of one lock of the family. -/
inductive LockOp (ι : Type) where
  | acquire (i : ι)
  | release (i : ι)
  deriving DecidableEq, Repr

section Family

variable {ι κ : Type} [DecidableEq ι] [Fintype ι] [DecidableEq κ]

/-- One `acquire` or `release` by `me`. -/
def Locks.step (me : κ) (s : Locks ι κ) : LockOp ι → Outcome (Locks ι κ)
  | .acquire i => do
    let (lk, cpu) ← acquire (s.locks i) me s.cpu
    pure ⟨Function.update s.locks i lk, cpu⟩
  | .release i => do
    let (lk, cpu) ← release (s.locks i) me s.cpu
    pure ⟨Function.update s.locks i lk, cpu⟩

/-- The locks of the family that `me` holds. -/
def held (locks : ι → SpinLockC κ) (me : κ) : Finset ι :=
  Finset.univ.filter fun i => (locks i).heldBy me

omit [DecidableEq ι] in
theorem held_eq (locks : ι → SpinLockC κ) (me : κ) :
    held locks me = Finset.univ.filter fun i => (locks i).heldBy me := rfl

/-- The boot state: every lock free, no nesting, interrupts off. -/
def Locks.boot : Locks ι κ := ⟨fun _ => SpinLockC.new, ⟨0, false, false⟩⟩

/-- The lock nesting of `me`: `ncli` counts the locks it holds, interrupts are off while it holds
any, and a lock is locked only for a holder. -/
structure Nesting (me : κ) (s : Locks ι κ) : Prop where
  ncli_eq : s.cpu.ncli = (held s.locks me).card
  wf : s.cpu.Wf
  holder : ∀ i, (s.locks i).locked = (s.locks i).cpu.isSome

/-- Taking the lock `i` for `me` adds `i` to what `me` holds. -/
theorem held_acquire {locks : ι → SpinLockC κ} (me : κ) {i : ι} (hfree : (locks i).locked = false) :
    held (Function.update locks i ⟨true, some me⟩) me = insert i (held locks me) ∧
      i ∉ held locks me := by
  constructor
  · ext j
    by_cases hj : j = i
    · subst hj
      simp [held_eq, SpinLockC.heldBy_eq]
    · simp [held_eq, hj]
  · simp [held_eq, SpinLockC.heldBy_eq, hfree]

/-- Freeing the lock `i` takes it out of what `me` holds. -/
theorem held_release {locks : ι → SpinLockC κ} {me : κ} (i : ι) :
    held (Function.update locks i SpinLockC.new) me = (held locks me).erase i := by
  ext j
  by_cases hj : j = i
  · subst hj
    simp [held_eq, SpinLockC.heldBy_eq, SpinLockC.new]
  · simp [held_eq, hj]

omit [Fintype ι] [DecidableEq κ] in
/-- Setting one lock of a family to a lock that is locked exactly when it has a holder keeps that
of the family. -/
theorem holder_update {locks : ι → SpinLockC κ} (h : ∀ j, (locks j).locked = (locks j).cpu.isSome)
    (i : ι) {lk : SpinLockC κ} (hlk : lk.locked = lk.cpu.isSome) (j : ι) :
    (Function.update locks i lk j).locked = (Function.update locks i lk j).cpu.isSome := by
  by_cases hj : j = i
  · subst hj
    simpa using hlk
  · simp [hj, h j]

/-- Every completed `acquire` or `release` keeps the nesting. -/
theorem Nesting.step {me : κ} {s s' : Locks ι κ} {op : LockOp ι} (hs : Nesting me s)
    (h : s.step me op = .ok s') : Nesting me s' := by
  cases op with
  | acquire i =>
    obtain ⟨⟨lk, cpu⟩, hacq, hs'⟩ := Outcome.bind_eq_ok.mp h
    cases hs'
    obtain ⟨hfree, rfl, rfl⟩ := acquire_eq_ok.mp hacq
    obtain ⟨hins, hnot⟩ := held_acquire me hfree
    refine ⟨?_, fun _ => push_cli_intr _, holder_update hs.holder i rfl⟩
    show (push_cli s.cpu).ncli = (held (Function.update s.locks i ⟨true, some me⟩) me).card
    rw [push_cli_ncli, hins, Finset.card_insert_of_notMem hnot, hs.ncli_eq]
  | release i =>
    obtain ⟨⟨lk, cpu⟩, hrel, hs'⟩ := Outcome.bind_eq_ok.mp h
    cases hs'
    -- `release` completes only for a held lock, and then `ncli` counts it
    have hheld : (s.locks i).heldBy me = true := heldBy_of_release hrel
    have hmem : i ∈ held s.locks me := by simp [held_eq, hheld]
    have hpos : 0 < s.cpu.ncli := by
      rw [hs.ncli_eq]
      exact Finset.card_pos.mpr ⟨i, hmem⟩
    rw [release_of_held hheld (hs.wf hpos) hpos] at hrel
    obtain ⟨c', hpop, hc'⟩ := Outcome.bind_eq_ok.mp hrel
    cases hc'
    have hcard := Finset.card_erase_of_mem hmem
    rcases Nat.lt_or_ge 1 s.cpu.ncli with hgt | hle
    · rw [pop_cli_of_nested (hs.wf hpos) hgt] at hpop
      cases hpop
      refine ⟨?_, fun _ => hs.wf hpos, holder_update hs.holder i rfl⟩
      show s.cpu.ncli - 1 = _
      rw [held_release, hcard, hs.ncli_eq]
    · rw [pop_cli_outermost (hs.wf hpos) (by omega)] at hpop
      cases hpop
      refine ⟨?_, fun h0 => absurd h0 (Nat.lt_irrefl 0), holder_update hs.holder i rfl⟩
      show 0 = _
      rw [held_release, hcard, ← hs.ncli_eq]
      omega

omit [DecidableEq ι] in
/-- The boot state is nested correctly: nothing held, `ncli` zero. -/
theorem Nesting.boot (me : κ) : Nesting me (Locks.boot : Locks ι κ) where
  ncli_eq := by simp [Locks.boot, held_eq, SpinLockC.heldBy_eq, SpinLockC.new]
  wf := fun h => absurd h (Nat.lt_irrefl 0)
  holder := fun _ => rfl

end Family

/-! ## Going to sleep -/

section Sleep

variable {κ α : Type} [DecidableEq κ] {me : κ} {c : Cpu} {ptable lk : SpinLockC κ}
  {p : ProcState}

/-- `sleep` with `ptable.lock` free and `lk` held, inside a nesting: `sched` is called with the
nesting as it was, `ptable.lock` in the place of `lk`. -/
theorem sleep_eq (hfree : ptable.locked = false) (hheld : lk.heldBy me = true)
    (hintr : c.intr = false) (hn : 0 < c.ncli) :
    (sleep me c ptable lk (some p) : Outcome α) = enter_scheduler c (some .SLEEPING) := by
  have hacq : acquire ptable me c = .ok (⟨true, some me⟩, push_cli c) :=
    acquire_eq_ok.mpr ⟨hfree, rfl, rfl⟩
  have hrel : release lk me (push_cli c) = .ok (SpinLockC.new, c) := by
    rw [release_of_held hheld (push_cli_intr c) (by simp), pop_cli_push_cli hintr hn]
    rfl
  unfold sleep
  simp only [hacq, Outcome.ok_bind, hrel]

/-- `sleep` with one more lock held than `lk` panics in `sched`. -/
theorem sleep_locks (hfree : ptable.locked = false) (hheld : lk.heldBy me = true)
    (hintr : c.intr = false) (hn : 1 < c.ncli) :
    (sleep me c ptable lk (some p) : Outcome α) = .panic "enter_scheduler: locks" := by
  rw [sleep_eq hfree hheld hintr (by omega)]
  unfold enter_scheduler
  simp only [if_pos (Nat.ne_of_gt hn)]

end Sleep

end Xv6.Spinlock
