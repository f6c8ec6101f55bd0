import Mathlib
import Xv6.Param
import Xv6.Lib.Outcome

/-!
# The process table

`ptable` of `proc.c`: `NPROC` slots of `struct proc`, the next pid and `initproc`. Each function
runs under `ptable.lock`, so each is one atomic step of the table here: `allocproc`, `userinit`,
the two halves of `fork` (between them `allocproc` has released the lock and the new process is
an `EMBRYO` whose parent is not set yet), `exit`, one scan of `wait`, `kill`, and the steps of
scheduling: a turn of `scheduler`, `yield_proc`, `sleep` and `wakeup`. The answers of `kalloc`,
`setupkvm` and `copyuvm` are arguments, so that a result holds whatever they answer. What `fork`
and `exit` do with files, the current directory and memory belongs to other modules.

`Step` lets any process take any of these steps, on any CPU, whenever the code allows it, and
`Reaches` is a run from the zeroed table of the kernel's start, with the pids that `wait`
returned on the way. `Inv` is what every step keeps: the parents of processes are alive, and
pids are never handed out twice. From it, `parent_of_reaches` says where every process's parent
is, `reaped_nodup` that `wait` never returns a pid twice, and `zombie_leaves_by_wait` that a
zombie leaves its state only through the `wait` that returns its pid.
-/

namespace Xv6.ProcTable

open Machine

/-- `enum procstate`. -/
inductive ProcState where
  | UNUSED
  | EMBRYO
  | SLEEPING
  | RUNNABLE
  | RUNNING
  | ZOMBIE
  deriving DecidableEq, Repr

/-- A process that exists and has not exited: it sleeps, waits for a CPU or runs. -/
def ProcState.active : ProcState → Bool
  | .SLEEPING | .RUNNABLE | .RUNNING => true
  | _ => false

/-- A `void *chan`: a slot of the table, since `wait` sleeps on its own process, or the address
of another object. -/
inductive Chan where
  | proc (p : Fin NPROC)
  | addr (a : Nat)
  deriving DecidableEq, Repr

/-- `struct proc`, with the fields the table's functions use. A pointer into the table is a slot;
`killed` is the `int` that is only ever set to one or zero. -/
structure Proc where
  /-- Process state. -/
  state : ProcState
  /-- Process ID, an `int`. -/
  pid : Int32
  /-- Parent process, or null. -/
  parent : Option (Fin NPROC)
  /-- The channel the process sleeps on, or null. -/
  chan : Option Chan
  /-- Has been killed. -/
  killed : Bool
  /-- Bottom of the kernel stack, zero for none. -/
  kstack : Nat
  /-- Page directory. -/
  pgdir : Nat
  deriving DecidableEq, Repr

/-- A slot of the zeroed static `ptable`. -/
def Proc.zero : Proc := ⟨.UNUSED, 0, none, none, false, 0, 0⟩

/-- `ptable`, with `nextpid` and `initproc`. -/
structure PTable where
  /-- `ptable.proc[0..NPROC)`. -/
  proc : Fin NPROC → Proc
  /-- `nextpid`, an `int`. -/
  nextpid : Int32
  /-- `initproc`, null until `userinit`. -/
  initproc : Option (Fin NPROC)

/-- The table at the kernel's start. -/
def boot : PTable := ⟨fun _ => Proc.zero, 1, none⟩

/-- A write of slot `i`. -/
def PTable.set (t : PTable) (i : Fin NPROC) (p : Proc) : PTable :=
  { t with proc := Function.update t.proc i p }

@[simp] theorem set_proc_self (t : PTable) (i : Fin NPROC) (p : Proc) : (t.set i p).proc i = p := by
  simp [PTable.set]

@[simp] theorem set_proc_of_ne {t : PTable} {i j : Fin NPROC} (p : Proc) (h : j ≠ i) :
    (t.set i p).proc j = t.proc j := by
  simp [PTable.set, h]

@[simp] theorem set_nextpid (t : PTable) (i : Fin NPROC) (p : Proc) :
    (t.set i p).nextpid = t.nextpid := rfl

@[simp] theorem set_initproc (t : PTable) (i : Fin NPROC) (p : Proc) :
    (t.set i p).initproc = t.initproc := rfl

/-- The first slot, in the order of the table, whose process satisfies `f`. -/
def findSlot (t : PTable) (f : Proc → Bool) : Option (Fin NPROC) :=
  (List.finRange NPROC).find? fun i => f (t.proc i)

/-! ## The functions of `proc.c` -/

/-- `allocproc`, with `kstack` the page `kalloc` returns: the first UNUSED slot becomes an EMBRYO
with the next pid, and gets the page as its kernel stack; with no page it goes back to UNUSED,
keeping the pid. A full table gives null. -/
def allocproc (t : PTable) (kstack : Option Nat) : Outcome (PTable × Option (Fin NPROC)) :=
  match findSlot t fun p => p.state == .UNUSED with
  | none => .ok (t, none)
  | some i =>
    -- `nextpid++` of the largest `int` is undefined
    if t.nextpid = Int32.maxValue then .ub
    else
      let p := { t.proc i with state := .EMBRYO, pid := t.nextpid }
      let t := { t.set i p with nextpid := t.nextpid + 1 }
      match kstack with
      | none => .ok (t.set i { p with state := .UNUSED }, none)
      | some k => .ok (t.set i { p with kstack := k }, some i)

/-- `userinit`: the first process, in the first slot `allocproc` gives, with the page directory
`setupkvm` returns, becomes RUNNABLE and is `initproc`. It does not test `allocproc` for null. -/
def userinit (t : PTable) (kstack pgdir : Option Nat) : Outcome PTable := do
  match ← allocproc t kstack with
  | (_, none) => .ub
  | (t, some i) =>
    match pgdir with
    | none => .panic "userinit: out of memory?"
    | some pg =>
      .ok ({ t with initproc := some i }.set i { t.proc i with pgdir := pg, state := .RUNNABLE })

/-- The part of `fork` after `allocproc`, by the current process `c` for the EMBRYO `np`, with
the page directory `copyuvm` returns: with none the kernel stack is freed and the slot is UNUSED
again, and `-1` is returned; otherwise `np` is `c`'s child, RUNNABLE, and its pid is returned. -/
def forkFinish (t : PTable) (c np : Fin NPROC) (pgdir : Option Nat) : PTable × Int32 :=
  let p := t.proc np
  match pgdir with
  | none => (t.set np { p with kstack := 0, state := .UNUSED }, -1)
  | some pg => (t.set np { p with pgdir := pg, parent := some c, state := .RUNNABLE }, p.pid)

/-- `fork` by the current process `c`. -/
def fork (t : PTable) (c : Fin NPROC) (kstack pgdir : Option Nat) : Outcome (PTable × Int32) := do
  match ← allocproc t kstack with
  | (t, none) => pure (t, -1)
  | (t, some np) => pure (forkFinish t c np pgdir)

/-- `wakeup1(chan)`: every process sleeping on `chan` is RUNNABLE. -/
def wakeup1 (t : PTable) (chan : Option Chan) : PTable :=
  { t with
    proc := fun i =>
      if (t.proc i).state = .SLEEPING ∧ (t.proc i).chan = chan then
        { t.proc i with state := .RUNNABLE }
      else t.proc i }

/-- The loop of `exit` over the slots `is` that passes the children of `c` to `initproc`, and
wakes `initproc` for each child that is a zombie. -/
def reparent (c : Fin NPROC) (t : PTable) : List (Fin NPROC) → PTable
  | [] => t
  | i :: is =>
    if (t.proc i).parent = some c then
      let t := t.set i { t.proc i with parent := t.initproc }
      let t := if (t.proc i).state = .ZOMBIE then wakeup1 t (t.initproc.map .proc) else t
      reparent c t is
    else reparent c t is

/-- The part of `exit` under `ptable.lock`, by the current process `c`: its parent is woken, its
children go to `initproc`, and it is a zombie. `initproc` may not exit. -/
def exit (t : PTable) (c : Fin NPROC) : Outcome PTable :=
  if t.initproc = some c then .panic "init exiting"
  else
    -- parent might be sleeping in `wait`
    let t := wakeup1 t ((t.proc c).parent.map .proc)
    let t := reparent c t (List.finRange NPROC)
    .ok (t.set c { t.proc c with state := .ZOMBIE })

/-- How one scan of `wait` ends. -/
inductive WaitResult where
  /-- A zombie child's pid is returned, after its kernel stack and page directory are freed. -/
  | reaped (pid : Int32) (kstack pgdir : Nat)
  /-- `-1` is returned. -/
  | noChild
  /-- The caller sleeps on itself, and scans again when it runs. -/
  | sleeps
  deriving DecidableEq, Repr

/-- The pid a scan of `wait` returns, if it returns one. -/
def WaitResult.pid? : WaitResult → Option Int32
  | .reaped pid _ _ => some pid
  | _ => none

/-- The children of `c`: the slots whose parent is `c`, in the order of the table. -/
def children (t : PTable) (c : Fin NPROC) : List (Fin NPROC) :=
  (List.finRange NPROC).filter fun i => (t.proc i).parent = some c

/-- One scan of `wait` by the current process `c`: the first zombie child is freed and its pid
returned; with no children, or killed, `-1`; otherwise `c` sleeps. -/
def wait (t : PTable) (c : Fin NPROC) : PTable × WaitResult :=
  match (children t c).find? fun i => (t.proc i).state = .ZOMBIE with
  | some i =>
    let p := t.proc i
    (t.set i { p with kstack := 0, pid := 0, parent := none, killed := false, state := .UNUSED },
      .reaped p.pid p.kstack p.pgdir)
  | none =>
    if (children t c).isEmpty || (t.proc c).killed then (t, .noChild)
    else (t.set c { t.proc c with chan := some (.proc c), state := .SLEEPING }, .sleeps)

/-- `kill(pid)`: the first slot with that pid is killed, and woken if it sleeps; `0`, or `-1`
when no slot has the pid. -/
def kill (t : PTable) (pid : Int32) : PTable × Int32 :=
  match findSlot t fun p => p.pid == pid with
  | some i =>
    let p := t.proc i
    (t.set i
      { p with killed := true, state := if p.state = .SLEEPING then .RUNNABLE else p.state }, 0)
  | none => (t, -1)

/-- A turn of `scheduler` that switches to the RUNNABLE process `p`; a process that slept clears
its channel when `sleep` returns. -/
def run (t : PTable) (p : Fin NPROC) : PTable :=
  t.set p { t.proc p with state := .RUNNING, chan := none }

/-- `yield_proc` by the current process `c`. -/
def yield_proc (t : PTable) (c : Fin NPROC) : PTable :=
  t.set c { t.proc c with state := .RUNNABLE }

/-- `sleep(chan, lk)` by the current process `c`. -/
def sleep (t : PTable) (c : Fin NPROC) (chan : Chan) : PTable :=
  t.set c { t.proc c with chan := some chan, state := .SLEEPING }

/-- `wakeup(chan)`. -/
def wakeup (t : PTable) (chan : Chan) : PTable :=
  wakeup1 t (some chan)

/-! ## What each function does -/

theorem findSlot_some {t : PTable} {f : Proc → Bool} {i : Fin NPROC} (h : findSlot t f = some i) :
    f (t.proc i) = true := by
  simpa using List.find?_some h

theorem findSlot_none {t : PTable} {f : Proc → Bool} (h : findSlot t f = none) (i : Fin NPROC) :
    f (t.proc i) = false := by
  simpa using List.find?_eq_none.mp h i (List.mem_finRange i)

/-- `nextpid++` below the largest `int` adds one to the number. -/
theorem toInt_add_one {x : Int32} (h : x ≠ Int32.maxValue) : (x + 1).toInt = x.toInt + 1 := by
  have hle := Int32.toInt_le x
  have hge := Int32.le_toInt x
  have hne : x.toInt ≠ Int32.maxValue.toInt := fun e => h (Int32.toInt_inj.mp e)
  rw [Int32.toInt_maxValue] at hle hne
  have hone : (1 : Int32).toInt = 1 := by decide
  rw [Int32.toInt_add, hone]
  exact Int.bmod_eq_of_le (by omega) (by omega)

/-- What `allocproc` does: with no UNUSED slot, nothing; otherwise the first UNUSED slot `i`
takes the next pid and is an EMBRYO, or UNUSED again when there is no page, and keeps its other
fields, `killed` among them. -/
theorem allocproc_spec {t t' : PTable} {k : Option Nat} {np : Option (Fin NPROC)}
    (h : allocproc t k = .ok (t', np)) :
    (np = none ∧ t' = t ∧ ∀ i, (t.proc i).state ≠ .UNUSED) ∨
    ∃ i, (t.proc i).state = .UNUSED ∧ t.nextpid ≠ Int32.maxValue ∧
      t'.nextpid = t.nextpid + 1 ∧ t'.initproc = t.initproc ∧
      (∀ j, j ≠ i → t'.proc j = t.proc j) ∧
      (t'.proc i).pid = t.nextpid ∧ (t'.proc i).parent = (t.proc i).parent ∧
      (t'.proc i).killed = (t.proc i).killed ∧
      ((t'.proc i).state = .UNUSED ∧ np = none ∨ (t'.proc i).state = .EMBRYO ∧ np = some i) := by
  unfold allocproc at h
  split at h
  · rename_i hnone
    cases h
    exact .inl ⟨rfl, rfl, fun i => by simpa using findSlot_none hnone i⟩
  · rename_i i hi
    have hunused : (t.proc i).state = .UNUSED := by simpa using findSlot_some hi
    split_ifs at h with hmax
    refine .inr ⟨i, hunused, hmax, ?_⟩
    -- the slot is written twice: as an EMBRYO, then with the outcome of `kalloc`
    cases k with
    | none =>
      cases h
      exact ⟨rfl, rfl, fun j hj => by simp [PTable.set, hj], by simp, by simp, by simp,
        .inl ⟨by simp, rfl⟩⟩
    | some k =>
      cases h
      exact ⟨rfl, rfl, fun j hj => by simp [PTable.set, hj], by simp, by simp, by simp,
        .inr ⟨by simp, rfl⟩⟩

/-- What `userinit` does: the first UNUSED slot, with the next pid, is RUNNABLE and is
`initproc`; the other slots are as they were. -/
theorem userinit_spec {t t' : PTable} {k pg : Option Nat} (h : userinit t k pg = .ok t') :
    ∃ i, (t.proc i).state = .UNUSED ∧ t.nextpid ≠ Int32.maxValue ∧
      t'.nextpid = t.nextpid + 1 ∧ t'.initproc = some i ∧
      (∀ j, j ≠ i → t'.proc j = t.proc j) ∧
      (t'.proc i).pid = t.nextpid ∧ (t'.proc i).state = .RUNNABLE := by
  unfold userinit at h
  obtain ⟨⟨t₁, np⟩, ha, h⟩ := Outcome.bind_eq_ok.mp h
  rcases allocproc_spec ha with ⟨rfl, -, -⟩ | ⟨i, hunused, hmax, hnext, -, hother, hpid, -, -, hnp⟩
  · cases h
  · rcases hnp with ⟨-, rfl⟩ | ⟨-, rfl⟩
    · cases h
    · cases pg with
      | none => cases h
      | some pg =>
        cases h
        refine ⟨i, hunused, hmax, hnext, rfl, fun j hj => ?_, by simpa using hpid, by simp⟩
        rw [set_proc_of_ne _ hj]
        exact hother j hj

/-- `wakeup1` changes only the states of the processes sleeping on the channel. -/
theorem wakeup1_proc (t : PTable) (chan : Option Chan) (i : Fin NPROC) :
    (wakeup1 t chan).proc i =
      { t.proc i with
        state := if (t.proc i).state = .SLEEPING ∧ (t.proc i).chan = chan then .RUNNABLE
          else (t.proc i).state } := by
  unfold wakeup1
  dsimp only
  split_ifs <;> rfl

@[simp] theorem wakeup1_nextpid (t : PTable) (chan : Option Chan) :
    (wakeup1 t chan).nextpid = t.nextpid := rfl

@[simp] theorem wakeup1_initproc (t : PTable) (chan : Option Chan) :
    (wakeup1 t chan).initproc = t.initproc := rfl

/-! ### Steps that only reschedule -/

/-- `t'` differs from `t` only as scheduling changes a table: every slot keeps its pid, and its
state stays or moves from one active state to another; `nextpid` and `initproc` stay. -/
structure Reschedules (t t' : PTable) : Prop where
  nextpid : t'.nextpid = t.nextpid
  initproc : t'.initproc = t.initproc
  pid : ∀ i, (t'.proc i).pid = (t.proc i).pid
  state : ∀ i, (t'.proc i).state = (t.proc i).state ∨
    ((t.proc i).state.active ∧ (t'.proc i).state.active)

namespace Reschedules

variable {t t₁ t₂ t₃ : PTable}

theorem refl (t : PTable) : Reschedules t t :=
  ⟨rfl, rfl, fun _ => rfl, fun _ => .inl rfl⟩

theorem trans (h₁ : Reschedules t₁ t₂) (h₂ : Reschedules t₂ t₃) : Reschedules t₁ t₃ := by
  refine ⟨h₂.nextpid.trans h₁.nextpid, h₂.initproc.trans h₁.initproc,
    fun i => (h₂.pid i).trans (h₁.pid i), fun i => ?_⟩
  rcases h₁.state i with e₁ | ⟨a₁, a₂⟩ <;> rcases h₂.state i with e₂ | ⟨b₂, b₃⟩
  · exact .inl (e₂.trans e₁)
  · exact .inr ⟨e₁ ▸ b₂, b₃⟩
  · exact .inr ⟨a₁, e₂ ▸ a₂⟩
  · exact .inr ⟨a₁, b₃⟩

/-- A slot is active after exactly when it was before. -/
theorem active_eq (h : Reschedules t t') (i : Fin NPROC) :
    (t'.proc i).state.active = (t.proc i).state.active := by
  rcases h.state i with e | ⟨a, a'⟩
  · rw [e]
  · rw [a, a']

/-- A slot that is not active keeps its state: UNUSED, EMBRYO and ZOMBIE stay. -/
theorem state_eq (h : Reschedules t t') {i : Fin NPROC} (hi : (t.proc i).state.active = false) :
    (t'.proc i).state = (t.proc i).state := by
  rcases h.state i with e | ⟨a, -⟩
  · exact e
  · rw [hi] at a
    cases a

end Reschedules

/-- A write of one slot that keeps its pid and moves its state as scheduling does. -/
theorem reschedules_set {t : PTable} {i : Fin NPROC} {p : Proc}
    (hpid : p.pid = (t.proc i).pid)
    (hst : p.state = (t.proc i).state ∨ ((t.proc i).state.active ∧ p.state.active)) :
    Reschedules t (t.set i p) := by
  refine ⟨rfl, rfl, fun j => ?_, fun j => ?_⟩
  · by_cases hj : j = i
    · subst hj
      simpa using hpid
    · simp [hj]
  · by_cases hj : j = i
    · subst hj
      simpa using hst
    · simp [hj]

theorem wakeup1_reschedules (t : PTable) (chan : Option Chan) : Reschedules t (wakeup1 t chan) := by
  refine ⟨rfl, rfl, fun i => by simp [wakeup1_proc], fun i => ?_⟩
  rw [wakeup1_proc]
  split_ifs with h
  · exact .inr ⟨by simp [h.1, ProcState.active], rfl⟩
  · exact .inl rfl

theorem wakeup1_parent (t : PTable) (chan : Option Chan) (i : Fin NPROC) :
    ((wakeup1 t chan).proc i).parent = (t.proc i).parent := by
  simp [wakeup1_proc]

/-! ### `exit` -/

/-- The loop of `exit` moves exactly the children of `c` among the slots `is` to `initproc`, and
otherwise only wakes `initproc`. -/
theorem reparent_spec (c : Fin NPROC) :
    ∀ (is : List (Fin NPROC)) (t : PTable), is.Nodup →
      Reschedules t (reparent c t is) ∧
      ∀ i, ((reparent c t is).proc i).parent =
        if i ∈ is ∧ (t.proc i).parent = some c then t.initproc else (t.proc i).parent
  | [], t, _ => ⟨Reschedules.refl t, fun i => by simp [reparent]⟩
  | i :: is, t, hnd => by
    obtain ⟨hi, hnd⟩ := List.nodup_cons.mp hnd
    unfold reparent
    split
    · rename_i hc
      -- slot `i` is a child: it goes to `initproc`, which is woken for a zombie
      set t₁ := t.set i { t.proc i with parent := t.initproc } with ht₁
      set t₂ := if (t₁.proc i).state = .ZOMBIE then wakeup1 t₁ (t₁.initproc.map .proc) else t₁
        with ht₂
      have h₁ : Reschedules t t₁ := reschedules_set rfl (.inl rfl)
      have h₂ : Reschedules t₁ t₂ ∧ ∀ j, (t₂.proc j).parent = (t₁.proc j).parent := by
        rw [ht₂]
        split_ifs
        · exact ⟨wakeup1_reschedules _ _, wakeup1_parent _ _⟩
        · exact ⟨Reschedules.refl _, fun _ => rfl⟩
      obtain ⟨h₃, hpar⟩ := reparent_spec c is t₂ hnd
      refine ⟨h₁.trans (h₂.1.trans h₃), fun j => ?_⟩
      rw [hpar, h₂.2, h₂.1.initproc, h₁.initproc]
      by_cases hj : j = i
      · subst hj
        simp [ht₁, hi, hc]
      · simp [ht₁, hj]
    · rename_i hc
      obtain ⟨h, hpar⟩ := reparent_spec c is t hnd
      refine ⟨h, fun j => ?_⟩
      rw [hpar]
      by_cases hj : j = i
      · subst hj
        simp [hi, hc]
      · simp [hj]

/-- What `exit` does: unless `c` is `initproc`, the processes are rescheduled, the children of
`c` go to `initproc`, and `c` is a zombie. -/
theorem exit_spec {t t' : PTable} {c : Fin NPROC} (h : exit t c = .ok t') :
    t.initproc ≠ some c ∧
    ∃ t₂, Reschedules t t₂ ∧
      (∀ i, (t₂.proc i).parent =
        if (t.proc i).parent = some c then t.initproc else (t.proc i).parent) ∧
      t' = t₂.set c { t₂.proc c with state := .ZOMBIE } := by
  unfold exit at h
  split_ifs at h with hinit
  cases h
  set t₁ := wakeup1 t ((t.proc c).parent.map .proc)
  obtain ⟨h₂, hpar⟩ := reparent_spec c (List.finRange NPROC) t₁ (List.nodup_finRange _)
  refine ⟨hinit, _, (wakeup1_reschedules _ _).trans h₂, fun i => ?_, rfl⟩
  rw [hpar]
  simp [t₁, wakeup1_parent]

/-! ### `wait` -/

theorem mem_children {t : PTable} {c i : Fin NPROC} :
    i ∈ children t c ↔ (t.proc i).parent = some c := by
  simp [children]

/-- What a scan of `wait` does: it frees the first zombie child and returns its pid; with no
zombie child it returns `-1` when there are no children or the caller is killed, and otherwise
the caller sleeps on itself. -/
theorem wait_spec (t : PTable) (c : Fin NPROC) :
    (∃ i, (t.proc i).parent = some c ∧ (t.proc i).state = .ZOMBIE ∧
      wait t c = (t.set i { t.proc i with
          kstack := 0, pid := 0, parent := none, killed := false, state := .UNUSED },
        .reaped (t.proc i).pid (t.proc i).kstack (t.proc i).pgdir)) ∨
    ((∀ i, (t.proc i).parent = some c → (t.proc i).state ≠ .ZOMBIE) ∧
      (((∀ i, (t.proc i).parent ≠ some c) ∨ (t.proc c).killed = true) ∧ wait t c = (t, .noChild) ∨
        (∃ i, (t.proc i).parent = some c) ∧ (t.proc c).killed = false ∧
          wait t c = (t.set c { t.proc c with chan := some (.proc c), state := .SLEEPING },
            .sleeps))) := by
  unfold wait
  split
  · rename_i i hi
    have hmem := List.mem_of_find?_eq_some hi
    have hz : (t.proc i).state = .ZOMBIE := by simpa using List.find?_some hi
    exact .inl ⟨i, mem_children.mp hmem, hz, rfl⟩
  · rename_i hnone
    have hnz : ∀ i, (t.proc i).parent = some c → (t.proc i).state ≠ .ZOMBIE := fun i hi => by
      simpa using List.find?_eq_none.mp hnone i (mem_children.mpr hi)
    refine .inr ⟨hnz, ?_⟩
    split_ifs with hno
    · refine .inl ⟨?_, rfl⟩
      rcases Bool.or_eq_true_iff.mp hno with he | hk
      · -- no slot is a child
        have hnil : children t c = [] := List.isEmpty_iff.mp he
        exact .inl fun i hi => by simpa [hnil] using mem_children.mpr hi
      · exact .inr hk
    · simp only [Bool.or_eq_true, not_or, List.isEmpty_iff, Bool.not_eq_true] at hno
      obtain ⟨hne, hk⟩ := hno
      obtain ⟨i, hi⟩ := List.exists_mem_of_ne_nil _ hne
      exact .inr ⟨⟨i, mem_children.mp hi⟩, hk, rfl⟩

/-! ### `kill` -/

/-- What `kill` does: the first slot with the pid, whatever its state, is killed and woken if
it sleeps, and `0` is returned; with no such slot, `-1`. -/
theorem kill_spec (t : PTable) (pid : Int32) :
    (∃ i, (t.proc i).pid = pid ∧ kill t pid = (t.set i { t.proc i with
        killed := true,
        state := if (t.proc i).state = .SLEEPING then .RUNNABLE else (t.proc i).state }, 0)) ∨
    ((∀ i, (t.proc i).pid ≠ pid) ∧ kill t pid = (t, -1)) := by
  unfold kill
  split
  · rename_i i hi
    exact .inl ⟨i, by simpa using findSlot_some hi, rfl⟩
  · rename_i hnone
    exact .inr ⟨fun i => by simpa using findSlot_none hnone i, rfl⟩

theorem kill_reschedules (t : PTable) (pid : Int32) :
    Reschedules t (kill t pid).1 ∧ ∀ i, ((kill t pid).1.proc i).parent = (t.proc i).parent := by
  rcases kill_spec t pid with ⟨i, -, hk⟩ | ⟨-, hk⟩
  · rw [hk]
    refine ⟨reschedules_set rfl ?_, fun j => ?_⟩
    · split_ifs with hs
      · exact .inr ⟨by simp [hs, ProcState.active], rfl⟩
      · exact .inl rfl
    · by_cases hj : j = i
      · subst hj
        simp
      · simp [hj]
  · rw [hk]
    exact ⟨Reschedules.refl t, fun _ => rfl⟩

/-- `kill(0)` right after `userinit` finds slot 1, which is UNUSED and carries the pid zero of the
zeroed table: it sets `killed` there and returns `0`, though no process has pid zero. The next
`allocproc`, in `fork`, hands that slot out with `killed` still set. -/
theorem kill_zero_marks_next_child :
    ∃ t, userinit boot (some 1) (some 2) = .ok t ∧
      (∀ i, (t.proc i).state ≠ .UNUSED → (t.proc i).pid ≠ 0) ∧
      (kill t 0).2 = 0 ∧ ((kill t 0).1.proc ⟨1, by decide⟩).state = .UNUSED ∧
      ∃ t', allocproc (kill t 0).1 (some 3) = .ok (t', some ⟨1, by decide⟩) ∧
        (t'.proc ⟨1, by decide⟩).state = .EMBRYO ∧ (t'.proc ⟨1, by decide⟩).killed = true := by
  refine ⟨_, rfl, by decide, by decide, by decide, _, rfl, by decide, by decide⟩

/-! ## Runs -/

/-- A step of the table by some process on some CPU. -/
inductive Event where
  | userinit (kstack pgdir : Option Nat)
  | forkAlloc (c : Fin NPROC) (kstack : Option Nat)
  | forkFinish (c np : Fin NPROC) (pgdir : Option Nat)
  | exit (c : Fin NPROC)
  | wait (c : Fin NPROC)
  | kill (pid : Int32)
  | run (p : Fin NPROC)
  | yield (c : Fin NPROC)
  | sleep (c : Fin NPROC) (chan : Chan)
  | wakeup (chan : Chan)

/-- `Step t e t' r`: the event `e` may happen in `t` and leads to `t'`; `r` is the pid that `wait`
returns in it, if any. A call of the current process needs it RUNNING; the second half of `fork`
may finish any EMBRYO, which covers the one the caller's `allocproc` made. -/
def Step (t : PTable) : Event → PTable → Option Int32 → Prop
  | .userinit k pg, t', r => t.initproc = none ∧ userinit t k pg = .ok t' ∧ r = none
  | .forkAlloc c k, t', r =>
    (t.proc c).state = .RUNNING ∧ (∃ np, allocproc t k = .ok (t', np)) ∧ r = none
  | .forkFinish c np pg, t', r =>
    (t.proc c).state = .RUNNING ∧ (t.proc np).state = .EMBRYO ∧ (forkFinish t c np pg).1 = t' ∧
      r = none
  | .exit c, t', r => (t.proc c).state = .RUNNING ∧ exit t c = .ok t' ∧ r = none
  | .wait c, t', r => (t.proc c).state = .RUNNING ∧ (wait t c).1 = t' ∧ r = (wait t c).2.pid?
  | .kill pid, t', r => (kill t pid).1 = t' ∧ r = none
  | .run p, t', r => (t.proc p).state = .RUNNABLE ∧ run t p = t' ∧ r = none
  | .yield c, t', r => (t.proc c).state = .RUNNING ∧ yield_proc t c = t' ∧ r = none
  | .sleep c chan, t', r => (t.proc c).state = .RUNNING ∧ sleep t c chan = t' ∧ r = none
  | .wakeup chan, t', r => wakeup t chan = t' ∧ r = none

/-- The states a run from `boot` reaches, with the pids `wait` returned on the way, in order. -/
inductive Reaches : PTable → List Int32 → Prop where
  | boot : Reaches boot []
  | step {t t' : PTable} {e : Event} {r : Option Int32} {reaped : List Int32} :
    Reaches t reaped → Step t e t' r → Reaches t' (reaped ++ r.toList)

/-! ## What every step keeps -/

theorem active_ne_unused {s : ProcState} (h : s.active = true) : s ≠ .UNUSED := by
  rintro rfl
  cases h

/-- A slot that is not active keeps its state under rescheduling, in either direction. -/
theorem Reschedules.state_eq_iff {t t' : PTable} (h : Reschedules t t') {i : Fin NPROC}
    {st : ProcState} (hst : st.active = false) :
    (t'.proc i).state = st ↔ (t.proc i).state = st := by
  constructor
  · intro e
    rcases h.state i with e' | ⟨-, a'⟩
    · rw [← e', e]
    · rw [e, hst] at a'
      cases a'
  · intro e
    rw [h.state_eq (by rw [e, hst]), e]

/-- A write of slot `i` that keeps its pid and parent and moves it between active states. -/
theorem reschedules_set_active {t : PTable} {i : Fin NPROC} {p : Proc}
    (hpid : p.pid = (t.proc i).pid) (hpar : p.parent = (t.proc i).parent)
    (ha : (t.proc i).state.active) (hb : p.state.active) :
    Reschedules t (t.set i p) ∧ ∀ j, ((t.set i p).proc j).parent = (t.proc j).parent := by
  refine ⟨reschedules_set hpid (.inr ⟨ha, hb⟩), fun j => ?_⟩
  by_cases hj : j = i
  · subst hj
    simpa using hpar
  · simp [hj]

/-- What every state a run reaches satisfies, with the pids `wait` returned on the way. -/
structure Inv (t : PTable) (reaped : List Int32) : Prop where
  /-- Before `userinit` no slot is in use. -/
  boot_unused : t.initproc = none → ∀ i, (t.proc i).state = .UNUSED
  /-- `initproc` is alive: it never exits. -/
  init_active : ∀ i, t.initproc = some i → (t.proc i).state.active
  /-- A process other than `initproc` that is neither UNUSED nor an EMBRYO has a parent, and the
  parent is alive. -/
  parent_active : ∀ i, t.initproc ≠ some i → (t.proc i).state ≠ .UNUSED →
    (t.proc i).state ≠ .EMBRYO → ∃ q, (t.proc i).parent = some q ∧ (t.proc q).state.active
  /-- The pids of the slots in use are below `nextpid`. -/
  pid_lt : ∀ i, (t.proc i).state ≠ .UNUSED → (t.proc i).pid.toInt < t.nextpid.toInt
  /-- No two slots in use share a pid. -/
  pid_unique : ∀ i j, (t.proc i).state ≠ .UNUSED → (t.proc j).state ≠ .UNUSED →
    (t.proc i).pid = (t.proc j).pid → i = j
  /-- `wait` never returned a pid twice. -/
  reaped_nodup : reaped.Nodup
  /-- The pids `wait` returned are below `nextpid`. -/
  reaped_lt : ∀ x ∈ reaped, x.toInt < t.nextpid.toInt
  /-- No slot in use has a pid that `wait` returned. -/
  reaped_gone : ∀ x ∈ reaped, ∀ i, (t.proc i).state ≠ .UNUSED → (t.proc i).pid ≠ x

namespace Inv

variable {t t' : PTable} {reaped : List Int32}

theorem boot : Inv boot [] where
  boot_unused _ _ := rfl
  init_active _ h := by cases h
  parent_active _ _ h := absurd rfl h
  pid_lt _ h := absurd rfl h
  pid_unique _ _ h := absurd rfl h
  reaped_nodup := List.nodup_nil
  reaped_lt _ h := by cases h
  reaped_gone _ h := by cases h

/-- A running process means `userinit` has run. -/
theorem initproc_of_running (h : Inv t reaped) {c : Fin NPROC}
    (hc : (t.proc c).state = .RUNNING) : t.initproc ≠ none := fun hn => by
  have := h.boot_unused hn c
  rw [hc] at this
  cases this

/-- Rescheduling keeps the invariant, when it keeps the parents. -/
theorem reschedule (h : Inv t reaped) (hr : Reschedules t t')
    (hp : ∀ i, (t'.proc i).parent = (t.proc i).parent) : Inv t' reaped := by
  have hunused : ∀ i, (t'.proc i).state = .UNUSED ↔ (t.proc i).state = .UNUSED :=
    fun _ => hr.state_eq_iff rfl
  have hembryo : ∀ i, (t'.proc i).state = .EMBRYO ↔ (t.proc i).state = .EMBRYO :=
    fun _ => hr.state_eq_iff rfl
  refine ⟨fun hn i => ?_, fun i hi => ?_, fun i hi hu he => ?_, fun i hi => ?_,
    fun i j hi hj e => ?_, h.reaped_nodup, fun x hx => ?_, fun x hx i hi => ?_⟩
  · exact (hunused i).mpr (h.boot_unused (hr.initproc ▸ hn) i)
  · rw [hr.active_eq]
    exact h.init_active i (hr.initproc ▸ hi)
  · obtain ⟨q, hq, ha⟩ := h.parent_active i (hr.initproc ▸ hi) (mt (hunused i).mpr hu)
      (mt (hembryo i).mpr he)
    exact ⟨q, (hp i).trans hq, (hr.active_eq q).trans ha⟩
  · rw [hr.pid, hr.nextpid]
    exact h.pid_lt i (mt (hunused i).mpr hi)
  · rw [hr.pid, hr.pid] at e
    exact h.pid_unique i j (mt (hunused i).mpr hi) (mt (hunused j).mpr hj) e
  · rw [hr.nextpid]
    exact h.reaped_lt x hx
  · rw [hr.pid]
    exact h.reaped_gone x hx i (mt (hunused i).mpr hi)

/-- A slot that was UNUSED is taken with the pid `nextpid`, which goes up by one, and is UNUSED
or an EMBRYO: the invariant holds after, once `userinit` has run. -/
theorem take_slot (h : Inv t reaped) (hinit : t.initproc ≠ none) {i : Fin NPROC}
    (hunused : (t.proc i).state = .UNUSED) (hmax : t.nextpid ≠ Int32.maxValue)
    (hnext : t'.nextpid = t.nextpid + 1) (hinit' : t'.initproc = t.initproc)
    (hother : ∀ j, j ≠ i → t'.proc j = t.proc j) (hpid : (t'.proc i).pid = t.nextpid)
    (hst : (t'.proc i).state = .UNUSED ∨ (t'.proc i).state = .EMBRYO) : Inv t' reaped := by
  have hlt : t.nextpid.toInt < t'.nextpid.toInt := by
    rw [hnext, toInt_add_one hmax]
    omega
  -- a slot in use after is `i` with the pid `nextpid`, or another slot as it was
  have hne : ∀ j, (t.proc j).state.active → j ≠ i := fun j ha e => by
    subst e
    rw [hunused] at ha
    cases ha
  refine ⟨fun hn => absurd (hinit' ▸ hn) hinit, fun k hk => ?_, fun j hj hu he => ?_,
    fun j hj => ?_, fun j j' hj hj' e => ?_, h.reaped_nodup, fun x hx => ?_, fun x hx j hj => ?_⟩
  · have ha := h.init_active k (hinit' ▸ hk)
    rw [hother k (hne k ha)]
    exact ha
  · have hji : j ≠ i := fun e => by
      subst e
      rcases hst with e | e <;> contradiction
    rw [hother j hji] at hu he ⊢
    obtain ⟨q, hq, ha⟩ := h.parent_active j (hinit' ▸ hj) hu he
    exact ⟨q, hq, (hother q (hne q ha)).symm ▸ ha⟩
  · by_cases hji : j = i
    · subst hji
      rw [hpid]
      exact hlt
    · rw [hother j hji] at hj ⊢
      exact (h.pid_lt j hj).trans hlt
  · by_cases hji : j = i <;> by_cases hji' : j' = i
    · exact hji.trans hji'.symm
    · subst hji
      rw [hother j' hji'] at hj' e
      have := h.pid_lt j' hj'
      rw [hpid] at e
      rw [← e] at this
      omega
    · subst hji'
      rw [hother j hji] at hj e
      have := h.pid_lt j hj
      rw [hpid] at e
      rw [e] at this
      omega
    · rw [hother j hji] at hj e
      rw [hother j' hji'] at hj' e
      exact h.pid_unique j j' hj hj' e
  · exact (h.reaped_lt x hx).trans hlt
  · by_cases hji : j = i
    · subst hji
      rw [hpid]
      intro e
      have := h.reaped_lt x hx
      rw [← e] at this
      omega
    · rw [hother j hji] at hj ⊢
      exact h.reaped_gone x hx j hj

/-- The pid part of the invariant holds after a step that puts no slot in use and keeps the pids
of the slots in use. -/
theorem pids_of (h : Inv t reaped) (hnext : t'.nextpid = t.nextpid)
    (huse : ∀ j, (t'.proc j).state ≠ .UNUSED →
      (t.proc j).state ≠ .UNUSED ∧ (t'.proc j).pid = (t.proc j).pid) :
    (∀ i, (t'.proc i).state ≠ .UNUSED → (t'.proc i).pid.toInt < t'.nextpid.toInt) ∧
    (∀ i j, (t'.proc i).state ≠ .UNUSED → (t'.proc j).state ≠ .UNUSED →
      (t'.proc i).pid = (t'.proc j).pid → i = j) ∧
    (∀ x ∈ reaped, x.toInt < t'.nextpid.toInt) ∧
    (∀ x ∈ reaped, ∀ i, (t'.proc i).state ≠ .UNUSED → (t'.proc i).pid ≠ x) := by
  refine ⟨fun i hi => ?_, fun i j hi hj e => ?_, fun x hx => hnext ▸ h.reaped_lt x hx,
    fun x hx i hi => ?_⟩
  · obtain ⟨hi, hp⟩ := huse i hi
    rw [hp, hnext]
    exact h.pid_lt i hi
  · obtain ⟨hi, hpi⟩ := huse i hi
    obtain ⟨hj, hpj⟩ := huse j hj
    rw [hpi, hpj] at e
    exact h.pid_unique i j hi hj e
  · obtain ⟨hi, hp⟩ := huse i hi
    rw [hp]
    exact h.reaped_gone x hx i hi

/-- `fork`'s `allocproc`, by a running process. -/
theorem of_allocproc (h : Inv t reaped) (hinit : t.initproc ≠ none) {k : Option Nat}
    {np : Option (Fin NPROC)} (ha : allocproc t k = .ok (t', np)) : Inv t' reaped := by
  rcases allocproc_spec ha with ⟨-, rfl, -⟩ |
    ⟨i, hunused, hmax, hnext, hinit', hother, hpid, -, -, hst⟩
  · exact h
  · exact h.take_slot hinit hunused hmax hnext hinit' hother hpid (hst.imp (·.1) (·.1))

/-- `userinit`, from the table where no slot is in use. -/
theorem of_userinit (h : Inv t reaped) (hnone : t.initproc = none) {k pg : Option Nat}
    (hu : userinit t k pg = .ok t') : Inv t' reaped := by
  obtain ⟨i, -, hmax, hnext, hinit', hother, hpid, hst⟩ := userinit_spec hu
  have hlt : t.nextpid.toInt < t'.nextpid.toInt := by
    rw [hnext, toInt_add_one hmax]
    omega
  -- the only slot in use is `initproc`
  have hin : ∀ j, (t'.proc j).state ≠ .UNUSED → j = i := fun j hj => by
    by_contra hji
    rw [hother j hji] at hj
    exact hj (h.boot_unused hnone j)
  refine ⟨fun hn => by simp [hinit'] at hn, fun k hk => ?_, fun j hj hu _ => ?_,
    fun j hj => ?_, fun j j' hj hj' _ => (hin j hj).trans (hin j' hj').symm, h.reaped_nodup,
    fun x hx => (h.reaped_lt x hx).trans hlt, fun x hx j hj => ?_⟩
  · rw [hinit'] at hk
    cases hk
    rw [hst]
    rfl
  · exact absurd (by rw [hinit', hin j hu]) hj
  · rw [hin j hj, hpid]
    exact hlt
  · rw [hin j hj, hpid]
    intro e
    have := h.reaped_lt x hx
    rw [e] at this
    omega

/-- The second half of `fork`, by a running process on an EMBRYO. -/
theorem of_forkFinish (h : Inv t reaped) {c np : Fin NPROC} (hc : (t.proc c).state = .RUNNING)
    (hnp : (t.proc np).state = .EMBRYO) (pg : Option Nat) :
    Inv (forkFinish t c np pg).1 reaped := by
  have hinit := h.initproc_of_running hc
  have hcnp : c ≠ np := fun e => by
    rw [e, hnp] at hc
    cases hc
  have hne : ∀ j, (t.proc j).state.active → j ≠ np := fun j ha e => by
    rw [e, hnp] at ha
    cases ha
  -- the slot written is `np`, with its pid: given back, or a RUNNABLE child of `c`
  obtain ⟨p, hfin, hpid, hst⟩ : ∃ p, (forkFinish t c np pg).1 = t.set np p ∧
      p.pid = (t.proc np).pid ∧ (p.state = .UNUSED ∨ p.parent = some c) := by
    cases pg with
    | none => exact ⟨_, rfl, rfl, .inl rfl⟩
    | some pg => exact ⟨_, rfl, rfl, .inr rfl⟩
  rw [hfin]
  obtain ⟨h₁, h₂, h₃, h₄⟩ := h.pids_of (show (t.set np p).nextpid = t.nextpid from rfl) fun j hj => by
    by_cases hj' : j = np
    · subst hj'
      exact ⟨by rw [hnp]; decide, by simpa using hpid⟩
    · rw [set_proc_of_ne _ hj'] at hj ⊢
      exact ⟨hj, rfl⟩
  refine ⟨fun hn => absurd hn hinit, fun k hk => ?_, fun j hj hu he => ?_, h₁, h₂,
    h.reaped_nodup, h₃, h₄⟩
  · have ha := h.init_active k hk
    rwa [set_proc_of_ne _ (hne k ha)]
  · by_cases hj' : j = np
    · subst hj'
      rw [set_proc_self] at hu he ⊢
      rcases hst with hs | hpar
      · exact absurd hs hu
      · refine ⟨c, hpar, ?_⟩
        rw [set_proc_of_ne _ hcnp, hc]
        rfl
    · rw [set_proc_of_ne _ hj'] at hu he ⊢
      obtain ⟨q, hq, ha⟩ := h.parent_active j hj hu he
      exact ⟨q, hq, by rwa [set_proc_of_ne _ (hne q ha)]⟩

/-- `exit` by a running process. -/
theorem of_exit (h : Inv t reaped) {c : Fin NPROC} (hc : (t.proc c).state = .RUNNING)
    (he : exit t c = .ok t') : Inv t' reaped := by
  obtain ⟨hinitc, t₂, hr, hpar, rfl⟩ := exit_spec he
  obtain ⟨k, hk⟩ := Option.ne_none_iff_exists'.mp (h.initproc_of_running hc)
  have hkc : k ≠ c := fun e => hinitc (e ▸ hk)
  set t₃ := t₂.set c { t₂.proc c with state := .ZOMBIE } with ht₃
  -- only `c` changes after the loop, and only its state
  have hother : ∀ j, j ≠ c → t₃.proc j = t₂.proc j := fun j hj => set_proc_of_ne _ hj
  have hparent : ∀ j, (t₃.proc j).parent = (t₂.proc j).parent := fun j => by
    by_cases hj : j = c
    · subst hj
      rw [ht₃, set_proc_self]
    · rw [hother j hj]
  have hactive : ∀ j, j ≠ c → (t.proc j).state.active → (t₃.proc j).state.active :=
    fun j hj ha => by
    rw [hother j hj, hr.active_eq]
    exact ha
  -- a state that is not active after was not there before
  have hnot : ∀ j (st : ProcState), st.active = false → (t₃.proc j).state ≠ st →
      (t.proc j).state ≠ st := fun j st hst hne e => by
    by_cases hjc : j = c
    · subst hjc
      rw [hc] at e
      subst e
      cases hst
    · rw [hother j hjc] at hne
      exact hne ((hr.state_eq_iff hst).mpr e)
  obtain ⟨h₁, h₂, h₃, h₄⟩ := h.pids_of (show t₃.nextpid = t.nextpid from hr.nextpid) fun j hj => by
    refine ⟨hnot j .UNUSED rfl hj, ?_⟩
    by_cases hjc : j = c
    · subst hjc
      rw [ht₃, set_proc_self]
      exact hr.pid j
    · rw [hother j hjc, hr.pid]
  refine ⟨fun hn => absurd (hr.initproc ▸ hn) (by rw [hk]; simp), fun k' hk' => ?_,
    fun j hj hu hem => ?_, h₁, h₂, h.reaped_nodup, h₃, h₄⟩
  · rw [set_initproc, hr.initproc, hk] at hk'
    cases hk'
    exact hactive k hkc (h.init_active k hk)
  · -- the parent was alive; if it was `c`, the child is now `initproc`'s
    obtain ⟨q, hq, ha⟩ := h.parent_active j (by rwa [set_initproc, hr.initproc] at hj)
      (hnot j _ rfl hu) (hnot j _ rfl hem)
    rw [hparent, hpar, hq]
    by_cases hqc : q = c
    · subst hqc
      rw [if_pos rfl, hk]
      exact ⟨k, rfl, hactive k hkc (h.init_active k hk)⟩
    · rw [if_neg fun e => hqc (Option.some.inj e)]
      exact ⟨q, rfl, hactive q hqc ha⟩

/-- `wait` frees the zombie `i` and returns its pid. -/
theorem reap (h : Inv t reaped) (hinit : t.initproc ≠ none) {i : Fin NPROC}
    (hz : (t.proc i).state = .ZOMBIE) :
    Inv (t.set i { t.proc i with
        kstack := 0, pid := 0, parent := none, killed := false, state := .UNUSED })
      (reaped ++ [(t.proc i).pid]) := by
  set t' := t.set i { t.proc i with
    kstack := 0, pid := 0, parent := none, killed := false, state := .UNUSED } with ht'
  have hne : ∀ j, (t.proc j).state.active → j ≠ i := fun j ha e => by
    rw [e, hz] at ha
    cases ha
  have hiu : (t.proc i).state ≠ .UNUSED := by
    rw [hz]
    decide
  -- a slot in use after is another one, as it was
  have huse : ∀ j, (t'.proc j).state ≠ .UNUSED → j ≠ i ∧ t'.proc j = t.proc j := fun j hj => by
    by_cases hji : j = i
    · subst hji
      rw [ht', set_proc_self] at hj
      exact absurd rfl hj
    · exact ⟨hji, set_proc_of_ne _ hji⟩
  obtain ⟨h₁, h₂, h₃, h₄⟩ := h.pids_of (show t'.nextpid = t.nextpid from rfl) fun j hj => by
    obtain ⟨-, e⟩ := huse j hj
    rw [e] at hj ⊢
    exact ⟨hj, rfl⟩
  refine ⟨fun hn => absurd hn hinit, fun k hk => ?_, fun j hj hu he => ?_, h₁, h₂, ?_,
    fun x hx => ?_, fun x hx j hj => ?_⟩
  · have ha := h.init_active k hk
    rwa [ht', set_proc_of_ne _ (hne k ha)]
  · obtain ⟨-, e⟩ := huse j hu
    rw [e] at hu he ⊢
    obtain ⟨q, hq, ha⟩ := h.parent_active j hj hu he
    exact ⟨q, hq, by rwa [ht', set_proc_of_ne _ (hne q ha)]⟩
  · -- the pid returned is in use until now, so it was never returned before
    rw [List.nodup_append]
    refine ⟨h.reaped_nodup, List.nodup_singleton _, fun x hx y hy e => ?_⟩
    rw [List.mem_singleton] at hy
    exact h.reaped_gone x hx i hiu (e.trans hy).symm
  · rcases List.mem_append.mp hx with hx | hx
    · exact h₃ x hx
    · rw [List.mem_singleton] at hx
      rw [hx]
      exact h.pid_lt i hiu
  · rcases List.mem_append.mp hx with hx | hx
    · exact h₄ x hx j hj
    · rw [List.mem_singleton] at hx
      obtain ⟨hji, e⟩ := huse j hj
      rw [e] at hj ⊢
      rw [hx]
      exact fun hp => hji (h.pid_unique j i hj hiu hp)

/-- A scan of `wait` by a running process. -/
theorem of_wait (h : Inv t reaped) {c : Fin NPROC} (hc : (t.proc c).state = .RUNNING) :
    Inv (wait t c).1 (reaped ++ (wait t c).2.pid?.toList) := by
  rcases wait_spec t c with ⟨i, -, hz, hw⟩ | ⟨-, ⟨-, hw⟩ | ⟨-, -, hw⟩⟩
  · rw [hw]
    exact h.reap (h.initproc_of_running hc) hz
  · rw [hw]
    simpa [WaitResult.pid?] using h
  · rw [hw]
    have hr := reschedules_set_active (t := t) (i := c)
      (p := { t.proc c with chan := some (.proc c), state := .SLEEPING }) rfl rfl
      (by rw [hc]; rfl) rfl
    simpa [WaitResult.pid?] using h.reschedule hr.1 hr.2

/-- Every step keeps the invariant. -/
theorem step (h : Inv t reaped) {e : Event} {r : Option Int32} (hs : Step t e t' r) :
    Inv t' (reaped ++ r.toList) := by
  cases e with
  | userinit k pg =>
    obtain ⟨hnone, hu, rfl⟩ := hs
    simpa using h.of_userinit hnone hu
  | forkAlloc c k =>
    obtain ⟨hc, ⟨np, ha⟩, rfl⟩ := hs
    simpa using h.of_allocproc (h.initproc_of_running hc) ha
  | forkFinish c np pg =>
    obtain ⟨hc, hnp, rfl, rfl⟩ := hs
    simpa using h.of_forkFinish hc hnp pg
  | exit c =>
    obtain ⟨hc, he, rfl⟩ := hs
    simpa using h.of_exit hc he
  | wait c =>
    obtain ⟨hc, rfl, rfl⟩ := hs
    exact h.of_wait hc
  | kill pid =>
    obtain ⟨rfl, rfl⟩ := hs
    simpa using h.reschedule (kill_reschedules t pid).1 (kill_reschedules t pid).2
  | run p =>
    obtain ⟨hp, rfl, rfl⟩ := hs
    have hr := reschedules_set_active (t := t) (i := p)
      (p := { t.proc p with state := .RUNNING, chan := none }) rfl rfl (by rw [hp]; rfl) rfl
    simp only [Option.toList_none, List.append_nil]
    exact h.reschedule hr.1 hr.2
  | yield c =>
    obtain ⟨hc, rfl, rfl⟩ := hs
    have hr := reschedules_set_active (t := t) (i := c)
      (p := { t.proc c with state := .RUNNABLE }) rfl rfl (by rw [hc]; rfl) rfl
    simp only [Option.toList_none, List.append_nil]
    exact h.reschedule hr.1 hr.2
  | sleep c chan =>
    obtain ⟨hc, rfl, rfl⟩ := hs
    have hr := reschedules_set_active (t := t) (i := c)
      (p := { t.proc c with chan := some chan, state := .SLEEPING }) rfl rfl (by rw [hc]; rfl) rfl
    simp only [Option.toList_none, List.append_nil]
    exact h.reschedule hr.1 hr.2
  | wakeup chan =>
    obtain ⟨rfl, rfl⟩ := hs
    simp only [Option.toList_none, List.append_nil]
    exact h.reschedule (wakeup1_reschedules t (some chan)) (wakeup1_parent t (some chan))

end Inv

/-- Every state a run reaches satisfies the invariant. -/
theorem Reaches.inv {t : PTable} {reaped : List Int32} (h : Reaches t reaped) : Inv t reaped := by
  induction h with
  | boot => exact Inv.boot
  | step _ hs ih => exact ih.step hs

/-! ## The process tree and `wait` -/

/-- In every state a run reaches, a process other than `initproc` that is neither UNUSED nor an
EMBRYO has a parent, and the parent is in use. -/
theorem parent_of_reaches {t : PTable} {reaped : List Int32} (h : Reaches t reaped)
    {i : Fin NPROC} (hi : t.initproc ≠ some i) (hu : (t.proc i).state ≠ .UNUSED)
    (he : (t.proc i).state ≠ .EMBRYO) :
    ∃ q, (t.proc i).parent = some q ∧ (t.proc q).state ≠ .UNUSED := by
  obtain ⟨q, hq, ha⟩ := h.inv.parent_active i hi hu he
  exact ⟨q, hq, active_ne_unused ha⟩

/-- Right after `initproc`'s `fork` has taken a slot, the new process is an EMBRYO with no
parent: `allocproc` released `ptable.lock`, and `fork` sets the parent only later. -/
theorem fork_embryo_without_parent :
    ∃ t, Reaches t [] ∧ t.initproc = some ⟨0, by decide⟩ ∧
      (t.proc ⟨1, by decide⟩).state = .EMBRYO ∧ (t.proc ⟨1, by decide⟩).parent = none := by
  -- `userinit`, a turn of the scheduler for `initproc`, and the `allocproc` of its `fork`
  have hrun : Reaches _ [] :=
    .step (.step (.step .boot (e := .userinit (some 1) (some 2)) ⟨rfl, rfl, rfl⟩)
      (e := .run ⟨0, by decide⟩) ⟨by decide, rfl, rfl⟩)
      (e := .forkAlloc ⟨0, by decide⟩ (some 3)) ⟨by decide, ⟨_, rfl⟩, rfl⟩
  exact ⟨_, hrun, rfl, by decide, by decide⟩

/-- `wait` never returns the same pid twice in a run. -/
theorem reaped_nodup {t : PTable} {reaped : List Int32} (h : Reaches t reaped) : reaped.Nodup :=
  h.inv.reaped_nodup

/-- Rescheduling keeps a zombie a zombie. -/
theorem Reschedules.zombie {t t' : PTable} (hr : Reschedules t t') {i : Fin NPROC}
    (hz : (t.proc i).state = .ZOMBIE) : (t'.proc i).state = .ZOMBIE :=
  (hr.state_eq (by rw [hz]; rfl)).trans hz

/-- A zombie leaves its state only through the `wait` of its parent, which frees its kernel stack
and page directory and returns its pid. -/
theorem zombie_leaves_by_wait {t t' : PTable} {e : Event} {r : Option Int32} {i : Fin NPROC}
    (hs : Step t e t' r) (hz : (t.proc i).state = .ZOMBIE) (hz' : (t'.proc i).state ≠ .ZOMBIE) :
    ∃ c, e = .wait c ∧ (t.proc i).parent = some c ∧ r = some (t.proc i).pid ∧
      (wait t c).2 = .reaped (t.proc i).pid (t.proc i).kstack (t.proc i).pgdir ∧
      (t'.proc i).state = .UNUSED ∧ (t'.proc i).kstack = 0 := by
  -- a step that writes only a slot in another state leaves the zombie alone
  have hother : ∀ (j : Fin NPROC) (p : Proc), (t.proc j).state ≠ .ZOMBIE → t' = t.set j p →
      False := fun j p hj ht => by
    have hji : i ≠ j := fun e => hj (e ▸ hz)
    rw [ht, set_proc_of_ne _ hji] at hz'
    exact hz' hz
  have hresched : Reschedules t t' → False := fun hr => hz' (hr.zombie hz)
  cases e with
  | userinit k pg =>
    obtain ⟨-, hu, -⟩ := hs
    obtain ⟨j, hj, -, -, -, hrest, -, -⟩ := userinit_spec hu
    have hji : i ≠ j := fun e => by
      rw [e, hj] at hz
      cases hz
    rw [hrest i hji] at hz'
    exact absurd hz hz'
  | forkAlloc c k =>
    obtain ⟨-, ⟨np, ha⟩, -⟩ := hs
    rcases allocproc_spec ha with ⟨-, rfl, -⟩ | ⟨j, hj, -, -, -, hrest, -⟩
    · exact absurd hz hz'
    · have hji : i ≠ j := fun e => by
        rw [e, hj] at hz
        cases hz
      rw [hrest i hji] at hz'
      exact absurd hz hz'
  | forkFinish c np pg =>
    obtain ⟨-, hnp, rfl, -⟩ := hs
    have hn : (t.proc np).state ≠ .ZOMBIE := by
      rw [hnp]
      decide
    cases pg with
    | none => exact (hother np _ hn rfl).elim
    | some pg => exact (hother np _ hn rfl).elim
  | exit c =>
    obtain ⟨hc, he, -⟩ := hs
    obtain ⟨-, t₂, hr, -, rfl⟩ := exit_spec he
    have hci : i ≠ c := fun e => by
      rw [e, hc] at hz
      cases hz
    rw [set_proc_of_ne _ hci] at hz'
    exact absurd (hr.zombie hz) hz'
  | wait c =>
    obtain ⟨hc, rfl, rfl⟩ := hs
    rcases wait_spec t c with ⟨j, hpar, hj, hw⟩ | ⟨-, ⟨-, hw⟩ | ⟨-, -, hw⟩⟩
    · by_cases hji : i = j
      · subst hji
        rw [hw]
        exact ⟨c, rfl, hpar, rfl, by rw [hw], by simp, by simp⟩
      · rw [hw, set_proc_of_ne _ hji] at hz'
        exact absurd hz hz'
    · rw [hw] at hz'
      exact absurd hz hz'
    · rw [hw] at hz'
      exact (hother c _ (by rw [hc]; decide) (by rw [hw])).elim
  | kill pid =>
    obtain ⟨rfl, -⟩ := hs
    exact (hresched (kill_reschedules t pid).1).elim
  | run p =>
    obtain ⟨hp, rfl, -⟩ := hs
    exact (hother p _ (by rw [hp]; decide) rfl).elim
  | yield c =>
    obtain ⟨hc, rfl, -⟩ := hs
    exact (hother c _ (by rw [hc]; decide) rfl).elim
  | sleep c chan =>
    obtain ⟨hc, rfl, -⟩ := hs
    exact (hother c _ (by rw [hc]; decide) rfl).elim
  | wakeup chan =>
    obtain ⟨rfl, -⟩ := hs
    exact (hresched (wakeup1_reschedules t (some chan))).elim

/-- With a zombie child, a scan of `wait` returns a pid. -/
theorem wait_reaps_of_zombie (t : PTable) (c : Fin NPROC) {i : Fin NPROC}
    (hpar : (t.proc i).parent = some c) (hz : (t.proc i).state = .ZOMBIE) :
    ∃ pid k pg, (wait t c).2 = .reaped pid k pg := by
  rcases wait_spec t c with ⟨j, -, -, hw⟩ | ⟨hnz, -⟩
  · exact ⟨_, _, _, by rw [hw]⟩
  · exact absurd hz (hnz i hpar)

/-- `wait` returns `-1` only when the caller has no children, or has been killed and none of its
children is a zombie. -/
theorem wait_noChild {t : PTable} {c : Fin NPROC} (h : (wait t c).2 = .noChild) :
    (∀ i, (t.proc i).parent ≠ some c) ∨
      ((t.proc c).killed = true ∧ ∀ i, (t.proc i).parent = some c → (t.proc i).state ≠ .ZOMBIE) := by
  rcases wait_spec t c with ⟨j, -, -, hw⟩ | ⟨hnz, ⟨hno, -⟩ | ⟨-, -, hw⟩⟩
  · rw [hw] at h
    cases h
  · exact hno.imp id fun hk => ⟨hk, hnz⟩
  · rw [hw] at h
    cases h

/-- In every state a run reaches, every process other than `initproc` that is neither UNUSED nor
an EMBRYO has a parent in use. `wait` never returns a pid twice in a run; a zombie leaves its
state only through the `wait` of its parent, which frees its kernel stack and page directory and
returns its pid; a scan of `wait` with a zombie child returns a pid; and `-1` comes only with no
children, or killed and with no zombie child. -/
theorem process_tree_and_reaping :
    (∀ t reaped, Reaches t reaped → ∀ i, t.initproc ≠ some i → (t.proc i).state ≠ .UNUSED →
      (t.proc i).state ≠ .EMBRYO → ∃ q, (t.proc i).parent = some q ∧ (t.proc q).state ≠ .UNUSED) ∧
    (∀ t reaped, Reaches t reaped → reaped.Nodup) ∧
    (∀ t t' e r i, Step t e t' r → (t.proc i).state = .ZOMBIE → (t'.proc i).state ≠ .ZOMBIE →
      ∃ c, e = .wait c ∧ (t.proc i).parent = some c ∧ r = some (t.proc i).pid ∧
        (wait t c).2 = .reaped (t.proc i).pid (t.proc i).kstack (t.proc i).pgdir ∧
        (t'.proc i).state = .UNUSED ∧ (t'.proc i).kstack = 0) ∧
    (∀ t c i, (t.proc i).parent = some c → (t.proc i).state = .ZOMBIE →
      ∃ pid k pg, (wait t c).2 = .reaped pid k pg) ∧
    (∀ t c, (wait t c).2 = .noChild → (∀ i, (t.proc i).parent ≠ some c) ∨
      ((t.proc c).killed = true ∧ ∀ i, (t.proc i).parent = some c → (t.proc i).state ≠ .ZOMBIE)) :=
  ⟨fun _ _ h _ hi hu he => parent_of_reaches h hi hu he, fun _ _ h => reaped_nodup h,
    fun _ _ _ _ _ hs hz hz' => zombie_leaves_by_wait hs hz hz',
    fun t c _ hpar hz => wait_reaps_of_zombie t c hpar hz, fun _ _ h => wait_noChild h⟩

/-- `initproc` forks a child, which runs and exits: the child is a zombie whose parent is
`initproc`, and a scan of `wait` by `initproc` reaps it. -/
theorem process_tree_and_reaping_zombie :
    ∃ t reaped, Reaches t reaped ∧ (t.proc ⟨1, by decide⟩).parent = some ⟨0, by decide⟩ ∧
      (t.proc ⟨1, by decide⟩).state = .ZOMBIE ∧ reaped.Nodup ∧
      ∃ pid k pg, (wait t ⟨0, by decide⟩).2 = .reaped pid k pg := by
  have h₁ := Reaches.step (e := .userinit (some 1) (some 2)) .boot ⟨rfl, rfl, rfl⟩
  have h₂ := Reaches.step (e := .run ⟨0, by decide⟩) h₁ ⟨rfl, rfl, rfl⟩
  have h₃ := Reaches.step (e := .forkAlloc ⟨0, by decide⟩ (some 3)) h₂ ⟨rfl, ⟨_, rfl⟩, rfl⟩
  have h₄ := Reaches.step (e := .forkFinish ⟨0, by decide⟩ ⟨1, by decide⟩ (some 4)) h₃
    ⟨rfl, rfl, rfl, rfl⟩
  have h₅ := Reaches.step (e := .run ⟨1, by decide⟩) h₄ ⟨rfl, rfl, rfl⟩
  have h₆ := Reaches.step (e := .exit ⟨1, by decide⟩) h₅ ⟨rfl, rfl, rfl⟩
  exact ⟨_, _, h₆, by decide, by decide, process_tree_and_reaping.2.1 _ _ h₆,
    process_tree_and_reaping.2.2.2.1 _ _ ⟨1, by decide⟩ (by decide) (by decide)⟩

end Xv6.ProcTable
