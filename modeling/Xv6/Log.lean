import Mathlib
import Xv6.Param
import Xv6.Lib.Outcome

/-!
# The log's admission control

The in-memory part of `log.c`: `begin_op`, `log_write` and `end_op` on `struct log`, whose header
`lh` lists the blocks logged in the current transaction. The disk work of `commit` is the business
of `Xv6.LogDisk`; here a commit is the step that empties the header and lets waiting operations in.

A system call is an operation: it calls `begin_op`, then `log_write` on at most `MAXOPBLOCKS`
distinct blocks, then `end_op`. `LogSys` adds to the log the operations that are running, each
with the blocks it has logged, and `LogSys.step` is one action of one of them, or the commit; an
action that the discipline does not allow, or that would sleep, is not enabled (`block`).

`begin_op` admits an operation only while `lh.n + (outstanding + 1) * MAXOPBLOCKS ≤ LOGSIZE`, so
the room it reserves is for what the running operations have not logged yet: `Budget` says that
`lh.n` plus that room is at most `LOGSIZE`. Every completed step keeps it (`step_inv`), so it holds
after every run (`run_inv`). The bound with `outstanding * MAXOPBLOCKS` in place of the room left
does not hold once a running operation has logged a block, and the second test of `log_write`,
against `log.size - 1`, stops a third full operation one block early (`admission_counterexample`).
-/

namespace Xv6

open Machine

/-- `struct log`, without its lock; `lh.n` is the length of `lh`. -/
structure Log where
  /-- The first block of the log on disk: the header. -/
  start : Nat
  /-- The blocks of the log on disk, the header included. -/
  size : Nat
  /-- How many file-system calls are executing. -/
  outstanding : Nat
  /-- `commit` is running. -/
  committing : Bool
  /-- The device of the log. -/
  dev : Nat
  /-- `lh.block[0..n)`, the blocks of the transaction. -/
  lh : List Nat
  deriving DecidableEq, Repr

/-- The loop of `log_write`: the first entry equal to `blockno`, or `n`, is set to `blockno`,
and a new entry grows the header (log absorption). -/
def absorb (lh : List Nat) (blockno : Nat) : List Nat :=
  let i := lh.findIdx (· == blockno)
  if i = lh.length then lh ++ [blockno] else lh.set i blockno

theorem absorb_eq (lh : List Nat) (blockno : Nat) :
    absorb lh blockno =
      if lh.findIdx (· == blockno) = lh.length then lh ++ [blockno]
      else lh.set (lh.findIdx (· == blockno)) blockno := rfl

/-- `begin_op`: sleep while a commit runs or while this operation might exhaust the log. -/
def begin_op (log : Log) : Outcome Log :=
  if log.committing then .block
  else if LOGSIZE < log.lh.length + (log.outstanding + 1) * MAXOPBLOCKS then .block
  else pure { log with outstanding := log.outstanding + 1 }

/-- `log_write` on a buffer of block `blockno`: the two panics, then the absorption. The buffer's
`DIRTY` flag is the buffer cache's business. -/
def log_write (log : Log) (blockno : Nat) : Outcome Log :=
  if LOGSIZE ≤ log.lh.length || log.size - 1 ≤ log.lh.length then .panic "too big a transaction"
  else if log.outstanding < 1 then .panic "log_write outside of trans"
  else pure { log with lh := absorb log.lh blockno }

/-- `end_op`: one operation fewer; the last one starts the commit, and `true` says so. -/
def end_op (log : Log) : Outcome (Log × Bool) :=
  let log := { log with outstanding := log.outstanding - 1 }
  if log.committing then .panic "log.committing"
  else if log.outstanding = 0 then pure ({ log with committing := true }, true)
  else pure (log, false)

/-- The end of `end_op` for the operation that commits: `commit` empties the header, and
`committing` is cleared. -/
def commitDone (log : Log) : Log := { log with lh := [], committing := false }

/-- The log as `initlog` leaves it, with `mkfs`'s layout: the header at block 2, and `LOGSIZE`
blocks in all. -/
def Log.init : Log := ⟨2, LOGSIZE, 0, false, ROOTDEV, []⟩

/-- A running operation: its process, and the blocks it has logged. -/
structure Op where
  /-- The process running the operation. -/
  pid : Nat
  /-- The distinct blocks it has passed to `log_write`. -/
  logged : List Nat
  deriving DecidableEq, Repr

/-- The log with the operations running. -/
structure LogSys where
  /-- The log. -/
  log : Log
  /-- The operations between their `begin_op` and their `end_op`. -/
  ops : List Op
  deriving DecidableEq, Repr

/-- What a process does to the log. -/
inductive LogAction where
  | begin (pid : Nat)
  | write (pid blockno : Nat)
  | finish (pid : Nat)
  | commit
  deriving DecidableEq, Repr

/-- `b` added to the blocks an operation has logged, once. -/
def Op.log (o : Op) (b : Nat) : Op := if b ∈ o.logged then o else { o with logged := o.logged ++ [b] }

theorem Op.log_eq (o : Op) (b : Nat) :
    o.log b = if b ∈ o.logged then o else { o with logged := o.logged ++ [b] } := rfl

@[simp] theorem Op.pid_log (o : Op) (b : Nat) : (o.log b).pid = o.pid := by
  simp only [Op.log_eq]
  split <;> rfl

/-- The operations with the one of process `pid` changed by `g`. -/
def updateOp (pid : Nat) (g : Op → Op) (ops : List Op) : List Op :=
  ops.map fun o' => if o'.pid = pid then g o' else o'

theorem updateOp_eq (pid : Nat) (g : Op → Op) (ops : List Op) :
    updateOp pid g ops = ops.map fun o' => if o'.pid = pid then g o' else o' := rfl

namespace LogSys

/-- The operation of process `pid`, if it is running. -/
def find (s : LogSys) (pid : Nat) : Option Op := s.ops.find? (·.pid == pid)

/-- One action. A process begins an operation when it runs none; it writes a block when its
operation is running and the block is among its `MAXOPBLOCKS`; it finishes a running operation;
the commit runs when `end_op` started it. -/
def step (s : LogSys) : LogAction → Outcome LogSys
  | .begin pid =>
    if (s.find pid).isSome then .block
    else do
      let log ← begin_op s.log
      pure ⟨log, s.ops ++ [⟨pid, []⟩]⟩
  | .write pid b =>
    match s.find pid with
    | some o =>
      if b ∈ o.logged ∨ o.logged.length < MAXOPBLOCKS then do
        let log ← log_write s.log b
        pure ⟨log, updateOp pid (·.log b) s.ops⟩
      else .block
    | none => .block
  | .finish pid =>
    match s.find pid with
    | some _ => do
      let (log, _) ← end_op s.log
      pure ⟨log, s.ops.filter (·.pid != pid)⟩
    | none => .block
  | .commit => if s.log.committing then pure ⟨commitDone s.log, s.ops⟩ else .block

theorem step_begin (s : LogSys) (pid : Nat) :
    s.step (.begin pid) =
      if (s.find pid).isSome then .block
      else (do
        let log ← begin_op s.log
        pure ⟨log, s.ops ++ [⟨pid, []⟩]⟩) := rfl

theorem step_write (s : LogSys) (pid b : Nat) :
    s.step (.write pid b) =
      match s.find pid with
      | some o =>
        if b ∈ o.logged ∨ o.logged.length < MAXOPBLOCKS then do
          let log ← log_write s.log b
          pure ⟨log, updateOp pid (·.log b) s.ops⟩
        else .block
      | none => .block := rfl

theorem step_finish (s : LogSys) (pid : Nat) :
    s.step (.finish pid) =
      match s.find pid with
      | some _ => do
        let (log, _) ← end_op s.log
        pure ⟨log, s.ops.filter (·.pid != pid)⟩
      | none => .block := rfl

theorem step_commit (s : LogSys) :
    s.step .commit = if s.log.committing then pure ⟨commitDone s.log, s.ops⟩ else .block := rfl

/-- No operation, an empty log. -/
def init : LogSys := ⟨Log.init, []⟩

end LogSys

/-! ## Absorption and the three calls -/

theorem absorb_of_mem {lh : List Nat} {b : Nat} (h : b ∈ lh) : absorb lh b = lh := by
  have hlt : lh.findIdx (· == b) < lh.length := List.findIdx_lt_length_of_exists ⟨b, h, by simp⟩
  have hget : lh[lh.findIdx (· == b)] = b := by
    simpa using List.findIdx_getElem (w := hlt)
  rw [absorb_eq, if_neg (Nat.ne_of_lt hlt)]
  -- the entry found already holds `b`
  conv_rhs => rw [← List.set_getElem_self hlt]
  rw [hget]

theorem absorb_of_not_mem {lh : List Nat} {b : Nat} (h : b ∉ lh) : absorb lh b = lh ++ [b] := by
  have hidx : lh.findIdx (· == b) = lh.length := by
    rw [List.findIdx_eq_length]
    intro x hx
    rw [beq_eq_false_iff_ne]
    rintro rfl
    exact h hx
  rw [absorb_eq, if_pos hidx]

theorem begin_op_eq_ok {log log' : Log} :
    begin_op log = .ok log' ↔ log.committing = false ∧
      log.lh.length + (log.outstanding + 1) * MAXOPBLOCKS ≤ LOGSIZE ∧
      log' = { log with outstanding := log.outstanding + 1 } := by
  unfold begin_op
  cases log.committing <;> simp only [if_true, if_false, Bool.false_eq_true]
  · split <;> simp [*, eq_comm]
    omega
  · simp

theorem log_write_eq_ok {log log' : Log} {b : Nat} :
    log_write log b = .ok log' ↔ log.lh.length < LOGSIZE ∧ log.lh.length < log.size - 1 ∧
      1 ≤ log.outstanding ∧ log' = { log with lh := absorb log.lh b } := by
  unfold log_write
  split
  · -- "too big a transaction"
    rename_i hbig
    simp only [Bool.or_eq_true, decide_eq_true_eq] at hbig
    constructor
    · intro h
      cases h
    · rintro ⟨h₁, h₂, -⟩
      omega
  · rename_i hbig
    simp only [Bool.or_eq_true, decide_eq_true_eq, not_or, Nat.not_le] at hbig
    split
    · -- "log_write outside of trans"
      constructor
      · intro h
        cases h
      · rintro ⟨-, -, h₃, -⟩
        omega
    · constructor
      · intro h
        cases h
        exact ⟨hbig.1, hbig.2, by omega, rfl⟩
      · rintro ⟨-, -, -, rfl⟩
        rfl

theorem end_op_eq_ok {log log' : Log} {c : Bool} (h : end_op log = .ok (log', c)) :
    log.committing = false ∧ log'.lh = log.lh ∧ log'.outstanding = log.outstanding - 1 ∧
      log'.size = log.size ∧ (log'.committing = true → log.outstanding - 1 = 0) := by
  unfold end_op at h
  dsimp only at h
  split at h
  · cases h
  · rename_i hc
    split at h
    · rename_i hzero
      cases h
      exact ⟨by simpa using hc, rfl, rfl, rfl, fun _ => hzero⟩
    · cases h
      exact ⟨by simpa using hc, rfl, rfl, rfl, fun h => absurd h (by simpa using hc)⟩

/-! ## What each action does -/

namespace LogSys

theorem find_some {s : LogSys} {pid : Nat} {o : Op} (h : s.find pid = some o) :
    o ∈ s.ops ∧ o.pid = pid := by
  have := List.find?_some h
  exact ⟨List.mem_of_find?_eq_some h, by simpa using this⟩

theorem find_none {s : LogSys} {pid : Nat} (h : s.find pid = none) : ∀ o ∈ s.ops, o.pid ≠ pid := by
  intro o ho hpid
  have := List.find?_eq_none.mp h o ho
  simp [hpid] at this

theorem begin_cases {s s' : LogSys} {pid : Nat} (h : s.step (.begin pid) = .ok s') :
    s.find pid = none ∧ s.log.committing = false ∧
      s.log.lh.length + (s.log.outstanding + 1) * MAXOPBLOCKS ≤ LOGSIZE ∧
      s' = ⟨{ s.log with outstanding := s.log.outstanding + 1 }, s.ops ++ [⟨pid, []⟩]⟩ := by
  simp only [step_begin] at h
  split at h
  · cases h
  · rename_i hfind
    obtain ⟨log, hbegin, hres⟩ := Outcome.bind_eq_ok.mp h
    obtain ⟨hc, hroom, rfl⟩ := begin_op_eq_ok.mp hbegin
    cases hres
    exact ⟨Option.not_isSome_iff_eq_none.mp hfind, hc, hroom, rfl⟩

theorem write_cases {s s' : LogSys} {pid b : Nat} (h : s.step (.write pid b) = .ok s') :
    ∃ o, s.find pid = some o ∧ (b ∈ o.logged ∨ o.logged.length < MAXOPBLOCKS) ∧
      s.log.lh.length < LOGSIZE ∧ s.log.lh.length < s.log.size - 1 ∧
      s' = ⟨{ s.log with lh := absorb s.log.lh b }, updateOp pid (·.log b) s.ops⟩ := by
  simp only [step_write] at h
  split at h
  · rename_i o hfind
    split at h
    · rename_i hdisc
      obtain ⟨log, hwrite, hres⟩ := Outcome.bind_eq_ok.mp h
      obtain ⟨h₁, h₂, -, rfl⟩ := log_write_eq_ok.mp hwrite
      cases hres
      exact ⟨o, hfind, hdisc, h₁, h₂, rfl⟩
    · cases h
  · cases h

theorem finish_cases {s s' : LogSys} {pid : Nat} (h : s.step (.finish pid) = .ok s') :
    ∃ o log, s.find pid = some o ∧ s.log.committing = false ∧ log.lh = s.log.lh ∧
      log.outstanding = s.log.outstanding - 1 ∧ log.size = s.log.size ∧
      (log.committing = true → s.log.outstanding - 1 = 0) ∧
      s' = ⟨log, s.ops.filter (·.pid != pid)⟩ := by
  simp only [step_finish] at h
  split at h
  · rename_i o hfind
    obtain ⟨⟨log, c⟩, hend, hres⟩ := Outcome.bind_eq_ok.mp h
    obtain ⟨hc, hlh, hout, hsize, hcommit⟩ := end_op_eq_ok hend
    cases hres
    exact ⟨o, log, hfind, hc, hlh, hout, hsize, hcommit, rfl⟩
  · cases h

theorem commit_cases {s s' : LogSys} (h : s.step .commit = .ok s') :
    s.log.committing = true ∧ s' = ⟨commitDone s.log, s.ops⟩ := by
  simp only [step_commit] at h
  split at h
  · cases h
    exact ⟨‹_›, rfl⟩
  · cases h

end LogSys

/-! ## The budget -/

/-- The room an operation still holds of the `MAXOPBLOCKS` blocks that `begin_op` reserved. -/
def Op.room (o : Op) : Nat := MAXOPBLOCKS - o.logged.length

section Ops

variable {ops : List Op} {pid : Nat} {o : Op}

theorem sum_room_le (ops : List Op) : (ops.map Op.room).sum ≤ MAXOPBLOCKS * ops.length := by
  induction ops with
  | nil => simp
  | cons o ops ih =>
    have ho : o.room ≤ MAXOPBLOCKS := Nat.sub_le _ _
    simp only [List.map_cons, List.sum_cons, List.length_cons, Nat.mul_succ]
    omega

theorem updateOp_of_forall_ne (g : Op → Op) (h : ∀ o' ∈ ops, o'.pid ≠ pid) :
    updateOp pid g ops = ops := by
  induction ops with
  | nil => rfl
  | cons a ops ih =>
    simp only [updateOp_eq, List.map_cons] at ih ⊢
    rw [if_neg (h a List.mem_cons_self), ih fun o' ho' => h o' (List.mem_cons_of_mem _ ho')]

/-- Changing the one operation of `pid` changes the total room by that operation's change. -/
theorem sum_room_updateOp (g : Op → Op) (hnodup : (ops.map Op.pid).Nodup) (ho : o ∈ ops)
    (hpid : o.pid = pid) :
    ((updateOp pid g ops).map Op.room).sum + o.room = (ops.map Op.room).sum + (g o).room := by
  induction ops with
  | nil => simp at ho
  | cons a ops ih =>
    rw [List.map_cons, List.nodup_cons] at hnodup
    rcases List.mem_cons.mp ho with rfl | ho'
    · -- `a` is the operation changed; no other has its process
      have hrest : updateOp o.pid g ops = ops :=
        updateOp_of_forall_ne g fun o' ho' he => hnodup.1 (he ▸ List.mem_map_of_mem ho')
      simp only [updateOp_eq, List.map_cons, if_pos hpid] at hrest ⊢
      rw [← hpid, hrest]
      simp only [List.sum_cons]
      omega
    · have hne : a.pid ≠ pid := fun he => hnodup.1 (he ▸ hpid ▸ List.mem_map_of_mem ho')
      have := ih hnodup.2 ho'
      simp only [updateOp_eq, List.map_cons, if_neg hne, List.sum_cons] at this ⊢
      omega

theorem mem_updateOp {g : Op → Op} {o' : Op} (h : o' ∈ updateOp pid g ops) :
    o' ∈ ops ∨ ∃ a ∈ ops, a.pid = pid ∧ o' = g a := by
  obtain ⟨a, ha, rfl⟩ := List.mem_map.mp h
  by_cases hp : a.pid = pid
  · exact Or.inr ⟨a, ha, hp, by simp [hp]⟩
  · exact Or.inl (by simpa [hp] using ha)

theorem pids_updateOp {g : Op → Op} (hg : ∀ a, (g a).pid = a.pid) :
    (updateOp pid g ops).map Op.pid = ops.map Op.pid := by
  simp only [updateOp_eq, List.map_map]
  apply List.map_congr_left
  intro a _
  by_cases hp : a.pid = pid <;> simp [hp, hg]

theorem sum_room_filter (pid : Nat) :
    ((ops.filter (·.pid != pid)).map Op.room).sum ≤ (ops.map Op.room).sum := by
  induction ops with
  | nil => simp
  | cons a ops ih =>
    by_cases hp : a.pid = pid
    · simp only [List.filter_cons, hp, bne_self_eq_false, Bool.false_eq_true, if_false,
        List.map_cons, List.sum_cons]
      omega
    · simp only [List.filter_cons, bne_iff_ne, ne_eq, hp, not_false_eq_true, if_true,
        List.map_cons, List.sum_cons]
      omega

/-- With one operation of process `pid`, removing it leaves one operation fewer. -/
theorem length_filter_pid (hnodup : (ops.map Op.pid).Nodup) (ho : o ∈ ops) (hpid : o.pid = pid) :
    (ops.filter (·.pid != pid)).length + 1 = ops.length := by
  induction ops with
  | nil => simp at ho
  | cons a ops ih =>
    rw [List.map_cons, List.nodup_cons] at hnodup
    rcases List.mem_cons.mp ho with rfl | ho'
    · -- no other operation has its process
      have hall : ops.filter (·.pid != o.pid) = ops := by
        rw [List.filter_eq_self]
        intro o' ho'
        have hne : o'.pid ≠ o.pid := fun he => hnodup.1 (he ▸ List.mem_map_of_mem ho')
        simpa using hne
      simp [← hpid, hall]
    · have hne : a.pid ≠ pid := fun he => hnodup.1 (he ▸ hpid ▸ List.mem_map_of_mem ho')
      have := ih hnodup.2 ho'
      simp only [List.filter_cons, bne_iff_ne, ne_eq, hne, not_false_eq_true, if_true,
        List.length_cons]
      omega

end Ops

/-- What every reachable state keeps: the header's blocks are distinct, and with the room that
the running operations still hold they take at most `LOGSIZE` entries. -/
structure Budget (s : LogSys) : Prop where
  /-- `log.size` is `nlog`, `LOGSIZE`, as `mkfs` writes it. -/
  size_eq : s.log.size = LOGSIZE
  outstanding_eq : s.log.outstanding = s.ops.length
  pids_nodup : (s.ops.map Op.pid).Nodup
  lh_nodup : s.log.lh.Nodup
  /-- A running operation's blocks are in the header: no commit runs while it does. -/
  logged_sub : ∀ o ∈ s.ops, ∀ b ∈ o.logged, b ∈ s.log.lh
  logged_le : ∀ o ∈ s.ops, o.logged.length ≤ MAXOPBLOCKS
  room : s.log.lh.length + (s.ops.map Op.room).sum ≤ LOGSIZE
  lh_lt : s.log.lh.length < s.log.size
  idle : s.log.committing = true → s.ops = []

namespace Budget

theorem init : Budget LogSys.init where
  size_eq := rfl
  outstanding_eq := rfl
  pids_nodup := List.nodup_nil
  lh_nodup := List.nodup_nil
  logged_sub := by simp [LogSys.init]
  logged_le := by simp [LogSys.init]
  room := by decide
  lh_lt := by decide
  idle := by simp [LogSys.init, Log.init]

variable {s s' : LogSys}

theorem begin (hs : Budget s) {pid : Nat} (h : s.step (.begin pid) = .ok s') : Budget s' := by
  obtain ⟨hfind, hc, hadmit, rfl⟩ := LogSys.begin_cases h
  have hfresh := LogSys.find_none hfind
  -- the room of the running operations is at most what `begin_op` counts for them
  have hle := sum_room_le s.ops
  constructor
  · exact hs.size_eq
  · simp [hs.outstanding_eq]
  · simpa [List.nodup_append] using ⟨hs.pids_nodup, fun o ho he => hfresh o ho he⟩
  · exact hs.lh_nodup
  · intro o ho b hb
    rcases List.mem_append.mp ho with ho | ho
    · exact hs.logged_sub o ho b hb
    · simp at ho
      simp [ho] at hb
  · intro o ho
    rcases List.mem_append.mp ho with ho | ho
    · exact hs.logged_le o ho
    · simp at ho
      simp [ho]
  · have hroom : (⟨pid, []⟩ : Op).room = MAXOPBLOCKS := rfl
    simp only [List.map_append, List.sum_append, List.map_cons, List.map_nil, List.sum_cons,
      List.sum_nil, hroom]
    rw [hs.outstanding_eq] at hadmit
    have := Nat.mul_comm MAXOPBLOCKS s.ops.length
    rw [Nat.add_mul] at hadmit
    omega
  · exact hs.lh_lt
  · intro h'
    simp [hc] at h'

theorem write (hs : Budget s) {pid b : Nat} (h : s.step (.write pid b) = .ok s') : Budget s' := by
  obtain ⟨o, hfind, hdisc, h₁, h₂, rfl⟩ := LogSys.write_cases h
  obtain ⟨ho, hpid⟩ := LogSys.find_some hfind
  have hsum := sum_room_updateOp (·.log b) hs.pids_nodup ho hpid
  by_cases hb : b ∈ o.logged
  · -- already logged by this operation: absorbed, and nothing changes
    have hlh : absorb s.log.lh b = s.log.lh := absorb_of_mem (hs.logged_sub o ho b hb)
    have hops : updateOp pid (·.log b) s.ops = s.ops := by
      simp only [updateOp_eq]
      conv_rhs => rw [← List.map_id s.ops]
      apply List.map_congr_left
      intro a ha
      by_cases hp : a.pid = pid
      · -- `a` is `o`: one operation a process
        have hao : a = o := by
          have := (List.inj_on_of_nodup_map hs.pids_nodup) ha ho (hp.trans hpid.symm)
          exact this
        subst hao
        simp [hp, Op.log_eq, hb]
      · simp [hp]
    obtain ⟨⟩ := s
    simp only at hlh hops ⊢
    rw [hlh, hops]
    exact hs
  · -- a new block for this operation: its room shrinks by the one entry it may add
    have hlen : o.logged.length < MAXOPBLOCKS := hdisc.resolve_left hb
    have hroom : (o.log b).room + 1 = o.room := by
      simp only [Op.room, Op.log_eq, if_neg hb, List.length_append, List.length_singleton]
      omega
    have hgrow : (absorb s.log.lh b).length ≤ s.log.lh.length + 1 := by
      by_cases hin : b ∈ s.log.lh
      · rw [absorb_of_mem hin]
        omega
      · simp only [absorb_of_not_mem hin, List.length_append, List.length_singleton, Nat.le_refl]
    constructor
    · exact hs.size_eq
    · simp [hs.outstanding_eq, updateOp_eq]
    · rw [pids_updateOp (g := (·.log b)) fun a => Op.pid_log a b]
      exact hs.pids_nodup
    · by_cases hin : b ∈ s.log.lh
      · simpa [absorb_of_mem hin] using hs.lh_nodup
      · rw [absorb_of_not_mem hin, ← List.concat_eq_append]
        exact hs.lh_nodup.concat hin
    · -- every logged block is in the header after the absorption
      have hsub : ∀ x ∈ s.log.lh, x ∈ absorb s.log.lh b := by
        intro x hx
        by_cases hin : b ∈ s.log.lh
        · rwa [absorb_of_mem hin]
        · rw [absorb_of_not_mem hin]
          exact List.mem_append_left _ hx
      have hbin : b ∈ absorb s.log.lh b := by
        by_cases hin : b ∈ s.log.lh
        · rwa [absorb_of_mem hin]
        · rw [absorb_of_not_mem hin]
          exact List.mem_append_right _ (List.mem_singleton_self b)
      intro o' ho' x hx
      rcases mem_updateOp ho' with ho' | ⟨a, ha, hap, rfl⟩
      · exact hsub x (hs.logged_sub o' ho' x hx)
      · simp only [Op.log_eq] at hx
        split at hx
        · exact hsub x (hs.logged_sub a ha x hx)
        · rcases List.mem_append.mp hx with hx | hx
          · exact hsub x (hs.logged_sub a ha x hx)
          · rw [List.mem_singleton.mp hx]
            exact hbin
    · intro o' ho'
      rcases mem_updateOp ho' with ho' | ⟨a, ha, hap, rfl⟩
      · exact hs.logged_le o' ho'
      · have hao : a = o := (List.inj_on_of_nodup_map hs.pids_nodup) ha ho (hap.trans hpid.symm)
        subst hao
        simp only [Op.log_eq, if_neg hb, List.length_append, List.length_singleton]
        omega
    · have := hs.room
      simp only at this ⊢
      omega
    · simp only
      omega
    · intro hc
      exact absurd (hs.idle hc ▸ ho) (List.not_mem_nil)

theorem finish (hs : Budget s) {pid : Nat} (h : s.step (.finish pid) = .ok s') : Budget s' := by
  obtain ⟨o, log, hfind, hc, hlh, hout, hsize, hcommit, rfl⟩ := LogSys.finish_cases h
  obtain ⟨ho, hpid⟩ := LogSys.find_some hfind
  have hlen := length_filter_pid hs.pids_nodup ho hpid
  have hfilter := @sum_room_filter s.ops pid
  constructor
  · simp only
    rw [hsize, hs.size_eq]
  · dsimp only
    rw [hout, hs.outstanding_eq]
    omega
  · exact (hs.pids_nodup.sublist (List.filter_sublist.map Op.pid))
  · simpa [hlh] using hs.lh_nodup
  · intro o' ho' x hx
    rw [hlh]
    exact hs.logged_sub o' (List.mem_of_mem_filter ho') x hx
  · intro o' ho'
    exact hs.logged_le o' (List.mem_of_mem_filter ho')
  · have := hs.room
    simp only [hlh]
    omega
  · simp only [hlh, hsize]
    exact hs.lh_lt
  · -- the commit starts only when the last operation ends
    intro hc'
    have hzero := hcommit hc'
    rw [hs.outstanding_eq] at hzero
    apply List.eq_nil_of_length_eq_zero
    dsimp only
    omega

theorem commit (hs : Budget s) (h : s.step .commit = .ok s') : Budget s' := by
  obtain ⟨hc, rfl⟩ := LogSys.commit_cases h
  have hidle := hs.idle hc
  constructor
  · exact hs.size_eq
  · simp [commitDone, hs.outstanding_eq, hidle]
  · simp [hidle]
  · simp [commitDone]
  · simp [hidle]
  · simp [hidle]
  · simp [commitDone, hidle]
  · simp only [commitDone, List.length_nil]
    rw [hs.size_eq]
    decide
  · simp [commitDone]

end Budget

/-- Every completed step keeps the budget. -/
theorem step_budget {s s' : LogSys} {a : LogAction} (hs : Budget s) (h : s.step a = .ok s') :
    Budget s' := by
  cases a with
  | begin pid => exact hs.begin h
  | write pid b => exact hs.write h
  | finish pid => exact hs.finish h
  | commit => exact hs.commit h

/-! ## Every run -/

/-- After every run from `initlog`'s log, the header holds distinct blocks, which with the room
that the running operations still hold take at most `LOGSIZE` entries, and the header is shorter
than `LOGSIZE`, so the `lh.n >= LOGSIZE` test of `log_write` never holds. -/
theorem log_budget_run {acts : List LogAction} {s : LogSys}
    (h : Outcome.run LogSys.step LogSys.init acts = .ok s) :
    s.log.lh.Nodup ∧ s.log.lh.length + (s.ops.map Op.room).sum ≤ LOGSIZE ∧
      s.log.lh.length < LOGSIZE := by
  have hs : Budget s := Outcome.run_inv Budget (fun _ _ _ => step_budget) acts _ _ Budget.init h
  have hlt := hs.lh_lt
  rw [hs.size_eq] at hlt
  exact ⟨hs.lh_nodup, hs.room, hlt⟩

example :
    Outcome.run LogSys.step LogSys.init [.begin 1, .write 1 100] =
        .ok ⟨{ Log.init with outstanding := 1, lh := [100] }, [⟨1, [100]⟩]⟩ ∧
      [100].Nodup ∧ [100].length + ([(⟨1, [100]⟩ : Op)].map Op.room).sum ≤ LOGSIZE ∧
      [100].length < LOGSIZE :=
  ⟨by decide, @log_budget_run [.begin 1, .write 1 100]
    ⟨{ Log.init with outstanding := 1, lh := [100] }, [⟨1, [100]⟩]⟩ (by decide)⟩

/-- Three operations enter an empty log; once the first has logged a block, the header and the
reservations `outstanding * MAXOPBLOCKS` come to 31 entries. And when the three log ten, ten and
ten distinct blocks, the last one panics: `log.size - 1` is `LOGSIZE - 1`. -/
theorem admission_counterexample :
    (do
      let s ← Outcome.run LogSys.step LogSys.init [.begin 1, .begin 2, .begin 3, .write 1 100]
      pure (s.log.lh.length + s.log.outstanding * MAXOPBLOCKS)) = .ok 31 ∧
    Outcome.run LogSys.step LogSys.init
      ([.begin 1, .begin 2, .begin 3] ++ (List.range 10).map (fun i => .write 1 (100 + i)) ++
        (List.range 10).map (fun i => .write 2 (200 + i)) ++
        (List.range 10).map (fun i => .write 3 (300 + i))) =
      .panic "too big a transaction" := by
  constructor
  · decide
  · decide

end Xv6
