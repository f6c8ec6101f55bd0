/-!
# Outcomes of a machine step

A step of a machine model ends in one of four ways. It completes with a result; it stops the
machine with a message, as a `panic!` does; it cannot proceed yet, because it would sleep until
another party acts; or it reaches undefined behaviour, such as a write through a dangling
reference, where the model gives the step no meaning. `Outcome` is the monad of these four ends,
with the lemmas that take a bound computation apart and that run a step over a list of actions.
`Agree` compares two outcomes but for the messages of panics, as two ports of one function may
word them differently.
-/

namespace Machine

/-- How a step ends: with a result, a panic message, a wait, or undefined behaviour. -/
inductive Outcome (α : Type) where
  /-- The step completed with this result. -/
  | ok (a : α)
  /-- The machine stopped with this message. -/
  | panic (msg : String)
  /-- The step would sleep: it is not enabled in this state. -/
  | block
  /-- The step has undefined behaviour, and the model gives it no meaning. -/
  | ub
  deriving Repr, DecidableEq

namespace Outcome

/-- Sequencing: the second step runs on the first one's result. -/
def bind {α β : Type} : Outcome α → (α → Outcome β) → Outcome β
  | ok a, f => f a
  | panic msg, _ => panic msg
  | block, _ => block
  | ub, _ => ub

instance : Monad Outcome where
  pure := ok
  bind := bind

/-- `Outcome` obeys the monad laws, so runs of steps over it normalise by `simp`. -/
instance : LawfulMonad Outcome :=
  LawfulMonad.mk' Outcome (fun x => by cases x <;> rfl) (fun _ _ => rfl)
    (fun x _ _ => by cases x <;> rfl)

variable {α β : Type}

@[simp] theorem pure_eq (a : α) : (pure a : Outcome α) = ok a := rfl

@[simp] theorem ok_bind (a : α) (f : α → Outcome β) : (ok a >>= f) = f a := rfl

@[simp] theorem map_ok (f : α → β) (a : α) : (f <$> ok a) = ok (f a) := rfl

@[simp] theorem panic_bind (msg : String) (f : α → Outcome β) : (panic msg >>= f) = panic msg :=
  rfl

@[simp] theorem block_bind (f : α → Outcome β) : (block >>= f) = block := rfl

@[simp] theorem ub_bind (f : α → Outcome β) : (ub >>= f) = ub := rfl

/-- A bound computation completes exactly when both of its steps do. -/
theorem bind_eq_ok {x : Outcome α} {f : α → Outcome β} {b : β} :
    (x >>= f) = ok b ↔ ∃ a, x = ok a ∧ f a = ok b := by
  cases x <;> simp

/-- A bound computation panics when its first step panics, or when the first step completes and
the second panics. -/
theorem bind_eq_panic {x : Outcome α} {f : α → Outcome β} {msg : String} :
    (x >>= f) = panic msg ↔ x = panic msg ∨ ∃ a, x = ok a ∧ f a = panic msg := by
  cases x <;> simp

/-- `step` run over a list of actions, from a state, stopping at the first step that does not
complete. -/
def run {σ ι : Type} (step : σ → ι → Outcome σ) : σ → List ι → Outcome σ
  | s, [] => ok s
  | s, a :: as => step s a >>= fun s' => run step s' as

variable {σ ι : Type} {step : σ → ι → Outcome σ}

@[simp] theorem run_nil (s : σ) : run step s [] = ok s := rfl

@[simp] theorem run_cons (s : σ) (a : ι) (as : List ι) :
    run step s (a :: as) = (step s a >>= fun s' => run step s' as) := rfl

/-- The invariant rule: a property that every completed step keeps holds after every completed
run. -/
theorem run_inv (I : σ → Prop) (hstep : ∀ s a s', I s → step s a = ok s' → I s') :
    ∀ (as : List ι) (s s' : σ), I s → run step s as = ok s' → I s'
  | [], s, s', hs, h => by
    cases h
    exact hs
  | a :: as, s, s', hs, h => by
    obtain ⟨t, ht, hrun⟩ := bind_eq_ok.mp h
    exact run_inv I hstep as t s' (hstep s a t hs ht) hrun

/-- Two outcomes that are the same but for the message of a panic: the same result, two panics,
two waits, or undefined behaviour twice. -/
def Agree : Outcome α → Outcome α → Prop
  | ok a, ok b => a = b
  | panic _, panic _ => True
  | block, block => True
  | ub, ub => True
  | _, _ => False

theorem Agree.refl (x : Outcome α) : Agree x x := by
  cases x <;> trivial

theorem Agree.panic (msg msg' : String) : Agree (panic msg : Outcome α) (panic msg') := trivial

/-- `while read(i) { i += 1 }` from `i`, for at most `fuel` turns: the first index at which `read`
answers `false`. A loop that needs more turns has undefined behaviour, as the pointer it advances
would leave the address space. -/
def countWhile (read : Nat → Outcome Bool) : Nat → Nat → Outcome Nat
  | 0, _ => ub
  | fuel + 1, i => read i >>= fun b => if b then countWhile read fuel (i + 1) else ok i

/-- The loop ends at `n` exactly when every read from `i` up to `n` answers `true`, the read at
`n` answers `false`, and `n` is within the turns allowed. -/
theorem countWhile_eq_ok {read : Nat → Outcome Bool} {fuel i n : Nat} :
    countWhile read fuel i = ok n ↔
      i ≤ n ∧ n < i + fuel ∧ (∀ j, i ≤ j → j < n → read j = ok true) ∧ read n = ok false := by
  induction fuel generalizing i with
  | zero =>
    simp only [countWhile, reduceCtorEq, false_iff]
    omega
  | succ fuel ih =>
    rw [countWhile, bind_eq_ok]
    constructor
    · rintro ⟨b, hb, h⟩
      cases b with
      | true =>
        -- the loop goes on from `i + 1`
        obtain ⟨hle, hlt, hall, hend⟩ := ih.mp h
        refine ⟨by omega, by omega, fun j hij hjn => ?_, hend⟩
        rcases Nat.eq_or_lt_of_le hij with rfl | hlt'
        · exact hb
        · exact hall j hlt' hjn
      | false =>
        -- the loop stops at `i`
        cases h
        exact ⟨Nat.le_refl _, by omega, fun j hij hjn => absurd hjn (by omega), hb⟩
    · rintro ⟨hle, hlt, hall, hend⟩
      rcases Nat.eq_or_lt_of_le hle with rfl | hlt'
      · exact ⟨false, hend, rfl⟩
      · exact ⟨true, hall i (Nat.le_refl i) hlt',
          ih.mpr ⟨hlt', by omega, fun j hij hjn => hall j (by omega) hjn, hend⟩⟩

end Outcome

end Machine
