import Mathlib
import Xv6.Lib.Hoare

/-!
# Steps that end

`Ends allowed m` says that from every state, `m` completes or panics with a message that
`allowed` holds of: it never blocks, never reaches undefined behaviour, and never panics
otherwise. What a completed run leaves is said apart, by a statement about the runs that
complete; the two together say which of the two ends a run comes to (`Outcome.Ends.ok_or_panic`).

The rules follow the program's structure, as those of `Triple` do, with no state in them: a step
ends when each of its parts ends from every state.
-/

namespace Machine

variable {σ α β : Type} {allowed : String → Prop}

/-- An outcome that completes, or panics with a message `allowed` holds of. -/
def Outcome.Ends (allowed : String → Prop) : Outcome α → Prop
  | .ok _ => True
  | .panic msg => allowed msg
  | .block => False
  | .ub => False

/-- From every state, `m` completes, or panics with a message `allowed` holds of. -/
def Ends (allowed : String → Prop) (m : StateT σ Outcome α) : Prop :=
  ∀ s, (m.run s).Ends allowed

/-- An outcome that ends completes, or panics with an allowed message. -/
theorem Outcome.Ends.ok_or_panic {x : Outcome α} (h : x.Ends allowed) :
    (∃ a, x = .ok a) ∨ ∃ msg, allowed msg ∧ x = .panic msg := by
  revert h
  cases x with
  | ok a => exact fun _ => .inl ⟨a, rfl⟩
  | panic msg => exact fun hmsg => .inr ⟨msg, hmsg, rfl⟩
  | block => exact False.elim
  | ub => exact False.elim

namespace Ends

theorem pure (a : α) : Ends allowed (Pure.pure a : StateT σ Outcome α) :=
  fun _ => trivial

theorem bind {m : StateT σ Outcome α} {f : α → StateT σ Outcome β} (hm : Ends allowed m)
    (hf : ∀ a, Ends allowed (f a)) : Ends allowed (m >>= f) := by
  intro s
  have hrun : (m >>= f).run s = (m.run s >>= fun p => (f p.1).run p.2) := rfl
  rw [hrun]
  -- the first step ends; if it completes, the rest ends from where it left
  have h := hm s
  revert h
  cases m.run s with
  | ok p => exact fun _ => hf p.1 p.2
  | panic msg => exact id
  | block => exact id
  | ub => exact id

theorem get : Ends allowed (MonadState.get : StateT σ Outcome σ) :=
  fun _ => trivial

theorem set (t : σ) : Ends allowed (MonadStateOf.set t : StateT σ Outcome PUnit) :=
  fun _ => trivial

theorem modify (f : σ → σ) : Ends allowed (modify f : StateT σ Outcome PUnit) :=
  fun _ => trivial

/-- A step of `Outcome` that ends. -/
theorem lift {x : Outcome α} (hx : x.Ends allowed) :
    Ends allowed (StateT.lift x : StateT σ Outcome α) := by
  intro s
  have hrun : (StateT.lift x : StateT σ Outcome α).run s = (x >>= fun a => .ok (a, s)) := rfl
  rw [hrun]
  revert hx
  cases x with
  | ok a => exact fun _ => trivial
  | panic msg => exact id
  | block => exact id
  | ub => exact id

theorem ite {c : Prop} [Decidable c] {m₁ m₂ : StateT σ Outcome α} (h₁ : c → Ends allowed m₁)
    (h₂ : ¬c → Ends allowed m₂) : Ends allowed (if c then m₁ else m₂) := by
  by_cases hc : c
  · rw [if_pos hc]
    exact h₁ hc
  · rw [if_neg hc]
    exact h₂ hc

/-- A panic that is allowed. -/
theorem panic {msg : String} (h : allowed msg) :
    Ends allowed (StateT.lift (.panic msg) : StateT σ Outcome α) :=
  lift h

/-- A loop ends when its body ends at each element. -/
theorem forM {l : List α} {f : α → StateT σ Outcome PUnit} (h : ∀ x ∈ l, Ends allowed (f x)) :
    Ends allowed (l.forM f) := by
  induction l with
  | nil => exact Ends.pure _
  | cons x xs ih =>
    show Ends allowed (f x >>= fun _ => xs.forM f)
    exact Ends.bind (h x List.mem_cons_self) fun _ => ih fun y hy => h y (List.mem_cons_of_mem x hy)

/-- More messages allowed. -/
theorem mono {allowed' : String → Prop} {m : StateT σ Outcome α} (h : Ends allowed m)
    (himp : ∀ msg, allowed msg → allowed' msg) : Ends allowed' m := by
  intro s
  have hs := h s
  revert hs
  cases m.run s with
  | ok p => exact fun _ => trivial
  | panic msg => exact himp msg
  | block => exact id
  | ub => exact id

/-- A step that ends and meets a triple from `s`: it completes in a state of the triple, or panics
with an allowed message that is not `bad`. -/
theorem run_of_triple {bad : String → Prop} {m : StateT σ Outcome α} {P : σ → Prop}
    {Q : α → σ → Prop} (he : Ends allowed m) (ht : Triple bad P m Q) {s : σ} (hs : P s) :
    (∃ msg, allowed msg ∧ ¬ bad msg ∧ m.run s = .panic msg) ∨
      ∃ a s', m.run s = .ok (a, s') ∧ Q a s' := by
  obtain ⟨hpanic, hok⟩ := ht s hs
  rcases (he s).ok_or_panic with ⟨⟨a, s'⟩, h⟩ | ⟨msg, hmsg, h⟩
  · exact .inr ⟨a, s', h, hok a s' h⟩
  · exact .inl ⟨msg, hmsg, hpanic msg h, h⟩

end Ends

end Machine
