import Mathlib
import Xv6.Lib.Outcome

/-!
# Triples for steps that pass a state

A step that reads and writes a state of type `σ` and ends in an `Outcome` is a
`StateT σ Outcome α`. `Triple bad P m Q` says that from every state satisfying `P`, `m` does not
panic with a message that `bad` holds of, and that every completed run ends in a state satisfying
`Q` of its result. Runs that block or reach undefined behaviour, and panics with other messages,
are not constrained: this is the partial-correctness logic for a safety property that says which
panics a program never reaches.

The rules follow the program's structure: `pure`, `bind`, `if`, the state primitives, a lifted
step, consequence, and `List.forM` with a loop invariant. A program is proved by applying them
in the order of its text, and each function of a development gets one triple that its callers cite.
-/

namespace Machine

variable {σ α β : Type} {bad : String → Prop}

/-- A bound step completes exactly when its first step does and the rest completes from there. -/
theorem run_bind_eq_ok {m : StateT σ Outcome α} {f : α → StateT σ Outcome β} {s : σ}
    {r : β × σ} : (m >>= f).run s = .ok r ↔ ∃ a s₁, m.run s = .ok (a, s₁) ∧ (f a).run s₁ = .ok r := by
  rw [StateT.run_bind, Outcome.bind_eq_ok]
  constructor
  · rintro ⟨⟨a, s₁⟩, h₁, h₂⟩
    exact ⟨a, s₁, h₁, h₂⟩
  · rintro ⟨a, s₁, h₁, h₂⟩
    exact ⟨(a, s₁), h₁, h₂⟩

/-- From a state satisfying `P`, `m` never panics with a `bad` message, and a completed run ends
in a state satisfying `Q` of its result. -/
def Triple (bad : String → Prop) (P : σ → Prop) (m : StateT σ Outcome α) (Q : α → σ → Prop) :
    Prop :=
  ∀ s, P s → (∀ msg, m.run s = .panic msg → ¬ bad msg) ∧ ∀ a s', m.run s = .ok (a, s') → Q a s'

namespace Triple

variable {P P' : σ → Prop} {Q Q' : α → σ → Prop}

theorem pure {a : α} (h : ∀ s, P s → Q a s) : Triple bad P (Pure.pure a) Q := by
  intro s hs
  refine ⟨fun msg hm => ?_, fun a' s' hm => ?_⟩
  · cases hm
  · cases hm
    exact h s hs

theorem bind {m : StateT σ Outcome α} {f : α → StateT σ Outcome β} {R : α → σ → Prop}
    {Q : β → σ → Prop} (hm : Triple bad P m R) (hf : ∀ a, Triple bad (R a) (f a) Q) :
    Triple bad P (m >>= f) Q := by
  intro s hs
  have hrun : (m >>= f).run s = (m.run s >>= fun p => (f p.1).run p.2) := rfl
  obtain ⟨hpanic, hok⟩ := hm s hs
  refine ⟨fun msg h => ?_, fun b s' h => ?_⟩
  · -- the panic is the first step's, or the second's after the first completed
    rw [hrun, Outcome.bind_eq_panic] at h
    rcases h with h | ⟨⟨a, t⟩, ht, h⟩
    · exact hpanic msg h
    · exact ((hf a) t (hok a t ht)).1 msg h
  · obtain ⟨⟨a, t⟩, ht, h⟩ := Outcome.bind_eq_ok.mp (hrun ▸ h)
    exact ((hf a) t (hok a t ht)).2 b s' h

/-- The rule of consequence. -/
theorem conseq {m : StateT σ Outcome α} (h : Triple bad P' m Q') (hP : ∀ s, P s → P' s)
    (hQ : ∀ a s, Q' a s → Q a s) : Triple bad P m Q := by
  intro s hs
  obtain ⟨hpanic, hok⟩ := h s (hP s hs)
  exact ⟨hpanic, fun a s' hm => hQ a s' (hok a s' hm)⟩

theorem ite {c : Prop} [Decidable c] {m₁ m₂ : StateT σ Outcome α}
    (h₁ : c → Triple bad P m₁ Q) (h₂ : ¬ c → Triple bad P m₂ Q) :
    Triple bad P (if c then m₁ else m₂) Q := by
  by_cases hc : c
  · rw [if_pos hc]
    exact h₁ hc
  · rw [if_neg hc]
    exact h₂ hc

theorem get {Q : σ → σ → Prop} : Triple bad (fun s => Q s s) (MonadState.get : StateT σ Outcome σ) Q := by
  intro s hs
  refine ⟨fun msg hm => ?_, fun a s' hm => ?_⟩
  · cases hm
  · cases hm
    exact hs

theorem set {Q : PUnit → σ → Prop} (t : σ) : Triple bad (fun _ => Q () t) (MonadStateOf.set t : StateT σ Outcome PUnit) Q := by
  intro s hs
  refine ⟨fun msg hm => ?_, fun a s' hm => ?_⟩
  · cases hm
  · cases hm
    exact hs

theorem modify {Q : PUnit → σ → Prop} (f : σ → σ) : Triple bad (fun s => Q () (f s)) (modify f : StateT σ Outcome PUnit) Q := by
  intro s hs
  refine ⟨fun msg hm => ?_, fun a s' hm => ?_⟩
  · cases hm
  · cases hm
    exact hs

/-- A step lifted from `Outcome`: it leaves the state alone, and its panics must not be `bad`. -/
theorem lift {x : Outcome α} (hx : ∀ msg, x = .panic msg → ¬ bad msg) :
    Triple bad (fun s => ∀ a, x = .ok a → Q a s) (StateT.lift x : StateT σ Outcome α) Q := by
  intro s hs
  have hrun : (StateT.lift x : StateT σ Outcome α).run s = (x >>= fun a => .ok (a, s)) := rfl
  refine ⟨fun msg hm => ?_, fun a s' hm => ?_⟩
  · rw [hrun, Outcome.bind_eq_panic] at hm
    rcases hm with hm | ⟨a, -, hm⟩
    · exact hx msg hm
    · cases hm
  · obtain ⟨a', ha, hm⟩ := Outcome.bind_eq_ok.mp (hrun ▸ hm)
    cases hm
    exact hs a ha

/-- The loop rule: a body that keeps `I` for every element keeps it over the whole list. -/
theorem forM {l : List α} {f : α → StateT σ Outcome PUnit} {I : σ → Prop}
    (h : ∀ x ∈ l, Triple bad I (f x) fun _ => I) :
    Triple bad I (l.forM f) fun _ => I := by
  induction l with
  | nil => exact Triple.pure fun _ hs => hs
  | cons x xs ih =>
    show Triple bad I (f x >>= fun _ => xs.forM f) fun _ => I
    exact Triple.bind (h x List.mem_cons_self)
      fun _ => ih fun y hy => h y (List.mem_cons_of_mem x hy)

/-- The loop rule with an invariant of the elements done so far: a body that takes `I pre` to
`I (pre ++ [x])` at each element `x` after `pre` takes `I []` to `I l` over the whole list. -/
theorem forM_prefix {l : List α} {f : α → StateT σ Outcome PUnit} {I : List α → σ → Prop}
    (h : ∀ pre x post, l = pre ++ x :: post → Triple bad (I pre) (f x) fun _ => I (pre ++ [x])) :
    Triple bad (I []) (l.forM f) fun _ => I l := by
  -- the loop from any point `pre` of the list on
  have hrest : ∀ rest pre, l = pre ++ rest →
      Triple bad (I pre) (rest.forM f) fun _ => I (pre ++ rest) := by
    intro rest
    induction rest with
    | nil => exact fun pre _ => Triple.pure fun _ hs => by simpa using hs
    | cons x xs ih =>
      intro pre hl
      show Triple bad (I pre) (f x >>= fun _ => xs.forM f) fun _ => I (pre ++ x :: xs)
      refine Triple.bind (h pre x xs hl) fun _ => ?_
      have hl' : l = (pre ++ [x]) ++ xs := by simpa using hl
      simpa using ih (pre ++ [x]) hl'
  simpa using hrest l [] rfl

end Triple

end Machine
