import Mathlib

/-!
# Patterns of one-symbol atoms and their stars

The regular expressions of a backtracking matcher in the style of Kernighan and Pike: a pattern
is a sequence of pieces, each an atom that accepts one symbol (any symbol, or one given symbol),
or such an atom repeated any number of times. Its meaning is a language of Mathlib, the
concatenation of the languages of its pieces (`lang`). A search with the pattern can be tied to
the start of the word and to its end (`Regex`): it asks for a factor of the word in the language,
a prefix when tied to the start and a suffix when tied to the end.

A matcher tries the pieces from the left, and a star first with no repetition and then with one
more at a time. The lemmas unfold the prefix question in that order (`matchesPrefix_one`,
`matchesPrefix_star`), and the search one start position at a time (`occurs_cons`); the star's
unfolding is the Kleene algebra law that the star of `l` is `1 + l` times the star (`kstar_mul`).
-/

namespace Pattern

/-- An atom: it accepts any one symbol, or the one symbol `a`. -/
inductive Atom (α : Type*) where
  | any
  | lit (a : α)
  deriving DecidableEq, Repr

/-- A piece of a pattern: an atom, or the atom repeated any number of times. -/
inductive Piece (α : Type*) where
  | one (a : Atom α)
  | star (a : Atom α)
  deriving DecidableEq, Repr

/-- A search with a pattern, tied or not to the start and to the end of the word. -/
structure Regex (α : Type*) where
  /-- The pattern. -/
  pieces : List (Piece α)
  /-- The match starts at the start of the word. -/
  atStart : Bool
  /-- The match ends at the end of the word. -/
  atEnd : Bool
  deriving DecidableEq, Repr

variable {α : Type*}

/-- A star followed by `m`: `m` alone, or one more repetition first. -/
theorem kstar_mul (l m : Language α) : KStar.kstar l * m = m + l * (KStar.kstar l * m) := by
  conv_lhs => rw [← Language.one_add_self_mul_kstar_eq_kstar]
  rw [add_mul, one_mul, mul_assoc]

variable [DecidableEq α]

/-- The symbols an atom accepts. -/
def Atom.accepts : Atom α → α → Bool
  | .any, _ => true
  | .lit a, c => a == c

/-- The language of an atom: its one-symbol words. -/
def Atom.lang (a : Atom α) : Language α := {w | ∃ c, a.accepts c = true ∧ w = [c]}

/-- The language of a piece. -/
def Piece.lang : Piece α → Language α
  | .one a => a.lang
  | .star a => KStar.kstar a.lang

theorem Piece.lang_one (a : Atom α) : (Piece.one a).lang = a.lang := rfl

theorem Piece.lang_star (a : Atom α) : (Piece.star a).lang = KStar.kstar a.lang := rfl

/-- The language of a pattern: a word of each piece's language, in order. -/
def lang (ps : List (Piece α)) : Language α := (ps.map Piece.lang).prod

@[simp] theorem lang_nil : lang ([] : List (Piece α)) = 1 := rfl

@[simp] theorem lang_cons (p : Piece α) (ps : List (Piece α)) :
    lang (p :: ps) = p.lang * lang ps := by
  rw [lang, List.map_cons, List.prod_cons]
  rfl

/-- A word of an atom followed by a word of `l`. -/
theorem mem_atom_mul {a : Atom α} {l : Language α} {w : List α} :
    w ∈ a.lang * l ↔ ∃ c w', w = c :: w' ∧ a.accepts c = true ∧ w' ∈ l := by
  rw [Language.mem_mul]
  constructor
  · rintro ⟨u, ⟨c, hc, rfl⟩, w', hw', rfl⟩
    exact ⟨c, w', rfl, hc, hw'⟩
  · rintro ⟨c, w', rfl, hc, hw'⟩
    exact ⟨[c], ⟨c, hc, rfl⟩, w', hw', rfl⟩

/-- A word of a starred atom and the rest: a word of the rest, or one accepted symbol first. -/
theorem mem_lang_star {a : Atom α} {ps : List (Piece α)} {w : List α} :
    w ∈ lang (.star a :: ps) ↔
      w ∈ lang ps ∨ ∃ c w', w = c :: w' ∧ a.accepts c = true ∧ w' ∈ lang (.star a :: ps) := by
  have hunfold : lang (.star a :: ps) = lang ps + a.lang * lang (.star a :: ps) := by
    rw [lang_cons, Piece.lang_star]
    exact kstar_mul _ _
  conv_lhs => rw [hunfold]
  rw [Language.mem_add, mem_atom_mul]

/-! ## Prefixes and factors -/

/-- A prefix of `w` lies in the language of `ps`; when `atEnd`, the whole of `w` does. -/
def MatchesPrefix (ps : List (Piece α)) (atEnd : Bool) (w : List α) : Prop :=
  ∃ u v, w = u ++ v ∧ u ∈ lang ps ∧ (atEnd = true → v = [])

/-- A factor of `w` lies in the language of `ps`; when `atEnd`, a suffix does. -/
def Occurs (ps : List (Piece α)) (atEnd : Bool) (w : List α) : Prop :=
  ∃ x s, w = x ++ s ∧ MatchesPrefix ps atEnd s

/-- The words a search matches. -/
def Regex.Matches (r : Regex α) (w : List α) : Prop :=
  if r.atStart then MatchesPrefix r.pieces r.atEnd w else Occurs r.pieces r.atEnd w

section Unfold

variable {ps : List (Piece α)} {atEnd : Bool} {w : List α}

theorem matchesPrefix_nil : MatchesPrefix ([] : List (Piece α)) atEnd w ↔ (atEnd = true → w = []) := by
  constructor
  · rintro ⟨u, v, rfl, hu, hv⟩
    rw [lang_nil, Language.mem_one] at hu
    subst hu
    exact hv
  · intro h
    exact ⟨[], w, rfl, (Language.mem_one _).mpr rfl, h⟩

/-- An atom takes the first symbol. -/
theorem matchesPrefix_one {a : Atom α} :
    MatchesPrefix (.one a :: ps) atEnd w ↔
      ∃ c w', w = c :: w' ∧ a.accepts c = true ∧ MatchesPrefix ps atEnd w' := by
  constructor
  · rintro ⟨u, v, rfl, hu, hv⟩
    rw [lang_cons, Piece.lang_one, mem_atom_mul] at hu
    obtain ⟨c, u', rfl, hc, hu'⟩ := hu
    exact ⟨c, u' ++ v, rfl, hc, u', v, rfl, hu', hv⟩
  · rintro ⟨c, w', rfl, hc, u', v, rfl, hu', hv⟩
    refine ⟨c :: u', v, rfl, ?_, hv⟩
    rw [lang_cons, Piece.lang_one, mem_atom_mul]
    exact ⟨c, u', rfl, hc, hu'⟩

/-- A starred atom takes no symbol, or one symbol and stays. -/
theorem matchesPrefix_star {a : Atom α} :
    MatchesPrefix (.star a :: ps) atEnd w ↔
      MatchesPrefix ps atEnd w ∨
        ∃ c w', w = c :: w' ∧ a.accepts c = true ∧ MatchesPrefix (.star a :: ps) atEnd w' := by
  constructor
  · rintro ⟨u, v, rfl, hu, hv⟩
    rcases mem_lang_star.mp hu with hu | ⟨c, u', rfl, hc, hu'⟩
    · exact .inl ⟨u, v, rfl, hu, hv⟩
    · exact .inr ⟨c, u' ++ v, rfl, hc, u', v, rfl, hu', hv⟩
  · rintro (⟨u, v, rfl, hu, hv⟩ | ⟨c, w', rfl, hc, u', v, rfl, hu', hv⟩)
    · exact ⟨u, v, rfl, mem_lang_star.mpr (.inl hu), hv⟩
    · exact ⟨c :: u', v, rfl, mem_lang_star.mpr (.inr ⟨c, u', rfl, hc, hu'⟩), hv⟩

theorem occurs_nil : Occurs ps atEnd [] ↔ MatchesPrefix ps atEnd [] := by
  constructor
  · rintro ⟨x, s, hxs, hs⟩
    obtain ⟨rfl, rfl⟩ := List.append_eq_nil_iff.mp hxs.symm
    exact hs
  · intro h
    exact ⟨[], [], rfl, h⟩

/-- A search tries the word, then its tail. -/
theorem occurs_cons {c : α} : Occurs ps atEnd (c :: w) ↔
    MatchesPrefix ps atEnd (c :: w) ∨ Occurs ps atEnd w := by
  constructor
  · rintro ⟨x, s, hxs, hs⟩
    cases x with
    | nil => exact .inl (by simpa [hxs] using hs)
    | cons d x =>
      obtain ⟨-, rfl⟩ := List.cons_eq_cons.mp hxs
      exact .inr ⟨x, s, rfl, hs⟩
  · rintro (h | ⟨x, s, rfl, hs⟩)
    · exact ⟨[], c :: w, rfl, h⟩
    · exact ⟨c :: x, s, rfl, hs⟩

end Unfold

end Pattern
