import Mathlib
import Xv6.Lib.Pattern

/-!
# The matcher of `grep`

`match`, `matchhere` and `matchstar` of `grep.c`, the regular-expression matcher of Kernighan and
Pike. A C string is the list of its bytes before the terminator. In the pattern, `c*` repeats the
byte `c` any number of times, `.` is any byte, `^` at the start ties the match to the start of
the line, and `$` at the end ties it to the end; any other byte, and these ones elsewhere, stand
for themselves.

`compile` reads a pattern as a search of `Xv6.Lib.Pattern`, and the matcher decides exactly that
search (`match_iff`): `matchhere` whether a prefix of the text lies in the pattern's language
(`matchhere_iff`), `matchstar` with one more repetition of its byte at each turn
(`matchstar_iff`), and `match` at each start position of the text in turn.
-/

namespace Xv6.Grep

open Pattern

/-- The byte `*`. -/
def STAR : UInt8 := 42
/-- The byte `.`. -/
def DOT : UInt8 := 46
/-- The byte `$`. -/
def DOLLAR : UInt8 := 36
/-- The byte `^`. -/
def CARET : UInt8 := 94

/-- `matchstar(c, re, text)`, with `matchhere(re, ·)` as `here`: `c*re` at the start of the
text, trying no `c` first and then one more at each turn. -/
def matchstar (here : List UInt8 → Bool) (c : UInt8) : List UInt8 → Bool
  | [] => here []
  | t :: text => here (t :: text) || ((t == c || c == DOT) && matchstar here c text)

/-- `matchhere(re, text)`: `re` at the start of the text. -/
def matchhere : List UInt8 → List UInt8 → Bool
  | [], _ => true
  | c :: 42 :: re, text => matchstar (matchhere re) c text
  | [36], text => text.isEmpty
  | c :: re, t :: text => (c == DOT || c == t) && matchhere re text
  | _ :: _, [] => false

/-- The loop of `match`: `re` at each position of the text, the end of the text included. -/
def matchLoop (re : List UInt8) : List UInt8 → Bool
  | [] => matchhere re []
  | t :: text => matchhere re (t :: text) || matchLoop re text

/-- `match(re, text)`: `re` anywhere in the text, or at its start after a `^`. -/
def match' (re text : List UInt8) : Bool :=
  match re with
  | 94 :: re => matchhere re text
  | _ => matchLoop re text

/-! ## What a pattern means -/

/-- The atom of the byte `c`: any byte for `.`. -/
def atomOf (c : UInt8) : Atom UInt8 := if c = DOT then .any else .lit c

/-- The pieces of a pattern, and whether it ends with the `$` that ties it to the end. -/
def pieces : List UInt8 → List (Piece UInt8) × Bool
  | [] => ([], false)
  | c :: 42 :: re => (.star (atomOf c) :: (pieces re).1, (pieces re).2)
  | [36] => ([], true)
  | c :: re => (.one (atomOf c) :: (pieces re).1, (pieces re).2)

/-- The search a pattern asks for. -/
def compile (re : List UInt8) : Regex UInt8 :=
  match re with
  | 94 :: re => ⟨(pieces re).1, true, (pieces re).2⟩
  | re => ⟨(pieces re).1, false, (pieces re).2⟩

/-- The test of `matchstar`'s loop is the atom's. -/
theorem accepts_atomOf (c t : UInt8) : (atomOf c).accepts t = (t == c || c == DOT) := by
  unfold atomOf
  split_ifs with hc
  · simp [Atom.accepts, hc]
  · have hdot : (c == DOT) = false := by simpa using hc
    rw [Atom.accepts, hdot, Bool.or_false, BEq.comm]

/-- The test of `matchhere` is the atom's. -/
theorem accepts_atomOf_here (c t : UInt8) : (atomOf c).accepts t = (c == DOT || c == t) := by
  rw [accepts_atomOf, Bool.or_comm, BEq.comm (a := t)]

/-! ## The matcher decides the search -/

/-- `matchstar` decides a starred byte before what `here` decides. By induction on the text,
one repetition per turn. -/
theorem matchstar_iff {here : List UInt8 → Bool} {ps : List (Piece UInt8)} {atEnd : Bool}
    (hhere : ∀ text, here text = true ↔ MatchesPrefix ps atEnd text) (c : UInt8) :
    ∀ text, matchstar here c text = true ↔ MatchesPrefix (.star (atomOf c) :: ps) atEnd text
  | [] => by
    rw [matchstar, hhere, matchesPrefix_star]
    simp
  | t :: text => by
    rw [matchstar, matchesPrefix_star, Bool.or_eq_true, Bool.and_eq_true, hhere,
      matchstar_iff hhere c text, ← accepts_atomOf]
    simp

/-- A pattern that starts with a byte standing for one byte: `matchhere` takes the byte of the
text and goes on with the rest of the pattern. -/
theorem matchhere_one_iff {c : UInt8} {re : List UInt8} (hstar : ∀ re', re = 42 :: re' → False)
    (hdollar : c = 36 → re = [] → False)
    (ih : ∀ text, matchhere re text = true ↔ MatchesPrefix (pieces re).1 (pieces re).2 text)
    (text : List UInt8) :
    matchhere (c :: re) text = true ↔
      MatchesPrefix (pieces (c :: re)).1 (pieces (c :: re)).2 text := by
  rw [pieces.eq_4 c re hstar hdollar, matchesPrefix_one]
  cases text with
  | nil =>
    rw [matchhere.eq_5 c re hstar hdollar]
    simp
  | cons t text =>
    rw [matchhere.eq_4 c re t text hstar hdollar, Bool.and_eq_true, ih, ← accepts_atomOf_here]
    simp

/-- `matchhere` decides whether a prefix of the text lies in the pattern's language, the whole
text after a final `$`. By induction along the pattern: a starred byte goes to `matchstar` with
the rest of the pattern, any other byte to `matchhere_one_iff`. -/
theorem matchhere_iff : ∀ re text : List UInt8,
    matchhere re text = true ↔ MatchesPrefix (pieces re).1 (pieces re).2 text
  | [], text => by
    rw [matchhere, pieces, matchesPrefix_nil]
    simp
  | [c], text => by
    by_cases hc : c = 36
    · subst hc
      rw [matchhere, pieces, matchesPrefix_nil]
      simp
    · exact matchhere_one_iff (by simp) (fun h _ => hc h) (matchhere_iff []) text
  | c :: d :: re, text => by
    by_cases hd : d = 42
    · subst hd
      rw [matchhere, pieces]
      exact matchstar_iff (matchhere_iff re) c text
    · exact matchhere_one_iff (by simp [hd]) (by simp) (matchhere_iff (d :: re)) text

/-- `match`'s loop decides whether a factor of the text lies in the pattern's language. By
induction on the text, one start position per turn. -/
theorem matchLoop_iff (re : List UInt8) :
    ∀ text, matchLoop re text = true ↔ Occurs (pieces re).1 (pieces re).2 text
  | [] => by
    rw [matchLoop, matchhere_iff, occurs_nil]
  | t :: text => by
    rw [matchLoop, Bool.or_eq_true, matchhere_iff, matchLoop_iff re text, occurs_cons]

/-- `match` of `grep.c` decides the search its pattern asks for: a factor of the text in the
pattern's language, a prefix after `^`, a suffix before a final `$`. -/
theorem match_iff (re text : List UInt8) : match' re text = true ↔ (compile re).Matches text := by
  unfold match' compile Regex.Matches
  split
  · exact matchhere_iff _ text
  · exact matchLoop_iff _ text

/-- Whether a pattern matches a text is decided by `match`. -/
instance (re w : List UInt8) : Decidable ((compile re).Matches w) :=
  decidable_of_iff _ (match_iff re w)

end Xv6.Grep
