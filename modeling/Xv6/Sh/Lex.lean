import Mathlib

/-!
# The shell's tokens

`gettoken` and `peek` of `sh.c`, over the line that `parsecmd` is given: its characters before
the terminator, `es` being their number, and `*s` past them reading the terminator. A pointer into
the line is a position in it.

`gettoken` skips whitespace, reads one token (a symbol of `<|>&;()`, `>>` as `+`, or a word: the
longest run of characters that are neither whitespace nor symbols) and skips the whitespace after
it. `tokens` is the line's tokens as `gettoken` reads them one after the other. Every word among
them is a whole word of the line, with no word character right before or right after it
(`IsWord`, `isWord_of_mem_tokens`).
-/

namespace Xv6.Sh

/-- `whitespace[]`. -/
def whitespace : List Char := [' ', '\t', '\r', '\n', '\x0b']

/-- `symbols[]`. -/
def symbols : List Char := ['<', '|', '>', '&', ';', '(', ')']

/-- `strchr(s, c)` of `ulib.c` is not null: `c` is one of the characters of `s`; the terminator is
not searched. -/
def strchr (s : List Char) (c : Char) : Bool := s.contains c

theorem strchr_eq (s : List Char) (c : Char) : strchr s c = s.contains c := rfl

/-- `strlen` of `ulib.c`: the number of characters before the first zero. -/
def strlen : List Char → Nat
  | [] => 0
  | c :: cs => if c = '\x00' then 0 else strlen cs + 1

theorem strlen_cons (c : Char) (cs : List Char) :
    strlen (c :: cs) = if c = '\x00' then 0 else strlen cs + 1 := rfl

/-- `*s` at position `s` of the line: the terminator past its end. -/
def charAt (line : List Char) (s : Nat) : Char := line.getD s '\x00'

/-- `strchr(whitespace, c)`. -/
def isSpace (c : Char) : Bool := strchr whitespace c

theorem isSpace_eq (c : Char) : isSpace c = strchr whitespace c := rfl

/-- A character that continues a word: `!strchr(whitespace, c) && !strchr(symbols, c)`. -/
def isWordChar (c : Char) : Bool := !strchr whitespace c && !strchr symbols c

theorem isWordChar_eq (c : Char) : isWordChar c = (!strchr whitespace c && !strchr symbols c) := rfl

/-- The loops `while(s < es && p(*s)) s++;` of `gettoken` and `peek`. -/
def scan (p : Char → Bool) (line : List Char) (s : Nat) : Nat :=
  if h : s < line.length ∧ p (charAt line s) = true then scan p line (s + 1) else s
termination_by line.length - s

/-! ## `scan` -/

section Scan

variable {p : Char → Bool} {line : List Char} {s : Nat}

theorem charAt_of_length_le (h : line.length ≤ s) : charAt line s = '\x00' := by
  simp [charAt, List.getD_eq_getElem?_getD, List.getElem?_eq_none h]

/-- One turn of the loop. -/
theorem scan_eq (p : Char → Bool) (line : List Char) (s : Nat) :
    scan p line s =
      if s < line.length ∧ p (charAt line s) = true then scan p line (s + 1) else s := by
  rw [scan, dite_eq_ite]

theorem scan_eq_self (h : ¬(s < line.length ∧ p (charAt line s) = true)) : scan p line s = s := by
  rw [scan_eq, if_neg h]

theorem scan_succ (h : s < line.length ∧ p (charAt line s) = true) :
    scan p line s = scan p line (s + 1) := by
  rw [scan_eq, if_pos h]

/-- What the loop does: it moves forward, passes only characters `p` holds of, stops at the end of
the line or at a character `p` fails on, and does not run past the end. By induction along the
loop. -/
theorem scan_spec (p : Char → Bool) (line : List Char) (s : Nat) :
    s ≤ scan p line s ∧ (∀ k, s ≤ k → k < scan p line s → p (charAt line k) = true) ∧
      (line.length ≤ scan p line s ∨ p (charAt line (scan p line s)) = false) ∧
      (s ≤ line.length → scan p line s ≤ line.length) := by
  fun_induction scan p line s with
  | case1 s h ih =>
    obtain ⟨hle, hpass, hstop, hlen⟩ := ih
    refine ⟨by omega, fun k hk hk' => ?_, hstop, fun _ => hlen (by omega)⟩
    by_cases hks : k = s
    · exact hks ▸ h.2
    · exact hpass k (by omega) hk'
  | case2 s h =>
    refine ⟨le_refl s, fun k hk hk' => absurd hk' (by omega), ?_, id⟩
    by_cases hs : s < line.length
    · exact .inr (by simpa [hs] using h)
    · exact .inl (by omega)

theorem scan_le (p : Char → Bool) (line : List Char) (s : Nat) : s ≤ scan p line s :=
  (scan_spec p line s).1

/-- `scan` passes only characters `p` holds of. -/
theorem scan_passes {k : Nat} (hk : s ≤ k) (hk' : k < scan p line s) : p (charAt line k) = true :=
  (scan_spec p line s).2.1 k hk hk'

/-- `scan` stops at the end of the line or at a character `p` fails on. -/
theorem scan_stops (p : Char → Bool) (line : List Char) (s : Nat) :
    line.length ≤ scan p line s ∨ p (charAt line (scan p line s)) = false :=
  (scan_spec p line s).2.2.1

theorem scan_le_length (h : s ≤ line.length) : scan p line s ≤ line.length :=
  (scan_spec p line s).2.2.2 h

theorem scan_scan : scan p line (scan p line s) = scan p line s := by
  apply scan_eq_self
  rintro ⟨hlt, hp⟩
  rcases scan_stops p line s with h | h
  · omega
  · rw [h] at hp
    exact Bool.false_ne_true hp

end Scan

/-! ## `gettoken` and `peek` -/

/-- What `gettoken(ps, es, &q, &eq)` returns and leaves: the token `ret`, the token's start `*q`
and end `*eq`, and the new `*ps`, past the whitespace after it. -/
structure Token where
  ret : Char
  q : Nat
  eq : Nat
  next : Nat
  deriving Repr, DecidableEq

/-- `gettoken`: `0` at the terminator, a symbol, `+` for `>>`, or `a` for a word. -/
def gettoken (line : List Char) (s : Nat) : Token :=
  let s := scan isSpace line s
  let c := charAt line s
  let (ret, e) :=
    if c = '\x00' then (c, s)
    else if c ∈ ['|', '(', ')', ';', '&', '<'] then (c, s + 1)
    else if c = '>' then (if charAt line (s + 1) = '>' then ('+', s + 2) else ('>', s + 1))
    else ('a', scan isWordChar line s)
  ⟨ret, s, e, scan isSpace line e⟩

theorem gettoken_eq (line : List Char) (s : Nat) :
    gettoken line s =
      let s := scan isSpace line s
      let c := charAt line s
      let (ret, e) :=
        if c = '\x00' then (c, s)
        else if c ∈ ['|', '(', ')', ';', '&', '<'] then (c, s + 1)
        else if c = '>' then (if charAt line (s + 1) = '>' then ('+', s + 2) else ('>', s + 1))
        else ('a', scan isWordChar line s)
      ⟨ret, s, e, scan isSpace line e⟩ := rfl

/-- `peek(ps, es, toks)`: skip the whitespace, and say whether the next character is one of `toks`;
with the new `*ps`. -/
def peek (line : List Char) (s : Nat) (toks : List Char) : Bool × Nat :=
  let s := scan isSpace line s
  (charAt line s != '\x00' && strchr toks (charAt line s), s)

theorem peek_eq (line : List Char) (s : Nat) (toks : List Char) :
    peek line s toks =
      (charAt line (scan isSpace line s) != '\x00' &&
        strchr toks (charAt line (scan isSpace line s)), scan isSpace line s) := rfl

section Gettoken

variable {line : List Char} {s : Nat}

@[simp] theorem gettoken_q : (gettoken line s).q = scan isSpace line s := rfl

@[simp] theorem gettoken_next : (gettoken line s).next = scan isSpace line (gettoken line s).eq :=
  rfl

@[simp] theorem peek_snd (toks : List Char) : (peek line s toks).2 = scan isSpace line s := rfl

theorem peek_fst {toks : List Char} :
    (peek line s toks).1 = true ↔
      charAt line (scan isSpace line s) ≠ '\x00' ∧ charAt line (scan isSpace line s) ∈ toks := by
  simp [peek_eq, strchr_eq]

/-- `gettoken` reads the same token after the whitespace before it. -/
theorem gettoken_scan : gettoken line (scan isSpace line s) = gettoken line s := by
  simp only [gettoken_eq, scan_scan]

/-- The token of a character that is not the terminator: its kind, and where it ends. -/
theorem gettoken_of_ne {c : Char} (hc : charAt line (scan isSpace line s) = c) (h0 : c ≠ '\x00') :
    (c ∈ ['|', '(', ')', ';', '&', '<'] ∧ (gettoken line s).ret = c ∧
        (gettoken line s).eq = scan isSpace line s + 1) ∨
      (c = '>' ∧ charAt line (scan isSpace line s + 1) = '>' ∧ (gettoken line s).ret = '+' ∧
        (gettoken line s).eq = scan isSpace line s + 2) ∨
      (c = '>' ∧ charAt line (scan isSpace line s + 1) ≠ '>' ∧ (gettoken line s).ret = '>' ∧
        (gettoken line s).eq = scan isSpace line s + 1) ∨
      (c ∉ ['|', '(', ')', ';', '&', '<'] ∧ c ≠ '>' ∧ (gettoken line s).ret = 'a' ∧
        (gettoken line s).eq = scan isWordChar line (scan isSpace line s)) := by
  simp only [gettoken_eq, hc, if_neg h0]
  by_cases hsym : c ∈ ['|', '(', ')', ';', '&', '<']
  · exact .inl ⟨hsym, by simp [hsym], by simp [hsym]⟩
  · by_cases hgt : c = '>'
    · by_cases hgt2 : charAt line (scan isSpace line s + 1) = '>'
      · exact .inr (.inl ⟨hgt, hgt2, by simp [hgt, hgt2], by simp [hgt, hgt2]⟩)
      · exact .inr (.inr (.inl ⟨hgt, hgt2, by simp [hgt, hgt2], by simp [hgt, hgt2]⟩))
    · exact .inr (.inr (.inr ⟨hsym, hgt, by simp [hsym, hgt], by simp [hsym, hgt]⟩))

/-- At the terminator `gettoken` returns `0` and stays. -/
theorem gettoken_of_eq_zero (hc : charAt line (scan isSpace line s) = '\x00') :
    (gettoken line s).ret = '\x00' ∧ (gettoken line s).eq = scan isSpace line s := by
  simp [gettoken_eq, hc]

theorem gettoken_ret_eq_zero_iff :
    (gettoken line s).ret = '\x00' ↔ charAt line (scan isSpace line s) = '\x00' := by
  constructor
  · intro h
    by_contra hc
    rcases gettoken_of_ne rfl hc with ⟨-, hr, -⟩ | ⟨-, -, hr, -⟩ | ⟨-, -, hr, -⟩ | ⟨-, -, hr, -⟩ <;>
      rw [hr] at h
    · exact hc h
    all_goals exact absurd h (by decide)
  · exact fun hc => (gettoken_of_eq_zero hc).1

/-- A character that is not the terminator lies in the line. -/
theorem lt_length_of_charAt_ne {k : Nat} (h : charAt line k ≠ '\x00') : k < line.length := by
  by_contra hk
  exact h (charAt_of_length_le (Nat.le_of_not_lt hk))

/-- A token that is not the terminator takes at least one character of the line. -/
theorem gettoken_lt_eq (h : (gettoken line s).ret ≠ '\x00') :
    scan isSpace line s < (gettoken line s).eq ∧ scan isSpace line s < line.length := by
  have hc : charAt line (scan isSpace line s) ≠ '\x00' := fun hc => h (gettoken_ret_eq_zero_iff.mpr hc)
  have hlt := lt_length_of_charAt_ne hc
  refine ⟨?_, hlt⟩
  rcases gettoken_of_ne rfl hc with ⟨-, -, he⟩ | ⟨-, -, -, he⟩ | ⟨-, -, -, he⟩ | ⟨hsym, hgt, -, he⟩
  · omega
  · omega
  · omega
  · -- a word: its first character is neither whitespace nor a symbol
    have hspace : isSpace (charAt line (scan isSpace line s)) = false := by
      rcases scan_stops isSpace line s with h' | h'
      · omega
      · exact h'
    have hword : isWordChar (charAt line (scan isSpace line s)) = true := by
      simp only [isWordChar_eq, Bool.and_eq_true, Bool.not_eq_true']
      refine ⟨hspace, ?_⟩
      simp only [strchr_eq, symbols, List.contains_eq_mem, decide_eq_false_iff_not]
      simp only [List.mem_cons, List.not_mem_nil, or_false, not_or] at hsym ⊢
      exact ⟨hsym.2.2.2.2.2, hsym.1, hgt, hsym.2.2.2.2.1, hsym.2.2.2.1, hsym.2.1, hsym.2.2.1⟩
    rw [he, scan_succ ⟨hlt, hword⟩]
    exact Nat.lt_of_lt_of_le (Nat.lt_succ_self _) (scan_le _ _ _)

theorem le_gettoken_eq : scan isSpace line s ≤ (gettoken line s).eq := by
  by_cases h : (gettoken line s).ret = '\x00'
  · rw [(gettoken_of_eq_zero (gettoken_ret_eq_zero_iff.mp h)).2]
  · exact Nat.le_of_lt (gettoken_lt_eq h).1

theorem le_gettoken_next : s ≤ (gettoken line s).next := by
  calc s ≤ scan isSpace line s := scan_le _ _ _
    _ ≤ (gettoken line s).eq := le_gettoken_eq
    _ ≤ (gettoken line s).next := by rw [gettoken_next]; exact scan_le _ _ _

/-- A token that is not the terminator moves the position forward. -/
theorem gettoken_decreasing (h : (gettoken line s).ret ≠ '\x00') :
    line.length - (gettoken line s).next < line.length - s := by
  obtain ⟨heq, hlt⟩ := gettoken_lt_eq h
  have hs := scan_le isSpace line s
  have hnext : (gettoken line s).eq ≤ (gettoken line s).next := by
    rw [gettoken_next]
    exact scan_le _ _ _
  omega

/-- After `peek` finds one of its characters, the token there moves the position forward. -/
theorem peek_decreasing {toks : List Char} (h : (peek line s toks).1 = true) :
    line.length - (gettoken line (peek line s toks).2).next < line.length - s := by
  rw [peek_snd, gettoken_scan]
  refine gettoken_decreasing fun h0 => ?_
  exact (peek_fst.mp h).1 (gettoken_ret_eq_zero_iff.mp h0)

end Gettoken

/-! ## The line's tokens -/

/-- A token of the line: a symbol (`+` for `>>`), or a word from `q` to `eq`. -/
inductive Tok where
  | sym (c : Char)
  | word (q eq : Nat)
  deriving Repr, DecidableEq

/-- The token that `gettoken` read. -/
def Token.tok (t : Token) : Tok := if t.ret = 'a' then .word t.q t.eq else .sym t.ret

theorem Token.tok_eq (t : Token) : t.tok = if t.ret = 'a' then .word t.q t.eq else .sym t.ret := rfl

theorem Token.tok_of_ret_a {t : Token} (h : t.ret = 'a') : t.tok = .word t.q t.eq := by
  rw [Token.tok_eq, if_pos h]

theorem Token.tok_of_ret_ne_a {t : Token} (h : t.ret ≠ 'a') : t.tok = .sym t.ret := by
  rw [Token.tok_eq, if_neg h]

/-- The tokens of the line from `s`, as `gettoken` reads them one after the other up to the
terminator. -/
def tokens (line : List Char) (s : Nat) : List Tok :=
  if _h : (gettoken line s).ret = '\x00' then []
  else (gettoken line s).tok :: tokens line (gettoken line s).next
termination_by line.length - s
decreasing_by exact gettoken_decreasing _h

section Tokens

variable {line : List Char} {s : Nat}

/-- One token, then the rest. -/
theorem tokens_eq (line : List Char) (s : Nat) :
    tokens line s =
      if (gettoken line s).ret = '\x00' then []
      else (gettoken line s).tok :: tokens line (gettoken line s).next := by
  rw [tokens, dite_eq_ite]

theorem tokens_of_ne (h : (gettoken line s).ret ≠ '\x00') :
    tokens line s = (gettoken line s).tok :: tokens line (gettoken line s).next := by
  rw [tokens_eq, if_neg h]

theorem tokens_of_eq_zero (h : (gettoken line s).ret = '\x00') : tokens line s = [] := by
  rw [tokens_eq, if_pos h]

/-- Past the terminator there are no tokens. -/
theorem tokens_next_of_eq_zero (h : (gettoken line s).ret = '\x00') :
    tokens line (gettoken line s).next = [] := by
  have heq := (gettoken_of_eq_zero (gettoken_ret_eq_zero_iff.mp h)).2
  rw [gettoken_next, heq, scan_scan]
  exact tokens_of_eq_zero (by rwa [gettoken_scan])

theorem tokens_scan : tokens line (scan isSpace line s) = tokens line s := by
  by_cases h : (gettoken line s).ret = '\x00'
  · rw [tokens_of_eq_zero h, tokens_of_eq_zero (by rwa [gettoken_scan])]
  · rw [tokens_of_ne h, tokens_of_ne (by rwa [gettoken_scan]), gettoken_scan]

/-- After `peek` finds one of its characters, the tokens go on with the token there. -/
theorem tokens_of_peek {toks : List Char} (h : (peek line s toks).1 = true) :
    tokens line s = (gettoken line (peek line s toks).2).tok ::
      tokens line (gettoken line (peek line s toks).2).next := by
  rw [← tokens_scan, ← peek_snd toks]
  refine tokens_of_ne fun h0 => (peek_fst.mp h).1 ?_
  rw [peek_snd, gettoken_scan] at h0
  exact gettoken_ret_eq_zero_iff.mp h0

/-- The token after a `peek` that found `c`, one of the symbols `gettoken` returns as they are. -/
theorem tok_of_peek {toks : List Char} (h : (peek line s toks).1 = true) {c : Char}
    (hc : charAt line (peek line s toks).2 = c) (hsym : c ∈ ['|', '(', ')', ';', '&', '<']) :
    (gettoken line (peek line s toks).2).tok = .sym c := by
  have hc' : charAt line (scan isSpace line (peek line s toks).2) = c := by
    rw [peek_snd, scan_scan]
    exact hc
  have h0 : c ≠ '\x00' := hc ▸ (peek_fst.mp h).1
  rcases gettoken_of_ne hc' h0 with ⟨-, hr, -⟩ | ⟨hgt, -⟩ | ⟨hgt, -⟩ | ⟨hsym', -⟩
  · rw [Token.tok_eq, hr, if_neg (by rintro rfl; simp at hsym)]
  · simp [hgt] at hsym
  · simp [hgt] at hsym
  · exact absurd hsym hsym'

/-- After `peek` finds the symbol `c` it looked for alone, the tokens go on with `c`. -/
theorem tokens_of_peek_sym {c : Char} (h : (peek line s [c]).1 = true)
    (hsym : c ∈ ['|', '(', ')', ';', '&', '<']) :
    tokens line s = .sym c :: tokens line (gettoken line (peek line s [c]).2).next := by
  have hc : charAt line (peek line s [c]).2 = c := by
    simpa using (peek_fst.mp h).2
  rw [tokens_of_peek h, tok_of_peek h hc hsym]

/-- After `peek` finds `<` or `>`, the token there is a redirection's: `<`, `>`, or `+` for `>>`. -/
theorem redir_of_peek (h : (peek line s ['<', '>']).1 = true) :
    (gettoken line (peek line s ['<', '>']).2).ret ∈ ['<', '>', '+'] ∧
      (gettoken line (peek line s ['<', '>']).2).tok =
        .sym (gettoken line (peek line s ['<', '>']).2).ret := by
  obtain ⟨h0, hmem⟩ := peek_fst.mp h
  have hc : charAt line (scan isSpace line (peek line s ['<', '>']).2) =
      charAt line (scan isSpace line s) := by
    rw [peek_snd, scan_scan]
  have hop : (gettoken line (peek line s ['<', '>']).2).ret ∈ ['<', '>', '+'] := by
    rcases gettoken_of_ne hc h0 with ⟨-, hr, -⟩ | ⟨-, -, hr, -⟩ | ⟨-, -, hr, -⟩ | ⟨hsym, hgt, -⟩
    · rw [hr]
      simp only [List.mem_cons, List.not_mem_nil, or_false] at hmem ⊢
      rcases hmem with h' | h'
      · exact .inl h'
      · exact .inr (.inl h')
    · rw [hr]
      simp
    · rw [hr]
      simp
    · -- a word starts with neither `<` nor `>`
      simp only [List.mem_cons, List.not_mem_nil, or_false] at hmem
      rcases hmem with h' | h'
      · exact absurd (by simp [h']) hsym
      · exact absurd h' hgt
  refine ⟨hop, Token.tok_of_ret_ne_a fun ha => ?_⟩
  rw [ha] at hop
  simp at hop

/-- After `peek` finds nothing, the tokens go on from where it stopped. -/
theorem tokens_peek_snd (toks : List Char) : tokens line (peek line s toks).2 = tokens line s := by
  rw [peek_snd, tokens_scan]

end Tokens

/-! ## Words -/

/-- The characters from `q` to `eq` are a whole word of the line: word characters, with no word
character right before or right after them. -/
structure IsWord (line : List Char) (q eq : Nat) : Prop where
  lt : q < eq
  le_length : eq ≤ line.length
  chars : ∀ k, q ≤ k → k < eq → isWordChar (charAt line k) = true
  right : eq = line.length ∨ isWordChar (charAt line eq) = false
  left : q = 0 ∨ isWordChar (charAt line (q - 1)) = false

/-- A position where no word goes on: the start, the end, or a position with a character that is
not a word character on one side. -/
def Boundary (line : List Char) (s : Nat) : Prop :=
  s = 0 ∨ line.length ≤ s ∨ isWordChar (charAt line (s - 1)) = false ∨
    isWordChar (charAt line s) = false

theorem isWordChar_of_isSpace {c : Char} (h : isSpace c = true) : isWordChar c = false := by
  simp only [isSpace_eq] at h
  simp [isWordChar_eq, h]

theorem isWordChar_of_mem_symbols {c : Char} (h : c ∈ symbols) : isWordChar c = false := by
  simp [isWordChar_eq, strchr_eq, h]

/-- Whitespace makes a boundary after it. -/
theorem boundary_scan {s : Nat} {line : List Char} (h : Boundary line s) :
    Boundary line (scan isSpace line s) := by
  by_cases hs : scan isSpace line s = s
  · rw [hs]
    exact h
  · have hlt : s < scan isSpace line s := lt_of_le_of_ne (scan_le _ _ _) (Ne.symm hs)
    have hsp := scan_passes (Nat.le_sub_one_of_lt hlt) (Nat.sub_one_lt_of_lt hlt)
    exact .inr (.inr (.inl (isWordChar_of_isSpace hsp)))

/-- A word that `gettoken` reads from a boundary is a whole word of the line, and it leaves a
boundary. -/
theorem gettoken_word {s : Nat} {line : List Char} (hb : Boundary line s)
    (h : (gettoken line s).ret = 'a') :
    IsWord line (gettoken line s).q (gettoken line s).eq := by
  have hb' := boundary_scan hb
  have h0 : (gettoken line s).ret ≠ '\x00' := by rw [h]; decide
  obtain ⟨hlt, hq⟩ := gettoken_lt_eq h0
  have hc : charAt line (scan isSpace line s) ≠ '\x00' := fun hc =>
    h0 (gettoken_ret_eq_zero_iff.mpr hc)
  rcases gettoken_of_ne rfl hc with ⟨hsym, hr, -⟩ | ⟨-, -, hr, -⟩ | ⟨-, -, hr, -⟩ | ⟨-, -, -, he⟩
  · rw [hr] at h
    rw [h] at hsym
    exact absurd hsym (by decide)
  · rw [hr] at h
    exact absurd h (by decide)
  · rw [hr] at h
    exact absurd h (by decide)
  · rw [gettoken_q]
    rw [he] at hlt ⊢
    refine ⟨hlt, scan_le_length (Nat.le_of_lt hq), fun k hk hk' => scan_passes hk hk', ?_, ?_⟩
    · rcases scan_stops isWordChar line (scan isSpace line s) with h' | h'
      · exact .inl (Nat.le_antisymm (scan_le_length (Nat.le_of_lt hq)) h')
      · exact .inr h'
    · -- the word's first character is a word character, so the boundary is before it
      have hfirst := scan_passes (le_refl _) hlt
      rcases hb' with h' | h' | h' | h'
      · exact .inl h'
      · omega
      · exact .inr h'
      · rw [hfirst] at h'
        exact absurd h' (by decide)

theorem boundary_gettoken {s : Nat} {line : List Char} (hb : Boundary line s) :
    Boundary line (gettoken line s).next := by
  rw [gettoken_next]
  refine boundary_scan ?_
  by_cases h0 : (gettoken line s).ret = '\x00'
  · rw [(gettoken_of_eq_zero (gettoken_ret_eq_zero_iff.mp h0)).2]
    exact boundary_scan hb
  · have hc : charAt line (scan isSpace line s) ≠ '\x00' := fun hc =>
      h0 (gettoken_ret_eq_zero_iff.mpr hc)
    have hlt := lt_length_of_charAt_ne hc
    -- after a symbol the character before it is that symbol, after a word the next one is not
    -- a word's
    have hsyms : ['|', '(', ')', ';', '&', '<'] ⊆ symbols := by decide
    have hgt_sym : '>' ∈ symbols := by decide
    rcases gettoken_of_ne rfl hc with ⟨hsym, -, he⟩ | ⟨hgt, hgt2, -, he⟩ | ⟨hgt, -, -, he⟩ |
        ⟨-, -, -, he⟩
    · rw [he]
      refine .inr (.inr (.inl ?_))
      rw [Nat.add_sub_cancel]
      exact isWordChar_of_mem_symbols (hsyms hsym)
    · rw [he]
      refine .inr (.inr (.inl ?_))
      rw [show scan isSpace line s + 2 - 1 = scan isSpace line s + 1 by omega, hgt2]
      exact isWordChar_of_mem_symbols hgt_sym
    · rw [he]
      refine .inr (.inr (.inl ?_))
      rw [Nat.add_sub_cancel, hgt]
      exact isWordChar_of_mem_symbols hgt_sym
    · rcases scan_stops isWordChar line (scan isSpace line s) with h' | h'
      · rw [he]
        exact .inr (.inl h')
      · rw [he]
        exact .inr (.inr (.inr h'))

/-- Every word among the tokens from a boundary is a whole word of the line. By induction along
`tokens`, the boundary carried from each token to the next. -/
theorem isWord_of_mem_tokens {line : List Char} {s : Nat} (hb : Boundary line s) {q eq : Nat}
    (h : Tok.word q eq ∈ tokens line s) : IsWord line q eq := by
  fun_induction tokens line s with
  | case1 s h0 => exact absurd h List.not_mem_nil
  | case2 s h0 ih =>
    rcases List.mem_cons.mp h with h | h
    · -- the word read here
      simp only [Token.tok_eq] at h
      split at h
      · rename_i ha
        obtain ⟨rfl, rfl⟩ := Tok.word.inj h
        exact gettoken_word hb ha
      · exact absurd h (by simp)
    · exact ih (boundary_gettoken hb) h

end Xv6.Sh
