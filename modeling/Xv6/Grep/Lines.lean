import Mathlib
import Xv6.Lib.Outcome
import Xv6.Grep.Match

/-!
# The lines `grep` prints

`grep(pattern, fd)` of `grep.c`, with `strchr` of `ulib.c`. `grep` reads into a buffer of
`BUFSIZE` bytes after the bytes it kept, puts a terminator after them, and passes each line ended
by a newline to `match`, writing out those that match with their newline. It then moves the bytes
after the last newline to the start of the buffer, or drops every byte when the buffer held no
newline at all.

`read` is a function of a source, asked for `BUFSIZE - m - 1` bytes, and the loop ends when it
returns none. The loop has no bound; it runs for at most `fuel` turns, and a loop that has not
ended by then is given no meaning (`ub`), as is a `read` that returns more than it was asked for.

On a file (`fileRead`), which returns the bytes asked for up to its end, `grep` prints exactly
the lines of the file that the pattern matches, in order (`grep_file`), when the file holds no
zero byte and no line of it is longer than the buffer can hold with its newline. The bytes after
the last newline are never printed.
-/

namespace Xv6.Grep

open Machine Pattern

/-- The byte `\n`. -/
def NL : UInt8 := 10

/-- `sizeof(buf)`. -/
def BUFSIZE : Nat := 1024

/-- `strchr(s, c)` of `ulib.c`: the offset of the first `c` in the C string at `s`. The bytes
given run to the terminator `grep` puts after what was read; a zero byte before it also ends the
string. -/
def strchr (c : UInt8) : List UInt8 → Option Nat
  | [] => none
  | b :: s => if b == 0 then none else if b == c then some 0 else (strchr c s).map (· + 1)

@[simp] theorem strchr_nil (c : UInt8) : strchr c [] = none := rfl

theorem strchr_cons (c b : UInt8) (s : List UInt8) :
    strchr c (b :: s) =
      if b == 0 then none else if b == c then some 0 else (strchr c s).map (· + 1) := rfl

theorem strchr_lt {c : UInt8} : ∀ {s : List UInt8} {q : Nat}, strchr c s = some q → q < s.length
  | [], _, h => by simp at h
  | b :: s, q, h => by
    rw [strchr_cons] at h
    split_ifs at h with h0 hc
    · cases h
      exact Nat.zero_lt_succ _
    · obtain ⟨q', hq', rfl⟩ := Option.map_eq_some_iff.mp h
      exact Nat.succ_lt_succ (strchr_lt hq')

/-- Where `strchr` stops: at the first `c`, none before it. -/
theorem strchr_eq_some {c : UInt8} :
    ∀ {s : List UInt8} {q : Nat}, strchr c s = some q →
      ∃ pre post, s = pre ++ c :: post ∧ pre.length = q ∧ c ∉ pre
  | [], _, h => by simp at h
  | b :: s, q, h => by
    rw [strchr_cons] at h
    split_ifs at h with h0 hc
    · cases h
      exact ⟨[], s, by rw [beq_iff_eq.mp hc]; rfl, rfl, List.not_mem_nil⟩
    · obtain ⟨q', hq', rfl⟩ := Option.map_eq_some_iff.mp h
      obtain ⟨pre, post, rfl, rfl, hpre⟩ := strchr_eq_some hq'
      have hbc : c ≠ b := fun hcb => hc (by rw [hcb, beq_self_eq_true])
      exact ⟨b :: pre, post, rfl, rfl, by simp [hbc, hpre]⟩

/-- With no zero byte to stop it, `strchr` finds nothing only when there is no `c`. -/
theorem strchr_eq_none {c : UInt8} (hc : c ≠ 0) :
    ∀ {s : List UInt8}, (0 : UInt8) ∉ s → strchr c s = none → c ∉ s
  | [], _, _ => List.not_mem_nil
  | b :: s, hnul, h => by
    have hb0 : b ≠ 0 := fun hb => hnul (hb ▸ List.mem_cons_self)
    rw [strchr_cons, if_neg (by simpa using hb0)] at h
    split_ifs at h with hbc
    rw [Option.map_eq_none_iff] at h
    have hs := strchr_eq_none hc (fun h0 => hnul (List.mem_cons_of_mem b h0)) h
    intro hmem
    rcases List.mem_cons.mp hmem with rfl | hmem
    · exact hbc (beq_self_eq_true _)
    · exact hs hmem

/-- The inner loop of `grep`, from `p` on: each line ended by a newline goes to `match`, and
those that match are written out with their newline. What was written, and the bytes from the
last `p`. -/
def scan (pattern : List UInt8) (p : List UInt8) : List UInt8 × List UInt8 :=
  match _h : strchr NL p with
  | none => ([], p)
  | some q =>
    -- `*q = 0` ends the line for `match`; it is written out with `*q = '\n'` back
    let out := if match' pattern (p.take q) then p.take q ++ [NL] else []
    let r := scan pattern (p.drop (q + 1))
    (out ++ r.1, r.2)
termination_by p.length
decreasing_by
  have := strchr_lt _h
  simp only [List.length_drop]
  omega

/-- A turn of `grep`'s loop after `read` put `chunk` after the bytes `pending` kept in the
buffer: the scan, then `if(p == buf) m = 0;` and the move of the bytes from `p` to the start. -/
def grepStep (pattern pending chunk : List UInt8) : List UInt8 × List UInt8 :=
  let buf := pending ++ chunk
  let r := scan pattern buf
  (r.1, if r.2.length = buf.length then [] else r.2)

theorem grepStep_eq (pattern pending chunk : List UInt8) :
    grepStep pattern pending chunk =
      ((scan pattern (pending ++ chunk)).1,
        if (scan pattern (pending ++ chunk)).2.length = (pending ++ chunk).length then []
        else (scan pattern (pending ++ chunk)).2) := rfl

/-- `grep(pattern, fd)`, reading with `read` from the source `src`; `pending` is what the buffer
keeps from the turn before. What it writes to the standard output. -/
def grepLoop {σ : Type} (read : σ → Nat → List UInt8 × σ) (pattern : List UInt8) :
    Nat → σ → List UInt8 → Outcome (List UInt8)
  | 0, _, _ => .ub
  | fuel + 1, src, pending => do
    let req := BUFSIZE - pending.length - 1
    let chunk := (read src req).1
    if chunk.isEmpty then pure []
    else if req < chunk.length then .ub
    else
      let r := grepStep pattern pending chunk
      let rest ← grepLoop read pattern fuel (read src req).2 r.2
      pure (r.1 ++ rest)

/-- `read` of a file from its offset: the bytes asked for, cut at the end of the file. -/
def fileRead (rest : List UInt8) (n : Nat) : List UInt8 × List UInt8 := (rest.take n, rest.drop n)

/-! ## The lines of a text -/

/-- The lines of a text from the partial line `cur` on, each the bytes before its newline, and
the bytes after the last newline. -/
def linesFrom (cur : List UInt8) : List UInt8 → List (List UInt8) × List UInt8
  | [] => ([], cur)
  | b :: bs => if b = NL then (cur :: (linesFrom [] bs).1, (linesFrom [] bs).2)
    else linesFrom (cur ++ [b]) bs

@[simp] theorem linesFrom_nil (cur : List UInt8) : linesFrom cur [] = ([], cur) := rfl

theorem linesFrom_cons (cur : List UInt8) (b : UInt8) (bs : List UInt8) :
    linesFrom cur (b :: bs) =
      if b = NL then (cur :: (linesFrom [] bs).1, (linesFrom [] bs).2)
      else linesFrom (cur ++ [b]) bs := rfl

/-- The lines of a text, and the bytes after its last newline. -/
def lines (text : List UInt8) : List (List UInt8) × List UInt8 := linesFrom [] text

theorem lines_eq (text : List UInt8) : lines text = linesFrom [] text := rfl

/-- What `grep` is to print of the lines `ls`: those the pattern matches, each with its
newline. -/
def printed (pattern : List UInt8) (ls : List (List UInt8)) : List UInt8 :=
  (ls.filter fun l => decide ((compile pattern).Matches l)).flatMap (· ++ [NL])

theorem printed_eq (pattern : List UInt8) (ls : List (List UInt8)) :
    printed pattern ls = (ls.filter fun l => decide ((compile pattern).Matches l)).flatMap (· ++ [NL]) :=
  rfl

section Lines

variable {cur x y : List UInt8}

/-- The lines of two texts one after the other: those of the first, then those of the second
from the first's last partial line. By induction on the first text. -/
theorem linesFrom_append (cur x y : List UInt8) :
    linesFrom cur (x ++ y) =
      ((linesFrom cur x).1 ++ (linesFrom (linesFrom cur x).2 y).1,
        (linesFrom (linesFrom cur x).2 y).2) := by
  induction x generalizing cur with
  | nil => simp
  | cons b x ih =>
    by_cases hb : b = NL
    · simp [linesFrom_cons, hb, ih]
    · simp [linesFrom_cons, hb, ih]

/-- A text with no newline only extends the partial line. -/
theorem linesFrom_of_not_mem (h : NL ∉ x) : linesFrom cur x = ([], cur ++ x) := by
  induction x generalizing cur with
  | nil => simp
  | cons b x ih =>
    have hb : b ≠ NL := fun hb => h (hb ▸ List.mem_cons_self)
    rw [linesFrom_cons, if_neg hb, ih (fun hx => h (List.mem_cons_of_mem b hx))]
    simp

/-- The bytes after the last newline hold no newline. -/
theorem linesFrom_tail_not_mem (hcur : NL ∉ cur) : NL ∉ (linesFrom cur x).2 := by
  induction x generalizing cur with
  | nil => exact hcur
  | cons b x ih =>
    rw [linesFrom_cons]
    split_ifs with hb
    · exact ih List.not_mem_nil
    · exact ih (by simp [hcur, Ne.symm hb])

/-- The bytes after the last newline are bytes of the partial line or of the text. -/
theorem mem_linesFrom_tail {b : UInt8} (h : b ∈ (linesFrom cur x).2) : b ∈ cur ∨ b ∈ x := by
  induction x generalizing cur with
  | nil => exact .inl h
  | cons d x ih =>
    rw [linesFrom_cons] at h
    split_ifs at h
    · rcases ih h with h | h
      · exact absurd h List.not_mem_nil
      · exact .inr (List.mem_cons_of_mem d h)
    · rcases ih h with h | h
      · rcases List.mem_append.mp h with h | h
        · exact .inl h
        · exact .inr (by simp [List.mem_singleton.mp h])
      · exact .inr (List.mem_cons_of_mem d h)

theorem linesFrom_tail_length (cur x : List UInt8) :
    (linesFrom cur x).2.length ≤ cur.length + x.length := by
  induction x generalizing cur with
  | nil => simp
  | cons b x ih =>
    rw [linesFrom_cons]
    split_ifs
    · have := ih []
      simp only [List.length_nil, List.length_cons] at this ⊢
      omega
    · have := ih (cur ++ [b])
      simp only [List.length_append, List.length_cons, List.length_nil] at this ⊢
      omega

/-- After a newline, the bytes after the last one are fewer than the text's. -/
theorem linesFrom_tail_lt (h : NL ∈ x) : (linesFrom cur x).2.length < x.length := by
  induction x generalizing cur with
  | nil => exact absurd h List.not_mem_nil
  | cons b x ih =>
    rw [linesFrom_cons]
    split_ifs with hb
    · have := linesFrom_tail_length [] x
      simp only [List.length_nil, List.length_cons] at this ⊢
      omega
    · have hx : NL ∈ x := (List.mem_cons.mp h).resolve_left (Ne.symm hb)
      have := @ih (cur ++ [b]) hx
      simp only [List.length_cons]
      omega

/-- A newline ahead ends a line that holds the whole partial line. -/
theorem exists_line_of_mem (h : NL ∈ x) : ∃ l ∈ (linesFrom cur x).1, cur.length ≤ l.length := by
  induction x generalizing cur with
  | nil => exact absurd h List.not_mem_nil
  | cons b x ih =>
    rw [linesFrom_cons]
    split_ifs with hb
    · exact ⟨cur, List.mem_cons_self, le_refl _⟩
    · have hx : NL ∈ x := (List.mem_cons.mp h).resolve_left (Ne.symm hb)
      obtain ⟨l, hl, hlen⟩ := @ih (cur ++ [b]) hx
      refine ⟨l, hl, ?_⟩
      simp only [List.length_append] at hlen
      omega

/-- From a partial line with no newline, the lines are those of the text it starts. -/
theorem linesFrom_eq_lines (hcur : NL ∉ cur) (y : List UInt8) : linesFrom cur y = lines (cur ++ y) := by
  rw [lines_eq, linesFrom_append, linesFrom_of_not_mem hcur]
  simp

/-- The lines of two texts, as `grep` sees them across two reads. -/
theorem lines_append (x y : List UInt8) :
    lines (x ++ y) = ((lines x).1 ++ (lines ((lines x).2 ++ y)).1, (lines ((lines x).2 ++ y)).2) := by
  have h := linesFrom_append [] x y
  rw [linesFrom_eq_lines (linesFrom_tail_not_mem List.not_mem_nil)] at h
  exact h

end Lines

theorem decide_matches (re w : List UInt8) : decide ((compile re).Matches w) = match' re w := by
  rw [Bool.eq_iff_iff, decide_eq_true_iff, match_iff]

theorem printed_cons (pattern l : List UInt8) (ls : List (List UInt8)) :
    printed pattern (l :: ls) =
      (if match' pattern l then l ++ [NL] else []) ++ printed pattern ls := by
  simp only [printed_eq]
  simp only [List.filter_cons, decide_matches]
  split <;> simp

theorem printed_append (pattern : List UInt8) (ls ls' : List (List UInt8)) :
    printed pattern (ls ++ ls') = printed pattern ls ++ printed pattern ls' := by
  simp [printed_eq, List.filter_append]

/-! ## What `grep` prints -/

/-- On a text with no zero byte, the inner loop writes the lines the pattern matches and stops
after the last newline. By induction along the lines, one `strchr` each. -/
theorem scan_spec (pattern : List UInt8) (p : List UInt8) (hnul : (0 : UInt8) ∉ p) :
    scan pattern p = (printed pattern (lines p).1, (lines p).2) := by
  rw [scan]
  split
  · rename_i hnone
    rw [lines_eq, linesFrom_of_not_mem (strchr_eq_none (by decide) hnul hnone)]
    rfl
  · rename_i q hq
    obtain ⟨pre, post, rfl, rfl, hpre⟩ := strchr_eq_some hq
    have hpost : (0 : UInt8) ∉ post := fun h => hnul (by simp [h])
    have htake : (pre ++ NL :: post).take pre.length = pre := by simp
    have hdrop : (pre ++ NL :: post).drop (pre.length + 1) = post := by simp
    -- the line before the newline, then the lines after it
    have hlines : lines (pre ++ NL :: post) = (pre :: (lines post).1, (lines post).2) := by
      rw [lines_eq, linesFrom_append, linesFrom_of_not_mem hpre, List.nil_append, linesFrom_cons,
        if_pos rfl]
      rfl
    rw [htake, hdrop, scan_spec pattern post hpost, hlines, printed_cons]
termination_by p.length
decreasing_by
  subst_vars
  simp only [List.length_append, List.length_cons]
  omega

section Step

variable {pattern pending chunk : List UInt8}

/-- A turn whose buffer holds a newline prints the buffer's lines that match and keeps the bytes
after the last newline. -/
theorem grepStep_of_mem (hnul : (0 : UInt8) ∉ pending ++ chunk) (h : NL ∈ pending ++ chunk) :
    grepStep pattern pending chunk =
      (printed pattern (lines (pending ++ chunk)).1, (lines (pending ++ chunk)).2) := by
  have hlt : (lines (pending ++ chunk)).2.length < (pending ++ chunk).length := linesFrom_tail_lt h
  simp only [grepStep_eq, scan_spec pattern _ hnul]
  rw [if_neg (Nat.ne_of_lt hlt)]

/-- A turn whose buffer holds no newline prints nothing and drops every byte. -/
theorem grepStep_of_not_mem (hnul : (0 : UInt8) ∉ pending ++ chunk) (h : NL ∉ pending ++ chunk) :
    grepStep pattern pending chunk = ([], []) := by
  simp only [grepStep_eq, scan_spec pattern _ hnul, lines_eq, linesFrom_of_not_mem h]
  simp [printed_eq]

end Step

/-- `grep` on the rest `rem` of a file, with `pending` kept in the buffer: it prints the lines of
`pending ++ rem` that match. The invariant carried from turn to turn: the kept bytes start a line
and fit the buffer; the file has no zero byte and no line too long for the buffer. By induction on
the fuel, one read per turn. -/
theorem grepLoop_file (pattern : List UInt8) :
    ∀ (fuel : Nat) (pending rem : List UInt8), NL ∉ pending → pending.length < BUFSIZE - 1 →
      (0 : UInt8) ∉ pending ++ rem → (∀ l ∈ (lines (pending ++ rem)).1, l.length < BUFSIZE - 1) →
      rem.length < fuel →
      grepLoop fileRead pattern fuel rem pending = .ok (printed pattern (lines (pending ++ rem)).1)
  | 0, _, _, _, _, _, _, hfuel => absurd hfuel (Nat.not_lt_zero _)
  | fuel + 1, pending, rem, hnl, hlen, hnul, hlong, hfuel => by
    rw [grepLoop]
    simp only [fileRead]
    set req := BUFSIZE - pending.length - 1 with hreq
    have hreq_pos : 0 < req := by omega
    by_cases hrem : rem = []
    · -- the end of the file: the kept bytes end no line
      subst hrem
      simp only [List.take_nil, List.isEmpty_nil, if_true, List.append_nil]
      rw [lines_eq, linesFrom_of_not_mem hnl]
      rfl
    have hchunk : (rem.take req).isEmpty = false := by
      cases rem with
      | nil => exact absurd rfl hrem
      | cons b rem =>
        simp only [List.isEmpty_eq_false_iff, ne_eq, List.take_eq_nil_iff, reduceCtorEq, or_false]
        omega
    have hle : ¬req < (rem.take req).length := Nat.not_lt.mpr (List.length_take_le _ _)
    simp only [hchunk, Bool.false_eq_true, if_false, hle]
    have hdata : pending ++ rem = (pending ++ rem.take req) ++ rem.drop req := by simp
    have hnul' : (0 : UInt8) ∉ pending ++ rem.take req := fun h =>
      hnul (hdata ▸ List.mem_append_left _ h)
    have hfuel' : (rem.drop req).length < fuel := by
      have hne : 0 < rem.length := List.length_pos_iff.mpr hrem
      simp only [List.length_drop]
      omega
    by_cases hmem : NL ∈ pending ++ rem.take req
    · -- a newline in the buffer: its lines are printed, the rest kept for the next turn
      rw [grepStep_of_mem hnul' hmem]
      have hsplit := lines_append (pending ++ rem.take req) (rem.drop req)
      rw [← hdata] at hsplit
      have hkept : (lines (pending ++ rem.take req)).2.length < BUFSIZE - 1 := by
        have : (linesFrom [] (pending ++ rem.take req)).2.length < (pending ++ rem.take req).length :=
          linesFrom_tail_lt hmem
        have htake := List.length_take_le req rem
        simp only [List.length_append] at this
        simp only [lines_eq]
        omega
      have hnul'' : (0 : UInt8) ∉ (lines (pending ++ rem.take req)).2 ++ rem.drop req := by
        intro h
        rcases List.mem_append.mp h with h | h
        · rcases mem_linesFrom_tail h with h | h
          · exact absurd h List.not_mem_nil
          · exact hnul' h
        · exact hnul (hdata ▸ List.mem_append_right _ h)
      have ih := grepLoop_file pattern fuel (lines (pending ++ rem.take req)).2 (rem.drop req)
        (linesFrom_tail_not_mem List.not_mem_nil) hkept hnul''
        (fun l hl => hlong l (by rw [hsplit]; exact List.mem_append_right _ hl)) hfuel'
      rw [ih, hsplit, printed_append]
      rfl
    · -- no newline in the buffer: nothing is printed, and no newline is left in the file
      rw [grepStep_of_not_mem hnul' hmem]
      have hnone : NL ∉ pending ++ rem := by
        intro hin
        by_cases hfull : req ≤ rem.length
        · -- a full buffer with no newline would start a line too long for it
          have hdrop : NL ∈ rem.drop req := by
            rw [hdata] at hin
            rcases List.mem_append.mp hin with h | h
            · exact absurd h hmem
            · exact h
          obtain ⟨l, hl, hllen⟩ : ∃ l ∈ (linesFrom (pending ++ rem.take req) (rem.drop req)).1,
              (pending ++ rem.take req).length ≤ l.length := exists_line_of_mem hdrop
          rw [linesFrom_eq_lines hmem, ← hdata] at hl
          have := hlong l hl
          simp only [List.length_append, List.length_take] at hllen
          omega
        · rw [List.take_of_length_le (by omega)] at hmem
          exact hmem hin
      have hnone' : NL ∉ [] ++ rem.drop req := fun h =>
        hnone (hdata ▸ List.mem_append_right _ (by simpa using h))
      have ih := grepLoop_file pattern fuel [] (rem.drop req) List.not_mem_nil (by decide)
        (fun h => hnul (hdata ▸ List.mem_append_right _ (by simpa using h)))
        (fun l hl => by rw [lines_eq, linesFrom_of_not_mem hnone'] at hl; exact absurd hl List.not_mem_nil)
        hfuel'
      rw [ih, lines_eq, linesFrom_of_not_mem hnone', lines_eq, linesFrom_of_not_mem hnone]
      rfl

/-- `grep` on a file with no zero byte, each of whose lines fits the buffer with its newline,
prints exactly the lines the pattern matches, in order, each with its newline; the bytes after the
last newline are not printed. Fuel for one turn per byte is enough. -/
theorem grep_file (pattern text : List UInt8) (hnul : (0 : UInt8) ∉ text)
    (hlong : ∀ l ∈ (lines text).1, l.length < BUFSIZE - 1) (fuel : Nat) (hfuel : text.length < fuel) :
    grepLoop fileRead pattern fuel text [] = .ok (printed pattern (lines text).1) :=
  grepLoop_file pattern fuel [] text List.not_mem_nil (by decide) hnul hlong hfuel

theorem grep_file_ab :
    (0 : UInt8) ∉ [97, 98, 10, 99, 10] ∧
    (∀ l ∈ (lines [97, 98, 10, 99, 10]).1, l.length < BUFSIZE - 1) ∧
    grepLoop fileRead [97, 42, 98] 6 [97, 98, 10, 99, 10] [] =
      .ok (printed [97, 42, 98] (lines [97, 98, 10, 99, 10]).1) :=
  ⟨by decide, by decide, grep_file [97, 42, 98] [97, 98, 10, 99, 10] (by decide) (by decide) 6 (by decide)⟩

end Xv6.Grep
