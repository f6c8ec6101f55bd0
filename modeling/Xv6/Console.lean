import Mathlib
import Xv6.Lib.Ring

/-!
# The console's line discipline

`input`, `consoleintr` and `consoleread` of `console.c`. The input buffer is a ring of
`INPUT_BUF` bytes over three `uint` indices that wrap at `2 ^ 32`: the bytes from `r` to `w` are
committed lines not yet read, and those from `w` to `e` are the line being edited
(`Machine.ringContents`). A batch of keystrokes runs under `cons.lock`, and so does a read up to
the point where it sleeps for more input or returns; those runs are the steps of `Console`, any
number of readers taking turns with batches of keystrokes in any order.

The abstract model is a line editor, `Editor`: the committed bytes not yet read, the line being
edited, and for the record every byte committed (`typed`) and every byte taken by a read
(`taken`). A keystroke edits or commits the line (`Editor.key`), and a read takes bytes from the
front of the committed ones up to a newline, a `^D` or the count asked for (`Editor.readLoop`).
`Represents` relates the ring to the editor; each keystroke (`Represents.key`) and each run of a
read (`readLoop_represents`) keep it, and the run ends as the editor's read does. `run_sim` lifts
this to every run of the console, so that from boot (`console_line_discipline`) the indices keep
`r ≤ w ≤ e ≤ r + INPUT_BUF` as unsigned differences, every call returns what the editor's returns,
and what the reads take is exactly what was committed, in order (`Editor.Wf`).
-/

namespace Xv6.Console

open Machine

/-- `INPUT_BUF`, the size of the input ring. -/
def INPUT_BUF : Nat := 128

instance : NeZero INPUT_BUF := ⟨by decide⟩

theorem INPUT_BUF_dvd : INPUT_BUF ∣ 2 ^ 32 := ⟨2 ^ 25, by decide⟩

/-- `C(x)`: the byte that control-`x` sends. -/
def C (x : Char) : UInt8 := UInt8.ofNat (x.toNat - '@'.toNat)

/-- `input`: the ring and its read, write and edit indices. -/
structure Input where
  /-- The ring of bytes. -/
  buf : Vector UInt8 INPUT_BUF
  /-- Read index. -/
  r : UInt32
  /-- Write index: the end of the committed bytes. -/
  w : UInt32
  /-- Edit index: the end of the line being edited. -/
  e : UInt32

/-- The `while` loop of the kill-line case, for at most `fuel` turns: erase back to `w` or to the
byte after a newline. `consoleintr` gives it `e - w` turns, and each turn moves `e` one byte
closer to `w`, so the turns are enough (`killLine_eq`). -/
def killLine (input : Input) : Nat → Input
  | 0 => input
  | fuel + 1 =>
    if input.e ≠ input.w ∧ input.buf.get (ringSlot INPUT_BUF (input.e - 1).toNat) ≠ '\n'.toUInt8 then
      killLine { input with e := input.e - 1 } fuel
    else input

/-- One keystroke `c` of `consoleintr`'s loop. `procdump` is commented out, so `^P` does
nothing. -/
def intrKey (input : Input) (c : UInt8) : Input :=
  if c = C 'P' then input
  else if c = C 'U' then killLine input (input.e - input.w).toNat
  else if c = C 'H' ∨ c = 0x7f then
    if input.e ≠ input.w then { input with e := input.e - 1 } else input
  else if c ≠ 0 ∧ (input.e - input.r).toNat < INPUT_BUF then
    let c := if c = '\r'.toUInt8 then '\n'.toUInt8 else c
    let input :=
      { input with
        buf := input.buf.set (ringSlot INPUT_BUF input.e.toNat) c
          (ringSlot INPUT_BUF input.e.toNat).isLt
        e := input.e + 1 }
    -- a newline, a `^D` or a full ring commits the line
    if c = '\n'.toUInt8 ∨ c = C 'D' ∨ input.e = input.r + UInt32.ofNat INPUT_BUF then
      { input with w := input.e }
    else input
  else input

/-- `consoleintr`: the keystrokes that `getc` returns, in turn. -/
def consoleintr (input : Input) (keys : List UInt8) : Input :=
  keys.foldl intrKey input

/-- How a run of `consoleread` ends. -/
inductive ReadEnd where
  /-- The call returns `target - n`, having put the bytes `got` in `dst`. -/
  | done (n : Nat) (got : List UInt8)
  /-- The process was killed while the ring was empty: the call returns `-1`, with the bytes
  `got` in `dst`. -/
  | killed (got : List UInt8)
  /-- The ring is empty: the call sleeps on `&input.r`, `n` bytes still to read. -/
  | sleep (n : Nat) (got : List UInt8)
  deriving DecidableEq, Repr

/-- The loop of `consoleread` for a call of `target` bytes, `n` still to read and `got` in `dst`,
until it returns or sleeps. `killed` is the process's flag, read while the ring is empty. -/
def readLoop (killed : Bool) (target : Nat) (input : Input) : Nat → List UInt8 → Input × ReadEnd
  | 0, got => (input, .done 0 got)
  | n + 1, got =>
    if input.r = input.w then
      if killed then (input, .killed got) else (input, .sleep (n + 1) got)
    else
      let c := input.buf.get (ringSlot INPUT_BUF input.r.toNat)
      let input := { input with r := input.r + 1 }
      if c = C 'D' then
        -- save `^D` for next time, so that the caller gets a 0-byte result
        if n + 1 < target then ({ input with r := input.r - 1 }, .done (n + 1) got)
        else (input, .done (n + 1) got)
      else if c = '\n'.toUInt8 then (input, .done n (got ++ [c]))
      else readLoop killed target input n (got ++ [c])

/-- How a run of a read leaves its call: the bytes in `dst` and the bytes still to read make up
the count asked for, so that `target - n` is the number of bytes in `dst`. -/
def ReadEnd.Counts (target : Nat) : ReadEnd → Prop
  | .done m got => got.length + m = target
  | .killed _ => True
  | .sleep m got => got.length + m = target

/-- Each byte `consoleread` puts in `dst` takes one from `n`. -/
theorem readLoop_counts {killed : Bool} {target n : Nat} {input : Input} {got : List UInt8}
    (h : got.length + n = target) : (readLoop killed target input n got).2.Counts target := by
  induction n generalizing input got with
  | zero => exact h
  | succ n ih =>
    unfold readLoop
    dsimp only
    split_ifs
    · trivial
    · exact h
    · exact h
    · exact h
    · show (got ++ _).length + n = target
      rw [List.length_append, List.length_singleton]
      omega
    · apply ih
      rw [List.length_append, List.length_singleton]
      omega

/-! ## The line editor -/

/-- What `consoleintr` does with a keystroke: nothing, erase the line, erase a byte, or add a
byte, with `'\r'` added as a newline. -/
inductive Action where
  | none
  | kill
  | erase
  | insert (c : UInt8)
  deriving DecidableEq, Repr

/-- The action of keystroke `c`, in the order of `consoleintr`'s `switch`. -/
def action (c : UInt8) : Action :=
  if c = C 'P' then .none
  else if c = C 'U' then .kill
  else if c = C 'H' ∨ c = 0x7f then .erase
  else if c ≠ 0 then .insert (if c = '\r'.toUInt8 then '\n'.toUInt8 else c)
  else .none

/-- A byte that commits the line it ends. -/
def commits (c : UInt8) : Prop := c = '\n'.toUInt8 ∨ c = C 'D'

instance (c : UInt8) : Decidable (commits c) := inferInstanceAs (Decidable (_ ∨ _))

/-- What the console is for: committed bytes waiting for a reader, the line being edited, and
the record of every byte committed and every byte taken by a read. -/
structure Editor where
  /-- Committed bytes not yet read, oldest first. -/
  unread : List UInt8
  /-- The line being edited. -/
  line : List UInt8
  /-- Every byte committed so far, in order. -/
  typed : List UInt8
  /-- Every byte taken by a read so far, in order: the bytes delivered, and each `^D` that ended
  a read of no bytes. -/
  taken : List UInt8

namespace Editor

/-- A keystroke: `^U` erases the line, backspace its last byte, and a byte is added to the line
while the console holds fewer than `INPUT_BUF` bytes; a newline, a `^D` or a full console commits
the line. -/
def key (ed : Editor) (c : UInt8) : Editor :=
  match action c with
  | .none => ed
  | .kill => { ed with line := [] }
  | .erase => { ed with line := ed.line.dropLast }
  | .insert c =>
    if ed.unread.length + ed.line.length < INPUT_BUF then
      let line := ed.line ++ [c]
      if commits c ∨ ed.unread.length + line.length = INPUT_BUF then
        { ed with unread := ed.unread ++ line, line := [], typed := ed.typed ++ line }
      else { ed with line }
    else ed

/-- A batch of keystrokes. -/
def keys (ed : Editor) (cs : List UInt8) : Editor :=
  cs.foldl key ed

/-- A read of `target` bytes, `n` still to read and `got` delivered, until it ends or waits for
input: it takes committed bytes up to and including a newline, or `n` of them; a `^D` ends it,
and is taken only when it starts the read. -/
def readLoop (killed : Bool) (target : Nat) (ed : Editor) : Nat → List UInt8 → Editor × ReadEnd
  | 0, got => (ed, .done 0 got)
  | n + 1, got =>
    match ed.unread with
    | [] => if killed then (ed, .killed got) else (ed, .sleep (n + 1) got)
    | c :: rest =>
      if c = C 'D' then
        if n + 1 < target then (ed, .done (n + 1) got)
        else ({ ed with unread := rest, taken := ed.taken ++ [c] }, .done (n + 1) got)
      else if c = '\n'.toUInt8 then
        ({ ed with unread := rest, taken := ed.taken ++ [c] }, .done n (got ++ [c]))
      else readLoop killed target { ed with unread := rest, taken := ed.taken ++ [c] } n (got ++ [c])

/-- The editor keeps its record: the line being edited has no newline and no `^D`, which would
have committed it, and the bytes committed are those taken followed by those not yet read. -/
structure Wf (ed : Editor) : Prop where
  /-- No newline in the line being edited. -/
  no_newline : '\n'.toUInt8 ∉ ed.line
  /-- No `^D` in the line being edited. -/
  no_eof : C 'D' ∉ ed.line
  /-- Every byte committed is taken or waiting, in order. -/
  conserves : ed.typed = ed.taken ++ ed.unread

/-- Each keystroke keeps the record. -/
theorem Wf.key {ed : Editor} (h : ed.Wf) (c : UInt8) : (ed.key c).Wf := by
  unfold Editor.key
  cases action c with
  | none => exact h
  | kill => exact ⟨List.not_mem_nil, List.not_mem_nil, h.conserves⟩
  | erase =>
    exact ⟨fun hm => h.no_newline (List.mem_of_mem_dropLast hm),
      fun hm => h.no_eof (List.mem_of_mem_dropLast hm), h.conserves⟩
  | insert c =>
    dsimp only
    split_ifs with hroom hcommit
    · -- the line is committed: it moves to the end of the committed bytes
      refine ⟨List.not_mem_nil, List.not_mem_nil, ?_⟩
      rw [h.conserves, List.append_assoc]
    · -- the byte is neither a newline nor a `^D`, or it would have committed the line
      simp only [commits, not_or] at hcommit
      refine ⟨fun hm => ?_, fun hm => ?_, h.conserves⟩
      · rcases List.mem_append.mp hm with hm | hm
        · exact h.no_newline hm
        · exact hcommit.1.1 (List.mem_singleton.mp hm).symm
      · rcases List.mem_append.mp hm with hm | hm
        · exact h.no_eof hm
        · exact hcommit.1.2 (List.mem_singleton.mp hm).symm
    · exact h

theorem Wf.keys {ed : Editor} (h : ed.Wf) (cs : List UInt8) : (ed.keys cs).Wf := by
  induction cs generalizing ed with
  | nil => exact h
  | cons c cs ih => exact ih (Wf.key h c)

/-- A read takes bytes from the front of the committed ones, and records them: the bytes `d` it
takes are those it delivers, and the `^D` that ends a read of no bytes. -/
theorem readLoop_taken {killed : Bool} {target n : Nat} {ed ed' : Editor} {got : List UInt8}
    {fin : ReadEnd} (h : readLoop killed target ed n got = (ed', fin)) :
    ∃ d, ed.unread = d ++ ed'.unread ∧ ed'.taken = ed.taken ++ d ∧ ed'.line = ed.line ∧
      ed'.typed = ed.typed := by
  induction n generalizing ed got with
  | zero =>
    cases h
    exact ⟨[], rfl, (List.append_nil _).symm, rfl, rfl⟩
  | succ n ih =>
    unfold readLoop at h
    split at h
    · -- nothing committed: the read returns or sleeps, taking nothing
      split at h <;> cases h <;> exact ⟨[], rfl, (List.append_nil _).symm, rfl, rfl⟩
    · rename_i c rest hun
      split_ifs at h with hD hpush hnl
      · cases h
        exact ⟨[], rfl, (List.append_nil _).symm, rfl, rfl⟩
      · cases h
        exact ⟨[c], hun, rfl, rfl, rfl⟩
      · cases h
        exact ⟨[c], hun, rfl, rfl, rfl⟩
      · -- a byte delivered, and the loop goes on
        obtain ⟨d, hd, ht, hl, hty⟩ := ih h
        refine ⟨c :: d, ?_, ?_, hl, hty⟩
        · rw [hun, List.cons_append, ← hd]
        · rw [ht, List.append_assoc, List.singleton_append]

/-- Each run of a read keeps the record. -/
theorem Wf.readLoop {killed : Bool} {target n : Nat} {ed ed' : Editor} {got : List UInt8}
    {fin : ReadEnd} (hwf : ed.Wf) (h : Editor.readLoop killed target ed n got = (ed', fin)) :
    ed'.Wf := by
  obtain ⟨d, hd, ht, hl, hty⟩ := readLoop_taken h
  refine ⟨hl ▸ hwf.no_newline, hl ▸ hwf.no_eof, ?_⟩
  rw [hty, ht, hwf.conserves, hd, List.append_assoc]

end Editor

/-! ## The ring refines the editor -/

/-- `intrKey` by the action of its keystroke. -/
theorem intrKey_eq (input : Input) (c : UInt8) : intrKey input c =
    match action c with
    | .none => input
    | .kill => killLine input (input.e - input.w).toNat
    | .erase => if input.e ≠ input.w then { input with e := input.e - 1 } else input
    | .insert c =>
      if (input.e - input.r).toNat < INPUT_BUF then
        if commits c ∨ input.e + 1 = input.r + UInt32.ofNat INPUT_BUF then
          { input with
            buf := input.buf.set (ringSlot INPUT_BUF input.e.toNat) c
              (ringSlot INPUT_BUF input.e.toNat).isLt
            e := input.e + 1, w := input.e + 1 }
        else
          { input with
            buf := input.buf.set (ringSlot INPUT_BUF input.e.toNat) c
              (ringSlot INPUT_BUF input.e.toNat).isLt
            e := input.e + 1 }
      else input := by
  unfold intrKey action
  split_ifs <;> simp_all [commits, or_assoc]

/-- The ring holds the editor's bytes: the committed bytes not yet read from `r` to `w`, and the
line being edited from `w` to `e`, within `INPUT_BUF` bytes of `r`. -/
structure Represents (input : Input) (ed : Editor) : Prop where
  /-- `w` lies between `r` and `e`. -/
  between : ringCount input.r input.w ≤ ringCount input.r input.e
  /-- The ring holds at most `INPUT_BUF` bytes. -/
  bounded : ringCount input.r input.e ≤ INPUT_BUF
  /-- The committed bytes not yet read. -/
  unread : ringContents input.buf input.r input.w = ed.unread
  /-- The line being edited. -/
  line : ringContents input.buf input.w input.e = ed.line

section Represents

variable {input : Input} {ed : Editor}

theorem Represents.count (hR : Represents input ed) :
    ringCount input.r input.e = ed.unread.length + ed.line.length := by
  rw [← hR.unread, ← hR.line, length_ringContents, length_ringContents, ringCount_split hR.between]

/-- The kill-line loop erases the whole line, which has no newline: its fuel `e - w` is the
number of bytes of the line, one for each turn. -/
theorem killLine_eq (hle : ringCount input.w input.e ≤ INPUT_BUF)
    (hline : '\n'.toUInt8 ∉ ringContents input.buf input.w input.e) :
    killLine input (input.e - input.w).toNat = { input with e := input.w } := by
  generalize hk : (input.e - input.w).toNat = k
  induction k generalizing input with
  | zero =>
    have he : input.w = input.e := ringCount_eq_zero.mp hk
    rw [killLine]
    cases input
    simp only at he ⊢
    rw [he]
  | succ k ih =>
    have hne : ringCount input.w input.e ≠ 0 := by
      show (input.e - input.w).toNat ≠ 0
      omega
    -- the byte before `e` is the last of the line
    have hlast := ringContents_last INPUT_BUF_dvd (by decide) input.buf hne hle
    have hnl : input.buf.get (ringSlot INPUT_BUF (input.e - 1).toNat) ≠ '\n'.toUInt8 := by
      intro h
      rw [hlast, h] at hline
      exact hline (List.mem_append_right _ (List.mem_singleton_self _))
    have hew : input.e ≠ input.w := fun h => hne (ringCount_eq_zero.mpr h.symm)
    rw [killLine, if_pos ⟨hew, hnl⟩]
    apply ih
    · show ringCount input.w (input.e - 1) ≤ INPUT_BUF
      rw [ringCount_unput hne]
      omega
    · show '\n'.toUInt8 ∉ ringContents input.buf input.w (input.e - 1)
      rw [hlast] at hline
      exact fun h => hline (List.mem_append_left _ h)
    · show ringCount input.w (input.e - 1) = k
      rw [ringCount_unput hne]
      show (input.e - input.w).toNat - 1 = k
      omega

/-- Erasing the line. -/
theorem Represents.kill (hR : Represents input ed) :
    Represents { input with e := input.w } { ed with line := [] } where
  between := Nat.le_refl _
  bounded := hR.between.trans hR.bounded
  unread := hR.unread
  line := ringContents_self _ _

/-- Erasing the last byte of a line that is not empty. -/
theorem Represents.erase (hR : Represents input ed) (hne : input.e ≠ input.w) :
    Represents { input with e := input.e - 1 } { ed with line := ed.line.dropLast } := by
  have hline : ringCount input.w input.e ≠ 0 := fun h => hne (ringCount_eq_zero.mp h).symm
  have hsplit := ringCount_split hR.between
  have hcount : ringCount input.r (input.e - 1) = ringCount input.r input.e - 1 :=
    ringCount_unput (by omega)
  refine ⟨?_, ?_, hR.unread, ?_⟩
  · show ringCount input.r input.w ≤ ringCount input.r (input.e - 1)
    omega
  · show ringCount input.r (input.e - 1) ≤ INPUT_BUF
    have := hR.bounded
    omega
  · show ringContents input.buf input.w (input.e - 1) = ed.line.dropLast
    rw [ringContents_unput _ hline, hR.line]

/-- A byte put at `e` of a ring with room for it extends the line. -/
theorem Represents.put (hR : Represents input ed) (hroom : ringCount input.r input.e < INPUT_BUF)
    (c : UInt8) :
    Represents
      { input with
        buf := input.buf.set (ringSlot INPUT_BUF input.e.toNat) c
          (ringSlot INPUT_BUF input.e.toNat).isLt
        e := input.e + 1 }
      { ed with line := ed.line ++ [c] } := by
  have hcount : ringCount input.r (input.e + 1) = ringCount input.r input.e + 1 :=
    ringCount_put (by unfold INPUT_BUF at hroom; omega)
  have hbetween : ringCount input.r input.w ≤ ringCount input.r (input.e + 1) := by
    have := hR.between
    omega
  -- the ring from `r` is the committed bytes, the line and `c`; split it again at `w`
  have hput := ringContents_put INPUT_BUF_dvd (by decide) input.buf hroom c
  rw [ringContents_split INPUT_BUF_dvd _ hbetween, ringContents_split INPUT_BUF_dvd _ hR.between,
    hR.unread, hR.line, List.append_assoc] at hput
  obtain ⟨hunread, hline⟩ := List.append_inj hput (by rw [length_ringContents, ← hR.unread,
    length_ringContents])
  refine ⟨hbetween, ?_, hunread, hline⟩
  show ringCount input.r (input.e + 1) ≤ INPUT_BUF
  omega

/-- Committing the line: `w` moves up to `e`. -/
theorem Represents.commit (hR : Represents input ed) :
    Represents { input with w := input.e }
      { ed with unread := ed.unread ++ ed.line, line := [], typed := ed.typed ++ ed.line } where
  between := Nat.le_refl _
  bounded := hR.bounded
  unread := by
    show ringContents input.buf input.r input.e = ed.unread ++ ed.line
    rw [ringContents_split INPUT_BUF_dvd _ hR.between, hR.unread, hR.line]
  line := ringContents_self _ _

/-- The full-ring test of `consoleintr`, after `e` has moved, is the editor's: the console
holds `INPUT_BUF` bytes with the new one. -/
theorem Represents.full_iff (hR : Represents input ed) (hroom : ringCount input.r input.e < INPUT_BUF)
    (c : UInt8) :
    input.e + 1 = input.r + UInt32.ofNat INPUT_BUF ↔
      ed.unread.length + (ed.line ++ [c]).length = INPUT_BUF := by
  have hcount : ringCount input.r (input.e + 1) = ringCount input.r input.e + 1 :=
    ringCount_put (by unfold INPUT_BUF at hroom; omega)
  rw [← ringCount_eq_iff (by decide), hcount, hR.count, List.length_append, List.length_singleton,
    Nat.add_assoc]

/-- Each keystroke keeps the ring in step with the editor. -/
theorem Represents.key (hR : Represents input ed) (hwf : ed.Wf) (c : UInt8) :
    Represents (intrKey input c) (ed.key c) := by
  rw [intrKey_eq]
  unfold Editor.key
  cases action c with
  | none => exact hR
  | kill =>
    have hle : ringCount input.w input.e ≤ INPUT_BUF := by
      have := hR.bounded
      rw [ringCount_split hR.between] at this
      omega
    rw [killLine_eq hle (hR.line ▸ hwf.no_newline)]
    exact hR.kill
  | erase =>
    dsimp only
    split_ifs with hne
    · exact hR.erase hne
    · -- `e = w`: the line is empty already
      have hnil : ed.line = [] := by rw [← hR.line, not_not.mp hne, ringContents_self]
      refine ⟨hR.between, hR.bounded, hR.unread, ?_⟩
      rw [hR.line, hnil]
      rfl
  | insert c =>
    dsimp only
    have hcount := hR.count
    by_cases hroom : ringCount input.r input.e < INPUT_BUF
    · have hroom' : (input.e - input.r).toNat < INPUT_BUF := hroom
      have hroomA : ed.unread.length + ed.line.length < INPUT_BUF := hcount ▸ hroom
      rw [if_pos hroom', if_pos hroomA]
      have hput := hR.put hroom c
      by_cases hcommit : commits c ∨ ed.unread.length + (ed.line ++ [c]).length = INPUT_BUF
      · rw [if_pos ((or_congr_right (hR.full_iff hroom c)).mpr hcommit), if_pos hcommit]
        exact hput.commit
      · rw [if_neg (fun h => hcommit ((or_congr_right (hR.full_iff hroom c)).mp h)),
          if_neg hcommit]
        exact hput
    · have hroom' : ¬(input.e - input.r).toNat < INPUT_BUF := hroom
      have hroomA : ¬ed.unread.length + ed.line.length < INPUT_BUF := hcount ▸ hroom
      rw [if_neg hroom', if_neg hroomA]
      exact hR

/-- So does a batch of keystrokes. -/
theorem Represents.keys (hR : Represents input ed) (hwf : ed.Wf) (keys : List UInt8) :
    Represents (consoleintr input keys) (ed.keys keys) := by
  induction keys generalizing input ed with
  | nil => exact hR
  | cons c keys ih => exact ih (hR.key hwf c) (hwf.key c)

/-- Taking the oldest committed byte. -/
theorem Represents.take (hR : Represents input ed) {c : UInt8} {rest : List UInt8}
    (hun : ed.unread = c :: rest) :
    input.r ≠ input.w ∧ input.buf.get (ringSlot INPUT_BUF input.r.toNat) = c ∧
      Represents { input with r := input.r + 1 } { ed with unread := rest, taken := ed.taken ++ [c] } := by
  have hne : ringCount input.r input.w ≠ 0 := by
    rw [← length_ringContents input.buf, hR.unread, hun]
    exact Nat.succ_ne_zero _
  have htake := ringContents_take INPUT_BUF_dvd input.buf hne
  rw [hR.unread, hun] at htake
  obtain ⟨hc, hrest⟩ := List.cons.inj htake
  have hw := ringCount_take hne
  have he : ringCount (input.r + 1) input.e = ringCount input.r input.e - 1 :=
    ringCount_take (by have := hR.between; omega)
  refine ⟨fun h => hne (ringCount_eq_zero.mpr h), hc.symm, ?_, ?_, hrest.symm, hR.line⟩
  · show ringCount (input.r + 1) input.w ≤ ringCount (input.r + 1) input.e
    have := hR.between
    omega
  · show ringCount (input.r + 1) input.e ≤ INPUT_BUF
    have := hR.bounded
    omega

/-- A run of a read keeps the ring in step with the editor, and ends as the editor's does. -/
theorem readLoop_represents (hR : Represents input ed) (killed : Bool) (target n : Nat)
    (got : List UInt8) :
    (readLoop killed target input n got).2 = (ed.readLoop killed target n got).2 ∧
      Represents (readLoop killed target input n got).1 (ed.readLoop killed target n got).1 := by
  induction n generalizing input ed got with
  | zero => exact ⟨rfl, hR⟩
  | succ n ih =>
    unfold readLoop Editor.readLoop
    cases hun : ed.unread with
    | nil =>
      -- nothing committed: `r = w`, and both return or sleep alike
      have hrw : input.r = input.w := by
        rw [← ringCount_eq_zero, ← length_ringContents input.buf, hR.unread, hun, List.length_nil]
      rw [if_pos hrw]
      cases killed <;> exact ⟨rfl, hR⟩
    | cons c rest =>
      obtain ⟨hrw, hc, hR1⟩ := hR.take hun
      rw [if_neg hrw]
      dsimp only
      rw [hc]
      split_ifs with hD hpush hnl
      · -- a `^D` after some bytes is pushed back: `r` is where it was
        refine ⟨rfl, ?_⟩
        show Represents { input with r := input.r + 1 - 1 } ed
        rw [UInt32.add_sub_cancel]
        exact hR
      · exact ⟨rfl, hR1⟩
      · exact ⟨rfl, hR1⟩
      · exact ih hR1 _

end Represents

/-! ## Readers and keystrokes

A run of the console is any sequence of batches of keystrokes and runs of reads by any readers.
A reader that finds the ring empty sleeps on `&input.r` inside its call, and its next run resumes
the call where it stopped. The run is generic in the buffer, so that the ring and the editor run
the same way and `run_sim` relates them. -/

/-- A call of `consoleread` asleep on `&input.r`: the count asked for, the bytes still to read,
and the bytes already in `dst`. -/
structure Call where
  target : Nat
  n : Nat
  got : List UInt8
  deriving DecidableEq, Repr

/-- The console over a buffer `β`, with readers `ι`: the buffer, and the call each reader sleeps
in. -/
structure System (β ι : Type) where
  buffer : β
  calls : ι → Option Call

/-- What runs under `cons.lock`: a batch of keystrokes, or reader `p` (its `killed` flag as it
is) resuming its call, or starting one of `n` bytes. -/
inductive Event (ι : Type) where
  | intr (keys : List UInt8)
  | read (p : ι) (n : Nat) (killed : Bool)
  deriving DecidableEq, Repr

section Run

variable {β β' ι : Type} [DecidableEq ι]

/-- One step, with what the call it ends returns: the reader, the bytes in `dst`, and the value. -/
def step (intr : β → List UInt8 → β) (read : Bool → Nat → β → Nat → List UInt8 → β × ReadEnd)
    (s : System β ι) : Event ι → System β ι × Option (ι × List UInt8 × Int)
  | .intr keys => (⟨intr s.buffer keys, s.calls⟩, none)
  | .read p n killed =>
    let call := (s.calls p).getD ⟨n, n, []⟩
    match read killed call.target s.buffer call.n call.got with
    | (buffer, .done m got) =>
      (⟨buffer, Function.update s.calls p none⟩, some (p, got, (call.target : Int) - m))
    | (buffer, .killed got) => (⟨buffer, Function.update s.calls p none⟩, some (p, got, -1))
    | (buffer, .sleep m got) =>
      (⟨buffer, Function.update s.calls p (some ⟨call.target, m, got⟩)⟩, none)

/-- A run of events, with the returns of the calls it ends, in order. -/
def run (intr : β → List UInt8 → β) (read : Bool → Nat → β → Nat → List UInt8 → β × ReadEnd)
    (s : System β ι) : List (Event ι) → System β ι × List (ι × List UInt8 × Int)
  | [] => (s, [])
  | e :: es =>
    let r := step intr read s e
    let rs := run intr read r.1 es
    (rs.1, r.2.toList ++ rs.2)

/-- Two systems whose buffers are related by `R`, with the same calls asleep. -/
structure Sim (R : β → β' → Prop) (s : System β ι) (t : System β' ι) : Prop where
  buffer : R s.buffer t.buffer
  calls : s.calls = t.calls

variable {intr : β → List UInt8 → β} {read : Bool → Nat → β → Nat → List UInt8 → β × ReadEnd}
  {intr' : β' → List UInt8 → β'} {read' : Bool → Nat → β' → Nat → List UInt8 → β' × ReadEnd}
  {R : β → β' → Prop}

/-- A step keeps a relation between buffers that each batch of keystrokes keeps, and that each
run of a read keeps while ending the same way, and returns the same. -/
theorem step_sim (hintr : ∀ a b keys, R a b → R (intr a keys) (intr' b keys))
    (hread : ∀ a b killed target n got, R a b →
      (read killed target a n got).2 = (read' killed target b n got).2 ∧
        R (read killed target a n got).1 (read' killed target b n got).1)
    {s : System β ι} {t : System β' ι} (h : Sim R s t) (e : Event ι) :
    Sim R (step intr read s e).1 (step intr' read' t e).1 ∧
      (step intr read s e).2 = (step intr' read' t e).2 := by
  cases e with
  | intr keys => exact ⟨⟨hintr _ _ keys h.buffer, h.calls⟩, rfl⟩
  | read p n killed =>
    unfold step
    dsimp only
    rw [h.calls]
    -- both sides run the same call; name the two runs and compare how they end
    generalize (t.calls p).getD ⟨n, n, []⟩ = call
    obtain ⟨hfin, hR⟩ := hread s.buffer t.buffer killed call.target call.n call.got h.buffer
    generalize read killed call.target s.buffer call.n call.got = a at hfin hR ⊢
    generalize read' killed call.target t.buffer call.n call.got = b at hfin hR ⊢
    obtain ⟨a, fin⟩ := a
    obtain ⟨b, fin'⟩ := b
    dsimp only at hfin hR ⊢
    subst hfin
    cases fin <;> exact ⟨⟨hR, rfl⟩, rfl⟩

/-- So does every run. -/
theorem run_sim (hintr : ∀ a b keys, R a b → R (intr a keys) (intr' b keys))
    (hread : ∀ a b killed target n got, R a b →
      (read killed target a n got).2 = (read' killed target b n got).2 ∧
        R (read killed target a n got).1 (read' killed target b n got).1)
    (es : List (Event ι)) {s : System β ι} {t : System β' ι} (h : Sim R s t) :
    Sim R (run intr read s es).1 (run intr' read' t es).1 ∧
      (run intr read s es).2 = (run intr' read' t es).2 := by
  induction es generalizing s t with
  | nil => exact ⟨h, rfl⟩
  | cons e es ih =>
    obtain ⟨hstep, hout⟩ := step_sim hintr hread h e
    obtain ⟨hrun, houts⟩ := ih hstep
    exact ⟨hrun, by rw [run, run, hout, houts]⟩

/-- Every call asleep has its bytes and its count in step. -/
def Counted (s : System β ι) : Prop :=
  ∀ p c, s.calls p = some c → c.got.length + c.n = c.target

/-- A step keeps the calls counted when each run of a read does, and the call it ends returns
the number of bytes in `dst`, or `-1`. -/
theorem step_counted
    (hread : ∀ b killed target n got, got.length + n = target → (read killed target b n got).2.Counts target)
    {s : System β ι} (h : Counted s) (e : Event ι) :
    Counted (step intr read s e).1 ∧
      ∀ o ∈ (step intr read s e).2, o.2.2 = o.2.1.length ∨ o.2.2 = -1 := by
  cases e with
  | intr keys => exact ⟨h, fun o ho => nomatch ho⟩
  | read p n killed =>
    unfold step
    dsimp only
    -- the call resumed is counted, and so is a new one
    have hcall : ((s.calls p).getD ⟨n, n, []⟩).got.length + ((s.calls p).getD ⟨n, n, []⟩).n =
        ((s.calls p).getD ⟨n, n, []⟩).target := by
      cases hp : s.calls p with
      | none => exact Nat.zero_add n
      | some c => exact h p c hp
    generalize (s.calls p).getD ⟨n, n, []⟩ = call at hcall ⊢
    have hfin := hread s.buffer killed call.target call.n call.got hcall
    generalize read killed call.target s.buffer call.n call.got = a at hfin ⊢
    obtain ⟨b, fin⟩ := a
    -- the other readers' calls are as they were
    have hother : ∀ v : Option Call, (∀ c, v = some c → c.got.length + c.n = c.target) →
        Counted (⟨b, Function.update s.calls p v⟩ : System β ι) := by
      intro v hv q c hq
      by_cases hqp : q = p
      · subst hqp
        exact hv c (by simpa using hq)
      · exact h q c (by simpa [Function.update_of_ne hqp] using hq)
    cases fin with
    | done m got =>
      refine ⟨hother none (fun _ h => nomatch h), fun o ho => .inl ?_⟩
      cases ho
      show (call.target : Int) - m = got.length
      have : got.length + m = call.target := hfin
      omega
    | killed got => exact ⟨hother none (fun _ h => nomatch h), fun o ho => by cases ho; exact .inr rfl⟩
    | sleep m got =>
      refine ⟨hother _ fun c hc => ?_, fun o ho => nomatch ho⟩
      cases hc
      exact hfin

/-- So does every run. -/
theorem run_counted
    (hread : ∀ b killed target n got, got.length + n = target → (read killed target b n got).2.Counts target)
    (es : List (Event ι)) {s : System β ι} (h : Counted s) :
    Counted (run intr read s es).1 ∧
      ∀ o ∈ (run intr read s es).2, o.2.2 = o.2.1.length ∨ o.2.2 = -1 := by
  induction es generalizing s with
  | nil => exact ⟨h, fun o ho => nomatch ho⟩
  | cons e es ih =>
    obtain ⟨hstep, hout⟩ := step_counted hread h e
    obtain ⟨hrun, houts⟩ := ih hstep
    refine ⟨hrun, fun o ho => ?_⟩
    rcases List.mem_append.mp ho with ho | ho
    · exact hout o (Option.mem_toList.mp ho)
    · exact houts o ho

end Run

/-- The console at boot: `input` is zeroed, and no reader is asleep. -/
def boot (ι : Type) : System Input ι := ⟨⟨Vector.replicate INPUT_BUF 0, 0, 0, 0⟩, fun _ => none⟩

/-- The editor at boot: nothing typed. -/
def Editor.boot (ι : Type) : System Editor ι := ⟨⟨[], [], [], []⟩, fun _ => none⟩

theorem boot_represents (ι : Type) : Represents (boot ι).buffer (Editor.boot ι).buffer where
  between := Nat.le_refl _
  bounded := by
    show ringCount 0 0 ≤ INPUT_BUF
    rw [(ringCount_eq_zero).mpr rfl]
    exact Nat.zero_le _
  unread := ringContents_self _ _
  line := ringContents_self _ _

theorem Editor.boot_wf (ι : Type) : (Editor.boot ι).buffer.Wf :=
  ⟨List.not_mem_nil, List.not_mem_nil, rfl⟩

/-- From boot, every call of `consoleread` returns the number of bytes it put in `dst`, or
`-1`. -/
theorem boot_counted {ι : Type} [DecidableEq ι] (es : List (Event ι)) :
    Counted (run consoleintr readLoop (boot ι) es).1 ∧
      ∀ o ∈ (run consoleintr readLoop (boot ι) es).2, o.2.2 = o.2.1.length ∨ o.2.2 = -1 :=
  run_counted (fun _ _ _ _ _ h => readLoop_counts h) es (fun _ _ h => nomatch h)

/-- Every run of the console from boot, of batches of keystrokes and runs of reads by any readers
in any order, keeps the ring in step with the line editor (so `w - r ≤ e - r ≤ INPUT_BUF`), with
the same calls asleep, and every call returns what the editor's returns: the number of bytes it
put in `dst`, or `-1`. The editor's reads take the committed bytes in order. -/
theorem console_line_discipline {ι : Type} [DecidableEq ι] (es : List (Event ι)) :
    Sim (fun input ed => Represents input ed ∧ ed.Wf)
        (run consoleintr readLoop (boot ι) es).1 (run Editor.keys Editor.readLoop (Editor.boot ι) es).1 ∧
      (run consoleintr readLoop (boot ι) es).2 = (run Editor.keys Editor.readLoop (Editor.boot ι) es).2 ∧
      ∀ o ∈ (run consoleintr readLoop (boot ι) es).2, o.2.2 = o.2.1.length ∨ o.2.2 = -1 := by
  refine and_assoc.mp ⟨?_, (boot_counted es).2⟩
  apply run_sim
  · -- a batch of keystrokes
    rintro input ed keys ⟨hR, hwf⟩
    exact ⟨hR.keys hwf keys, hwf.keys keys⟩
  · -- a run of a read
    rintro input ed killed target n got ⟨hR, hwf⟩
    obtain ⟨hfin, hR'⟩ := readLoop_represents hR killed target n got
    exact ⟨hfin, hR', hwf.readLoop rfl⟩
  · exact ⟨⟨boot_represents ι, Editor.boot_wf ι⟩, rfl⟩

end Xv6.Console
