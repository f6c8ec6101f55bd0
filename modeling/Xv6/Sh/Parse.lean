import Mathlib
import Xv6.Sh.Lex

/-!
# The shell's parser

`parsecmd` of `sh.c` and the recursive descent under it, over the line's positions (see
`Xv6.Sh.Lex`). A command is the tree of `struct cmd`s that the parser builds, with its pointers
into the line as positions; a panic of the parser is an `error` with its message.
-/

namespace Xv6.Sh

/-- `MAXARGS`. -/
def MAXARGS : Nat := 10

/-- `O_RDONLY` of `fcntl.h`. -/
def O_RDONLY : Nat := 0x000
/-- `O_WRONLY` of `fcntl.h`. -/
def O_WRONLY : Nat := 0x001
/-- `O_CREATE` of `fcntl.h`. -/
def O_CREATE : Nat := 0x200

/-- A parsed command: `struct cmd` and the structure its `type` selects. A pointer into the line is
a position in it: an `exec`'s `argv[i]` and `eargv[i]`, a redirection's `file` and `efile`. -/
inductive Cmd where
  | exec (argv : List (Nat × Nat))
  | redir (cmd : Cmd) (file efile mode fd : Nat)
  | pipe (left right : Cmd)
  | list (left right : Cmd)
  | back (cmd : Cmd)
  deriving Repr, DecidableEq

/-- The command `parseexec` returns once its loop has ended: the `execcmd` that `cmd` points to,
under the redirections wrapped around it, with its words filled in through the pointer. -/
def fillArgv (argv : List (Nat × Nat)) : Cmd → Cmd
  | .exec _ => .exec argv
  | .redir c file efile mode fd => .redir (fillArgv argv c) file efile mode fd
  | c => c

/-- A position after the token that `peek` found: nearer the end than where `peek` started. -/
theorem lt_of_peek {line : List Char} {s t : Nat} {toks : List Char} (h : (peek line s toks).1)
    (ht : (gettoken line (peek line s toks).2).next ≤ t) : line.length - t < line.length - s := by
  have := peek_decreasing h
  omega

/-- `parseredirs(cmd, ps, es)`: wrap `cmd` in a redirection for each `<`, `>` or `>>` and the word
after it. -/
def parseredirs (line : List Char) (cmd : Cmd) (s : Nat) : Except String (Cmd × Nat) :=
  if _h : (peek line s ['<', '>']).1 then
    let tok := gettoken line (peek line s ['<', '>']).2
    let file := gettoken line tok.next
    if file.ret ≠ 'a' then .error "missing file for redirection"
    else
      let cmd :=
        if tok.ret = '<' then Cmd.redir cmd file.q file.eq O_RDONLY 0
        else if tok.ret = '>' then Cmd.redir cmd file.q file.eq (O_WRONLY ||| O_CREATE) 1
        else if tok.ret = '+' then Cmd.redir cmd file.q file.eq (O_WRONLY ||| O_CREATE) 1
        else cmd
      parseredirs line cmd file.next
  else .ok (cmd, (peek line s ['<', '>']).2)
termination_by line.length - s
decreasing_by exact lt_of_peek _h le_gettoken_next

/-- The loop of `parseline` over the `&` after a pipeline: each makes the command a `backcmd`. -/
def parselineBacks (line : List Char) (cmd : Cmd) (s : Nat) : Cmd × Nat :=
  if _h : (peek line s ['&']).1 then
    parselineBacks line (.back cmd) (gettoken line (peek line s ['&']).2).next
  else (cmd, (peek line s ['&']).2)
termination_by line.length - s
decreasing_by exact lt_of_peek _h (le_refl _)

theorem parseredirs_le {line : List Char} {cmd c : Cmd} {s t : Nat}
    (h : parseredirs line cmd s = .ok (c, t)) : s ≤ t := by
  fun_induction parseredirs line cmd s with
  | case1 cmd s hp tok file hfile => exact absurd h (by simp)
  | case2 cmd s hp tok file hfile cmd' ih =>
    have := ih h
    have := @le_gettoken_next line tok.next
    have := @le_gettoken_next line (peek line s ['<', '>']).2
    have := scan_le isSpace line s
    simp only [tok, file, peek_snd] at *
    omega
  | case3 cmd s hp =>
    obtain ⟨-, rfl⟩ := Prod.mk.inj (Except.ok.inj h)
    exact scan_le _ _ _

/-- The loop of `parseexec`: a word, then its redirections, until `|`, `)`, `&`, `;` or the
terminator; `argv` is the words so far and `ret` the command with the redirections so far. -/
def parseexecLoop (line : List Char) (ret : Cmd) (argv : List (Nat × Nat)) (s : Nat) :
    Except String (Cmd × List (Nat × Nat) × Nat) :=
  if (peek line s ['|', ')', '&', ';']).1 then .ok (ret, argv, (peek line s ['|', ')', '&', ';']).2)
  else
    let tok := gettoken line (peek line s ['|', ')', '&', ';']).2
    if _h : tok.ret = '\x00' then .ok (ret, argv, tok.next)
    else if tok.ret ≠ 'a' then .error "syntax"
    else
      let argv := argv ++ [(tok.q, tok.eq)]
      if MAXARGS ≤ argv.length then .error "too many args"
      else
        match _hr : parseredirs line ret tok.next with
        | .error e => .error e
        | .ok (ret, s') => parseexecLoop line ret argv s'
termination_by line.length - s
decreasing_by
  have := gettoken_decreasing _h
  have := parseredirs_le _hr
  have := scan_le isSpace line s
  simp only [tok, peek_snd] at *
  omega

theorem parselineBacks_le (line : List Char) (cmd : Cmd) (s : Nat) :
    s ≤ (parselineBacks line cmd s).2 := by
  fun_induction parselineBacks line cmd s with
  | case1 cmd s hp ih =>
    have := @le_gettoken_next line (peek line s ['&']).2
    have := scan_le isSpace line s
    simp only [peek_snd] at *
    omega
  | case2 cmd s hp => exact scan_le _ _ _

theorem parseexecLoop_le {line : List Char} {ret c : Cmd} {argv ws : List (Nat × Nat)} {s t : Nat}
    (h : parseexecLoop line ret argv s = .ok (c, ws, t)) : s ≤ t := by
  fun_induction parseexecLoop line ret argv s with
  | case1 ret argv s hp =>
    obtain ⟨-, -, rfl⟩ := Prod.mk.inj (Except.ok.inj h)
    exact scan_le _ _ _
  | case2 ret argv s hp tok h0 =>
    obtain ⟨-, -, rfl⟩ := Prod.mk.inj (Except.ok.inj h)
    exact le_trans (scan_le isSpace line s) le_gettoken_next
  | case3 ret argv s hp tok h0 ha => exact absurd h (by simp)
  | case4 ret argv s hp tok h0 ha argv' hmax => exact absurd h (by simp)
  | case5 ret argv s hp tok h0 ha argv' hmax e hr => exact absurd h (by simp)
  | case6 ret argv s hp tok h0 ha argv' hmax ret' s' hr ih =>
    have := ih h
    have := parseredirs_le hr
    have := @le_gettoken_next line (peek line s ['|', ')', '&', ';']).2
    have := scan_le isSpace line s
    simp only [tok, peek_snd] at *
    omega

/-! ## The recursive descent

`parseline`, `parsepipe`, `parseexec` and `parseblock` call each other, at the same position one
level down (`line`, `pipe`, `exec`, `block`), or further on after a token. Each returns where it
stopped, which is never before where it started. -/

mutual

/-- `parseline`: a pipeline, the `&` after it, then `;` and the rest of the line. -/
def parseline (line : List Char) (s : Nat) : Except String (Cmd × {t : Nat // s ≤ t}) :=
  match parsepipe line s with
  | .error e => .error e
  | .ok (cmd, ⟨s₁, h₁⟩) =>
    let backs := parselineBacks line cmd s₁
    if _h : (peek line backs.2 [';']).1 then
      match parseline line (gettoken line (peek line backs.2 [';']).2).next with
      | .error e => .error e
      | .ok (right, ⟨t, ht⟩) => .ok (.list backs.1 right, ⟨t, by
          have := parselineBacks_le line cmd s₁
          have := @le_gettoken_next line (peek line backs.2 [';']).2
          have := scan_le isSpace line backs.2
          simp only [backs, peek_snd] at *
          omega⟩)
    else .ok (backs.1, ⟨(peek line backs.2 [';']).2, by
      have := parselineBacks_le line cmd s₁
      have := scan_le isSpace line backs.2
      simp only [backs, peek_snd] at *
      omega⟩)
termination_by (line.length - s, 3)
decreasing_by
  · exact Prod.Lex.right _ (by decide)
  · refine Prod.Lex.left _ _ ?_
    have := lt_of_peek _h (le_refl _)
    have := parselineBacks_le line cmd s₁
    simp only [backs] at *
    omega

/-- `parsepipe`: a command, then `|` and the rest of the pipeline. -/
def parsepipe (line : List Char) (s : Nat) : Except String (Cmd × {t : Nat // s ≤ t}) :=
  match parseexec line s with
  | .error e => .error e
  | .ok (cmd, ⟨s₁, h₁⟩) =>
    if _h : (peek line s₁ ['|']).1 then
      match parsepipe line (gettoken line (peek line s₁ ['|']).2).next with
      | .error e => .error e
      | .ok (right, ⟨t, ht⟩) => .ok (.pipe cmd right, ⟨t, by
          have := @le_gettoken_next line (peek line s₁ ['|']).2
          have := scan_le isSpace line s₁
          simp only [peek_snd] at *
          omega⟩)
    else .ok (cmd, ⟨(peek line s₁ ['|']).2, by
      have := scan_le isSpace line s₁
      simp only [peek_snd] at *
      omega⟩)
termination_by (line.length - s, 2)
decreasing_by
  · exact Prod.Lex.right _ (by decide)
  · refine Prod.Lex.left _ _ ?_
    have := lt_of_peek _h (le_refl _)
    omega

/-- `parseexec`: a block in parentheses, or the words of a command with their redirections. -/
def parseexec (line : List Char) (s : Nat) : Except String (Cmd × {t : Nat // s ≤ t}) :=
  if (peek line s ['(']).1 then
    match parseblock line (peek line s ['(']).2 with
    | .error e => .error e
    | .ok (cmd, ⟨t, ht⟩) => .ok (cmd, ⟨t, by
        have := scan_le isSpace line s
        simp only [peek_snd] at *
        omega⟩)
  else
    match hr : parseredirs line (.exec []) (peek line s ['(']).2 with
    | .error e => .error e
    | .ok (ret, s₁) =>
      match hl : parseexecLoop line ret [] s₁ with
      | .error e => .error e
      | .ok (ret, argv, t) => .ok (fillArgv argv ret, ⟨t, by
          have := parseredirs_le hr
          have := parseexecLoop_le hl
          have := scan_le isSpace line s
          simp only [peek_snd] at *
          omega⟩)
termination_by (line.length - s, 1)
decreasing_by
  -- `parseblock` starts after the whitespace: no further back, and one level down
  have hle : line.length - (peek line s ['(']).2 ≤ line.length - s := by
    have := scan_le isSpace line s
    simp only [peek_snd]
    omega
  rcases Nat.lt_or_eq_of_le hle with hlt | heq
  · exact Prod.Lex.left _ _ hlt
  · rw [heq]
    exact Prod.Lex.right _ (by decide)

/-- `parseblock`: `(`, a line, `)`, and the redirections after it. -/
def parseblock (line : List Char) (s : Nat) : Except String (Cmd × {t : Nat // s ≤ t}) :=
  if _h : (peek line s ['(']).1 then
    match parseline line (gettoken line (peek line s ['(']).2).next with
    | .error e => .error e
    | .ok (cmd, ⟨s₁, h₁⟩) =>
      if (peek line s₁ [')']).1 then
        match hr : parseredirs line cmd (gettoken line (peek line s₁ [')']).2).next with
        | .error e => .error e
        | .ok (cmd, t) => .ok (cmd, ⟨t, by
            have := parseredirs_le hr
            have := @le_gettoken_next line (peek line s ['(']).2
            have := @le_gettoken_next line (peek line s₁ [')']).2
            have := scan_le isSpace line s
            have := scan_le isSpace line s₁
            simp only [peek_snd] at *
            omega⟩)
      else .error "syntax - missing )"
  else .error "parseblock"
termination_by (line.length - s, 0)
decreasing_by
  refine Prod.Lex.left _ _ ?_
  exact lt_of_peek _h (le_refl _)

end

/-- `nulterminate`: a zero at the end of every word the command points to, in the buffer. -/
def nulterminate (buf : List Char) : Cmd → List Char
  | .exec argv => argv.foldl (fun buf w => buf.set w.2 '\x00') buf
  | .redir cmd _ efile _ _ => (nulterminate buf cmd).set efile '\x00'
  | .pipe left right => nulterminate (nulterminate buf left) right
  | .list left right => nulterminate (nulterminate buf left) right
  | .back cmd => nulterminate buf cmd

theorem nulterminate_exec (buf : List Char) (argv : List (Nat × Nat)) :
    nulterminate buf (.exec argv) = argv.foldl (fun buf w => buf.set w.2 '\x00') buf := rfl

theorem nulterminate_redir (buf : List Char) (cmd : Cmd) (file efile mode fd : Nat) :
    nulterminate buf (.redir cmd file efile mode fd) = (nulterminate buf cmd).set efile '\x00' := rfl

theorem nulterminate_pipe (buf : List Char) (left right : Cmd) :
    nulterminate buf (.pipe left right) = nulterminate (nulterminate buf left) right := rfl

theorem nulterminate_list (buf : List Char) (left right : Cmd) :
    nulterminate buf (.list left right) = nulterminate (nulterminate buf left) right := rfl

theorem nulterminate_back (buf : List Char) (cmd : Cmd) :
    nulterminate buf (.back cmd) = nulterminate buf cmd := rfl

/-- `parsecmd(s)`: parse the line before the buffer's terminator, a syntax error if anything but
whitespace is left after the command; with the command, the buffer after `nulterminate`. -/
def parsecmd (buf : List Char) : Except String (Cmd × List Char) :=
  let line := buf.take (strlen buf)
  match parseline line 0 with
  | .error e => .error e
  | .ok (cmd, ⟨s, _⟩) =>
    if (peek line s []).2 ≠ line.length then .error "syntax"
    else .ok (cmd, nulterminate buf cmd)

end Xv6.Sh
