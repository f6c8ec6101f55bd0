import Mathlib
import Xv6.Sh.Parse

/-!
# The shell's grammar

The grammar of the shell's command lines over the line's tokens, with the command each phrase
denotes:

    line   ::= pipe ('&')* [';' line]
    pipe   ::= exec ['|' pipe]
    exec   ::= '(' line ')' redirs | redirs (word redirs)*
    redirs ::= (('<' | '>' | '>>') word)*

where a command has fewer than `MAXARGS` words. The parser is sound for it: each of `parseline`,
`parsepipe`, `parseexec` and `parseblock` panics with one of the parser's messages, or returns the
command of a phrase made of the tokens from where it started to where it stopped
(`parseline_sound`). So does `parsecmd`, for all the tokens of the line (`parsecmd_sound`); and
since the words of the command are whole words of the line that do not overlap, the zeros
`nulterminate` puts at their ends leave each of them the string at its start (`strAt_nulterminate`).
-/

namespace Xv6.Sh

/-- A redirection, as `redircmd` records it: the file's start and end, the mode, the descriptor. -/
structure Redir where
  file : Nat
  efile : Nat
  mode : Nat
  fd : Nat
  deriving Repr, DecidableEq

/-- The redirection of the operator `op` (`<`, `>`, or `+` for `>>`) to the word from `q` to `eq`:
`<` opens it for reading as the input, `>` and `>>` alike for writing, creating it, as the
output. -/
def Redir.ofOp (op : Char) (q eq : Nat) : Redir :=
  if op = '<' then ⟨q, eq, O_RDONLY, 0⟩ else ⟨q, eq, O_WRONLY ||| O_CREATE, 1⟩

/-- A command under redirections, the first innermost. -/
def wrapRedirs (c : Cmd) (rs : List Redir) : Cmd :=
  rs.foldl (fun c r => .redir c r.file r.efile r.mode r.fd) c

/-- A command run in the background `k` times over. -/
def backs : Nat → Cmd → Cmd
  | 0, c => c
  | k + 1, c => backs k (.back c)

/-- `redirs`, with the redirections it makes. -/
inductive Redirs : List Tok → List Redir → Prop
  | nil : Redirs [] []
  | cons {op : Char} {q eq : Nat} {ts : List Tok} {rs : List Redir} (hop : op ∈ ['<', '>', '+']) :
      Redirs ts rs → Redirs (.sym op :: .word q eq :: ts) (Redir.ofOp op q eq :: rs)

/-- `(word redirs)*`: the words, and the redirections among them. -/
inductive Words : List Tok → List (Nat × Nat) → List Redir → Prop
  | nil : Words [] [] []
  | cons {q eq : Nat} {rts ts : List Tok} {rs rs' : List Redir} {ws : List (Nat × Nat)} :
      Redirs rts rs → Words ts ws rs' → Words (.word q eq :: (rts ++ ts)) ((q, eq) :: ws) (rs ++ rs')

/-- The nonterminals of the grammar. -/
inductive NT where
  | line
  | pipe
  | exec
  deriving Repr, DecidableEq

/-- The grammar: `Derives nt ts c` says that the tokens `ts` are a phrase of `nt` denoting the
command `c`. -/
inductive Derives : NT → List Tok → Cmd → Prop
  | pipeline {ts : List Tok} {c : Cmd} (k : Nat) :
      Derives .pipe ts c → Derives .line (ts ++ List.replicate k (.sym '&')) (backs k c)
  | seq {ts ts' : List Tok} {c c' : Cmd} (k : Nat) : Derives .pipe ts c → Derives .line ts' c' →
      Derives .line (ts ++ List.replicate k (.sym '&') ++ .sym ';' :: ts') (.list (backs k c) c')
  | single {ts : List Tok} {c : Cmd} : Derives .exec ts c → Derives .pipe ts c
  | pipe {ts ts' : List Tok} {c c' : Cmd} : Derives .exec ts c → Derives .pipe ts' c' →
      Derives .pipe (ts ++ .sym '|' :: ts') (.pipe c c')
  | block {ts rts : List Tok} {c : Cmd} {rs : List Redir} : Derives .line ts c → Redirs rts rs →
      Derives .exec (.sym '(' :: ts ++ .sym ')' :: rts) (wrapRedirs c rs)
  | simple {rts ts : List Tok} {rs rs' : List Redir} {ws : List (Nat × Nat)} : Redirs rts rs →
      Words ts ws rs' → ws.length < MAXARGS →
      Derives .exec (rts ++ ts) (wrapRedirs (.exec ws) (rs ++ rs'))

/-- The messages the parser panics with. -/
def syntaxErrors : List String :=
  ["missing file for redirection", "syntax", "too many args", "syntax - missing )", "parseblock"]

theorem syntaxErrors_eq :
    syntaxErrors =
      ["missing file for redirection", "syntax", "too many args", "syntax - missing )", "parseblock"] :=
  rfl

/-! ## Commands under redirections -/

theorem wrapRedirs_cons (c : Cmd) (r : Redir) (rs : List Redir) :
    wrapRedirs c (r :: rs) = wrapRedirs (.redir c r.file r.efile r.mode r.fd) rs := rfl

theorem wrapRedirs_append (c : Cmd) (rs rs' : List Redir) :
    wrapRedirs c (rs ++ rs') = wrapRedirs (wrapRedirs c rs) rs' := by
  simp only [wrapRedirs, List.foldl_append]

/-- `parseexec` fills in the words of the `exec` under the redirections. -/
theorem fillArgv_wrapRedirs (ws : List (Nat × Nat)) (c : Cmd) (rs : List Redir) :
    fillArgv ws (wrapRedirs c rs) = wrapRedirs (fillArgv ws c) rs := by
  induction rs generalizing c with
  | nil => rfl
  | cons r rs ih => rw [wrapRedirs_cons, ih, wrapRedirs_cons, fillArgv]

/-! ## The loops -/

section Loops

variable {line : List Char}

/-- `parseredirs` reads a `redirs` and wraps the command in its redirections. By induction along
the loop. -/
theorem parseredirs_sound {cmd c : Cmd} {s t : Nat} (h : parseredirs line cmd s = .ok (c, t)) :
    ∃ ts rs, tokens line s = ts ++ tokens line t ∧ Redirs ts rs ∧ c = wrapRedirs cmd rs := by
  fun_induction parseredirs line cmd s with
  | case1 cmd s hp tok file hfile => exact absurd h (by simp)
  | case2 cmd s hp tok file hfile cmd' ih =>
    obtain ⟨ts, rs, hts, hrs, rfl⟩ := ih h
    obtain ⟨hop, htok⟩ := redir_of_peek hp
    have ha : file.ret = 'a' := not_not.mp hfile
    refine ⟨.sym tok.ret :: .word file.q file.eq :: ts, Redir.ofOp tok.ret file.q file.eq :: rs,
      ?_, .cons hop hrs, ?_⟩
    · rw [tokens_of_peek hp, htok, tokens_of_ne (by simp only [file, tok] at ha ⊢; rw [ha]; decide)]
      simp only [file, tok] at ha ⊢
      rw [Token.tok_of_ret_a ha, hts]
      rfl
    · -- the redirection of the operator read
      rw [wrapRedirs_cons]
      congr 1
      simp only [peek_snd, List.mem_cons, List.not_mem_nil, or_false] at hop
      simp only [cmd', tok, peek_snd, Redir.ofOp]
      rcases hop with hop | hop | hop <;> simp [hop]
  | case3 cmd s hp =>
    obtain ⟨rfl, rfl⟩ := Prod.mk.inj (Except.ok.inj h)
    exact ⟨[], [], (tokens_peek_snd _).symm, .nil, rfl⟩

theorem parseredirs_error {cmd : Cmd} {s : Nat} {e : String}
    (h : parseredirs line cmd s = .error e) : e = "missing file for redirection" := by
  fun_induction parseredirs line cmd s with
  | case1 cmd s hp tok file hfile => exact (Except.error.inj h).symm
  | case2 cmd s hp tok file hfile cmd' ih => exact ih h
  | case3 cmd s hp => exact absurd h (by simp)

/-- The `&` after a pipeline, each making the command a background one. By induction along the
loop. -/
theorem parselineBacks_sound (cmd : Cmd) (s : Nat) :
    ∃ k, tokens line s = List.replicate k (.sym '&') ++ tokens line (parselineBacks line cmd s).2 ∧
      (parselineBacks line cmd s).1 = backs k cmd := by
  fun_induction parselineBacks line cmd s with
  | case1 cmd s hp ih =>
    obtain ⟨k, hts, hc⟩ := ih
    refine ⟨k + 1, ?_, hc⟩
    rw [tokens_of_peek_sym hp (by decide), hts]
    rfl
  | case2 cmd s hp => exact ⟨0, (tokens_peek_snd ['&']).symm, rfl⟩

/-- `parseexec`'s loop reads a `(word redirs)*`, fills the words in after those it had and wraps
the command in the redirections; it keeps fewer than `MAXARGS` words. By induction along the
loop. -/
theorem parseexecLoop_sound {ret c : Cmd} {argv ws : List (Nat × Nat)} {s t : Nat}
    (hargv : argv.length < MAXARGS) (h : parseexecLoop line ret argv s = .ok (c, ws, t)) :
    ∃ ts ws' rs, tokens line s = ts ++ tokens line t ∧ Words ts ws' rs ∧ ws = argv ++ ws' ∧
      c = wrapRedirs ret rs ∧ ws.length < MAXARGS := by
  fun_induction parseexecLoop line ret argv s with
  | case1 ret argv s hp =>
    simp only [Except.ok.injEq, Prod.mk.injEq] at h
    obtain ⟨rfl, rfl, rfl⟩ := h
    exact ⟨[], [], [], (tokens_peek_snd _).symm, .nil, by simp, rfl, hargv⟩
  | case2 ret argv s hp tok h0 =>
    -- the terminator: no tokens are left
    simp only [Except.ok.injEq, Prod.mk.injEq] at h
    obtain ⟨rfl, rfl, rfl⟩ := h
    have hnil : tokens line s = [] := by
      rw [← tokens_peek_snd ['|', ')', '&', ';'], tokens_of_eq_zero h0]
    refine ⟨[], [], [], ?_, .nil, by simp, rfl, hargv⟩
    rw [hnil, tokens_next_of_eq_zero h0]
    rfl
  | case3 ret argv s hp tok h0 ha => exact absurd h (by simp)
  | case4 ret argv s hp tok h0 ha argv' hmax => exact absurd h (by simp)
  | case5 ret argv s hp tok h0 ha argv' hmax e hr => exact absurd h (by simp)
  | case6 ret argv s hp tok h0 ha argv' hmax ret' s' hr ih =>
    -- a word, then the redirections after it, then the rest of the loop
    obtain ⟨ts, ws', rs, hts, hws, rfl, rfl, hlen⟩ := ih (Nat.lt_of_not_le hmax) h
    obtain ⟨rts, rs₀, hrts, hrs, rfl⟩ := parseredirs_sound hr
    have ha' : tok.ret = 'a' := not_not.mp ha
    refine ⟨.word tok.q tok.eq :: (rts ++ ts), (tok.q, tok.eq) :: ws', rs₀ ++ rs, ?_, .cons hrs hws,
      by simp [argv'], (wrapRedirs_append _ _ _).symm, hlen⟩
    rw [← tokens_peek_snd ['|', ')', '&', ';'], tokens_of_ne h0, Token.tok_of_ret_a ha', hrts, hts]
    simp

theorem parseexecLoop_error {ret : Cmd} {argv : List (Nat × Nat)} {s : Nat} {e : String}
    (h : parseexecLoop line ret argv s = .error e) : e ∈ syntaxErrors := by
  fun_induction parseexecLoop line ret argv s with
  | case1 ret argv s hp => exact absurd h (by simp)
  | case2 ret argv s hp tok h0 => exact absurd h (by simp)
  | case3 ret argv s hp tok h0 ha =>
    rw [← Except.error.inj h]
    simp [syntaxErrors_eq]
  | case4 ret argv s hp tok h0 ha argv' hmax =>
    rw [← Except.error.inj h]
    simp [syntaxErrors_eq]
  | case5 ret argv s hp tok h0 ha argv' hmax e' hr =>
    rw [← Except.error.inj h, parseredirs_error hr]
    simp [syntaxErrors_eq]
  | case6 ret argv s hp tok h0 ha argv' hmax ret' s' hr ih => exact ih h

end Loops

/-! ## The recursive descent -/

/-- What the parser of the nonterminal `nt` returns from `s`: a panic of the parser's, or the
command of a phrase of `nt` made of the tokens from `s` to where it stopped. -/
def Parsed (line : List Char) (s : Nat) (nt : NT) : Except String (Cmd × {t : Nat // s ≤ t}) → Prop
  | .error e => e ∈ syntaxErrors
  | .ok (c, t) => ∃ ts, tokens line s = ts ++ tokens line t.1 ∧ Derives nt ts c

mutual

/-- `parseline` is sound: a pipeline, its `&`, and `;` and a line after them. -/
theorem parseline_sound (line : List Char) (s : Nat) : Parsed line s .line (parseline line s) := by
  have hpipe := parsepipe_sound line s
  rw [parseline]
  split
  · rename_i e he
    rw [he] at hpipe
    exact hpipe
  · rename_i cmd s₁ h₁ he
    rw [he] at hpipe
    obtain ⟨ts, hts, hd⟩ := hpipe
    obtain ⟨k, hbacks, hcmd⟩ := @parselineBacks_sound line cmd s₁
    dsimp only
    split
    · -- `;` and the rest of the line
      rename_i hsemi
      have hdec : line.length - (gettoken line (peek line (parselineBacks line cmd s₁).2
          [';']).2).next < line.length - s := by
        have := lt_of_peek hsemi (le_refl _)
        have := parselineBacks_le line cmd s₁
        omega
      have hrest := parseline_sound line
        (gettoken line (peek line (parselineBacks line cmd s₁).2 [';']).2).next
      split
      · rename_i e he'
        rw [he'] at hrest
        exact hrest
      · rename_i right t ht he'
        rw [he'] at hrest
        obtain ⟨ts', hts', hd'⟩ := hrest
        refine ⟨ts ++ List.replicate k (.sym '&') ++ .sym ';' :: ts', ?_, hcmd ▸ .seq k hd hd'⟩
        rw [hts, hbacks, tokens_of_peek_sym hsemi (by decide), hts']
        simp
    · rename_i hsemi
      refine ⟨ts ++ List.replicate k (.sym '&'), ?_, hcmd ▸ .pipeline k hd⟩
      rw [hts, hbacks, ← tokens_peek_snd [';']]
      simp
termination_by (line.length - s, 3)
decreasing_by
  · exact Prod.Lex.right _ (by decide)
  · exact Prod.Lex.left _ _ hdec

/-- `parsepipe` is sound: a command, and `|` and a pipeline after it. -/
theorem parsepipe_sound (line : List Char) (s : Nat) : Parsed line s .pipe (parsepipe line s) := by
  have hexec := parseexec_sound line s
  rw [parsepipe]
  split
  · rename_i e he
    rw [he] at hexec
    exact hexec
  · rename_i cmd s₁ h₁ he
    rw [he] at hexec
    obtain ⟨ts, hts, hd⟩ := hexec
    split
    · -- `|` and the rest of the pipeline
      rename_i hbar
      have hdec : line.length - (gettoken line (peek line s₁ ['|']).2).next < line.length - s := by
        have := lt_of_peek hbar (le_refl _)
        omega
      have hrest := parsepipe_sound line (gettoken line (peek line s₁ ['|']).2).next
      split
      · rename_i e he'
        rw [he'] at hrest
        exact hrest
      · rename_i right t ht he'
        rw [he'] at hrest
        obtain ⟨ts', hts', hd'⟩ := hrest
        refine ⟨ts ++ .sym '|' :: ts', ?_, .pipe hd hd'⟩
        rw [hts, tokens_of_peek_sym hbar (by decide), hts']
        simp
    · exact ⟨ts, by rw [hts, ← tokens_peek_snd ['|']], .single hd⟩
termination_by (line.length - s, 2)
decreasing_by
  · exact Prod.Lex.right _ (by decide)
  · exact Prod.Lex.left _ _ hdec

/-- `parseexec` is sound: a block, or a command's words and redirections. -/
theorem parseexec_sound (line : List Char) (s : Nat) : Parsed line s .exec (parseexec line s) := by
  rw [parseexec]
  split
  · -- a block in parentheses
    rename_i hparen
    have hblock := parseblock_sound line (peek line s ['(']).2
    split
    · rename_i e he
      rw [he] at hblock
      exact hblock
    · rename_i cmd t ht he
      rw [he] at hblock
      obtain ⟨ts, hts, hd⟩ := hblock
      exact ⟨ts, by rw [← tokens_peek_snd ['('], hts], hd⟩
  · split
    · rename_i e hr
      show e ∈ syntaxErrors
      rw [parseredirs_error hr]
      simp [syntaxErrors_eq]
    · rename_i ret s₁ hr
      split
      · rename_i e hl
        exact parseexecLoop_error hl
      · -- the redirections before the first word, then the loop
        rename_i ret' argv t hl
        obtain ⟨rts, rs, hrts, hrs, rfl⟩ := parseredirs_sound hr
        obtain ⟨ts, ws', rs', hts, hws, rfl, rfl, hmax⟩ :=
          parseexecLoop_sound (by decide) hl
        refine ⟨rts ++ ts, ?_, ?_⟩
        · rw [← tokens_peek_snd ['('], hrts, hts, List.append_assoc]
        · rw [← wrapRedirs_append, fillArgv_wrapRedirs, fillArgv]
          exact .simple hrs hws hmax
termination_by (line.length - s, 1)
decreasing_by
  have hle : line.length - (peek line s ['(']).2 ≤ line.length - s := by
    have := scan_le isSpace line s
    simp only [peek_snd]
    omega
  rcases Nat.lt_or_eq_of_le hle with hlt | heq
  · exact Prod.Lex.left _ _ hlt
  · rw [heq]
    exact Prod.Lex.right _ (by decide)

/-- `parseblock` is sound: `(`, a line, `)` and redirections. -/
theorem parseblock_sound (line : List Char) (s : Nat) : Parsed line s .exec (parseblock line s) := by
  rw [parseblock]
  split
  · rename_i hparen
    have hdec : line.length - (gettoken line (peek line s ['(']).2).next < line.length - s :=
      lt_of_peek hparen (le_refl _)
    have hline := parseline_sound line (gettoken line (peek line s ['(']).2).next
    split
    · rename_i e he
      rw [he] at hline
      exact hline
    · rename_i cmd s₁ h₁ he
      rw [he] at hline
      obtain ⟨ts, hts, hd⟩ := hline
      split
      · rename_i hclose
        split
        · rename_i e hr
          show e ∈ syntaxErrors
          rw [parseredirs_error hr]
          simp [syntaxErrors_eq]
        · rename_i cmd' t hr
          obtain ⟨rts, rs, hrts, hrs, rfl⟩ := parseredirs_sound hr
          refine ⟨.sym '(' :: ts ++ .sym ')' :: rts, ?_, .block hd hrs⟩
          rw [tokens_of_peek_sym hparen (by decide), hts, tokens_of_peek_sym hclose (by decide),
            hrts]
          simp
      · show "syntax - missing )" ∈ syntaxErrors
        simp [syntaxErrors_eq]
  · show "parseblock" ∈ syntaxErrors
    simp [syntaxErrors_eq]
termination_by (line.length - s, 0)
decreasing_by exact Prod.Lex.left _ _ hdec

end

/-! ## The words of a command -/

/-- The words a command points to, each as its start and its end: the arguments of its `exec`s and
the files of its redirections. -/
def Cmd.words : Cmd → List (Nat × Nat)
  | .exec argv => argv
  | .redir cmd file efile _ _ => cmd.words ++ [(file, efile)]
  | .pipe left right => left.words ++ right.words
  | .list left right => left.words ++ right.words
  | .back cmd => cmd.words

/-- The argument lists of the `exec`s of a command. -/
def Cmd.argvs : Cmd → List (List (Nat × Nat))
  | .exec argv => [argv]
  | .redir cmd _ _ _ _ => cmd.argvs
  | .pipe left right => left.argvs ++ right.argvs
  | .list left right => left.argvs ++ right.argvs
  | .back cmd => cmd.argvs

@[simp] theorem words_wrapRedirs (c : Cmd) (rs : List Redir) :
    (wrapRedirs c rs).words = c.words ++ rs.map (fun r => (r.file, r.efile)) := by
  induction rs generalizing c with
  | nil => simp [wrapRedirs]
  | cons r rs ih => simp [wrapRedirs_cons, ih, Cmd.words]

@[simp] theorem argvs_wrapRedirs (c : Cmd) (rs : List Redir) :
    (wrapRedirs c rs).argvs = c.argvs := by
  induction rs generalizing c with
  | nil => rfl
  | cons r rs ih => rw [wrapRedirs_cons, ih, Cmd.argvs]

@[simp] theorem words_backs (k : Nat) (c : Cmd) : (backs k c).words = c.words := by
  induction k generalizing c with
  | zero => rfl
  | succ k ih => rw [backs, ih, Cmd.words]

@[simp] theorem argvs_backs (k : Nat) (c : Cmd) : (backs k c).argvs = c.argvs := by
  induction k generalizing c with
  | zero => rfl
  | succ k ih => rw [backs, ih, Cmd.argvs]

/-- The file of each redirection of a `redirs` is one of its words. -/
theorem Redirs.word_mem {ts : List Tok} {rs : List Redir} (h : Redirs ts rs) :
    ∀ r ∈ rs, Tok.word r.file r.efile ∈ ts := by
  induction h with
  | nil => simp
  | @cons op q eq _ _ _ _ ih =>
    have hfile : (Redir.ofOp op q eq).file = q ∧ (Redir.ofOp op q eq).efile = eq := by
      unfold Redir.ofOp
      split <;> exact ⟨rfl, rfl⟩
    intro r hr
    rcases List.mem_cons.mp hr with rfl | hr
    · rw [hfile.1, hfile.2]
      simp
    · exact List.mem_cons_of_mem _ (List.mem_cons_of_mem _ (ih r hr))

/-- The words of a `(word redirs)*` and the files of its redirections are among its words. -/
theorem Words.word_mem {ts : List Tok} {ws : List (Nat × Nat)} {rs : List Redir}
    (h : Words ts ws rs) :
    (∀ w ∈ ws, Tok.word w.1 w.2 ∈ ts) ∧ ∀ r ∈ rs, Tok.word r.file r.efile ∈ ts := by
  induction h with
  | nil => simp
  | cons hrs _ ih =>
    have hr := hrs.word_mem
    constructor
    · intro w hw
      rcases List.mem_cons.mp hw with rfl | hw
      · simp
      · simp [ih.1 w hw]
    · intro r hr'
      rcases List.mem_append.mp hr' with hr' | hr'
      · simp [hr r hr']
      · simp [ih.2 r hr']

/-- Every word a derived command points to is a word among the tokens it was derived from. By
induction on the derivation. -/
theorem Derives.word_mem {nt : NT} {ts : List Tok} {c : Cmd} (h : Derives nt ts c) :
    ∀ w ∈ c.words, Tok.word w.1 w.2 ∈ ts := by
  induction h with
  | pipeline k _ ih =>
    intro w hw
    rw [words_backs] at hw
    exact List.mem_append_left _ (ih w hw)
  | seq k _ _ ih ih' =>
    intro w hw
    simp only [Cmd.words, words_backs, List.mem_append] at hw
    rcases hw with hw | hw
    · simp [ih w hw]
    · simp [ih' w hw]
  | single _ ih => exact ih
  | pipe _ _ ih ih' =>
    intro w hw
    rcases List.mem_append.mp hw with hw | hw
    · simp [ih w hw]
    · simp [ih' w hw]
  | block _ hrs ih =>
    intro w hw
    simp only [words_wrapRedirs, List.mem_append, List.mem_map] at hw
    rcases hw with hw | ⟨r, hr, rfl⟩
    · simp [ih w hw]
    · simp [hrs.word_mem r hr]
  | simple hrs hws _ =>
    intro w hw
    simp only [words_wrapRedirs, Cmd.words, List.map_append, List.mem_append, List.mem_map] at hw
    rcases hw with hw | ⟨r, hr, rfl⟩ | ⟨r, hr, rfl⟩
    · simp [hws.word_mem.1 w hw]
    · simp [hrs.word_mem r hr]
    · simp [hws.word_mem.2 r hr]

/-- Every `exec` of a derived command has fewer than `MAXARGS` words. -/
theorem Derives.argvs_lt {nt : NT} {ts : List Tok} {c : Cmd} (h : Derives nt ts c) :
    ∀ argv ∈ c.argvs, argv.length < MAXARGS := by
  induction h with
  | pipeline k _ ih => simpa using ih
  | seq k _ _ ih ih' =>
    intro argv hargv
    simp only [Cmd.argvs, argvs_backs, List.mem_append] at hargv
    exact hargv.elim (ih argv) (ih' argv)
  | single _ ih => exact ih
  | pipe _ _ ih ih' =>
    intro argv hargv
    exact (List.mem_append.mp hargv).elim (ih argv) (ih' argv)
  | block _ _ ih => simpa using ih
  | simple _ _ hlen =>
    intro argv hargv
    simp only [argvs_wrapRedirs, Cmd.argvs, List.mem_singleton] at hargv
    exact hargv ▸ hlen

/-! ## The buffer after `nulterminate` -/

/-- The string that a pointer `q` into the buffer stands for: its characters up to the first
zero. -/
def strAt (buf : List Char) (q : Nat) : List Char := (buf.drop q).take (strlen (buf.drop q))

section Buffer

variable {buf : List Char}

theorem charAt_set {i k : Nat} {c : Char} (h : c = '\x00') :
    charAt (buf.set i c) k = if k = i then '\x00' else charAt buf k := by
  by_cases hk : k = i
  · subst hk
    rw [if_pos rfl]
    by_cases hi : k < buf.length
    · simp [charAt, List.getD_eq_getElem?_getD, hi, h]
    · exact charAt_of_length_le (by rw [List.length_set]; omega)
  · rw [if_neg hk]
    simp [charAt, List.getD_eq_getElem?_getD, Ne.symm hk]

theorem charAt_drop (q k : Nat) : charAt (buf.drop q) k = charAt buf (q + k) := by
  simp [charAt, List.getD_eq_getElem?_getD]

theorem charAt_take {n k : Nat} (h : k < n) : charAt (buf.take n) k = charAt buf k := by
  simp [charAt, List.getD_eq_getElem?_getD, h]

/-- No character before the first zero is a zero. -/
theorem charAt_ne_zero_of_lt_strlen {k : Nat} (h : k < strlen buf) : charAt buf k ≠ '\x00' := by
  induction buf generalizing k with
  | nil => exact absurd h (Nat.not_lt_zero k)
  | cons c cs ih =>
    rw [strlen_cons] at h
    split_ifs at h with hc
    · exact absurd h (Nat.not_lt_zero k)
    · cases k with
      | zero => exact hc
      | succ k => exact ih (Nat.lt_of_succ_lt_succ h)

theorem strlen_le_length : strlen buf ≤ buf.length := by
  induction buf with
  | nil => exact le_refl 0
  | cons c cs ih =>
    rw [strlen_cons]
    split_ifs
    · exact Nat.zero_le _
    · exact Nat.succ_le_succ ih

/-- `strlen` stops at the first zero. -/
theorem strlen_eq {n : Nat} (h : ∀ k < n, charAt buf k ≠ '\x00') (hn : charAt buf n = '\x00') :
    strlen buf = n := by
  induction buf generalizing n with
  | nil =>
    cases n with
    | zero => rfl
    | succ n => exact absurd rfl (h 0 (Nat.succ_pos n))
  | cons c cs ih =>
    cases n with
    | zero =>
      have hc : c = '\x00' := hn
      simp [strlen_cons, hc]
    | succ n =>
      have hc : c ≠ '\x00' := h 0 (Nat.succ_pos n)
      have hcs : strlen cs = n := ih (fun k hk => h (k + 1) (Nat.succ_lt_succ hk)) hn
      simp [strlen_cons, hc, hcs]

/-- Two buffers that agree from `q` to `eq` have the same characters there. -/
theorem drop_take_congr {buf' : List Char} {q eq : Nat} (hl : eq ≤ buf.length)
    (hl' : eq ≤ buf'.length) (h : ∀ k, q ≤ k → k < eq → charAt buf k = charAt buf' k) :
    (buf.drop q).take (eq - q) = (buf'.drop q).take (eq - q) := by
  apply List.ext_getElem?
  intro i
  simp only [List.getElem?_take, List.getElem?_drop]
  split_ifs with hi
  · have hk := h (q + i) (Nat.le_add_right q i) (by omega)
    simp only [charAt, List.getD_eq_getElem?_getD] at hk
    rw [List.getElem?_eq_getElem (by omega), List.getElem?_eq_getElem (by omega)] at hk ⊢
    exact congrArg some hk
  · rfl

/-- The string at `q` is the characters up to `eq` when they are not zeros and a zero follows. -/
theorem strAt_eq {q eq : Nat} (hle : q ≤ eq) (h : ∀ k, q ≤ k → k < eq → charAt buf k ≠ '\x00')
    (heq : charAt buf eq = '\x00') : strAt buf q = (buf.drop q).take (eq - q) := by
  have hlen : strlen (buf.drop q) = eq - q := by
    refine strlen_eq (fun k hk => ?_) ?_
    · rw [charAt_drop]
      exact h (q + k) (Nat.le_add_right q k) (by omega)
    · rw [charAt_drop, Nat.add_sub_cancel' hle]
      exact heq
  rw [strAt, hlen]

end Buffer

/-- The loop of `nulterminate` over an `exec`'s arguments. -/
theorem charAt_foldl_set (argv : List (Nat × Nat)) (buf : List Char) (k : Nat) :
    charAt (argv.foldl (fun buf w => buf.set w.2 '\x00') buf) k =
      if k ∈ argv.map Prod.snd then '\x00' else charAt buf k := by
  induction argv generalizing buf with
  | nil => simp
  | cons w ws ih =>
    rw [List.foldl_cons, ih, charAt_set rfl]
    by_cases hk : k = w.2
    · simp [hk]
    · simp only [List.map_cons, List.mem_cons, hk, false_or, if_false]

/-- `nulterminate` leaves a zero at the end of every word of the command, and every other
character as it was. -/
theorem charAt_nulterminate (buf : List Char) (c : Cmd) (k : Nat) :
    charAt (nulterminate buf c) k = if k ∈ c.words.map Prod.snd then '\x00' else charAt buf k := by
  induction c generalizing buf with
  | exec argv => rw [nulterminate_exec, charAt_foldl_set]; rfl
  | redir cmd file efile mode fd ih =>
    rw [nulterminate_redir, charAt_set rfl, ih]
    by_cases hk : k = efile
    · simp [Cmd.words, hk]
    · simp only [Cmd.words, List.map_append, List.map_cons, List.map_nil, List.mem_append,
        List.mem_singleton, hk, or_false, if_false]
  | pipe left right ihl ihr =>
    rw [nulterminate_pipe, ihr, ihl]
    by_cases hl : k ∈ left.words.map Prod.snd
    · simp [Cmd.words, hl]
    · simp only [Cmd.words, List.map_append, List.mem_append, hl, false_or, if_false]
  | list left right ihl ihr =>
    rw [nulterminate_list, ihr, ihl]
    by_cases hl : k ∈ left.words.map Prod.snd
    · simp [Cmd.words, hl]
    · simp only [Cmd.words, List.map_append, List.mem_append, hl, false_or, if_false]
  | back cmd ih =>
    rw [nulterminate_back, ih]
    rfl

theorem length_nulterminate (buf : List Char) (c : Cmd) :
    (nulterminate buf c).length = buf.length := by
  induction c generalizing buf with
  | exec argv =>
    induction argv generalizing buf with
    | nil => rfl
    | cons w ws ih =>
      simp only [nulterminate_exec, List.foldl_cons] at ih ⊢
      rw [ih, List.length_set]
  | redir cmd file efile mode fd ih => rw [nulterminate_redir, List.length_set, ih]
  | pipe left right ihl ihr => rw [nulterminate_pipe, ihr, ihl]
  | list left right ihl ihr => rw [nulterminate_list, ihr, ihl]
  | back cmd ih => rw [nulterminate_back, ih]

/-- After `nulterminate`, a word of a command whose words are whole words of the line is the
string at its start: the zero at its end cuts it off, and no other word's zero falls inside it. -/
theorem strAt_nulterminate {buf : List Char} {c : Cmd}
    (hw : ∀ w ∈ c.words, IsWord (buf.take (strlen buf)) w.1 w.2) {w : Nat × Nat}
    (hmem : w ∈ c.words) :
    strAt (nulterminate buf c) w.1 = ((buf.take (strlen buf)).drop w.1).take (w.2 - w.1) := by
  have hword := hw w hmem
  have hlen : (buf.take (strlen buf)).length = strlen buf := by
    simp [strlen_le_length]
  have hle := hword.le_length
  rw [hlen] at hle
  -- inside the word the buffer keeps the line's characters: another word's end there would be a
  -- word character
  have hkeep : ∀ k, w.1 ≤ k → k < w.2 →
      charAt (nulterminate buf c) k = charAt (buf.take (strlen buf)) k := by
    intro k hk hk'
    have hout : k ∉ c.words.map Prod.snd := by
      intro hk''
      obtain ⟨w', hw', rfl⟩ := List.mem_map.mp hk''
      rcases (hw w' hw').right with h | h
      · omega
      · rw [hword.chars w'.2 hk hk'] at h
        exact Bool.noConfusion h
    rw [charAt_nulterminate, if_neg hout, charAt_take (by omega)]
  have hnz : ∀ k, w.1 ≤ k → k < w.2 → charAt (nulterminate buf c) k ≠ '\x00' := by
    intro k hk hk'
    rw [hkeep k hk hk', charAt_take (by omega)]
    exact charAt_ne_zero_of_lt_strlen (by omega)
  have hend : charAt (nulterminate buf c) w.2 = '\x00' := by
    rw [charAt_nulterminate, if_pos (List.mem_map_of_mem hmem)]
  rw [strAt_eq (Nat.le_of_lt hword.lt) hnz hend]
  refine drop_take_congr ?_ (by rw [hlen]; exact hle) hkeep
  rw [length_nulterminate]
  exact le_trans hle strlen_le_length

/-! ## `parsecmd` -/

/-- There are no tokens at the end of the line. -/
theorem tokens_length (line : List Char) : tokens line line.length = [] := by
  apply tokens_of_eq_zero
  rw [gettoken_ret_eq_zero_iff, scan_eq_self (fun h => Nat.lt_irrefl _ h.1)]
  exact charAt_of_length_le (le_refl _)

/-- `parsecmd` panics with one of the parser's messages. -/
theorem parsecmd_error {buf : List Char} {e : String} (h : parsecmd buf = .error e) :
    e ∈ syntaxErrors := by
  have hline := parseline_sound (buf.take (strlen buf)) 0
  unfold parsecmd at h
  dsimp only at h
  split at h
  · rename_i e' he
    rw [he] at hline
    exact (Except.error.inj h) ▸ hline
  · split at h
    · rw [← Except.error.inj h]
      simp [syntaxErrors_eq]
    · exact absurd h (by simp)

/-- A command that `parsecmd` returns derives all the tokens of the line, and the buffer it
returns is the one after `nulterminate`. -/
theorem parsecmd_ok {buf buf' : List Char} {cmd : Cmd} (h : parsecmd buf = .ok (cmd, buf')) :
    Derives .line (tokens (buf.take (strlen buf)) 0) cmd ∧ buf' = nulterminate buf cmd := by
  have hline := parseline_sound (buf.take (strlen buf)) 0
  unfold parsecmd at h
  dsimp only at h
  split at h
  · exact absurd h (by simp)
  · rename_i c s hs he
    rw [he] at hline
    obtain ⟨ts, hts, hd⟩ := hline
    split at h
    · exact absurd h (by simp)
    · -- only whitespace is left: the tokens after the command are none
      rename_i hend
      obtain ⟨rfl, rfl⟩ := Prod.mk.inj (Except.ok.inj h)
      have hrest : tokens (buf.take (strlen buf)) s = [] := by
        rw [← tokens_peek_snd [], not_not.mp hend, tokens_length]
      rw [hts, hrest, List.append_nil]
      exact ⟨hd, rfl⟩

/-- `parsecmd` panics with a syntax error, or returns a command derived from all the tokens of the
line, with fewer than `MAXARGS` words in each `exec`; after `nulterminate` each word the command
points to, an argument or a redirection's file, is the whole word of the line it was read as. -/
theorem parsecmd_sound (buf : List Char) :
    (∀ e, parsecmd buf = .error e → e ∈ syntaxErrors) ∧
    ∀ cmd buf', parsecmd buf = .ok (cmd, buf') →
      Derives .line (tokens (buf.take (strlen buf)) 0) cmd ∧
      (∀ argv ∈ cmd.argvs, argv.length < MAXARGS) ∧
      ∀ w ∈ cmd.words, IsWord (buf.take (strlen buf)) w.1 w.2 ∧
        strAt buf' w.1 = ((buf.take (strlen buf)).drop w.1).take (w.2 - w.1) := by
  refine ⟨fun e h => parsecmd_error h, fun cmd buf' h => ?_⟩
  obtain ⟨hd, rfl⟩ := parsecmd_ok h
  -- the words are among the line's tokens, read from its start
  have hw : ∀ w ∈ cmd.words, IsWord (buf.take (strlen buf)) w.1 w.2 := fun w hw =>
    isWord_of_mem_tokens (.inl rfl) (hd.word_mem w hw)
  exact ⟨hd, hd.argvs_lt, fun w hmem => ⟨hw w hmem, strAt_nulterminate hw hmem⟩⟩

/-- The line `echo hi`. -/
def echoHi : List Char := ['e', 'c', 'h', 'o', ' ', 'h', 'i']

/-- `parsecmd` of `echo hi`: the command `echo` with its two words, each ended by a zero in the
buffer. Each step of the recursive descent is taken by its equation, with the positions where
`gettoken` and `peek` stop worked out first. -/
theorem parsecmd_echoHi :
    parsecmd echoHi = .ok (.exec [(0, 4), (5, 7)], ['e', 'c', 'h', 'o', '\x00', 'h', 'i']) := by
  -- where `gettoken` and `peek` stop on the line
  have hs0 : scan isSpace echoHi 0 = 0 := scan_eq_self (by decide)
  have hs7 : scan isSpace echoHi 7 = 7 := scan_eq_self (by decide)
  have hs5 : scan isSpace echoHi 5 = 5 := scan_eq_self (by decide)
  have hs4 : scan isSpace echoHi 4 = 5 := by rw [scan_succ (by decide), hs5]
  have hw0 : scan isWordChar echoHi 0 = 4 := by
    rw [scan_succ (by decide), scan_succ (by decide), scan_succ (by decide), scan_succ (by decide),
      scan_eq_self (by decide)]
  have hw5 : scan isWordChar echoHi 5 = 7 := by
    rw [scan_succ (by decide), scan_succ (by decide), scan_eq_self (by decide)]
  have hg0 : gettoken echoHi 0 = ⟨'a', 0, 4, 5⟩ := by
    simp +decide only [gettoken, hs0, hw0, hs4, show charAt echoHi 0 = 'e' from rfl, ↓reduceIte]
  have hg5 : gettoken echoHi 5 = ⟨'a', 5, 7, 7⟩ := by
    simp +decide only [gettoken, hs5, hw5, hs7, show charAt echoHi 5 = 'h' from rfl, ↓reduceIte]
  have hg7 : gettoken echoHi 7 = ⟨'\x00', 7, 7, 7⟩ := by
    simp +decide only [gettoken, hs7, show charAt echoHi 7 = '\x00' from rfl, ↓reduceIte]
  -- `peek` finds none of its characters: a word is next, or the end
  have hp : ∀ k ∈ [0, 5, 7], ∀ toks, (toks = ['('] ∨ toks = ['<', '>'] ∨ toks = ['|', ')', '&', ';'] ∨
      toks = ['|'] ∨ toks = ['&'] ∨ toks = [';']) → peek echoHi k toks = (false, k) := by
    intro k hk toks htoks
    simp only [List.mem_cons, List.not_mem_nil, or_false] at hk
    rcases hk with rfl | rfl | rfl <;>
      rcases htoks with rfl | rfl | rfl | rfl | rfl | rfl <;>
      simp only [peek, hs0, hs5, hs7] <;> decide
  have hr : ∀ k ∈ [0, 5, 7], parseredirs echoHi (.exec []) k = .ok (.exec [], k) := by
    intro k hk
    have hpk := hp k hk ['<', '>'] (by simp)
    rw [parseredirs, dif_neg (by rw [hpk]; exact Bool.false_ne_true), hpk]
  have hl7 : parseexecLoop echoHi (.exec []) [(0, 4), (5, 7)] 7 = .ok (.exec [], [(0, 4), (5, 7)], 7) := by
    rw [parseexecLoop, if_neg (by rw [hp 7 (by simp) _ (by simp)]; decide), hp 7 (by simp) _ (by simp), hg7]
    rfl
  have hl5 : parseexecLoop echoHi (.exec []) [(0, 4)] 5 = .ok (.exec [], [(0, 4), (5, 7)], 7) := by
    rw [parseexecLoop, if_neg (by rw [hp 5 (by simp) _ (by simp)]; decide), hp 5 (by simp) _ (by simp), hg5]
    dsimp only
    rw [dif_neg (by decide), if_neg (by decide), if_neg (by decide), hr 7 (by simp)]
    exact hl7
  have hl0 : parseexecLoop echoHi (.exec []) [] 0 = .ok (.exec [], [(0, 4), (5, 7)], 7) := by
    rw [parseexecLoop, if_neg (by rw [hp 0 (by simp) _ (by simp)]; decide), hp 0 (by simp) _ (by simp), hg0]
    dsimp only
    rw [dif_neg (by decide), if_neg (by decide), if_neg (by decide), hr 5 (by simp)]
    exact hl5
  have he : parseexec echoHi 0 = .ok (.exec [(0, 4), (5, 7)], ⟨7, by decide⟩) := by
    have hr0 : parseredirs echoHi (.exec []) (peek echoHi 0 ['(']).2 = .ok (.exec [], 0) := by
      rw [hp 0 (by simp) _ (by simp)]
      exact hr 0 (by simp)
    rw [parseexec, if_neg (by rw [hp 0 (by simp) _ (by simp)]; decide)]
    split
    · rename_i e he
      rw [hr0] at he
      cases he
    · rename_i ret s₁ he
      rw [hr0] at he
      cases he
      split
      · rename_i e he'
        rw [hl0] at he'
        cases he'
      · rename_i ret' argv t he'
        rw [hl0] at he'
        cases he'
        rfl
  have hpipe : parsepipe echoHi 0 = .ok (.exec [(0, 4), (5, 7)], ⟨7, by decide⟩) := by
    rw [parsepipe, he]
    dsimp only
    rw [dif_neg (by rw [hp 7 (by simp) _ (by simp)]; decide)]
    simp only [hp 7 (by simp) ['|'] (by simp)]
  have hbacks : parselineBacks echoHi (.exec [(0, 4), (5, 7)]) 7 = (.exec [(0, 4), (5, 7)], 7) := by
    rw [parselineBacks, dif_neg (by rw [hp 7 (by simp) _ (by simp)]; decide), hp 7 (by simp) _ (by simp)]
  have hline : parseline echoHi 0 = .ok (.exec [(0, 4), (5, 7)], ⟨7, by decide⟩) := by
    rw [parseline, hpipe]
    dsimp only
    simp only [hbacks]
    rw [dif_neg (by rw [hp 7 (by simp) _ (by simp)]; decide)]
    simp only [hp 7 (by simp) [';'] (by simp)]
  have htake : echoHi.take (strlen echoHi) = echoHi := by decide
  rw [parsecmd]
  rw [htake, hline]
  dsimp only
  rw [if_neg (by simp only [peek, hs7]; decide)]
  rfl
theorem parsecmd_sound_echoHi :
    parsecmd echoHi = .ok (.exec [(0, 4), (5, 7)], ['e', 'c', 'h', 'o', '\x00', 'h', 'i']) ∧
      Derives .line (tokens (echoHi.take (strlen echoHi)) 0) (.exec [(0, 4), (5, 7)]) ∧
      ∀ argv ∈ (Cmd.exec [(0, 4), (5, 7)]).argvs, argv.length < MAXARGS :=
  have h := parsecmd_echoHi
  ⟨h, ((parsecmd_sound echoHi).2 _ _ h).1, ((parsecmd_sound echoHi).2 _ _ h).2.1⟩

end Xv6.Sh
