/-
# User.Sh -- the parser of the shell

`gettoken`, `peek` and the parse functions of sh.c over a line of characters and a cursor.
The loops and the recursion of the source take a budget of turns, and a store through the
pointer to the `execcmd` checks its index, so that running out of turns and leaving the array
are outcomes of their own (`Stop.turns`, `Stop.overrun`) next to the calls of `panic`.

`Derives` is the grammar, over the tokens that `gettoken` splits the line into, with the
command each derivation denotes.  `parse_grammar` says that the parser decides it.
-/
import Mathlib.Data.List.Basic
import Mathlib.Data.List.TakeWhile
import Mathlib.Logic.Function.Iterate

namespace Xv6.User.Sh

set_option autoImplicit false

/-! ## Tokens -/

/-- A word of the line: the offsets of its first character and of the one after it. -/
abbrev Span : Type := Nat × Nat

/-- What `gettoken` returns. -/
inductive Tok where
  | eof
  | bar
  | lparen
  | rparen
  | semi
  | amp
  | less
  | greater
  | append
  | word (span : Span)
deriving DecidableEq

def whitespace : List Char := [' ', '\t', '\r', '\n', '\x0b']

def symbols : List Char := ['<', '|', '>', '&', ';', '(', ')']

def NUL : Char := '\x00'

/-- The character at an offset; the line ends in a NUL. -/
def at' (line : List Char) (s : Nat) : Char := line.getD s NUL

/-- The loop that skips what satisfies `p`, up to the end of the line. -/
def skipWhile (p : Char → Bool) (line : List Char) (s : Nat) : Nat := s + ((line.drop s).takeWhile p).length

def skip (line : List Char) (s : Nat) : Nat := skipWhile (fun c => whitespace.contains c) line s

/-- Neither white space nor a symbol. -/
def plain (c : Char) : Bool := !whitespace.contains c && !symbols.contains c

/-- The switch of `gettoken`: the token that starts at `q`, and where it ends. -/
def tokenAt (line : List Char) (q : Nat) : Tok × Nat :=
  match at' line q with
  | '\x00' => (.eof, q)
  | '|' => (.bar, q + 1)
  | '(' => (.lparen, q + 1)
  | ')' => (.rparen, q + 1)
  | ';' => (.semi, q + 1)
  | '&' => (.amp, q + 1)
  | '<' => (.less, q + 1)
  | '>' => if at' line (q + 1) = '>' then (.append, q + 2) else (.greater, q + 1)
  | _ => (.word (q, skipWhile plain line q), skipWhile plain line q)

def gettoken (line : List Char) (s : Nat) : Tok × Nat :=
  let (tok, eq) := tokenAt line (skip line s)
  (tok, skip line eq)

def peek (line : List Char) (s : Nat) (toks : List Char) : Bool × Nat :=
  let s := skip line s
  (at' line s != NUL && toks.contains (at' line s), s)

/-! ## Commands -/

abbrev MAXARGS : Nat := 10

abbrev O_RDONLY : Nat := 0x000
abbrev O_WRONLY : Nat := 0x001
abbrev O_CREATE : Nat := 0x200
abbrev O_TRUNC : Nat := 0x400

/-- A command.  The `argv` and `eargv` of an `execcmd` are one array of spans. -/
inductive Cmd where
  | exec (argv : List (Option Span))
  | redir (cmd : Cmd) (file : Span) (mode fd : Nat)
  | pipe (left right : Cmd)
  | list (left right : Cmd)
  | back (cmd : Cmd)
deriving DecidableEq

/-- Why the parser stops without a command. -/
inductive Stop where
  | panic (text : String)
  | overrun
  | turns
deriving DecidableEq

def execcmd : Cmd := .exec (List.replicate MAXARGS none)

/-- `argv[i] = v` through the pointer to the `execcmd`, which the redirections wrap. -/
def Cmd.setArg (i : Nat) (v : Option Span) : Cmd → Except Stop Cmd
  | .exec argv => if i < MAXARGS then .ok (.exec (argv.set i v)) else .error .overrun
  | .redir cmd file mode fd => (cmd.setArg i v).map fun cmd => .redir cmd file mode fd
  | cmd => .ok cmd

/-! ## The parser -/

def parseredirs : Nat → List Char → Cmd → Nat → Except Stop (Cmd × Nat)
  | 0, _, _, _ => .error .turns
  | fuel + 1, line, cmd, s =>
    let (more, s) := peek line s ['<', '>']
    if more then
      let (tok, s) := gettoken line s
      match gettoken line s with
      | (.word file, s) =>
        match tok with
        | .less => parseredirs fuel line (.redir cmd file O_RDONLY 0) s
        | .greater => parseredirs fuel line (.redir cmd file (O_WRONLY ||| O_CREATE ||| O_TRUNC) 1) s
        | .append => parseredirs fuel line (.redir cmd file (O_WRONLY ||| O_CREATE) 1) s
        | _ => parseredirs fuel line cmd s
      | _ => .error (.panic "missing file for redirection")
    else .ok (cmd, s)

/-- The loop of `parseexec` over the words. -/
def parseargs : Nat → List Char → Cmd → Nat → Nat → Except Stop (Cmd × Nat)
  | 0, _, _, _, _ => .error .turns
  | fuel + 1, line, ret, argc, s =>
    let (done, s) := peek line s ['|', ')', '&', ';']
    if done then (ret.setArg argc none).map fun ret => (ret, s)
    else
      match gettoken line s with
      | (.eof, s) => (ret.setArg argc none).map fun ret => (ret, s)
      | (.word span, s) => do
          let ret ← ret.setArg argc (some span)
          if MAXARGS ≤ argc + 1 then .error (.panic "too many args")
          else
            let (ret, s) ← parseredirs fuel line ret s
            parseargs fuel line ret (argc + 1) s
      | _ => .error (.panic "syntax")

/-- The loop of `parseline` over `&`. -/
def parsebacks : Nat → List Char → Cmd → Nat → Except Stop (Cmd × Nat)
  | 0, _, _, _ => .error .turns
  | fuel + 1, line, cmd, s =>
    let (more, s) := peek line s ['&']
    if more then parsebacks fuel line (.back cmd) (gettoken line s).2 else .ok (cmd, s)

mutual

def parseline : Nat → List Char → Nat → Except Stop (Cmd × Nat)
  | 0, _, _ => .error .turns
  | fuel + 1, line, s => do
      let (cmd, s) ← parsepipe fuel line s
      let (cmd, s) ← parsebacks fuel line cmd s
      let (more, s) := peek line s [';']
      if more then
        let (right, s) ← parseline fuel line (gettoken line s).2
        .ok (.list cmd right, s)
      else .ok (cmd, s)

def parsepipe : Nat → List Char → Nat → Except Stop (Cmd × Nat)
  | 0, _, _ => .error .turns
  | fuel + 1, line, s => do
      let (cmd, s) ← parseexec fuel line s
      let (more, s) := peek line s ['|']
      if more then
        let (right, s) ← parsepipe fuel line (gettoken line s).2
        .ok (.pipe cmd right, s)
      else .ok (cmd, s)

def parseexec : Nat → List Char → Nat → Except Stop (Cmd × Nat)
  | 0, _, _ => .error .turns
  | fuel + 1, line, s =>
    let (block, s) := peek line s ['(']
    if block then parseblock fuel line s
    else do
      let (ret, s) ← parseredirs fuel line execcmd s
      parseargs fuel line ret 0 s

def parseblock : Nat → List Char → Nat → Except Stop (Cmd × Nat)
  | 0, _, _ => .error .turns
  | fuel + 1, line, s =>
    let (block, s) := peek line s ['(']
    if !block then .error (.panic "parseblock")
    else do
      let (cmd, s) ← parseline fuel line (gettoken line s).2
      let (closed, s) := peek line s [')']
      if !closed then .error (.panic "syntax - missing )")
      else parseredirs fuel line cmd (gettoken line s).2

end

/-- The stores of `nulterminate` into the buffer of the line. -/
def nulterminate : Cmd → List Char → List Char
  | .exec argv, buf => ((argv.takeWhile Option.isSome).filterMap id).foldl (fun buf arg => buf.set arg.2 NUL) buf
  | .redir cmd file _ _, buf => (nulterminate cmd buf).set file.2 NUL
  | .pipe left right, buf => nulterminate right (nulterminate left buf)
  | .list left right, buf => nulterminate right (nulterminate left buf)
  | .back cmd, buf => nulterminate cmd buf

/-- `parsecmd` on a buffer that ends in a NUL: the command and the buffer it points into.
The turns are more than the parser can take. -/
def parsecmd (buf : List Char) : Except Stop (Cmd × List Char) := do
  let line := buf.takeWhile (· != NUL)
  let (cmd, s) ← parseline (4 * line.length + 8) line 0
  let (_, s) := peek line s []
  if s != line.length then .error (.panic "syntax") else .ok (cmd, nulterminate cmd (line ++ [NUL]))

/-! ## The tokens of a line -/

section Scan

variable {p : Char → Bool} {line : List Char} {s : Nat}

theorem takeWhile_spec (p : Char → Bool) (l : List Char) :
    (∀ i < (l.takeWhile p).length, i < l.length ∧ p (l.getD i NUL) = true) ∧
      ((l.takeWhile p).length < l.length → p (l.getD (l.takeWhile p).length NUL) = false) := by
  induction l with
  | nil => simp
  | cons c l ih =>
    by_cases holds : p c = true
    · rw [List.takeWhile_cons_of_pos holds, List.length_cons]
      constructor
      · intro i below
        cases i with
        | zero => exact ⟨by simp, holds⟩
        | succ i =>
          have := ih.1 i (by omega)
          exact ⟨by simp only [List.length_cons]; omega, this.2⟩
      · intro below
        exact ih.2 (by simp only [List.length_cons] at below; omega)
    · rw [List.takeWhile_cons_of_neg holds]
      exact ⟨by simp, fun _ => by simpa using holds⟩

theorem at'_add (line : List Char) (s i : Nat) : at' line (s + i) = (line.drop s).getD i NUL := by
  simp only [at', List.getD_eq_getElem?_getD, List.getElem?_drop]

theorem le_skipWhile (p : Char → Bool) (line : List Char) (s : Nat) : s ≤ skipWhile p line s := Nat.le_add_right _ _

/-- What is skipped satisfies `p`. -/
theorem skipWhile_inside {i : Nat} (low : s ≤ i) (high : i < skipWhile p line s) :
    i < line.length ∧ p (at' line i) = true := by
  obtain ⟨k, rfl⟩ := Nat.exists_eq_add_of_le low
  have spec := (takeWhile_spec p (line.drop s)).1 k (by simp only [skipWhile] at high; omega)
  rw [at'_add]
  refine ⟨?_, spec.2⟩
  have := spec.1
  rw [List.length_drop] at this
  omega

/-- The loop stops where `p` fails or the line ends. -/
theorem skipWhile_stops (inLine : skipWhile p line s < line.length) : p (at' line (skipWhile p line s)) = false := by
  rw [skipWhile] at inLine ⊢
  rw [at'_add]
  refine (takeWhile_spec p (line.drop s)).2 ?_
  rw [List.length_drop]
  omega

theorem skipWhile_idle (stops : s < line.length → p (at' line s) = false) : skipWhile p line s = s := by
  by_contra moved
  have more : s < skipWhile p line s := Nat.lt_of_le_of_ne (le_skipWhile p line s) (Ne.symm moved)
  obtain ⟨inLine, holds⟩ := skipWhile_inside (Nat.le_refl s) more
  rw [stops inLine] at holds
  cases holds

theorem skipWhile_le (inLine : s ≤ line.length) : skipWhile p line s ≤ line.length := by
  by_contra beyond
  by_cases moved : s = skipWhile p line s
  · omega
  · have := le_skipWhile p line s
    have := (@skipWhile_inside p line s (skipWhile p line s - 1) (by omega) (by omega)).1
    omega

@[simp]
theorem skip_skip (line : List Char) (s : Nat) : skip line (skip line s) = skip line s :=
  skipWhile_idle skipWhile_stops

theorem at'_lt (some' : at' line s ≠ NUL) : s < line.length := by
  by_contra beyond
  refine some' ?_
  rw [at', List.getD_eq_getElem?_getD, List.getElem?_eq_none (by omega)]
  rfl

@[simp]
theorem gettoken_skip (line : List Char) (s : Nat) : gettoken line (skip line s) = gettoken line s := by
  simp only [gettoken, skip_skip]

end Scan

/-- The character that stands for a symbol. -/
def Tok.symbol : Tok → Option Char
  | .eof | .word _ => none
  | .bar => some '|'
  | .lparen => some '('
  | .rparen => some ')'
  | .semi => some ';'
  | .amp => some '&'
  | .less => some '<'
  | .greater | .append => some '>'

/-- A maximal run of plain characters. -/
structure IsWord (line : List Char) (span : Span) : Prop where
  some' : span.1 < span.2
  inLine : span.2 ≤ line.length
  plain : ∀ i, span.1 ≤ i → i < span.2 → plain (at' line i) = true
  ends : span.2 < line.length → Sh.plain (at' line span.2) = false

variable {ts : List Tok} {span : Span} {fuel : Nat}

section Token

variable {line : List Char} {s : Nat}

theorem tokenAt_spec (line : List Char) (q : Nat) (clear : at' line q ∉ whitespace) :
    ((tokenAt line q).1 = .eof ↔ at' line q = NUL) ∧
      (tokenAt line q).1.symbol = (if symbols.contains (at' line q) then some (at' line q) else none) ∧
      (at' line q ≠ NUL → q < (tokenAt line q).2) ∧
      ∀ span, (tokenAt line q).1 = .word span → IsWord line span := by
  unfold tokenAt
  split
  all_goals try (rename_i is; simp [is, Tok.symbol, symbols, NUL]; done)
  · rename_i is
    split <;> simp [is, Tok.symbol, symbols, NUL]
  · rename_i nul bar lparen rparen semi amp less greater
    have notSymbol : symbols.contains (at' line q) = false := by
      simp_all [symbols]
    have isPlain : plain (at' line q) = true := by
      simp_all [plain]
    have inLine : q < line.length := at'_lt nul
    have moves : q < skipWhile plain line q := by
      refine Nat.lt_of_le_of_ne (le_skipWhile _ _ _) ?_
      intro same
      have stops := skipWhile_stops (same ▸ inLine)
      rw [← same, isPlain] at stops
      cases stops
    refine ⟨?_, ?_, fun _ => moves, ?_⟩
    · simp only [reduceCtorEq, false_iff]
      exact nul
    · rw [notSymbol]
      rfl
    · rintro span is
      obtain rfl : (q, skipWhile plain line q) = span := by simpa using is
      refine ⟨moves, skipWhile_le (Nat.le_of_lt inLine), ?_, skipWhile_stops⟩
      intro i low high
      exact (skipWhile_inside low high).2

/-- A token ends in the line. -/
theorem tokenAt_le {q : Nat} (inLine : q ≤ line.length) : (tokenAt line q).2 ≤ line.length := by
  have one : at' line q ≠ NUL → q + 1 ≤ line.length := at'_lt
  unfold tokenAt
  split
  all_goals try (rename_i is; rw [is] at one; exact one (by decide))
  · exact inLine
  · rename_i is
    split
    case isTrue two => exact at'_lt (by rw [two]; decide)
    case isFalse =>
      rw [is] at one
      exact one (by decide)
  · exact skipWhile_le inLine

theorem gettoken_eq (line : List Char) (s : Nat) :
    gettoken line s = ((tokenAt line (skip line s)).1, skip line (tokenAt line (skip line s)).2) := rfl

theorem skip_clear (line : List Char) (s : Nat) : at' line (skip line s) ∉ whitespace := by
  by_cases inLine : skip line s < line.length
  · have stops : whitespace.contains (at' line (skip line s)) = false := skipWhile_stops inLine
    simpa using stops
  · have is : at' line (skip line s) = NUL := by
      by_contra some'
      exact inLine (at'_lt some')
    rw [is]
    decide

theorem gettoken_lt (some' : (gettoken line s).1 ≠ .eof) : s < (gettoken line s).2 ∧ s < line.length := by
  obtain ⟨eof, -, moves, -⟩ := tokenAt_spec line (skip line s) (skip_clear line s)
  rw [gettoken_eq] at some' ⊢
  have there : at' line (skip line s) ≠ NUL := fun nul => some' (eof.mpr nul)
  have low : s ≤ skip line s := le_skipWhile _ _ _
  have up : (tokenAt line (skip line s)).2 ≤ skip line (tokenAt line (skip line s)).2 := le_skipWhile _ _ _
  have := moves there
  have := at'_lt there
  exact ⟨by simp only; omega, by omega⟩

/-- The tokens of the line from the cursor on, as `gettoken` splits it. -/
def tokens (line : List Char) (s : Nat) : List Tok :=
  if _ : (gettoken line s).1 = .eof then [] else (gettoken line s).1 :: tokens line (gettoken line s).2
termination_by line.length - s
decreasing_by
  have := gettoken_lt ‹_›
  omega

@[simp]
theorem tokens_skip (line : List Char) (s : Nat) : tokens line (skip line s) = tokens line s := by
  conv_lhs => unfold tokens
  conv_rhs => unfold tokens
  simp only [gettoken_skip]

theorem length_tokens (line : List Char) (s : Nat) : (tokens line s).length ≤ line.length - s := by
  fun_induction tokens line s with
  | case1 s eof => exact Nat.zero_le _
  | case2 s more ih =>
    have := gettoken_lt more
    rw [List.length_cons]
    omega

/-- The cursor stands in the line, with these tokens left. -/
structure On (line : List Char) (s : Nat) (ts : List Tok) : Prop where
  is : tokens line s = ts
  inLine : s ≤ line.length

theorem On.skip (on : On line s ts) : On line (skip line s) ts :=
  ⟨(tokens_skip line s).trans on.is, skipWhile_le on.inLine⟩

theorem gettoken_le (inLine : s ≤ line.length) : (gettoken line s).2 ≤ line.length := by
  rw [gettoken_eq]
  exact skipWhile_le (tokenAt_le (skipWhile_le inLine))

/-- `gettoken` gives the first token and the cursor at the rest. -/
theorem On.cons {t : Tok} (on : On line s (t :: ts)) : ∃ s', gettoken line s = (t, s') ∧ On line s' ts := by
  have is := on.is
  unfold tokens at is
  split at is
  · cases is
  · obtain ⟨rfl, rfl⟩ := List.cons.inj is
    exact ⟨_, rfl, rfl, gettoken_le on.inLine⟩

/-- At the end of the line the cursor stays where it is. -/
theorem On.nil (on : On line s []) : gettoken line s = (.eof, Sh.skip line s) ∧ at' line (Sh.skip line s) = NUL := by
  have is := on.is
  unfold tokens at is
  split at is
  case isTrue eof =>
    have nul := (tokenAt_spec line (Sh.skip line s) (skip_clear line s)).1.mp eof
    refine ⟨?_, nul⟩
    rw [gettoken_eq]
    simp only [tokenAt, nul, NUL, skip_skip]
  case isFalse => cases is

/-- Do the tokens start with one of these symbols? -/
def starts (toks : List Char) : List Tok → Bool
  | [] => false
  | t :: _ => t.symbol.any toks.contains

/-- `peek` looks at the first token, and leaves the cursor before it. -/
theorem On.peek (on : On line s ts) (toks : List Char) (known : toks.all symbols.contains) :
    ∃ s', peek line s toks = (starts toks ts, s') ∧ On line s' ts := by
  refine ⟨Sh.skip line s, ?_, on.skip⟩
  obtain ⟨eof, symbol, -, -⟩ := tokenAt_spec line (Sh.skip line s) (skip_clear line s)
  have first : (gettoken line s).1 = (tokenAt line (Sh.skip line s)).1 := rfl
  rw [← on.is]
  unfold tokens Sh.peek
  split
  case isTrue is =>
    rw [first] at is
    simp [eof.mp is, starts]
  case isFalse more =>
    rw [first] at more
    have there : at' line (Sh.skip line s) ≠ NUL := fun nul => more (eof.mpr nul)
    simp only [starts, first, symbol, bne_iff_ne.mpr there, Bool.true_and]
    by_cases isSymbol : symbols.contains (at' line (Sh.skip line s)) = true
    · rw [if_pos isSymbol]
      rfl
    · have other : toks.contains (at' line (Sh.skip line s)) = false := by
        rw [← Bool.not_eq_true]
        intro mem
        exact isSymbol (List.all_eq_true.mp known _ (List.contains_iff_mem.mp mem))
      rw [if_neg isSymbol, other]
      rfl

/-- Every word among the tokens is a maximal run of plain characters of the line. -/
theorem isWord_of_mem (mem : .word span ∈ tokens line s) : IsWord line span := by
  fun_induction tokens line s with
  | case1 s eof => cases mem
  | case2 s more ih =>
    rcases List.mem_cons.mp mem with is | mem
    · exact (tokenAt_spec line (skip line s) (skip_clear line s)).2.2.2 span is.symm
    · exact ih mem

end Token

/-! ## The grammar -/

inductive Nonterminal where
  | line
  | pipe
  | exec

structure Redir where
  file : Span
  mode : Nat
  fd : Nat

/-- Each redirection wraps the command to its left. -/
def wrap (cmd : Cmd) (redirs : List Redir) : Cmd := redirs.foldl (fun cmd r => .redir cmd r.file r.mode r.fd) cmd

/-- The words in order, then zeros to the end of the array. -/
def argvOf (words : List Span) : List (Option Span) := words.map some ++ List.replicate (MAXARGS - words.length) none

/-- The redirection that an operator and a file name denote. -/
def redirection : Tok → Span → Option Redir
  | .less, file => some ⟨file, O_RDONLY, 0⟩
  | .greater, file => some ⟨file, O_WRONLY ||| O_CREATE ||| O_TRUNC, 1⟩
  | .append, file => some ⟨file, O_WRONLY ||| O_CREATE, 1⟩
  | _, _ => none

/-- `redir*`, with `redir ::= ('<' | '>' | '>>') word`. -/
inductive Redirs : List Tok → List Redir → Prop
  | nil : Redirs [] []
  | cons {op : Tok} {file : Span} {r : Redir} {ts : List Tok} {rs : List Redir} (is : redirection op file = some r)
      (rest : Redirs ts rs) : Redirs (op :: .word file :: ts) (r :: rs)

/-- `(word redir*)*`. -/
inductive Words : List Tok → List Span → List Redir → Prop
  | nil : Words [] [] []
  | cons {span : Span} {ts ts' : List Tok} {words : List Span} {rs rs' : List Redir} (redirs : Redirs ts rs)
      (rest : Words ts' words rs') : Words (.word span :: (ts ++ ts')) (span :: words) (rs ++ rs')

/-- The grammar, with the command that a derivation denotes:
`line ::= pipe '&'* [';' line]`, `pipe ::= exec ['|' pipe]` and
`exec ::= '(' line ')' redir* | redir* (word redir*)*` with less than `MAXARGS` words. -/
inductive Derives : Nonterminal → List Tok → Cmd → Prop
  | line {ts : List Tok} {cmd : Cmd} (n : Nat) (pipe : Derives .pipe ts cmd) :
      Derives .line (ts ++ List.replicate n .amp) (Cmd.back^[n] cmd)
  | seq {ts ts' : List Tok} {cmd right : Cmd} (n : Nat) (pipe : Derives .pipe ts cmd) (rest : Derives .line ts' right) :
      Derives .line (ts ++ List.replicate n .amp ++ .semi :: ts') (.list (Cmd.back^[n] cmd) right)
  | last {ts : List Tok} {cmd : Cmd} (exec : Derives .exec ts cmd) : Derives .pipe ts cmd
  | pipe {ts ts' : List Tok} {cmd right : Cmd} (exec : Derives .exec ts cmd) (rest : Derives .pipe ts' right) :
      Derives .pipe (ts ++ .bar :: ts') (.pipe cmd right)
  | block {ts ts' : List Tok} {cmd : Cmd} {rs : List Redir} (inner : Derives .line ts cmd) (redirs : Redirs ts' rs) :
      Derives .exec (.lparen :: (ts ++ .rparen :: ts')) (wrap cmd rs)
  | simple {ts ts' : List Tok} {words : List Span} {rs rs' : List Redir} (redirs : Redirs ts rs)
    (rest : Words ts' words rs')
      (few : words.length ≤ MAXARGS - 1) : Derives .exec (ts ++ ts') (wrap (.exec (argvOf words)) (rs ++ rs'))

@[simp]
theorem wrap_nil (cmd : Cmd) : wrap cmd [] = cmd := rfl

theorem wrap_append (cmd : Cmd) (rs rs' : List Redir) : wrap cmd (rs ++ rs') = wrap (wrap cmd rs) rs' :=
  List.foldl_append

/-! ## One turn of each loop -/

section Turns

variable {line : List Char} {s : Nat} {ts : List Tok}

theorem starts_redirection {op : Tok} {file : Span} {r : Redir} (is : redirection op file = some r) (ts : List Tok) :
    starts ['<', '>'] (op :: ts) = true := by
  cases op <;> first | rfl | cases is

/-- A turn of `parseredirs` at its end, at a redirection, or at an operator without a file. -/
theorem parseredirs_turn (fuel : Nat) (cmd : Cmd) (on : On line s ts) :
    (starts ['<', '>'] ts = false ∧ ∃ s', parseredirs (fuel + 1) line cmd s = .ok (cmd, s') ∧ On line s' ts) ∨
      (∃ op file rest r s', ts = op :: .word file :: rest ∧ redirection op file = some r ∧ On line s' rest ∧
        parseredirs (fuel + 1) line cmd s = parseredirs fuel line (wrap cmd [r]) s') ∨
      (∃ op rest, ts = op :: rest ∧ starts ['<', '>'] ts = true ∧ (∀ file after, rest ≠ .word file :: after) ∧
        parseredirs (fuel + 1) line cmd s = .error (.panic "missing file for redirection")) := by
  obtain ⟨s1, peeked, on1⟩ := on.peek ['<', '>'] (by decide)
  cases more : starts ['<', '>'] ts with
  | false =>
    refine .inl ⟨rfl, s1, ?_, on1⟩
    simp [parseredirs, peeked, more]
  | true =>
    right
    cases ts with
    | nil => cases more
    | cons op rest =>
      obtain ⟨s2, got, on2⟩ := on1.cons
      cases rest with
      | nil =>
        refine .inr ⟨op, [], rfl, rfl, by simp, ?_⟩
        simp [parseredirs, peeked, more, got, on2.nil.1]
      | cons t rest =>
        obtain ⟨s3, got', on3⟩ := on2.cons
        cases t with
        | word file =>
          refine .inl ?_
          cases op with
          | less | greater | append =>
            refine ⟨_, file, rest, _, s3, rfl, rfl, on3, ?_⟩
            simp [parseredirs, peeked, more, got, got', wrap]
          | _ => cases more
        | _ =>
          refine .inr ⟨op, _, rfl, rfl, by simp, ?_⟩
          simp [parseredirs, peeked, more, got, got']

theorem setArg_wrap (i : Nat) (v : Option Span) (cmd : Cmd) (rs : List Redir) :
    (wrap cmd rs).setArg i v = (cmd.setArg i v).map fun cmd => wrap cmd rs := by
  induction rs generalizing cmd with
  | nil => cases h : cmd.setArg i v <;> rw [wrap_nil, h] <;> rfl
  | cons r rs ih =>
    change (wrap (.redir cmd r.file r.mode r.fd) rs).setArg i v = _
    rw [ih, Cmd.setArg]
    cases cmd.setArg i v <;> rfl

/-- The next word goes into the next entry of the array. -/
theorem setArg_word {words : List Span} (few : words.length < MAXARGS) (span : Span) (rs : List Redir) :
    (wrap (.exec (argvOf words)) rs).setArg words.length (some span) =
    .ok (wrap (.exec (argvOf (words ++ [span]))) rs) := by
  have set : (argvOf words).set words.length (some span) = argvOf (words ++ [span]) := by
    obtain ⟨k, is⟩ := Nat.exists_eq_add_of_lt few
    have left : MAXARGS - words.length = k + 1 := by omega
    have left' : MAXARGS - (words ++ [span]).length = k := by
      rw [List.length_append, List.length_singleton]
      omega
    rw [argvOf, argvOf, left, left', List.set_append_right _ _ (by simp)]
    simp [List.replicate_succ]
  rw [setArg_wrap, Cmd.setArg, if_pos few, set]
  rfl

/-- The zero after the words is inside the array. -/
theorem setArg_zero {words : List Span} (few : words.length < MAXARGS) (rs : List Redir) :
    (wrap (.exec (argvOf words)) rs).setArg words.length none = .ok (wrap (.exec (argvOf words)) rs) := by
  have set : (argvOf words).set words.length none = argvOf words := by
    obtain ⟨k, is⟩ := Nat.exists_eq_add_of_lt few
    have left : MAXARGS - words.length = k + 1 := by omega
    rw [argvOf, left, List.set_append_right _ _ (by simp)]
    simp [List.replicate_succ]
  rw [setArg_wrap, Cmd.setArg, if_pos few, set]
  rfl

/-- A turn of the loop over the words at its end, at a word, or at another token. -/
theorem parseargs_turn (fuel : Nat) (on : On line s ts) {words : List Span} (few : words.length < MAXARGS)
    (rs : List Redir) :
    ((starts ['|', ')', '&', ';'] ts = true ∨ ts = []) ∧
        ∃ s', parseargs (fuel + 1) line (wrap (.exec (argvOf words)) rs) words.length s =
          .ok (wrap (.exec (argvOf words)) rs, s') ∧ On line s' ts) ∨
      (∃ span rest s', ts = .word span :: rest ∧ On line s' rest ∧
        parseargs (fuel + 1) line (wrap (.exec (argvOf words)) rs) words.length s =
          if MAXARGS ≤ words.length + 1 then .error (.panic "too many args")
          else parseredirs fuel line (wrap (.exec (argvOf (words ++ [span]))) rs) s' >>= fun (ret, s) =>
            parseargs fuel line ret (words.length + 1) s) ∨
      (∃ t rest, ts = t :: rest ∧ starts ['|', ')', '&', ';'] ts = false ∧ (∀ span, t ≠ .word span) ∧
        parseargs (fuel + 1) line (wrap (.exec (argvOf words)) rs) words.length s = .error (.panic "syntax")) := by
  obtain ⟨s1, peeked, on1⟩ := on.peek ['|', ')', '&', ';'] (by decide)
  have zero := setArg_zero few rs
  cases done : starts ['|', ')', '&', ';'] ts with
  | true =>
    refine .inl ⟨.inl rfl, s1, ?_, on1⟩
    simp [parseargs, peeked, done, zero, Except.map]
  | false =>
    cases ts with
    | nil =>
      refine .inl ⟨.inr rfl, skip line s1, ?_, on1.skip⟩
      simp [parseargs, peeked, done, on1.nil.1, zero, Except.map]
    | cons t rest =>
      right
      obtain ⟨s2, got, on2⟩ := on1.cons
      have notEof : t ≠ .eof := by
        rintro rfl
        have is := on.is
        unfold tokens at is
        split at is
        · cases is
        · exact absurd (List.cons.inj is).1 (by assumption)
      cases t with
      | word span =>
        refine .inl ⟨span, rest, s2, rfl, on2, ?_⟩
        simp [parseargs, peeked, done, got, setArg_word few span rs, bind, Except.bind]
      | eof => exact absurd rfl notEof
      | _ =>
        refine .inr ⟨_, rest, rfl, rfl, by simp, ?_⟩
        simp [parseargs, peeked, done, got]

/-- A turn of the loop over `&` at its end or at one more. -/
theorem parsebacks_turn (fuel : Nat) (cmd : Cmd) (on : On line s ts) :
    (starts ['&'] ts = false ∧ ∃ s', parsebacks (fuel + 1) line cmd s = .ok (cmd, s') ∧ On line s' ts) ∨
      ∃ rest s', ts = .amp :: rest ∧ On line s' rest ∧
        parsebacks (fuel + 1) line cmd s = parsebacks fuel line (.back cmd) s' := by
  obtain ⟨s1, peeked, on1⟩ := on.peek ['&'] (by decide)
  cases more : starts ['&'] ts with
  | false =>
    refine .inl ⟨rfl, s1, ?_, on1⟩
    simp [parsebacks, peeked, more]
  | true =>
    right
    cases ts with
    | nil => cases more
    | cons t rest =>
      obtain ⟨s2, got, on2⟩ := on1.cons
      cases t with
      | amp =>
        refine ⟨rest, s2, rfl, on2, ?_⟩
        simp [parsebacks, peeked, more, got]
      | _ => cases more

end Turns

/-! ## What the parser returns is derived -/

/-- The parser returned something with property `P`, or called `panic`. -/
def Parses (P : Cmd → Nat → Prop) : Except Stop (Cmd × Nat) → Prop
  | .ok (cmd, s) => P cmd s
  | .error (.panic _) => True
  | .error _ => False

theorem Parses.bind {P Q : Cmd → Nat → Prop} {x : Except Stop (Cmd × Nat)} {f : Cmd × Nat → Except Stop (Cmd × Nat)}
    (first : Parses P x) (rest : ∀ cmd s, P cmd s → Parses Q (f (cmd, s))) : Parses Q (x >>= f) := by
  rcases x with stop | ⟨cmd, s⟩
  · cases stop with
    | panic => trivial
    | overrun | turns => exact first
  · exact rest cmd s first

theorem Parses.mono {P Q : Cmd → Nat → Prop} {x : Except Stop (Cmd × Nat)} (first : Parses P x)
    (weaker : ∀ cmd s, P cmd s → Q cmd s) : Parses Q x := by
  rcases x with stop | ⟨cmd, s⟩
  · cases stop with
    | panic => trivial
    | overrun | turns => exact first
  · exact weaker cmd s first

section Sound

variable {line : List Char} {s : Nat} {ts : List Tok}

theorem redirs_parsed (cmd : Cmd) (on : On line s ts) (enough : ts.length < fuel) :
    Parses (fun cmd' s' => ∃ used rest rs, ts = used ++ rest ∧ On line s' rest ∧ Redirs used rs ∧ cmd' = wrap cmd rs)
      (parseredirs fuel line cmd s) := by
  induction fuel generalizing cmd s ts with
  | zero => cases enough
  | succ fuel ih =>
    rcases parseredirs_turn fuel cmd on with ⟨-, s', is, on'⟩ | ⟨op, file, rest, r, s', rfl, isRedir, on', is⟩ |
      ⟨op, rest, -, -, -, is⟩
    · rw [is]
      exact ⟨[], ts, [], rfl, on', .nil, rfl⟩
    · rw [is]
      refine (ih (wrap cmd [r]) on' (by simp only [List.length_cons] at enough; omega)).mono ?_
      rintro cmd' s'' ⟨used, rest', rs, rfl, on'', redirs, rfl⟩
      exact ⟨_, rest', r :: rs, rfl, on'', .cons isRedir redirs, (wrap_append cmd [r] rs).symm⟩
    · rw [is]
      trivial

theorem args_parsed (words : List Span) (rs : List Redir) (few : words.length < MAXARGS) (on : On line s ts)
    (enough : ts.length + 1 < fuel) :
    Parses (fun cmd' s' => ∃ used rest words' rs', ts = used ++ rest ∧ On line s' rest ∧ Words used words' rs' ∧
      (words ++ words').length ≤ MAXARGS - 1 ∧ cmd' = wrap (.exec (argvOf (words ++ words'))) (rs ++ rs'))
      (parseargs fuel line (wrap (.exec (argvOf words)) rs) words.length s) := by
  induction fuel generalizing words rs s ts with
  | zero => cases enough
  | succ fuel ih =>
    rcases parseargs_turn fuel on few rs with ⟨-, s', is, on'⟩ | ⟨span, rest, s', rfl, on', is⟩ | ⟨t, rest, -, -, -, is⟩
    · rw [is]
      exact ⟨[], ts, [], [], rfl, on', .nil, by rw [List.append_nil]; omega, by rw [List.append_nil, List.append_nil]⟩
    · rw [is]
      split
      · trivial
      case isFalse more =>
        have enough' : rest.length + 1 < fuel := by
          simp only [List.length_cons] at enough
          omega
        have length : words.length + 1 = (words ++ [span]).length := by
          rw [List.length_append, List.length_singleton]
        refine (redirs_parsed _ on' (by omega)).bind ?_
        rintro ret s1 ⟨used, rest1, rs1, rfl, on1, redirs, rfl⟩
        rw [← wrap_append, length]
        have less : rest1.length ≤ (used ++ rest1).length := by
          rw [List.length_append]
          omega
        refine (ih (words ++ [span]) (rs ++ rs1) (by omega) on1 (by omega)).mono ?_
        rintro ret' s2 ⟨used2, rest2, words2, rs2, rfl, on2, rest, few2, rfl⟩
        refine ⟨.word span :: (used ++ used2), rest2, span :: words2, rs1 ++ rs2, ?_, on2, .cons redirs rest, ?_, ?_⟩
        · simp only [List.cons_append, List.append_assoc]
        · rw [← List.append_cons] at few2
          exact few2
        · rw [List.append_cons words span words2, List.append_assoc rs]
    · rw [is]
      trivial

theorem backs_parsed (cmd : Cmd) (on : On line s ts) (enough : ts.length < fuel) :
    Parses (fun cmd' s' => ∃ n rest, ts = List.replicate n .amp ++ rest ∧ On line s' rest ∧ cmd' = Cmd.back^[n] cmd)
      (parsebacks fuel line cmd s) := by
  induction fuel generalizing cmd s ts with
  | zero => cases enough
  | succ fuel ih =>
    rcases parsebacks_turn fuel cmd on with ⟨-, s', is, on'⟩ | ⟨rest, s', rfl, on', is⟩
    · rw [is]
      exact ⟨0, ts, rfl, on', rfl⟩
    · rw [is]
      refine (ih (.back cmd) on' (by simp only [List.length_cons] at enough; omega)).mono ?_
      rintro cmd' s'' ⟨n, rest', rfl, on'', rfl⟩
      exact ⟨n + 1, rest', rfl, on'', (Function.iterate_succ_apply Cmd.back n cmd).symm⟩

/-- A part of the tokens was read and it derives the command. -/
def Got (line : List Char) (nt : Nonterminal) (ts : List Tok) (cmd : Cmd) (s' : Nat) : Prop :=
  ∃ used rest, ts = used ++ rest ∧ On line s' rest ∧ Derives nt used cmd

theorem line_parsed (on : On line s ts) (enough : ts.length < fuel)
    (pipe : Parses (Got line .pipe ts) (parsepipe fuel line s))
    (again : ∀ s' rest, On line s' rest → rest.length < ts.length →
      Parses (Got line .line rest) (parseline fuel line s')) :
    Parses (Got line .line ts) (parseline (fuel + 1) line s) := by
  unfold parseline
  refine pipe.bind ?_
  rintro cmd s1 ⟨used, rest, rfl, on1, derives⟩
  refine (backs_parsed cmd on1 (by rw [List.length_append] at enough; omega)).bind ?_
  rintro cmd' s2 ⟨n, rest2, rfl, on2, rfl⟩
  obtain ⟨s3, peeked, on3⟩ := on2.peek [';'] (by decide)
  simp only [peeked]
  cases more : starts [';'] rest2 with
  | false => exact ⟨used ++ List.replicate n .amp, rest2, by rw [List.append_assoc], on3, .line n derives⟩
  | true =>
    cases rest2 with
    | nil => cases more
    | cons t rest3 =>
      obtain ⟨s4, got, on4⟩ := on3.cons
      rw [got]
      refine (again s4 rest3 on4 (by simp only [List.length_append, List.length_cons]; omega)).bind ?_
      rintro right s5 ⟨used', rest', rfl, on5, derives'⟩
      cases t with
      | semi => exact ⟨_, rest', by simp [List.append_assoc], on5, .seq n derives derives'⟩
      | _ => cases more

theorem pipe_parsed (exec : Parses (Got line .exec ts) (parseexec fuel line s))
    (again : ∀ s' rest, On line s' rest → rest.length < ts.length →
      Parses (Got line .pipe rest) (parsepipe fuel line s')) :
    Parses (Got line .pipe ts) (parsepipe (fuel + 1) line s) := by
  unfold parsepipe
  refine exec.bind ?_
  rintro cmd s1 ⟨used, rest, rfl, on1, derives⟩
  obtain ⟨s2, peeked, on2⟩ := on1.peek ['|'] (by decide)
  simp only [peeked]
  cases more : starts ['|'] rest with
  | false => exact ⟨used, rest, rfl, on2, .last derives⟩
  | true =>
    cases rest with
    | nil => cases more
    | cons t rest =>
      obtain ⟨s3, got, on3⟩ := on2.cons
      rw [got]
      refine (again s3 rest on3 (by simp only [List.length_append, List.length_cons]; omega)).bind ?_
      rintro right s4 ⟨used', rest', rfl, on4, derives'⟩
      cases t with
      | bar => exact ⟨_, rest', by simp [List.append_assoc], on4, .pipe derives derives'⟩
      | _ => cases more

theorem block_parsed {rest : List Tok} (on : On line s (.lparen :: rest)) (enough : rest.length < fuel)
    (inner : ∀ s', On line s' rest → Parses (Got line .line rest) (parseline fuel line s')) :
    Parses (Got line .exec (.lparen :: rest)) (parseblock (fuel + 1) line s) := by
  obtain ⟨s1, peeked, on1⟩ := on.peek ['('] (by decide)
  obtain ⟨s2, got, on2⟩ := on1.cons
  unfold parseblock
  simp only [peeked, got]
  refine (inner s2 on2).bind ?_
  rintro cmd s3 ⟨used, rest', rfl, on3, derives⟩
  obtain ⟨s4, peeked', on4⟩ := on3.peek [')'] (by decide)
  simp only [peeked']
  cases closed : starts [')'] rest' with
  | false => trivial
  | true =>
    cases rest' with
    | nil => cases closed
    | cons t rest' =>
      obtain ⟨s5, got', on5⟩ := on4.cons
      simp only [got']
      refine (redirs_parsed cmd on5 (by simp only [List.length_append, List.length_cons] at enough; omega)).mono ?_
      rintro cmd' s6 ⟨used', rest'', rs, rfl, on6, redirs, rfl⟩
      cases t with
      | rparen => exact ⟨_, rest'', by simp [List.append_assoc], on6, .block derives redirs⟩
      | _ => cases closed

theorem exec_parsed (fuel : Nat) (on : On line s ts) (enough : ts.length + 1 < fuel)
    (block : ∀ s' rest, ts = .lparen :: rest → On line s' ts → Parses (Got line .exec ts) (parseblock fuel line s')) :
    Parses (Got line .exec ts) (parseexec (fuel + 1) line s) := by
  obtain ⟨s1, peeked, on1⟩ := on.peek ['('] (by decide)
  unfold parseexec
  simp only [peeked]
  cases isBlock : starts ['('] ts with
  | true =>
    cases ts with
    | nil => cases isBlock
    | cons t rest =>
      cases t with
      | lparen => exact block s1 rest rfl on1
      | _ => cases isBlock
  | false =>
    refine (redirs_parsed execcmd on1 (by omega)).bind ?_
    rintro ret s2 ⟨used, rest, rs, rfl, on2, redirs, rfl⟩
    have empty : execcmd = .exec (argvOf []) := rfl
    rw [empty]
    refine (args_parsed [] rs (by decide) on2 (by rw [List.length_append] at enough; omega)).mono ?_
    rintro ret' s3 ⟨used', rest', words, rs', rfl, on3, words', few, rfl⟩
    exact ⟨used ++ used', rest', by rw [List.append_assoc], on3, .simple redirs words' few⟩

/-- The turns that suffice to read so many tokens. -/
def turns (n : Nat) : Nonterminal → Nat
  | .line => 4 * n + 8
  | .pipe => 4 * n + 7
  | .exec => 4 * n + 6

def parse : Nonterminal → Nat → List Char → Nat → Except Stop (Cmd × Nat)
  | .line => parseline
  | .pipe => parsepipe
  | .exec => parseexec

/-- **The parser is sound and stops**: it returns a command derived from what it read, or
calls `panic`. -/
theorem parsed (fuel : Nat) (nt : Nonterminal) (on : On line s ts) (enough : turns ts.length nt ≤ fuel) :
    Parses (Got line nt ts) (parse nt fuel line s) := by
  induction fuel using Nat.strongRecOn generalizing nt s ts with
  | _ fuel ih =>
    cases nt with
    | line =>
      obtain ⟨fuel, rfl⟩ := Nat.exists_eq_add_of_le' (show 1 ≤ fuel by simp only [turns] at enough; omega)
      simp only [turns] at enough
      refine line_parsed on (by omega) (ih fuel (by omega) .pipe on (by simp only [turns]; omega)) ?_
      intro s' rest on' less
      exact ih fuel (by omega) .line on' (by simp only [turns]; omega)
    | pipe =>
      obtain ⟨fuel, rfl⟩ := Nat.exists_eq_add_of_le' (show 1 ≤ fuel by simp only [turns] at enough; omega)
      simp only [turns] at enough
      refine pipe_parsed (ih fuel (by omega) .exec on (by simp only [turns]; omega)) ?_
      intro s' rest on' less
      exact ih fuel (by omega) .pipe on' (by simp only [turns]; omega)
    | exec =>
      obtain ⟨fuel, rfl⟩ := Nat.exists_eq_add_of_le' (show 2 ≤ fuel by simp only [turns] at enough; omega)
      simp only [turns] at enough
      refine exec_parsed (fuel + 1) on (by omega) ?_
      rintro s' rest rfl on'
      rw [List.length_cons] at enough
      refine block_parsed on' (by omega) ?_
      intro s'' on''
      exact ih fuel (by omega) .line on'' (by simp only [turns]; omega)

end Sound

/-! ## What is derived is returned -/

/-- The tokens end, or go on with one of these symbols. -/
def Follow (toks : List Char) (ts : List Tok) : Prop := ts = [] ∨ starts toks ts = true

def Nonterminal.follow : Nonterminal → List Char
  | .line => [')']
  | .pipe => [')', '&', ';']
  | .exec => ['|', ')', '&', ';']

section Complete

variable {line : List Char} {s : Nat} {r used : List Tok} {rs : List Redir}

variable {toks : List Char}

theorem Follow.mono {toks' : List Char} (follow : Follow toks r) (more : toks.all toks'.contains) : Follow toks' r := by
  rcases follow with nil | starts
  · exact .inl nil
  · cases r with
    | nil => exact .inl rfl
    | cons t r =>
      refine .inr ?_
      simp only [Sh.starts, Option.any_eq_true, List.contains_iff_mem] at starts ⊢
      obtain ⟨c, is, mem⟩ := starts
      exact ⟨c, is, List.contains_iff_mem.mp (List.all_eq_true.mp more c mem)⟩

theorem Follow.not_starts (follow : Follow toks r) (toks' : List Char) (apart : toks.all (!toks'.contains ·)) :
    starts toks' r = false := by
  rcases follow with rfl | starts
  · rfl
  · cases r with
    | nil => rfl
    | cons t r =>
      rw [← Bool.not_eq_true]
      intro other
      simp only [Sh.starts, Option.any_eq_true, List.contains_iff_mem] at starts other
      obtain ⟨c, is, mem⟩ := starts
      obtain ⟨c', is', mem'⟩ := other
      obtain rfl : c = c' := Option.some.inj (is.symm.trans is')
      have outside := List.all_eq_true.mp apart c mem
      rw [List.contains_iff_mem.mpr mem'] at outside
      cases outside

/-- Redirections start with their operators only. -/
theorem Redirs.not_starts (redirs : Redirs used rs) (apart : ['<', '>'].all (!toks.contains ·))
    (after : starts toks r = false) : starts toks (used ++ r) = false := by
  cases redirs with
  | nil => exact after
  | cons is rest => exact Follow.not_starts (.inr (starts_redirection is _)) toks apart

theorem Words.not_starts {words : List Span} (args : Words used words rs) (after : starts toks r = false) :
    starts toks (used ++ r) = false := by
  cases args with
  | nil => exact after
  | cons => rfl

theorem redirs_returned (redirs : Redirs used rs) (fuel : Nat) (cmd : Cmd) (on : On line s (used ++ r))
    (after : starts ['<', '>'] r = false) (enough : (used ++ r).length < fuel) :
    ∃ s', parseredirs fuel line cmd s = .ok (wrap cmd rs, s') ∧ On line s' r := by
  obtain ⟨fuel, rfl⟩ := Nat.exists_eq_add_of_le' (show 1 ≤ fuel by omega)
  induction redirs generalizing fuel cmd s with
  | nil =>
    rcases parseredirs_turn fuel cmd on with ⟨-, s', is, on'⟩ | ⟨op, file, rest, _, s', rfl, isRedir, -, -⟩ |
      ⟨op, rest, -, begins, -, -⟩
    · exact ⟨s', is, on'⟩
    · rw [starts_redirection isRedir] at after
      cases after
    · rw [List.nil_append, after] at begins
      cases begins
  | @cons op file redir ts rs isRedir rest ih =>
    simp only [List.cons_append, List.length_cons] at enough
    obtain ⟨fuel, rfl⟩ := Nat.exists_eq_add_of_le' (show 1 ≤ fuel by omega)
    rcases parseredirs_turn (fuel + 1) cmd on with ⟨begins, -⟩ | ⟨op', file', rest', redir', s',
      parts, isRedir', on', is⟩ |
      ⟨op', rest', parts, -, missing, -⟩
    · rw [List.cons_append, starts_redirection isRedir] at begins
      cases begins
    · simp only [List.cons_append, List.cons.injEq, Tok.word.injEq] at parts
      obtain ⟨rfl, rfl, rfl⟩ := parts
      obtain rfl : redir = redir' := Option.some.inj (isRedir.symm.trans isRedir')
      rw [is]
      exact ih (wrap cmd [redir]) on' fuel (by omega)
    · simp only [List.cons_append, List.cons.injEq] at parts
      exact absurd parts.2.symm (missing _ _)

theorem args_returned {words' : List Span} {rs' : List Redir} (args : Words used words' rs')
    (fuel : Nat) (words : List Span)
    (rs : List Redir) (few : (words ++ words').length ≤ MAXARGS - 1) (on : On line s (used ++ r))
    (after : Follow ['|', ')', '&', ';'] r) (enough : (used ++ r).length + 1 < fuel) :
    ∃ s', parseargs fuel line (wrap (.exec (argvOf words)) rs) words.length s =
      .ok (wrap (.exec (argvOf (words ++ words'))) (rs ++ rs'), s') ∧ On line s' r := by
  obtain ⟨fuel, rfl⟩ := Nat.exists_eq_add_of_le' (show 1 ≤ fuel by omega)
  induction args generalizing fuel words rs s with
  | nil =>
    rw [List.append_nil] at few ⊢
    rw [List.append_nil]
    have below : words.length < MAXARGS := Nat.lt_of_le_of_lt few (by decide)
    rcases parseargs_turn fuel on below rs with ⟨-, s', is, on'⟩ | ⟨span, rest, s', rfl, -, -⟩ |
      ⟨t, rest, rfl, begins, -, -⟩
    · exact ⟨s', is, on'⟩
    · rcases after with no | no <;> cases no
    · rcases after with no | no
      · cases no
      · rw [List.nil_append, no] at begins
        cases begins
  | @cons span ts ts' words2 rs1 rs2 redirs rest ih =>
    have few' : (words ++ [span] ++ words2).length ≤ MAXARGS - 1 := by
      rw [← List.append_cons]
      exact few
    simp only [List.cons_append, List.append_assoc, List.length_cons, List.length_append] at enough few few' on
    obtain ⟨fuel, rfl⟩ := Nat.exists_eq_add_of_le' (show 1 ≤ fuel by omega)
    have below : words.length < MAXARGS := by omega
    rcases parseargs_turn (fuel + 1) on below rs with ⟨no | no, -⟩ | ⟨span', rest', s', parts, on', is⟩ |
      ⟨t, rest', parts, -, other, -⟩
    · cases no
    · cases no
    · obtain ⟨same, rfl⟩ := List.cons.inj parts
      obtain rfl : span = span' := Tok.word.inj same
      rw [is, if_neg (by omega)]
      have stops : starts ['<', '>'] (ts' ++ r) = false := rest.not_starts (after.not_starts _ (by decide))
      have enough' : (ts ++ (ts' ++ r)).length < fuel + 1 := by
        simp only [List.length_append]
        omega
      obtain ⟨s1, first, on1⟩ :=
        redirs_returned redirs (fuel + 1) (wrap (.exec (argvOf (words ++ [span]))) rs) on' stops enough'
      rw [first]
      have more :=
        ih (words ++ [span]) (rs ++ rs1) (by simp only [List.length_append, List.length_cons]; omega) on1 fuel
        (by simp only [List.length_append]; omega)
      rw [wrap_append, List.length_append, List.length_singleton, ← List.append_cons, List.append_assoc rs] at more
      exact more
    · obtain ⟨rfl, -⟩ := List.cons.inj parts
      exact absurd rfl (other span)

theorem backs_returned {n : Nat} (fuel : Nat) (cmd : Cmd) (on : On line s (List.replicate n .amp ++ r))
    (after : starts ['&'] r = false) (enough : n < fuel) :
    ∃ s', parsebacks fuel line cmd s = .ok (Cmd.back^[n] cmd, s') ∧ On line s' r := by
  obtain ⟨fuel, rfl⟩ := Nat.exists_eq_add_of_le' (show 1 ≤ fuel by omega)
  induction n generalizing fuel cmd s with
  | zero =>
    rcases parsebacks_turn fuel cmd on with ⟨-, s', is, on'⟩ | ⟨rest, s', parts, -, -⟩
    · exact ⟨s', is, on'⟩
    · obtain rfl : r = .amp :: rest := parts
      cases after
  | succ n ih =>
    obtain ⟨fuel, rfl⟩ := Nat.exists_eq_add_of_le' (show 1 ≤ fuel by omega)
    rcases parsebacks_turn (fuel + 1) cmd on with ⟨no, -⟩ | ⟨rest, s', parts, on', is⟩
    · cases no
    · obtain ⟨-, rfl⟩ := List.cons.inj parts
      rw [is, Function.iterate_succ_apply]
      exact ih (.back cmd) on' fuel (by omega)

/-- **The parser is complete**: it returns the command that a derivation denotes, and stops
where the derivation does. -/
theorem returned {nt : Nonterminal} {cmd : Cmd} (derives : Derives nt used cmd) (on : On line s (used ++ r))
    (after : Follow nt.follow r) (enough : turns (used ++ r).length nt ≤ fuel) :
    ∃ s', parse nt fuel line s = .ok (cmd, s') ∧ On line s' r := by
  obtain ⟨fuel, rfl⟩ := Nat.exists_eq_add_of_le' (show 1 ≤ fuel by cases nt <;> simp only [turns] at enough <;> omega)
  induction derives generalizing fuel s r with
  | @line ts cmd n pipe ih =>
    simp only [turns, List.length_append, List.length_replicate] at enough
    rw [List.append_assoc] at on
    obtain ⟨fuel, rfl⟩ := Nat.exists_eq_add_of_le' (show 1 ≤ fuel by omega)
    have notAmp : starts ['&'] r = false := after.not_starts _ (by decide)
    have follow : Follow Nonterminal.pipe.follow (List.replicate n .amp ++ r) := by
      cases n with
      | zero => exact after.mono (by decide)
      | succ n => exact .inr rfl
    obtain ⟨s1, first, on1⟩ :=
      ih on follow fuel (by simp only [turns, List.length_append, List.length_replicate]; omega)
    obtain ⟨s2, second, on2⟩ := backs_returned (fuel + 1) cmd on1 notAmp (by omega)
    obtain ⟨s3, peeked, on3⟩ := on2.peek [';'] (by decide)
    refine ⟨s3, ?_, on3⟩
    change parsepipe (fuel + 1) line s = _ at first
    simp [parse, parseline, first, second, peeked, after.not_starts [';'] (by decide), bind, Except.bind]
  | @seq ts ts' cmd right n pipe rest ih ih' =>
    simp only [turns, List.length_append, List.length_replicate, List.length_cons] at enough
    simp only [List.append_assoc, List.cons_append] at on
    obtain ⟨fuel, rfl⟩ := Nat.exists_eq_add_of_le' (show 1 ≤ fuel by omega)
    have follow : Follow Nonterminal.pipe.follow (List.replicate n .amp ++ .semi :: (ts' ++ r)) := by
      cases n with
      | zero => exact .inr rfl
      | succ n => exact .inr rfl
    obtain ⟨s1, first, on1⟩ := ih on follow fuel
      (by simp only [turns, List.length_append, List.length_replicate, List.length_cons]; omega)
    obtain ⟨s2, second, on2⟩ := backs_returned (fuel + 1) cmd on1 rfl (by omega)
    obtain ⟨s3, peeked, on3⟩ := on2.peek [';'] (by decide)
    obtain ⟨s4, got, on4⟩ := on3.cons
    obtain ⟨s5, third, on5⟩ := ih' on4 after fuel (by simp only [turns, List.length_append]; omega)
    refine ⟨s5, ?_, on5⟩
    change parsepipe (fuel + 1) line s = _ at first
    change parseline (fuel + 1) line s4 = _ at third
    have begins : starts [';'] (.semi :: (ts' ++ r)) = true := rfl
    simp [parse, parseline, first, second, peeked, begins, got, third, bind, Except.bind]
  | @last ts cmd exec ih =>
    simp only [turns] at enough
    obtain ⟨fuel, rfl⟩ := Nat.exists_eq_add_of_le' (show 1 ≤ fuel by omega)
    obtain ⟨s1, first, on1⟩ := ih on (after.mono (by decide)) fuel (by simp only [turns]; omega)
    obtain ⟨s2, peeked, on2⟩ := on1.peek ['|'] (by decide)
    refine ⟨s2, ?_, on2⟩
    change parseexec (fuel + 1) line s = _ at first
    simp [parse, parsepipe, first, peeked, after.not_starts ['|'] (by decide), bind, Except.bind]
  | @pipe ts ts' cmd right exec rest ih ih' =>
    simp only [turns, List.length_append, List.length_cons] at enough
    simp only [List.append_assoc, List.cons_append] at on
    obtain ⟨fuel, rfl⟩ := Nat.exists_eq_add_of_le' (show 1 ≤ fuel by omega)
    obtain ⟨s1, first, on1⟩ := ih on (.inr rfl) fuel (by simp only [turns, List.length_append, List.length_cons]; omega)
    obtain ⟨s2, peeked, on2⟩ := on1.peek ['|'] (by decide)
    obtain ⟨s3, got, on3⟩ := on2.cons
    obtain ⟨s4, second, on4⟩ := ih' on3 after fuel (by simp only [turns, List.length_append]; omega)
    refine ⟨s4, ?_, on4⟩
    change parseexec (fuel + 1) line s = _ at first
    change parsepipe (fuel + 1) line s3 = _ at second
    have begins : starts ['|'] (.bar :: (ts' ++ r)) = true := rfl
    simp [parse, parsepipe, first, peeked, begins, got, second, bind, Except.bind]
  | @block ts ts' cmd rs inner redirs ih =>
    simp only [turns, List.length_append, List.length_cons] at enough
    simp only [List.append_assoc, List.cons_append] at on
    obtain ⟨fuel, rfl⟩ := Nat.exists_eq_add_of_le' (show 2 ≤ fuel by omega)
    obtain ⟨s1, peeked, on1⟩ := on.peek ['('] (by decide)
    obtain ⟨s2, peeked2, on2⟩ := on1.peek ['('] (by decide)
    obtain ⟨s3, got, on3⟩ := on2.cons
    obtain ⟨s4, first, on4⟩ :=
      ih on3 (.inr rfl) fuel (by simp only [turns, List.length_append, List.length_cons]; omega)
    obtain ⟨s5, peeked3, on5⟩ := on4.peek [')'] (by decide)
    obtain ⟨s6, got2, on6⟩ := on5.cons
    obtain ⟨s7, second, on7⟩ := redirs_returned redirs (fuel + 1) cmd on6 (after.not_starts _ (by decide))
      (by simp only [List.length_append]; omega)
    refine ⟨s7, ?_, on7⟩
    change parseline (fuel + 1) line s3 = _ at first
    have opens : starts ['('] (.lparen :: (ts ++ .rparen :: (ts' ++ r))) = true := rfl
    have closes : starts [')'] (.rparen :: (ts' ++ r)) = true := rfl
    simp [parse, parseexec, parseblock, peeked, peeked2, opens, got, first, peeked3, closes, got2,
      second, bind, Except.bind]
  | @simple ts ts' words rs rs' redirs rest few =>
    simp only [turns, List.length_append] at enough
    rw [List.append_assoc] at on
    have notBlock : starts ['('] (ts ++ (ts' ++ r)) = false :=
      redirs.not_starts (by decide) (rest.not_starts (after.not_starts _ (by decide)))
    obtain ⟨s1, peeked, on1⟩ := on.peek ['('] (by decide)
    obtain ⟨s2, first, on2⟩ := redirs_returned redirs fuel execcmd on1
      (rest.not_starts (after.not_starts _ (by decide))) (by simp only [List.length_append]; omega)
    obtain ⟨s3, second, on3⟩ := args_returned rest fuel [] rs few on2 after (by simp only [List.length_append]; omega)
    refine ⟨s3, ?_, on3⟩
    have empty : execcmd = .exec (argvOf []) := rfl
    rw [← empty] at second
    simp only [parse, parseexec, peeked, notBlock, first, bind, Except.bind]
    exact second

end Complete

/-! ## The strings of a command -/

/-- The words of a command and the file names of its redirections. -/
def spans : Cmd → List Span
  | .exec argv => (argv.takeWhile Option.isSome).filterMap id
  | .redir cmd file _ _ => spans cmd ++ [file]
  | .pipe left right => spans left ++ spans right
  | .list left right => spans left ++ spans right
  | .back cmd => spans cmd

/-- The C string at an offset of the buffer. -/
def cstr (buf : List Char) (q : Nat) : List Char := (buf.drop q).takeWhile (· != NUL)

/-- The characters of the span. -/
def slice (line : List Char) (span : Span) : List Char := (line.drop span.1).take (span.2 - span.1)

section Strings

variable {line : List Char} {ts : List Tok} {cmd : Cmd}

def stores (buf : List Char) (ends : List Span) : List Char := ends.foldl (fun buf arg => buf.set arg.2 NUL) buf

theorem nulterminate_eq (cmd : Cmd) (buf : List Char) : nulterminate cmd buf = stores buf (spans cmd) := by
  induction cmd generalizing buf with
  | exec argv => rfl
  | redir cmd file mode fd ih =>
    rw [nulterminate, ih, spans, stores, stores, List.foldl_append]
    rfl
  | pipe left right ihL ihR | list left right ihL ihR =>
    rw [nulterminate, ihL, ihR, spans, stores, stores, stores, List.foldl_append]
  | back cmd ih => exact ih buf

theorem getElem?_stores (buf : List Char) (l : List Span) (i : Nat) :
    (stores buf l)[i]? = if i ∈ l.map Prod.snd then buf[i]?.map fun _ => NUL else buf[i]? := by
  induction l generalizing buf with
  | nil => simp [stores]
  | cons span l ih =>
    change (stores (buf.set span.2 NUL) l)[i]? = _
    rw [ih, List.getElem?_set']
    by_cases here : span.2 = i
    · have mem : i ∈ (span :: l).map Prod.snd := List.mem_map.mpr ⟨span, List.mem_cons_self, here⟩
      rw [if_pos here, if_pos mem]
      split <;> cases buf[i]? <;> rfl
    · have mem : i ∈ (span :: l).map Prod.snd ↔ i ∈ l.map Prod.snd := by
        rw [List.map_cons, List.mem_cons, or_iff_right (Ne.symm here)]
      rw [if_neg here]
      simp only [mem]

/-- A list that runs without NUL up to `k` and has one there. -/
theorem takeWhile_eq_take {l : List Char} {k : Nat} (before : ∀ i < k, ∃ c, l[i]? = some c ∧ c ≠ NUL)
    (stops : l[k]? = some NUL) : l.takeWhile (· != NUL) = l.take k := by
  induction k generalizing l with
  | zero =>
    cases l with
    | nil => rfl
    | cons c l =>
      obtain rfl : c = NUL := by simpa using stops
      rfl
  | succ k ih =>
    cases l with
    | nil => rfl
    | cons c l =>
      obtain ⟨c', is, some'⟩ := before 0 (Nat.succ_pos k)
      obtain rfl : c = c' := by simpa using is
      rw [List.takeWhile_cons_of_pos (by simpa using some'), List.take_succ_cons, ih]
      · intro i below
        exact before (i + 1) (by omega)
      · exact stops

theorem at'_eq_getElem? {i : Nat} (inLine : i < line.length) : (line)[i]? = some (at' line i) := by
  rw [at', List.getD_eq_getElem?_getD, List.getElem?_eq_getElem inLine]
  rfl

/-- After the stores at the ends of the words, each word is a string of its own. -/
theorem cstr_stores {l : List Span} (clean : NUL ∉ line) (words : ∀ span ∈ l, IsWord line span) (mem : span ∈ l) :
    cstr (stores (line ++ [NUL]) l) span.1 = slice line span := by
  have word := words span mem
  have some' := word.some'
  have inLine := word.inLine
  -- no store hits a character of the word: the character after a word is not plain
  have inside : ∀ i, span.1 ≤ i → i < span.2 → (stores (line ++ [NUL]) l)[i]? = (line)[i]? := by
    intro i low high
    rw [getElem?_stores, if_neg, List.getElem?_append_left (by omega)]
    intro hit
    obtain ⟨other, inList, is⟩ := List.mem_map.mp hit
    have stops := (words other inList).ends (by omega)
    rw [is, word.plain i low high] at stops
    cases stops
  have here : (stores (line ++ [NUL]) l)[span.2]? = some NUL := by
    rw [getElem?_stores, if_pos (List.mem_map_of_mem mem), List.getElem?_eq_getElem (by simp; omega)]
    rfl
  rw [cstr, takeWhile_eq_take (k := span.2 - span.1), slice]
  · apply List.ext_getElem?
    intro i
    simp only [List.getElem?_take, List.getElem?_drop]
    split
    · exact inside _ (by omega) (by omega)
    · rfl
  · intro i below
    rw [List.getElem?_drop, inside _ (by omega) (by omega), at'_eq_getElem? (by omega)]
    refine ⟨_, rfl, ?_⟩
    intro nul
    have char := at'_eq_getElem? (show span.1 + i < line.length by omega)
    rw [nul] at char
    exact clean (List.mem_of_getElem? char)
  · rw [List.getElem?_drop, Nat.add_sub_cancel' (Nat.le_of_lt some')]
    exact here

theorem spans_wrap (cmd : Cmd) (rs : List Redir) : spans (wrap cmd rs) = spans cmd ++ rs.map Redir.file := by
  induction rs generalizing cmd with
  | nil => simp
  | cons r rs ih =>
    change spans (wrap (.redir cmd r.file r.mode r.fd) rs) = _
    rw [ih, spans, List.map_cons, List.append_assoc, List.singleton_append]

theorem spans_exec (words : List Span) : spans (.exec (argvOf words)) = words := by
  have none' : (List.replicate (MAXARGS - words.length) (none : Option Span)).takeWhile Option.isSome = [] := by
    cases MAXARGS - words.length <;> rfl
  have all : ∀ entry ∈ words.map some, entry.isSome = true := by
    intro entry mem
    obtain ⟨span, -, rfl⟩ := List.mem_map.mp mem
    rfl
  rw [spans, argvOf, List.takeWhile_append_of_pos all, none', List.append_nil, List.filterMap_map]
  exact List.filterMap_some

theorem spans_back (n : Nat) (cmd : Cmd) : spans (Cmd.back^[n] cmd) = spans cmd := by
  induction n generalizing cmd with
  | zero => rfl
  | succ n ih => rw [Function.iterate_succ_apply, ih, spans]

theorem Redirs.words {rs : List Redir} (redirs : Redirs ts rs) : ∀ span ∈ rs.map Redir.file, .word span ∈ ts := by
  induction redirs with
  | nil => simp
  | @cons op file r ts rs is rest ih =>
    intro span mem
    rcases List.mem_cons.mp mem with rfl | mem
    · have named : r.file = file := by
        cases op <;> cases is <;> rfl
      simp [named]
    · simp [ih span mem]

theorem Words.words {words : List Span} {rs : List Redir} (args : Words ts words rs) :
    (∀ span ∈ words, .word span ∈ ts) ∧ ∀ span ∈ rs.map Redir.file, .word span ∈ ts := by
  induction args with
  | nil => simp
  | @cons span ts ts' words rs rs' redirs rest ih =>
    constructor
    · intro w mem
      rcases List.mem_cons.mp mem with rfl | mem
      · exact List.mem_cons_self
      · simp [ih.1 w mem]
    · intro w mem
      rw [List.map_append, List.mem_append] at mem
      rcases mem with mem | mem
      · simp [redirs.words w mem]
      · simp [ih.2 w mem]

/-- The words of a derived command are among its tokens. -/
theorem Derives.words {nt : Nonterminal} (derives : Derives nt ts cmd) : ∀ span ∈ spans cmd, .word span ∈ ts := by
  induction derives with
  | line n pipe ih =>
    intro span mem
    rw [spans_back] at mem
    exact List.mem_append_left _ (ih span mem)
  | seq n pipe rest ih ih' =>
    intro span mem
    rw [spans, spans_back, List.mem_append] at mem
    rcases mem with mem | mem
    · simp [ih span mem]
    · simp [ih' span mem]
  | last exec ih => exact ih
  | pipe exec rest ih ih' =>
    intro span mem
    rw [spans, List.mem_append] at mem
    rcases mem with mem | mem
    · simp [ih span mem]
    · simp [ih' span mem]
  | block inner redirs ih =>
    intro span mem
    rw [spans_wrap, List.mem_append] at mem
    rcases mem with mem | mem
    · simp [ih span mem]
    · simp [redirs.words span mem]
  | simple redirs rest few =>
    intro span mem
    rw [spans_wrap, spans_exec, List.map_append, List.mem_append, List.mem_append] at mem
    rcases mem with mem | mem | mem
    · simp [rest.words.1 span mem]
    · simp [redirs.words span mem]
    · simp [rest.words.2 span mem]

end Strings

/-! ## The whole line -/

section Whole

variable {line : List Char}

theorem On.start (line : List Char) : On line 0 (tokens line 0) := ⟨rfl, Nat.zero_le _⟩

/-- Nothing is left exactly when the cursor comes to the end over white space. -/
theorem On.at_end {s : Nat} (clean : NUL ∉ line) (on : On line s ts) : ts = [] ↔ Sh.skip line s = line.length := by
  constructor
  · rintro rfl
    have nul := on.nil.2
    have upper : Sh.skip line s ≤ line.length := skipWhile_le on.inLine
    refine Nat.le_antisymm upper (Nat.not_lt.mp ?_)
    intro inLine
    have char := at'_eq_getElem? inLine
    rw [nul] at char
    exact clean (List.mem_of_getElem? char)
  · intro ends
    have length := length_tokens line (Sh.skip line s)
    rw [ends, Nat.sub_self, ← ends, on.skip.is] at length
    exact List.length_eq_zero_iff.mp (Nat.le_zero.mp length)

/-- The line in a buffer. -/
theorem line_clean (buf : List Char) : NUL ∉ buf.takeWhile (· != NUL) := by
  intro mem
  simpa using List.mem_takeWhile_imp mem

theorem parsecmd_eq (buf : List Char) (isLine : buf.takeWhile (· != NUL) = line) :
    parsecmd buf = parseline (4 * line.length + 8) line 0 >>= fun (cmd, s) =>
      if skip line s != line.length then .error (.panic "syntax") else .ok (cmd, nulterminate cmd (line ++ [NUL])) := by
  rw [← isLine]
  rfl

theorem turns_enough (line : List Char) : turns (tokens line 0).length .line ≤ 4 * line.length + 8 := by
  have := length_tokens line 0
  simp only [turns]
  omega

/-- A command that `parsecmd` returns is derived from the tokens of the line. -/
theorem parsecmd_derived {buf buf' : List Char} {cmd : Cmd} (isLine : buf.takeWhile (· != NUL) = line)
    (is : parsecmd buf = .ok (cmd, buf')) :
    Derives .line (tokens line 0) cmd ∧ buf' = nulterminate cmd (line ++ [NUL]) := by
  have clean : NUL ∉ line := isLine ▸ line_clean buf
  have sound := parsed (4 * line.length + 8) .line (On.start line) (turns_enough line)
  rw [parsecmd_eq buf isLine] at is
  change Parses _ (parseline _ line 0) at sound
  cases parse : parseline (4 * line.length + 8) line 0 with
  | error stop =>
    rw [parse] at is
    cases is
  | ok result =>
    obtain ⟨cmd', s⟩ := result
    rw [parse] at is sound
    obtain ⟨used, rest, whole, on, derives⟩ := sound
    change (if _ then _ else _) = _ at is
    split at is
    · cases is
    case isFalse atEnd =>
      cases is
      obtain rfl : rest = [] := (on.at_end clean).mpr (by simpa using atEnd)
      rw [whole, List.append_nil]
      exact ⟨derives, rfl⟩

/-- **The shell's parser accepts exactly its grammar.** On every buffer, `parsecmd` returns a
command exactly when the tokens of the line derive it; otherwise it calls `panic`.  In the
buffer it leaves, every word and file name of the command is a string of its own. -/
theorem parse_grammar (buf : List Char) :
    (∀ cmd, (∃ buf', parsecmd buf = .ok (cmd, buf')) ↔ Derives .line (tokens (buf.takeWhile (· != NUL)) 0) cmd) ∧
      (∀ stop, parsecmd buf = .error stop → ∃ text, stop = .panic text) ∧
      ∀ cmd buf', parsecmd buf = .ok (cmd, buf') →
        ∀ span ∈ spans cmd, cstr buf' span.1 = slice (buf.takeWhile (· != NUL)) span := by
  obtain ⟨line, isLine⟩ : ∃ line, buf.takeWhile (· != NUL) = line := ⟨_, rfl⟩
  have clean : NUL ∉ line := isLine ▸ line_clean buf
  have enough := turns_enough line
  have sound := parsed (4 * line.length + 8) .line (On.start line) enough
  have unfolded := parsecmd_eq buf isLine
  rw [isLine]
  refine ⟨?_, ?_, ?_⟩
  · intro cmd
    constructor
    · rintro ⟨buf', is⟩
      exact (parsecmd_derived isLine is).1
    · intro derives
      have on := On.start line
      rw [← List.append_nil (tokens line 0)] at on enough
      obtain ⟨s, parse, on'⟩ := returned derives on (.inl rfl) enough
      change parseline _ line 0 = _ at parse
      refine ⟨nulterminate cmd (line ++ [NUL]), ?_⟩
      rw [unfolded, parse]
      have atEnd : skip line s = line.length := (on'.at_end clean).mp rfl
      simp [atEnd, bind, Except.bind]
  · intro stop is
    rw [unfolded] at is
    change Parses _ (parseline _ line 0) at sound
    cases parse : parseline (4 * line.length + 8) line 0 with
    | error stop' =>
      rw [parse] at is sound
      cases is
      cases stop with
      | panic text => exact ⟨text, rfl⟩
      | overrun | turns => exact sound.elim
    | ok result =>
      rw [parse] at is
      change (if _ then _ else _) = _ at is
      split at is
      · cases is
        exact ⟨_, rfl⟩
      · cases is
  · intro cmd buf' is span mem
    obtain ⟨derives, rfl⟩ := parsecmd_derived isLine is
    rw [nulterminate_eq]
    exact cstr_stores clean (fun w inSpans => isWord_of_mem (derives.words w inSpans)) mem

example : parsecmd "a<b &".toList =
    .ok (.back (.redir (.exec (argvOf [(0, 1)])) (2, 3) O_RDONLY 0), ['a', NUL, 'b', NUL, '&', NUL]) := by
  decide +kernel

end Whole

/-! ## Every string of every node -/

/-- `c` is a node of the tree. -/
inductive Node (c : Cmd) : Cmd → Prop
  | root : Node c c
  | redir {cmd : Cmd} {file : Span} {mode fd : Nat} (below : Node c cmd) : Node c (.redir cmd file mode fd)
  | pipeLeft {left right : Cmd} (below : Node c left) : Node c (.pipe left right)
  | pipeRight {left right : Cmd} (below : Node c right) : Node c (.pipe left right)
  | listLeft {left right : Cmd} (below : Node c left) : Node c (.list left right)
  | listRight {left right : Cmd} (below : Node c right) : Node c (.list left right)
  | back {cmd : Cmd} (below : Node c cmd) : Node c (.back cmd)

/-- Every array of words has its zeros at the end. -/
def Tidy : Cmd → Prop
  | .exec argv => ∃ words, argv = argvOf words
  | .redir cmd _ _ _ => Tidy cmd
  | .pipe left right => Tidy left ∧ Tidy right
  | .list left right => Tidy left ∧ Tidy right
  | .back cmd => Tidy cmd

section Nodes

variable {cmd : Cmd}

theorem spans_node {c : Cmd} (node : Node c cmd) : ∀ span ∈ spans c, span ∈ spans cmd := by
  induction node with
  | root => exact fun _ mem => mem
  | redir _ ih => exact fun span mem => List.mem_append_left _ (ih span mem)
  | pipeLeft _ ih | listLeft _ ih => exact fun span mem => List.mem_append_left _ (ih span mem)
  | pipeRight _ ih | listRight _ ih => exact fun span mem => List.mem_append_right _ (ih span mem)
  | back _ ih => exact ih

theorem Tidy.node {c : Cmd} (node : Node c cmd) (tidy : Tidy cmd) : Tidy c := by
  induction node with
  | root => exact tidy
  | redir _ ih | back _ ih => exact ih tidy
  | pipeLeft _ ih | listLeft _ ih => exact ih tidy.1
  | pipeRight _ ih | listRight _ ih => exact ih tidy.2

theorem tidy_wrap (rs : List Redir) : Tidy (wrap cmd rs) ↔ Tidy cmd := by
  induction rs generalizing cmd with
  | nil => exact Iff.rfl
  | cons r rs ih => exact ih

theorem tidy_back (n : Nat) : Tidy (Cmd.back^[n] cmd) ↔ Tidy cmd := by
  induction n generalizing cmd with
  | zero => exact Iff.rfl
  | succ n ih => exact ih

theorem Derives.tidy {nt : Nonterminal} (derives : Derives nt ts cmd) : Tidy cmd := by
  induction derives with
  | line n pipe ih => exact (tidy_back n).2 ih
  | seq n pipe rest ih ih' => exact ⟨(tidy_back n).2 ih, ih'⟩
  | last exec ih => exact ih
  | pipe exec rest ih ih' => exact ⟨ih, ih'⟩
  | block inner redirs ih => exact (tidy_wrap _).2 ih
  | simple redirs rest few => exact (tidy_wrap _).2 ⟨_, rfl⟩

/-- The words of an `execcmd` are the entries of its array. -/
theorem Tidy.mem_spans {argv : List (Option Span)} (tidy : Tidy (.exec argv)) (mem : some span ∈ argv) :
    span ∈ spans (.exec argv) := by
  obtain ⟨words, rfl⟩ := tidy
  rw [spans_exec]
  rcases List.mem_append.1 mem with first | rest
  · simpa using first
  · cases List.eq_of_mem_replicate rest

end Nodes

/-- **Words come out intact.**  In the buffer that an accepted line leaves, every word of every
`execcmd` and every file name of every `redircmd` is a token of the line and, read as a string,
exactly its characters.  The terminator of one token is never a character of another, and the
buffer differs from the line at the terminators only. -/
theorem words_intact {buf buf' : List Char} {cmd : Cmd} (accepted : parsecmd buf = .ok (cmd, buf')) :
    let line := buf.takeWhile (· != NUL)
    (∀ argv, Node (.exec argv) cmd → ∀ (i : Nat) (span : Span), argv[i]? = some (some span) →
      .word span ∈ tokens line 0 ∧ cstr buf' span.1 = slice line span) ∧
    (∀ sub file mode fd, Node (.redir sub file mode fd) cmd → .word file ∈ tokens line 0 ∧
      cstr buf' file.1 = slice line file) ∧
    (∀ span ∈ spans cmd, ∀ other ∈ spans cmd, ¬ (span.1 ≤ other.2 ∧ other.2 < span.2)) ∧
    ∀ i, (∀ span ∈ spans cmd, i ≠ span.2) → buf'[i]? = (line ++ [NUL])[i]? := by
  intro line
  obtain ⟨derives, rfl⟩ := @parsecmd_derived line buf _ cmd rfl accepted
  have words : ∀ span ∈ spans cmd, IsWord line span := fun span mem => isWord_of_mem (derives.words span mem)
  have string : ∀ span ∈ spans cmd, .word span ∈ tokens line 0 ∧
    cstr (nulterminate cmd (line ++ [NUL])) span.1 = slice line span := by
    intro span mem
    rw [nulterminate_eq]
    exact ⟨derives.words span mem, cstr_stores (line_clean buf) words mem⟩
  refine ⟨fun argv node i span at' => ?_, fun sub file mode fd node => ?_, fun span mem other mem' => ?_,
    fun i outside => ?_⟩
  · exact string span (spans_node node span ((derives.tidy.node node).mem_spans (List.mem_of_getElem? at')))
  · exact string file (spans_node node file (List.mem_append_right _ (List.mem_singleton.2 rfl)))
  · rintro ⟨low, high⟩
    have stops := (words other mem').ends (Nat.lt_of_lt_of_le high (words span mem).inLine)
    rw [(words span mem).plain other.2 low high] at stops
    cases stops
  · rw [nulterminate_eq, getElem?_stores, if_neg]
    intro hit
    obtain ⟨span, mem, is⟩ := List.mem_map.1 hit
    exact outside span mem is.symm

theorem words_intact_sample : parsecmd "a<b &".toList =
      .ok (.back (.redir (.exec (argvOf [(0, 1)])) (2, 3) O_RDONLY 0), ['a', NUL, 'b', NUL, '&', NUL]) ∧
    cstr ['a', NUL, 'b', NUL, '&', NUL] 2 = ['b'] := by
  have accepted : parsecmd "a<b &".toList =
      .ok (.back (.redir (.exec (argvOf [(0, 1)])) (2, 3) O_RDONLY 0), ['a', NUL, 'b', NUL, '&', NUL]) := by
        decide +kernel
  exact ⟨accepted, ((words_intact accepted).2.1 _ (2, 3) O_RDONLY 0 (.back .root)).2⟩

end Xv6.User.Sh
