import Mathlib.Logic.Function.Basic
import Xv6.Base.Fuel

/-!
# The parser of the shell

The model of the parser of `sh.c`. A pointer into the command is the number of characters from it to
the terminating NUL: `es` is 0, `s++` is `s - 1`, and `c s` is the character at `s`. `gettoken` and
`peek` return the new `*ps` beside their result. The calls of the recursive descent and the loops get
fuel; `malloc` succeeds.

`parseexec` fills the arguments of its command, which the redirections around it point to:
`Cmd.addArg` puts an argument to the command inside them.
-/

namespace Sh

def NUL : Char := Char.ofNat 0

/-- A NUL-terminated string. -/
structure Str where
  len : Nat
  chr : Nat → Char
  nul : chr 0 = NUL
  ne_nul : ∀ s, 0 < s → s ≤ len → chr s ≠ NUL

def MAXARGS : Nat := 10
def O_RDONLY : Nat := 0x000
def O_WRONLY : Nat := 0x001
def O_CREATE : Nat := 0x200

/-! ## Commands -/

/-- A command. An argument or a file is a pointer to its first character and one behind its last. -/
inductive Cmd
  | exec (argv : List (Nat × Nat))
  | redir (cmd : Cmd) (file efile mode fd : Nat)
  | pipe (left right : Cmd)
  | list (left right : Cmd)
  | back (cmd : Cmd)

/-- `cmd->argv[argc] = q; cmd->eargv[argc] = eq`, with the redirections around `cmd`. -/
def Cmd.addArg (arg : Nat × Nat) : Cmd → Cmd
  | .exec argv => .exec (argv ++ [arg])
  | .redir cmd file efile mode fd => .redir (cmd.addArg arg) file efile mode fd
  | cmd => cmd

/-- NUL behind all the counted strings. -/
def nulterminate : Cmd → (Nat → Char) → Nat → Char
  | .exec argv, c => argv.foldl (fun c arg => Function.update c arg.2 NUL) c
  | .redir cmd _ efile _ _, c => Function.update (nulterminate cmd c) efile NUL
  | .pipe left right, c => nulterminate right (nulterminate left c)
  | .list left right, c => nulterminate right (nulterminate left c)
  | .back cmd, c => nulterminate cmd c

/-! ## Tokens -/

def whitespace : List Char := [' ', '\t', '\r', '\n', Char.ofNat 11]
def symbols : List Char := ['<', '|', '>', '&', ';', '(', ')']

/-- What `gettoken` returns: the symbol, `+` for `>>`, `a` for a word or NUL at the end; and where the
token begins and ends. -/
structure Token where
  ret : Char
  q : Nat
  eq : Nat

section
variable (c : Nat → Char)

/-- `while(s < es && strchr(whitespace, *s)) s++`. -/
def skip : Nat → Nat
  | 0 => 0
  | s + 1 => if c (s + 1) ∈ whitespace then skip s else s + 1

/-- `while(s < es && !strchr(whitespace, *s) && !strchr(symbols, *s)) s++`. -/
def word : Nat → Nat
  | 0 => 0
  | s + 1 => if c (s + 1) ∉ whitespace ∧ c (s + 1) ∉ symbols then word s else s + 1

/-- The `switch` of `gettoken`. -/
def scan (s : Nat) : Char × Nat :=
  if c s = NUL then (NUL, s)
  else if c s ∈ ['|', '(', ')', ';', '&', '<'] then (c s, s - 1)
  else if c s = '>' then
    if c (s - 1) = '>' then ('+', s - 1 - 1) else ('>', s - 1)
  else ('a', word c s)

/-- The next token, and the place behind it. -/
def gettoken (ps : Nat) : Token × Nat :=
  let q := skip c ps
  let (ret, s) := scan c q
  (⟨ret, q, s⟩, skip c s)

/-- Is the next character that is not blank one of `toks`? -/
def peek (ps : Nat) (toks : List Char) : Bool × Nat :=
  let s := skip c ps
  (c s ≠ NUL ∧ c s ∈ toks, s)

/-! ## Parsing -/

/-- A parse, or the text of a `panic`. -/
inductive Res (α : Type)
  | ok (a : α) (ps : Nat)
  | panic (text : String)

def Res.andThen {α β : Type} (m : Option (Res α)) (f : α → Nat → Option (Res β)) : Option (Res β) :=
  match m with
  | none => none
  | some (.panic text) => some (.panic text)
  | some (.ok a ps) => f a ps

/-- The `switch` of `parseredirs`. -/
def redirect (tok : Char) (cmd : Cmd) (q eq : Nat) : Cmd :=
  if tok = '<' then .redir cmd q eq O_RDONLY 0
  else if tok = '>' ∨ tok = '+' then .redir cmd q eq (O_WRONLY ||| O_CREATE) 1
  else cmd

def parseredirs : Nat → Cmd → Nat → Option (Res Cmd)
  | 0, _, _ => none
  | fuel + 1, cmd, ps =>
    let (more, ps) := peek c ps ['<', '>']
    if more then
      let (tok, ps) := gettoken c ps
      let (file, ps) := gettoken c ps
      if file.ret ≠ 'a' then some (.panic "missing file for redirection")
      else parseredirs fuel (redirect tok.ret cmd file.q file.eq) ps
    else some (.ok cmd ps)

def parseargs : Nat → Cmd → Nat → Nat → Option (Res Cmd)
  | 0, _, _, _ => none
  | fuel + 1, ret, argc, ps =>
    let (stop, ps) := peek c ps ['|', ')', '&', ';']
    if stop then some (.ok ret ps)
    else
      let (tok, ps) := gettoken c ps
      if tok.ret = NUL then some (.ok ret ps)
      else if tok.ret ≠ 'a' then some (.panic "syntax")
      else
        let ret := ret.addArg (tok.q, tok.eq)
        let argc := argc + 1
        if MAXARGS ≤ argc then some (.panic "too many args")
        else Res.andThen (parseredirs c fuel ret ps) fun ret ps => parseargs fuel ret argc ps

def parseback : Nat → Cmd → Nat → Option (Res Cmd)
  | 0, _, _ => none
  | fuel + 1, cmd, ps =>
    let (more, ps) := peek c ps ['&']
    if more then
      let (_, ps) := gettoken c ps
      parseback fuel (.back cmd) ps
    else some (.ok cmd ps)

mutual

def parseline : Nat → Nat → Option (Res Cmd)
  | 0, _ => none
  | fuel + 1, ps =>
    Res.andThen (parsepipe fuel ps) fun cmd ps =>
    Res.andThen (parseback c fuel cmd ps) fun cmd ps =>
    let (more, ps) := peek c ps [';']
    if more then
      let (_, ps) := gettoken c ps
      Res.andThen (parseline fuel ps) fun right ps => some (.ok (.list cmd right) ps)
    else some (.ok cmd ps)

def parsepipe : Nat → Nat → Option (Res Cmd)
  | 0, _ => none
  | fuel + 1, ps =>
    Res.andThen (parseexec fuel ps) fun cmd ps =>
    let (more, ps) := peek c ps ['|']
    if more then
      let (_, ps) := gettoken c ps
      Res.andThen (parsepipe fuel ps) fun right ps => some (.ok (.pipe cmd right) ps)
    else some (.ok cmd ps)

def parseblock : Nat → Nat → Option (Res Cmd)
  | 0, _ => none
  | fuel + 1, ps =>
    let (more, ps) := peek c ps ['(']
    if more then
      let (_, ps) := gettoken c ps
      Res.andThen (parseline fuel ps) fun cmd ps =>
      let (more, ps) := peek c ps [')']
      if more then
        let (_, ps) := gettoken c ps
        parseredirs c fuel cmd ps
      else some (.panic "syntax - missing )")
    else some (.panic "parseblock")

def parseexec : Nat → Nat → Option (Res Cmd)
  | 0, _ => none
  | fuel + 1, ps =>
    let (block, ps) := peek c ps ['(']
    if block then parseblock fuel ps
    else
      Res.andThen (parseredirs c fuel (.exec []) ps) fun ret ps => parseargs c fuel ret 0 ps

end

end

/-- The command, and the characters after `nulterminate`; or the text of `panic`. -/
def parsecmd (fuel : Nat) (s : Str) : Option (Except String (Cmd × (Nat → Char))) :=
  match parseline s.chr fuel s.len with
  | none => none
  | some (.panic text) => some (.error text)
  | some (.ok cmd ps) =>
    let (_, ps) := peek s.chr ps []
    if ps ≠ 0 then some (.error "syntax") else some (.ok (cmd, nulterminate cmd s.chr))

end Sh
