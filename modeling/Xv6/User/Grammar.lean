import Xv6.User.Shell

/-!
# The grammar of the shell

The commands and their trees, over the tokens of `gettoken`:

* line ::= pipe `&`* [`;` line]
* pipe ::= exec [`|` pipe]
* exec ::= `(` line `)` redir* | redir* (word redir*)*
* redir ::= (`<` | `>` | `>>`) word

with fewer than `MAXARGS` words in a simple command.
-/

namespace Sh

/-- A redirection, which goes around a command. -/
structure Redirection where
  file : Nat
  efile : Nat
  mode : Nat
  fd : Nat

/-- The redirections around the command, the last one outermost. -/
def wrap (rs : List Redirection) (cmd : Cmd) : Cmd :=
  rs.foldl (fun cmd r => .redir cmd r.file r.efile r.mode r.fd) cmd

/-- `n` times in the background. -/
def backs : Nat → Cmd → Cmd
  | 0, cmd => cmd
  | n + 1, cmd => backs n (.back cmd)

/-- redir* -/
inductive Redirs : List Token → List Redirection → Prop
  | nil : Redirs [] []
  | input {t w : Token} {ts : List Token} {rs : List Redirection} (ht : t.ret = '<')
    (hw : w.ret = 'a') (h : Redirs ts rs) :
    Redirs (t :: w :: ts) (⟨w.q, w.eq, O_RDONLY, 0⟩ :: rs)
  | output {t w : Token} {ts : List Token} {rs : List Redirection} (ht : t.ret = '>' ∨ t.ret = '+')
    (hw : w.ret = 'a') (h : Redirs ts rs) :
    Redirs (t :: w :: ts) (⟨w.q, w.eq, O_WRONLY ||| O_CREATE, 1⟩ :: rs)

/-- (word redir*)* -/
inductive Args : List Token → List (Nat × Nat) → List Redirection → Prop
  | nil : Args [] [] []
  | cons {w : Token} {ts ts' : List Token} {args : List (Nat × Nat)} {rs rs' : List Redirection}
    (hw : w.ret = 'a') (h : Redirs ts rs) (h' : Args ts' args rs') :
    Args (w :: ts ++ ts') ((w.q, w.eq) :: args) (rs ++ rs')

inductive Nonterminal
  | line
  | pipe
  | exec

inductive Derives : Nonterminal → List Token → Cmd → Prop
  | last {ts amps : List Token} {c : Cmd} (h : Derives .pipe ts c) (ha : ∀ t ∈ amps, t.ret = '&') :
    Derives .line (ts ++ amps) (backs amps.length c)
  | seq {ts amps ts' : List Token} {semi : Token} {c c' : Cmd} (h : Derives .pipe ts c)
    (ha : ∀ t ∈ amps, t.ret = '&') (hs : semi.ret = ';') (h' : Derives .line ts' c') :
    Derives .line (ts ++ (amps ++ semi :: ts')) (.list (backs amps.length c) c')
  | one {ts : List Token} {c : Cmd} (h : Derives .exec ts c) : Derives .pipe ts c
  | pipe {ts ts' : List Token} {bar : Token} {c c' : Cmd} (h : Derives .exec ts c)
    (hb : bar.ret = '|') (h' : Derives .pipe ts' c') :
    Derives .pipe (ts ++ bar :: ts') (.pipe c c')
  | block {ts ts' : List Token} {left right : Token} {c : Cmd} {rs : List Redirection}
    (hl : left.ret = '(') (h : Derives .line ts c) (hr : right.ret = ')') (h' : Redirs ts' rs) :
    Derives .exec (left :: (ts ++ right :: ts')) (wrap rs c)
  | simple {ts ts' : List Token} {args : List (Nat × Nat)} {rs rs' : List Redirection}
    (h : Redirs ts rs) (h' : Args ts' args rs') (hn : args.length < MAXARGS) :
    Derives .exec (ts ++ ts') (wrap (rs ++ rs') (.exec args))

end Sh
