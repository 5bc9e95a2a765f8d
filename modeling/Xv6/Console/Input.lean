import Xv6.Base.Monitor

/-!
# Console input

The model of `consoleintr` and `consoleread` of `console.c` as a program of the monitor that
`cons.lock` is. An interrupt brings any batch of characters; a process reads any number of bytes; the
threads are of any type and number, and `kill` may set a process's `killed` at any time.

`hist`, `copied` and `reads` are history variables: what was typed and what readers took from the
buffer, in order, the bytes stored in the readers' buffers, and for each process the bytes that its
reads took. The echo of `consputc`, `procdump` and the inode's lock, which `consoleread` gives up while
it waits, are left out.
-/

namespace Console

open Monitor

def INPUT_BUF : Nat := 128

/-! ## Characters -/

def CTRL_D : UInt8 := 4
def CTRL_H : UInt8 := 8
def NEWLINE : UInt8 := 10
def RETURN : UInt8 := 13
def CTRL_P : UInt8 := 16
def CTRL_U : UInt8 := 21
def DEL : UInt8 := 127

/-- An entry of the history. -/
inductive Event
  /-- A character is typed. -/
  | key (c : UInt8)
  /-- A reader takes the next byte. -/
  | take
deriving DecidableEq

/-- `input`, and what else the calls read: `killed` of each process. -/
structure Data (T : Type) where
  buf : Nat → UInt8
  r : Nat
  w : Nat
  e : Nat
  killed : T → Bool
  hist : List Event
  copied : List UInt8
  reads : T → List (List UInt8)

variable {T : Type}

namespace Data

def get (d : Data T) (i : Nat) : UInt8 := d.buf (i % INPUT_BUF)

def back (d : Data T) : Data T := { d with e := (d.e + (2 ^ 32 - 1)) % 2 ^ 32 }

/-- The loop of the kill-line character; `n` is `input.e - input.w`. -/
def killLine : Nat → Data T → Data T
  | 0, d => d
  | n + 1, d => if d.get (d.e + (2 ^ 32 - 1)) ≠ NEWLINE then killLine n d.back else d

def newline (c : UInt8) : UInt8 := if c = RETURN then NEWLINE else c

/-- Store a character behind the edit index. -/
def put (d : Data T) (c : UInt8) : Data T :=
  { d with buf := Function.update d.buf (d.e % INPUT_BUF) c, e := (d.e + 1) % 2 ^ 32 }

/-- Give the line to the readers. -/
def commit (d : Data T) : Data T := { d with w := d.e }

/-- `consoleintr` for one character, and whether it then wakes the readers. -/
def key (d : Data T) (c : UInt8) : Data T × Bool :=
  let d := { d with hist := d.hist ++ [.key c] }
  if c = CTRL_P then (d, false)
  else if c = CTRL_U then (d.killLine ((d.e + 2 ^ 32 - d.w) % 2 ^ 32), false)
  else if c = CTRL_H ∨ c = DEL then (if d.e ≠ d.w then d.back else d, false)
  else if c ≠ 0 ∧ (d.e + 2 ^ 32 - d.r) % 2 ^ 32 < INPUT_BUF then
    let c := newline c
    let d := d.put c
    if c = NEWLINE ∨ c = CTRL_D ∨ d.e = (d.r + INPUT_BUF) % 2 ^ 32 then (d.commit, true)
    else (d, false)
  else (d, false)

/-- Process `t` takes the next byte; `more` says that its read has taken others before. -/
def take [DecidableEq T] (d : Data T) (t : T) (more : Bool) : Data T :=
  let c := d.get d.r
  { d with
    r := (d.r + 1) % 2 ^ 32
    hist := d.hist ++ [.take]
    reads := Function.update d.reads t <|
      match more, d.reads t with
      | true, l :: ls => (l ++ [c]) :: ls
      | _, ls => [c] :: ls }

def store (d : Data T) (c : UInt8) : Data T := { d with copied := d.copied ++ [c] }

end Data

/-- Where a thread is in `consoleintr` or `consoleread`. -/
inductive Pc
  /-- Not in a call; the last `consoleread` returned `r`. -/
  | idle (r : Int)
  /-- `consoleintr` before the characters `cs`. -/
  | intr (cs : List UInt8)
  /-- `consoleintr` before `wakeup`. -/
  | wake (cs : List UInt8)
  /-- `consoleread` of `target` bytes, with `n` to go. -/
  | read (target n : Int)
  /-- `consoleread` after the loop. -/
  | ret (r : Int)
deriving DecidableEq

/-- What the code does at each place. -/
def act [DecidableEq T] (t : T) (p : Pc) (d : Data T) : Act Unit (Data T) Pc :=
  match p with
  | .intr [] => .leave (.idle 0)
  | .intr (c :: cs) =>
    match d.key c with
    | (d', true) => .set d' (.wake cs)
    | (d', false) => .set d' (.intr cs)
  | .wake cs => .wake () (.intr cs)
  | .read target n =>
    if 0 < n then
      if d.r = d.w then
        if d.killed t then .leave (.idle (-1)) else .sleep () (.read target n)
      else
        let c := d.get d.r
        if c = CTRL_D then
          -- a reader that has bytes already leaves the end of file for the next one
          if n < target then .set d (.ret (target - n)) else .set (d.take t false) (.ret (target - n))
        else if c = NEWLINE then .set ((d.take t (n < target)).store c) (.ret (target - (n - 1)))
        else .set ((d.take t (n < target)).store c) (.read target (n - 1))
    else .set d (.ret (target - n))
  | .ret r => .leave (.idle r)
  | .idle r => .leave (.idle r)

inductive Call : Pc → Pc → Prop
  | intr {r} (cs : List UInt8) : Call (.idle r) (.intr cs)
  | read {r} (n : Int) : Call (.idle r) (.read n n)

/-- The calls on the console; another process may `kill` one at any time. -/
def prog [DecidableEq T] : Prog T Unit (Data T) Pc where
  act := act
  call _ := Call
  after _ := none
  poke t d d' := d' = { d with killed := Function.update d.killed t true }

/-- The console at boot; `input` is zero. -/
def boot (killed : T → Bool) : State T Unit (Data T) Pc :=
  .init ⟨fun _ => 0, 0, 0, 0, killed, [], [], fun _ => []⟩ fun _ => .idle 0

inductive Reach [DecidableEq T] : State T Unit (Data T) Pc → Prop
  | boot {killed} : Reach (boot killed)
  | step {o s s'} (h : Reach s) (hs : Step prog o s s') : Reach s'

end Console
