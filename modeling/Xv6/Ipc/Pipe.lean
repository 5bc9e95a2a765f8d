import Xv6.Base.Monitor

/-!
# Pipes

The model of `pipewrite`, `piperead` and `pipeclose` of `pipe.c` as a program of the monitor that
the pipe's lock is. Between two steps of one call `kill` may set a process's `killed`, which the pipe's
lock does not protect.

`sent` and `got` are history variables. `pipeclose` frees the page of the pipe after both ends are
closed; the references of the file table keep calls from being in progress then, so the model goes on
with the page as it is.
-/

namespace Pipe

open Monitor

def PIPESIZE : Nat := 512

/-- The channels `&p->nread` and `&p->nwrite`. -/
inductive Chan
  | nread
  | nwrite
deriving DecidableEq

/-- The arguments of a call of `pipewrite`, the call being number `serial` of its process. -/
structure Write where
  serial : Nat
  addr : Nat → UInt8
  n : Int

structure Read where
  serial : Nat
  n : Int

/-- Byte `i` of a call of `pipewrite`. -/
structure Sent (T : Type) where
  proc : T
  call : Write
  i : Nat

def Sent.byte {T : Type} (e : Sent T) : UInt8 := e.call.addr e.i

/-- Byte `i` that a call of `piperead` returns. -/
structure Got (T : Type) where
  proc : T
  call : Read
  i : Nat
  byte : UInt8

/-- `struct pipe`, and what else the calls read: `killed` of each process. -/
structure Data (T : Type) where
  data : Nat → UInt8
  nread : Nat
  nwrite : Nat
  readopen : Bool
  writeopen : Bool
  killed : T → Bool
  sent : List (Sent T)
  got : List (Got T)

/-- Where a process is in `pipe.c`. -/
inductive Pc
  /-- Not in a call; the last one returned `r`. -/
  | idle (r : Int)
  /-- `pipewrite` before byte `i`. The lock was last taken before byte `since`. -/
  | wfor (w : Write) (i since : Nat)
  /-- `pipewrite` about to sleep before byte `i`. -/
  | wsleep (w : Write) (i : Nat)
  /-- `pipewrite` about to return. -/
  | wend (w : Write)
  /-- `piperead` at the test for an empty pipe. -/
  | rtest (r : Read)
  /-- `piperead` before byte `i`. -/
  | rcopy (r : Read) (i : Nat)
  /-- `piperead` about to return `i`. -/
  | rend (r : Read) (i : Nat)
  | cset (writable : Bool)
  | cwake (writable : Bool)
  | cend

/-- The local state of a process: its place, and the number of calls it has started. -/
structure Local where
  pc : Pc
  serial : Nat

variable {T : Type}

/-- `p->nwrite == p->nread + PIPESIZE`, for `uint` counters. -/
def Data.Full (d : Data T) : Prop := d.nwrite = (d.nread + PIPESIZE) % 2 ^ 32

/-- `p->nread == p->nwrite`. -/
def Data.Empty (d : Data T) : Prop := d.nread = d.nwrite

instance (d : Data T) : Decidable d.Full := inferInstanceAs (Decidable (_ = _))

instance (d : Data T) : Decidable d.Empty := inferInstanceAs (Decidable (_ = _))

/-- `p->data[p->nwrite++ % PIPESIZE] = addr[i]`. -/
def Data.store (d : Data T) (t : T) (w : Write) (i : Nat) : Data T :=
  { d with
    data := Function.update d.data (d.nwrite % PIPESIZE) (w.addr i)
    nwrite := (d.nwrite + 1) % 2 ^ 32
    sent := d.sent ++ [⟨t, w, i⟩] }

/-- `addr[i] = p->data[p->nread++ % PIPESIZE]`. -/
def Data.copy (d : Data T) (t : T) (r : Read) (i : Nat) : Data T :=
  { d with
    nread := (d.nread + 1) % 2 ^ 32
    got := d.got ++ [⟨t, r, i, d.data (d.nread % PIPESIZE)⟩] }

/-- The first statements of `pipeclose`. -/
def Data.close (d : Data T) (writable : Bool) : Data T :=
  if writable then { d with writeopen := false } else { d with readopen := false }

/-- What the code does at each place. -/
def act (t : T) (l : Local) (d : Data T) : Act Chan (Data T) Local :=
  let go (pc : Pc) : Local := { l with pc }
  match l.pc with
  | .wfor w i since =>
    if i < w.n then
      if d.Full then
        if !d.readopen || d.killed t then .leave (go (.idle (-1)))
        else .wake .nread (go (.wsleep w i))
      else .set (d.store t w i) (go (.wfor w (i + 1) since))
    else .wake .nread (go (.wend w))
  | .wsleep w i => .sleep .nwrite (go (.wfor w i i))
  | .wend w => .leave (go (.idle w.n))
  | .rtest r =>
    if d.Empty ∧ d.writeopen then
      if d.killed t then .leave (go (.idle (-1))) else .sleep .nread (go (.rtest r))
    else .set d (go (.rcopy r 0))
  | .rcopy r i =>
    if i < r.n ∧ ¬ d.Empty then .set (d.copy t r i) (go (.rcopy r (i + 1)))
    else .wake .nwrite (go (.rend r i))
  | .rend _ i => .leave (go (.idle i))
  | .cset writable => .set (d.close writable) (go (.cwake writable))
  | .cwake writable => .wake (if writable then .nread else .nwrite) (go .cend)
  | .cend => .leave (go (.idle 0))
  | .idle r => .leave (go (.idle r))

/-- The actions, with the tests that lead to them. -/
inductive Acts (t : T) (d : Data T) : Local → Act Chan (Data T) Local → Prop
  | refuse {w : Write} {i k n : Nat} (hi : i < w.n) (hf : d.Full)
      (hr : d.readopen = false ∨ d.killed t = true) :
      Acts t d ⟨.wfor w i k, n⟩ (.leave ⟨.idle (-1), n⟩)
  | full {w : Write} {i k n : Nat} (hi : i < w.n) (hf : d.Full) (hr : d.readopen = true)
      (hk : d.killed t = false) : Acts t d ⟨.wfor w i k, n⟩ (.wake .nread ⟨.wsleep w i, n⟩)
  | store {w : Write} {i k n : Nat} (hi : i < w.n) (hf : ¬ d.Full) :
      Acts t d ⟨.wfor w i k, n⟩ (.set (d.store t w i) ⟨.wfor w (i + 1) k, n⟩)
  | stored {w : Write} {i k n : Nat} (hi : ¬ i < w.n) :
      Acts t d ⟨.wfor w i k, n⟩ (.wake .nread ⟨.wend w, n⟩)
  | wsleep {w : Write} {i n : Nat} : Acts t d ⟨.wsleep w i, n⟩ (.sleep .nwrite ⟨.wfor w i i, n⟩)
  | wend {w : Write} {n : Nat} : Acts t d ⟨.wend w, n⟩ (.leave ⟨.idle w.n, n⟩)
  | rkilled {r : Read} {n : Nat} (he : d.Empty) (hw : d.writeopen = true)
      (hk : d.killed t = true) : Acts t d ⟨.rtest r, n⟩ (.leave ⟨.idle (-1), n⟩)
  | rsleep {r : Read} {n : Nat} (he : d.Empty) (hw : d.writeopen = true)
      (hk : d.killed t = false) : Acts t d ⟨.rtest r, n⟩ (.sleep .nread ⟨.rtest r, n⟩)
  | rgo {r : Read} {n : Nat} (he : ¬ (d.Empty ∧ d.writeopen = true)) :
      Acts t d ⟨.rtest r, n⟩ (.set d ⟨.rcopy r 0, n⟩)
  | copy {r : Read} {i n : Nat} (hi : i < r.n) (he : ¬ d.Empty) :
      Acts t d ⟨.rcopy r i, n⟩ (.set (d.copy t r i) ⟨.rcopy r (i + 1), n⟩)
  | copied {r : Read} {i n : Nat} (hc : ¬ (i < r.n ∧ ¬ d.Empty)) :
      Acts t d ⟨.rcopy r i, n⟩ (.wake .nwrite ⟨.rend r i, n⟩)
  | rend {r : Read} {i n : Nat} : Acts t d ⟨.rend r i, n⟩ (.leave ⟨.idle i, n⟩)
  | cset {b : Bool} {n : Nat} : Acts t d ⟨.cset b, n⟩ (.set (d.close b) ⟨.cwake b, n⟩)
  | cwake {b : Bool} {n : Nat} :
      Acts t d ⟨.cwake b, n⟩ (.wake (if b then .nread else .nwrite) ⟨.cend, n⟩)
  | cend {n : Nat} : Acts t d ⟨.cend, n⟩ (.leave ⟨.idle 0, n⟩)
  | idle {r : Int} {n : Nat} : Acts t d ⟨.idle r, n⟩ (.leave ⟨.idle r, n⟩)

/-- **Every action is one of these.** -/
theorem act_cases {t : T} {l : Local} {d : Data T} : Acts t d l (act t l d) := by
  obtain ⟨pc, n⟩ := l
  cases pc with
  | wfor w i k =>
    simp only [act]
    by_cases hi : i < w.n
    · rw [if_pos hi]
      by_cases hf : d.Full
      · rw [if_pos hf]
        by_cases hr : (!d.readopen || d.killed t) = true
        · rw [if_pos hr]
          exact .refuse hi hf (by simpa using hr)
        · rw [if_neg hr]
          simp only [Bool.or_eq_true, Bool.not_eq_true', not_or, Bool.not_eq_false,
            Bool.not_eq_true] at hr
          exact .full hi hf hr.1 hr.2
      · rw [if_neg hf]
        exact .store hi hf
    · rw [if_neg hi]
      exact .stored hi
  | rtest r =>
    simp only [act]
    by_cases he : d.Empty ∧ d.writeopen = true
    · rw [if_pos he]
      cases hk : d.killed t with
      | true => exact .rkilled he.1 he.2 hk
      | false => exact .rsleep he.1 he.2 hk
    · rw [if_neg he]
      exact .rgo he
  | rcopy r i =>
    simp only [act]
    by_cases hc : i < r.n ∧ ¬ d.Empty
    · rw [if_pos hc]
      exact .copy hc.1 hc.2
    · rw [if_neg hc]
      exact .copied hc
  | wsleep w i => exact .wsleep
  | wend w => exact .wend
  | rend r i => exact .rend
  | cset b => exact .cset
  | cwake b => exact .cwake
  | cend => exact .cend
  | idle r => exact .idle

inductive Call : Local → Local → Prop
  | write {r n} (addr : Nat → UInt8) (k : Int) :
      Call ⟨.idle r, n⟩ ⟨.wfor ⟨n, addr, k⟩ 0 0, n + 1⟩
  | read {r n} (k : Int) : Call ⟨.idle r, n⟩ ⟨.rtest ⟨n, k⟩, n + 1⟩
  | close {r n} (writable : Bool) : Call ⟨.idle r, n⟩ ⟨.cset writable, n + 1⟩

def prog [DecidableEq T] : Prog T Chan (Data T) Local where
  act := act
  call _ := Call
  after _ := none
  poke t d d' := d' = { d with killed := Function.update d.killed t true }

/-- The pipe that `pipealloc` makes; the page holds `junk` bytes. -/
def alloc (junk : Nat → UInt8) (killed : T → Bool) : State T Chan (Data T) Local :=
  .init ⟨junk, 0, 0, true, true, killed, [], []⟩ fun _ => ⟨.idle 0, 0⟩

variable [DecidableEq T]

inductive Reach : State T Chan (Data T) Local → Prop
  | init {junk killed} : Reach (alloc junk killed)
  | step {o s s'} (h : Reach s) (hs : Step prog o s s') : Reach s'

end Pipe
