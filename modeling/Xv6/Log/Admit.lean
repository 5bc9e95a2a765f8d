import Mathlib.Data.Finset.Card
import Xv6.Param

/-!
# Admission to the log

`begin_op`, `log_write` and `end_op` of `log.c` as steps of any number of processes over the fields
of `struct log`. Code under `log.lock` is one step. The size test at the top of `log_write` is made
without the lock, so a call is two steps, `test` and `append`; `commit` runs without the lock too,
between the step of `end_op` that decides on it and the one that ends it (`finish`).

A schedule is a list of events; `run` executes it from the state `mkfs` and `initlog` leave.
-/

namespace Admit

open Param

inductive Phase
  /-- Not in a file-system call, or awake in `begin_op`. -/
  | idle
  /-- Asleep on `&log` in `begin_op`. -/
  | sleeping
  /-- Between `begin_op` and `end_op`. -/
  | op
  /-- In `log_write` of block `b`, past the size test. -/
  | writing (b : Nat)
  /-- In `end_op`, about to `commit`. -/
  | committing
  /-- In `end_op`, back from `commit`. -/
  | committed
  deriving DecidableEq

/-- `struct log` (`lh` lists `lh.block[0..lh.n)`) and the processes, by number. -/
structure State where
  size : Nat
  outstanding : Nat
  committing : Bool
  lh : List Nat
  phase : Nat → Phase

/-- The log after `initlog` on an image with `nlog` log blocks. -/
def State.init (nlog : Nat) : State := ⟨nlog, 0, false, [], fun _ => .idle⟩

def mkfsNlog : Nat := LOGSIZE

/-- A step of the process named in it. -/
inductive Event
  | beginOp (p : Nat)
  | test (p b : Nat)
  | append (p b : Nat)
  | endOp (p : Nat)
  | commit (p : Nat)
  | finish (p : Nat)
  deriving DecidableEq

/-- The next state, or a panic. -/
inductive Outcome
  | ok (s : State)
  | panic (msg : String)

def State.set (s : State) (p : Nat) (ph : Phase) : State :=
  { s with phase := Function.update s.phase p ph }

def State.wakeup (s : State) : State :=
  { s with phase := fun p => if s.phase p = .sleeping then .idle else s.phase p }

/-- One turn of the loop in `begin_op`. -/
def beginOp (s : State) (p : Nat) : State :=
  if s.committing then s.set p .sleeping
  else if s.lh.length + (s.outstanding + 1) * MAXOPBLOCKS > LOGSIZE then s.set p .sleeping
  else { s with outstanding := s.outstanding + 1 }.set p .op

/-- The tests at the top of `log_write`. -/
def logWriteTest (s : State) (p b : Nat) : Outcome :=
  if s.lh.length ≥ LOGSIZE ∨ s.lh.length ≥ s.size - 1 then .panic "too big a transaction"
  else if s.outstanding < 1 then .panic "log_write outside of trans"
  else .ok (s.set p (.writing b))

/-- The locked part of `log_write`: `b` is appended unless it is absorbed. -/
def logWriteAppend (s : State) (p b : Nat) : State :=
  { s with lh := if b ∈ s.lh then s.lh else s.lh ++ [b] }.set p .op

/-- The locked part of `end_op`. -/
def endOp (s : State) (p : Nat) : Outcome :=
  if s.committing then .panic "log.committing"
  else if s.outstanding - 1 = 0 then
    .ok ({ s with outstanding := s.outstanding - 1, committing := true }.set p .committing)
  else .ok ({ s with outstanding := s.outstanding - 1 }.wakeup.set p .idle)

def step (s : State) : Event → Option Outcome
  | .beginOp p => if s.phase p = .idle then some (.ok (beginOp s p)) else none
  | .test p b => if s.phase p = .op then some (logWriteTest s p b) else none
  | .append p b => if s.phase p = .writing b then some (.ok (logWriteAppend s p b)) else none
  | .endOp p => if s.phase p = .op then some (endOp s p) else none
  | .commit p =>
    if s.phase p = .committing then some (.ok ({ s with lh := [] }.set p .committed)) else none
  | .finish p =>
    if s.phase p = .committed then
      some (.ok ({ s with committing := false }.wakeup.set p .idle))
    else none

/-- A schedule run to its end or to a panic; `none` when it is not one. -/
def run (s : State) : List Event → Option Outcome
  | [] => some (.ok s)
  | e :: es =>
    match step s e with
    | some (.ok s') => run s' es
    | some (.panic m) => some (.panic m)
    | none => none

/-! ## What a schedule passes to `log_write` -/

/-- The block numbers appended since the last commit. -/
def distinct (es : List Event) : Finset Nat :=
  es.foldl (fun bs e =>
    match e with
    | .append _ b => insert b bs
    | .commit _ => ∅
    | _ => bs) ∅

/-- The block numbers process `p` passed to `log_write` since its `begin_op`. -/
def passed (p : Nat) (es : List Event) : Finset Nat :=
  es.foldl (fun bs e =>
    match e with
    | .test q b => if q = p then insert b bs else bs
    | .beginOp q => if q = p then ∅ else bs
    | _ => bs) ∅

/-- Every operation passes at most `MAXOPBLOCKS` distinct block numbers. -/
def Limited (es : List Event) : Prop :=
  ∀ pre, pre <+: es → ∀ p, (passed p pre).card ≤ MAXOPBLOCKS

end Admit
