import Xv6.Base.Monitor

/-!
# Sleep-locks

The model of `sleeplock.c` as a program of the monitor that `lk->lk` is. A process calls `releasesleep`
only while it holds the lock; one that holds it may call `acquiresleep` again, and waits for itself
then. `kill` may wake a process that waits.

`held` is a history variable of a process, true from the assignment `lk->locked = 1` of its
`acquiresleep` to the assignment `lk->locked = 0` of its `releasesleep`.
-/

namespace Sleeplock

open Monitor

structure Lock where
  locked : Bool
  pid : Int

/-- Where a process is in `sleeplock.c`. -/
inductive Pc
  | idle
  /-- `acquiresleep` at `while (lk->locked)`. -/
  | test
  /-- `acquiresleep` before `lk->pid = myproc()->pid`. -/
  | setPid
  /-- `releasesleep` before `lk->locked = 0`. -/
  | clear
  /-- `releasesleep` before `lk->pid = 0`. -/
  | clearPid
  /-- `releasesleep` before `wakeup(lk)`. -/
  | wake
  /-- `holdingsleep` before `r = lk->locked`. -/
  | query
  /-- `holdingsleep` before `return r`, with `lk->lk` held. -/
  | answer (r : Bool)
  /-- `acquiresleep` and `releasesleep` before the release of `lk->lk`. -/
  | done
deriving DecidableEq

structure Local where
  pc : Pc
  held : Bool
deriving DecidableEq

section
variable {T : Type} (pid : T → Int)

def act (t : T) (l : Local) (d : Lock) : Act Unit Lock Local :=
  match l.pc with
  | .test => if d.locked then .sleep () l else .set { d with locked := true } ⟨.setPid, true⟩
  | .setPid => .set { d with pid := pid t } ⟨.done, l.held⟩
  | .clear => .set { d with locked := false } ⟨.clearPid, false⟩
  | .clearPid => .set { d with pid := 0 } ⟨.wake, l.held⟩
  | .wake => .wake () ⟨.done, l.held⟩
  | .query => .set d ⟨.answer d.locked, l.held⟩
  | .answer _ | .done | .idle => .leave ⟨.idle, l.held⟩

inductive Call : Local → Local → Prop
  | acquiresleep {held} : Call ⟨.idle, held⟩ ⟨.test, held⟩
  | releasesleep : Call ⟨.idle, true⟩ ⟨.clear, true⟩
  | holdingsleep {held} : Call ⟨.idle, held⟩ ⟨.query, held⟩

def prog : Prog T Unit Lock Local where
  act := act pid
  call _ := Call
  after _ := none
  poke _ d d' := d' = d

inductive Reach [DecidableEq T] : State T Unit Lock Local → Prop
  | init : Reach (.init ⟨false, 0⟩ fun _ => ⟨.idle, false⟩)
  | step {o s s'} (h : Reach s) (hs : Step (prog pid) o s s') : Reach s'

end

/-- The process has the lock: its `acquiresleep` has set `lk->pid`, and its `releasesleep`, if it has
been called, has not cleared `lk->locked`. -/
def Local.Holds (l : Local) : Prop := l.held = true ∧ l.pc ≠ .setPid

/-! ## Functions that ask `holdingsleep` -/

/-- A call of `bwrite`, `brelse`, `iderw` or `iunlock`, with what else it tests. -/
inductive Guard
  | bwrite
  | brelse
  /-- `B_VALID` and `B_DIRTY` of the buffer, whether it is on disk 1, and `havedisk1`. -/
  | iderw (valid dirty dev1 havedisk1 : Bool)
  /-- `ip->ref`. -/
  | iunlock (ref : Int)

/-- The panic of the function, or none, when `holdingsleep` has returned `r`. -/
def Guard.panic (r : Bool) : Guard → Option String
  | .bwrite => if !r then some "bwrite" else none
  | .brelse => if !r then some "brelse" else none
  | .iderw valid dirty dev1 havedisk1 =>
    if !r then some "iderw: buf not locked"
    else if valid && !dirty then some "iderw: nothing to do"
    else if dev1 && !havedisk1 then some "iderw: ide disk 1 not present"
    else none
  | .iunlock ref => if !r || ref < 1 then some "iunlock" else none

end Sleeplock
