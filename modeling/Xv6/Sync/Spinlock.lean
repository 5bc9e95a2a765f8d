import Mathlib.Logic.Function.Basic

/-!
# Spin-locks and the interrupt flag

The model of `acquire`, `release`, `pushcli` and `popcli` of `spinlock.c`, and of what `sched` and
`scheduler` of `proc.c` do with the interrupt flag, for any number of CPUs, kernel threads and
locks. Threads and schedulers acquire locks, release locks that they hold, in any order, and call
`pushcli` and `popcli` in pairs; an interrupt comes whenever the flag is set, and its handler runs on
the stack of what it interrupted, with the flag clear, until `iret`.

`pushcli` reads the flag and clears it in two steps, and an interrupt may come between; with the
flag clear nobody else changes what belongs to the CPU, so the rest is one step. A thread that
calls `sched` with `ptable.lock` held leaves the CPU to its scheduler, and goes on when any
scheduler passes a CPU to it. A thread that is new starts in `forkret`, with the lock held.

`pushes`, `plain`, `locks`, `before` and `passed` are history variables: the calls of `pushcli` that are
not taken back, those of them that no `acquire` made, the locks that are held, the flag that the first
of the calls found, and whether a scheduler has passed its CPU to a thread since that call.
-/

namespace Spinlock

open Function (update)

structure Cpu where
  ifl : Bool
  ncli : Int
  intena : Bool

structure Lock (C : Type) where
  locked : Bool
  cpu : Option C

/-- What a CPU executes: its scheduler, or a kernel thread. -/
inductive Ctx (C T : Type)
  | scheduler (c : C)
  | thread (t : T)
deriving DecidableEq

inductive Pc (L : Type)
  | run
  /-- In `pushcli`, before `cli`; `lk` is the lock that it is called to acquire. -/
  | pushing (eflags : Bool) (lk : Option L)
  /-- In `acquire`, before `xchg`. -/
  | spin (lk : L)
  /-- Before `popcli`. -/
  | popping
  /-- In `sched`, after `swtch`. -/
  | swtch (intena : Bool)
  /-- A new thread, in `forkret`. -/
  | fresh
  /-- The scheduler, while a thread has its CPU. -/
  | away

/-- A thread or a scheduler: its place, and its calls of `pushcli`. -/
structure Context (L : Type) where
  pc : Pc L
  /-- The code that interrupts stopped, the last one first. -/
  frames : List (Pc L)
  pushes : Nat
  plain : Nat
  locks : List L
  before : Bool
  passed : Bool

/-- The CPUs, the locks, and each thread and scheduler. -/
structure State (C T L : Type) where
  cpu : C → Cpu
  lock : L → Lock C
  on : C → Ctx C T
  ctx : Ctx C T → Context L
  panic : Option String

/-! ## Functions of the source -/

/-- `pushcli`, when `readeflags` has returned `eflags`. -/
def Cpu.pushcli (p : Cpu) (eflags : Bool) : Cpu where
  ifl := false
  ncli := p.ncli + 1
  intena := if p.ncli = 0 then eflags else p.intena

def Cpu.popcli (p : Cpu) : Except String Cpu :=
  if p.ifl then .error "popcli - interruptible"
  else if p.ncli - 1 < 0 then .error "popcli"
  else .ok { p with ncli := p.ncli - 1, ifl := decide (p.ncli - 1 = 0) && p.intena }

variable {C T L : Type}

/-- `pushcli` was called once more, and found the flag `eflags`. -/
def Context.push (k : Context L) (eflags : Bool) : Context L :=
  { k with
    pushes := k.pushes + 1
    before := if k.pushes = 0 then eflags else k.before
    passed := if k.pushes = 0 then false else k.passed }

namespace State

def here (s : State C T L) (c : C) : Context L := s.ctx (s.on c)

/-- `holding(lk)` on the CPU `c`. -/
def Holding (s : State C T L) (c : C) (l : L) : Prop :=
  (s.lock l).locked = true ∧ (s.lock l).cpu = some c

variable [DecidableEq C] [DecidableEq T]

/-- The CPU `c` and what it executes change. -/
def move (s : State C T L) (c : C) (p : Cpu) (k : Context L) : State C T L :=
  { s with cpu := update s.cpu c p, ctx := update s.ctx (s.on c) k }

end State

variable [DecidableEq C] [DecidableEq T] [DecidableEq L]

/-- One step of a CPU; `pt` is `ptable.lock`. -/
inductive Step (pt : L) : State C T L → State C T L → Prop
  /-- `pushcli` or `acquire` is called: `eflags = readeflags()`. -/
  | readeflags {s c} (lk : Option L) (hp : s.panic = none) (hr : (s.here c).pc = .run) :
      Step pt s (s.move c (s.cpu c) { s.here c with pc := .pushing (s.cpu c).ifl lk })
  /-- The rest of `pushcli`. -/
  | pushcli {s c e} (hp : s.panic = none) (hr : (s.here c).pc = .pushing e none) :
      Step pt s (s.move c ((s.cpu c).pushcli e)
        { (s.here c).push e with pc := .run, plain := (s.here c).plain + 1 })
  /-- The rest of `pushcli` in `acquire` of a lock that the CPU does not hold. -/
  | acquire {s c e l} (hp : s.panic = none) (hr : (s.here c).pc = .pushing e (some l))
      (hl : ¬ s.Holding c l) :
      Step pt s (s.move c ((s.cpu c).pushcli e) { (s.here c).push e with pc := .spin l })
  | acquireHeld {s c e l} (hp : s.panic = none) (hr : (s.here c).pc = .pushing e (some l))
      (hl : s.Holding c l) : Step pt s { s with panic := some "acquire" }
  /-- `xchg` finds the lock free. -/
  | xchg {s c l} (hp : s.panic = none) (hr : (s.here c).pc = .spin l)
      (hl : (s.lock l).locked = false) :
      Step pt s { s.move c (s.cpu c)
          { s.here c with pc := .run, locks := l :: (s.here c).locks } with
        lock := update s.lock l ⟨true, some c⟩ }
  /-- `release` of a lock that the caller has, up to `popcli`. -/
  | release {s c l} (hp : s.panic = none) (hr : (s.here c).pc = .run) (hm : l ∈ (s.here c).locks)
      (hl : s.Holding c l) :
      Step pt s { s.move c (s.cpu c)
          { s.here c with pc := .popping, locks := (s.here c).locks.erase l } with
        lock := update s.lock l ⟨false, none⟩ }
  | releaseFree {s c l} (hp : s.panic = none) (hr : (s.here c).pc = .run)
      (hm : l ∈ (s.here c).locks) (hl : ¬ s.Holding c l) :
      Step pt s { s with panic := some "release" }
  /-- `popcli` is called for a `pushcli`. -/
  | callPop {s c} (hp : s.panic = none) (hr : (s.here c).pc = .run) (hm : 0 < (s.here c).plain) :
      Step pt s (s.move c (s.cpu c)
        { s.here c with pc := .popping, plain := (s.here c).plain - 1 })
  | popcli {s c p} (hp : s.panic = none) (hr : (s.here c).pc = .popping)
      (hc : (s.cpu c).popcli = .ok p) :
      Step pt s (s.move c p { s.here c with pc := .run, pushes := (s.here c).pushes - 1 })
  | popcliPanic {s c e} (hp : s.panic = none) (hr : (s.here c).pc = .popping)
      (hc : (s.cpu c).popcli = .error e) : Step pt s { s with panic := some e }
  /-- An interrupt. -/
  | trap {s c} (hp : s.panic = none) (hi : (s.cpu c).ifl = true) :
      Step pt s (s.move c { s.cpu c with ifl := false }
        { s.here c with pc := .run, frames := (s.here c).pc :: (s.here c).frames })
  /-- The handler returns, having taken back its calls of `pushcli`. -/
  | iret {s c f fs} (hp : s.panic = none) (hr : (s.here c).pc = .run)
      (hf : (s.here c).frames = f :: fs) (h0 : (s.here c).pushes = 0) :
      Step pt s (s.move c { s.cpu c with ifl := true } { s.here c with pc := f, frames := fs })
  /-- `sti` at the head of the loop of `scheduler`. -/
  | sti {s c} (hp : s.panic = none) (ho : s.on c = .scheduler c) (hr : (s.here c).pc = .run)
      (hf : (s.here c).frames = []) (h0 : (s.here c).pushes = 0) :
      Step pt s (s.move c { s.cpu c with ifl := true } (s.here c))
  /-- `sched`, up to `swtch`. -/
  | sched {s c t} (hp : s.panic = none) (ho : s.on c = .thread t) (hr : (s.here c).pc = .run)
      (hl : s.Holding c pt) (hn : (s.cpu c).ncli = 1) (hi : (s.cpu c).ifl = false) :
      Step pt s
        { s with
          on := update s.on c (.scheduler c)
          ctx := update (update s.ctx (.thread t)
              { s.here c with pc := .swtch (s.cpu c).intena })
            (.scheduler c) { s.ctx (.scheduler c) with pc := .run } }
  | schedLock {s c t} (hp : s.panic = none) (ho : s.on c = .thread t) (hr : (s.here c).pc = .run)
      (hl : ¬ s.Holding c pt) : Step pt s { s with panic := some "sched ptable.lock" }
  | schedLocks {s c t} (hp : s.panic = none) (ho : s.on c = .thread t) (hr : (s.here c).pc = .run)
      (hl : s.Holding c pt) (hn : (s.cpu c).ncli ≠ 1) :
      Step pt s { s with panic := some "sched locks" }
  | schedFlag {s c t} (hp : s.panic = none) (ho : s.on c = .thread t) (hr : (s.here c).pc = .run)
      (hl : s.Holding c pt) (hn : (s.cpu c).ncli = 1) (hi : (s.cpu c).ifl = true) :
      Step pt s { s with panic := some "sched interruptible" }
  /-- `scheduler` passes its CPU to a thread in `sched`, which restores `intena`. -/
  | resume {s c t i} (hp : s.panic = none) (ho : s.on c = .scheduler c) (hr : (s.here c).pc = .run)
      (hl : (s.here c).locks = [pt]) (h1 : (s.here c).pushes = 1)
      (ht : (s.ctx (.thread t)).pc = .swtch i) :
      Step pt s
        { s with
          cpu := update s.cpu c { s.cpu c with intena := i }
          on := update s.on c (.thread t)
          ctx := update (update s.ctx (.scheduler c) { s.here c with pc := .away, passed := true })
            (.thread t) { s.ctx (.thread t) with pc := .run } }
  /-- `scheduler` passes its CPU to a new thread. -/
  | start {s c t} (hp : s.panic = none) (ho : s.on c = .scheduler c) (hr : (s.here c).pc = .run)
      (hl : (s.here c).locks = [pt]) (h1 : (s.here c).pushes = 1)
      (ht : (s.ctx (.thread t)).pc = .fresh) :
      Step pt s
        { s with
          on := update s.on c (.thread t)
          ctx := update (update s.ctx (.scheduler c) { s.here c with pc := .away, passed := true })
            (.thread t) { s.ctx (.thread t) with pc := .run, before := (s.cpu c).intena } }

def boot (pt : L) (ifl : C → Bool) : State C T L where
  cpu c := ⟨ifl c, 0, false⟩
  lock _ := ⟨false, none⟩
  on c := .scheduler c
  ctx
    | .scheduler _ => ⟨.run, [], 0, 0, [], false, false⟩
    -- `forkret` returns to the user's code
    | .thread _ => ⟨.fresh, [.run], 1, 0, [pt], false, false⟩
  panic := none

inductive Reach (pt : L) : State C T L → Prop
  | boot {ifl} : Reach pt (boot pt ifl)
  | step {s s'} (h : Reach pt s) (hs : Step pt s s') : Reach pt s'

end Spinlock
