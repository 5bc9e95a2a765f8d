import Mathlib.Data.List.FinRange
import Xv6.Vm.Kernel

/-!
# The process table

The model of `proc.c` as a machine of any number of CPUs. A CPU executes either its scheduler, on
the stack it booted with, or the kernel code of a process, on the stack of that process; `swtch`
passes from the one to the other with `ptable.lock` held, and the code that runs next releases it.
Each statement that another CPU can observe is a step of its own. What `fork` does with a slot before
it takes the lock again is done without the lock, and a process may be preempted in the middle of it. A
section that only reads and writes the table with the lock held is one step.

The scheduler goes through the table in order; here it may choose any `RUNNABLE` process. Code of
the kernel that does not use the table is left out, except that it sleeps and wakes others on
channels of its own and takes and returns pages.

`uid`, `born`, `asked` and `log` are history variables. A slot gets a new `uid` each time
`allocproc` hands it out, and `born` is the `uid` of the process that called `fork`. `asked` says
that `kill` was called with the `pid` of the process since it was created.
-/

namespace Ptable

open Function (update)
open Param
open Vm (ProcState incr)

/-! ## State -/

abbrev Slot := Fin NPROC

/-- `userinit` runs first, so `initproc` is the first slot. -/
def initproc : Slot := ⟨0, by decide⟩

/-- What a process sleeps on: `wait` sleeps on the process itself. -/
inductive Chan
  | proc (p : Slot)
  | other (n : Nat)
deriving DecidableEq

/-- How far `fork` is with the slot that `allocproc` handed out. -/
inductive Stage
  /-- It has its pid. -/
  | slot
  /-- It has its kernel stack. -/
  | stack
  /-- It has its page directory. -/
  | memory
  /-- It has its parent. -/
  | child
deriving DecidableEq

/-- The code of a process that runs without `ptable.lock`. -/
inductive Base
  | run
  | fork (np : Slot) (g : Stage)
deriving DecidableEq

/-- What a process does once `swtch` has come back to it. -/
inductive After
  /-- `yield` and `forkret` release the lock. -/
  | release (b : Base)
  /-- `sleep` clears `chan` and releases the lock. -/
  | tidy
  /-- `sleep` in `wait` clears `chan` and returns to the scan. -/
  | wait
  /-- `exit` does not expect to come back. -/
  | dead
deriving DecidableEq

/-- Where a process is. All but the first hold `ptable.lock`. -/
inductive Pc
  | out (b : Base)
  | yield (b : Base)
  | sleep (n : Nat)
  | exit
  | wait
  /-- In `sched`, before `swtch`. -/
  | sched (a : After)
  /-- In `sched`, after `swtch`. -/
  | back (a : After)
deriving DecidableEq

/-- Where the scheduler of a CPU is. All but the first hold `ptable.lock`. -/
inductive Spc
  | idle
  | scan
  /-- `c->proc` is set. -/
  | chosen (p : Slot)
  /-- The page directory is loaded. -/
  | loaded (p : Slot)
  /-- The state is `RUNNING`. -/
  | ready (p : Slot)
  /-- `swtch` has come back, or will. -/
  | returned
  /-- The kernel's page directory is loaded. -/
  | flushed
deriving DecidableEq

/-- What a page of memory is used for. -/
inductive Use
  | free
  | stack (p : Slot)
  | dir (p : Slot)
  | other
deriving DecidableEq

/-- What happened to processes, named by their `uid`. -/
inductive Event
  | create (uid parent : Nat) (pid : Int)
  | exit (uid : Nat)
  /-- `wait`, called by process `waiter`, returned `pid`. -/
  | reap (uid : Nat) (pid : Int) (waiter : Nat)
deriving DecidableEq

/-- The process table, the CPUs, and the pages. -/
structure State (C : Type) where
  /-- The CPU that holds `ptable.lock`. -/
  lock : Option C
  /-- `c->proc`. -/
  proc : C → Option Slot
  /-- The process on whose stack the CPU executes; `none` is the stack of its scheduler. -/
  stack : C → Option Slot
  /-- The page directory that is loaded; `none` is `kpgdir`. -/
  cr3 : C → Option Nat
  sched : C → Spc
  state : Slot → ProcState
  pid : Slot → Int
  parent : Slot → Option Slot
  chan : Slot → Option Chan
  killed : Slot → Bool
  kstack : Slot → Option Nat
  pgdir : Slot → Option Nat
  pc : Slot → Pc
  nextpid : Int
  use : Nat → Use
  uid : Slot → Nat
  born : Slot → Nat
  nextuid : Nat
  asked : Slot → Bool
  log : List Event

variable {C : Type}

/-! ## Sections of the code -/

def kfree (use : Nat → Use) : Option Nat → Nat → Use
  | none => use
  | some k => update use k .free

/-- Wake the processes that sleep on a channel. -/
def wakeup1 (state : Slot → ProcState) (chan : Slot → Option Chan) (ch : Chan) (q : Slot) :
    ProcState :=
  if state q = .sleeping ∧ chan q = some ch then .runnable else state q

namespace State

def unused (s : State C) : Option Slot := (List.finRange NPROC).find? fun q => s.state q = .unused

def withPid (s : State C) (pid : Int) : Option Slot :=
  (List.finRange NPROC).find? fun q => s.pid q = pid

def zombieChild (s : State C) (p : Slot) : Option Slot :=
  (List.finRange NPROC).find? fun q => s.parent q = some p ∧ s.state q = .zombie

def allocproc (s : State C) (p np : Slot) : State C :=
  { s with
    state := update s.state np .embryo
    pid := update s.pid np s.nextpid
    nextpid := incr s.nextpid
    pc := update s.pc p (.out (.fork np .slot))
    uid := update s.uid np s.nextuid
    born := update s.born np (s.uid p)
    nextuid := s.nextuid + 1
    asked := update s.asked np false
    log := s.log ++ [.create s.nextuid (s.uid p) s.nextpid] }

/-- `allocproc` after `kalloc` failed. -/
def noStack (s : State C) (p np : Slot) : State C :=
  { s with
    kstack := update s.kstack np none
    state := update s.state np .unused
    pc := update s.pc p (.out .run) }

/-- `allocproc` with the page `k` for the stack: the new context starts at `forkret`. -/
def newStack (s : State C) (p np : Slot) (k : Nat) : State C :=
  { s with
    kstack := update s.kstack np (some k)
    use := update s.use k (.stack np)
    pc := update (update s.pc np (.back (.release .run))) p (.out (.fork np .stack)) }

/-- `fork` after `copyuvm` failed. -/
def noMemory (s : State C) (p np : Slot) : State C :=
  { s with
    pgdir := update s.pgdir np none
    use := kfree s.use (s.kstack np)
    kstack := update s.kstack np none
    state := update s.state np .unused
    pc := update s.pc p (.out .run) }

/-- `fork` with the copy that `copyuvm` returned. -/
def newMemory (s : State C) (p np : Slot) (d : Nat) : State C :=
  { s with
    pgdir := update s.pgdir np (some d)
    use := update s.use d (.dir np)
    pc := update s.pc p (.out (.fork np .memory)) }

/-- The states that `exit` leaves, with the wakeups of the parent and of `initproc`. -/
def exitState (s : State C) (p : Slot) : Slot → ProcState :=
  let woken := match s.parent p with
    | none => s.state
    | some q => wakeup1 s.state s.chan (.proc q)
  let passed := if ∃ q, s.parent q = some p ∧ woken q = .zombie
    then wakeup1 woken s.chan (.proc initproc) else woken
  update passed p .zombie

def exit (s : State C) (p : Slot) : State C :=
  { s with
    state := s.exitState p
    parent := fun q => if s.parent q = some p then some initproc else s.parent q
    pc := update s.pc p (.sched .dead)
    log := s.log ++ [.exit (s.uid p)] }

/-- The section of `wait` that frees the child `q` and returns its pid. The field `pgdir` keeps its
value. -/
def reap (s : State C) (p q : Slot) : State C :=
  { s with
    lock := none
    use := kfree (kfree s.use (s.kstack q)) (s.pgdir q)
    kstack := update s.kstack q none
    pid := update s.pid q 0
    parent := update s.parent q none
    killed := update s.killed q false
    state := update s.state q .unused
    pc := update s.pc p (.out .run)
    log := s.log ++ [.reap (s.uid q) (s.pid q) (s.uid p)] }

def kill (s : State C) (pid : Int) (q : Slot) : State C :=
  { s with
    killed := update s.killed q true
    state := update s.state q (if s.state q = .sleeping then .runnable else s.state q)
    asked := fun r => s.asked r || decide (s.state r ≠ .unused ∧ s.pid r = pid) }

end State

/-! ## Steps -/

/-- The steps that the properties speak of. -/
inductive Label
  /-- `kill(pid)` returns `r`. -/
  | kill (pid r : Int)
  /-- The slot goes to a new process. -/
  | create (np : Slot)
  /-- An allocation for the new process failed. -/
  | fail (np : Slot)
  /-- `wait` of process `p` frees `q`. -/
  | reap (p q : Slot)
  | other
deriving DecidableEq

variable [DecidableEq C]

/-- A step of one CPU. -/
inductive Step : Label → State C → State C → Prop
  -- scheduler
  | acquire {s c} (hk : s.stack c = none) (hp : s.sched c = .idle) (hl : s.lock = none) :
      Step .other s { s with lock := some c, sched := update s.sched c .scan }
  | choose {s c p} (hk : s.stack c = none) (hp : s.sched c = .scan) (hr : s.state p = .runnable) :
      Step .other s
        { s with proc := update s.proc c (some p), sched := update s.sched c (.chosen p) }
  | switchuvm {s c p} (hk : s.stack c = none) (hp : s.sched c = .chosen p) :
      Step .other s
        { s with cr3 := update s.cr3 c (s.pgdir p), sched := update s.sched c (.loaded p) }
  | running {s c p} (hk : s.stack c = none) (hp : s.sched c = .loaded p) :
      Step .other s
        { s with state := update s.state p .running, sched := update s.sched c (.ready p) }
  | enter {s c p} (hk : s.stack c = none) (hp : s.sched c = .ready p) :
      Step .other s
        { s with stack := update s.stack c (some p), sched := update s.sched c .returned }
  | switchkvm {s c} (hk : s.stack c = none) (hp : s.sched c = .returned) :
      Step .other s { s with cr3 := update s.cr3 c none, sched := update s.sched c .flushed }
  | clear {s c} (hk : s.stack c = none) (hp : s.sched c = .flushed) :
      Step .other s { s with proc := update s.proc c none, sched := update s.sched c .scan }
  | release {s c} (hk : s.stack c = none) (hp : s.sched c = .scan) :
      Step .other s { s with lock := none, sched := update s.sched c .idle }
  -- sched, and what follows it
  | leave {s c p a} (hk : s.stack c = some p) (hp : s.pc p = .sched a) :
      Step .other s
        { s with stack := update s.stack c none, pc := update s.pc p (.back a) }
  | resume {s c p b} (hk : s.stack c = some p) (hp : s.pc p = .back (.release b)) :
      Step .other s { s with lock := none, pc := update s.pc p (.out b) }
  | tidy {s c p} (hk : s.stack c = some p) (hp : s.pc p = .back .tidy) :
      Step .other s
        { s with chan := update s.chan p none, pc := update s.pc p (.back (.release .run)) }
  | rescan {s c p} (hk : s.stack c = some p) (hp : s.pc p = .back .wait) :
      Step .other s { s with chan := update s.chan p none, pc := update s.pc p .wait }
  -- yield
  | yieldLock {s c p b} (hk : s.stack c = some p) (hp : s.pc p = .out b) (hl : s.lock = none) :
      Step .other s { s with lock := some c, pc := update s.pc p (.yield b) }
  | yield {s c p b} (hk : s.stack c = some p) (hp : s.pc p = .yield b) :
      Step .other s
        { s with
          state := update s.state p .runnable
          pc := update s.pc p (.sched (.release b)) }
  -- sleep
  | sleepLock {s c p} (n : Nat) (hk : s.stack c = some p) (hp : s.pc p = .out .run)
      (hl : s.lock = none) :
      Step .other s { s with lock := some c, pc := update s.pc p (.sleep n) }
  | sleep {s c p n} (hk : s.stack c = some p) (hp : s.pc p = .sleep n) :
      Step .other s
        { s with
          chan := update s.chan p (some (.other n))
          state := update s.state p .sleeping
          pc := update s.pc p (.sched .tidy) }
  -- wakeup
  | wakeup {s} (ch : Chan) (hl : s.lock = none) :
      Step .other s { s with state := wakeup1 s.state s.chan ch }
  -- kill
  | kill {s pid q} (hl : s.lock = none) (hq : s.withPid pid = some q) :
      Step (.kill pid 0) s (s.kill pid q)
  | noProcess {s pid} (hl : s.lock = none) (hq : s.withPid pid = none) :
      Step (.kill pid (-1)) s s
  -- fork
  | allocproc {s c p np} (hk : s.stack c = some p) (hp : s.pc p = .out .run) (hl : s.lock = none)
      (hn : s.unused = some np) : Step (.create np) s (s.allocproc p np)
  | noStack {s c p np} (hk : s.stack c = some p) (hp : s.pc p = .out (.fork np .slot)) :
      Step (.fail np) s (s.noStack p np)
  | newStack {s c p np k} (hk : s.stack c = some p) (hp : s.pc p = .out (.fork np .slot))
      (hu : s.use k = .free) : Step .other s (s.newStack p np k)
  | noMemory {s c p np} (hk : s.stack c = some p) (hp : s.pc p = .out (.fork np .stack)) :
      Step (.fail np) s (s.noMemory p np)
  | newMemory {s c p np d} (hk : s.stack c = some p) (hp : s.pc p = .out (.fork np .stack))
      (hu : s.use d = .free) : Step .other s (s.newMemory p np d)
  | setParent {s c p np} (hk : s.stack c = some p) (hp : s.pc p = .out (.fork np .memory)) :
      Step .other s
        { s with
          parent := update s.parent np (some p)
          pc := update s.pc p (.out (.fork np .child)) }
  | start {s c p np} (hk : s.stack c = some p) (hp : s.pc p = .out (.fork np .child))
      (hl : s.lock = none) :
      Step .other s
        { s with state := update s.state np .runnable, pc := update s.pc p (.out .run) }
  -- exit; `initproc` panics instead
  | exitLock {s c p} (hk : s.stack c = some p) (hp : s.pc p = .out .run) (hi : p ≠ initproc)
      (hl : s.lock = none) : Step .other s { s with lock := some c, pc := update s.pc p .exit }
  | exit {s c p} (hk : s.stack c = some p) (hp : s.pc p = .exit) : Step .other s (s.exit p)
  -- wait
  | waitLock {s c p} (hk : s.stack c = some p) (hp : s.pc p = .out .run) (hl : s.lock = none) :
      Step .other s { s with lock := some c, pc := update s.pc p .wait }
  | reap {s c p q} (hk : s.stack c = some p) (hp : s.pc p = .wait)
      (hq : s.zombieChild p = some q) : Step (.reap p q) s (s.reap p q)
  | waitFail {s c p} (hk : s.stack c = some p) (hp : s.pc p = .wait)
      (hq : s.zombieChild p = none) (hn : (∀ q, s.parent q ≠ some p) ∨ s.killed p = true) :
      Step .other s { s with lock := none, pc := update s.pc p (.out .run) }
  | waitSleep {s c p} (hk : s.stack c = some p) (hp : s.pc p = .wait)
      (hq : s.zombieChild p = none) (hn : ∃ q, s.parent q = some p) (ha : s.killed p = false) :
      Step .other s
        { s with
          chan := update s.chan p (some (.proc p))
          state := update s.state p .sleeping
          pc := update s.pc p (.sched .wait) }
  -- the rest of the kernel
  | takePage {s k} (hu : s.use k = .free) : Step .other s { s with use := update s.use k .other }
  | givePage {s k} (hu : s.use k = .other) : Step .other s { s with use := update s.use k .free }

/-- The machine after `userinit`, with the page `k` for the stack and `d` for the page directory of
`initproc`; `avail` says which other pages are free. -/
def boot (avail : Nat → Bool) (k d : Nat) : State C where
  lock := none
  proc _ := none
  stack _ := none
  cr3 _ := none
  sched _ := .idle
  state p := if p = initproc then .runnable else .unused
  pid p := if p = initproc then 1 else 0
  parent _ := none
  chan _ := none
  killed _ := false
  kstack p := if p = initproc then some k else none
  pgdir p := if p = initproc then some d else none
  pc p := if p = initproc then .back (.release .run) else .back .dead
  nextpid := 2
  use j := if j = k then .stack initproc else if j = d then .dir initproc
    else if avail j then .free else .other
  uid _ := 0
  born _ := 0
  nextuid := 1
  asked _ := false
  log := [.create 0 0 1]

inductive Reach (R : Label → State C → Prop) : State C → Prop
  | boot {avail k d} (h : k ≠ d) : Reach R (boot avail k d)
  | step {l s s'} (h : Reach R s) (hr : R l s) (hs : Step l s s') : Reach R s'

def Any (_ : Label) (_ : State C) : Prop := True

end Ptable
