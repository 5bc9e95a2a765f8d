import Xv6.Base.Ring
import Xv6.Log.Commit

/-!
# The buffer cache

The model of `bio.c`, with the calls of `log.c` that use it, as a machine of any number of processes.
Code under `bcache.lock` is one step: the two loops of `bget`, and the end of `brelse`. `log_write` is
two steps, since the test of the size is made without `log.lock`. The process whose `end_op` is the last
one executes `commit`, bread by bread, while others go on reading.

A file-system call reads any block; between `begin_op` and `end_op` it may also change buffers of
blocks outside the log, and it passes each buffer that it changed to `log_write` before it releases
it. `start` is `log.start`; the log has the size that `mkfs` gives it.

`users`, `last` and `fresh` are history variables: the processes that hold a reference to a buffer,
the data last passed to `log_write` for a block, and the buffers that were changed and not yet passed
to `log_write` or written to the disk.
-/

namespace Bio

open Function (update)
open Log (Block putHead)
open Param
open Ring

/-! ## State -/

abbrev Buf := Fin NBUF

/-- The two loops of `commit`: `write_log` copies to the log, `install_trans` from it. -/
inductive Dir
  | toLog
  | install
deriving DecidableEq

/-- What the caller of `bread` does with the buffer. -/
inductive Cont
  /-- A file-system call that asked for this block. -/
  | client (dev blockno : Nat)
  /-- A loop of `commit`: the block of the log. -/
  | log (d : Dir) (i : Nat)
  /-- A loop of `commit`: the block that is logged; it has the block of the log. -/
  | home (d : Dir) (i : Nat) (lg : Buf)
  /-- `write_head`, the first or the second time. -/
  | head (again : Bool)
deriving DecidableEq

inductive Rel
  | client
  | src (d : Dir) (i : Nat) (dst : Buf)
  | dst (d : Dir) (i : Nat)
  | head (again : Bool)
deriving DecidableEq

/-- Where a process is in `bio.c` or `log.c`. -/
inductive Pc
  /-- In no call of `bio.c` or `log.c`. -/
  | idle
  /-- In `bget`, with a reference. -/
  | want (b : Buf) (k : Cont)
  /-- In `bread`, with the sleep-lock. -/
  | read (b : Buf) (k : Cont)
  /-- In `log_write`, after the tests. -/
  | append (b : Buf)
  /-- In `brelse`, after `releasesleep`. -/
  | unlocked (b : Buf) (r : Rel)
  /-- A loop of `commit`. -/
  | loop (d : Dir) (i : Nat)
  | gotLog (d : Dir) (i : Nat) (lg : Buf)
  | gotBoth (d : Dir) (i : Nat) (lg hm : Buf)
  /-- After `memmove`. -/
  | moved (d : Dir) (i : Nat) (lg hm : Buf)
  /-- In `bwrite`, after `B_DIRTY` is set. -/
  | writing (d : Dir) (i : Nat) (lg hm : Buf)
  | written (d : Dir) (i : Nat) (lg hm : Buf)
  /-- Only the destination is left to release. -/
  | half (d : Dir) (i : Nat) (dst : Buf)
  /-- `write_head`. -/
  | head (again : Bool)
  | gotHead (again : Bool) (h : Buf)
  | filled (again : Bool) (h : Buf)
  | writingHead (again : Bool) (h : Buf)
  | writtenHead (again : Bool) (h : Buf)
  /-- `log.lh.n = 0`. -/
  | clear
  /-- Back in `end_op`. -/
  | done
deriving DecidableEq

def Dir.dst (lg hm : Buf) : Dir → Buf
  | .toLog => lg
  | .install => hm

def Dir.src (lg hm : Buf) : Dir → Buf
  | .toLog => hm
  | .install => lg

def Cont.next (b : Buf) : Cont → Pc
  | .client _ _ => .idle
  | .log d i => .gotLog d i b
  | .home d i lg => .gotBoth d i lg b
  | .head again => .gotHead again b

def Rel.next : Rel → Pc
  | .client => .idle
  | .src d i b => .half d i b
  | .dst d i => .loop d (i + 1)
  | .head false => .loop .install 0
  | .head true => .done

def Dir.next : Dir → Pc
  | .toLog => .head false
  | .install => .clear

/-- The cache, the log, the disk and the processes. -/
structure State (T : Type) where
  links : Links Buf
  dev : Buf → Nat
  blockno : Buf → Nat
  /-- `B_VALID`. -/
  valid : Buf → Bool
  /-- `B_DIRTY`. -/
  dirty : Buf → Bool
  refcnt : Buf → Nat
  /-- The process that holds the sleep-lock. -/
  lock : Buf → Option T
  data : Buf → Block
  /-- The contents of the disks, by device and block number. -/
  disk : Nat → Nat → Block
  /-- `log.lh.block[0..log.lh.n)`. -/
  lh : List Nat
  outstanding : Nat
  committing : Bool
  pc : T → Pc
  /-- The processes between `begin_op` and `end_op`. -/
  ops : List T
  users : Buf → List T
  last : Nat → Option Block
  fresh : Buf → Bool

variable {T : Type}

namespace State

/-- The first loop of `bget`. -/
def cached (s : State T) (dev blockno : Nat) : Option Buf :=
  s.links.find (fun b => s.dev b = dev ∧ s.blockno b = blockno) (NBUF + 1) (s.links.next none)

/-- The second loop of `bget`. -/
def victim (s : State T) : Option Buf :=
  s.links.flip.find (fun b => s.refcnt b = 0 ∧ s.dirty b = false) (NBUF + 1) (s.links.prev none)

/-- `bget` takes a reference to a buffer that has the block. -/
def hit (s : State T) (t : T) (b : Buf) : State T :=
  { s with
    refcnt := update s.refcnt b (s.refcnt b + 1)
    users := update s.users b (t :: s.users b) }

/-- `bget` recycles a buffer. -/
def recycle (s : State T) (t : T) (dev blockno : Nat) (b : Buf) : State T :=
  { s with
    dev := update s.dev b dev
    blockno := update s.blockno b blockno
    valid := update s.valid b false
    dirty := update s.dirty b false
    refcnt := update s.refcnt b 1
    users := update s.users b [t] }

/-- The section of `bget` with `bcache.lock` held; `none` is the panic "bget: no buffers". -/
def bget (s : State T) (t : T) (dev blockno : Nat) : Option (Buf × State T) :=
  match s.cached dev blockno with
  | some b => some (b, s.hit t b)
  | none =>
    match s.victim with
    | some b => some (b, s.recycle t dev blockno b)
    | none => none

/-- The section of `brelse` with `bcache.lock` held. -/
def unref [DecidableEq T] (s : State T) (t : T) (b : Buf) : State T :=
  { s with
    refcnt := update s.refcnt b (s.refcnt b - 1)
    users := update s.users b ((s.users b).erase t)
    links := if s.refcnt b - 1 = 0 then (s.links.unlink b).push b else s.links }

/-- `iderw` for a buffer that is not dirty. -/
def fetch (s : State T) (b : Buf) : State T :=
  { s with
    data := update s.data b (s.disk (s.dev b) (s.blockno b))
    valid := update s.valid b true }

/-- `iderw` for a buffer that is dirty. -/
def flush (s : State T) (b : Buf) : State T :=
  { s with
    disk := update s.disk (s.dev b) (update (s.disk (s.dev b)) (s.blockno b) (s.data b))
    valid := update s.valid b true
    dirty := update s.dirty b false
    fresh := update s.fresh b false }

def change (s : State T) (b : Buf) (v : Block) : State T :=
  { s with data := update s.data b v, fresh := update s.fresh b true }

/-- The section of `log_write` with `log.lock` held. -/
def logWrite (s : State T) (b : Buf) : State T :=
  { s with
    lh := if s.blockno b ∈ s.lh then s.lh else s.lh ++ [s.blockno b]
    dirty := update s.dirty b true
    last := update s.last (s.blockno b) (some (s.data b))
    fresh := update s.fresh b false }

def goto [DecidableEq T] (s : State T) (t : T) (pc : Pc) : State T :=
  { s with pc := update s.pc t pc }

end State

/-! ## Steps -/

/-- The block is on the disk of the log and outside the log. -/
def Home (start dev blockno : Nat) : Prop :=
  dev = ROOTDEV ∧ (blockno < start ∨ start + LOGSIZE ≤ blockno)

/-- The calls of `bread`. -/
inductive Asks (start : Nat) (lh : List Nat) : Pc → Nat → Nat → Cont → Prop
  | client (dev blockno : Nat) : Asks start lh .idle dev blockno (.client dev blockno)
  | log {d i} (hi : i < lh.length) :
      Asks start lh (.loop d i) ROOTDEV (start + i + 1) (.log d i)
  | home {d i lg} {hi : i < lh.length} :
      Asks start lh (.gotLog d i lg) ROOTDEV (lh.get ⟨i, hi⟩) (.home d i lg)
  | head {again} : Asks start lh (.head again) ROOTDEV start (.head again)

/-- The calls of `bwrite`: the buffer, the place after `B_DIRTY` is set and the place after it. -/
inductive Writes : Pc → Buf → Pc → Pc → Prop
  | copy {d i lg hm} :
      Writes (.moved d i lg hm) (d.dst lg hm) (.writing d i lg hm) (.written d i lg hm)
  | head {again h} : Writes (.filled again h) h (.writingHead again h) (.writtenHead again h)

/-- The calls of `brelse` in `commit`. -/
inductive Drops : Pc → Buf → Rel → Prop
  | src {d i lg hm} : Drops (.written d i lg hm) (d.src lg hm) (.src d i (d.dst lg hm))
  | dst {d i b} : Drops (.half d i b) b (.dst d i)
  | head {again h} : Drops (.writtenHead again h) h (.head again)

section Step

variable [DecidableEq T] (start : Nat)

/-- A step of one process. -/
inductive Step : State T → State T → Prop
  -- begin_op and end_op
  | beginOp {s t} (hp : s.pc t = .idle) (ho : t ∉ s.ops) (hc : s.committing = false)
      (hr : s.lh.length + (s.outstanding + 1) * MAXOPBLOCKS ≤ LOGSIZE) :
      Step s { s with outstanding := s.outstanding + 1, ops := t :: s.ops }
  | endOp {s t} (hp : s.pc t = .idle) (ho : t ∈ s.ops) (hh : ∀ b, s.lock b ≠ some t)
      (hc : s.committing = false) (hn : s.outstanding - 1 ≠ 0) :
      Step s { s with outstanding := s.outstanding - 1, ops := s.ops.erase t }
  | lastOp {s t} (hp : s.pc t = .idle) (ho : t ∈ s.ops) (hh : ∀ b, s.lock b ≠ some t)
      (hc : s.committing = false) (hn : s.outstanding - 1 = 0) :
      Step s
        { s with
          outstanding := s.outstanding - 1
          ops := s.ops.erase t
          committing := true
          pc := update s.pc t (if 0 < s.lh.length then .loop .toLog 0 else .done) }
  -- a change of a buffer, and log_write
  | change {s t b} (v : Block) (hp : s.pc t = .idle) (hl : s.lock b = some t) (ho : t ∈ s.ops)
      (hh : Home start (s.dev b) (s.blockno b)) : Step s (s.change b v)
  | test {s t b} (hp : s.pc t = .idle) (hl : s.lock b = some t) (ho : t ∈ s.ops)
      (hh : Home start (s.dev b) (s.blockno b))
      (hn : ¬ (s.lh.length ≥ LOGSIZE ∨ s.lh.length ≥ LOGSIZE - 1)) (hs : ¬ s.outstanding < 1) :
      Step s (s.goto t (.append b))
  | append {s t b} (hp : s.pc t = .append b) : Step s ((s.logWrite b).goto t .idle)
  -- bread
  | bget {s s' t b dev blockno k} (ha : Asks start s.lh (s.pc t) dev blockno k)
      (hb : s.bget t dev blockno = some (b, s')) :
      Step s (s'.goto t (.want b k))
  | acquire {s t b k} (hp : s.pc t = .want b k) (hl : s.lock b = none) :
      Step s { s.goto t (.read b k) with lock := update s.lock b (some t) }
  | fetch {s t b k} (hp : s.pc t = .read b k) (hv : s.valid b = false) (hd : s.dirty b = false) :
      Step s (s.fetch b)
  | flushed {s t b k} (hp : s.pc t = .read b k) (hv : s.valid b = false) (hd : s.dirty b = true) :
      Step s (s.flush b)
  | got {s t b k} (hp : s.pc t = .read b k) (hv : s.valid b = true) :
      Step s (s.goto t (k.next b))
  -- brelse
  | unlock {s t b} (hp : s.pc t = .idle) (hl : s.lock b = some t) (hf : s.fresh b = false) :
      Step s { s.goto t (.unlocked b .client) with lock := update s.lock b none }
  | drop {s t b r} (hd : Drops (s.pc t) b r) :
      Step s { s.goto t (.unlocked b r) with lock := update s.lock b none }
  | unref {s t b r} (hp : s.pc t = .unlocked b r) : Step s ((s.unref t b).goto t r.next)
  -- commit
  | exit {s t d i} (hp : s.pc t = .loop d i) (hi : ¬ i < s.lh.length) :
      Step s (s.goto t d.next)
  | move {s t d i lg hm} (hp : s.pc t = .gotBoth d i lg hm) :
      Step s ((s.change (d.dst lg hm) (s.data (d.src lg hm))).goto t (.moved d i lg hm))
  | fill {s t again h} (hp : s.pc t = .gotHead again h) :
      Step s ((s.change h (putHead (s.data h) s.lh)).goto t (.filled again h))
  | bwrite {s t b p q} (hw : Writes (s.pc t) b p q) :
      Step s { s.goto t p with dirty := update s.dirty b true }
  | wrote {s t b x q} (hw : Writes x b (s.pc t) q) : Step s ((s.flush b).goto t q)
  | clear {s t} (hp : s.pc t = .clear) : Step s { s.goto t (.head true) with lh := [] }
  | done {s t} (hp : s.pc t = .done) : Step s { s.goto t .idle with committing := false }

/-- The state after `binit`. -/
def init (disk : Nat → Nat → Block) (junk : Block) : State T where
  links := (List.finRange NBUF).foldl Links.push ⟨fun _ => none, fun _ => none⟩
  dev _ := 0
  blockno _ := 0
  valid _ := false
  dirty _ := false
  refcnt _ := 0
  lock _ := none
  data _ := junk
  disk := disk
  lh := []
  outstanding := 0
  committing := false
  pc _ := .idle
  ops := []
  users _ := []
  last _ := none
  fresh _ := false

inductive Reach : State T → Prop
  | init {disk junk} : Reach (init disk junk)
  | step {s s'} (h : Reach s) (hs : Step start s s') : Reach s'

end Step

end Bio
