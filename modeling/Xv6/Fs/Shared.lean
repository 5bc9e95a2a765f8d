import Xv6.Fs.Proof.Own

/-!
# Writing to a shared `struct file`

The machine of processes that share one `struct file` of an inode, after `fork` or `dup`, and that call
`filewrite` on it. A call gives up the inode's lock between its chunks, and any process may run at any
point. Processes that use other inodes may change the file system (`Elsewhere`).

The call number `c` of the process `p` writes the bytes `buf p c`. `results` and `chunks` are history.
-/

namespace Fs.Shared

open Param
open Function (update)

/-- `max` of `filewrite`, the most bytes that it writes in one transaction. -/
def max : Nat := ((MAXOPBLOCKS - 1 - 1 - 2) / 2) * 512

inductive Pc
  | idle
  /-- At the head of the loop. -/
  | top (i : Nat)
  /-- In a transaction, before `ilock`. -/
  | lock (i : Nat)
  /-- Before `writei`. -/
  | write (i : Nat)
  /-- Before `f->off += r`; `none` is -1. -/
  | advance (i : Nat) (r : Option Nat)
  /-- Before `iunlock`. -/
  | unlock (i : Nat) (r : Option Nat)
  /-- Before `end_op` and the tests of `r`. -/
  | check (i : Nat) (r : Option Nat)
  /-- The panic "short filewrite". -/
  | panic

/-- A chunk that was written: bytes of the buffer of a call from `start` on, at the offset `off`. -/
structure Chunk (P : Type) where
  proc : P
  call : Nat
  start : Nat
  off : Nat
  data : List UInt8

/-- The `struct file` has the inode `ip`. -/
structure Sys (P : Type) where
  fs : State
  ip : Nat
  writable : Bool
  off : Nat
  pc : P → Pc
  results : P → List (Option Nat)
  chunks : List (Chunk P)

/-- What processes do to other inodes, and to the blocks of other files. -/
structure Elsewhere (ip : Nat) (s s' : State) : Prop where
  log : s'.log = s.log
  sb : s'.sb = s.sb
  owned : Owned s'.sb s'.disk s'.cur
  ino : s'.ino ip = s.ino ip
  dinode : dinode s'.sb s'.disk ip = dinode s.sb s.disk ip
  bytes : ∀ o < (s.cur ip).size, byte s'.disk (s'.cur ip) o = byte s.disk (s.cur ip) o

section
variable {P : Type} [DecidableEq P] (buf : P → Nat → List UInt8)

namespace Sys

def data (s : Sys P) (p : P) : List UInt8 := buf p (s.results p).length

/-- `addr + i`, of the length `n1`. -/
def part (s : Sys P) (p : P) (i : Nat) : List UInt8 := ((s.data buf p).drop i).take max

def setPc (s : Sys P) (p : P) (c : Pc) : Sys P := { s with pc := update s.pc p c }

def ret (s : Sys P) (p : P) (r : Option Nat) : Sys P :=
  { s.setPc p .idle with results := update s.results p (s.results p ++ [r]) }

/-- The chunk of `p` from `i` on is written, unless `writei` returned -1. -/
def wrote (s : Sys P) (p : P) (i : Nat) (r : Option Nat) : List (Chunk P) :=
  if r = none then s.chunks
  else s.chunks ++ [⟨p, (s.results p).length, i, s.off, s.part buf p i⟩]

end Sys

inductive Step : Sys P → Sys P → Prop
  | call {s} (p : P) (h : s.pc p = .idle) (hw : s.writable = true) : Step s (s.setPc p (.top 0))
  | refuse {s} (p : P) (h : s.pc p = .idle) (hw : s.writable = false) : Step s (s.ret p none)
  | enter {s} (p : P) {i} (h : s.pc p = .top i) (hi : i < (s.data buf p).length) :
      Step s (s.setPc p (.lock i))
  | finish {s} (p : P) {i} (h : s.pc p = .top i) (hi : ¬ i < (s.data buf p).length) :
      Step s (s.ret p (if i = (s.data buf p).length then some i else none))
  | lock {s} (p : P) {i fs} (h : s.pc p = .lock i) (hl : ilock s.ip s.fs = .ok ((), fs)) :
      Step s { s.setPc p (.write i) with fs := fs }
  | write {s} (p : P) {i r fs} (h : s.pc p = .write i)
      (hw : writei s.ip s.off (s.part buf p i) s.fs = .ok (r, fs)) :
      Step s { s.setPc p (.advance i r) with fs := fs, chunks := s.wrote buf p i r }
  | advance {s} (p : P) {i r} (h : s.pc p = .advance i r) :
      Step s { s.setPc p (.unlock i r) with off := (s.off + r.getD 0) % 2 ^ 32 }
  | unlock {s} (p : P) {i r fs} (h : s.pc p = .unlock i r) (hu : iunlock s.ip s.fs = .ok ((), fs)) :
      Step s { s.setPc p (.check i r) with fs := fs }
  | fail {s} (p : P) {i} (h : s.pc p = .check i none) :
      Step s (s.ret p (if i = (s.data buf p).length then some i else none))
  | short {s} (p : P) {i r} (h : s.pc p = .check i (some r)) (hr : r ≠ (s.part buf p i).length) :
      Step s (s.setPc p .panic)
  | next {s} (p : P) {i r} (h : s.pc p = .check i (some r)) (hr : r = (s.part buf p i).length) :
      Step s (s.setPc p (.top (i + r)))
  | other {s fs} (h : Elsewhere s.ip s.fs fs) : Step s { s with fs := fs }

inductive Reach (s0 : Sys P) : Sys P → Prop
  | refl : Reach s0 s0
  | step {s s'} (h : Reach s0 s) (hs : Step buf s s') : Reach s0 s'

/-- An open file at its end that nobody uses yet. -/
structure Start (s : Sys P) : Prop where
  log : s.fs.log = none
  geo : s.fs.sb.Geometry
  owned : Owned s.fs.sb s.fs.disk s.fs.cur
  live : Live s.fs.sb s.fs.cur s.ip
  fits : (s.fs.cur s.ip).Fits
  type : (s.fs.cur s.ip).type = T_FILE
  locked : (s.fs.ino s.ip).locked = false
  off : s.off = (s.fs.cur s.ip).size
  pc : ∀ p, s.pc p = .idle
  results : ∀ p, s.results p = []
  chunks : s.chunks = []

end

end Fs.Shared
