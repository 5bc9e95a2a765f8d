import Xv6.Vm.System

/-!
# Processes inside a pipe

`piperead` and `pipewrite` may sleep while other processes run. `Busy` is the kernel between steps
of system calls, with the processes that are inside a `read` or `write` on a pipe. Such a process
makes no other call until it returns.
-/

namespace Vm

open Param

/-- The kernel, and the page of the pipe that each process is reading or writing. -/
structure Busy where
  kernel : Kernel
  inside : Nat → Option Nat

/-- `fileread` and `filewrite` go on to a pipe: descriptor `fd` of process `p` is open for the
transfer, and is the pipe in page `g`. -/
def OnPipe (s : Kernel) (p fd : Nat) (write : Bool) (g : Nat) : Prop :=
  fd < NOFILE ∧ ∃ k, (s.proc p).ofile fd = some k ∧ (s.file k).type = .pipe ∧ (s.file k).pipe = g ∧
    (if write then (s.file k).writable else (s.file k).readable) = true

/-- A system call of a process that is not inside a pipe, or the start or the end of a `read` or
`write` on a pipe. A `read` or `write` of an inode leaves descriptors, files and pages alone. -/
inductive Busy.Step (L : Layout) : Busy → Busy → Prop
  | call {x : Busy} {s' : Kernel} {p : Nat} {c : Call} {r : Option Int} (hp : p < NPROC)
      (hr : (x.kernel.proc p).state = .runnable ∨ (x.kernel.proc p).state = .running)
      (hin : x.inside p = none) (hne : ∀ ip argv, c ≠ .exec ip argv) (hv : c.Valid x.kernel p)
      (hc : Vm.call L p c x.kernel = .ok (r, s')) : Step L x { x with kernel := s' }
  | enter {x : Busy} {p fd g : Nat} {write : Bool} (hp : p < NPROC)
      (hr : (x.kernel.proc p).state = .runnable ∨ (x.kernel.proc p).state = .running)
      (hin : x.inside p = none) (hon : OnPipe x.kernel p fd write g) :
      Step L x { x with inside := Function.update x.inside p (some g) }
  | leave {x : Busy} {p : Nat} : Step L x { x with inside := Function.update x.inside p none }

/-- The states that system calls other than `exec` reach from the end of `main`. -/
inductive Busy.Reach (L : Layout) : Busy → Prop
  | boot {mem : Nat → Bytes.Store} {fail : List Bool} {others drivers : Nat} {init : List UInt8}
      {s : Kernel} (h : main L others drivers init (.blank mem fail) = .ok ((), s)) :
      Reach L ⟨s, fun _ => none⟩
  | step {x x' : Busy} (h : Reach L x) (hs : Step L x x') : Reach L x'

end Vm
