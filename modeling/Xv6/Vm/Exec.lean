import Xv6.Fs.Dir
import Xv6.Vm.System

/-!
# `exec` with its file

`Vm.exec` takes the executable as an `Image`; here `exec` finds it by its path, holds its inode locked
inside a transaction while it reads the headers and the segments with `readi`, and releases it on each
way out.

`begin_op` and `end_op` are those of a process that finds the log free: `end_op` may write the log to
its place on the disk, which `bread` does not see.
-/

namespace Exec

open Bytes Panic
open Vm (Kernel KM Layout)

/-! ## State -/

/-- The fields of `struct trapframe` that `exec` sets. -/
structure TrapFrame where
  eip : Nat
  esp : Nat

structure Machine where
  vm : Kernel
  fs : Fs.State
  /-- `log.outstanding` -/
  outstanding : Nat
  cwd : Nat → Nat
  tf : Nat → TrapFrame
  /-- The name of each process, as a string. -/
  name : Nat → List UInt8

abbrev XM := M Machine

/-- Run a function of the memory management. -/
def onVm {α : Type} (m : KM α) : XM α := fun s =>
  match m s.vm with
  | .ok (a, vm) => .ok (a, { s with vm := vm })
  | .error e => .error e

/-- Run a function of the file system. -/
def onFs {α : Type} (m : Fs.FsM α) : XM α := fun s =>
  match m s.fs with
  | .ok (a, fs) => .ok (a, { s with fs := fs })
  | .error e => .error e

def beginOp : XM Unit := modify fun s => { s with outstanding := s.outstanding + 1 }

def endOp : XM Unit := modify fun s => { s with outstanding := s.outstanding - 1 }

/-- The file with the inode `ip`. -/
abbrev reader (ip : Nat) : Vm.Reader Machine := ⟨onVm, fun off n => onFs (Fs.readi ip off n)⟩

/-! ## `exec` -/

/-- The loop that finds the last element of a path, `last` so far. -/
def lastElem : List UInt8 → List UInt8 → List UInt8
  | last, [] => last
  | last, c :: s => if c = Fs.SLASH then lastElem s s else lastElem last s

/-- The string that `safestrcpy` stores in an array of `n` bytes. -/
def safestrcpy (t : List UInt8) (n : Nat) : List UInt8 := t.take (n - 1)

/-- Switch to the page table of process `p`. -/
def switchuvm (p : Nat) : KM Unit := do
  if ((← get).proc p).kstack = none then throw "switchuvm: no kstack"
  if ((← get).proc p).pgdir = none then throw "switchuvm: no pgdir"

/-- The label `bad`: give up the new directory and the inode, if there are. -/
def bad (L : Layout) (pgdir ip : Option Nat) : XM Int := do
  if pgdir ≠ none then onVm (Vm.freevm L pgdir)
  match ip with
  | none => return -1
  | some ip =>
    onFs (Fs.iunlockput ip)
    endOp
    return -1

/-- The part of `exec` from the new image on: it becomes that of process `p`. -/
def commit (L : Layout) (p pgdir sz entry sp : Nat) (path : List UInt8) : XM Int := do
  modify fun s => { s with name := Function.update s.name p (safestrcpy (lastElem path path) 16) }
  let v := (← get).vm.proc p
  onVm (Vm.setProc p { v with pgdir := some pgdir, sz := sz })
  modify fun s => { s with tf := Function.update s.tf p ⟨entry, sp⟩ }
  onVm (switchuvm p)
  onVm (Vm.freevm L v.pgdir)
  return 0

/-- `exec` from `setupkvm` on, with the header `elf` of the file `ip`. -/
def execElf (L : Layout) (p : Nat) (path : List UInt8) (argv : List (List UInt8)) (ip : Nat)
    (elf : Store) : XM Int := do
  match ← onVm (Vm.setupkvm L) with
  | none => bad L none (some ip)
  | some pgdir =>
    match ← Vm.loadSegs L pgdir (reader ip) (get16 elf 44) (get32 elf 28) 0 with
    | none => bad L (some pgdir) (some ip)
    | some sz =>
      onFs (Fs.iunlockput ip)
      endOp
      match ← onVm (do Vm.userStack L (← Vm.curdir p) pgdir sz argv) with
      | none => bad L (some pgdir) none
      | some (sz, sp) => commit L p pgdir sz (get32 elf 24) sp path

def exec (L : Layout) (p : Nat) (path : List UInt8) (argv : List (List UInt8)) : XM Int := do
  beginOp
  match ← onFs (Fs.namei ((← get).cwd p) path) with
  | none =>
    endOp
    return -1
  | some ip =>
    onFs (Fs.ilock ip)
    match ← (reader ip).readAll 0 Vm.ELFHDR with
    | none => bad L none (some ip)
    | some elf =>
      if get32 elf 0 ≠ Vm.ELF_MAGIC then bad L none (some ip)
      else execElf L p path argv ip elf

end Exec
