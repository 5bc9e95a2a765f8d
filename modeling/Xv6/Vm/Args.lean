import Xv6.Vm.System

/-!
# System-call arguments

The model of the argument functions of `syscall.c` and of the argument loop of `sys_exec`. They run
on the memory of the calling process, and every address that they dereference is recorded, whether
or not the call succeeds. Addresses and sizes are 32-bit: sums are taken modulo `2 ^ 32`, and an
`int` argument is the same word as the `uint` it is cast to.
-/

namespace Vm

open Bytes Param

/-- What the kernel sees of the calling process: its size, its saved stack pointer and its memory. -/
structure User where
  sz : Nat
  esp : Nat
  mem : Store

/-- A function that reads arguments: it may return -1, and records the addresses it dereferences. -/
abbrev UM := ReaderT User (OptionT (StateM (List Nat)))

def deref (a : Nat) : UM UInt8 := do
  modify fun log => a :: log
  return (← read).mem a

def derefInt (a : Nat) : UM Nat := do
  let b0 ← deref a
  let b1 ← deref ((a + 1) % UINT)
  let b2 ← deref ((a + 2) % UINT)
  let b3 ← deref ((a + 3) % UINT)
  return b0.toNat + 256 * b1.toNat + 65536 * (b2.toNat + 256 * b3.toNat)

/-- Fetch the `int` at `addr` from the current process. -/
def fetchint (addr : Nat) : UM Nat := do
  if (← read).sz ≤ addr ∨ (← read).sz < (addr + 4) % UINT then failure
  derefInt addr

/-- The loop of `fetchstr`, with `n` bytes from `s` up to `ep`; the result is the length. -/
def scan : Nat → Nat → UM Nat
  | 0, _ => failure
  | n + 1, s => do
    if (← deref s) = 0 then return 0
    return (← scan n (s + 1)) + 1

/-- Fetch the nul-terminated string at `addr`; the result is where it is and its length. -/
def fetchstr (addr : Nat) : UM (Nat × Nat) := do
  if (← read).sz ≤ addr then failure
  return (addr, ← scan ((← read).sz - addr) addr)

def argint (n : Int) : UM Nat := do
  fetchint (((← read).esp + 4 + 4 * n) % UINT).toNat

/-- Fetch the `n`th argument as a pointer to a block of `size` bytes. -/
def argptr (n size : Int) : UM Nat := do
  let i ← argint n
  if size < 0 ∨ (← read).sz ≤ i ∨ (← read).sz < ((i + size) % UINT).toNat then failure
  return i

def argstr (n : Int) : UM (Nat × Nat) := do
  fetchstr (← argint n)

/-- The argument loop of `sys_exec` from index `i` on, with `n` entries of `argv` left. -/
def fetchArgv (uargv : Nat) : Nat → Nat → UM (List (Nat × Nat))
  | 0, _ => failure
  | n + 1, i => do
    let uarg ← fetchint ((uargv + 4 * i) % UINT)
    if uarg = 0 then return []
    let arg ← fetchstr uarg
    return arg :: (← fetchArgv uargv n (i + 1))

/-- `sys_exec`, up to the call of `exec`: the path and the argument strings. -/
def sysExec : UM ((Nat × Nat) × List (Nat × Nat)) := do
  let path ← argstr 0
  let uargv ← argint 1
  return (path, ← fetchArgv uargv MAXARG 0)

end Vm
