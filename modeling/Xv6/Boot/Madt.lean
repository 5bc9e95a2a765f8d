import Xv6.Base.Bytes
import Xv6.Param

/-!
# The walks over the MADT

The firmware's table of interrupt controllers is a header of 44 bytes and a sequence of entries, each
with its type in the first byte and its length in the second. Two loops walk it: `mpinit_uefi` of the
kernel (`mp_uefi.c`) and the loop of the loader's `UefiMain` (`loader.c`). The offset `i` is a `uint` in
the one and a `UINTN` in the other, and each reads its own fields of an entry.
-/

namespace Boot

open Bytes Param

/-- The `switch` on the entry's type, as far as it moves `i`: a type without a case leaves it. -/
def advance (m : Store) (i : Nat) : Nat :=
  match (m i).toNat with
  | 0 | 1 | 2 | 4 => i + (m (i + 1)).toNat
  | 5 => i + 0xC
  | _ => i

/-- A loop over the entries: what it does with the entry at an offset, and which bytes of the table it
reads there. -/
structure Walk (σ : Type) where
  /-- Number of values of the type of `i`. -/
  word : Nat
  entry : Store → Nat → σ → σ
  reads : Store → Nat → σ → List Nat

/-- `while(i < len)`: the final state, the offsets that were visited and the offsets that were read;
`none` when the fuel is used up. -/
def Walk.run {σ : Type} (w : Walk σ) (m : Store) (len : Nat) :
    Nat → Nat → σ → Option (σ × List Nat × List Nat)
  | 0, _, _ => none
  | fuel + 1, i, s =>
    if i < len then
      (w.run m len fuel (advance m i % w.word) (w.entry m i s)).map fun (t, visited, reads) =>
        (t, i :: visited, w.reads m i s ++ reads)
    else some (s, [], [])

structure Mp where
  cpus : List UInt8
  ioapicid : UInt8
deriving DecidableEq

def mpinitUefi : Walk Mp where
  word := 2 ^ 32
  entry m i s :=
    match (m i).toNat with
    | 0 => if s.cpus.length < NCPU then { s with cpus := s.cpus ++ [m (i + 3)] } else s
    | 1 => { s with ioapicid := m (i + 2) }
    | _ => s
  reads m i s :=
    match (m i).toNat with
    | 0 => if s.cpus.length < NCPU then [i, i + 3, i + 1] else [i, i + 1]
    | 1 => [i, i + 2, i + 1]
    | 2 | 4 => [i, i + 1]
    | _ => [i]

def uefiMain : Walk Unit where
  word := 2 ^ 64
  entry _ _ s := s
  reads m i _ :=
    match (m i).toNat with
    | 0 => [i, i + 2, i + 3, i + 4, i + 5, i + 6, i + 7, i + 1]
    | 1 => [i, i + 2, i + 4, i + 5, i + 6, i + 7, i + 1]
    | 2 => [i, i + 2, i + 3, i + 1]
    | 4 => [i, i + 2, i + 1]
    | _ => [i]

/-- `sizeof(struct uefi_madt)`, and `0x2C` in the loader: where the entries begin. -/
def ENTRIES : Nat := 44

def madtLen (m : Store) : Nat := get32 m 4

end Boot
