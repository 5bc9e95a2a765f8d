import Xv6.Base.Count
import Xv6.Vm.System

/-!
# Isolation and conservation of pages

What the page tables and the allocator are for. `Isolated`: user mode reaches only the memory below
`KERNBASE`, and a frame mapped there has no second use. `Conserved`: every page given to the allocator
is in one place.
-/

namespace Vm

open Bytes Param Finset

/-! ## Counting -/

def one (g f : Nat) : Nat := if g = f then 1 else 0

def oneOf (o : Option Nat) (f : Nat) : Nat := if o = some f then 1 else 0

/-- One for the frame that an entry maps. -/
def entryUse (o : Option Nat) (f : Nat) : Nat :=
  match o with
  | some w => if present w = true ∧ pteAddr w = f then 1 else 0
  | none => 0

def dirIndices : Finset Nat := range NPDENTRIES

theorem mem_dirIndices {i : Nat} : i ∈ dirIndices ↔ i < NPDENTRIES := mem_range

attribute [irreducible] dirIndices

/-- How often a directory uses the frame for a page table. -/
def tableUse (m : Nat → Store) (d f : Nat) : Nat :=
  ∑ i ∈ dirIndices, if present (ent m d i) = true ∧ pteAddr (ent m d i) = f then 1 else 0

def userPages : Finset (Nat × Nat) := range (KERNBASE / 2 ^ 22) ×ˢ range 1024

theorem mem_userPages {x : Nat × Nat} : x ∈ userPages ↔ x.1 < 512 ∧ x.2 < 1024 := by
  rw [userPages, mem_product, mem_range, mem_range]
  rfl

attribute [irreducible] userPages

/-- How often `f` is mapped below `KERNBASE` by `d`. -/
def userUse (m : Nat → Store) (d f : Nat) : Nat :=
  ∑ x ∈ userPages, entryUse (entry m d x.1 x.2) f

/-- The uses of `f` by the page directory `d`: as the directory, a page table or a user page. -/
def dirUse (m : Nat → Store) (d f : Nat) : Nat := one d f + tableUse m d f + userUse m d f

def dirUseOf (m : Nat → Store) (o : Option Nat) (f : Nat) : Nat :=
  match o with
  | some d => dirUse m d f
  | none => 0

/-- How often a process uses the frame. -/
def procUse (s : Kernel) (p f : Nat) : Nat :=
  if (s.proc p).state = .unused then 0
  else oneOf (s.proc p).kstack f + dirUseOf s.mem (s.proc p).pgdir f

/-- Some process holds a descriptor of a pipe in page `f`. -/
def OpenPipe (s : Kernel) (f : Nat) : Prop :=
  ∃ p < NPROC, (s.proc p).state ≠ .unused ∧ ∃ fd < NOFILE, ∃ k < NFILE,
    (s.proc p).ofile fd = some k ∧ (s.file k).type = .pipe ∧ (s.file k).pipe = f

open Classical in
/-- The number of places where the frame `f` is. -/
noncomputable def places (s : Kernel) (f : Nat) : Nat :=
  s.freelist.count f + s.held.count f + dirUse s.mem s.kpgdir f +
    ∑ p ∈ range NPROC, procUse s p f + if OpenPipe s f then 1 else 0

/-! ## Properties -/

def IsTable (m : Nat → Store) (d f : Nat) : Prop :=
  ∃ i < NPDENTRIES, present (ent m d i) = true ∧ pteAddr (ent m d i) = f

/-- The frames that `freerange` gives to the allocator. -/
def pages (L : Layout) : List Nat :=
  List.range' ((L.kend + PGSIZE - 1) / PGSIZE - KERNBASE / PGSIZE)
    (PHYSTOP / PGSIZE - ((L.kend + PGSIZE - 1) / PGSIZE - KERNBASE / PGSIZE))

/-- The directory of a process. -/
def HasDir (s : Kernel) (p d : Nat) : Prop :=
  p < NPROC ∧ (s.proc p).state ≠ .unused ∧ (s.proc p).pgdir = some d

/-- Address-space isolation. -/
structure Isolated (s : Kernel) : Prop where
  /-- Entries for user mode map addresses below `KERNBASE`. -/
  user_below : ∀ p d, HasDir s p d → ∀ i < NPDENTRIES, ∀ j < 1024, ∀ w, entry s.mem d i j = some w →
    user w = true → pgaddr i j < KERNBASE
  /-- A user frame is mapped once. -/
  once : ∀ p d va, HasDir s p d → va < KERNBASE → ∀ f, userFrame s.mem d va = some f →
    ∀ q e va', HasDir s q e → va' < KERNBASE → userFrame s.mem e va' = some f →
      q = p ∧ pgrounddown va' = pgrounddown va
  /-- A user frame has no other use. -/
  only : ∀ p d va, HasDir s p d → va < KERNBASE → ∀ f, userFrame s.mem d va = some f →
    f ∉ s.freelist ∧ f ∉ s.held ∧ f ≠ s.kpgdir ∧ ¬ IsTable s.mem s.kpgdir f ∧ ¬ OpenPipe s f ∧
      ∀ q e, HasDir s q e → f ≠ e ∧ ¬ IsTable s.mem e f ∧ (s.proc q).kstack ≠ some f

/-- Every page given to the allocator is in exactly one place. -/
def Conserved (L : Layout) (s : Kernel) : Prop := ∀ f ∈ pages L, places s f = 1

end Vm
