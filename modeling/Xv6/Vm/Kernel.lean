import Mathlib.Logic.Function.Basic
import Xv6.Base.Panic
import Xv6.Param
import Xv6.Vm.Mmu

/-!
# Physical pages and page tables

The model of `kalloc.c` and `vm.c`. Physical memory is a store of bytes for each frame; page
directories and page tables are pages of that memory, read and written as 32-bit entries. The free
list is the list of its frames. `fail` is the pattern of failures of `kalloc`: its next entry says
whether the next call is refused, and once it is used up only an empty free list refuses one.

`hist` is a history variable. It records each time one of two unguarded branches is taken: `uva2ka`
reading through a null entry pointer, and a page that was allocated but not mapped being dropped, by
`copyuvm` when it gives up and by `inituvm`.
-/

namespace Vm

open Bytes Panic

/-! ## State -/

/-- What is fixed before `main` runs: `data` and `end` of `kernel.ld`, and the frame buffer that
the firmware reports. The frame buffer's pages lie between the PCI window and `DEVSPACE`. -/
structure Layout where
  data : Nat
  kend : Nat
  vramSize : Nat
  pvramAddr : Nat
  data_gt : KERNLINK < data
  data_page : data % PGSIZE = 0
  data_le : data ≤ kend
  kend_lt : kend < KERNBASE + 4 * 1024 * 1024
  vram_pos : 0 < vramSize
  vram_le : PCI_BAR_BASE + PCI_VP_OFFSET + 0x10000000 ≤ DEVSPACE - vramSize
  pvram_page : pvramAddr % PGSIZE = 0
  pvram_lt : pvramAddr < UINT

inductive ProcState
  | unused
  | embryo
  | sleeping
  | runnable
  | running
  | zombie
deriving DecidableEq

/-- The type of an open file. -/
inductive FileType
  | none
  | pipe
  | inode
deriving DecidableEq

structure File where
  ref : Nat
  type : FileType
  readable : Bool
  writable : Bool
  /-- The page of the pipe. -/
  pipe : Nat

/-- The open ends of a `struct pipe`. -/
structure Pipe where
  readopen : Bool
  writeopen : Bool

/-- `struct proc`, less the fields that memory management does not read. -/
structure Proc where
  state : ProcState
  pid : Int
  parent : Option Nat
  sz : Nat
  pgdir : Option Nat
  kstack : Option Nat
  ofile : Nat → Option Nat
  killed : Bool

/-- An unguarded branch that was taken. -/
inductive Slip
  /-- `uva2ka` read through a null pointer. -/
  | nullPte
  /-- This page was dropped. -/
  | leak (f : Nat)
deriving DecidableEq

/-- The kernel's memory. -/
structure Kernel where
  freelist : List Nat
  fail : List Bool
  mem : Nat → Store
  kpgdir : Nat
  /-- Pages kept by `startothers` and the drivers. -/
  held : List Nat
  proc : Nat → Proc
  initproc : Nat
  nextpid : Int
  file : Nat → File
  pipe : Nat → Pipe
  hist : List Slip

abbrev KM := M Kernel

/-- The next value of an `int`. -/
def incr (n : Int) : Int := (n + 1 + 0x80000000) % 0x100000000 - 0x80000000

/-! ## `kalloc.c` -/

/-- A page in front of the free list `l`: junk, with the address of the next page in its first word. -/
def freed (l : List Nat) : Store :=
  put32 (fill 1) 0 ((l.map (· * PGSIZE + KERNBASE)).headD 0)

/-- Fill the page with ones, link it and put it at the front of the list. -/
def kfree (L : Layout) (f : Nat) : KM Unit :=
  if f * PGSIZE + KERNBASE < L.kend ∨ PHYSTOP ≤ f * PGSIZE then throw "kfree"
  else modify fun s =>
    { s with mem := Function.update s.mem f (freed s.freelist), freelist := f :: s.freelist }

/-- The page at the front of the free list. -/
def kalloc : KM (Option Nat) := fun s =>
  match s.fail, s.freelist with
  | true :: fs, _ => .ok (none, { s with fail := fs })
  | fs, [] => .ok (none, { s with fail := fs.tail })
  | fs, f :: fl => .ok (some f, { s with fail := fs.tail, freelist := fl })

/-! ## Access to pages -/

def setPage (f : Nat) (m : Store) : KM Unit :=
  modify fun s => { s with mem := Function.update s.mem f m }

/-- Entry `i` of the directory or table in page `f`. -/
def load (f i : Nat) : KM Nat := return get32 ((← get).mem f) (4 * i)

def store (f i w : Nat) : KM Unit := do setPage f (put32 ((← get).mem f) (4 * i) w)

/-- `memmove` of `bs` to byte `o` of page `f`. -/
def setBytes (f o : Nat) (bs : List UInt8) : KM Unit := do
  setPage f (Bytes.copy ((← get).mem f) o (fun i => bs.getD i 0) 0 bs.length)

def note (e : Slip) : KM Unit := modify fun s => { s with hist := e :: s.hist }

/-! ## Looking up directories -/

/-- Entry `i` of the directory or page table in page `d`. -/
def ent (m : Nat → Store) (d i : Nat) : Nat := get32 (m d) (4 * i)

/-- The page-table entry of virtual page `(i, j)` in the directory `d`, if it has a page table. -/
def entry (m : Nat → Store) (d i j : Nat) : Option Nat :=
  if present (ent m d i) then some (ent m (pteAddr (ent m d i)) j) else none

/-- The frame mapped at the user address `va`. -/
def userFrame (m : Nat → Store) (d va : Nat) : Option Nat :=
  match entry m d (pdx va) (ptx va) with
  | some w => if present w then some (pteAddr w) else none
  | none => none

/-- The byte at the user address `va`. -/
def userByte (m : Nat → Store) (d va : Nat) : Option UInt8 :=
  (userFrame m d va).map fun f => m f (va % PGSIZE)

/-! ## `vm.c` -/

/-- The page and index of the entry of `va`; `alloc` creates the page table if there is none. -/
def walkpgdir (pgdir va : Nat) (alloc : Bool) : KM (Option (Nat × Nat)) := do
  let pde ← load pgdir (pdx va)
  if present pde then
    return some (pteAddr pde, ptx va)
  else if !alloc then
    return none
  else
    match ← kalloc with
    | none => return none
    | some pgtab =>
      setPage pgtab (fill 0)
      store pgdir (pdx va) (mkPte (pgtab * PGSIZE) (PTE_W ||| PTE_U))
      return some (pgtab, ptx va)

/-- The loop of `mappages`, with `n` pages after this one until `a == last`. -/
def mapLoop (pgdir perm : Nat) : Nat → Nat → Nat → KM Bool
  | n, a, pa => do
    match ← walkpgdir pgdir a true with
    | none => return false
    | some (pgtab, i) =>
      if present (← load pgtab i) then throw "remap"
      else
        store pgtab i (mkPte pa perm)
        match n with
        | 0 => return true
        | n + 1 => mapLoop pgdir perm n ((a + PGSIZE) % UINT) ((pa + PGSIZE) % UINT)

/-- Map `size` bytes at `va` to those at `pa`; false when a page table cannot be allocated. -/
def mappages (pgdir va size pa perm : Nat) : KM Bool :=
  let a := pgrounddown va
  let last := pgrounddown ((va + size + UINT - 1) % UINT)
  mapLoop pgdir perm ((last + UINT - a) % UINT / PGSIZE) a pa

/-- A row of the table `kmap`. -/
structure Kmap where
  virt : Nat
  physStart : Nat
  physEnd : Nat
  perm : Nat

/-- The kernel's mappings, with the frame buffer filled in by `setupkvm`. -/
def kmap (L : Layout) : List Kmap :=
  [⟨KERNBASE, 0, EXTMEM, PTE_W⟩,
   ⟨KERNLINK, KERNLINK - KERNBASE, L.data - KERNBASE, 0⟩,
   ⟨L.data, L.data - KERNBASE, PHYSTOP, PTE_W⟩,
   ⟨DEVSPACE - L.vramSize, L.pvramAddr, (L.pvramAddr + L.vramSize) % UINT, PTE_W⟩,
   ⟨PCI_BAR_BASE + PCI_VP_OFFSET, PCI_BAR_BASE, 0x10000000 + PCI_BAR_BASE, PTE_W⟩,
   ⟨DEVSPACE, DEVSPACE, 0, PTE_W⟩]

/-- The loop of `deallocuvm`. Each round advances `a` by a page at least. -/
def deallocLoop (L : Layout) (pgdir oldsz : Nat) : Nat → Nat → KM Unit
  | 0, _ => return
  | fuel + 1, a => do
    if a < oldsz then
      match ← walkpgdir pgdir a false with
      | none => deallocLoop L pgdir oldsz fuel ((pgaddr (pdx a + 1) 0 + UINT - PGSIZE + PGSIZE) % UINT)
      | some (pgtab, i) =>
        let pte ← load pgtab i
        if present pte then
          if pteAddr pte = 0 then throw "kfree"
          kfree L (pteAddr pte)
          store pgtab i 0
        deallocLoop L pgdir oldsz fuel ((a + PGSIZE) % UINT)

/-- Free the pages between the two sizes. -/
def deallocuvm (L : Layout) (pgdir oldsz newsz : Nat) : KM Nat := do
  if oldsz ≤ newsz then return oldsz
  deallocLoop L pgdir oldsz (oldsz / PGSIZE + 1) (pgroundup newsz)
  return newsz

def freeTables (L : Layout) (pgdir : Nat) : Nat → Nat → KM Unit
  | 0, _ => return
  | n + 1, i => do
    let pde ← load pgdir i
    if present pde then kfree L (pteAddr pde)
    freeTables L pgdir n (i + 1)

/-- Free the user pages, the page tables and the directory. -/
def freevm (L : Layout) : Option Nat → KM Unit
  | none => throw "freevm: no pgdir"
  | some pgdir => do
    let _ ← deallocuvm L pgdir KERNBASE 0
    freeTables L pgdir NPDENTRIES 0
    kfree L pgdir

/-- The loop of `setupkvm` over the rows of `kmap`. -/
def mapKernel (L : Layout) (pgdir : Nat) : List Kmap → KM (Option Nat)
  | [] => return some pgdir
  | k :: ks => do
    if ← mappages pgdir k.virt ((k.physEnd + UINT - k.physStart) % UINT) k.physStart k.perm then
      mapKernel L pgdir ks
    else
      freevm L (some pgdir)
      return none

/-- A directory with the kernel's mappings. -/
def setupkvm (L : Layout) : KM (Option Nat) := do
  match ← kalloc with
  | none => return none
  | some pgdir =>
    setPage pgdir (fill 0)
    if DEVSPACE < PHYSTOP + KERNBASE then throw "PHYSTOP too high"
    mapKernel L pgdir (kmap L)

/-- Map the first page, with the initial code in it. -/
def inituvm (pgdir : Nat) (init : List UInt8) : KM Unit := do
  if PGSIZE ≤ init.length then throw "inituvm: more than a page"
  match ← kalloc with
  | none => throw "trap"
  | some mem =>
    setPage mem (fill 0)
    -- the result of `mappages` is not tested
    if !(← mappages pgdir 0 PGSIZE (mem * PGSIZE) (PTE_W ||| PTE_U)) then note (.leak mem)
    setBytes mem 0 init

/-- The loop of `allocuvm`, at the address that comes next. -/
def allocLoop (L : Layout) (pgdir oldsz newsz : Nat) : Nat → Nat → KM Nat
  | 0, _ => return newsz
  | n + 1, a => do
    match ← kalloc with
    | none =>
      let _ ← deallocuvm L pgdir newsz oldsz
      return 0
    | some mem =>
      setPage mem (fill 0)
      if ← mappages pgdir a PGSIZE (mem * PGSIZE) (PTE_W ||| PTE_U) then
        allocLoop L pgdir oldsz newsz n (a + PGSIZE)
      else
        let _ ← deallocuvm L pgdir newsz oldsz
        kfree L mem
        return 0

/-- Allocate page tables and pages to grow from `oldsz` to `newsz`; 0 on error. -/
def allocuvm (L : Layout) (pgdir oldsz newsz : Nat) : KM Nat :=
  if KERNBASE ≤ newsz then return 0
  else if newsz < oldsz then return oldsz
  else allocLoop L pgdir oldsz newsz ((newsz - pgroundup oldsz + PGSIZE - 1) / PGSIZE)
    (pgroundup oldsz)

/-- Clear `PTE_U` on a page. -/
def clearpteu (pgdir uva : Nat) : KM Unit := do
  match ← walkpgdir pgdir uva false with
  | none => throw "clearpteu"
  | some (pgtab, i) => store pgtab i (clearU (← load pgtab i))

/-- The loop of `copyuvm` over the pages of the parent. -/
def copyLoop (L : Layout) (d pgdir : Nat) : Nat → Nat → KM (Option Nat)
  | 0, _ => return some d
  | n + 1, i => do
    match ← walkpgdir pgdir i false with
    | none => throw "copyuvm: pte should exist"
    | some (pgtab, j) =>
      let pte ← load pgtab j
      if !present pte then throw "copyuvm: page not present"
      match ← kalloc with
      | none =>
        freevm L (some d)
        return none
      | some mem =>
        setPage mem ((← get).mem (pteAddr pte))
        if ← mappages d i PGSIZE (mem * PGSIZE) (pteFlags pte) then
          copyLoop L d pgdir n (i + PGSIZE)
        else
          -- `goto bad` frees the new directory, but nothing refers to `mem` any more
          note (.leak mem)
          freevm L (some d)
          return none

/-- A copy of the page table `pgdir` for a child. -/
def copyuvm (L : Layout) (pgdir sz : Nat) : KM (Option Nat) := do
  match ← setupkvm L with
  | none => return none
  | some d => copyLoop L d pgdir ((sz + PGSIZE - 1) / PGSIZE) 0

/-- The frame that the processor finds for `va` with the page table `cur` loaded. -/
def translate (cur va : Nat) (ok : Nat → Bool) : KM Nat := do
  let pde ← load cur (pdx va)
  if !(present pde && ok pde) then throw "trap"
  let pte ← load (pteAddr pde) (ptx va)
  if !(present pte && ok pte) then throw "trap"
  return pteAddr pte

/-- The frame that a store of the kernel to `P2V(f * PGSIZE)` changes, with `cur` loaded. Below
`PHYSTOP` that is the kernel's linear map, where only its text is read-only. -/
def kernelFrame (L : Layout) (cur f : Nat) : KM Nat :=
  if PHYSTOP ≤ f * PGSIZE then translate cur ((f * PGSIZE + KERNBASE) % UINT) writable
  else if EXTMEM ≤ f * PGSIZE ∧ f * PGSIZE < L.data - KERNBASE then throw "trap"
  else return f

/-- The frame behind the user address `uva` of `pgdir`, for user pages only. The result of
`walkpgdir` is not tested: for a null pointer, `*pte` is the word at virtual address 0 of the page
table `cur` that is loaded. -/
def uva2ka (L : Layout) (cur pgdir uva : Nat) : KM (Option Nat) := do
  match ← walkpgdir pgdir uva false with
  | some (pgtab, i) =>
    let pte ← load pgtab i
    return if present pte && user pte then some (pteAddr pte) else none
  | none =>
    note .nullPte
    let pte ← load (← translate cur 0 fun _ => true) 0
    if present pte && user pte then return some (← kernelFrame L cur (pteAddr pte)) else return none

/-- Copy bytes to user address `va` of `pgdir`. -/
def copyout (L : Layout) (cur pgdir : Nat) : Nat → List UInt8 → KM Bool
  | _, [] => return true
  | va, b :: bs => do
    let va0 := pgrounddown va
    match ← uva2ka L cur pgdir va0 with
    | none => return false
    | some pa0 =>
      let n := min (PGSIZE - (va - va0)) (b :: bs).length
      setBytes pa0 (va - va0) ((b :: bs).take n)
      copyout L cur pgdir ((va0 + PGSIZE) % UINT) ((b :: bs).drop n)
termination_by _ bs => bs.length
decreasing_by
  have hv : va - va / PGSIZE * PGSIZE < PGSIZE := by unfold PGSIZE; omega
  simp only [List.length_drop, List.length_cons, pgrounddown]
  omega

end Vm
