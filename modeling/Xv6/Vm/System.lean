import Xv6.Vm.Kernel

/-!
# System calls that move pages

The model of `exec.c`, and of the parts of `proc.c`, `file.c`, `pipe.c`, `sysfile.c` and `main.c`
that allocate, map or free pages. A system call is one program; `Reach` collects the states between
system calls, from the state that `main` leaves on.

The file system appears through its results only: `exec` gets the image that `namei` found, or
none, and reads it through `Image.read`.
-/

namespace Vm

open Bytes Panic Param Function

/-! ## Files and pipes -/

def setFile (f : Nat) (v : File) : KM Unit :=
  modify fun s => { s with file := update s.file f v }

def setProc (p : Nat) (v : Proc) : KM Unit :=
  modify fun s => { s with proc := update s.proc p v }

def setPipe (p : Nat) (v : Pipe) : KM Unit :=
  modify fun s => { s with pipe := update s.pipe p v }

/-- A free place of the file table, with one reference. -/
def filealloc : KM (Option Nat) := do
  let s ← get
  match (List.range NFILE).find? fun f => (s.file f).ref = 0 with
  | none => return none
  | some f =>
    setFile f { s.file f with ref := 1 }
    return some f

/-- One reference more. -/
def filedup (f : Nat) : KM Unit := do
  let v := (← get).file f
  if v.ref < 1 then throw "filedup"
  setFile f { v with ref := v.ref + 1 }

/-- Close one end; the page goes back with the second. -/
def pipeclose (L : Layout) (p : Nat) (writable : Bool) : KM Unit := do
  let v := (← get).pipe p
  let v' : Pipe := if writable then { v with writeopen := false } else { v with readopen := false }
  setPipe p v'
  if v'.readopen = false ∧ v'.writeopen = false then kfree L p

/-- Decrement the reference count of `f`, and close it when that reaches 0. -/
def fileclose (L : Layout) (f : Nat) : KM Unit := do
  let ff := (← get).file f
  if ff.ref < 1 then throw "fileclose"
  if 0 < ff.ref - 1 then setFile f { ff with ref := ff.ref - 1 }
  else
    setFile f { ff with ref := 0, type := .none }
    match ff.type with
    | .pipe => pipeclose L ff.pipe ff.writable
    | .inode => return
    | .none => return

/-- The two files of a new pipe. -/
def pipealloc (L : Layout) : KM (Option (Nat × Nat)) := do
  match ← filealloc with
  | none => return none
  | some f0 =>
    match ← filealloc with
    | none =>
      fileclose L f0
      return none
    | some f1 =>
      match ← kalloc with
      | none =>
        fileclose L f0
        fileclose L f1
        return none
      | some p =>
        setPipe p ⟨true, true⟩
        setFile f0 { (← get).file f0 with type := .pipe, readable := true, writable := false, pipe := p }
        setFile f1 { (← get).file f1 with type := .pipe, readable := false, writable := true, pipe := p }
        return some (f0, f1)

/-- Allocate a file descriptor of process `p` for the file `f`. -/
def fdalloc (p f : Nat) : KM (Option Nat) := do
  let v := (← get).proc p
  match (List.range NOFILE).find? fun fd => (v.ofile fd).isNone with
  | none => return none
  | some fd =>
    setProc p { v with ofile := update v.ofile fd (some f) }
    return some fd

/-- The directory of the caller. -/
def curdir (p : Nat) : KM Nat := do
  match ((← get).proc p).pgdir with
  | none => throw "trap"
  | some d => return d

/-- Store bytes at the virtual address `va`, through entries that pass `ok`. -/
def poke (cur : Nat) (ok : Nat → Bool) : Nat → List UInt8 → KM Unit
  | _, [] => return
  | va, b :: bs => do
    let f ← translate cur va ok
    setBytes f (va % PGSIZE) [b]
    poke cur ok ((va + 1) % UINT) bs

def word (w : Nat) : List UInt8 :=
  [UInt8.ofNat w, UInt8.ofNat (w / 2 ^ 8), UInt8.ofNat (w / 2 ^ 16), UInt8.ofNat (w / 2 ^ 24)]

/-- `sys_pipe`, with the user address of the two descriptors. -/
def sysPipe (L : Layout) (p fd : Nat) : KM Int := do
  if ((← get).proc p).sz ≤ fd ∨ ((← get).proc p).sz < fd + 8 then return -1
  match ← pipealloc L with
  | none => return -1
  | some (rf, wf) =>
    match ← fdalloc p rf with
    | none =>
      fileclose L rf
      fileclose L wf
      return -1
    | some fd0 =>
      match ← fdalloc p wf with
      | none =>
        let v := (← get).proc p
        setProc p { v with ofile := update v.ofile fd0 none }
        fileclose L rf
        fileclose L wf
        return -1
      | some fd1 =>
        poke (← curdir p) writable fd (word fd0 ++ word fd1)
        return 0

def sysClose (L : Layout) (p fd : Nat) : KM Int := do
  let v := (← get).proc p
  match if fd < NOFILE then v.ofile fd else none with
  | none => return -1
  | some f =>
    setProc p { v with ofile := update v.ofile fd none }
    fileclose L f
    return 0

def sysDup (p fd : Nat) : KM Int := do
  let v := (← get).proc p
  match if fd < NOFILE then v.ofile fd else none with
  | none => return -1
  | some f =>
    match ← fdalloc p f with
    | none => return -1
    | some fd' =>
      filedup f
      return fd'

/-- The part of `sys_open` after the path was resolved. -/
def sysOpen (L : Layout) (p : Nat) (readable writable : Bool) : KM Int := do
  match ← filealloc with
  | none => return -1
  | some f =>
    match ← fdalloc p f with
    | none =>
      fileclose L f
      return -1
    | some fd =>
      setFile f { (← get).file f with type := .inode, readable := readable, writable := writable }
      return fd

/-! ## `exec` -/

/-- An executable file: the bytes that `readi` delivers for an offset and a length, if any. -/
structure Image where
  read : Nat → Nat → Option (List UInt8)
  read_le : ∀ off n bs, read off n = some bs → bs.length ≤ n

def whole (n : Nat) : Option (List UInt8) → Option Store
  | none => none
  | some bs => if bs.length = n then some fun i => bs.getD i 0 else none

/-- The `n` bytes at `off`, or none when `readi` delivers fewer. -/
def Image.readAll (img : Image) (off n : Nat) : Option Store := whole n (img.read off n)

/-- A file that is read by programs over a state `σ` with the memory in it: `run` runs a function of the
memory, and `readi` reads bytes. -/
structure Reader (σ : Type) where
  run : {α : Type} → KM α → M σ α
  readi : Nat → Nat → M σ (Option (List UInt8))

abbrev Image.reader (img : Image) : Reader Kernel := ⟨fun m => m, fun off n => pure (img.read off n)⟩

def ELF_MAGIC : Nat := 0x464C457F
def ELF_PROG_LOAD : Nat := 1
def ELFHDR : Nat := 52
def PROGHDR : Nat := 32

section
variable {σ : Type}

def Reader.readAll (F : Reader σ) (off n : Nat) : M σ (Option Store) := return whole n (← F.readi off n)

/-- The loop of `loaduvm`, for the `n` pages from offset `i` on. -/
def loadLoop (pgdir addr : Nat) (F : Reader σ) (offset sz : Nat) : Nat → Nat → M σ Bool
  | 0, _ => return true
  | n + 1, i => do
    match ← F.run (walkpgdir pgdir ((addr + i) % UINT) false) with
    | none => throw "loaduvm: address should exist"
    | some (pgtab, j) =>
      let pa := pteAddr (← F.run (load pgtab j))
      let m := if sz - i < PGSIZE then sz - i else PGSIZE
      match ← F.readi ((offset + i) % UINT) m with
      | none => return false
      | some bs =>
        F.run (setBytes pa 0 bs)
        if bs.length ≠ m then return false
        loadLoop pgdir addr F offset sz n (i + PGSIZE)

/-- Load a program segment into `pgdir`. -/
def loaduvm (pgdir addr : Nat) (F : Reader σ) (offset sz : Nat) : M σ Bool := do
  if addr % PGSIZE ≠ 0 then throw "loaduvm: addr must be page aligned"
  loadLoop pgdir addr F offset sz ((sz + PGSIZE - 1) / PGSIZE) 0

/-- The loop of `exec` over the `n` program headers from `off` on; none is `goto bad`. -/
def loadSegs (L : Layout) (pgdir : Nat) (F : Reader σ) : Nat → Nat → Nat → M σ (Option Nat)
  | 0, _, sz => return some sz
  | n + 1, off, sz => do
    match ← F.readAll off PROGHDR with
    | none => return none
    | some ph =>
      let (vaddr, filesz, memsz) := (get32 ph 8, get32 ph 16, get32 ph 20)
      if get32 ph 0 ≠ ELF_PROG_LOAD then loadSegs L pgdir F n ((off + PROGHDR) % UINT) sz
      else if memsz < filesz then return none
      else if (vaddr + memsz) % UINT < vaddr then return none
      else
        let sz' ← F.run (allocuvm L pgdir sz ((vaddr + memsz) % UINT))
        if sz' = 0 then return none
        else if vaddr % PGSIZE ≠ 0 then return none
        else if ← loaduvm pgdir vaddr F (get32 ph 4) filesz then
          loadSegs L pgdir F n ((off + PROGHDR) % UINT) sz'
        else return none

end

/-- Push the argument strings; the result is the stack pointer and the argument pointers. -/
def pushArgs (L : Layout) (cur pgdir : Nat) :
    List (List UInt8) → Nat → Nat → List Nat → KM (Option (Nat × List Nat))
  | [], _, sp, ustack => return some (sp, ustack)
  | a :: argv, argc, sp, ustack => do
    if MAXARG ≤ argc then return none
    else
      let sp := (sp + UINT - (a.length + 1) % UINT) % UINT / 4 * 4
      if ← copyout L cur pgdir sp (a ++ [0]) then
        pushArgs L cur pgdir argv (argc + 1) sp (ustack ++ [sp])
      else return none

/-- Push the argument strings and the frame of `main`; the result is the stack pointer. -/
def pushFrame (L : Layout) (cur pgdir sz : Nat) (argv : List (List UInt8)) : KM (Option Nat) := do
  match ← pushArgs L cur pgdir argv 0 sz [] with
  | none => return none
  | some (sp, args) =>
    let argc := args.length
    let ustack := [0xffffffff, argc, (sp + UINT - (argc + 1) * 4) % UINT] ++ args ++ [0]
    let sp := (sp + UINT - (3 + argc + 1) * 4) % UINT
    if ← copyout L cur pgdir sp (ustack.flatMap word) then return some sp
    else return none

/-- Allocate two pages behind `sz`, make the first inaccessible and use the second as the stack;
the result is the new size and the stack pointer. -/
def userStack (L : Layout) (cur pgdir sz : Nat) (argv : List (List UInt8)) :
    KM (Option (Nat × Nat)) := do
  let sz ← allocuvm L pgdir (pgroundup sz) ((pgroundup sz + 2 * PGSIZE) % UINT)
  if sz = 0 then return none
  clearpteu pgdir (sz - 2 * PGSIZE)
  match ← pushFrame L cur pgdir sz argv with
  | none => return none
  | some sp => return some (sz, sp)

/-- `exec` from the program headers to the user stack; none is `goto bad`. -/
def execImage (L : Layout) (cur pgdir : Nat) (img : Image) (elf : Store)
    (argv : List (List UInt8)) : KM (Option (Nat × Nat)) := do
  match ← loadSegs L pgdir img.reader (get16 elf 44) (get32 elf 28) 0 with
  | none => return none
  | some sz => userStack L cur pgdir sz argv

/-- `exec` in process `p`, with the image that `namei` found. -/
def exec (L : Layout) (p : Nat) (ip : Option Image) (argv : List (List UInt8)) : KM Int := do
  match ip with
  | none => return -1
  | some img =>
    match img.readAll 0 ELFHDR with
    | none => return -1
    | some elf =>
      if get32 elf 0 ≠ ELF_MAGIC then return -1
      match ← setupkvm L with
      | none => return -1
      | some pgdir =>
        match ← execImage L (← curdir p) pgdir img elf argv with
        | none =>
          freevm L (some pgdir)
          return -1
        | some (sz, _) =>
          let v := (← get).proc p
          setProc p { v with pgdir := some pgdir, sz := sz }
          freevm L v.pgdir
          return 0

/-! ## `proc.c` -/

/-- Look for an unused process, and give it a kernel stack. -/
def allocproc : KM (Option Nat) := do
  let s ← get
  match (List.range NPROC).find? fun p => (s.proc p).state = .unused with
  | none => return none
  | some p =>
    setProc p { s.proc p with state := .embryo, pid := s.nextpid }
    modify fun s => { s with nextpid := incr s.nextpid }
    match ← kalloc with
    | none =>
      setProc p { (← get).proc p with kstack := none, state := .unused }
      return none
    | some k =>
      setProc p { (← get).proc p with kstack := some k }
      return some p

def freeStack (L : Layout) : Option Nat → KM Unit
  | none => throw "kfree"
  | some k => kfree L k

/-- Set up the first process. -/
def userinit (L : Layout) (init : List UInt8) : KM Unit := do
  match ← allocproc with
  | none => throw "trap"
  | some p =>
    modify fun s => { s with initproc := p }
    match ← setupkvm L with
    | none => throw "userinit: out of memory?"
    | some d =>
      setProc p { (← get).proc p with pgdir := some d }
      inituvm d init
      setProc p { (← get).proc p with sz := PGSIZE, state := .runnable }

/-- The change of memory that `growproc` makes; the result is the new size. -/
def resize (L : Layout) (d sz : Nat) (n : Int) : KM Nat :=
  let newsz := ((sz + n) % UINT).toNat
  if 0 < n then allocuvm L d sz newsz
  else if n < 0 then deallocuvm L d sz newsz
  else return sz

/-- Grow or shrink the memory of the caller by `n` bytes. -/
def growproc (L : Layout) (p : Nat) (n : Int) : KM Int := do
  let sz ← resize L (← curdir p) ((← get).proc p).sz n
  if n ≠ 0 ∧ sz = 0 then return -1
  setProc p { (← get).proc p with sz := sz }
  return 0

/-- It returns the old size, or -1. -/
def sysSbrk (L : Layout) (p : Nat) (n : Int) : KM Int := do
  let addr := ((← get).proc p).sz
  if (← growproc L p n) < 0 then return -1
  return addr

/-- The loop of `fork` over the descriptors of the parent. -/
def forkFiles (p np : Nat) : Nat → Nat → KM Unit
  | 0, _ => return
  | n + 1, fd => do
    match ((← get).proc p).ofile fd with
    | none => forkFiles p np n (fd + 1)
    | some f =>
      filedup f
      let v := (← get).proc np
      setProc np { v with ofile := update v.ofile fd (some f) }
      forkFiles p np n (fd + 1)

/-- The pid of the child, or -1. -/
def fork (L : Layout) (p : Nat) : KM Int := do
  match ← allocproc with
  | none => return -1
  | some np =>
    match ← copyuvm L (← curdir p) ((← get).proc p).sz with
    | none =>
      freeStack L ((← get).proc np).kstack
      setProc np { (← get).proc np with pgdir := none, kstack := none, state := .unused }
      return -1
    | some d =>
      setProc np { (← get).proc np with pgdir := some d, sz := ((← get).proc p).sz, parent := some p }
      forkFiles p np NOFILE 0
      setProc np { (← get).proc np with state := .runnable }
      return ((← get).proc np).pid

/-- The loop of `exit` over the open files. -/
def closeFiles (L : Layout) (p : Nat) : Nat → Nat → KM Unit
  | 0, _ => return
  | n + 1, fd => do
    match ((← get).proc p).ofile fd with
    | none => closeFiles L p n (fd + 1)
    | some f =>
      fileclose L f
      let v := (← get).proc p
      setProc p { v with ofile := update v.ofile fd none }
      closeFiles L p n (fd + 1)

/-- The caller becomes a zombie; its children go to `init`. -/
def exit (L : Layout) (p : Nat) : KM Unit := do
  if p = (← get).initproc then throw "init exiting"
  closeFiles L p NOFILE 0
  -- pass abandoned children to init
  modify fun s => { s with proc := fun q =>
    if (s.proc q).parent = some p then { s.proc q with parent := some s.initproc } else s.proc q }
  setProc p { (← get).proc p with state := .zombie }

/-- One scan of `wait`; none when the caller goes to sleep. -/
def wait (L : Layout) (p : Nat) : KM (Option Int) := do
  let s ← get
  match (List.range NPROC).find? fun q =>
      (s.proc q).parent = some p ∧ (s.proc q).state = .zombie with
  | some q =>
    freeStack L (s.proc q).kstack
    setProc q { (← get).proc q with kstack := none }
    freevm L (s.proc q).pgdir
    setProc q { (← get).proc q with
      pid := 0, parent := none, killed := false, state := .unused }
    return some (s.proc q).pid
  | none =>
    if ((List.range NPROC).all fun q => (s.proc q).parent ≠ some p) ∨ (s.proc p).killed then
      return some (-1)
    else return none

/-- Mark the first process with that pid. -/
def kill (pid : Int) : KM Int := do
  let s ← get
  match (List.range NPROC).find? fun q => (s.proc q).pid = pid with
  | none => return -1
  | some q =>
    setProc q { s.proc q with killed := true }
    return 0

/-! ## `main` -/

/-- `kfree` of `n` consecutive pages from `f` on. -/
def freePages (L : Layout) : Nat → Nat → KM Unit
  | 0, _ => return
  | n + 1, f => do
    kfree L f
    freePages L n (f + 1)

/-- Free the pages of the range from the first one up. -/
def freerange (L : Layout) (vstart vend : Nat) : KM Unit :=
  let p := (vstart + PGSIZE - 1) / PGSIZE * PGSIZE
  freePages L ((vend - p) / PGSIZE) ((p - KERNBASE) / PGSIZE)

def kvmalloc (L : Layout) : KM Unit := do
  match ← setupkvm L with
  | none => throw "trap"
  | some d => modify fun s => { s with kpgdir := d }

/-- Allocate `n` pages that are never freed: stacks of the other processors, driver buffers. -/
def reserve : Nat → KM Unit
  | 0 => return
  | n + 1 => do
    match ← kalloc with
    | none => throw "trap"
    | some f =>
      modify fun s => { s with held := f :: s.held }
      reserve n

/-- `main`, for the given numbers of pages taken by `startothers` and by the drivers. -/
def main (L : Layout) (others drivers : Nat) (init : List UInt8) : KM Unit := do
  freerange L L.kend (KERNBASE + 4 * 1024 * 1024)
  kvmalloc L
  reserve others
  freerange L (KERNBASE + 4 * 1024 * 1024) (KERNBASE + PHYSTOP)
  reserve drivers
  userinit L init

def Kernel.blank (mem : Nat → Store) (fail : List Bool) : Kernel where
  freelist := []
  fail := fail
  mem := mem
  kpgdir := 0
  held := []
  proc := fun _ => ⟨.unused, 0, none, 0, none, none, fun _ => none, false⟩
  initproc := 0
  nextpid := 1
  file := fun _ => ⟨0, .none, false, false, 0⟩
  pipe := fun _ => ⟨false, false⟩
  hist := []

/-! ## Runs -/

/-- A system call with its arguments, or a store by the program. -/
inductive Call
  | fork
  | exec (ip : Option Image) (argv : List (List UInt8))
  | sbrk (n : Int)
  | exit
  | wait
  | pipe (fd : Nat)
  | close (fd : Nat)
  | dup (fd : Nat)
  | open (readable writable : Bool)
  | kill (pid : Int)
  /-- A store in user mode. -/
  | store (va : Nat) (b : UInt8)

/-- The effect of a call of process `p`; the result is none when `p` sleeps. -/
def call (L : Layout) (p : Nat) : Call → KM (Option Int)
  | .fork => some <$> fork L p
  | .exec ip argv => some <$> exec L p ip argv
  | .sbrk n => some <$> sysSbrk L p n
  | .exit => do
    exit L p
    return none
  | .wait => wait L p
  | .pipe fd => some <$> sysPipe L p fd
  | .close fd => some <$> sysClose L p fd
  | .dup fd => some <$> sysDup p fd
  | .open r w => some <$> sysOpen L p r w
  | .kill pid => some <$> kill pid
  | .store va b => do
    poke (← curdir p) (fun w => user w && writable w) va [b]
    return some 0

/-- `fetchstr` finds the string `a` in the memory of process `p`. -/
def Fetchstr (s : Kernel) (p : Nat) (a : List UInt8) : Prop :=
  ∃ d addr, (s.proc p).pgdir = some d ∧ addr + a.length < (s.proc p).sz ∧ 0 ∉ a ∧
    ∀ i ≤ a.length, userByte s.mem d (addr + i) = some ((a ++ [0]).getD i 0)

/-- What the system-call layer has checked: `sys_exec` takes fewer than `MAXARG` strings from the
memory of the process; a user-mode address is a `uint`. -/
def Call.Valid (s : Kernel) (p : Nat) : Call → Prop
  | .exec _ argv => argv.length < MAXARG ∧ ∀ a ∈ argv, Fetchstr s p a
  | .store va _ => va < UINT
  | _ => True

/-- The states after `main` and any calls. -/
inductive Reach (L : Layout) : Kernel → Prop
  | boot {mem : Nat → Store} {fail : List Bool} {others drivers : Nat} {init : List UInt8}
      {s : Kernel} (h : main L others drivers init (.blank mem fail) = .ok ((), s)) : Reach L s
  | step {s s' : Kernel} {p : Nat} {c : Call} {r : Option Int} (h : Reach L s) (hp : p < NPROC)
      (hr : (s.proc p).state = .runnable ∨ (s.proc p).state = .running) (hv : c.Valid s p)
      (hc : call L p c s = .ok (r, s')) : Reach L s'

end Vm
