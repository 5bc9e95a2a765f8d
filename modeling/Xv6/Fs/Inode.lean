import Xv6.Base.Panic
import Xv6.Fs.Format

/-!
# Inodes

The model of `fs.c` for one process. `disk` is what `bread` returns, the log included; `log_write`
changes it, and puts the block into the header of the log. A block behind the end of the disk makes the
driver panic.

An inode in memory is found by its number, and `ref`, `valid` and `locked` are the fields of its place
in the cache; `iget` panics when `NINODE` others are referenced. A process that acquires an inode lock
that it holds never returns: `deadlock` stands for the text of a panic. The functions of a device are
a parameter.

`released` is a history variable: the inode and its copy in memory at each release of its lock while
the copy is valid, with the disk.
-/

namespace Fs

open Bytes
open Log (Block Disk)
open Panic
open Param

/-! ## State -/

/-- `struct inode`, without its number. -/
structure Inode where
  ref : Nat
  valid : Bool
  locked : Bool
  d : Dinode

/-- `devsw`: what reading `n` bytes returns, and what writing some bytes returns; `none` is -1. -/
structure Devsw where
  read : Nat → Option (Nat → Option (List UInt8))
  write : Nat → Option (List UInt8 → Option Nat)

/-- What a release of an inode lock leaves. -/
structure Release where
  inum : Nat
  d : Dinode
  disk : Disk

/-- The fields of `struct log` that `log_write` reads; `lh` is the list of the blocks of its header. -/
structure LogState where
  size : Nat
  outstanding : Nat
  lh : List Nat

/-- The header after `log_write` of block `b`, which absorbs a second write of a block. -/
def LogState.add (l : LogState) (b : Nat) : LogState :=
  { l with lh := if b ∈ l.lh then l.lh else l.lh ++ [b] }

/-- The disk, the inodes in memory and the log. -/
structure State where
  disk : Disk
  sb : Super
  ino : Nat → Inode
  devsw : Devsw
  released : List Release
  /-- The log, or none inside a transaction that it has room for. -/
  log : Option LogState

/-- Functions of the file system, which may panic. -/
abbrev FsM := M State

namespace State

/-- The copy of the inode in memory. -/
def node (s : State) (i : Nat) : Dinode := (s.ino i).d

/-- Replace an inode in memory. -/
def setInode (s : State) (i : Nat) (v : Inode) : State :=
  { s with ino := Function.update s.ino i v }

/-- Replace the copy in memory of an inode. -/
def setNode (s : State) (i : Nat) (d : Dinode) : State :=
  s.setInode i { s.ino i with d := d }

/-- Replace a block of the disk. -/
def setBlock (s : State) (b : Nat) (v : Block) : State :=
  { s with disk := Function.update s.disk b v }

end State

/-! ## Blocks -/

/-- The contents of block `b`. -/
def bread (b : Nat) : FsM Block := do
  if FSSIZE ≤ b then throw "incorrect blockno"
  return (← get).disk b

/-- `log_write` of block `b`, whose contents become `v`. -/
def logWrite (b : Nat) (v : Block) : FsM Unit := do
  match (← get).log with
  | none => modify fun s => s.setBlock b v
  | some l =>
    if LOGSIZE ≤ l.lh.length ∨ l.size ≤ l.lh.length + 1 then throw "too big a transaction"
    else if l.outstanding < 1 then throw "log_write outside of trans"
    else modify fun s => { s.setBlock b v with log := some (l.add b) }

/-- Read the super block. -/
def readsb : FsM Unit := do
  let bp ← bread 1
  modify fun s => { s with sb := getSuper bp }

/-- Zero a block. -/
def bzero (b : Nat) : FsM Unit := do
  let _ ← bread b
  logWrite b (fill 0)

/-- The first free block that a block of the bit map has, from `b` on. -/
def firstFree (bp : Block) (b size : Nat) : Option Nat :=
  (List.range (min BPB (size - b))).find? fun bi => !getBit bp bi

/-- The loop of `balloc`, over the blocks of the bit map. -/
def ballocFrom : Nat → Nat → FsM Nat
  | 0, _ => throw "balloc: out of blocks"
  | n + 1, b => do
    let sb := (← get).sb
    if b < sb.size then
      let bp ← bread (sb.bblock b)
      match firstFree bp b sb.size with
      | some bi =>
        logWrite (sb.bblock b) (setBit bp bi)
        bzero (b + bi)
        return b + bi
      | none => ballocFrom n (b + BPB)
    else throw "balloc: out of blocks"

/-- Allocate a zeroed block. -/
def balloc : FsM Nat := do ballocFrom ((← get).sb.size / BPB + 1) 0

/-- Free a block. -/
def bfree (b : Nat) : FsM Unit := do
  readsb
  let sb := (← get).sb
  let bp ← bread (sb.bblock b)
  if getBit bp (b % BPB) = false then throw "freeing free block"
  logWrite (sb.bblock b) (clearBit bp (b % BPB))

/-! ## The inode cache -/

/-- The inodes that have a reference. -/
def State.cached (s : State) : List Nat := (List.range 65536).filter fun i => (s.ino i).ref > 0

/-- Take a reference; the copy of a new one is not valid. -/
def iget (i : Nat) : FsM Unit := do
  let s ← get
  if (s.ino i).ref > 0 then
    set (s.setInode i { s.ino i with ref := (s.ino i).ref + 1 })
  else if NINODE ≤ s.cached.length then throw "iget: no inodes"
  else set (s.setInode i { s.ino i with ref := 1, valid := false })

/-- Take one more reference. -/
def idup (i : Nat) : FsM Unit :=
  modify fun s => s.setInode i { s.ino i with ref := (s.ino i).ref + 1 }

/-- Copy the inode in memory to the disk. -/
def iupdate (i : Nat) : FsM Unit := do
  let sb := (← get).sb
  let bp ← bread (sb.iblock i)
  logWrite (sb.iblock i) (putDinode bp (i % IPB) ((← get).node i))

/-- The loop of `ialloc` from inode `i` on. -/
def iallocFrom (type : Nat) : Nat → Nat → FsM Nat
  | 0, _ => throw "ialloc: no inodes"
  | n + 1, i => do
    let sb := (← get).sb
    if i < sb.ninodes then
      let bp ← bread (sb.iblock i)
      if (getDinode bp (i % IPB)).type = 0 then
        logWrite (sb.iblock i) (putDinode bp (i % IPB) { Dinode.zero with type := type })
        iget i
        return i
      else iallocFrom type n (i + 1)
    else throw "ialloc: no inodes"

/-- Allocate an inode of the type. -/
def ialloc (type : Nat) : FsM Nat := do iallocFrom type (← get).sb.ninodes 1

/-- A process that waits for a lock that it holds. -/
def deadlock : String := "deadlock"

/-- Lock an inode. -/
def acquiresleep (i : Nat) : FsM Unit := do
  let s ← get
  if (s.ino i).locked then throw deadlock
  set (s.setInode i { s.ino i with locked := true })

/-- Unlock an inode. -/
def releasesleep (i : Nat) : FsM Unit := modify fun s =>
  let s' := s.setInode i { s.ino i with locked := false }
  if (s.ino i).valid then { s' with released := ⟨i, s.node i, s.disk⟩ :: s.released } else s'

/-- Lock an inode, and read it from the disk if it was not. -/
def ilock (i : Nat) : FsM Unit := do
  if ((← get).ino i).ref < 1 then throw "ilock"
  acquiresleep i
  if ((← get).ino i).valid = false then
    let bp ← bread ((← get).sb.iblock i)
    modify fun s => s.setInode i { s.ino i with d := getDinode bp (i % IPB), valid := true }
    if ((← get).node i).type = 0 then throw "ilock: no type"

/-- Unlock an inode that is locked. -/
def iunlock (i : Nat) : FsM Unit := do
  let v := (← get).ino i
  if v.locked = false ∨ v.ref < 1 then throw "iunlock"
  releasesleep i

/-! ## The contents of an inode -/

/-- Set `addrs[k]`. -/
def Dinode.setAddr (d : Dinode) (k addr : Nat) : Dinode :=
  { d with addrs := Function.update d.addrs k addr }

/-- Set `addrs[k]` of the inode `i`. -/
def setAddr (i k addr : Nat) : FsM Unit := modify fun s =>
  s.setNode i ((s.node i).setAddr k addr)

/-- `addrs[k]`, which is allocated if it is not there. -/
def bmapAddr (i k : Nat) : FsM Nat := do
  let addr := ((← get).node i).addrs k
  if addr = 0 then
    let addr ← balloc
    setAddr i k addr
    return addr
  else return addr

/-- The block `bn` of the file, which is allocated if it is not there. -/
def bmap (i bn : Nat) : FsM Nat := do
  if bn < NDIRECT then bmapAddr i bn
  else if bn - NDIRECT < NINDIRECT then
    let ind ← bmapAddr i NDIRECT
    let bp ← bread ind
    let addr := get32 bp (4 * (bn - NDIRECT))
    if addr = 0 then
      let addr ← balloc
      logWrite ind (put32 bp (4 * (bn - NDIRECT)) addr)
      return addr
    else return addr
  else throw "bmap: out of range"

/-- Free the first `n` direct blocks. -/
def freeDirect (i : Nat) : Nat → FsM Unit
  | 0 => return
  | n + 1 => do
    freeDirect i n
    let addr := ((← get).node i).addrs n
    if addr ≠ 0 then
      bfree addr
      setAddr i n 0

/-- Free the first `n` blocks that an indirect block points to. -/
def freeIndirect (bp : Block) : Nat → FsM Unit
  | 0 => return
  | n + 1 => do
    freeIndirect bp n
    if get32 bp (4 * n) ≠ 0 then bfree (get32 bp (4 * n))

/-- Free the blocks of the file. -/
def itrunc (i : Nat) : FsM Unit := do
  freeDirect i NDIRECT
  let ind := ((← get).node i).addrs NDIRECT
  if ind ≠ 0 then
    let bp ← bread ind
    freeIndirect bp NINDIRECT
    bfree ind
    setAddr i NDIRECT 0
  modify fun s => s.setNode i { s.node i with size := 0 }
  iupdate i

/-- Drop a reference; the last one to an inode without links frees it. -/
def iput (i : Nat) : FsM Unit := do
  acquiresleep i
  let v := (← get).ino i
  if v.valid ∧ v.d.nlink = 0 ∧ v.ref = 1 then
    itrunc i
    modify fun s => s.setNode i { s.node i with type := 0 }
    iupdate i
    modify fun s => s.setInode i { s.ino i with valid := false }
  releasesleep i
  modify fun s => s.setInode i { s.ino i with ref := (s.ino i).ref - 1 }

/-- Unlock, then drop the reference. -/
def iunlockput (i : Nat) : FsM Unit := do
  iunlock i
  iput i

/-- The loop of `readi`: `n` bytes from `off` on are left. -/
def readLoop (i : Nat) : (fuel off n : Nat) → FsM (List UInt8)
  | 0, _, _ => return []
  | fuel + 1, off, n =>
    if n = 0 then return []
    else do
      let b ← bmap i (off / BSIZE)
      let bp ← bread b
      let m := min n (BSIZE - off % BSIZE)
      let rest ← readLoop i fuel (off + m) (n - m)
      return (List.range m).map (fun k => bp (off % BSIZE + k)) ++ rest

/-- The bytes that `readi` stores at `dst`, which it returns the number of; `none` is -1. -/
def readi (i off n : Nat) : FsM (Option (List UInt8)) := do
  let s ← get
  let d := s.node i
  if d.type = T_DEV then
    match s.devsw.read d.major with
    | some f => return if d.major < NDEV then f n else none
    | none => return none
  else if d.size < off ∨ (off + n) % 2 ^ 32 < off then return none
  else return some (← readLoop i n off (min n (d.size - off)))

/-- The loop of `writei`: `data` is left. -/
def writeLoop (i : Nat) : (fuel off : Nat) → List UInt8 → FsM Unit
  | 0, _, _ => return
  | fuel + 1, off, data =>
    if data = [] then return
    else do
      let b ← bmap i (off / BSIZE)
      let bp ← bread b
      let m := min data.length (BSIZE - off % BSIZE)
      logWrite b (copy bp (off % BSIZE) (fun k => data.getD k 0) 0 m)
      writeLoop i fuel (off + m) (data.drop m)

/-- What `writei` of `data` returns; `none` is -1. -/
def writei (i off : Nat) (data : List UInt8) : FsM (Option Nat) := do
  let s ← get
  let d := s.node i
  let n := data.length
  if d.type = T_DEV then
    match s.devsw.write d.major with
    | some f => return if d.major < NDEV then f data else none
    | none => return none
  else if d.size < off ∨ (off + n) % 2 ^ 32 < off then return none
  else if MAXFILE * BSIZE < (off + n) % 2 ^ 32 then return none
  else
    writeLoop i n off data
    if 0 < n ∧ ((← get).node i).size < off + n then
      modify fun s => s.setNode i { s.node i with size := off + n }
      iupdate i
    return some n

end Fs
