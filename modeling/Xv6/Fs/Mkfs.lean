import Xv6.Fs.Dir

/-!
# `mkfs`

The program that makes the image of a file system. Its state is the file `fs.img`, of which `nsect`
blocks are written, and the numbers of the next free inode and block. A failed `assert` and a read
behind the end of the image stop it with an exit status that is not 0.

An input is a file that can be opened: its name on the command line and the bytes that the calls of
`read` return one after the other.
-/

namespace Fs.Mkfs

open Bytes
open Log (Block Disk)
open Panic
open Param

def NINODES : Nat := 200
def nbitmap : Nat := FSSIZE / (BSIZE * 8) + 1
def ninodeblocks : Nat := NINODES / IPB + 1
def nlog : Nat := LOGSIZE
/-- Number of meta blocks (boot, super, log, inodes, bit map). -/
def nmeta : Nat := 2 + nlog + ninodeblocks + nbitmap
def nblocks : Nat := FSSIZE - nmeta

def sb : Super where
  size := FSSIZE
  nblocks := nblocks
  ninodes := NINODES
  nlog := nlog
  logstart := 2
  inodestart := 2 + nlog
  bmapstart := 2 + nlog + ninodeblocks

/-- The image, its number of sectors, and the next free inode and block. -/
structure State where
  disk : Disk
  nsect : Nat
  freeinode : Nat
  freeblock : Nat

abbrev MkM := M State

/-! ## Blocks and inodes -/

/-- Write a sector of the image. -/
def wsect (sec : Nat) (buf : Block) : MkM Unit := modify fun s =>
  { s with disk := Function.update s.disk sec buf, nsect := max s.nsect (sec + 1) }

def rsect (sec : Nat) : MkM Block := do
  let s ← get
  if s.nsect ≤ sec then throw "read"
  return s.disk sec

/-- Write an inode to the image. -/
def winode (inum : Nat) (ip : Dinode) : MkM Unit := do
  let bn := sb.iblock inum
  let buf ← rsect bn
  wsect bn (putDinode buf (inum % IPB) ip)

/-- Read an inode of the image. -/
def rinode (inum : Nat) : MkM Dinode := do
  let bn := sb.iblock inum
  let buf ← rsect bn
  return getDinode buf (inum % IPB)

/-- The next inode, with one link. -/
def ialloc (type : Nat) : MkM Nat := do
  let inum := (← get).freeinode
  modify fun s => { s with freeinode := inum + 1 }
  winode inum { Dinode.zero with type := type, nlink := 1 }
  return inum

/-- The block in which the first `used` bits are set. -/
def bitmap : Nat → Block
  | 0 => fill 0
  | used + 1 => setBit (bitmap used) used

/-- Mark the first `used` blocks in the bitmap. -/
def balloc (used : Nat) : MkM Unit := do
  if ¬ used < BSIZE * 8 then throw "assert"
  wsect sb.bmapstart (bitmap used)

/-! ## Files -/

def nextBlock : MkM Nat := do
  let b := (← get).freeblock
  modify fun s => { s with freeblock := b + 1 }
  return b

/-- `din.addrs[k]`, which gets the next free block if it is zero. -/
def addrOf (din : Dinode) (k : Nat) : MkM (Dinode × Nat) := do
  if din.addrs k = 0 then
    let b ← nextBlock
    return (din.setAddr k b, b)
  else return (din, din.addrs k)

/-- The block `fbn` of a file, and its inode. -/
def blockOf (din : Dinode) (fbn : Nat) : MkM (Dinode × Nat) := do
  if fbn < NDIRECT then addrOf din fbn
  else
    let (din, ind) ← addrOf din NDIRECT
    let indirect ← rsect ind
    let x := get32 indirect (4 * (fbn - NDIRECT))
    if x = 0 then
      let b ← nextBlock
      wsect ind (put32 indirect (4 * (fbn - NDIRECT)) b)
      return (din, b)
    else return (din, x)

/-- The loop of `iappend`: what is left goes to the block at `off`. -/
def iappendLoop : (fuel : Nat) → Dinode → (off : Nat) → List UInt8 → MkM (Dinode × Nat)
  | 0, din, off, _ => return (din, off)
  | fuel + 1, din, off, p =>
    if p = [] then return (din, off)
    else do
      let fbn := off / BSIZE
      if ¬ fbn < MAXFILE then throw "assert"
      let (din, x) ← blockOf din fbn
      let n1 := min p.length ((fbn + 1) * BSIZE - off)
      let buf ← rsect x
      wsect x (copy buf (off - fbn * BSIZE) (fun k => p.getD k 0) 0 n1)
      iappendLoop fuel din (off + n1) (p.drop n1)

/-- Append bytes to a file of the image. -/
def iappend (inum : Nat) (p : List UInt8) : MkM Unit := do
  let din ← rinode inum
  let (din, off) ← iappendLoop p.length din din.size p
  winode inum { din with size := off }

/-! ## The program -/

/-- A file of the command line: its name, and what each `read` of it returns. -/
structure Input where
  /-- `argv[i]` -/
  name : List UInt8
  nul : 0 ∉ name
  /-- What the calls of `read` return. -/
  reads : List (List UInt8)

def UNDERSCORE : UInt8 := 95

def Input.file (f : Input) : List UInt8 := if f.name.headD 0 = UNDERSCORE then f.name.tail else f.name

def copyIn (inum : Nat) : List (List UInt8) → MkM Unit
  | [] => return
  | buf :: reads =>
    if buf = [] then return
    else do
      iappend inum buf
      copyIn inum reads

/-- One round of the loop over the files. -/
def addFile (rootino : Nat) (f : Input) : MkM Unit := do
  if SLASH ∈ f.name then throw "assert"
  let inum ← ialloc T_FILE
  iappend rootino (putDirent inum f.file)
  copyIn inum f.reads

def addFiles (rootino : Nat) : List Input → MkM Unit
  | [] => return
  | f :: files => do
    addFile rootino f
    addFiles rootino files

def zeroes : Nat → MkM Unit
  | 0 => return
  | n + 1 => do
    zeroes n
    wsect n (fill 0)

/-- Round up the size of the root directory. -/
def fixRoot (rootino : Nat) : MkM Unit := do
  let din ← rinode rootino
  winode rootino { din with size := (din.size / BSIZE + 1) * BSIZE }

/-- The image of the files, with a root directory. -/
def main (files : List Input) : MkM Unit := do
  zeroes FSSIZE
  wsect 1 (putSuper (fill 0) sb)
  let rootino ← ialloc T_DIR
  if rootino ≠ ROOTINO then throw "assert"
  iappend rootino (putDirent rootino [DOT])
  iappend rootino (putDirent rootino [DOT, DOT])
  addFiles rootino files
  fixRoot rootino
  balloc (← get).freeblock

def start : State where
  disk _ := fill 0
  nsect := 0
  freeinode := 1
  freeblock := nmeta

end Fs.Mkfs
