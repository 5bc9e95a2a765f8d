import Xv6.Log.Commit

/-!
# The on-disk format

The structures of `fs.h` as they lie in a block of 512 bytes. Fields of C structures are natural
numbers; writing one cuts it to the field's width.

`slot` and `ptr` number the pointers of an inode: `0` to `11` are the direct ones, `12` is the
indirect block, and `13` to `140` are the pointers in it.
-/

namespace Fs

open Bytes
open Log (Block Disk)

def BSIZE : Nat := 512
def NDIRECT : Nat := 12
def NINDIRECT : Nat := BSIZE / 4
/-- Blocks of the largest file. -/
def MAXFILE : Nat := NDIRECT + NINDIRECT
def DINODESIZE : Nat := 64
def IPB : Nat := BSIZE / DINODESIZE
def BPB : Nat := BSIZE * 8
def DIRSIZ : Nat := 14
def DIRENTSIZE : Nat := 16
def ROOTINO : Nat := 1
def T_DIR : Nat := 1
def T_FILE : Nat := 2
def T_DEV : Nat := 3

/-! ## The super block -/

/-- The super block. -/
structure Super where
  size : Nat
  nblocks : Nat
  ninodes : Nat
  nlog : Nat
  logstart : Nat
  inodestart : Nat
  bmapstart : Nat
deriving DecidableEq

def getSuper (b : Block) : Super where
  size := get32 b 0
  nblocks := get32 b 4
  ninodes := get32 b 8
  nlog := get32 b 12
  logstart := get32 b 16
  inodestart := get32 b 20
  bmapstart := get32 b 24

def putSuper (b : Block) (sb : Super) : Block :=
  let b := put32 b 0 sb.size
  let b := put32 b 4 sb.nblocks
  let b := put32 b 8 sb.ninodes
  let b := put32 b 12 sb.nlog
  let b := put32 b 16 sb.logstart
  let b := put32 b 20 sb.inodestart
  put32 b 24 sb.bmapstart

def Super.iblock (sb : Super) (i : Nat) : Nat := i / IPB + sb.inodestart

def Super.bblock (sb : Super) (b : Nat) : Nat := b / BPB + sb.bmapstart

/-- The first data block. -/
def Super.data (sb : Super) : Nat := sb.size - sb.nblocks

/-! ## Inodes -/

/-- A `struct dinode`; `addrs` is 0 behind its end. -/
@[ext] structure Dinode where
  type : Nat
  major : Nat
  minor : Nat
  nlink : Nat
  size : Nat
  addrs : Nat → Nat

def Dinode.zero : Dinode := ⟨0, 0, 0, 0, 0, fun _ => 0⟩

/-- The field `addrs[k]` of the inode in place `i` of a block. -/
def addrOff (i k : Nat) : Nat := DINODESIZE * i + 12 + 4 * k

/-- The inode `i` of a block of inodes. -/
def getDinode (b : Block) (i : Nat) : Dinode where
  type := get16 b (DINODESIZE * i)
  major := get16 b (DINODESIZE * i + 2)
  minor := get16 b (DINODESIZE * i + 4)
  nlink := get16 b (DINODESIZE * i + 6)
  size := get32 b (DINODESIZE * i + 8)
  addrs k := if k ≤ NDIRECT then get32 b (addrOff i k) else 0

/-- Copy `addrs[0]` to `addrs[n - 1]`. -/
def putAddrs (b : Block) (i : Nat) (addrs : Nat → Nat) : Nat → Block
  | 0 => b
  | n + 1 => put32 (putAddrs b i addrs n) (addrOff i n) (addrs n)

def putDinode (b : Block) (i : Nat) (d : Dinode) : Block :=
  let b := put16 b (DINODESIZE * i) d.type
  let b := put16 b (DINODESIZE * i + 2) d.major
  let b := put16 b (DINODESIZE * i + 4) d.minor
  let b := put16 b (DINODESIZE * i + 6) d.nlink
  let b := put32 b (DINODESIZE * i + 8) d.size
  putAddrs b i d.addrs (NDIRECT + 1)

/-- The inode `i` on the disk. -/
def dinode (sb : Super) (disk : Disk) (i : Nat) : Dinode := getDinode (disk (sb.iblock i)) (i % IPB)

/-! ## The free bit map -/

/-- `data[bi/8] & (1 << (bi % 8))` -/
def getBit (b : Block) (bi : Nat) : Bool := (b (bi / 8)).toNat.testBit (bi % 8)

/-- `data[bi/8] |= 1 << (bi % 8)` -/
def setBit (b : Block) (bi : Nat) : Block :=
  Function.update b (bi / 8) (b (bi / 8) ||| (1 <<< UInt8.ofNat (bi % 8)))

/-- `data[bi/8] &= ~(1 << (bi % 8))` -/
def clearBit (b : Block) (bi : Nat) : Block :=
  Function.update b (bi / 8) (b (bi / 8) &&& ~~~ (1 <<< UInt8.ofNat (bi % 8)))

/-- The bit of a block in the bitmap. -/
def used (sb : Super) (disk : Disk) (b : Nat) : Bool := getBit (disk (sb.bblock b)) (b % BPB)

/-! ## The pointers of an inode -/

def NSLOT : Nat := NDIRECT + 1 + NINDIRECT

/-- The pointer to the block `bn` of a file. -/
def slot (bn : Nat) : Nat := if bn < NDIRECT then bn else bn + 1

/-- The pointer `k` of an inode; those behind `NDIRECT` are in the indirect block. -/
def ptr (disk : Disk) (d : Dinode) (k : Nat) : Nat :=
  if k ≤ NDIRECT then d.addrs k
  else if d.addrs NDIRECT = 0 then 0
  else get32 (disk (d.addrs NDIRECT)) (4 * (k - (NDIRECT + 1)))

/-- The byte at an offset of a file; a block that is not there is zero. -/
def byte (disk : Disk) (d : Dinode) (off : Nat) : UInt8 :=
  let b := ptr disk d (slot (off / BSIZE))
  if b = 0 then 0 else disk b (off % BSIZE)

/-- The `n` bytes of a file from `off` on. -/
def bytes (disk : Disk) (d : Dinode) (off n : Nat) : List UInt8 :=
  (List.range n).map fun i => byte disk d (off + i)

end Fs
