import Xv6.Fs.Inode

/-!
# Directories and paths

A C string is the list of its bytes before the terminating zero; reading behind the end of the list
reads that zero. The name of a directory entry has `DIRSIZ` bytes and ends at its first zero, if it has
one.
-/

namespace Fs

/-! ## Strings -/

def strncmp : Nat → List UInt8 → List UInt8 → Bool
  | 0, _, _ => true
  | n + 1, p, q =>
    if p.headD 0 ≠ 0 ∧ p.headD 0 = q.headD 0 then strncmp n p.tail q.tail
    else p.headD 0 == q.headD 0

/-- The `n` bytes that `strncpy` stores. -/
def strncpy (t : List UInt8) (n : Nat) : List UInt8 := t.take n ++ List.replicate (n - t.length) 0

/-- Names are equal up to `DIRSIZ` bytes. -/
def namecmp (s t : List UInt8) : Bool := strncmp DIRSIZ s t

def SLASH : UInt8 := 47

def DOT : UInt8 := 46

/-! ## Directory entries -/

def putDirent (inum : Nat) (name : List UInt8) : List UInt8 :=
  UInt8.ofNat inum :: UInt8.ofNat (inum / 256) :: strncpy name DIRSIZ

def direntInum (de : List UInt8) : Nat := (de.getD 0 0).toNat + 256 * (de.getD 1 0).toNat

def direntName (de : List UInt8) : List UInt8 := de.drop 2

def readDirent (dp off : Nat) (e : String) : FsM (List UInt8) := do
  match ← readi dp off DIRENTSIZE with
  | some de => if de.length = DIRENTSIZE then return de else throw e
  | none => throw e

/-- The loop of `dirlookup`: the inode of the name, and the offset of its entry. -/
def dirlookupFrom (dp : Nat) (name : List UInt8) : (fuel off : Nat) → FsM (Option (Nat × Nat))
  | 0, _ => return none
  | fuel + 1, off => do
    if off < ((← get).node dp).size then
      let de ← readDirent dp off "dirlookup read"
      if direntInum de ≠ 0 ∧ namecmp name (direntName de) then
        iget (direntInum de)
        return some (direntInum de, off)
      else dirlookupFrom dp name fuel (off + DIRENTSIZE)
    else return none

/-- The inode that a directory has under a name, and the offset of the entry. -/
def dirlookup (dp : Nat) (name : List UInt8) : FsM (Option (Nat × Nat)) := do
  let d := (← get).node dp
  if d.type ≠ T_DIR then throw "dirlookup not DIR"
  dirlookupFrom dp name (d.size / DIRENTSIZE + 1) 0

/-- The loop of `dirlink` that looks for an empty entry. -/
def emptyDirent (dp : Nat) : (fuel off : Nat) → FsM Nat
  | 0, off => return off
  | fuel + 1, off => do
    if off < ((← get).node dp).size then
      let de ← readDirent dp off "dirlink read"
      if direntInum de = 0 then return off else emptyDirent dp fuel (off + DIRENTSIZE)
    else return off

/-- Write a new entry into a directory; `false` is -1. -/
def dirlink (dp : Nat) (name : List UInt8) (inum : Nat) : FsM Bool := do
  match ← dirlookup dp name with
  | some (ip, _) =>
    iput ip
    return false
  | none =>
    let off ← emptyDirent dp (((← get).node dp).size / DIRENTSIZE + 1) 0
    if (← writei dp off (putDirent inum name)) ≠ some DIRENTSIZE then throw "dirlink"
    return true

/-- Erase the directory entry at `off`, as `sys_unlink` does. -/
def eraseDirent (dp off : Nat) : FsM Unit := do
  if (← writei dp off (List.replicate DIRENTSIZE 0)) ≠ some DIRENTSIZE then throw "unlink: writei"

/-! ## Paths -/

/-- The next element of a path and the rest of the path. -/
def skipelem (path : List UInt8) : Option (List UInt8 × List UInt8) :=
  let path := path.dropWhile (· == SLASH)
  if path = [] then none
  else some ((path.takeWhile (· != SLASH)).take DIRSIZ,
    (path.dropWhile (· != SLASH)).dropWhile (· == SLASH))

/-- The loop of `namex`; the inode is returned with the last element of the path. -/
def namexFrom (parent : Bool) : (fuel ip : Nat) → List UInt8 → FsM (Option (Nat × List UInt8))
  | 0, _, _ => return none
  | fuel + 1, ip, path =>
    match skipelem path with
    | none =>
      if parent then do
        iput ip
        return none
      else return some (ip, [])
    | some (name, path) => do
      ilock ip
      if ((← get).node ip).type ≠ T_DIR then
        iunlockput ip
        return none
      else if parent ∧ path = [] then
        -- stop one level early
        iunlock ip
        return some (ip, name)
      else
        match ← dirlookup ip name with
        | none =>
          iunlockput ip
          return none
        | some (next, _) =>
          iunlockput ip
          namexFrom parent fuel next path

def namex (cwd : Nat) (path : List UInt8) (parent : Bool) : FsM (Option (Nat × List UInt8)) := do
  if path.headD 0 = SLASH then
    iget ROOTINO
    namexFrom parent (path.length + 1) ROOTINO path
  else
    idup cwd
    namexFrom parent (path.length + 1) cwd path

def namei (cwd : Nat) (path : List UInt8) : FsM (Option Nat) := do
  return (← namex cwd path false).map Prod.fst

def nameiparent (cwd : Nat) (path : List UInt8) : FsM (Option (Nat × List UInt8)) :=
  namex cwd path true

end Fs
