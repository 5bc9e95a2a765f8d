import Xv6.Fs.Shared

/-!
# Open files

The model of `filewrite` in `file.c` for one process and a file of the type `FD_INODE`; pipes have a
model of their own. `begin_op` and `end_op` only wait for the log, which is below this model.
-/

namespace Fs

/-- A `struct file` of the type `FD_INODE`. -/
structure File where
  readable : Bool
  writable : Bool
  ip : Nat
  off : Nat

/-- One turn of the loop of `filewrite`: what `writei` returned, and the offset. -/
def writeChunk (ip off : Nat) (data : List UInt8) : FsM (Option Nat × Nat) := do
  ilock ip
  let r ← writei ip off data
  iunlock ip
  return (r, (off + r.getD 0) % 2 ^ 32)

/-- The loop of `filewrite`, when `i` bytes are written: the value of `i` at its end, and the
offset. -/
def filewriteLoop (ip : Nat) (data : List UInt8) : (fuel i off : Nat) → FsM (Nat × Nat)
  | 0, i, off => return (i, off)
  | fuel + 1, i, off =>
    if i < data.length then do
      let n1 := min (data.length - i) Shared.max
      let (r, off) ← writeChunk ip off ((data.drop i).take n1)
      match r with
      | none => return (i, off)
      | some r =>
        if r ≠ n1 then throw "short filewrite"
        filewriteLoop ip data fuel (i + r) off
    else return (i, off)

/-- What `filewrite` of `data` returns, and the file after it; `none` is -1. -/
def filewrite (f : File) (data : List UInt8) : FsM (Option Nat × File) := do
  if f.writable = false then return (none, f)
  let (i, off) ← filewriteLoop f.ip data (data.length + 1) 0 f.off
  return (if i = data.length then some i else none, { f with off := off })

end Fs
