/-!
# Parameters of the kernel

The constants of `param.h`, `fs.h`, `stat.h` and `mkfs.c` that the models share.
-/

namespace Param

/-! ## `param.h` -/

def NPROC : Nat := 64
def NCPU : Nat := 4
def NOFILE : Nat := 16
def NFILE : Nat := 100
/-- Maximum number of active i-nodes. -/
def NINODE : Nat := 50
def NDEV : Nat := 10
def ROOTDEV : Nat := 1
def MAXARG : Nat := 32
/-- Maximum number of blocks any file-system operation writes. -/
def MAXOPBLOCKS : Nat := 10
/-- Maximum number of data blocks in the on-disk log. -/
def LOGSIZE : Nat := MAXOPBLOCKS * 3
def NBUF : Nat := MAXOPBLOCKS * 3
/-- Size of the file system in blocks. -/
def FSSIZE : Nat := 1000

end Param
