import Xv6.Base.Bytes
import Xv6.Base.Crash
import Xv6.Param

/-!
# The commit protocol of `log.c`

The functions of `log.c` that write the disk, as programs over a disk of blocks (`Crash.Prog`). Their
memory is lost at a crash (`Mem.boot`). `bread` returns the cached copy of a block when there is one,
so `writeLog` copies the modified blocks of the cache and recovery, after a boot, copies what is on the
disk.

`log.start` is the parameter `start`; `log.dev` is the one disk.
-/

namespace Log

open Crash Bytes

abbrev Block := Bytes.Store

abbrev Disk := Nat → Block

/-- The memory of the log and the buffer cache. `lh` lists `log.lh.block[0..log.lh.n)`. -/
structure Mem where
  lh : List Nat
  cache : Nat → Option Block

def Mem.boot : Mem := ⟨[], fun _ => none⟩

/-- Code of `log.c` and the buffer cache: it has the memory and reads and writes the disk. -/
abbrev LogM := StateT Mem (Prog Nat Block)

/-! ## The buffer cache -/

/-- A buffer with the contents of block `b`: the cached copy, else read from the disk. -/
def bread (b : Nat) : LogM Block := fun m =>
  match m.cache b with
  | some v => .ret (v, m)
  | none => .read b fun v => .ret (v, { m with cache := Function.update m.cache b (some v) })

/-- Write the buffer of block `b`, changed to `v`, to the disk. -/
def bwrite (b : Nat) (v : Block) : LogM Unit := fun m =>
  .write b v (.ret ((), { m with cache := Function.update m.cache b (some v) }))

/-! ## The log header -/

/-- `struct logheader` in a block: `int n` at offset 0, then `int block[]`. -/
def headN (buf : Block) : Nat := get32 buf 0

def headBlock (buf : Block) (i : Nat) : Nat := get32 buf (4 + 4 * i)

/-- The block numbers of the header in `buf`. A negative `n` gives none: no loop over it runs. -/
def headBlocks (buf : Block) : List Nat :=
  if headN buf < 2 ^ 31 then (List.range (headN buf)).map (headBlock buf) else []

/-- `hb->block[i..]` overwritten by `bs`. -/
def putBlocks (buf : Block) (i : Nat) : List Nat → Block
  | [] => buf
  | b :: bs => putBlocks (put32 buf (4 + 4 * i) b) (i + 1) bs

/-- The header block `buf` with `n` and the block numbers of `lh` stored into it. -/
def putHead (buf : Block) (lh : List Nat) : Block := putBlocks (put32 buf 0 lh.length) 0 lh

section
variable (start : Nat)

/-- Read the log header from disk into the in-memory log header. -/
def readHead : LogM Unit := do
  let buf ← bread start
  modify fun m => { m with lh := headBlocks buf }

/-- Write the in-memory log header to disk: the point at which a transaction commits. -/
def writeHead : LogM Unit := do
  let buf ← bread start
  bwrite start (putHead buf (← get).lh)

/-! ## Installing and committing -/

/-- The loop of `install_trans`. -/
def installFrom : Nat → List Nat → LogM Unit
  | _, [] => pure ()
  | tail, b :: bs => do
    let lbuf ← bread (start + tail + 1)
    let _dbuf ← bread b
    bwrite b lbuf
    installFrom (tail + 1) bs

/-- Copy committed blocks from the log to their home location. -/
def installTrans : LogM Unit := do installFrom start 0 (← get).lh

/-- The loop of `write_log`. -/
def writeLogFrom : Nat → List Nat → LogM Unit
  | _, [] => pure ()
  | tail, b :: bs => do
    let _to ← bread (start + tail + 1)
    let frm ← bread b
    bwrite (start + tail + 1) frm
    writeLogFrom (tail + 1) bs

/-- Copy modified blocks from the cache to the log. -/
def writeLog : LogM Unit := do writeLogFrom start 0 (← get).lh

/-- The four steps of a commit; the header is the commit point. -/
def commit : LogM Unit := do
  if (← get).lh.length > 0 then
    writeLog start
    writeHead start
    installTrans start
    modify fun m => { m with lh := [] }
    writeHead start

def recoverFromLog : LogM Unit := do
  readHead start
  installTrans start
  modify fun m => { m with lh := [] }
  writeHead start

/-- Recovery at boot, with an empty cache. -/
def recovery : Prog Nat Block (Unit × Mem) := (recoverFromLog start).run .boot

end

/-! ## Transactions -/

/-- A transaction to be committed to a log of `nlog` blocks from `start`: the blocks `log_write`
recorded, in the order of `log.lh.block[]`, with their contents in the cache. `log_write` absorbs a
second write of a block and refuses more than `LOGSIZE` blocks. -/
structure Txn (start nlog : Nat) where
  blocks : List (Nat × Block)
  nodup : (blocks.map Prod.fst).Nodup
  outside : ∀ p ∈ blocks, p.1 < start ∨ start + nlog ≤ p.1
  fits : blocks.length + 1 ≤ nlog
  logsize : blocks.length ≤ Param.LOGSIZE
  uint : ∀ p ∈ blocks, p.1 < 2 ^ 32

/-- The disk with the transaction installed. -/
def Txn.apply {start nlog : Nat} (t : Txn start nlog) (d : Disk) : Disk := writeAll d t.blocks

/-- The system calls of a transaction have run: its blocks are in the header and modified in the
cache, pinned there by `B_DIRTY`. -/
def Txn.stage {start nlog : Nat} (t : Txn start nlog) (m : Mem) : Mem :=
  ⟨t.blocks.map Prod.fst, writeAll m.cache (t.blocks.map fun p => (p.1, some p.2))⟩

def commitTxn {start nlog : Nat} (t : Txn start nlog) (m : Mem) : Prog Nat Block (Unit × Mem) :=
  (commit start).run (t.stage m)

/-- The transactions `ts` committed one after the other, from the memory `m`. -/
def commitAll {start nlog : Nat} : List (Txn start nlog) → Mem → Prog Nat Block (Unit × Mem)
  | [], m => .ret ((), m)
  | t :: ts, m => do
    let (_, m) ← commitTxn t m
    commitAll ts m

/-- The disk after the transactions `ts`. -/
def applyAll {start nlog : Nat} (ts : List (Txn start nlog)) (d : Disk) : Disk :=
  ts.foldl (fun d t => t.apply d) d

/-- From one boot to the next: the transactions `txns` are committed until a crash after `k` writes
of them, then recovery crashes after `ks` writes until it completes. -/
structure Boot (start nlog : Nat) where
  txns : List (Txn start nlog)
  k : Nat
  ks : List Nat

def Boot.run {start nlog : Nat} (b : Boot start nlog) (s : Mem × Disk) : Mem × Disk :=
  let r := reboot (recovery start) b.ks (crashAt b.k (commitAll b.txns s.1) s.2)
  (r.1.2, r.2)

def runBoots {start nlog : Nat} (bs : List (Boot start nlog)) (s : Mem × Disk) : Mem × Disk :=
  bs.foldl (fun s b => b.run s) s

end Log
