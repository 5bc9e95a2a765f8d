import Xv6.Base.Bytes

/-!
# The rings of the network card

The model of `i8254_send`, of the loop of `i8254_recv` and of the set-up of the two rings in
`i8254.c`, with the card. A descriptor has 16 bytes, with the address of its buffer at 0 and the
length of its frame at 8. The card steps at any time, also between the steps of the driver: it takes
the frame of the descriptor `tdh` from memory as long as `tdh` is not `tdt`, and stores a frame that
arrives in the buffer of the descriptor `rdh` as long as `rdh` is not `rdt`.
-/

namespace I8254

open Bytes

abbrev Frame := List UInt8

def I8254_SEND_DESC_NUM : Nat := 256
def I8254_RECV_DESC_NUM : Nat := 256
def DESCSIZE : Nat := 16

def uint (x : Int) : Nat := (x % 2 ^ 32).toNat

/-! ## Set-up -/

/-- The fields of a descriptor other than the address of its buffer, set to zero. -/
def clearDesc (m : Store) (d : Nat) : Store :=
  put16 (put16 (put16 (put16 (put32 m (d + 4) 0) (d + 8) 0) (d + 10) 0) (d + 12) 0) (d + 14) 0

/-- The loop that gives the descriptors their buffers from `i` on; `kalloc i` is the physical address
of the page of the `i`th call, or 0. -/
def setBuffers (kalloc : Nat → Nat) (ring : Nat) : Nat → Nat → Store → Store
  | 0, _, m => m
  | n + 1, i, m =>
    if kalloc i = 0 then m
    else
      let m := put32 m (ring + DESCSIZE * i) (kalloc i)
      setBuffers kalloc ring n (i + 1) (put32 m (ring + DESCSIZE * (i + 1)) (kalloc i + 0x800))

/-- The descriptors of a ring of `n` at `ring`, in the page that `kalloc` returned. -/
def initRing (kalloc : Nat → Nat) (ring n : Nat) (m : Store) : Store :=
  setBuffers kalloc ring (n / 2) 0
    ((List.range n).foldl (fun m i => clearDesc m (ring + DESCSIZE * i)) m)

theorem setBuffers_other {kalloc : Nat → Nat} {ring a : Nat} (n i : Nat) (m : Store)
    (h : a < ring + DESCSIZE * i) : setBuffers kalloc ring n i m a = m a := by
  induction n generalizing i m with
  | zero => rfl
  | succ n ih =>
    have hnext : DESCSIZE * (i + 1) = DESCSIZE * i + DESCSIZE := Nat.mul_succ _ _
    rw [setBuffers]
    split
    · rfl
    · rw [ih _ _ (by omega), put32_other _ _ (by omega), put32_other _ _ (by omega)]

theorem get32_initRing {kalloc : Nat → Nat} {ring n : Nat} {m : Store} (hn : 2 ≤ n)
    (h : kalloc 0 ≠ 0) : get32 (initRing kalloc ring n m) ring = kalloc 0 % 2 ^ 32 := by
  obtain ⟨k, hk⟩ : ∃ k, n / 2 = k + 1 := ⟨n / 2 - 1, by omega⟩
  have hsize : DESCSIZE = 16 := rfl
  rw [initRing, hk, setBuffers, if_neg h, ← get32_put32 m ring]
  refine get32_congr fun a h1 h2 => ?_
  rw [setBuffers_other _ _ _ (by omega), put32_other _ _ (by omega)]
  exact put32_congr h1 h2

/-! ## Sending -/

/-- A call of `i8254_send`: the frame, the number of descriptors that the card had still to take
when the call looked at the ring, and the result. -/
structure Call where
  data : Frame
  pending : Nat
  result : Int

/-- Where the sender is in `i8254_send`. -/
inductive TxPc
  | idle
  /-- The descriptor `index` is to be filled. -/
  | fill (data : Frame) (pending index : Nat)
  /-- `tdt` is to be advanced. -/
  | kick (data : Frame) (pending : Nat)

/-- The ring of frames to be sent, with the registers of the card. -/
structure Tx where
  mem : Store
  tdbal : Nat
  tdh : Nat
  tdt : Nat
  pc : TxPc
  calls : List Call
  consumed : List Frame

namespace Tx

def init (kalloc : Nat → Nat) (ring : Nat) (mem : Store) : Tx where
  mem := initRing kalloc ring I8254_SEND_DESC_NUM mem
  tdbal := ring
  tdh := 0
  tdt := 0
  pc := .idle
  calls := []
  consumed := []

variable (s : Tx)

def desc (i : Nat) : Nat := s.tdbal + DESCSIZE * i

def bufAddr (i : Nat) : Nat := get32 s.mem (s.desc i)

def len (i : Nat) : Nat := get16 s.mem (s.desc i + 8)

def frame (i : Nat) : Frame := slice s.mem (s.bufAddr i) (s.len i)

def pending : Nat :=
  uint (I8254_SEND_DESC_NUM - s.tdh + s.tdt) % I8254_SEND_DESC_NUM

def pendingFrames : List Frame :=
  (List.range s.pending).map fun i => s.frame ((s.tdh + i) % I8254_SEND_DESC_NUM)

/-- The frames of the calls that succeeded, in order. -/
def sent : List Frame :=
  (s.calls.filter fun c => c.result = c.data.length).map Call.data

/-- The room that `i8254_send` sees. -/
def txAvailable : Int :=
  I8254_SEND_DESC_NUM - (uint (I8254_SEND_DESC_NUM - s.tdh + s.tdt) % I8254_SEND_DESC_NUM : Nat)

/-- The frame copied to the buffer of the descriptor `index`, and the fields of the descriptor. -/
def fillDesc (data : Frame) (index : Nat) : Store :=
  let m := putList s.mem (s.bufAddr index) data
  let d := s.desc index
  let m := put16 m (d + 8) data.length
  let m := put8 (put8 (put8 m (d + 12) 0) (d + 13) 0) (d + 11) 0xb
  put8 (put16 m (d + 14) 0) (d + 10) 0

/-- The steps of the sender and of the card. A call is made only if `ok`. -/
inductive Step (ok : Tx → Frame → Prop) : Tx → Tx → Prop
  | call {s : Tx} {data : Frame} (hpc : s.pc = .idle) (hok : ok s data) (h : 0 < s.txAvailable) :
    Step ok s { s with pc := .fill data s.pending (s.tdt % I8254_SEND_DESC_NUM) }
  | full {s : Tx} {data : Frame} (hpc : s.pc = .idle) (hok : ok s data) (h : ¬ 0 < s.txAvailable) :
    Step ok s { s with calls := s.calls ++ [⟨data, s.pending, -1⟩] }
  | fill {s : Tx} {data : Frame} {n index : Nat} (hpc : s.pc = .fill data n index) :
    Step ok s { s with mem := s.fillDesc data index, pc := .kick data n }
  | kick {s : Tx} {data : Frame} {n : Nat} (hpc : s.pc = .kick data n) :
    Step ok s { s with
      tdt := (s.tdt + 1) % I8254_SEND_DESC_NUM, pc := .idle,
      calls := s.calls ++ [⟨data, n, data.length⟩] }
  | card {s : Tx} (h : s.tdh ≠ s.tdt) :
    Step ok s { s with
      tdh := (s.tdh + 1) % I8254_SEND_DESC_NUM, consumed := s.consumed ++ [s.frame s.tdh] }

inductive Reach (ok : Tx → Frame → Prop) (s0 : Tx) : Tx → Prop
  | refl : Reach ok s0 s0
  | step {s s' : Tx} (h : Reach ok s0 s) (hs : Step ok s s') : Reach ok s0 s'

end Tx

/-! ## Receiving -/

/-- Where the driver is in an iteration of the loop of `i8254_recv`. -/
inductive RxPc
  | top
  /-- The next buffer is to be taken. -/
  | take
  /-- `eth_proc` is to be called with the address of the buffer. -/
  | proc (addr : Nat)
  /-- `rdt` and `rdh` are to be compared. -/
  | check

/-- The ring of frames that arrive. -/
structure Rx where
  mem : Store
  rdbal : Nat
  rdh : Nat
  rdt : Nat
  pc : RxPc
  stored : List Frame
  /-- The memory from the address passed to `eth_proc` on, for each call of it. -/
  passed : List Store
  /-- The indices used on `recv_desc`. -/
  used : List Nat
  /-- The stored frames that had not been passed when an iteration found no frame. -/
  missed : List Frame

namespace Rx

def init (kalloc : Nat → Nat) (ring : Nat) (mem : Store) : Rx where
  mem := initRing kalloc ring I8254_RECV_DESC_NUM mem
  rdbal := ring
  rdh := 0
  rdt := I8254_RECV_DESC_NUM
  pc := .top
  stored := []
  passed := []
  used := []
  missed := []

variable (s : Rx)

def bufAddr (i : Nat) : Nat := get32 s.mem (s.rdbal + DESCSIZE * i)

def rxAvailable : Nat := uint (I8254_RECV_DESC_NUM - s.rdt + s.rdh) % I8254_RECV_DESC_NUM

/-- The steps of the driver and of the card. An iteration begins only if `start`. -/
inductive Step (start : Rx → Prop) : Rx → Rx → Prop
  | arrive {s : Rx} {f : Frame} (h : s.rdh ≠ s.rdt) :
    Step start s { s with
      mem := putList s.mem (s.bufAddr s.rdh) f, rdh := (s.rdh + 1) % I8254_RECV_DESC_NUM,
      stored := s.stored ++ [f] }
  | some {s : Rx} (hpc : s.pc = .top) (hok : start s) (h : 0 < s.rxAvailable) :
    Step start s { s with pc := .take }
  | none {s : Rx} (hpc : s.pc = .top) (hok : start s) (h : ¬ 0 < s.rxAvailable) :
    Step start s { s with pc := .check, missed := s.missed ++ s.stored.drop s.passed.length }
  | take {s : Rx} (hpc : s.pc = .take) :
    Step start s { s with
      pc := .proc (s.bufAddr s.rdt), rdt := (s.rdt + 1) % 2 ^ 32 % I8254_RECV_DESC_NUM,
      used := s.used ++ [s.rdt] }
  | proc {s : Rx} {addr : Nat} (hpc : s.pc = .proc addr) :
    Step start s { s with
      pc := .check, passed := s.passed ++ [fun i => s.mem (addr + i)] }
  | back {s : Rx} (hpc : s.pc = .check) (h : s.rdt = s.rdh) :
    Step start s { s with pc := .top, rdt := uint (s.rdt - 1) }
  | next {s : Rx} (hpc : s.pc = .check) (h : s.rdt ≠ s.rdh) :
    Step start s { s with pc := .top }

inductive Reach (start : Rx → Prop) (s0 : Rx) : Rx → Prop
  | refl : Reach start s0 s0
  | step {s s' : Rx} (h : Reach start s0 s) (hs : Step start s s') : Reach start s0 s'

end Rx

end I8254
