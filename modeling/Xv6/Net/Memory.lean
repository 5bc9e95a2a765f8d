import Xv6.Net.Stack
import Xv6.Vm.Mmu

/-!
# The handlers and the page allocator

`arp_proc`, `icmp_proc` and `tcp_proc` with `kalloc` and `kfree`: an answer is built at the address
that `kalloc` returned, also if that is 0, and the page is freed afterwards. `mem` is the memory by
virtual address, `kend` the address `end` of the kernel image; a received frame stays where it is, in
a buffer of its own.
-/

namespace Net

open Bytes Vm

structure Machine where
  net : State
  mem : Store
  freelist : List Nat

def kalloc (k : Machine) : Nat × Machine :=
  match k.freelist with
  | [] => (0, k)
  | p :: l => (p, { k with freelist := l })

/-- The page filled with junk and put on the free list; `none` is the panic. -/
def kfree (kend v : Nat) (k : Machine) : Option Machine :=
  if v % PGSIZE ≠ 0 ∨ v < kend ∨ v - KERNBASE ≥ PHYSTOP then none
  else
    let mem : Store := fun a => if v ≤ a ∧ a < v + PGSIZE then 1 else k.mem a
    some { k with mem := put32 mem v (k.freelist.headD 0), freelist := v :: k.freelist }

/-- Build packets from the address `v` on. -/
def buildAt (build : Store → State → Store × State) (v : Nat) (k : Machine) : Machine :=
  let (page, net) := build (fun i => k.mem (v + i)) k.net
  { k with net := net, mem := fun a => if v ≤ a then page (a - v) else k.mem a }

/-- `kalloc`, packets, `kfree`. -/
def withPage (kend : Nat) (build : Store → State → Store × State) (k : Machine) : Option Machine :=
  let (v, k) := kalloc k
  kfree kend v (buildAt build v k)

def arpBuild (h : Host) (recv page : Store) (s : State) : Store × State :=
  let (send, size) := arpReplyPktCreate h recv 14 page
  (send, i8254Send send size s)

def icmpBuild (h : Host) (buf page : Store) (s : State) : Store × State :=
  let (send, size, s) := icmpReplyPktCreate h buf page s
  (send, i8254Send send size s)

inductive Handler
  | arp
  | icmp
  | tcp
deriving DecidableEq

/-- A handler is called with a received frame. The branch of `arp_proc` that allocates is the one that
returns `ARP_CREATED_REPLY`. -/
def Handler.proc (h : Host) (kend : Nat) (buf : Store) (k : Machine) : Handler → Option Machine
  | arp =>
    if (arpProc h (fill 0) buf 14 k.net).1 = ARP_CREATED_REPLY then withPage kend (arpBuild h buf) k
    else some { k with net := (arpProc h (fill 0) buf 14 k.net).2 }
  | icmp =>
    if buf (ipv4Payload buf + 1) = 0 ∧ buf (ipv4Payload buf) = ICMP_TYPE_ECHO_REQUEST then
      withPage kend (icmpBuild h buf) k
    else some k
  | tcp => withPage kend (tcpBuild h buf) k

end Net
