import Mathlib.Logic.Function.Basic
import Mathlib.Data.Fin.VecNotation
import Mathlib.Data.Fintype.Pi
import Xv6.Base.Bytes

/-!
# The network stack

The model of `eth.c`, `arp.c`, `ipv4.c`, `icmp.c`, `tcp.c` and `http.c`. A receive buffer and the
page that `kalloc` returns for an answer are stores of bytes; a header is read and written field by
field at its place in the packed C structure. `sent` keeps the frames passed to `i8254_send` in order.
Messages on the console are left out.

The sizes of the structures are 14 (`eth_pkt`), 30 (`arp_pkt`, whose `dst_ip` has six bytes), 20
(`ipv4_pkt`), 64 (`icmp_echo_pkt`) and 20 (`tcp_pkt`).
-/

namespace Net

open Bytes

/-- Addresses and frames. -/
abbrev Mac := Octets 6
abbrev Ip := Octets 4
abbrev Frame := List UInt8

/-- The constants of `arp.h`, `ipv4.h`, `icmp.h` and `tcp.h`. -/
def ARP_TABLE_MAX : Nat := 64
def ARP_HARDWARE_TYPE : Nat := 0x0100
def ARP_PROTOCOL_TYPE : Nat := 0x0008
def ARP_OPS_REQUEST : Nat := 0x0100
def ARP_OPS_REPLY : Nat := 0x0200
def ARP_UPDATED_TABLE : Int := 1
def ARP_CREATED_REPLY : Int := 2
def IPV4_TYPE_ICMP : UInt8 := 0x1
def IPV4_TYPE_TCP : UInt8 := 0x6
def ICMP_TYPE_ECHO_REQUEST : UInt8 := 0x8
def ICMP_TYPE_ECHO_REPLY : UInt8 := 0x0
def TCP_CODEBITS_ACK : UInt8 := 0x10
def TCP_CODEBITS_PSH : UInt8 := 0x8
def TCP_CODEBITS_SYN : UInt8 := 0x2
def TCP_CODEBITS_FIN : UInt8 := 0x1

/-- `struct arp_entry`. -/
structure ArpEntry where
  ip : Ip
  mac : Mac
  use : UInt8
deriving DecidableEq

/-- The addresses of this machine. -/
structure Host where
  macAddr : Mac
  myIp : Ip

/-- The global variables of the stack. -/
structure State where
  arpTable : Nat → ArpEntry
  ipId : Int
  sendId : Nat
  seqNum : Nat
  finFlag : Int
  /-- The frames passed to `i8254_send`. -/
  sent : List Frame

/-- The state after boot: the table is empty. -/
def State.init : State where
  arpTable _ := ⟨fun _ => 0, fun _ => 0, 0⟩
  ipId := -1
  sendId := 0
  seqNum := 0
  finFlag := 0
  sent := []

/-- `i8254_send`: the first `len` bytes go out. -/
def i8254Send (m : Store) (len : Nat) (s : State) : State :=
  { s with sent := s.sent ++ [slice m 0 len] }

/-! ## Byte order -/

/-- `N2H_ushort`: the two bytes are exchanged. -/
def n2hUshort (value : Nat) : Nat := ((value &&& 0xFF) <<< 8) + (value >>> 8)

def h2nUshort (value : Nat) : Nat := ((value &&& 0xFF) <<< 8) + (value >>> 8)

/-- `H2N_uint`; its masks take half-bytes. -/
def h2nUint (value : Nat) : Nat :=
  ((value &&& 0xF) <<< 24) + ((value &&& 0xF0) <<< 8) + ((value &&& 0xF00) >>> 8) +
    ((value &&& 0xF000) >>> 24)

/-- `N2H_uint`: the four bytes in the other order. -/
def n2hUint (value : Nat) : Nat :=
  ((value &&& 0xFF) <<< 24) + ((value &&& 0xFF00) <<< 8) + ((value &&& 0xFF0000) >>> 8) +
    ((value &&& 0xFF000000) >>> 24)

/-! ## Ethernet -/

/-- The source address of a received frame. -/
def ethSrcMac (buf : Store) : Mac := getBytes buf 6 6

/-- The Ethernet header of a frame to be sent. -/
def ethHeader (h : Host) (dstMac : Mac) (type : UInt8) (send : Store) : Store :=
  let send := put8 (put8 send 12 0x08) 13 type
  let send := putBytes send 0 dstMac
  putBytes send 6 h.macAddr

/-! ## ARP

An `arp_pkt` at `o`: `hrd_type` 0, `pro_type` 2, `hrd_len` 4, `pro_len` 5, `op` 6, `src_mac` 8,
`src_ip` 14, `dst_mac` 18, `dst_ip` 24. -/

/-- The fields of an ARP packet. -/
def arpOp (m : Store) (o : Nat) : Nat := get16 m (o + 6)
def arpSrcMac (m : Store) (o : Nat) : Mac := getBytes m (o + 8) 6
def arpSrcIp (m : Store) (o : Nat) : Ip := getBytes m (o + 14) 4
def arpDstIp (m : Store) (o : Nat) : Ip := getBytes m (o + 24) 4

/-- The frame that `arp_broadcast` and `arp_reply_pkt_create` build, field by field. -/
def arpFrame (h : Host) (op : Nat) (ethDst dstMac : Mac) (dstIp : Ip) (send : Store) : Store × Nat :=
  let send := ethHeader h ethDst 0x06 send
  let send := put16 send 14 ARP_HARDWARE_TYPE
  let send := put16 send 16 ARP_PROTOCOL_TYPE
  let send := put8 (put8 send 18 6) 19 4
  let send := put16 send 20 op
  let send := putBytes send 32 dstMac
  let send := putBytes send 38 dstIp
  let send := putBytes send 22 h.macAddr
  (putBytes send 28 h.myIp, 44)

/-- The request for the address `10.0.1.ip`. -/
def arpBroadcast (h : Host) (send : Store) (ip : Nat) : Store × Nat :=
  arpFrame h ARP_OPS_REQUEST (fun _ => 0xff) (fun _ => 0) ![10, 0, 1, UInt8.ofNat ip] send

/-- The reply to the request at `arp`. -/
def arpReplyPktCreate (h : Host) (recv : Store) (arp : Nat) (send : Store) : Store × Nat :=
  arpFrame h ARP_OPS_REPLY (arpSrcMac recv arp) (arpSrcMac recv arp) (arpSrcIp recv arp) send

/-- The loop of `arp_table_search` from index `i` on. -/
def arpTableSearchFrom (table : Nat → ArpEntry) (ip : Ip) : Nat → Nat → Int → Int
  | 0, _, empty => empty - 1
  | n + 1, i, empty =>
    if (table i).ip = ip then i
    else arpTableSearchFrom table ip n (i + 1)
      (if (table i).use = 0 ∧ empty = 1 then -(i : Int) else empty)

/-- The index of the entry for `ip`; otherwise a negative number for the first unused index. -/
def arpTableSearch (table : Nat → ArpEntry) (ip : Ip) : Int :=
  arpTableSearchFrom table ip ARP_TABLE_MAX 0 1

/-- The sender's address is entered, at its place or at an unused one. -/
def arpTableUpdate (recv : Store) (arp : Nat) (table : Nat → ArpEntry) : Nat → ArpEntry :=
  let index := arpTableSearch table (arpSrcIp recv arp)
  if index > -1 then
    Function.update table index.toNat { table index.toNat with mac := arpSrcMac recv arp }
  else
    let index := -(index + 1)
    Function.update table index.toNat ⟨arpSrcIp recv arp, arpSrcMac recv arp, 1⟩

/-- `arp_proc`: a request is answered, and a reply goes to the table. -/
def arpProc (h : Host) (page recv : Store) (arp : Nat) (s : State) : Int × State :=
  if get16 recv arp ≠ ARP_HARDWARE_TYPE then (-1, s)
  else if get16 recv (arp + 2) ≠ ARP_PROTOCOL_TYPE then (-1, s)
  else if recv (arp + 4) ≠ 6 then (-1, s)
  else if recv (arp + 5) ≠ 4 then (-1, s)
  else if h.myIp ≠ arpDstIp recv arp ∧ h.myIp ≠ arpSrcIp recv arp then (-1, s)
  else if arpOp recv arp = ARP_OPS_REQUEST ∧ h.myIp = arpDstIp recv arp then
    let (send, size) := arpReplyPktCreate h recv arp page
    (ARP_CREATED_REPLY, i8254Send send size s)
  else if arpOp recv arp = ARP_OPS_REPLY ∧ h.myIp = arpDstIp recv arp then
    (ARP_UPDATED_TABLE, { s with arpTable := arpTableUpdate recv arp s.arpTable })
  else (-1, s)

/-! ## IPv4

The `ipv4_pkt` of a frame stands at 14: `ver` 14, `srv_type` 15, `total_len` 16, `id` 18,
`fragment` 20, `ttl` 22, `protocol` 23, `chk_sum` 24, `src_ip` 26, `dst_ip` 30. -/

/-- The fields of an IPv4 header. -/
def ipv4Id (buf : Store) : Nat := get16 buf 18
def ipv4Protocol (buf : Store) : UInt8 := buf 23
def ipv4SrcIp (buf : Store) : Ip := getBytes buf 26 4

/-- Where the packet in the IPv4 packet begins, by the header length in `ver`. -/
def ipv4Payload (buf : Store) : Nat := 14 + (buf 14 &&& 0xF).toNat * 4

/-- A ones' complement sum of `n` big-endian words from `o`, folded after each word. -/
def chksumFolded (m : Store) (o : Nat) : Nat → Nat
  | 0 => 0
  | n + 1 =>
    let sum := chksumFolded m o n + ((m (o + n * 2)).toNat <<< 8) + (m (o + n * 2 + 1)).toNat
    if sum > 0xFFFF then (sum &&& 0xFFFF) + 1 else sum

/-- The low 16 bits of `~chk_sum`. -/
def complement16 (sum : Nat) : Nat := 0xFFFF - sum % 0x10000

/-- `ipv4_chksum`, over the header length that `ver` gives. -/
def ipv4Chksum (m : Store) (o : Nat) : Nat :=
  complement16 (chksumFolded m o ((m o &&& 0xF).toNat * 2))

/-- The IPv4 header of a frame to be sent in answer to `recv`. -/
def ipv4Header (h : Host) (recv : Store) (len fragment : Nat) (protocol : UInt8) (send : Store)
    (s : State) : Store × State :=
  let send := put8 send 14 0x45
  let send := put8 send 15 0
  let send := put16 send 16 (h2nUshort len)
  let send := put16 send 18 s.sendId
  let s := { s with sendId := (s.sendId + 1) % 0x10000 }
  let send := put16 send 20 (h2nUshort fragment)
  let send := put8 send 22 255
  let send := put8 send 23 protocol
  let send := putBytes send 26 h.myIp
  let send := putBytes send 30 (ipv4SrcIp recv)
  let send := put16 send 24 0
  (put16 send 24 (h2nUshort (ipv4Chksum send 14)), s)

/-! ## ICMP

An `icmp_echo_pkt` at `o`: `type` 0, `code` 1, `chk_sum` 2, `id` 4, `seq_num` 6, `time_stamp` 8,
`data` 16. -/

/-- `icmp_chksum`: 64 bytes. -/
def icmpChksum (m : Store) (o : Nat) : Nat := complement16 (chksumFolded m o 32)

/-- The echo reply to `recv`: its identifier, number, time stamp and data. -/
def icmpReplyPktCreate (h : Host) (recv send : Store) (s : State) : Store × Nat × State :=
  let icmp := ipv4Payload recv
  let send := ethHeader h (ethSrcMac recv) 0x00 send
  let (send, s) := ipv4Header h recv (20 + 64) 0x4000 IPV4_TYPE_ICMP send s
  let send := put8 (put8 send 34 ICMP_TYPE_ECHO_REPLY) 35 0
  let send := put16 send 38 (get16 recv (icmp + 4))
  let send := put16 send 40 (get16 recv (icmp + 6))
  let send := putBytes send 42 (getBytes recv (icmp + 8) 8)
  let send := putBytes send 50 (getBytes recv (icmp + 16) 48)
  let send := put16 send 36 0
  (put16 send 36 (h2nUshort (icmpChksum send 34)), 14 + 20 + 64, s)

/-- `icmp_proc`: an echo request is answered. -/
def icmpProc (h : Host) (page buf : Store) (s : State) : State :=
  let icmp := ipv4Payload buf
  if buf (icmp + 1) = 0 then
    if buf icmp = ICMP_TYPE_ECHO_REQUEST then
      let (send, size, s) := icmpReplyPktCreate h buf page s
      i8254Send send size s
    else s
  else s

/-! ## HTTP -/

/-- Copy `src` to `o + start`, and return its length. -/
def httpStrcpy (dst : Store) (o : Nat) (src : List UInt8) (start : Nat) : Store × Nat :=
  (putList dst (o + start) src, src.length)

/-- The bytes of a text. -/
def ascii (text : String) : List UInt8 := text.toList.map fun c => UInt8.ofNat c.toNat

/-- `tcp_fin`: the next ACK is answered with FIN. -/
def tcpFin (s : State) : State := { s with finFlag := 1 }

/-- `http_proc`: the text of the page, at `o`. -/
def httpProc (send : Store) (o : Nat) (s : State) : Store × Nat × State :=
  let (send, len) := httpStrcpy send o (ascii "HTTP/1.0 200 OK \r\n") 0
  let (send, len') := httpStrcpy send o (ascii "Content-Type: text/html \r\n") len
  let len := len + len'
  let (send, len') := httpStrcpy send o (ascii "\r\nHello World!\r\n") len
  let len := len + len'
  let send := if len % 2 ≠ 0 then put8 send (o + len) 0 else send
  (send, len, tcpFin s)

/-! ## TCP

A `tcp_pkt` at `o`: `src_port` 0, `dst_port` 2, `seq_num` 4, `ack_num` 8, `code_bits` 12,
`window` 14, `chk_sum` 16, `urgent_ptr` 18. -/

/-- The sum of `n` big-endian words, not folded. -/
def wordSum (m : Store) (o : Nat) : Nat → Nat
  | 0 => 0
  | n + 1 => wordSum m o n + ((m (o + n * 2)).toNat <<< 8) + (m (o + n * 2 + 1)).toNat

/-- `tcp_chksum` of the packet whose IPv4 header stands at 14. -/
def tcpChksum (h : Host) (send : Store) : Nat :=
  let dummy := putBytes (fill 0) 0 h.myIp
  let dummy := putBytes dummy 4 (ipv4SrcIp send)
  let dummy := put8 (put8 dummy 8 0) 9 IPV4_TYPE_TCP
  let tcpLen := h2nUshort ((n2hUshort (get16 send 16) + 2 ^ 32 - 20) % 0x10000)
  let dummy := put16 dummy 10 tcpLen
  let sum := wordSum dummy 0 6 + wordSum send 34 (n2hUshort tcpLen / 2)
  complement16 (sum + sum >>> 16)

/-- A segment in answer to `recv`, for the payload at 54. -/
def tcpPktCreate (h : Host) (recv send : Store) (pktType : UInt8) (payloadSize : Nat) (s : State) :
    Store × Nat × State :=
  let tcp := ipv4Payload recv
  let send := ethHeader h (ethSrcMac recv) 0x00 send
  let (send, s) := ipv4Header h recv (20 + 20 + payloadSize) 0x0000 IPV4_TYPE_TCP send s
  let send := put16 send 34 (get16 recv (tcp + 2))
  let send := put16 send 36 (get16 recv tcp)
  let send := put32 send 38 (h2nUint s.seqNum)
  let send := put32 send 42 (get32 recv (tcp + 4) + (1 <<< (8 * 3)))
  let send := put8 (put8 send 46 ((5 : UInt8) <<< 4)) 47 pktType
  let send := put16 send 48 (h2nUshort 14480)
  let send := put16 send 52 0
  let send := put16 send 50 0
  (put16 send 50 (h2nUshort ((tcpChksum h send + 8) % 0x10000)), 14 + 20 + 20 + payloadSize, s)

/-- The answer of `tcp_proc` to a segment with data: an acknowledgement, then the text. -/
def tcpAnswer (h : Host) (buf page : Store) (s : State) : Store × State :=
  let (send, size, s) := tcpPktCreate h buf page TCP_CODEBITS_ACK 0 s
  let s := i8254Send send size s
  let (send, payloadSize, s) := httpProc send (14 + 20 + 20) s
  let (send, size, s) := tcpPktCreate h buf send (TCP_CODEBITS_ACK ||| TCP_CODEBITS_PSH) payloadSize s
  (send, i8254Send send size s)

/-- `tcp_proc` between `kalloc` and `kfree`, with the page that it leaves. -/
def tcpBuild (h : Host) (buf page : Store) (s : State) : Store × State :=
  let tcp := ipv4Payload buf
  let code := buf (tcp + 13)
  if code &&& TCP_CODEBITS_SYN ≠ 0 then
    let (send, size, s) :=
      tcpPktCreate h buf page (TCP_CODEBITS_ACK ||| TCP_CODEBITS_SYN) 0 s
    let s := i8254Send send size s
    (send, { s with seqNum := (s.seqNum + 1) % 2 ^ 32 })
  else if code = TCP_CODEBITS_PSH ||| TCP_CODEBITS_ACK then
    -- the two arms differ in a message on the console
    let (send, s) := if slice buf (tcp + 20) 3 ≠ ascii "GET" then tcpAnswer h buf page s
      else tcpAnswer h buf page s
    (send, { s with seqNum := (s.seqNum + 1) % 2 ^ 32 })
  else if code = TCP_CODEBITS_ACK then
    if s.finFlag = 1 then
      let (send, size, s) := tcpPktCreate h buf page TCP_CODEBITS_FIN 0 s
      (send, { i8254Send send size s with finFlag := 0 })
    else (page, s)
  else (page, s)

/-- `tcp_proc`. -/
def tcpProc (h : Host) (page buf : Store) (s : State) : State :=
  (tcpBuild h buf page s).2

/-! ## Dispatch -/

/-- The part of `ipv4_proc` that decides to whom the packet goes: its protocol, if it is handed on. -/
def ipv4Dispatch (h : Host) (buf : Store) (s : State) : Option UInt8 × State :=
  if s.ipId ≠ ipv4Id buf ∧ h.myIp ≠ ipv4SrcIp buf then
    (if ipv4Protocol buf = IPV4_TYPE_ICMP ∨ ipv4Protocol buf = IPV4_TYPE_TCP then
        some (ipv4Protocol buf) else none,
      { s with ipId := ipv4Id buf })
  else (none, s)

/-- `ipv4_proc`: on to ICMP or TCP. -/
def ipv4Proc (h : Host) (page buf : Store) (s : State) : State :=
  match ipv4Dispatch h buf s with
  | (some protocol, s) =>
    if protocol = IPV4_TYPE_ICMP then icmpProc h page buf s else tcpProc h page buf s
  | (none, s) => s

/-- `eth_proc`: by the type of the frame. -/
def ethProc (h : Host) (page buf : Store) (s : State) : State :=
  if buf 12 = 0x08 ∧ buf 13 = 0x06 then (arpProc h page buf 14 s).2
  else if buf 12 = 0x08 ∧ buf 13 = 0x00 then ipv4Proc h page buf s
  else s

/-- `eth_proc` for the received buffers in order, each with the page that `kalloc` returns then. -/
def ethRun (h : Host) (inputs : List (Store × Store)) (s : State) : State :=
  inputs.foldl (fun s x => ethProc h x.2 x.1 s) s

end Net
