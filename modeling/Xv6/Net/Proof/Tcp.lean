import Xv6.Net.Stack
import Xv6.Base.Always

/-!
# TCP segments

`tcp_proc` answers a segment by its code bits only (`Kind`). All that a segment takes from earlier ones
is its sequence number, `wire seq_num`, and whether an ACK is answered with FIN (`tcpProc_spec`). `wire`
is the number that stands in the frame: `H2N_uint` keeps the low twelve bits only, and moves two of
their three digits.
-/

namespace Net

open Bytes

/-! ## Frames -/

/-- The bytes of a frame, with zeros behind its end. -/
def frameStore (f : Frame) : Store := fun i => f.getD i 0

/-- What the other side reads in a segment. -/
structure Segment where
  seq : Nat
  ack : Nat
  flags : UInt8
  payload : List UInt8
deriving DecidableEq

/-- The segment in a frame. -/
def segment (f : Frame) : Segment where
  seq := be32 (frameStore f) 38
  ack := be32 (frameStore f) 42
  flags := frameStore f 47
  payload := f.drop 54

/-- To whom a frame goes: address and port. -/
def receiver (f : Frame) : Ip × Nat := (getBytes (frameStore f) 30 4, get16 (frameStore f) 36)

/-- Who sent the segment in `buf`. -/
def peerOf (buf : Store) : Ip × Nat := (ipv4SrcIp buf, get16 buf (ipv4Payload buf))

/-- The number that the other side reads where `put32` stored `x`. -/
def swap32 (x : Nat) : Nat := be32 (put32 (fill 0) 0 x) 0

/-- The sequence number in the frame. -/
def wire (seqNum : Nat) : Nat := swap32 (h2nUint seqNum)

/-- The acknowledged number in an answer to `buf`. -/
def ackOf (buf : Store) : Nat := swap32 (get32 buf (ipv4Payload buf + 4) + (1 <<< (8 * 3)))

section
variable {h : Host} {recv send : Store} {ty : UInt8} {n : Nat} {s : State} {m : Store} {i : Nat}

theorem frameStore_slice {k : Nat} (hi : i < k) : frameStore (slice m 0 k) i = m i := by
  rw [frameStore, getD_slice m 0 hi, Nat.zero_add]

theorem be32_put32_swap (m : Store) (o x : Nat) : be32 (put32 m o x) o = swap32 x := by
  rw [swap32, be32_put32, be32_put32]

theorem be32_of_put32 {o x : Nat} (hm : ∀ i, o ≤ i → i < o + 4 → m i = put32 (fill 0) o x i) :
    be32 m o = swap32 x := by
  rw [be32_congr hm, be32_put32_swap]

/-- The fields of the frame `m` that `tcp_pkt_create` builds. -/
structure Built (h : Host) (recv send : Store) (ty : UInt8) (n : Nat) (s : State) (m : Store) : Prop where
  totalLen : get16 m 16 = h2nUshort (20 + 20 + n) % 65536
  srcIp : getBytes m 26 4 = h.myIp
  dstIp : getBytes m 30 4 = ipv4SrcIp recv
  srcPort : get16 m 34 = get16 recv (ipv4Payload recv + 2)
  dstPort : get16 m 36 = get16 recv (ipv4Payload recv)
  seqNum : be32 m 38 = wire s.seqNum
  ackNum : be32 m 42 = ackOf recv
  dataOffset : m 46 = 0x50
  flags : m 47 = ty
  window : get16 m 48 = h2nUshort 14480
  chkSum : m 50 = 0 ∧ m 51 = 0
  urgentPtr : get16 m 52 = 0
  payload : ∀ i, 54 ≤ i → m i = send i

theorem tcpPktCreate_built (h : Host) (recv send : Store) (ty : UInt8) (n : Nat) (s : State) : ∃ m,
    (tcpPktCreate h recv send ty n s).1 = put16 m 50 (h2nUshort ((tcpChksum h m + 8) % 0x10000)) ∧
      Built h recv send ty n s m := by
  refine ⟨_, rfl, ?_, ?_, ?_, ?_, ?_, ?_, ?_, ?_, ?_, ?_, ?_, ?_, fun i hi => ?_⟩
  · refine get16_of_put16 fun i h1 h2 => ?_
    simp (disch := omega) only [put16_other, put8_other, put32_other, putBytes_other]
    exact put16_congr h1 h2
  · funext i
    simp (disch := omega) only [getBytes, put16_other, put8_other, put32_other,
      putBytes_other, putBytes_at]
  · funext i
    simp (disch := omega) only [getBytes, put16_other, put8_other, put32_other, putBytes_at]
  · refine (get16_of_put16 fun i h1 h2 => ?_).trans (Nat.mod_eq_of_lt (get16_lt recv _))
    simp (disch := omega) only [put16_other, put8_other, put32_other]
    exact put16_congr h1 h2
  · refine (get16_of_put16 fun i h1 h2 => ?_).trans (Nat.mod_eq_of_lt (get16_lt recv _))
    simp (disch := omega) only [put16_other, put8_other, put32_other]
    exact put16_congr h1 h2
  · refine be32_of_put32 fun i h1 h2 => ?_
    simp (disch := omega) only [put16_other, put8_other, put32_other]
    exact put32_congr h1 h2
  · refine be32_of_put32 fun i h1 h2 => ?_
    simp (disch := omega) only [put16_other, put8_other]
    exact put32_congr h1 h2
  · simp (disch := omega) only [put16_other, put8_other, put8_self]
    rfl
  · simp (disch := omega) only [put16_other, put8_self]
  · refine (get16_of_put16 (x := h2nUshort 14480) fun i h1 h2 => ?_).trans (by decide)
    simp (disch := omega) only [put16_other]
    exact put16_congr h1 h2
  · exact ⟨rfl, rfl⟩
  · refine (get16_of_put16 fun i h1 h2 => ?_).trans (Nat.zero_mod _)
    rw [put16_other _ _ (by omega) (by omega)]
    exact put16_congr h1 h2
  · simp (disch := omega) only [ethHeader, putBytes_other, put16_other, put32_other,
      put8_other]

theorem segment_tcpPktCreate : segment (slice (tcpPktCreate h recv send ty n s).1 0 (54 + n)) =
      ⟨wire s.seqNum, ackOf recv, ty, slice send 54 n⟩ := by
  obtain ⟨m, hm, hb⟩ := tcpPktCreate_built h recv send ty n s
  have hstore : ∀ i < 50, frameStore (slice (tcpPktCreate h recv send ty n s).1 0 (54 + n)) i = m i :=
    fun i hi => by rw [frameStore_slice (by omega), hm, put16_other _ _ (by omega) (by omega)]
  have hpay : (slice (tcpPktCreate h recv send ty n s).1 0 (54 + n)).drop 54 = slice send 54 n := by
    rw [drop_slice, Nat.zero_add, hm]
    exact slice_congr fun i h1 _ => by rw [put16_other _ _ (by omega) (by omega), hb.payload i h1]
  rw [segment, hpay, hstore 47 (by decide), hb.flags, be32_congr fun i _ h2 => hstore i (by omega),
    hb.seqNum, be32_congr fun i _ h2 => hstore i (by omega), hb.ackNum]

theorem receiver_tcpPktCreate :
    receiver (slice (tcpPktCreate h recv send ty n s).1 0 (54 + n)) = peerOf recv := by
  obtain ⟨m, hm, hb⟩ := tcpPktCreate_built h recv send ty n s
  have hstore : ∀ i < 50, frameStore (slice (tcpPktCreate h recv send ty n s).1 0 (54 + n)) i = m i :=
    fun i hi => by rw [frameStore_slice (by omega), hm, put16_other _ _ (by omega) (by omega)]
  rw [receiver, peerOf, getBytes_congr fun i _ h2 => hstore i (by omega), hb.dstIp,
    get16_congr fun i _ h2 => hstore i (by omega), hb.dstPort]

end

/-! ## The answers -/

/-- The text of `http_proc`. -/
def httpText : List UInt8 :=
  ascii "HTTP/1.0 200 OK \r\n" ++ ascii "Content-Type: text/html \r\n" ++
    ascii "\r\nHello World!\r\n"

inductive Kind
  | syn
  | push
  | ack
  | other
deriving DecidableEq

/-- The branch of `tcp_proc` that `buf` takes. -/
def kindOf (buf : Store) : Kind :=
  let code := buf (ipv4Payload buf + 13)
  if code &&& TCP_CODEBITS_SYN ≠ 0 then .syn
  else if code = TCP_CODEBITS_PSH ||| TCP_CODEBITS_ACK then .push
  else if code = TCP_CODEBITS_ACK then .ack
  else .other

namespace Kind

/-- The flags and the payload of each answer. -/
def answers (finFlag : Int) : Kind → List (UInt8 × List UInt8)
  | syn => [(TCP_CODEBITS_ACK ||| TCP_CODEBITS_SYN, [])]
  | push => [(TCP_CODEBITS_ACK, []), (TCP_CODEBITS_ACK ||| TCP_CODEBITS_PSH, httpText)]
  | ack => if finFlag = 1 then [(TCP_CODEBITS_FIN, [])] else []
  | other => []

/-- `fin_flag` after the segment. -/
def fin (finFlag : Int) : Kind → Int
  | push => 1
  | ack => if finFlag = 1 then 0 else finFlag
  | _ => finFlag

/-- How far the segment moves `seq_num`. -/
def advance : Kind → Nat
  | syn | push => 1
  | _ => 0

end Kind

section
variable {h : Host} {page buf send : Store} {s : State} {o : Nat}

theorem slice_httpStrcpy {m : Store} (pre src : List UInt8) (hp : slice m o pre.length = pre) :
    slice (httpStrcpy m o src pre.length).1 o (pre ++ src).length = pre ++ src := by
  rw [List.length_append, slice_add]
  congr 1
  · rw [← hp, length_slice]
    exact slice_congr fun i _ hi => putList_other _ _ (by omega)
  · exact slice_putList ..

theorem httpProc_text : slice (httpProc send o s).1 o 60 = httpText := by
  have h0 : slice send o ([] : List UInt8).length = [] := rfl
  have h1 := slice_httpStrcpy [] (ascii "HTTP/1.0 200 OK \r\n") h0
  have h2 := slice_httpStrcpy _ (ascii "Content-Type: text/html \r\n") h1
  exact slice_httpStrcpy _ (ascii "\r\nHello World!\r\n") h2

theorem tcpAnswer_spec (h : Host) (page buf : Store) (s : State) : ∃ f g,
    (tcpAnswer h buf page s).2 = { s with
      sendId := ((s.sendId + 1) % 0x10000 + 1) % 0x10000, finFlag := 1, sent := s.sent ++ [f] ++ [g] } ∧
    segment f = ⟨wire s.seqNum, ackOf buf, TCP_CODEBITS_ACK, []⟩ ∧
    segment g = ⟨wire s.seqNum, ackOf buf, TCP_CODEBITS_ACK ||| TCP_CODEBITS_PSH, httpText⟩ ∧
    receiver f = peerOf buf ∧ receiver g = peerOf buf := by
  let r := tcpPktCreate h buf page TCP_CODEBITS_ACK 0 s
  let q := httpProc r.1 54 (i8254Send r.1 54 r.2.2)
  refine ⟨slice r.1 0 (54 + 0), slice (tcpPktCreate h buf q.1
      (TCP_CODEBITS_ACK ||| TCP_CODEBITS_PSH) 60 q.2.2).1 0 (54 + 60), rfl, segment_tcpPktCreate, ?_,
    receiver_tcpPktCreate, receiver_tcpPktCreate⟩
  rw [segment_tcpPktCreate, httpProc_text]
  rfl

/-- **What `tcp_proc` does** with a segment. -/
theorem tcpProc_spec (h : Host) (page buf : Store) (s : State) : ∃ fs,
    (tcpProc h page buf s).sent = s.sent ++ fs ∧
    fs.map segment = ((kindOf buf).answers s.finFlag).map
      (fun a => ⟨wire s.seqNum, ackOf buf, a.1, a.2⟩) ∧
    (∀ f ∈ fs, receiver f = peerOf buf) ∧
    (tcpProc h page buf s).finFlag = (kindOf buf).fin s.finFlag ∧
    (tcpProc h page buf s).seqNum % 2 ^ 32 = (s.seqNum + (kindOf buf).advance) % 2 ^ 32 := by
  unfold tcpProc tcpBuild kindOf
  dsimp only
  by_cases h1 : buf (ipv4Payload buf + 13) &&& TCP_CODEBITS_SYN ≠ 0
  · rw [if_pos h1, if_pos h1]
    refine ⟨[slice _ 0 (54 + 0)], rfl, ?_, ?_, rfl, Nat.mod_mod ..⟩
    · rw [List.map_singleton, segment_tcpPktCreate]
      rfl
    · intro f hf
      rw [List.mem_singleton.1 hf, receiver_tcpPktCreate]
  rw [if_neg h1, if_neg h1]
  by_cases h2 : buf (ipv4Payload buf + 13) = TCP_CODEBITS_PSH ||| TCP_CODEBITS_ACK
  · rw [if_pos h2, if_pos h2, ite_self]
    obtain ⟨f, g, he, hf, hg, hf', hg'⟩ := tcpAnswer_spec h page buf s
    rw [he]
    refine ⟨[f, g], List.append_assoc .., ?_, ?_, rfl, Nat.mod_mod ..⟩
    · rw [List.map_cons, List.map_singleton, hf, hg]
      rfl
    · intro x hx
      rcases List.mem_pair.1 hx with rfl | rfl
      · exact hf'
      · exact hg'
  rw [if_neg h2, if_neg h2]
  by_cases h3 : buf (ipv4Payload buf + 13) = TCP_CODEBITS_ACK
  · rw [if_pos h3, if_pos h3]
    by_cases h4 : s.finFlag = 1
    · rw [if_pos h4]
      refine ⟨[slice _ 0 (54 + 0)], rfl, ?_, ?_, (if_pos h4).symm, rfl⟩
      · rw [List.map_singleton, segment_tcpPktCreate, Kind.answers, if_pos h4]
        rfl
      · intro f hf
        rw [List.mem_singleton.1 hf, receiver_tcpPktCreate]
    · rw [if_neg h4, Kind.answers, if_neg h4]
      exact ⟨[], (List.append_nil _).symm, rfl, fun _ h => absurd h List.not_mem_nil,
        (if_neg h4).symm, rfl⟩
  · rw [if_neg h3, if_neg h3]
    exact ⟨[], (List.append_nil _).symm, rfl, fun _ h => absurd h List.not_mem_nil, rfl, rfl⟩

end

/-! ## Sequence numbers on the wire -/

theorem and_mask (v w k : Nat) : v &&& ((2 ^ w - 1) <<< k) = v / 2 ^ k % 2 ^ w * 2 ^ k := by
  have h : v &&& ((2 ^ w - 1) <<< k) = ((v >>> k) &&& (2 ^ w - 1)) <<< k := by
    refine Nat.eq_of_testBit_eq fun i => ?_
    simp only [Nat.testBit_and, Nat.testBit_shiftLeft, Nat.testBit_shiftRight]
    by_cases hk : k ≤ i
    · simp [hk]
    · simp [hk]
  rw [h, Nat.shiftLeft_eq, Nat.shiftRight_eq_div_pow, Nat.and_two_pow_sub_one_eq_mod]

theorem h2nUint_eq (v : Nat) :
    h2nUint v = v % 16 * 2 ^ 24 + v / 16 % 16 * 2 ^ 12 + v / 256 % 16 := by
  have h0 : v &&& 0xF = v % 16 := Nat.and_two_pow_sub_one_eq_mod v 4
  have h1 : v &&& 0xF0 = v / 16 % 16 * 16 := and_mask v 4 4
  have h2 : v &&& 0xF00 = v / 256 % 16 * 256 := and_mask v 4 8
  have h3 : v &&& 0xF000 = v / 4096 % 16 * 4096 := and_mask v 4 12
  simp only [h2nUint, h0, h1, h2, h3, Nat.shiftLeft_eq, Nat.shiftRight_eq_div_pow]
  omega

theorem n2hUint_eq (v : Nat) : n2hUint v = swap32 v := by
  have h0 : v &&& 0xFF = v % 256 := Nat.and_two_pow_sub_one_eq_mod v 8
  have h1 : v &&& 0xFF00 = v / 2 ^ 8 % 256 * 2 ^ 8 := and_mask v 8 8
  have h2 : v &&& 0xFF0000 = v / 2 ^ 16 % 256 * 2 ^ 16 := and_mask v 8 16
  have h3 : v &&& 0xFF000000 = v / 2 ^ 24 % 256 * 2 ^ 24 := and_mask v 8 24
  rw [swap32, be32_put32]
  simp only [n2hUint, h0, h1, h2, h3, Nat.shiftLeft_eq, Nat.shiftRight_eq_div_pow]
  omega

/-- Three digits are left, in another order. -/
theorem wire_digits (v : Nat) : ∃ a b c, a < 16 ∧ b < 16 ∧ c < 16 ∧ v % 4096 = c * 256 + b * 16 + a ∧
    wire v = c * 2 ^ 24 + b * 2 ^ 20 + a := by
  refine ⟨v % 16, v / 16 % 16, v / 256 % 16, Nat.mod_lt _ (by decide), Nat.mod_lt _ (by decide),
    Nat.mod_lt _ (by decide), by omega, ?_⟩
  rw [wire, swap32, be32_put32, h2nUint_eq]
  have ha : v % 16 < 16 := Nat.mod_lt _ (by decide)
  have hb : v / 16 % 16 < 16 := Nat.mod_lt _ (by decide)
  have hc : v / 256 % 16 < 16 := Nat.mod_lt _ (by decide)
  generalize v % 16 = a at *
  generalize v / 16 % 16 = b at *
  generalize v / 256 % 16 = c at *
  omega

/-- **A sequence number is sent as it is** if it has one digit only. -/
theorem wire_eq_self {v : Nat} (hv : v < 2 ^ 32) : wire v = v ↔ v < 16 := by
  obtain ⟨a, b, c, _, _, _, hd, hw⟩ := wire_digits v
  omega

theorem swap32_digits {a b c d : Nat} (ha : a < 256) (hb : b < 256) (hc : c < 256) (hd : d < 256) :
    swap32 (d * 2 ^ 24 + c * 2 ^ 16 + b * 2 ^ 8 + a) = a * 2 ^ 24 + b * 2 ^ 16 + c * 2 ^ 8 + d := by
  rw [swap32, be32_put32]
  omega

theorem exists_digits {x : Nat} (hx : x < 2 ^ 32) : ∃ a < 256, ∃ b < 256, ∃ c < 256, ∃ d < 256,
    x = d * 2 ^ 24 + c * 2 ^ 16 + b * 2 ^ 8 + a :=
  ⟨x % 256, Nat.mod_lt _ (by decide), x / 2 ^ 8 % 256, Nat.mod_lt _ (by decide),
    x / 2 ^ 16 % 256, Nat.mod_lt _ (by decide), x / 2 ^ 24, by omega, by omega⟩

theorem swap32_swap32 {x : Nat} (hx : x < 2 ^ 32) : swap32 (swap32 x) = x := by
  obtain ⟨a, ha, b, hb, c, hc, d, hd, rfl⟩ := exists_digits hx
  rw [swap32_digits ha hb hc hd, swap32_digits hd hc hb ha]

theorem swap32_lt_sixteen {x : Nat} (hx : x < 2 ^ 32) : swap32 x < 16 ↔ x % 2 ^ 24 = 0 ∧ x < 2 ^ 28 := by
  obtain ⟨a, ha, b, hb, c, hc, d, hd, rfl⟩ := exists_digits hx
  rw [swap32_digits ha hb hc hd]
  constructor
  · intro h
    obtain ⟨rfl, rfl, rfl⟩ : a = 0 ∧ b = 0 ∧ c = 0 := ⟨by omega, by omega, by omega⟩
    omega
  · omega

theorem h2nUint_swap32 {x : Nat} (hx : x < 2 ^ 32) :
    h2nUint (swap32 x) = x ↔ x % 2 ^ 24 = 0 ∧ x < 2 ^ 28 := by
  have hlt : ∀ v, h2nUint v < 2 ^ 32 := fun v => by rw [h2nUint_eq]; omega
  have hlt' : swap32 x < 2 ^ 32 := by rw [swap32, be32_put32]; omega
  rw [← swap32_lt_sixteen hx, ← wire_eq_self hlt', wire]
  exact ⟨fun h => congrArg swap32 h, fun h => by rw [← swap32_swap32 (hlt _), h, swap32_swap32 hx]⟩

/-- **`H2N_uint` and `N2H_uint`** are inverse to each other on a single digit only. -/
theorem h2nUint_inverse {x : Nat} (hx : x < 2 ^ 32) (m : Store) (o : Nat) :
    (be32 (put32 m o (h2nUint x)) o = x ↔ x < 16) ∧ (n2hUint (h2nUint x) = x ↔ x < 16) ∧
      (h2nUint (n2hUint x) = x ↔ x % 2 ^ 24 = 0 ∧ x < 2 ^ 28) := by
  rw [be32_put32_swap, n2hUint_eq, n2hUint_eq]
  exact ⟨wire_eq_self hx, wire_eq_self hx, h2nUint_swap32 hx⟩

theorem h2nUint_inverse_fifteen : be32 (put32 (fill 0) 0 (h2nUint 15)) 0 = 15 ∧
    n2hUint (h2nUint 15) = 15 ∧ h2nUint (n2hUint (15 * 2 ^ 24)) = 15 * 2 ^ 24 :=
  have h := h2nUint_inverse (x := 15) (by decide) (fill 0) 0
  have h' := h2nUint_inverse (x := 15 * 2 ^ 24) (by decide) (fill 0) 0
  ⟨h.1.2 (by decide), h.2.1.2 (by decide), h'.2.2.2 (by decide)⟩

theorem h2nUint_inverse_sixteen : be32 (put32 (fill 0) 0 (h2nUint 16)) 0 ≠ 16 ∧
    n2hUint (h2nUint 16) ≠ 16 ∧ h2nUint (n2hUint 16) ≠ 16 := by
  decide

/-- Numbers that agree modulo 4096 look the same in a frame. -/
theorem wire_inj {v w : Nat} : wire v = wire w ↔ v % 4096 = w % 4096 := by
  obtain ⟨a, b, c, _, _, _, hv, hwv⟩ := wire_digits v
  obtain ⟨a', b', c', _, _, _, hw, hww⟩ := wire_digits w
  rw [hv, hw, hwv, hww]
  omega

theorem wire_succ {v w : Nat} (h : w % 2 ^ 32 = (v + 1) % 2 ^ 32) :
    wire w = (wire v + 1) % 2 ^ 32 ↔ v % 16 ≠ 15 := by
  have h : w % 4096 = (v % 4096 + 1) % 4096 := by omega
  have h16 : v % 16 = v % 4096 % 16 := by omega
  obtain ⟨a, b, c, _, _, _, hv, hwv⟩ := wire_digits v
  obtain ⟨a', b', c', _, _, _, hw, hww⟩ := wire_digits w
  rw [h16, hwv, hww]
  rw [hv] at h ⊢
  rw [hw] at h
  omega

theorem wire_jump {v w : Nat} (h : w % 2 ^ 32 = (v + 2) % 2 ^ 32) :
    wire w ≠ (wire v + 1 + 60) % 2 ^ 32 := by
  have h : w % 4096 = (v % 4096 + 2) % 4096 := by omega
  obtain ⟨a, b, c, _, _, _, hv, hwv⟩ := wire_digits v
  obtain ⟨a', b', c', _, _, _, hw, hww⟩ := wire_digits w
  rw [hwv, hww]
  rw [hv, hw] at h
  omega

end Net
