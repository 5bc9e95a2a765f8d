import Xv6.Net.Proof.ArpTable
import Xv6.Net.Proof.Connections
import Xv6.Net.Proof.Received

/-!
# What is answered

`Answered` are the IPv4 packets that make `eth_proc` send something or change the state of TCP
(`acts_iff`); the address that they are sent to does not matter for it.
-/

namespace Net

open Bytes

/-! ## Whose packets -/

def ipv4DstIp (buf : Store) : Ip := getBytes buf 30 4

def Addressed (h : Host) (buf : Store) : Prop :=
  (buf 12 = 0x08 ∧ buf 13 = 0x06 ∧ arpDstIp buf 14 = h.myIp) ∨
    (buf 12 = 0x08 ∧ buf 13 = 0x00 ∧ ipv4DstIp buf = h.myIp)

def Acts (s s' : State) : Prop := s'.sent ≠ s.sent ∨ s'.seqNum ≠ s.seqNum ∨ s'.finFlag ≠ s.finFlag

def IsEcho (buf : Store) : Prop :=
  buf (ipv4Payload buf + 1) = 0 ∧ buf (ipv4Payload buf) = ICMP_TYPE_ECHO_REQUEST

/-- A SYN, a PSH|ACK, or an ACK while `fin_flag` is set. -/
def TcpAnswered (buf : Store) (finFlag : Int) : Prop :=
  buf (ipv4Payload buf + 13) &&& TCP_CODEBITS_SYN ≠ 0 ∨
  buf (ipv4Payload buf + 13) = TCP_CODEBITS_PSH ||| TCP_CODEBITS_ACK ∨
  buf (ipv4Payload buf + 13) = TCP_CODEBITS_ACK ∧ finFlag = 1

/-- An IPv4 packet of another host with another identification than the last one, that is an echo
request or a segment that is answered. -/
def Answered (h : Host) (s : State) (buf : Store) : Prop :=
  buf 12 = 0x08 ∧ buf 13 = 0x00 ∧ s.ipId ≠ ipv4Id buf ∧ h.myIp ≠ ipv4SrcIp buf ∧
    (ipv4Protocol buf = IPV4_TYPE_ICMP ∧ IsEcho buf ∨
      ipv4Protocol buf = IPV4_TYPE_TCP ∧ TcpAnswered buf s.finFlag)

section
variable {h : Host} {page buf : Store} {s : State} {n : Nat}

theorem Acts.of_sent {s' : State} {f : Frame} {fs : List Frame} (hs : s'.sent = s.sent ++ f :: fs) :
    Acts s s' := .inl fun h => by simp [hs] at h

theorem not_acts (s : State) : ¬ Acts s s := by simp [Acts]

theorem icmpProc_echo (he : IsEcho buf) : icmpProc h page buf s =
    i8254Send (icmpReplyPktCreate h buf page s).1 98 (icmpReplyPktCreate h buf page s).2.2 := by
  rw [icmpProc, if_pos he.1, if_pos he.2]
  rfl

theorem icmpProc_other (he : ¬ IsEcho buf) : icmpProc h page buf s = s := by
  unfold icmpProc
  dsimp only
  split_ifs with h1 h2
  · exact absurd ⟨h1, h2⟩ he
  · rfl
  · rfl

theorem icmpProc_acts : Acts s (icmpProc h page buf s) ↔ IsEcho buf := by
  by_cases he : IsEcho buf
  · exact iff_of_true (.of_sent (by rw [icmpProc_echo he]; rfl)) he
  · rw [icmpProc_other he]
    exact iff_of_false (not_acts s) he

theorem tcpProc_unanswered (hk : ¬ TcpAnswered buf s.finFlag) : tcpProc h page buf s = s := by
  simp only [TcpAnswered, not_or, not_and] at hk
  obtain ⟨h1, h2, h3⟩ := hk
  rw [tcpProc, tcpBuild]
  simp only
  rw [if_neg h1, if_neg h2]
  split_ifs with h4 h5
  · exact absurd h5 (h3 h4)
  · rfl
  · rfl

theorem answers_nil {finFlag : Int} (hk : (kindOf buf).answers finFlag = []) :
    ¬ TcpAnswered buf finFlag := by
  unfold kindOf at hk
  dsimp only at hk
  split_ifs at hk with h1 h2 h3
  · cases hk
  · cases hk
  · rw [Kind.answers, ite_eq_right_iff] at hk
    rintro (h | h | h)
    · exact h1 h
    · exact h2 h
    · exact List.cons_ne_nil _ _ (hk h.2)
  · rintro (h | h | h)
    · exact h1 h
    · exact h2 h
    · exact h3 h.1

theorem tcpProc_acts : Acts s (tcpProc h page buf s) ↔ TcpAnswered buf s.finFlag := by
  by_cases hk : TcpAnswered buf s.finFlag
  · obtain ⟨fs, hfs, hseg, -⟩ := tcpProc_spec h page buf s
    cases fs with
    | nil => exact absurd hk (answers_nil (List.map_eq_nil_iff.1 hseg.symm))
    | cons f fs => exact iff_of_true (.of_sent hfs) hk
  · rw [tcpProc_unanswered hk]
    exact iff_of_false (not_acts s) hk

theorem ipv4Proc_acts (h12 : buf 12 = 0x08) (h13 : buf 13 = 0x00) :
    Acts s (ipv4Proc h page buf s) ↔ Answered h s buf := by
  have hacts : ∀ s', Acts { s with ipId := ipv4Id buf } s' ↔ Acts s s' := fun _ => Iff.rfl
  rw [ipv4Proc, ipv4Dispatch, Answered]
  by_cases hnew : s.ipId ≠ ipv4Id buf ∧ h.myIp ≠ ipv4SrcIp buf
  · rw [if_pos hnew]
    by_cases hi : ipv4Protocol buf = IPV4_TYPE_ICMP
    · rw [if_pos (.inl hi)]
      simp only
      rw [if_pos hi, ← hacts, icmpProc_acts]
      simp [h12, h13, hnew, hi, show IPV4_TYPE_ICMP ≠ IPV4_TYPE_TCP by decide]
    · by_cases ht : ipv4Protocol buf = IPV4_TYPE_TCP
      · rw [if_pos (.inr ht)]
        simp only
        rw [if_neg hi, ← hacts, tcpProc_acts]
        simp [h12, h13, hnew, ht, show IPV4_TYPE_TCP ≠ IPV4_TYPE_ICMP by decide]
      · rw [if_neg (not_or.2 ⟨hi, ht⟩)]
        simp [Acts, hi, ht]
  · rw [if_neg hnew]
    exact iff_of_false (not_acts s) fun ha => hnew ⟨ha.2.2.1, ha.2.2.2.1⟩

theorem arpProc_acts : Acts s (arpProc h page buf 14 s).2 ↔ IsRequest h buf 14 := by
  by_cases hq : IsRequest h buf 14
  · rw [arpProc_request hq]
    exact iff_of_true (.of_sent rfl) hq
  · refine iff_of_false ?_ hq
    by_cases hr : IsReply h buf 14
    · rw [arpProc_reply hr]
      exact not_acts s
    · rw [arpProc_other hq hr]
      exact not_acts s

theorem acts_iff : Acts s (ethProc h page buf s) ↔
    (buf 12 = 0x08 ∧ buf 13 = 0x06 ∧ IsRequest h buf 14) ∨ Answered h s buf := by
  unfold ethProc
  split_ifs with h1 h2
  · rw [arpProc_acts]
    simp [h1, Answered]
  · rw [ipv4Proc_acts h2.1 h2.2]
    simp [h2]
  · refine iff_of_false (not_acts s) ?_
    rintro (⟨h3, h4, -⟩ | ⟨h3, h4, -⟩)
    · exact h1 ⟨h3, h4⟩
    · exact h2 ⟨h3, h4⟩

/-- **The host answers its own traffic only** as far as the answered IPv4 packets are sent to it. -/
theorem answers_own_traffic : (Acts s (ethProc h page buf s) → Addressed h buf) ↔
    (Answered h s buf → ipv4DstIp buf = h.myIp) := by
  rw [acts_iff]
  constructor
  · intro hall ha
    rcases hall (.inr ha) with ⟨-, h13, -⟩ | ⟨-, -, hd⟩
    · exact absurd (h13.symm.trans ha.2.1) (by decide)
    · exact hd
  · rintro hd (⟨h12, h13, hq⟩ | ha)
    · exact .inl ⟨h12, h13, hq.1.dstIp⟩
    · exact .inr ⟨ha.1, ha.2.1, hd ha⟩

end

def echoRequest (n : UInt8) : Store :=
  putBytes (putBytes (put8 (put8 (put8 (put8 (put8 (fill 0) 12 0x08) 14 0x45) 17 (28 + n)) 23
    IPV4_TYPE_ICMP) 34 ICMP_TYPE_ECHO_REQUEST) 26 (![10, 0, 1, 2] : Ip)) 30 (![10, 0, 1, 3] : Ip)

theorem answers_own_traffic_other : Acts .init
      (ethProc ⟨fun _ => 0, ![10, 0, 1, 10]⟩ (fill 0) (echoRequest 56) .init) ∧
    ¬ Addressed ⟨fun _ => 0, ![10, 0, 1, 10]⟩ (echoRequest 56) := by
  constructor
  · rw [acts_iff]
    exact .inr ⟨rfl, rfl, by decide, by decide, .inl ⟨by decide, by decide, by decide⟩⟩
  · rintro (⟨-, h13, -⟩ | ⟨-, -, hd⟩)
    · exact absurd h13 (by decide)
    · exact absurd (congrFun hd 3) (by decide)

/-! ## Echo replies -/

structure EchoRequest (buf : Store) (n : Nat) : Prop where
  headerLen : 5 ≤ (buf 14 &&& 0xF).toNat
  echo : IsEcho buf
  totalLen : n2hUshort (get16 buf 16) = (buf 14 &&& 0xF).toNat * 4 + 8 + n

structure Mirrors (buf : Store) (n : Nat) (f : Frame) : Prop where
  dstMac : getBytes (frameStore f) 0 6 = ethSrcMac buf
  dstIp : getBytes (frameStore f) 30 4 = ipv4SrcIp buf
  totalLen : n2hUshort (get16 (frameStore f) 16) = 20 + 8 + n
  type : frameStore f 34 = ICMP_TYPE_ECHO_REPLY
  ident : get16 (frameStore f) 38 = get16 buf (ipv4Payload buf + 4)
  seqNum : get16 (frameStore f) 40 = get16 buf (ipv4Payload buf + 6)
  data : f.drop 42 = slice buf (ipv4Payload buf + 8) n
  length : f.length = 14 + 20 + 8 + n

section
variable {h : Host} {page buf : Store} {s : State} {n : Nat}

theorem icmpReply_mirrors : Mirrors buf 56 (slice (icmpReplyPktCreate h buf page s).1 0 98) := by
  have hstore : ∀ i < 98, frameStore (slice (icmpReplyPktCreate h buf page s).1 0 98) i =
      (icmpReplyPktCreate h buf page s).1 i := fun i hi => frameStore_slice hi
  constructor
  · rw [getBytes_congr fun i _ h2 => hstore i (by omega)]
    funext i
    simp (disch := omega) only [getBytes, icmpReplyPktCreate, ipv4Header, ethHeader, put16_other,
      put8_other, putBytes_other, putBytes_at]
  · rw [getBytes_congr fun i _ h2 => hstore i (by omega)]
    funext i
    simp (disch := omega) only [getBytes, icmpReplyPktCreate, ipv4Header, put16_other, put8_other,
      putBytes_other, putBytes_at]
  · rw [get16_congr fun i _ h2 => hstore i (by omega), get16_of_put16 (x := h2nUshort (20 + 64))]
    · decide
    · intro i h1 h2
      simp (disch := omega) only [icmpReplyPktCreate, ipv4Header, put16_other, put8_other,
        putBytes_other]
      exact put16_congr h1 h2
  · rw [hstore 34 (by decide)]
    simp (disch := omega) only [icmpReplyPktCreate, put16_other, put8_other, putBytes_other, put8_self]
  · rw [get16_congr fun i _ h2 => hstore i (by omega),
      get16_of_put16 (x := get16 buf (ipv4Payload buf + 4)), Nat.mod_eq_of_lt (get16_lt ..)]
    intro i h1 h2
    simp (disch := omega) only [icmpReplyPktCreate, put16_other, putBytes_other]
    exact put16_congr h1 h2
  · rw [get16_congr fun i _ h2 => hstore i (by omega),
      get16_of_put16 (x := get16 buf (ipv4Payload buf + 6)), Nat.mod_eq_of_lt (get16_lt ..)]
    intro i h1 h2
    simp (disch := omega) only [icmpReplyPktCreate, put16_other, putBytes_other]
    exact put16_congr h1 h2
  · rw [show 98 = 42 + 56 from rfl, drop_slice]
    refine List.map_congr_left fun i hi => ?_
    have hi := List.mem_range.1 hi
    by_cases h8 : i < 8
    · simp (disch := omega) only [icmpReplyPktCreate, put16_other, putBytes_other]
      exact putBytes_at _ 42 _ ⟨i, h8⟩
    · obtain ⟨j, rfl⟩ := Nat.exists_eq_add_of_le (Nat.le_of_not_lt h8)
      rw [show 0 + 42 + (8 + j) = 50 + j by omega, icmpReplyPktCreate_data (by omega)]
      exact congrArg buf (by omega)
  · rw [length_slice]

theorem mirrors_len {f : Frame} (he : IsEcho buf) (hf : (icmpProc h page buf s).sent = s.sent ++ [f])
    (hm : Mirrors buf n f) : n = 56 := by
  have hlen := hm.length
  rw [icmpProc_echo he] at hf
  rw [← List.singleton_inj.1 (List.append_cancel_left hf), length_slice] at hlen
  omega

/-- **The reply to an echo request** mirrors it if it has 56 bytes of data. -/
theorem echo_mirrored (he : EchoRequest buf n) :
    (∃ f, (icmpProc h page buf s).sent = s.sent ++ [f] ∧ Mirrors buf n f) ↔ n = 56 := by
  constructor
  · rintro ⟨f, hf, hm⟩
    exact mirrors_len he.echo hf hm
  · rintro rfl
    rw [icmpProc_echo he.echo]
    exact ⟨_, rfl, icmpReply_mirrors⟩

end

theorem echo_mirrored_sample : ∃ f, (icmpProc ⟨fun _ => 0, ![10, 0, 1, 10]⟩ (fill 0)
    (echoRequest 56) .init).sent = [f] ∧ Mirrors (echoRequest 56) 56 f :=
  (echo_mirrored (s := .init) ⟨by decide, ⟨by decide, by decide⟩, by decide⟩).2 rfl

theorem echo_mirrored_short : EchoRequest (echoRequest 8) 8 ∧
    ¬ ∃ f, (icmpProc ⟨fun _ => 0, ![10, 0, 1, 10]⟩ (fill 0) (echoRequest 8) .init).sent = [f] ∧
      Mirrors (echoRequest 8) 8 f := by
  have he : IsEcho (echoRequest 8) := ⟨by decide, by decide⟩
  refine ⟨⟨by decide, he, by decide⟩, ?_⟩
  rintro ⟨f, hf, hm⟩
  exact absurd (mirrors_len (s := .init) he hf hm) (by decide)

end Net
