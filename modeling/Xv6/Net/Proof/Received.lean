import Xv6.Net.Proof.Tcp

/-!
# What is read of a received frame

`eth_proc` gets the address of the buffer, not the length of the frame. `ethNeeds` is how many bytes
it depends on. Of earlier frames only `ip_id` matters for whether an IPv4 packet is handed on, and that
is the identification of the last IPv4 packet of another host (`ethRun_ipId`).
-/

namespace Net

open Bytes

/-! ## Bytes -/

def Agree (n : Nat) (b b' : Store) : Prop := ∀ i < n, b i = b' i

/-- How many bytes of an IPv4 frame matter, by the protocol it is handed on for. -/
def ipv4Needs (handler : Option UInt8) (b : Store) : Nat :=
  match handler with
  | none => 30
  | some protocol =>
    if protocol = IPV4_TYPE_ICMP then
      if b (ipv4Payload b + 1) = 0 ∧ b (ipv4Payload b) = ICMP_TYPE_ECHO_REQUEST then
        ipv4Payload b + 64
      else max 30 (ipv4Payload b + 2)
    else max 30 (ipv4Payload b + 14)

/-- How many bytes of the frame in `b` determine what `eth_proc` does. -/
def ethNeeds (h : Host) (s : State) (b : Store) : Nat :=
  if b 12 = 0x08 ∧ b 13 = 0x06 then 42
  else if b 12 = 0x08 ∧ b 13 = 0x00 then ipv4Needs (ipv4Dispatch h b s).1 b
  else 14

section
variable {h : Host} {page b b' send : Store} {s : State} {n k o : Nat} {ty : UInt8}

namespace Agree

theorem mono (hb : Agree n b b') (hk : k ≤ n) : Agree k b b' := fun i hi => hb i (by omega)

theorem get16 (hb : Agree n b b') (ho : o + 2 ≤ n) : Bytes.get16 b o = Bytes.get16 b' o :=
  get16_congr fun i _ h2 => hb i (by omega)

theorem get32 (hb : Agree n b b') (ho : o + 4 ≤ n) : Bytes.get32 b o = Bytes.get32 b' o :=
  get32_congr fun i _ h2 => hb i (by omega)

theorem getBytes (hb : Agree n b b') (ho : o + k ≤ n) : Bytes.getBytes b o k = Bytes.getBytes b' o k :=
  getBytes_congr fun i _ h2 => hb i (by omega)

theorem payload (hb : Agree n b b') (hn : 15 ≤ n) : ipv4Payload b = ipv4Payload b' := by
  rw [ipv4Payload, ipv4Payload, hb 14 (by omega)]

end Agree

theorem arpProc_congr (hb : Agree 42 b b') : arpProc h page b 14 s = arpProc h page b' 14 s := by
  have hop : arpOp b 14 = arpOp b' 14 := hb.get16 (by decide)
  have hmac : arpSrcMac b 14 = arpSrcMac b' 14 := hb.getBytes (by decide)
  have hip : arpSrcIp b 14 = arpSrcIp b' 14 := hb.getBytes (by decide)
  have hdst : arpDstIp b 14 = arpDstIp b' 14 := hb.getBytes (by decide)
  simp only [arpProc, arpReplyPktCreate, arpTableUpdate, hop, hmac, hip, hdst, hb.get16 (o := 14)
    (by decide), hb.get16 (o := 14 + 2) (by decide), hb (14 + 4) (by decide), hb (14 + 5) (by decide)]

theorem tcpPktCreate_congr (h30 : Agree 30 b b') (hp : Agree (ipv4Payload b + 14) b b') :
    tcpPktCreate h b send ty k s = tcpPktCreate h b' send ty k s := by
  have hmac : ethSrcMac b = ethSrcMac b' := h30.getBytes (by decide)
  have hip : ipv4SrcIp b = ipv4SrcIp b' := h30.getBytes (by decide)
  have hpay := h30.payload (by decide)
  simp only [tcpPktCreate, ipv4Header, hmac, hip, hp.get16 (o := ipv4Payload b) (by omega),
    hp.get16 (o := ipv4Payload b + 2) (by omega), hp.get32 (o := ipv4Payload b + 4) (by omega), ← hpay]

theorem tcpProc_congr (h30 : Agree 30 b b') (hp : Agree (ipv4Payload b + 14) b b') :
    tcpProc h page b s = tcpProc h page b' s := by
  have hcode : b' (ipv4Payload b + 13) = b (ipv4Payload b + 13) := (hp _ (by omega)).symm
  simp only [tcpProc, tcpBuild, tcpAnswer, ite_self, ← h30.payload (by decide), hcode,
    tcpPktCreate_congr h30 hp]

theorem icmpProc_congr (h30 : Agree 30 b b') (hp : Agree (ipv4Payload b + 2) b b')
    (hecho : b (ipv4Payload b + 1) = 0 → b (ipv4Payload b) = ICMP_TYPE_ECHO_REQUEST →
      Agree (ipv4Payload b + 64) b b') :
    icmpProc h page b s = icmpProc h page b' s := by
  have hpay := h30.payload (by decide)
  have hcode : b' (ipv4Payload b + 1) = b (ipv4Payload b + 1) := (hp _ (by omega)).symm
  have htype : b' (ipv4Payload b) = b (ipv4Payload b) := (hp _ (by omega)).symm
  rw [icmpProc, icmpProc, ← hpay, hcode, htype]
  split_ifs with h1 h2
  · have hall := hecho h1 h2
    have hmac : ethSrcMac b = ethSrcMac b' := h30.getBytes (by decide)
    have hip : ipv4SrcIp b = ipv4SrcIp b' := h30.getBytes (by decide)
    have hreply : icmpReplyPktCreate h b page s = icmpReplyPktCreate h b' page s := by
      simp only [icmpReplyPktCreate, ipv4Header, hmac, hip, ← hpay,
        hall.get16 (o := ipv4Payload b + 4) (by omega), hall.get16 (o := ipv4Payload b + 6) (by omega),
        hall.getBytes (o := ipv4Payload b + 8) (k := 8) (by omega),
        hall.getBytes (o := ipv4Payload b + 16) (k := 48) (by omega)]
    rw [hreply]
  · rfl
  · rfl

theorem ipv4Dispatch_congr (h30 : Agree 30 b b') : ipv4Dispatch h b s = ipv4Dispatch h b' s := by
  have hid : ipv4Id b = ipv4Id b' := h30.get16 (by decide)
  have hip : ipv4SrcIp b = ipv4SrcIp b' := h30.getBytes (by decide)
  rw [ipv4Dispatch, ipv4Dispatch, ipv4Protocol, ipv4Protocol, hid, hip, h30 23 (by decide)]

theorem ipv4Payload_bounds (b : Store) : 14 ≤ ipv4Payload b ∧ ipv4Payload b ≤ 74 := by
  have hlen : (b 14 &&& 0xF).toNat ≤ 15 := by
    rw [UInt8.toNat_and]
    exact Nat.and_le_right
  unfold ipv4Payload
  omega

theorem ipv4Needs_bounds (d : Option UInt8) (b : Store) :
    30 ≤ ipv4Needs d b ∧ ipv4Needs d b ≤ 138 := by
  have := ipv4Payload_bounds b
  unfold ipv4Needs
  split
  · decide
  · split_ifs <;> omega

theorem ethNeeds_bounds (h : Host) (s : State) (b : Store) :
    14 ≤ ethNeeds h s b ∧ ethNeeds h s b ≤ 138 := by
  have := ipv4Needs_bounds (ipv4Dispatch h b s).1 b
  unfold ethNeeds
  split_ifs
  · decide
  · omega
  · decide

theorem ipv4Proc_congr (hb : Agree (ipv4Needs (ipv4Dispatch h b s).1 b) b b') :
    ipv4Proc h page b s = ipv4Proc h page b' s := by
  have h30 : Agree 30 b b' := hb.mono (ipv4Needs_bounds _ b).1
  rw [ipv4Proc, ipv4Proc, ← ipv4Dispatch_congr h30]
  split
  · next protocol s' he =>
    rw [he, ipv4Needs] at hb
    split_ifs at hb ⊢ with hp hecho
    · exact icmpProc_congr h30 (hb.mono (by omega)) fun _ _ => hb
    · exact icmpProc_congr h30 (hb.mono (by omega)) fun hc ht => absurd ⟨hc, ht⟩ hecho
    · exact tcpProc_congr h30 (hb.mono (by omega))
  · rfl

theorem ethProc_congr (hb : Agree (ethNeeds h s b) b b') :
    ethProc h page b s = ethProc h page b' s := by
  have h14 : Agree 14 b b' := hb.mono (ethNeeds_bounds h s b).1
  unfold ethNeeds at hb
  rw [ethProc, ethProc, ← h14 12 (by decide), ← h14 13 (by decide)]
  split_ifs at hb ⊢ with h1 h2
  · rw [arpProc_congr hb]
  · exact ipv4Proc_congr hb
  · rfl

theorem icmpReplyPktCreate_data {i : Nat} (hi : i < 48) :
    (icmpReplyPktCreate h b send s).1 (50 + i) = b (ipv4Payload b + 16 + i) := by
  simp (disch := omega) only [icmpReplyPktCreate, put16_other]
  exact putBytes_at _ 50 _ ⟨i, hi⟩

end

def longEcho (x : UInt8) : Store :=
  put8 (put8 (put8 (put8 (put8 (fill 0) 12 0x08) 14 0x4F) 23 IPV4_TYPE_ICMP) 74
    ICMP_TYPE_ECHO_REQUEST) 137 x

theorem ethProc_longEcho (x : UInt8) :
    ∃ m : Store, (ethProc ⟨fun _ => 0, ![10, 0, 1, 10]⟩ (fill 0) (longEcho x) .init).sent =
      [slice m 0 98] ∧ m 97 = x := by
  have hpay : ipv4Payload (longEcho x) = 74 := by
    have hver : longEcho x 14 = 0x4F := rfl
    rw [ipv4Payload, hver]
    decide
  have hd : ipv4Dispatch ⟨fun _ => 0, ![10, 0, 1, 10]⟩ (longEcho x) .init =
      (some IPV4_TYPE_ICMP, { State.init with ipId := 0 }) := by
    rw [ipv4Dispatch, if_pos ⟨show (-1 : Int) ≠ 0 by decide, fun hip =>
      absurd (congrFun hip 0) (show (10 : UInt8) ≠ 0 by decide)⟩, if_pos (.inl rfl)]
    rfl
  refine ⟨(icmpReplyPktCreate ⟨fun _ => 0, ![10, 0, 1, 10]⟩ (longEcho x) (fill 0)
    { State.init with ipId := 0 }).1, ?_, ?_⟩
  · rw [ethProc, if_neg fun ht => absurd ht.2 (show (0 : UInt8) ≠ 6 by decide), if_pos ⟨rfl, rfl⟩,
      ipv4Proc, hd]
    dsimp only
    rw [if_pos rfl, icmpProc, hpay, if_pos (show longEcho x 75 = 0 from rfl),
      if_pos (show longEcho x 74 = ICMP_TYPE_ECHO_REQUEST from rfl)]
    rfl
  · rw [icmpReplyPktCreate_data (show 47 < 48 by decide), hpay]
    rfl

theorem ethProc_longEcho_ne :
    (ethProc ⟨fun _ => 0, ![10, 0, 1, 10]⟩ (fill 0) (longEcho 0) .init).sent ≠
      (ethProc ⟨fun _ => 0, ![10, 0, 1, 10]⟩ (fill 0) (longEcho 1) .init).sent := by
  obtain ⟨m, hm, hm0⟩ := ethProc_longEcho 0
  obtain ⟨m', hm', hm1⟩ := ethProc_longEcho 1
  intro hsame
  rw [hm, hm', List.singleton_inj, slice_inj] at hsame
  have h97 := hsame 97 (by decide) (by decide)
  rw [hm0, hm1] at h97
  exact absurd h97 (by decide)

theorem agree_longEcho {n : Nat} (hn : n ≤ 137) (x y : UInt8) :
    Agree n (longEcho x) (longEcho y) := fun _ hi =>
  (put8_other _ _ (by omega)).trans (put8_other _ _ (by omega)).symm

/-- **Only received bytes matter** when 138 of them were received, and with fewer for the frames that
need no more. -/
theorem received_bytes (n : Nat) :
    ((∀ h page s b b', Agree n b b' → ethProc h page b s = ethProc h page b' s) ↔ 138 ≤ n) ∧
    ∀ h page s b b', ethNeeds h s b ≤ n → Agree n b b' → ethProc h page b s = ethProc h page b' s := by
  refine ⟨⟨fun hall => ?_, fun hn h page s b b' hb => ?_⟩, fun h page s b b' hn hb => ?_⟩
  · by_contra hlt
    exact ethProc_longEcho_ne
      (congrArg State.sent (hall _ _ _ _ _ (agree_longEcho (by omega) 0 1)))
  · exact ethProc_congr (hb.mono ((ethNeeds_bounds h s b).2.trans hn))
  · exact ethProc_congr (hb.mono hn)

/-- An echo request in a frame of 60 bytes, with 15 words of IPv4 header: the reply has a byte that
an earlier frame left at 137. -/
theorem received_bytes_echo : ∃ (h : Host) (page b b' : Store), Agree 60 b b' ∧
    (ethProc h page b .init).sent ≠ (ethProc h page b' .init).sent :=
  ⟨_, _, _, _, agree_longEcho (by decide) 0 1, ethProc_longEcho_ne⟩

/-! ## The filter of IPv4 packets -/

def Hands (h : Host) (s : State) (buf : Store) : Prop := (ipv4Dispatch h buf s).1 ≠ none

def Foreign (h : Host) (buf : Store) : Prop :=
  buf 12 = 0x08 ∧ buf 13 = 0x00 ∧ h.myIp ≠ ipv4SrcIp buf

instance (h : Host) (buf : Store) : Decidable (Foreign h buf) :=
  inferInstanceAs (Decidable (_ ∧ _ ∧ _))

/-- The identification of the last IPv4 packet of another host, or `ip_id` if there was none. -/
def lastId (h : Host) (ipId : Int) (l : List (Store × Store)) : Int :=
  match l.reverse.find? fun x => Foreign h x.1 with
  | some x => ipv4Id x.1
  | none => ipId

section
variable {h : Host} {page buf : Store} {s : State} {l r : List (Store × Store)}
  {x y : Store × Store} {i : Int}

theorem hands_iff (hx : h.myIp ≠ ipv4SrcIp buf) : Hands h s buf ↔ s.ipId ≠ ipv4Id buf ∧
    (ipv4Protocol buf = IPV4_TYPE_ICMP ∨ ipv4Protocol buf = IPV4_TYPE_TCP) := by
  unfold Hands ipv4Dispatch
  by_cases hid : s.ipId = ipv4Id buf
  · rw [if_neg fun hc => hc.1 hid]
    simp [hid]
  · rw [if_pos ⟨hid, hx⟩]
    split_ifs with hp <;> simp [hid, hp]

theorem icmpProc_ipId : (icmpProc h page buf s).ipId = s.ipId := by
  unfold icmpProc
  dsimp only
  split_ifs <;> rfl

theorem tcpProc_ipId : (tcpProc h page buf s).ipId = s.ipId := by
  unfold tcpProc tcpBuild
  dsimp only
  split_ifs <;> rfl

theorem ipv4Proc_ipId :
    (ipv4Proc h page buf s).ipId = if h.myIp ≠ ipv4SrcIp buf then (ipv4Id buf : Int) else s.ipId := by
  have hd : (ipv4Dispatch h buf s).2.ipId =
      if h.myIp ≠ ipv4SrcIp buf then (ipv4Id buf : Int) else s.ipId := by
    unfold ipv4Dispatch
    by_cases hip : h.myIp = ipv4SrcIp buf
    · rw [if_neg fun hc => hc.2 hip, if_neg (not_not.2 hip)]
    · by_cases hid : s.ipId = ipv4Id buf
      · rw [if_neg fun hc => hc.1 hid, if_pos hip, hid]
      · rw [if_pos ⟨hid, hip⟩, if_pos hip]
  unfold ipv4Proc
  split
  · next he =>
    rw [he] at hd
    refine Eq.trans ?_ hd
    split_ifs
    · exact icmpProc_ipId
    · exact tcpProc_ipId
  · next he =>
    rw [he] at hd
    exact hd

theorem arpProc_ipId {o : Nat} : (arpProc h page buf o s).2.ipId = s.ipId := by
  unfold arpProc
  split_ifs <;> rfl

theorem ethProc_ipId :
    (ethProc h page buf s).ipId = if Foreign h buf then (ipv4Id buf : Int) else s.ipId := by
  unfold ethProc
  by_cases h1 : buf 12 = 0x08 ∧ buf 13 = 0x06
  · have hf : ¬ Foreign h buf := fun hf => absurd (h1.2.symm.trans hf.2.1) (by decide)
    rw [if_pos h1, if_neg hf, arpProc_ipId]
  rw [if_neg h1]
  by_cases h2 : buf 12 = 0x08 ∧ buf 13 = 0x00
  · rw [if_pos h2, ipv4Proc_ipId]
    exact if_congr ⟨fun hip => ⟨h2.1, h2.2, hip⟩, fun hf => hf.2.2⟩ rfl rfl
  · rw [if_neg h2, if_neg fun hf => h2 ⟨hf.1, hf.2.1⟩]

theorem lastId_concat :
    lastId h i (l ++ [x]) = if Foreign h x.1 then (ipv4Id x.1 : Int) else lastId h i l := by
  unfold lastId
  rw [List.reverse_append, List.reverse_singleton, List.singleton_append, List.find?_cons]
  by_cases hx : Foreign h x.1 <;> simp [hx]

theorem ethRun_ipId : (ethRun h l s).ipId = lastId h s.ipId l := by
  induction l using List.reverseRecOn with
  | nil => rfl
  | append_singleton l x ih =>
    rw [ethRun, List.foldl_append, lastId_concat, ← ih]
    exact ethProc_ipId

theorem lastId_append : lastId h i (l ++ r) = lastId h (lastId h i l) r := by
  induction r using List.reverseRecOn with
  | nil => rw [List.append_nil]; rfl
  | append_singleton r x ih => rw [← List.append_assoc, lastId_concat, lastId_concat, ih]

theorem lastId_of_foreign {j : Int} (hr : ∃ z ∈ r, Foreign h z.1) : lastId h i r = lastId h j r := by
  obtain ⟨z, hz, hf⟩ := hr
  unfold lastId
  cases he : r.reverse.find? fun x => Foreign h x.1 with
  | some x => rfl
  | none =>
    have := List.find?_eq_none.1 he z (List.mem_reverse.2 hz)
    exact absurd (decide_eq_true hf) this

theorem lastId_of_own (hr : ¬ ∃ z ∈ r, Foreign h z.1) : lastId h i r = i := by
  have he : (r.reverse.find? fun x => Foreign h x.1) = none := List.find?_eq_none.2 fun z hz hf =>
    hr ⟨z, List.mem_reverse.1 hz, of_decide_eq_true hf⟩
  rw [lastId, he]

/-- **The judgement on an IPv4 packet**: a packet `y` inserted before it makes it be dropped exactly
if `y` becomes the last one of another host, with the identification of `x`. -/
theorem ipv4_judged (hx : h.myIp ≠ ipv4SrcIp x.1) (hy : Foreign h y.1) :
    (Hands h (ethRun h l s) x.1 ↔ lastId h s.ipId l ≠ ipv4Id x.1 ∧
      (ipv4Protocol x.1 = IPV4_TYPE_ICMP ∨ ipv4Protocol x.1 = IPV4_TYPE_TCP)) ∧
    ((Hands h (ethRun h (l ++ r) s) x.1 → Hands h (ethRun h (l ++ y :: r) s) x.1) ↔
      (∃ z ∈ r, Foreign h z.1) ∨ ipv4Id y.1 ≠ ipv4Id x.1 ∨ lastId h s.ipId l = ipv4Id x.1 ∨
        ¬ (ipv4Protocol x.1 = IPV4_TYPE_ICMP ∨ ipv4Protocol x.1 = IPV4_TYPE_TCP)) := by
  rw [hands_iff hx, hands_iff hx, hands_iff hx, ethRun_ipId, ethRun_ipId, ethRun_ipId]
  refine ⟨Iff.rfl, ?_⟩
  have hcons : lastId h s.ipId (l ++ y :: r) = lastId h (ipv4Id y.1) r := by
    rw [← List.singleton_append, ← List.append_assoc, lastId_append, lastId_concat, if_pos hy]
  rw [hcons, lastId_append]
  by_cases hr : ∃ z ∈ r, Foreign h z.1
  · rw [lastId_of_foreign hr (j := ipv4Id y.1)]
    exact ⟨fun _ => .inl hr, fun _ => id⟩
  · rw [lastId_of_own hr, lastId_of_own hr, or_iff_right hr]
    norm_cast
    tauto

end

def samplePacket (k protocol : UInt8) : Store × Store :=
  (putBytes (put8 (put8 (fill 0) 12 0x08) 23 protocol) 26 (![10, 0, 1, k] : Ip), fill 0)

theorem ipv4_judged_zero : ∃ (h : Host) (x y : Store × Store), h.myIp ≠ ipv4SrcIp x.1 ∧
    Foreign h y.1 ∧ ipv4SrcIp x.1 ≠ ipv4SrcIp y.1 ∧ Hands h (ethRun h [] .init) x.1 ∧
    ¬ Hands h (ethRun h [y] .init) x.1 := by
  refine ⟨⟨fun _ => 0, ![10, 0, 1, 10]⟩, samplePacket 1 1, samplePacket 2 1, by decide, by decide,
    by decide, ?_, ?_⟩
  · rw [hands_iff (by decide)]
    decide
  · rw [hands_iff (by decide), ethRun_ipId, ← List.nil_append [samplePacket 2 1], lastId_concat,
      if_pos (by decide)]
    decide

/-- A packet with identification 7 of another host comes before one with identification 0. -/
theorem ipv4_judged_between : ∃ (h : Host) (x y : Store × Store), Foreign h x.1 ∧ Foreign h y.1 ∧
    ipv4SrcIp x.1 ≠ ipv4SrcIp y.1 ∧ Hands h (ethRun h [] .init) x.1 ∧
    Hands h (ethRun h [y] .init) x.1 := by
  let h : Host := ⟨fun _ => 0, ![10, 0, 1, 10]⟩
  let y : Store × Store := (put8 (samplePacket 2 1).1 19 7, fill 0)
  have hj := ipv4_judged (h := h) (s := .init) (l := []) (r := []) (x := samplePacket 1 1) (y := y)
    (by decide) (by decide)
  have hands := hj.1.2 (by decide)
  exact ⟨h, _, y, by decide, by decide, by decide, hands, hj.2.2 (.inr (.inl (by decide))) hands⟩

end Net
