import Xv6.Base.Checksum
import Xv6.Net.Proof.Connections

/-!
# Checksums of sent packets

`ipv4_chksum` and `icmp_chksum` add the carry back after each word, which gives the folded sum of the
whole (`chksumFolded_eq`). `tcp_chksum` takes `my_ip` for both addresses of the pseudo-header, leaves
out an odd last byte, and adds the carries back only once; `tcp_pkt_create` then adds 8.
-/

namespace Net

open Bytes Checksum

section
variable {m m' : Store} {o n k c : Nat}

/-! ## Sums of words -/

theorem wordSum_eq (m : Store) (o n : Nat) : wordSum m o n = words (slice m o (n * 2)) := by
  induction n with
  | zero => rfl
  | succ n ih => rw [wordSum, ih, words_slice_succ, Nat.shiftLeft_eq, Nat.add_assoc]

theorem word_lt (m : Store) (a b : Nat) : (m a).toNat * 256 + (m b).toNat < 65536 := by
  have h1 := (m a).toNat_lt
  have h2 := (m b).toNat_lt
  omega

theorem chksumFolded_eq (m : Store) (o n : Nat) :
    chksumFolded m o n = fold (words (slice m o (n * 2))) := by
  induction n with
  | zero =>
    rw [fold, if_pos (show words (slice m o (0 * 2)) < 65536 from Nat.zero_lt_succ _)]
    rfl
  | succ n ih =>
    have hlow : ∀ x, x &&& 0xFFFF = x % 65536 := fun x => Nat.and_two_pow_sub_one_eq_mod x 16
    have hw := word_lt m (o + n * 2) (o + n * 2 + 1)
    have hs := (fold_spec (words (slice m o (n * 2)))).1
    rw [chksumFolded, ih, words_slice_succ, fold_add hw, Nat.shiftLeft_eq, Nat.add_assoc, hlow]
    split_ifs <;> omega

theorem words_congr (h : ∀ i, o ≤ i → i < o + n → m i = m' i) :
    words (slice m o n) = words (slice m' o n) := by rw [slice_congr h]

theorem h2nUshort_eq (c : Nat) : h2nUshort c = c % 256 * 256 + c / 256 := by
  rw [h2nUshort, Nat.and_two_pow_sub_one_eq_mod c 8, Nat.shiftLeft_eq, Nat.shiftRight_eq_div_pow]

theorem wordSum_put16 (hk : k < n) (hc : c < 65536) (h0 : m (o + k * 2) = 0)
    (h1 : m (o + k * 2 + 1) = 0) :
    wordSum (put16 m (o + k * 2) (h2nUshort c)) o n = wordSum m o n + c := by
  induction n with
  | zero => omega
  | succ n ih =>
    rw [wordSum, wordSum]
    by_cases hn : k = n
    · subst hn
      have hfirst : wordSum (put16 m (o + k * 2) (h2nUshort c)) o k = wordSum m o k := by
        rw [wordSum_eq, wordSum_eq]
        exact words_congr fun i _ h2 => put16_other _ _ (by omega) (by omega)
      have hlow : (c % 256 * 256 + c / 256) / 256 = c % 256 := by
        rw [Nat.mul_comm, Nat.mul_add_div (by decide), Nat.div_eq_of_lt (by omega), Nat.add_zero]
      rw [hfirst, h0, h1]
      simp [put16, h2nUshort_eq, Nat.shiftLeft_eq, UInt8.toNat_ofNat', hlow]
      omega
    · rw [ih (by omega), put16_other _ _ (by omega) (by omega), put16_other _ _ (by omega) (by omega)]
      omega

theorem fold_put16 {p len : Nat} (hk : k < n) (hp : p = o + k * 2) (hlen : len = n * 2) :
    fold (words (slice (put16 (put16 m p 0) p (h2nUshort
      (complement16 (chksumFolded (put16 m p 0) o n)))) o len)) = 0xFFFF := by
  subst hp hlen
  have hs := (fold_spec (wordSum (put16 m (o + k * 2) 0) o n)).1
  rw [chksumFolded_eq, ← wordSum_eq, ← wordSum_eq, complement16, Nat.mod_eq_of_lt hs,
    wordSum_put16 hk (by omega) (by simp [put16]) (by simp [put16])]
  exact fold_add_complement _

end

section
variable {h : Host} {recv send page : Store} {s : State} {len fragment n : Nat} {protocol ty : UInt8}

/-! ## IPv4 and ICMP -/

theorem ipv4Header_valid (h : Host) (recv : Store) (len fragment : Nat) (protocol : UInt8)
    (send : Store) (s : State) :
    fold (words (slice (ipv4Header h recv len fragment protocol send s).1 14 20)) = 0xFFFF := by
  have hver : ∀ m : Store, m 14 = 0x45 →
      ipv4Chksum m 14 = complement16 (chksumFolded m 14 10) := fun m hm => by rw [ipv4Chksum, hm]; rfl
  rw [ipv4Header]
  dsimp only
  rw [hver]
  · exact fold_put16 (k := 5) (by decide) rfl rfl
  · simp (disch := omega) only [put16_other, put8_other, putBytes_other, put8_self]

theorem ipv4Chksum_eq (m : Store) (o : Nat) :
    ipv4Chksum m o = checksum (slice m o ((m o &&& 0xF).toNat * 4)) := by
  have hs := (fold_spec (words (slice m o ((m o &&& 0xF).toNat * 2 * 2)))).1
  rw [ipv4Chksum, chksumFolded_eq, complement16, Nat.mod_eq_of_lt hs, checksum, Nat.mul_assoc]

theorem icmpReply_header_valid :
    fold (words (slice (icmpReplyPktCreate h recv page s).1 14 20)) = 0xFFFF := by
  rw [← ipv4Header_valid h recv (20 + 64) 0x4000 IPV4_TYPE_ICMP (ethHeader h (ethSrcMac recv) 0x00 page)
    s]
  refine congrArg fold (words_congr fun i _ h2 => ?_)
  simp (disch := omega) only [icmpReplyPktCreate, put16_other, put8_other, putBytes_other]

theorem icmpReply_message_valid :
    fold (words (slice (icmpReplyPktCreate h recv page s).1 34 64)) = 0xFFFF := by
  rw [icmpReplyPktCreate]
  exact fold_put16 (k := 1) (by decide) rfl rfl

/-- **IPv4 and ICMP checksums** are those of RFC 1071. -/
theorem echo_reply_checksums :
    (∀ m o, ipv4Chksum m o = checksum (slice m o ((m o &&& 0xF).toNat * 4))) ∧
    ∀ h recv page s, fold (words (slice (icmpReplyPktCreate h recv page s).1 14 20)) = 0xFFFF ∧
      fold (words (slice (icmpReplyPktCreate h recv page s).1 34 64)) = 0xFFFF :=
  ⟨ipv4Chksum_eq, fun _ _ _ _ => ⟨icmpReply_header_valid, icmpReply_message_valid⟩⟩

/-! ## TCP -/

def ipWords (ip : Ip) : Nat := (ip 0).toNat * 256 + (ip 1).toNat + (ip 2).toNat * 256 + (ip 3).toNat

def pseudoHeader (m : Store) (len : Nat) : List UInt8 :=
  slice m 26 8 ++ [0, IPV4_TYPE_TCP, UInt8.ofNat (len / 256), UInt8.ofNat len]

def segmentSum (recv send : Store) (ty : UInt8) (n : Nat) (s : State) : Nat :=
  n2hUshort (get16 recv (ipv4Payload recv + 2)) + n2hUshort (get16 recv (ipv4Payload recv)) +
    (wire s.seqNum / 65536 + wire s.seqNum % 65536) + (ackOf recv / 65536 + ackOf recv % 65536) +
    (0x5000 + ty.toNat) + 14480 + words (slice send 54 (n / 2 * 2))

def oddByte (send : Store) (n : Nat) : Nat := if n % 2 = 1 then (send (54 + n - 1)).toNat * 256 else 0

/-- The sum of `tcp_chksum`, with `my_ip` for both addresses. -/
def ownSum (h : Host) (recv send : Store) (ty : UInt8) (n : Nat) (s : State) : Nat :=
  ipWords h.myIp + ipWords h.myIp + 6 + (20 + n) + segmentSum recv send ty n s

theorem words_address (m : Store) (o : Nat) : words (slice m o 4) = ipWords (getBytes m o 4) := by
  have h4 : slice m o 4 = [m o, m (o + 1), m (o + 2), m (o + 3)] := rfl
  rw [h4, words, words, words, ipWords]
  simp only [getBytes, Nat.add_zero, ← Nat.add_assoc]
  rfl

theorem words_word (m : Store) (o : Nat) : words (slice m o 2) = n2hUshort (get16 m o) := by
  have h1 := (m o).toNat_lt
  have h2 := (m (o + 1)).toNat_lt
  have htwo : slice m o 2 = [m o, m (o + 1)] := rfl
  rw [htwo, words, words, n2hUshort, Nat.and_two_pow_sub_one_eq_mod _ 8, Nat.shiftLeft_eq,
    Nat.shiftRight_eq_div_pow, get16]
  omega

theorem words_field (m : Store) (o : Nat) :
    words (slice m o 4) = be32 m o / 65536 + be32 m o % 65536 := by
  have h4 : slice m o 4 = [m o, m (o + 1), m (o + 2), m (o + 3)] := rfl
  have h0 := (m o).toNat_lt
  have h1 := (m (o + 1)).toNat_lt
  have h2 := (m (o + 2)).toNat_lt
  have h3 := (m (o + 3)).toNat_lt
  rw [h4, words, words, words, be32]
  omega

theorem words_slice_add {k : Nat} (m : Store) (o n : Nat) (hk : k % 2 = 0) :
    words (slice m o (k + n)) = words (slice m o k) + words (slice m (o + k) n) := by
  rw [slice_add, words_append (by rw [length_slice, hk])]

theorem n2hUshort_h2nUshort {c : Nat} (hc : c < 65536) : n2hUshort (h2nUshort c % 65536) = c := by
  have hlow : (c % 256 * 256 + c / 256) % 65536 = c % 256 * 256 + c / 256 := Nat.mod_eq_of_lt (by omega)
  have hdiv : (c % 256 * 256 + c / 256) / 256 = c % 256 := by
    rw [Nat.mul_comm, Nat.mul_add_div (by decide), Nat.div_eq_of_lt (by omega), Nat.add_zero]
  rw [h2nUshort_eq, hlow, n2hUshort, Nat.and_two_pow_sub_one_eq_mod _ 8, Nat.shiftLeft_eq,
    Nat.shiftRight_eq_div_pow, hdiv]
  omega

variable {m : Store}

theorem Built.segmentSum (hb : Built h recv send ty n s m) :
    wordSum m 34 ((20 + n) / 2) = Net.segmentSum recv send ty n s := by
  have hcode : words (slice m 46 2) = 0x5000 + ty.toNat := by
    have htwo : slice m 46 2 = [m 46, m 47] := rfl
    rw [htwo, hb.dataOffset, hb.flags]
    rfl
  have hzero : words (slice m 50 4) = 0 := by
    have h2 : words (slice m 50 2) = 0 := by
      have htwo : slice m 50 2 = [m 50, m 51] := rfl
      rw [htwo, hb.chkSum.1, hb.chkSum.2]
      rfl
    rw [words_slice_add (k := 2) m 50 2 rfl, h2, words_word, hb.urgentPtr]
    rfl
  have hwindow : n2hUshort (h2nUshort 14480) = 14480 := by decide
  have hpay : words (slice m 54 (n / 2 * 2)) = words (slice send 54 (n / 2 * 2)) :=
    words_congr fun i h1 _ => hb.payload i h1
  rw [wordSum_eq, show (20 + n) / 2 * 2 = 2 + (2 + (4 + (4 + (2 + (2 + (4 + n / 2 * 2)))))) by omega,
    words_slice_add m _ _ rfl, words_slice_add m _ _ rfl, words_slice_add m _ _ rfl,
    words_slice_add m _ _ rfl, words_slice_add m _ _ rfl, words_slice_add m _ _ rfl,
    words_slice_add m _ _ rfl, words_word, hb.srcPort, words_word, hb.dstPort, words_field, hb.seqNum,
    words_field, hb.ackNum, hcode, words_word, hb.window, hwindow, hzero, hpay, Net.segmentSum]
  omega

theorem words_dummy (a b : Ip) {x : Nat} (hx : x < 65536) :
    wordSum (put16 (put8 (put8 (putBytes (putBytes (fill 0) 0 a) 4 b) 8 0) 9 IPV4_TYPE_TCP) 10 x) 0 6 =
      ipWords a + ipWords b + 6 + n2hUshort x := by
  generalize hd : put16 _ 10 x = d
  have ha : getBytes d 0 4 = a := by
    subst hd
    funext i
    simp (disch := omega) only [getBytes, put16_other, put8_other, putBytes_other, putBytes_at]
  have hb : getBytes d 4 4 = b := by
    subst hd
    funext i
    simp (disch := omega) only [getBytes, put16_other, put8_other, putBytes_at]
  have htwo : slice d 8 2 = [0, IPV4_TYPE_TCP] := by
    subst hd
    rfl
  have hlen : get16 d 10 = x := by rw [← hd, get16_put16, Nat.mod_eq_of_lt hx]
  rw [wordSum_eq, show 6 * 2 = 4 + (4 + (2 + 2)) from rfl, words_slice_add _ _ _ rfl,
    words_slice_add _ _ _ rfl, words_slice_add _ _ _ rfl, words_address, words_address, ha, hb, htwo,
    words_word, hlen]
  exact (Nat.add_assoc _ _ _).symm.trans (Nat.add_assoc _ _ _).symm

theorem Built.tcpChksum (hb : Built h recv send ty n s m) (hn : n ≤ 1460) : Net.tcpChksum h m =
    0xFFFF - (ownSum h recv send ty n s + ownSum h recv send ty n s / 65536) % 65536 := by
  have htcp : (n2hUshort (get16 m 16) + 2 ^ 32 - 20) % 0x10000 = 20 + n := by
    rw [hb.totalLen, n2hUshort_h2nUshort (by omega)]
    omega
  have hmod : h2nUshort (20 + n) < 65536 := by
    rw [h2nUshort_eq]
    omega
  have hlen := n2hUshort_h2nUshort (c := 20 + n) (by omega)
  rw [Nat.mod_eq_of_lt hmod] at hlen
  have hsrc : ipv4SrcIp m = h.myIp := hb.srcIp
  rw [Net.tcpChksum, htcp, complement16, Nat.shiftRight_eq_div_pow, words_dummy _ _ hmod, hlen,
    hb.segmentSum, hsrc, ownSum]

theorem tcp_words (hn : n ≤ 1460) :
    words (pseudoHeader (tcpPktCreate h recv send ty n s).1 (20 + n) ++
      slice (tcpPktCreate h recv send ty n s).1 34 (20 + n)) =
    ipWords h.myIp + ipWords (ipv4SrcIp recv) + 6 + (20 + n) + segmentSum recv send ty n s +
      oddByte send n + (0xFFFF - (ownSum h recv send ty n s + ownSum h recv send ty n s / 65536) %
        65536 + 8) % 65536 := by
  obtain ⟨m, hm, hb⟩ := tcpPktCreate_built h recv send ty n s
  rw [← hb.tcpChksum hn, hm]
  have hc : (tcpChksum h m + 8) % 65536 < 65536 := Nat.mod_lt _ (by decide)
  generalize (tcpChksum h m + 8) % 65536 = c at *
  have hother : ∀ i, i < 50 ∨ 52 ≤ i → put16 m 50 (h2nUshort c) i = m i :=
    fun i hi => put16_other _ _ (by omega) (by omega)
  have hsrc : words (slice (put16 m 50 (h2nUshort c)) 26 8) =
      ipWords h.myIp + ipWords (ipv4SrcIp recv) := by
    rw [words_congr fun i _ h2 => hother i (by omega), words_slice_add (k := 4) _ _ 4 rfl, words_address,
      words_address, hb.srcIp, hb.dstIp]
  have hseg : words (slice (put16 m 50 (h2nUshort c)) 34 ((20 + n) / 2 * 2)) =
      segmentSum recv send ty n s + c := by
    rw [← wordSum_eq, ← hb.segmentSum]
    exact wordSum_put16 (k := 8) (by omega) hc hb.chkSum.1 hb.chkSum.2
  have hodd : words (slice (put16 m 50 (h2nUshort c)) 34 (20 + n)) =
      segmentSum recv send ty n s + c + oddByte send n := by
    rw [← hseg, oddByte]
    split_ifs with h2
    · rw [show 20 + n = (20 + n) / 2 * 2 + 1 by omega, words_slice_odd,
        show ((20 + n) / 2 * 2 + 1) / 2 = (20 + n) / 2 by omega, hother _ (by omega),
        hb.payload _ (by omega), show 34 + (20 + n) / 2 * 2 = 54 + n - 1 by omega]
    · rw [show (20 + n) / 2 * 2 = 20 + n by omega, Nat.add_zero]
  have hpseudo : words [0, IPV4_TYPE_TCP, UInt8.ofNat ((20 + n) / 256), UInt8.ofNat (20 + n)] =
      6 + (20 + n) := by
    have hlow : (20 + n) / 256 % 256 * 256 + (20 + n) % 256 = 20 + n := by omega
    rw [words, words, words, UInt8.toNat_ofNat', UInt8.toNat_ofNat', Nat.add_zero, hlow]
    rfl
  rw [pseudoHeader, words_append (by simp [length_slice]), words_append (by simp [length_slice]), hsrc,
    hodd, hpseudo]
  omega

theorem complement_eight {x : Nat} (hx : x < 65536 * 65536) :
    ∃ q, (0xFFFF - (x + x / 65536) % 65536 + 8) % 65536 + x +
        (if (x + x / 65536) % 65536 < 8 then 1 else 0) =
      8 + (if x % 65536 + x / 65536 < 65536 then 0 else 1) + 65535 * q := by
  have hx' : x = 65536 * (x / 65536) + x % 65536 := (Nat.div_add_mod ..).symm
  have hhi : x / 65536 < 65536 := by omega
  have hlo : x % 65536 < 65536 := Nat.mod_lt _ (by decide)
  generalize x / 65536 = hi at *
  generalize x % 65536 = lo at *
  subst hx'
  by_cases hc : lo + hi < 65536
  · have hu : (65536 * hi + lo + hi) % 65536 = lo + hi := by omega
    rw [hu, if_pos hc]
    split_ifs
    · exact ⟨hi, by omega⟩
    · exact ⟨hi + 1, by omega⟩
  · have hu : (65536 * hi + lo + hi) % 65536 = lo + hi - 65536 := by omega
    rw [hu, if_neg hc]
    split_ifs
    · exact ⟨hi + 1, by omega⟩
    · exact ⟨hi + 2, by omega⟩

theorem ownSum_lt (h : Host) (recv send : Store) (ty : UInt8) (s : State) (hn : n ≤ 1460) :
    ownSum h recv send ty n s < 65536 * 65536 := by
  have hip : ∀ ip : Ip, ipWords ip < 131072 := fun ip => by
    have h0 := (ip 0).toNat_lt
    have h1 := (ip 1).toNat_lt
    have h2 := (ip 2).toNat_lt
    have h3 := (ip 3).toNat_lt
    unfold ipWords
    omega
  have hword : ∀ o, n2hUshort (get16 recv o) ≤ 65280 * 2 := fun o => by
    have := words_le (slice recv o 2)
    rwa [words_word, length_slice] at this
  have hswap : ∀ x, swap32 x < 2 ^ 32 := fun x => by
    rw [swap32, be32_put32]
    omega
  have hpay := words_le (slice send 54 (n / 2 * 2))
  rw [length_slice] at hpay
  have h1 := hword (ipv4Payload recv + 2)
  have h2 := hword (ipv4Payload recv)
  have h3 : wire s.seqNum < 2 ^ 32 := hswap _
  have h4 : ackOf recv < 2 ^ 32 := hswap _
  have h5 := hip h.myIp
  have h6 := ty.toNat_lt
  unfold ownSum segmentSum
  omega

/-- **The TCP checksum** is valid if the address of the peer is 8 less than `my_ip`, and in the cases
where an odd byte or a lost carry makes up for another difference. -/
theorem tcp_checksum_valid (hn : n ≤ 1460) :
    fold (words (pseudoHeader (tcpPktCreate h recv send ty n s).1 (20 + n) ++
      slice (tcpPktCreate h recv send ty n s).1 34 (20 + n))) = 0xFFFF ↔
    let sum := ownSum h recv send ty n s
    (ipWords (ipv4SrcIp recv) + oddByte send n + 8 +
        (if sum % 65536 + sum / 65536 < 65536 then 0 else 1)) % 65535 =
      (ipWords h.myIp + (if (sum + sum / 65536) % 65536 < 8 then 1 else 0)) % 65535 := by
  obtain ⟨q, hq⟩ := complement_eight (ownSum_lt h recv send ty s hn)
  have hown : ownSum h recv send ty n s = ipWords h.myIp + ipWords h.myIp + 6 + (20 + n) +
    segmentSum recv send ty n s := rfl
  rw [tcp_words hn, fold_eq_ones]
  dsimp only
  generalize (0xFFFF - _ + 8) % 65536 = c at *
  split_ifs at hq ⊢ <;> omega

end

/-- A SYN of 10.0.1.2. -/
theorem tcp_checksum_valid_two : ∃ m, m = (tcpPktCreate ⟨fun _ => 0, ![10, 0, 1, 10]⟩
      (sampleSegment 2 2).1 (fill 0) (TCP_CODEBITS_ACK ||| TCP_CODEBITS_SYN) 0 .init).1 ∧
    fold (words (pseudoHeader m 20 ++ slice m 34 20)) = 0xFFFF :=
  ⟨_, rfl, (tcp_checksum_valid (n := 0) (by decide)).2 (by decide)⟩

/-- A SYN of 10.0.1.3. -/
theorem tcp_checksum_valid_three : ∃ m, m = (tcpPktCreate ⟨fun _ => 0, ![10, 0, 1, 10]⟩
      (sampleSegment 3 2).1 (fill 0) (TCP_CODEBITS_ACK ||| TCP_CODEBITS_SYN) 0 .init).1 ∧
    fold (words (pseudoHeader m 20 ++ slice m 34 20)) ≠ 0xFFFF := by
  refine ⟨_, rfl, ?_⟩
  rw [tcp_words (n := 0) (by decide), Ne, fold_eq_ones]
  decide

end Net
