import Xv6.Net.Stack
import Xv6.Base.Always

/-!
# The ARP packets and the ARP table

`IsRequest` and `IsReply` say when `arp_proc` answers and when it updates the table.
`arp_table_search` returns the first entry with the address, else the first free entry, else entry 0.
-/

namespace Net

open Bytes Function

/-! ## Packets -/

structure ToHost (h : Host) (m : Store) (o : Nat) : Prop where
  hrdType : get16 m o = ARP_HARDWARE_TYPE
  proType : get16 m (o + 2) = ARP_PROTOCOL_TYPE
  hrdLen : m (o + 4) = 6
  proLen : m (o + 5) = 4
  dstIp : arpDstIp m o = h.myIp

def IsRequest (h : Host) (m : Store) (o : Nat) : Prop := ToHost h m o ∧ arpOp m o = ARP_OPS_REQUEST

def IsReply (h : Host) (m : Store) (o : Nat) : Prop := ToHost h m o ∧ arpOp m o = ARP_OPS_REPLY

section
variable {h : Host} {page recv : Store} {o : Nat} {s : State}

theorem arpProc_request (hr : IsRequest h recv o) : arpProc h page recv o s =
      (ARP_CREATED_REPLY, i8254Send (arpReplyPktCreate h recv o page).1 44 s) := by
  obtain ⟨ht, hop⟩ := hr
  simp [arpProc, ht.hrdType, ht.proType, ht.hrdLen, ht.proLen, ht.dstIp, hop]
  rfl

theorem request_ne_reply : ARP_OPS_REPLY ≠ ARP_OPS_REQUEST := by decide

theorem arpProc_reply (hr : IsReply h recv o) : arpProc h page recv o s =
      (ARP_UPDATED_TABLE, { s with arpTable := arpTableUpdate recv o s.arpTable }) := by
  obtain ⟨ht, hop⟩ := hr
  simp [arpProc, ht.hrdType, ht.proType, ht.hrdLen, ht.proLen, ht.dstIp, hop, request_ne_reply]

theorem arpProc_other (hq : ¬ IsRequest h recv o) (hr : ¬ IsReply h recv o) :
    arpProc h page recv o s = (-1, s) := by
  unfold arpProc
  split_ifs with h1 h2 h3 h4 h5 h6 h7
  · rfl
  · rfl
  · rfl
  · rfl
  · rfl
  · simp only [not_not] at h1 h2 h3 h4
    exact absurd ⟨⟨h1, h2, h3, h4, h6.2.symm⟩, h6.1⟩ hq
  · simp only [not_not] at h1 h2 h3 h4
    exact absurd ⟨⟨h1, h2, h3, h4, h7.2.symm⟩, h7.1⟩ hr
  · rfl

theorem arpProc_updated : (arpProc h page recv o s).1 = ARP_UPDATED_TABLE ↔ IsReply h recv o := by
  by_cases hr : IsReply h recv o
  · simp [arpProc_reply hr, hr]
  · by_cases hq : IsRequest h recv o
    · simp [arpProc_request hq, hr]
      decide
    · simp [arpProc_other hq hr, hr]
      decide

end

/-! ## The builders -/

section
variable {h k : Host} {op : Nat} {ethDst dstMac : Mac} {dstIp : Ip} {send m : Store}

theorem arpFrame_fields (hop : op < 65536)
    (hm : ∀ i < 44, m i = (arpFrame h op ethDst dstMac dstIp send).1 i) :
    m 12 = 0x08 ∧ m 13 = 0x06 ∧ get16 m 14 = ARP_HARDWARE_TYPE ∧ get16 m 16 = ARP_PROTOCOL_TYPE ∧
      m 18 = 6 ∧ m 19 = 4 ∧ arpOp m 14 = op ∧ arpSrcMac m 14 = h.macAddr ∧
      arpSrcIp m 14 = h.myIp ∧ arpDstIp m 14 = dstIp := by
  have h16 : ∀ o, o + 2 ≤ 44 → get16 m o = get16 (arpFrame h op ethDst dstMac dstIp send).1 o :=
    fun o ho => get16_congr fun i _ h2 => hm i (by omega)
  have hbytes : ∀ o n, o + n ≤ 44 →
      getBytes m o n = getBytes (arpFrame h op ethDst dstMac dstIp send).1 o n :=
    fun o n ho => getBytes_congr fun i _ h2 => hm i (by omega)
  rw [arpOp, arpSrcMac, arpSrcIp, arpDstIp, h16 _ (by decide), h16 _ (by decide), h16 _ (by decide),
    hbytes _ _ (by decide), hbytes _ _ (by decide), hbytes _ _ (by decide), hm _ (by decide),
    hm _ (by decide), hm _ (by decide), hm _ (by decide)]
  simp only [arpFrame, ethHeader]
  refine ⟨?_, ?_, ?_, ?_, ?_, ?_, ?_, ?_, ?_, ?_⟩
  · simp (disch := omega) only [putBytes_other, put16_other, put8_other, put8_self]
  · simp (disch := omega) only [putBytes_other, put16_other, put8_other, put8_self]
  · simp (disch := omega) only [get16_putBytes_ne, get16_put16_ne, get16_put8_ne, get16_put16]
    rfl
  · simp (disch := omega) only [get16_putBytes_ne, get16_put16_ne, get16_put8_ne, get16_put16]
    rfl
  · simp (disch := omega) only [putBytes_other, put16_other, put8_other, put8_self]
  · simp (disch := omega) only [putBytes_other, put16_other, put8_self]
  · simp (disch := omega) only [get16_putBytes_ne, get16_put16]
    exact Nat.mod_eq_of_lt hop
  · simp (disch := omega) only [getBytes_putBytes_ne, getBytes_putBytes]
  · exact getBytes_putBytes ..
  · simp (disch := omega) only [getBytes_putBytes_ne, getBytes_putBytes]

theorem arpFrame_isRequest (hd : dstIp = k.myIp)
    (hm : ∀ i < 44, m i = (arpFrame h ARP_OPS_REQUEST ethDst dstMac dstIp send).1 i) :
    IsRequest k m 14 := by
  obtain ⟨-, -, h1, h2, h3, h4, hop, -, -, hip⟩ := arpFrame_fields (by decide) hm
  exact ⟨⟨h1, h2, h3, h4, hip.trans hd⟩, hop⟩

theorem arpFrame_isReply (hd : dstIp = k.myIp)
    (hm : ∀ i < 44, m i = (arpFrame h ARP_OPS_REPLY ethDst dstMac dstIp send).1 i) :
    IsReply k m 14 := by
  obtain ⟨-, -, h1, h2, h3, h4, hop, -, -, hip⟩ := arpFrame_fields (by decide) hm
  exact ⟨⟨h1, h2, h3, h4, hip.trans hd⟩, hop⟩

end

/-! ## The search -/

section
variable {t : Nat → ArpEntry} {ip : Ip} {i k n : Nat} {e : Int}

theorem arpTableSearchFrom_found (hik : i ≤ k) (hk : k < i + n) (h : (t k).ip = ip)
    (hfirst : ∀ j, i ≤ j → j < k → (t j).ip ≠ ip) : arpTableSearchFrom t ip n i e = k := by
  induction n generalizing i e with
  | zero => omega
  | succ n ih =>
    rw [arpTableSearchFrom]
    rcases Nat.eq_or_lt_of_le hik with rfl | hlt
    · rw [if_pos h]
    · rw [if_neg (hfirst i (Nat.le_refl i) hlt)]
      exact ih hlt (by omega) fun j h1 h2 => hfirst j (by omega) h2

theorem arpTableSearchFrom_none (hno : ∀ j, i ≤ j → j < i + n → (t j).ip ≠ ip)
    (he : e ≠ 1 ∨ ∀ j, i ≤ j → j < i + n → (t j).use ≠ 0) :
    arpTableSearchFrom t ip n i e = e - 1 := by
  induction n generalizing i with
  | zero => rfl
  | succ n ih =>
    have hkeep : ¬ ((t i).use = 0 ∧ e = 1) := by
      rintro ⟨hu, h1⟩
      rcases he with he | he
      · exact he h1
      · exact he i (Nat.le_refl i) (by omega) hu
    rw [arpTableSearchFrom, if_neg (hno i (Nat.le_refl i) (by omega)), if_neg hkeep]
    exact ih (fun j h1 h2 => hno j (by omega) (by omega))
      (he.imp_right fun he j h1 h2 => he j (by omega) (by omega))

theorem arpTableSearchFrom_free (hno : ∀ j, i ≤ j → j < i + n → (t j).ip ≠ ip) (hik : i ≤ k)
    (hk : k < i + n) (hu : (t k).use = 0) (hfirst : ∀ j, i ≤ j → j < k → (t j).use ≠ 0) :
    arpTableSearchFrom t ip n i 1 = -(k : Int) - 1 := by
  induction n generalizing i with
  | zero => omega
  | succ n ih =>
    rw [arpTableSearchFrom, if_neg (hno i (Nat.le_refl i) (by omega))]
    have hno' : ∀ j, i + 1 ≤ j → j < i + 1 + n → (t j).ip ≠ ip :=
      fun j h1 h2 => hno j (by omega) (by omega)
    rcases Nat.eq_or_lt_of_le hik with rfl | hlt
    · rw [if_pos ⟨hu, rfl⟩]
      exact arpTableSearchFrom_none hno' (.inl (by omega))
    · rw [if_neg fun h => hfirst i (Nat.le_refl i) hlt h.1]
      exact ih hno' hlt (by omega) fun j h1 h2 => hfirst j (by omega) h2

theorem exists_first {p : Nat → Prop} (h : ∃ k < n, p k) : ∃ k < n, p k ∧ ∀ j < k, ¬ p j := by
  classical
  obtain ⟨hlt, hp⟩ := Nat.find_spec h
  exact ⟨Nat.find h, hlt, hp, fun j hj hpj => Nat.find_min h hj ⟨hj.trans hlt, hpj⟩⟩

variable {recv : Store} {o : Nat}

/-- **The three updates of the table**: of the first entry with the address, of the first free entry,
and of entry 0 when there is neither. -/
theorem arpTableUpdate_cases (t : Nat → ArpEntry) (recv : Store) (o : Nat) :
    (∃ k < ARP_TABLE_MAX, (t k).ip = arpSrcIp recv o ∧ (∀ j < k, (t j).ip ≠ arpSrcIp recv o) ∧
      arpTableUpdate recv o t = update t k { t k with mac := arpSrcMac recv o }) ∨
    (∀ j < ARP_TABLE_MAX, (t j).ip ≠ arpSrcIp recv o) ∧
      ((∃ k < ARP_TABLE_MAX, (t k).use = 0 ∧ (∀ j < k, (t j).use ≠ 0) ∧
        arpTableUpdate recv o t =
          update t k ⟨arpSrcIp recv o, arpSrcMac recv o, 1⟩) ∨
      ((∀ j < ARP_TABLE_MAX, (t j).use ≠ 0) ∧
        arpTableUpdate recv o t = update t 0 { t 0 with mac := arpSrcMac recv o })) := by
  by_cases hfound : ∃ k < ARP_TABLE_MAX, (t k).ip = arpSrcIp recv o
  · left
    obtain ⟨k, hk, hip, hfirst⟩ := exists_first hfound
    have hs : arpTableSearch t (arpSrcIp recv o) = k :=
      arpTableSearchFrom_found (Nat.zero_le k) (by rwa [Nat.zero_add]) hip fun j _ => hfirst j
    refine ⟨k, hk, hip, hfirst, ?_⟩
    simp only [arpTableUpdate, hs]
    rw [if_pos (by omega), Int.toNat_natCast]
  · right
    have hno : ∀ j < ARP_TABLE_MAX, (t j).ip ≠ arpSrcIp recv o := fun j hj h => hfound ⟨j, hj, h⟩
    refine ⟨hno, ?_⟩
    by_cases hfree : ∃ k < ARP_TABLE_MAX, (t k).use = 0
    · left
      obtain ⟨k, hk, hu, hfirst⟩ := exists_first hfree
      have hs : arpTableSearch t (arpSrcIp recv o) = -(k : Int) - 1 :=
        arpTableSearchFrom_free (fun j _ h => hno j (by omega)) (Nat.zero_le k)
          (by rwa [Nat.zero_add]) hu fun j _ => hfirst j
      refine ⟨k, hk, hu, hfirst, ?_⟩
      simp only [arpTableUpdate, hs]
      rw [if_neg (by omega), show (-(-(k : Int) - 1 + 1)).toNat = k by omega]
    · right
      have hfull : ∀ j < ARP_TABLE_MAX, (t j).use ≠ 0 := fun j hj h => hfree ⟨j, hj, h⟩
      have hs : arpTableSearch t (arpSrcIp recv o) = 1 - 1 :=
        arpTableSearchFrom_none (fun j _ h => hno j (by omega))
          (.inr fun j _ h => hfull j (by omega))
      refine ⟨hfull, ?_⟩
      simp only [arpTableUpdate, hs]
      rfl

end

/-! ## Reachable tables -/

/-- The tables that the code builds: the address of a free entry is zero, that of an entry in use is
not, and no two entries in use have the same one. -/
structure Tidy (t : Nat → ArpEntry) : Prop where
  free_iff : ∀ i < ARP_TABLE_MAX, (t i).use = 0 ↔ (t i).ip = 0
  unique : ∀ i < ARP_TABLE_MAX, ∀ j < ARP_TABLE_MAX, (t i).use ≠ 0 → (t j).use ≠ 0 →
    (t i).ip = (t j).ip → i = j

section
variable {t : Nat → ArpEntry} {recv : Store} {o : Nat}

theorem tidy_init : Tidy State.init.arpTable where
  free_iff _ _ := ⟨fun _ => rfl, fun _ => rfl⟩
  unique _ _ _ _ h := absurd rfl h

theorem Tidy.setMac (h : Tidy t) (k : Nat) (mac : Mac) :
    Tidy (update t k { t k with mac := mac }) := by
  have hsame : ∀ i, (update t k { t k with mac := mac } i).use = (t i).use ∧
      (update t k { t k with mac := mac } i).ip = (t i).ip := by
    intro i
    by_cases hik : i = k
    · subst hik
      rw [update_self]
      exact ⟨rfl, rfl⟩
    · rw [update_of_ne hik]
      exact ⟨rfl, rfl⟩
  constructor
  · intro i hi
    rw [(hsame i).1, (hsame i).2]
    exact h.free_iff i hi
  · intro i hi j hj
    rw [(hsame i).1, (hsame i).2, (hsame j).1, (hsame j).2]
    exact h.unique i hi j hj

theorem Tidy.insert (h : Tidy t) {k : Nat} {ip : Ip} {mac : Mac} (hk : k < ARP_TABLE_MAX)
    (hu : (t k).use = 0) (hno : ∀ j < ARP_TABLE_MAX, (t j).ip ≠ ip) :
    Tidy (update t k ⟨ip, mac, 1⟩) := by
  have hip : ip ≠ 0 := fun h0 => hno k hk (h0 ▸ (h.free_iff k hk).1 hu)
  constructor
  · intro i hi
    by_cases hik : i = k
    · subst hik
      simp [hip]
    · rw [update_of_ne hik]
      exact h.free_iff i hi
  · intro i hi j hj
    by_cases hik : i = k <;> by_cases hjk : j = k
    · intros
      rw [hik, hjk]
    · subst hik
      rw [update_self, update_of_ne hjk]
      exact fun _ _ he => absurd he.symm (hno j hj)
    · subst hjk
      rw [update_self, update_of_ne hik]
      exact fun _ _ he => absurd he (hno i hi)
    · rw [update_of_ne hik, update_of_ne hjk]
      exact h.unique i hi j hj

theorem Tidy.update (h : Tidy t) (recv : Store) (o : Nat) : Tidy (arpTableUpdate recv o t) := by
  rcases arpTableUpdate_cases t recv o with
    ⟨k, -, -, -, he⟩ | ⟨hno, ⟨k, hk, hu, -, he⟩ | ⟨-, he⟩⟩
  · exact he ▸ h.setMac k _
  · exact he ▸ h.insert hk hu hno
  · exact he ▸ h.setMac 0 _

end

end Net
