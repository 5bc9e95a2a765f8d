import Xv6.Net.Proof.Arp

/-!
# The ARP table as a map, and the exchange that fills it

The table is a map from addresses to the last MAC address heard for replies whose sender is in it, or
finds a free entry and has an address other than 0.0.0.0 (`arp_table_map`). A new sender that comes to
a full table gets entry 0 (`arp_table_overwritten`).
-/

namespace Net

open Bytes Function

/-! ## The table -/

def Present (t : Nat → ArpEntry) (ip : Ip) : Prop :=
  ∃ i < ARP_TABLE_MAX, (t i).use ≠ 0 ∧ (t i).ip = ip

def HasFree (t : Nat → ArpEntry) : Prop := ∃ i < ARP_TABLE_MAX, (t i).use = 0

def latest (replies : List (Ip × Mac)) (ip : Ip) : Option Mac :=
  (replies.reverse.find? fun r => r.1 = ip).map Prod.snd

def sender (x : Store × Store) : Ip × Mac := (arpSrcIp x.1 14, arpSrcMac x.1 14)

/-- `arp_proc` for the received buffers in order, each with the page that `kalloc` returns then. -/
def arpRun (h : Host) (inputs : List (Store × Store)) (s : State) : State :=
  inputs.foldl (fun s x => (arpProc h x.2 x.1 14 s).2) s

/-- The table `after` the reply `r`, when it was `before` and `replies` came earlier, is as a map
should be. -/
structure IsMap (before after : Nat → ArpEntry) (replies : List (Ip × Mac)) (r : Ip × Mac) :
    Prop where
  unique : ∀ i < ARP_TABLE_MAX, ∀ j < ARP_TABLE_MAX, (after i).use ≠ 0 → (after j).use ≠ 0 →
    (after i).ip = (after j).ip → i = j
  latest : ∀ i < ARP_TABLE_MAX, (after i).use ≠ 0 →
    latest (replies ++ [r]) (after i).ip = some (after i).mac
  stored : HasFree before ∨ Present before r.1 → Present after r.1
  full : ¬ HasFree before → ¬ Present before r.1 → ∀ i < ARP_TABLE_MAX, after i = before i

/-- The replies that the table takes: the sender is there, or has an address other than 0.0.0.0 and
finds a free entry, or comes to a full table with the MAC address of entry 0. -/
def Storable (t : Nat → ArpEntry) (r : Ip × Mac) : Prop :=
  Present t r.1 ∨ (HasFree t ∧ r.1 ≠ 0) ∨ (¬ HasFree t ∧ (t 0).mac = r.2)

section
variable {t : Nat → ArpEntry} {replies : List (Ip × Mac)} {r : Ip × Mac} {ip : Ip} {recv : Store}
  {h : Host} {l : List (Store × Store)} {x : Store × Store} {s : State}

theorem latest_concat :
    latest (replies ++ [r]) ip = if r.1 = ip then some r.2 else latest replies ip := by
  rw [latest, List.reverse_append, List.reverse_singleton, List.singleton_append, List.find?_cons]
  by_cases hr : r.1 = ip
  · simp [hr]
  · simp [hr, latest]

/-- Every entry in use has the last MAC address heard for its address. -/
def Latest (t : Nat → ArpEntry) (replies : List (Ip × Mac)) : Prop :=
  ∀ i < ARP_TABLE_MAX, (t i).use ≠ 0 → latest replies (t i).ip = some (t i).mac

theorem Latest.other (hl : Latest t replies) {i : Nat} (hi : i < ARP_TABLE_MAX)
    (hu : (t i).use ≠ 0) (hip : (t i).ip ≠ r.1) :
    latest (replies ++ [r]) (t i).ip = some (t i).mac := by
  rw [latest_concat, if_neg fun he => hip he.symm]
  exact hl i hi hu

theorem Latest.setMac (ht : Tidy t) (hl : Latest t replies) {k : Nat} (hk : k < ARP_TABLE_MAX)
    (hu : (t k).use ≠ 0) (hip : (t k).ip = r.1) :
    Latest (update t k { t k with mac := r.2 }) (replies ++ [r]) := by
  intro i hi hui
  by_cases hik : i = k
  · subst hik
    rw [update_self, latest_concat, if_pos hip.symm]
  · rw [update_of_ne hik] at hui ⊢
    exact hl.other hi hui fun he => hik (ht.unique i hi k hk hui hu (he.trans hip.symm))

theorem Latest.insert (hl : Latest t replies) {k : Nat}
    (hno : ∀ j < ARP_TABLE_MAX, (t j).ip ≠ r.1) :
    Latest (update t k ⟨r.1, r.2, 1⟩) (replies ++ [r]) := by
  intro i hi hui
  by_cases hik : i = k
  · subst hik
    rw [update_self, latest_concat, if_pos rfl]
  · rw [update_of_ne hik] at hui ⊢
    exact hl.other hi hui (hno i hi)

theorem isMap_of_storable (ht : Tidy t) (hl : Latest t replies)
    (hs : Storable t (arpSrcIp recv 14, arpSrcMac recv 14)) :
    IsMap t (arpTableUpdate recv 14 t) replies (arpSrcIp recv 14, arpSrcMac recv 14) := by
  have htidy := ht.update recv 14
  rcases arpTableUpdate_cases t recv 14 with
    ⟨k, hk, hip, -, he⟩ | ⟨hno, ⟨k, hk, hu, -, he⟩ | ⟨hfull, he⟩⟩
  · have hu : (t k).use ≠ 0 := by
      intro hu
      have h0 : arpSrcIp recv 14 = 0 := hip.symm.trans ((ht.free_iff k hk).1 hu)
      rcases hs with ⟨i, hi, hui, hipi⟩ | ⟨-, hne⟩ | ⟨hfull, -⟩
      · exact hui ((ht.free_iff i hi).2 (hipi.trans h0))
      · exact hne h0
      · exact hfull ⟨k, hk, hu⟩
    refine ⟨htidy.unique, ?_, fun _ => ?_, fun _ hnp => absurd ⟨k, hk, hu, hip⟩ hnp⟩
    · rw [he]
      exact hl.setMac (r := (_, _)) ht hk hu hip
    · refine ⟨k, hk, ?_⟩
      rw [he, update_self]
      exact ⟨hu, hip⟩
  · refine ⟨htidy.unique, ?_, fun _ => ⟨k, hk, ?_⟩, fun hnf => absurd ⟨k, hk, hu⟩ hnf⟩
    · rw [he]
      exact hl.insert (r := (_, _)) hno
    · rw [he, update_self]
      exact ⟨show (1 : UInt8) ≠ 0 by decide, rfl⟩
  · have hnp : ¬ Present t (arpSrcIp recv 14) := fun ⟨i, hi, _, hipi⟩ => hno i hi hipi
    have hnf : ¬ HasFree t := fun ⟨i, hi, hui⟩ => hfull i hi hui
    have hmac : (t 0).mac = arpSrcMac recv 14 :=
      ((hs.resolve_left hnp).resolve_left fun hf => hnf hf.1).2
    rw [← hmac, update_eq_self] at he
    rw [he] at htidy ⊢
    exact ⟨htidy.unique, fun i hi hu => hl.other hi hu (hno i hi),
      fun hor => absurd hor (not_or.2 ⟨hnf, hnp⟩), fun _ _ _ _ => rfl⟩

theorem storable_of_isMap (ht : Tidy t)
    (hm : IsMap t (arpTableUpdate recv 14 t) replies (arpSrcIp recv 14, arpSrcMac recv 14)) :
    Storable t (arpSrcIp recv 14, arpSrcMac recv 14) := by
  rcases arpTableUpdate_cases t recv 14 with
    ⟨k, hk, hip, -, he⟩ | ⟨hno, ⟨k, hk, hu, -, he⟩ | ⟨hfull, he⟩⟩
  · by_cases hu : (t k).use = 0
    · -- the entry is free and stays free
      have h0 : arpSrcIp recv 14 = 0 := hip.symm.trans ((ht.free_iff k hk).1 hu)
      obtain ⟨i, hi, hui, hipi⟩ := hm.stored (.inl ⟨k, hk, hu⟩)
      exact absurd (((ht.update recv 14).free_iff i hi).2 (hipi.trans h0)) hui
    · exact .inl ⟨k, hk, hu, hip⟩
  · refine .inr (.inl ⟨⟨k, hk, hu⟩, fun h0 => hno k hk ?_⟩)
    exact ((ht.free_iff k hk).1 hu).trans h0.symm
  · refine .inr (.inr ⟨fun ⟨i, hi, hui⟩ => hfull i hi hui, ?_⟩)
    have h0 := hm.full (fun ⟨i, hi, hui⟩ => hfull i hi hui)
      (fun ⟨i, hi, _, hipi⟩ => hno i hi hipi) 0 (by decide)
    rw [he, update_self] at h0
    exact (congrArg ArpEntry.mac h0).symm

theorem arpRun_concat : arpRun h (l ++ [x]) s = (arpProc h x.2 x.1 14 (arpRun h l s)).2 := by
  rw [arpRun, List.foldl_append]
  rfl

theorem arpRun_table (hx : IsReply h x.1 14) : (arpRun h (l ++ [x]) s).arpTable =
    arpTableUpdate x.1 14 (arpRun h l s).arpTable := by
  rw [arpRun_concat, arpProc_reply hx]

/-- **The ARP table is a map** for the replies it takes, and for no others. -/
theorem arp_table_map (hl : ∀ x ∈ l, ∀ s, (arpProc h x.2 x.1 14 s).1 = ARP_UPDATED_TABLE) :
    Always (fun l1 x => IsMap (arpRun h l1 .init).arpTable (arpRun h (l1 ++ [x]) .init).arpTable
      (l1.map sender) (sender x)) l ↔
    Always (fun l1 x => Storable (arpRun h l1 .init).arpTable (sender x)) l := by
  refine (Always.iff (A := fun x => IsReply h x.1 14) (I := fun l =>
    Tidy (arpRun h l .init).arpTable ∧ Latest (arpRun h l .init).arpTable (l.map sender))
    ?_ ?_ ?_ fun x hx => arpProc_updated.1 (hl x hx .init)).symm
  · exact ⟨tidy_init, fun i _ hu => absurd rfl hu⟩
  · intro l x hx ⟨ht, hlat⟩
    rw [arpRun_table hx]
    exact ⟨isMap_of_storable ht hlat, storable_of_isMap ht⟩
  · intro l x hx ⟨ht, hlat⟩ hs
    rw [arpRun_table hx, List.map_append]
    exact ⟨ht.update x.1 14, (isMap_of_storable ht hlat hs).latest⟩

end

/-! ### A full table -/

def sampleHost : Host := ⟨fun _ => 0, ![10, 0, 1, 10]⟩

def peer (k : Nat) : Host := ⟨fun _ => UInt8.ofNat k, ![10, 0, 2, UInt8.ofNat k]⟩

def replyOf (p : Host) : Store × Store :=
  ((arpFrame p ARP_OPS_REPLY sampleHost.macAddr sampleHost.macAddr sampleHost.myIp (fill 0)).1, fill 0)

theorem replyOf_isReply (p : Host) : IsReply sampleHost (replyOf p).1 14 :=
  arpFrame_isReply rfl fun _ _ => rfl

theorem sender_replyOf (p : Host) : sender (replyOf p) = (p.myIp, p.macAddr) := by
  obtain ⟨-, -, -, -, -, -, -, hmac, hip, -⟩ := arpFrame_fields (show ARP_OPS_REPLY < 65536 by decide)
    (fun i _ => (rfl : (replyOf p).1 i = _))
  rw [sender, hmac, hip]

theorem peer_mac_inj {j k : Nat} (hj : j < 256) (hk : k < 256)
    (h : (peer j).macAddr = (peer k).macAddr) : j = k := by
  have := congrArg UInt8.toNat (congrFun h 0)
  simpa [peer, UInt8.toNat_ofNat', Nat.mod_eq_of_lt hj, Nat.mod_eq_of_lt hk] using this

theorem peer_ip_inj {j k : Nat} (hj : j < 256) (hk : k < 256)
    (h : (peer j).myIp = (peer k).myIp) : j = k := by
  have := congrArg UInt8.toNat (congrFun h 3)
  simpa [peer, UInt8.toNat_ofNat', Nat.mod_eq_of_lt hj, Nat.mod_eq_of_lt hk] using this

theorem peer_ip_ne (k : Nat) : (0 : Ip) ≠ (peer k).myIp := fun h =>
  absurd (congrFun h 0) (show (0 : UInt8) ≠ 10 by decide)

def peerReplies (n : Nat) : List (Store × Store) := (List.range n).map fun k => replyOf (peer k)

theorem peerReplies_succ (n : Nat) : peerReplies (n + 1) = peerReplies n ++ [replyOf (peer n)] := by
  rw [peerReplies, List.range_succ, List.map_append]
  rfl

theorem peerReplies_table {n : Nat} (hn : n ≤ ARP_TABLE_MAX) (i : Nat) :
    (arpRun sampleHost (peerReplies n) .init).arpTable i =
      if i < n then ⟨(peer i).myIp, (peer i).macAddr, 1⟩ else State.init.arpTable i := by
  induction n generalizing i with
  | zero => rfl
  | succ n ih =>
    have ih := fun i => ih (by omega) i
    have hsize : ARP_TABLE_MAX = 64 := rfl
    obtain ⟨hip, hmac⟩ := Prod.ext_iff.1 (sender_replyOf (peer n))
    rw [peerReplies_succ, arpRun_table (replyOf_isReply (peer n))]
    rcases arpTableUpdate_cases (arpRun sampleHost (peerReplies n) .init).arpTable
      (replyOf (peer n)).1 14 with ⟨k, hk, hipk, -, -⟩ | ⟨-, ⟨k, hk, hu, hfirst, he⟩ | ⟨hfull, -⟩⟩
    · have hipk := hipk.trans hip
      rw [ih] at hipk
      split at hipk
      · exact absurd (peer_ip_inj (by omega) (by omega) hipk) (by omega)
      · exact absurd hipk (peer_ip_ne n)
    · obtain rfl : k = n := by
        rcases Nat.lt_trichotomy k n with hlt | rfl | hlt
        · rw [ih, if_pos hlt] at hu
          exact absurd hu (show (1 : UInt8) ≠ 0 by decide)
        · rfl
        · have := hfirst n hlt
          rw [ih, if_neg (Nat.lt_irrefl n)] at this
          exact absurd rfl this
      rw [he]
      by_cases hik : i = k
      · subst hik
        rw [update_self, if_pos (Nat.lt_succ_self i)]
        exact congrArg₂ (fun a b => ArpEntry.mk a b 1) hip hmac
      · rw [update_of_ne hik, ih]
        exact if_congr (by omega) rfl rfl
    · have := hfull n (by omega)
      rw [ih, if_neg (Nat.lt_irrefl n)] at this
      exact absurd rfl this

/-- The 65th sender takes entry 0. -/
theorem arp_table_overwritten :
    (∀ x ∈ peerReplies 65, ∀ s, (arpProc sampleHost x.2 x.1 14 s).1 = ARP_UPDATED_TABLE) ∧
    ¬ Always (fun l1 x => IsMap (arpRun sampleHost l1 .init).arpTable
      (arpRun sampleHost (l1 ++ [x]) .init).arpTable (l1.map sender) (sender x)) (peerReplies 65) := by
  constructor
  · intro x hx s
    obtain ⟨k, -, rfl⟩ := List.mem_map.1 hx
    exact arpProc_updated.2 (replyOf_isReply (peer k))
  · intro h
    have hlast := (always_concat.1 (peerReplies_succ 64 ▸ h)).2
    have htable := fun i => peerReplies_table (Nat.le_refl ARP_TABLE_MAX) i
    have hip := (Prod.ext_iff.1 (sender_replyOf (peer 64))).1
    have hmac := (Prod.ext_iff.1 (sender_replyOf (peer 64))).2
    have hsize : ARP_TABLE_MAX = 64 := rfl
    rw [arpRun_table (replyOf_isReply (peer 64))] at hlast
    have hused : ∀ i < ARP_TABLE_MAX,
        (arpRun sampleHost (peerReplies 64) .init).arpTable i =
          ⟨(peer i).myIp, (peer i).macAddr, 1⟩ := fun i hi => (htable i).trans (if_pos hi)
    have hnf : ¬ HasFree (arpRun sampleHost (peerReplies 64) .init).arpTable := by
      rintro ⟨i, hi, hu⟩
      rw [hused i hi] at hu
      exact absurd hu (show (1 : UInt8) ≠ 0 by decide)
    have hnew : ∀ i < ARP_TABLE_MAX,
        ((arpRun sampleHost (peerReplies 64) .init).arpTable i).ip ≠ (sender (replyOf (peer 64))).1 := by
      intro i hi he
      rw [hused i hi, hip] at he
      exact absurd (peer_ip_inj (by omega) (by decide) he) (by omega)
    have h0 := hlast.full hnf (fun ⟨i, hi, _, he⟩ => hnew i hi he) 0 (by decide)
    rcases arpTableUpdate_cases (arpRun sampleHost (peerReplies 64) .init).arpTable
      (replyOf (peer 64)).1 14 with ⟨k, hk, hipk, -, -⟩ | ⟨-, ⟨k, hk, hu, -, -⟩ | ⟨-, he⟩⟩
    · exact hnew k hk hipk
    · exact hnf ⟨k, hk, hu⟩
    · rw [he, update_self] at h0
      have hm := (congrArg ArpEntry.mac h0).symm.trans hmac
      rw [hused 0 (by decide)] at hm
      exact absurd (peer_mac_inj (by decide) (by decide) hm) (by decide)

/-- Two hosts are entered, and a second reply of the first changes its MAC address. -/
theorem arp_table_map_update : Always (fun l1 x => IsMap (arpRun sampleHost l1 .init).arpTable
    (arpRun sampleHost (l1 ++ [x]) .init).arpTable (l1.map sender) (sender x))
    (peerReplies 2 ++ [replyOf { peer 0 with macAddr := (peer 1).macAddr }]) := by
  have hfree : ∀ n < 64, HasFree (arpRun sampleHost (peerReplies n) .init).arpTable := fun n hn =>
    ⟨n, hn, by rw [peerReplies_table (Nat.le_of_lt hn), if_neg (Nat.lt_irrefl n)]; rfl⟩
  have hstore : ∀ n < 64, Storable (arpRun sampleHost (peerReplies n) .init).arpTable
      (sender (replyOf (peer n))) := fun n hn => .inr (.inl ⟨hfree n hn, by
    rw [sender_replyOf]
    exact (peer_ip_ne n).symm⟩)
  have h0 : (arpRun sampleHost (peerReplies 2) .init).arpTable 0 = _ := peerReplies_table (by decide) 0
  refine (arp_table_map fun x hx s => ?_).2 (always_concat.2 ⟨?_, .inl ⟨0, by decide, ?_, ?_⟩⟩)
  · rcases List.mem_append.1 hx with hx | hx
    · obtain ⟨k, -, rfl⟩ := List.mem_map.1 hx
      exact arpProc_updated.2 (replyOf_isReply (peer k))
    · rw [List.mem_singleton.1 hx]
      exact arpProc_updated.2 (replyOf_isReply _)
  · rw [peerReplies_succ, peerReplies_succ]
    exact always_concat.2 ⟨always_concat.2 ⟨always_nil, hstore 0 (by decide)⟩, hstore 1 (by decide)⟩
  · rw [h0]
    decide
  · rw [h0, sender_replyOf]
    rfl

/-! ## The exchange -/

def Delivered (f : Frame) (buf : Store) : Prop := slice buf 0 f.length = f

section
variable {A B C h : Host} {b : UInt8} {s sA : State} {m buf page : Store} {n : Nat}

theorem delivered_iff : Delivered (slice m 0 n) buf ↔ ∀ i < n, buf i = m i := by
  rw [Delivered, length_slice, slice_inj]
  exact ⟨fun h i hi => h i (Nat.zero_le i) (by omega), fun h i _ hi => h i (by omega)⟩

theorem ethProc_arp (h1 : buf 12 = 0x08) (h2 : buf 13 = 0x06) :
    ethProc h page buf s = (arpProc h page buf 14 s).2 := if_pos ⟨h1, h2⟩

theorem icmpProc_table : (icmpProc h page buf s).arpTable = s.arpTable := by
  unfold icmpProc
  dsimp only
  split_ifs <;> rfl

theorem tcpProc_table : (tcpProc h page buf s).arpTable = s.arpTable := by
  unfold tcpProc tcpBuild
  dsimp only
  split_ifs <;> rfl

theorem ipv4Proc_table : (ipv4Proc h page buf s).arpTable = s.arpTable := by
  have hd : (ipv4Dispatch h buf s).2.arpTable = s.arpTable := by
    unfold ipv4Dispatch
    split_ifs <;> rfl
  unfold ipv4Proc
  split
  · next s' he =>
    rw [he] at hd
    split_ifs
    · exact icmpProc_table.trans hd
    · exact tcpProc_table.trans hd
  · next s' he =>
    rw [he] at hd
    exact hd

theorem Tidy.arpProc (ht : Tidy s.arpTable) (o : Nat) :
    Tidy (Net.arpProc h page buf o s).2.arpTable := by
  by_cases hq : IsRequest h buf o
  · rw [arpProc_request hq]
    exact ht
  · by_cases hr : IsReply h buf o
    · rw [arpProc_reply hr]
      exact ht.update buf o
    · rw [arpProc_other hq hr]
      exact ht

theorem Tidy.ethProc (ht : Tidy s.arpTable) : Tidy (Net.ethProc h page buf s).arpTable := by
  unfold Net.ethProc
  split_ifs
  · exact ht.arpProc 14
  · rw [ipv4Proc_table]
    exact ht
  · exact ht

theorem tidy_ethRun (inputs : List (Store × Store)) : Tidy (ethRun h inputs .init).arpTable := by
  induction inputs using List.reverseRecOn with
  | nil => exact tidy_init
  | append_singleton l x ih =>
    rw [ethRun, List.foldl_append]
    exact ih.ethProc

theorem Tidy.learns {t : Nat → ArpEntry} {ip : Ip} {mac : Mac} (ht : Tidy t) (h0 : ip ≠ 0)
    (hip : arpSrcIp buf 14 = ip) (hmac : arpSrcMac buf 14 = mac) (hroom : Present t ip ∨ HasFree t) :
    ∃ i < ARP_TABLE_MAX, (arpTableUpdate buf 14 t i).use ≠ 0 ∧ (arpTableUpdate buf 14 t i).ip = ip ∧
      (arpTableUpdate buf 14 t i).mac = mac ∧ ∀ j ≠ i, arpTableUpdate buf 14 t j = t j := by
  rcases arpTableUpdate_cases t buf 14 with
    ⟨k, hk, hipk, -, he⟩ | ⟨hno, ⟨k, hk, -, -, he⟩ | ⟨hfull, -⟩⟩
  · have hu : (t k).use ≠ 0 := fun hu =>
      h0 ((hip.symm.trans hipk.symm).trans ((ht.free_iff k hk).1 hu))
    refine ⟨k, hk, ?_⟩
    rw [he, update_self]
    exact ⟨hu, hipk.trans hip, hmac, fun j hj => update_of_ne hj ..⟩
  · refine ⟨k, hk, ?_⟩
    rw [he, update_self]
    exact ⟨show (1 : UInt8) ≠ 0 by decide, hip, hmac, fun j hj => update_of_ne hj ..⟩
  · rcases hroom with ⟨i, hi, -, hipi⟩ | ⟨i, hi, hu⟩
    · exact absurd (hipi.trans hip.symm) (hno i hi)
    · exact absurd hu (hfull i hi)

theorem ethProc_third {op : Nat} {ethDst dstMac : Mac} {dstIp : Ip} {send : Store} (hop : op < 65536)
    (hm : ∀ i < 44, buf i = (arpFrame h op ethDst dstMac dstIp send).1 i) (hne : C.myIp ≠ dstIp) :
    ethProc C page buf s = s := by
  obtain ⟨h1, h2, -, -, -, -, -, -, -, hd⟩ := arpFrame_fields hop hm
  rw [ethProc_arp h1 h2, arpProc_other (fun hq => hne (hq.1.dstIp.symm.trans hd))
    fun hr => hne (hr.1.dstIp.symm.trans hd)]

/-- **An ARP exchange**: the request of `A` for the address of `B` makes `B` send one frame, after
which the table of `A` has the address of `B`. -/
theorem arp_exchange (hB : B.myIp = ![10, 0, 1, b]) (hreach : ∃ inputs, sA = ethRun A inputs .init)
    (hroom : Present sA.arpTable B.myIp ∨ HasFree sA.arpTable) (page pageB buf : Store)
    (sB : State) : let (send, size) := arpBroadcast A page b.toNat
    Delivered (slice send 0 size) buf →
    ∃ reply, ethProc B pageB buf sB = { sB with sent := sB.sent ++ [reply] } ∧
      (∀ pageA buf, Delivered reply buf →
        ∃ i < ARP_TABLE_MAX, ((ethProc A pageA buf sA).arpTable i).use ≠ 0 ∧
          ((ethProc A pageA buf sA).arpTable i).ip = B.myIp ∧
          ((ethProc A pageA buf sA).arpTable i).mac = B.macAddr ∧
          ∀ j ≠ i, (ethProc A pageA buf sA).arpTable j = sA.arpTable j) ∧
      ∀ (C : Host) (s : State) (pageC buf : Store), C.myIp ≠ A.myIp → C.myIp ≠ B.myIp →
        Delivered (slice send 0 size) buf ∨ Delivered reply buf → ethProc C pageC buf s = s := by
  intro hdel
  have hdst : (![10, 0, 1, UInt8.ofNat b.toNat] : Ip) = B.myIp := by
    rw [hB, UInt8.ofNat_toNat]
  have hreq := delivered_iff.1 hdel
  obtain ⟨h12, h13, -, -, -, -, -, hmac, hip, -⟩ := arpFrame_fields (by decide) hreq
  refine ⟨slice (arpReplyPktCreate B buf 14 pageB).1 0 44, ?_, ?_, ?_⟩
  · rw [ethProc_arp h12 h13, arpProc_request (arpFrame_isRequest hdst hreq)]
    rfl
  · intro pageA buf' hdel'
    have hrep := delivered_iff.1 hdel'
    rw [arpReplyPktCreate, hmac, hip] at hrep
    obtain ⟨h12', h13', -, -, -, -, -, hmac', hip', -⟩ := arpFrame_fields (by decide) hrep
    rw [ethProc_arp h12' h13', arpProc_reply (arpFrame_isReply rfl hrep)]
    obtain ⟨inputs, rfl⟩ := hreach
    refine (tidy_ethRun inputs).learns ?_ hip' hmac' hroom
    rw [hB]
    exact fun h0 => absurd (congrFun h0 0) (show (10 : UInt8) ≠ 0 by decide)
  · rintro C s pageC buf' hCA hCB (hdel' | hdel')
    · exact ethProc_third (by decide) (delivered_iff.1 hdel') (hdst ▸ hCB)
    · have hrep := delivered_iff.1 hdel'
      rw [arpReplyPktCreate, hmac, hip] at hrep
      exact ethProc_third (by decide) hrep hCA

end

theorem arp_exchange_ten : ∃ buf reply,
    (ethProc ⟨fun _ => 7, ![10, 0, 1, 20]⟩ (fill 0) buf .init).sent = [reply] ∧
    ∀ buf, Delivered reply buf → ∃ i,
      ((ethProc sampleHost (fill 0) buf .init).arpTable i).ip = ![10, 0, 1, 20] ∧
      ((ethProc sampleHost (fill 0) buf .init).arpTable i).mac = fun _ => 7 := by
  obtain ⟨reply, hsent, hlearn, -⟩ :=
    arp_exchange (A := sampleHost) (B := ⟨fun _ => 7, ![10, 0, 1, 20]⟩) (b := 20) rfl ⟨[], rfl⟩
      (.inr ⟨0, by decide, rfl⟩) (fill 0) (fill 0) _ .init (delivered_iff.2 fun _ _ => rfl)
  refine ⟨_, reply, congrArg State.sent hsent, fun buf hdel => ?_⟩
  obtain ⟨i, -, -, hip, hmac, -⟩ := hlearn (fill 0) buf hdel
  exact ⟨i, hip, hmac⟩

end Net
