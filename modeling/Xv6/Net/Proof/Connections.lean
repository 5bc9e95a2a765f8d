import Xv6.Net.Proof.Tcp

/-!
# Runs of TCP connections

`seq_num` and `fin_flag` are shared by all connections (`tcp_interference`), and `seq_num` counts
segments, not bytes (`tcp_sequence`).
-/

namespace Net

open Bytes

/-- `tcp_proc` for the received segments in order, each with the page that `kalloc` returns then. -/
def tcpRun (h : Host) (inputs : List (Store × Store)) (s : State) : State :=
  inputs.foldl (fun s x => tcpProc h x.2 x.1 s) s

/-! ## Several peers -/

def sentTo (p : Ip × Nat) (s : State) : List Segment :=
  (s.sent.filter fun f => receiver f = p).map segment

/-- The SYN and the PSH|ACK segments among the received ones. -/
def advances (l : List (Store × Store)) : Nat := (l.map fun x => (kindOf x.1).advance).sum

/-- The next ACK is answered with FIN: the last PSH|ACK or ACK segment was a PSH|ACK, or there was
none and `fin_flag` was set. -/
def Armed (finFlag : Int) (l : List (Store × Store)) : Prop :=
  match (l.reverse.map fun x => kindOf x.1).find? fun k => k = .push ∨ k = .ack with
  | some k => k = .push
  | none => finFlag = 1

def without (q : Ip × Nat) (l : List (Store × Store)) : List (Store × Store) :=
  l.filter fun x => peerOf x.1 ≠ q

/-- The answer to `x` does not show that `q` has sent segments before it. -/
def Undisturbed (p q : Ip × Nat) (finFlag : Int) (before : List (Store × Store))
    (x : Store × Store) : Prop :=
  peerOf x.1 = p →
    (kindOf x.1 = .syn ∨ kindOf x.1 = .push ∨ (kindOf x.1 = .ack ∧ Armed finFlag before) →
      4096 ∣ advances (before.filter fun y => peerOf y.1 = q)) ∧
    (kindOf x.1 = .ack →
      (Armed finFlag before ↔ Armed finFlag (without q before)))

section
variable {h : Host} {l : List (Store × Store)} {x : Store × Store} {s : State} {p q : Ip × Nat}

theorem tcpRun_concat : tcpRun h (l ++ [x]) s = tcpProc h x.2 x.1 (tcpRun h l s) := by
  rw [tcpRun, List.foldl_append]
  rfl

theorem armed_concat {f : Int} : Armed f (l ++ [x]) ↔
    (kindOf x.1 = .push ∨ (kindOf x.1 ≠ .ack ∧ Armed f l)) := by
  unfold Armed
  rw [List.reverse_append, List.reverse_singleton, List.singleton_append, List.map_cons,
    List.find?_cons]
  cases hk : kindOf x.1 <;> simp

theorem advances_concat : advances (l ++ [x]) = advances l + (kindOf x.1).advance := by
  rw [advances, List.map_append, List.sum_append]
  rfl

theorem tcpRun_shared (h : Host) (l : List (Store × Store)) (s : State) :
    ((tcpRun h l s).finFlag = 1 ↔ Armed s.finFlag l) ∧
    (tcpRun h l s).seqNum % 2 ^ 32 = (s.seqNum + advances l) % 2 ^ 32 := by
  induction l using List.reverseRecOn with
  | nil => exact ⟨Iff.rfl, rfl⟩
  | append_singleton l x ih =>
    obtain ⟨-, -, -, -, hfin, hseq⟩ := tcpProc_spec h x.2 x.1 (tcpRun h l s)
    rw [tcpRun_concat, hfin, hseq, armed_concat, advances_concat, ← ih.1]
    refine ⟨?_, ?_⟩
    · cases kindOf x.1 <;> simp [Kind.fin]
      · omega
    · have := ih.2
      omega

theorem sentTo_concat : sentTo p (tcpRun h (l ++ [x]) s) = sentTo p (tcpRun h l s) ++
    if peerOf x.1 = p then ((kindOf x.1).answers (tcpRun h l s).finFlag).map
      fun a => ⟨wire (tcpRun h l s).seqNum, ackOf x.1, a.1, a.2⟩
    else [] := by
  obtain ⟨fs, hsent, hseg, hto, -⟩ := tcpProc_spec h x.2 x.1 (tcpRun h l s)
  rw [tcpRun_concat, sentTo, hsent, List.filter_append, List.map_append, ← hseg]
  congr 1
  split
  · next hp =>
    rw [List.filter_eq_self.2 fun f hf => decide_eq_true ((hto f hf).trans hp)]
  · next hp =>
    rw [List.filter_eq_nil_iff.2 fun f hf he => hp ((hto f hf).symm.trans (of_decide_eq_true he))]
    rfl

theorem answers_eq_iff {k : Kind} {f f' : Int} {v v' a : Nat} :
    (k.answers f).map (fun r => (⟨wire v, a, r.1, r.2⟩ : Segment)) =
      (k.answers f').map (fun r => ⟨wire v', a, r.1, r.2⟩) ↔
    (k = .syn ∨ k = .push ∨ (k = .ack ∧ f = 1) → v % 4096 = v' % 4096) ∧
      (k = .ack → (f = 1 ↔ f' = 1)) := by
  rw [← wire_inj]
  cases k with
  | syn => simp [Kind.answers]
  | push => simp [Kind.answers]
  | ack => by_cases hf : f = 1 <;> by_cases hf' : f' = 1 <;> simp [Kind.answers, hf, hf']
  | other => simp [Kind.answers]

theorem advances_filter : advances l = advances (l.filter fun y => peerOf y.1 = q) +
    advances (without q l) := by
  induction l with
  | nil => rfl
  | cons x l ih =>
    by_cases hx : peerOf x.1 = q <;> simp_all [advances, without] <;> omega

theorem without_of_ne (hx : peerOf x.1 ≠ q) : without q (l ++ [x]) = without q l ++ [x] := by
  simp [without, hx]

theorem without_of_eq (hx : peerOf x.1 = q) : without q (l ++ [x]) = without q l := by
  simp [without, hx]

/-- **Connections do not interfere** as long as the other peer leaves the shared variables as the
answers need them. -/
theorem tcp_interference (hpq : p ≠ q) :
    (∀ a, a <+: l → sentTo p (tcpRun h a s) = sentTo p (tcpRun h (without q a) s)) ↔
      Always (Undisturbed p q s.finFlag) l := by
  refine (forall_prefix_iff (S := fun l => sentTo p (tcpRun h l s) =
    sentTo p (tcpRun h (without q l) s)) rfl).trans ?_
  refine Always.iff (A := fun _ => True) (I := fun l => sentTo p (tcpRun h l s) =
      sentTo p (tcpRun h (without q l) s)) rfl ?_ (fun _ _ _ _ h => h)
    fun _ _ => trivial
  intro l x _ hsame
  by_cases hxp : peerOf x.1 = p
  · have hxq : peerOf x.1 ≠ q := hxp ▸ hpq
    obtain ⟨hfin, hseq⟩ := tcpRun_shared h l s
    obtain ⟨hfin', hseq'⟩ := tcpRun_shared h (without q l) s
    have hsum := advances_filter (l := l) (q := q)
    have hmod : (tcpRun h l s).seqNum % 4096 = (tcpRun h (without q l) s).seqNum % 4096 ↔
        4096 ∣ advances (l.filter fun y => peerOf y.1 = q) := by
      rw [Nat.dvd_iff_mod_eq_zero]
      omega
    rw [without_of_ne hxq, sentTo_concat, sentTo_concat, hsame, List.append_cancel_left_eq,
      if_pos hxp, if_pos hxp, answers_eq_iff, hmod, hfin, hfin', Undisturbed]
    exact ⟨fun h _ => h, fun h => h hxp⟩
  · have hnone : sentTo p (tcpRun h (without q (l ++ [x])) s) =
        sentTo p (tcpRun h (without q l) s) := by
      by_cases hxq : peerOf x.1 = q
      · rw [without_of_eq hxq]
      · rw [without_of_ne hxq, sentTo_concat, if_neg hxp, List.append_nil]
    rw [hnone, sentTo_concat, if_neg hxp, List.append_nil]
    exact ⟨fun _ hp => absurd hp hxp, fun _ => hsame⟩

end

def sampleSegment (k code : UInt8) : Store × Store :=
  (putBytes (put8 (put8 (fill 0) 14 0x45) 47 code) 26 (![10, 0, 1, k] : Ip), fill 0)

/-- The second of two connections starts where the first one left the number. -/
theorem tcp_interference_syn : ∃ (h : Host) (s : State) (p q : Ip × Nat) (l : List (Store × Store)),
    p ≠ q ∧ sentTo p (tcpRun h l s) ≠ sentTo p (tcpRun h (without q l) s) := by
  refine ⟨⟨fun _ => 0, ![10, 0, 1, 10]⟩, .init, (![10, 0, 1, 2], 0), (![10, 0, 1, 1], 0),
    [sampleSegment 1 2] ++ [sampleSegment 2 2], by decide, ?_⟩
  have hp : peerOf (sampleSegment 2 2).1 = (![10, 0, 1, 2], 0) := by decide
  have hk : kindOf (sampleSegment 2 2).1 = .syn := by decide
  have hw : without (![10, 0, 1, 1], 0) ([sampleSegment 1 2] ++ [sampleSegment 2 2]) =
      [] ++ [sampleSegment 2 2] := by
    rw [without_of_ne (by decide)]
    rfl
  have hfirst : sentTo (![10, 0, 1, 2], 0) (tcpRun ⟨fun _ => 0, ![10, 0, 1, 10]⟩
      [sampleSegment 1 2] .init) = [] := by
    rw [← List.nil_append [sampleSegment 1 2], sentTo_concat, if_neg (by decide)]
    rfl
  have hseq := (tcpRun_shared ⟨fun _ => 0, ![10, 0, 1, 10]⟩ [sampleSegment 1 2] .init).2
  have hadv : advances [sampleSegment 1 2] = 1 := by decide
  have hnone : sentTo (![10, 0, 1, 2], 0) (tcpRun ⟨fun _ => 0, ![10, 0, 1, 10]⟩ [] .init) = [] := rfl
  rw [hw, sentTo_concat, sentTo_concat, if_pos hp, if_pos hp, hk, hfirst, hnone, ne_eq,
    List.append_cancel_left_eq, answers_eq_iff]
  rintro ⟨hmod, -⟩
  have hmod : _ % 4096 = 0 := hmod (.inl rfl)
  have hseq : _ = (0 + 1) % 2 ^ 32 := hadv ▸ hseq
  omega

/-- An ACK of one peer before a SYN of another one. -/
theorem tcp_interference_ack : sentTo (![10, 0, 1, 2], 0) (tcpRun ⟨fun _ => 0, ![10, 0, 1, 10]⟩
      [sampleSegment 1 0x10, sampleSegment 2 2] .init) =
    sentTo (![10, 0, 1, 2], 0) (tcpRun ⟨fun _ => 0, ![10, 0, 1, 10]⟩
      (without (![10, 0, 1, 1], 0) [sampleSegment 1 0x10, sampleSegment 2 2]) .init) := by
  refine (tcp_interference (by decide)).2 ?_ _ (List.prefix_rfl)
  have hsplit : [sampleSegment 1 0x10, sampleSegment 2 2] =
      ([] ++ [sampleSegment 1 0x10]) ++ [sampleSegment 2 2] := rfl
  rw [hsplit, always_concat, always_concat]
  refine ⟨⟨always_nil, fun hp => absurd hp (by decide)⟩, fun _ => ⟨fun _ => ?_, fun hk => ?_⟩⟩
  · exact ⟨0, by decide⟩
  · exact absurd hk (by decide)

/-! ## One connection -/

def sentSince (s s' : State) : List Segment := (s'.sent.drop s.sent.length).map segment

/-- The segments carry consecutive sequence numbers from `n` on, each one after the bytes of those
before it. -/
def Follows (n : Nat) : List Segment → Prop
  | [] => True
  | x :: rest => x.seq = n % 2 ^ 32 ∧ Follows (n + x.payload.length) rest

section
variable {h : Host} {l : List (Store × Store)} {x : Store × Store} {s : State} {v n : Nat}

theorem tcpRun_sent : ∃ fs, (tcpRun h l s).sent = s.sent ++ fs := by
  induction l generalizing s with
  | nil => exact ⟨[], (List.append_nil _).symm⟩
  | cons x l ih =>
    obtain ⟨fs, hfs, -⟩ := tcpProc_spec h x.2 x.1 s
    obtain ⟨gs, hgs⟩ := ih (s := tcpProc h x.2 x.1 s)
    exact ⟨fs ++ gs, by rw [← List.append_assoc, ← hfs]; exact hgs⟩

theorem sentSince_nil : sentSince s (tcpRun h [] s) = [] := by
  rw [sentSince]
  exact congrArg (List.map segment) (List.drop_length ..)

theorem sentSince_cons : sentSince s (tcpRun h (x :: l) s) =
    ((kindOf x.1).answers s.finFlag).map (fun a => ⟨wire s.seqNum, ackOf x.1, a.1, a.2⟩) ++
      sentSince (tcpProc h x.2 x.1 s) (tcpRun h l (tcpProc h x.2 x.1 s)) := by
  obtain ⟨fs, hfs, hseg, -⟩ := tcpProc_spec h x.2 x.1 s
  obtain ⟨gs, hgs⟩ := tcpRun_sent (h := h) (l := l) (s := tcpProc h x.2 x.1 s)
  have hall : (tcpRun h (x :: l) s).sent = s.sent ++ (fs ++ gs) := by
    rw [← List.append_assoc, ← hfs]
    exact hgs
  rw [← hseg, sentSince, sentSince, hall, hgs, List.drop_left, List.drop_left, List.map_append]

/-- The inputs after which the numbers still follow the data: nothing is answered, or the last digit
of `seq_num` does not wrap and no PSH|ACK segment has one after it. -/
def InStep (seqNum : Nat) (finFlag : Int) (l : List (Store × Store)) : Prop :=
  ((∀ x ∈ l, kindOf x.1 = .ack) ∧ (finFlag = 1 → l = [])) ∨
    (seqNum % 16 ≠ 15 ∧ ∀ x ∈ l.dropLast, kindOf x.1 ≠ .push)

theorem dropLast_cons_iff (hx : kindOf x.1 = .ack) :
    (∀ y ∈ (x :: l).dropLast, kindOf y.1 ≠ .push) ↔ ∀ y ∈ l.dropLast, kindOf y.1 ≠ .push := by
  cases l with
  | nil => simp
  | cons z l => simp [hx]

theorem inStep_fin (hx : kindOf x.1 = .ack) : InStep v 1 (x :: l) ↔ v % 16 ≠ 15 ∧ InStep v 0 l := by
  have hlast : (∀ y ∈ l, kindOf y.1 = .ack) → ∀ y ∈ l.dropLast, kindOf y.1 ≠ .push := by
    intro hall y hy
    simp [hall y (List.mem_of_mem_dropLast hy)]
  rw [InStep, InStep, dropLast_cons_iff hx]
  simp only [List.cons_ne_nil, imp_false, not_true, and_false, false_or]
  constructor
  · rintro ⟨hv, h⟩
    exact ⟨hv, .inr ⟨hv, h⟩⟩
  · rintro ⟨hv, ⟨hall, -⟩ | ⟨-, h⟩⟩
    · exact ⟨hv, hlast hall⟩
    · exact ⟨hv, h⟩

theorem inStep_idle {f : Int} (hf : f ≠ 1) (hx : kindOf x.1 = .ack) :
    InStep v f (x :: l) ↔ InStep v f l := by
  rw [InStep, InStep, dropLast_cons_iff hx]
  simp [hf, hx]

theorem length_httpText : httpText.length = 60 := rfl

theorem follows_answers {k : Kind} {f : Int} {w a : Nat} {rest : List Segment} :
    Follows n ((k.answers f).map (fun r => ⟨w, a, r.1, r.2⟩) ++ rest) ↔
      (k = .syn ∨ k = .push ∨ (k = .ack ∧ f = 1) → w = n % 2 ^ 32) ∧
        Follows (n + if k = .push then 60 else 0) rest := by
  cases k with
  | syn => simp [Kind.answers, Follows]
  | push =>
    simp only [Kind.answers, List.map_cons, List.map_nil, List.cons_append, List.nil_append, Follows,
      List.length_nil, Nat.add_zero, length_httpText, if_true, true_or, or_true, true_imp_iff,
      ← and_assoc, and_self]
  | ack => by_cases hf : f = 1 <;> simp [Kind.answers, Follows, hf]
  | other => simp [Kind.answers]

theorem not_follows_text {y : Store × Store} (hy : kindOf y.1 = .push ∨ kindOf y.1 = .ack)
    (hf : s.finFlag = 1) (hv : s.seqNum % 2 ^ 32 = (v + 2) % 2 ^ 32) :
    ¬ Follows (wire v + 1 + 60) (sentSince s (tcpRun h (y :: l) s)) := by
  rw [sentSince_cons, follows_answers]
  rintro ⟨hw, -⟩
  exact wire_jump hv (hw (.inr (hy.imp_right fun hy => ⟨hy, hf⟩)))

theorem follows_iff (hl : ∀ x ∈ l, kindOf x.1 = .push ∨ kindOf x.1 = .ack)
    (hv : s.seqNum % 2 ^ 32 = (v + 1) % 2 ^ 32) :
    Follows (wire v + 1) (sentSince s (tcpRun h l s)) ↔ InStep v s.finFlag l := by
  induction l generalizing s with
  | nil =>
    rw [sentSince_nil]
    exact ⟨fun _ => .inl ⟨fun _ h => absurd h List.not_mem_nil, fun _ => rfl⟩, fun _ => trivial⟩
  | cons x l ih =>
    obtain ⟨-, -, -, -, hfin, hseq⟩ := tcpProc_spec h x.2 x.1 s
    have hl' := fun y hy => hl y (List.mem_cons_of_mem x hy)
    rw [sentSince_cons, follows_answers]
    rcases hl x List.mem_cons_self with hx | hx
    · rw [hx] at hfin hseq ⊢
      have hnone : ¬ ((∀ y ∈ x :: l, kindOf y.1 = .ack) ∧ (s.finFlag = 1 → x :: l = [])) :=
        fun hall => by simpa [hx] using hall.1 x List.mem_cons_self
      rw [InStep, or_iff_right hnone, ← wire_succ hv, if_pos rfl]
      cases l with
      | nil =>
        rw [sentSince_nil]
        exact ⟨fun hfol => ⟨hfol.1 (.inr (.inl rfl)), fun _ h => absurd h List.not_mem_nil⟩,
          fun hs => ⟨fun _ => hs.1, trivial⟩⟩
      | cons y l =>
        have hseq : (tcpProc h x.2 x.1 s).seqNum % 2 ^ 32 = (v + 2) % 2 ^ 32 := by
          rw [hseq, ← Nat.mod_add_mod, hv, Nat.mod_add_mod]
          rfl
        constructor
        · rintro ⟨-, hfol⟩
          exact absurd hfol (not_follows_text (hl' y List.mem_cons_self) hfin hseq)
        · rintro ⟨-, hlast⟩
          exact absurd hx (hlast x List.mem_cons_self)
    · rw [hx] at hfin hseq ⊢
      rw [if_neg (by decide), Nat.add_zero, ih hl' (hseq.trans hv), hfin, Kind.fin]
      by_cases hf : s.finFlag = 1
      · rw [if_pos hf, hf, inStep_fin hx, ← wire_succ hv]
        simp
      · rw [if_neg hf, inStep_idle hf hx]
        simp [hf]

theorem sentSince_syn (hx : kindOf x.1 = .syn) : sentSince s (tcpRun h (x :: l) s) =
    ⟨wire s.seqNum, ackOf x.1, TCP_CODEBITS_ACK ||| TCP_CODEBITS_SYN, []⟩ ::
      sentSince (tcpProc h x.2 x.1 s) (tcpRun h l (tcpProc h x.2 x.1 s)) := by
  rw [sentSince_cons, hx]
  rfl

theorem follows_syn_iff (hx : kindOf x.1 = .syn)
    (hl : ∀ y ∈ l, kindOf y.1 = .push ∨ kindOf y.1 = .ack) : Follows (wire s.seqNum + 1)
      (sentSince (tcpProc h x.2 x.1 s) (tcpRun h l (tcpProc h x.2 x.1 s))) ↔
    InStep s.seqNum s.finFlag l := by
  obtain ⟨-, -, -, -, hfin, hseq⟩ := tcpProc_spec h x.2 x.1 s
  rw [hx] at hfin hseq
  rw [← show _ = s.finFlag from hfin]
  exact follows_iff hl hseq

/-- **Sequence numbers follow the data** exactly for the inputs that are in step. -/
theorem tcp_sequence (hx : kindOf x.1 = .syn)
    (hl : ∀ y ∈ l, kindOf y.1 = .push ∨ kindOf y.1 = .ack) :
    ∃ first rest, sentSince s (tcpRun h (x :: l) s) = first :: rest ∧
      (Follows (first.seq + 1) rest ↔ InStep s.seqNum s.finFlag l) :=
  ⟨_, _, sentSince_syn hx, follows_syn_iff hx hl⟩

end

/-- SYN, PSH|ACK, ACK: the FIN after the text carries the number 2. -/
theorem tcp_sequence_text : ∃ first rest, sentSince .init (tcpRun ⟨fun _ => 0, ![10, 0, 1, 10]⟩
      [sampleSegment 1 2, sampleSegment 1 0x18, sampleSegment 1 0x10] .init) = first :: rest ∧
    ¬ Follows (first.seq + 1) rest := by
  have hk : kindOf (sampleSegment 1 0x18).1 = .push := by decide
  have hk' : kindOf (sampleSegment 1 0x10).1 = .ack := by decide
  refine ⟨_, _, sentSince_syn (by decide), ?_⟩
  rw [follows_syn_iff (by decide) (fun x hx => ?_)]
  · rintro (⟨hall, -⟩ | ⟨-, hlast⟩)
    · exact absurd (hall (sampleSegment 1 0x18) (by simp)) (by rw [hk]; decide)
    · exact hlast (sampleSegment 1 0x18) (by simp) hk
  · rcases List.mem_pair.1 hx with rfl | rfl
    · exact .inl hk
    · exact .inr hk'

theorem tcp_sequence_push : ∃ first rest, sentSince .init (tcpRun ⟨fun _ => 0, ![10, 0, 1, 10]⟩
      [sampleSegment 1 2, sampleSegment 1 0x18] .init) = first :: rest ∧
    Follows (first.seq + 1) rest := by
  have hk : kindOf (sampleSegment 1 0x18).1 = .push := by decide
  obtain ⟨first, rest, he, hiff⟩ := tcp_sequence (h := ⟨fun _ => 0, ![10, 0, 1, 10]⟩) (s := .init)
    (x := sampleSegment 1 2) (l := [sampleSegment 1 0x18]) (by decide)
    fun y hy => .inl (List.mem_singleton.1 hy ▸ hk)
  exact ⟨first, rest, he, hiff.2 (.inr ⟨by decide, fun _ h => absurd h List.not_mem_nil⟩)⟩

/-! ## Acknowledgements -/

def tcpSeq (buf : Store) : Nat := be32 buf (ipv4Payload buf + 4)

/-- How many bytes of data a segment carries: what is left of `total_len` after the two headers. -/
def tcpDataLen (buf : Store) : Nat :=
  n2hUshort (get16 buf 16) - (ipv4Payload buf - 14) - 4 * (buf (ipv4Payload buf + 12) >>> 4).toNat

def Acknowledges (buf : Store) (g : Segment) : Prop :=
  (kindOf buf = .syn → g.ack = (tcpSeq buf + 1) % 2 ^ 32) ∧
    (kindOf buf ≠ .syn → 0 < tcpDataLen buf → g.ack = (tcpSeq buf + tcpDataLen buf) % 2 ^ 32)

section
variable {h : Host} {page buf : Store} {s : State}

theorem sentSince_tcpProc : sentSince s (tcpProc h page buf s) =
    ((kindOf buf).answers s.finFlag).map fun a => ⟨wire s.seqNum, ackOf buf, a.1, a.2⟩ := by
  have h1 : sentSince s (tcpRun h [(buf, page)] s) = _ := sentSince_cons
  rw [sentSince_nil, List.append_nil] at h1
  exact h1

theorem ackOf_eq (buf : Store) :
    ackOf buf = tcpSeq buf / 256 * 256 + (tcpSeq buf % 256 + 1) % 256 := by
  have h0 := (buf (ipv4Payload buf + 4)).toNat_lt
  have h1 := (buf (ipv4Payload buf + 4 + 1)).toNat_lt
  have h2 := (buf (ipv4Payload buf + 4 + 2)).toNat_lt
  have h3 := (buf (ipv4Payload buf + 4 + 3)).toNat_lt
  rw [ackOf, tcpSeq, be32, swap32, be32_put32, get32, get16, get16,
    show ipv4Payload buf + 4 + 2 + 1 = ipv4Payload buf + 4 + 3 from rfl]
  generalize (buf (ipv4Payload buf + 4)).toNat = a at *
  generalize (buf (ipv4Payload buf + 4 + 1)).toNat = b at *
  generalize (buf (ipv4Payload buf + 4 + 2)).toNat = c at *
  generalize (buf (ipv4Payload buf + 4 + 3)).toNat = d at *
  generalize hx : a + 256 * b + 65536 * (c + 256 * d) + 1 <<< (8 * 3) = x
  have e0 : x % 256 = a := by omega
  have e1 : x / 2 ^ 8 % 256 = b := by omega
  have e2 : x / 2 ^ 16 % 256 = c := by omega
  have e3 : x / 2 ^ 24 % 256 = (d + 1) % 256 := by omega
  rw [e0, e1, e2, e3]
  clear e0 e1 e2 e3 hx
  omega

theorem tcpSeq_lt (buf : Store) : tcpSeq buf < 2 ^ 32 := by
  have h0 := (buf (ipv4Payload buf + 4)).toNat_lt
  have h1 := (buf (ipv4Payload buf + 4 + 1)).toNat_lt
  have h2 := (buf (ipv4Payload buf + 4 + 2)).toNat_lt
  have h3 := (buf (ipv4Payload buf + 4 + 3)).toNat_lt
  unfold tcpSeq be32
  omega

theorem tcpDataLen_lt (buf : Store) : tcpDataLen buf < 65536 := by
  have := get16_lt buf 16
  have hlow : get16 buf 16 &&& 0xFF = get16 buf 16 % 256 := Nat.and_two_pow_sub_one_eq_mod _ 8
  unfold tcpDataLen n2hUshort
  rw [hlow, Nat.shiftLeft_eq, Nat.shiftRight_eq_div_pow]
  omega

theorem ackOf_succ (buf : Store) : ackOf buf = (tcpSeq buf + 1) % 2 ^ 32 ↔ tcpSeq buf % 256 ≠ 255 := by
  have := tcpSeq_lt buf
  rw [ackOf_eq]
  omega

theorem ackOf_data (buf : Store) : ackOf buf = (tcpSeq buf + tcpDataLen buf) % 2 ^ 32 ↔
    tcpDataLen buf = 1 ∧ tcpSeq buf % 256 ≠ 255 := by
  have := tcpSeq_lt buf
  have := tcpDataLen_lt buf
  rw [ackOf_eq]
  omega

theorem acknowledges_iff {g : Segment} (hg : g.ack = ackOf buf) : Acknowledges buf g ↔
    (kindOf buf ≠ .syn ∧ tcpDataLen buf = 0) ∨
      (tcpSeq buf % 256 ≠ 255 ∧ (kindOf buf = .syn ∨ tcpDataLen buf = 1)) := by
  rw [Acknowledges, hg, ackOf_succ, ackOf_data]
  by_cases hk : kindOf buf = .syn
  · simp [hk]
  · by_cases h0 : tcpDataLen buf = 0
    · simp [hk, h0]
    · simp [hk, h0, Nat.pos_of_ne_zero h0, and_comm]

/-- **Acknowledgement numbers** are right for a SYN and for a single byte of data, as long as the last
byte of the sequence number does not wrap. -/
theorem tcp_acknowledges : (∀ g ∈ sentSince s (tcpProc h page buf s), Acknowledges buf g) ↔
    (kindOf buf).answers s.finFlag = [] ∨ (kindOf buf ≠ .syn ∧ tcpDataLen buf = 0) ∨
      (tcpSeq buf % 256 ≠ 255 ∧ (kindOf buf = .syn ∨ tcpDataLen buf = 1)) := by
  rw [sentSince_tcpProc, List.forall_mem_map]
  cases (kindOf buf).answers s.finFlag with
  | nil => simp
  | cons a l =>
    have hiff := fun a : UInt8 × List UInt8 =>
      acknowledges_iff (g := ⟨wire s.seqNum, ackOf buf, a.1, a.2⟩) rfl
    simp only [hiff, List.cons_ne_nil, false_or]
    exact ⟨fun h => h a List.mem_cons_self, fun h _ _ => h⟩

end

def dataSegment : Store := put8 (put8 (sampleSegment 1 0x18).1 17 43) 46 0x50

/-- Three bytes of data from sequence number 0 on are acknowledged with 1. -/
theorem tcp_acknowledges_three : ¬ ∀ g ∈ sentSince .init
    (tcpProc ⟨fun _ => 0, ![10, 0, 1, 10]⟩ (fill 0) dataSegment .init),
    Acknowledges dataSegment g := by
  have hk : kindOf dataSegment = .push := by decide
  have hlen : tcpDataLen dataSegment = 3 := by decide
  intro h
  rw [sentSince_tcpProc, hk] at h
  have h' := (acknowledges_iff rfl).1 (h _ List.mem_cons_self)
  rw [hk, hlen] at h'
  exact absurd h' (by decide)

end Net
