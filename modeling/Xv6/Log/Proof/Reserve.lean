import Mathlib.Algebra.Group.Action.Defs
import Mathlib.Algebra.Order.BigOperators.Group.Finset
import Xv6.Log.Commit
import Xv6.Log.Proof.Protocol

/-!
# The reservation of log space

Each process inside an operation has reserved `MAXOPBLOCKS` blocks less those it has passed to
`log_write` (`cost`), and the log and the reservations together never exceed `LOGSIZE` (`Inv`).

The header of the log takes one of its `nlog = LOGSIZE` blocks, so there is room for `LOGSIZE - 1`
only: the test in `log_write` panics on a full house, and because it is made without the lock the
log is overrun when several calls pass it together.
-/

namespace Log

open Crash

/-! ## The blocks a commit touches -/

/-- `writeLog` writes, and `installTrans` reads back, only log blocks past the header of a log of
`nlog` blocks from `start`; the other blocks they touch are those of the transaction. -/
structure StaysInLog (start nlog : Nat) (m : Mem) : Prop where
  write : Touches (fun b => (start < b ∧ b < start + nlog) ∨ b ∈ m.lh)
    (fun b => start < b ∧ b < start + nlog) ((writeLog start).run m)
  install : Touches (fun b => (start < b ∧ b < start + nlog) ∨ b ∈ m.lh) (fun b => b ∈ m.lh)
    ((installTrans start).run m)

theorem touches_bread {R W : Nat → Prop} {b : Nat} (h : R b) (m : Mem) :
    Touches R W ((bread b).run m) := by
  show Touches R W (bread b m)
  unfold bread
  split
  · trivial
  · exact ⟨h, fun _ => trivial⟩

theorem touches_writeLogFrom {R W : Nat → Prop} {start tail : Nat} {bs : List Nat}
    (hlog : ∀ i < bs.length, R (start + (tail + i) + 1) ∧ W (start + (tail + i) + 1))
    (hbs : ∀ b ∈ bs, R b) (m : Mem) : Touches R W ((writeLogFrom start tail bs).run m) := by
  induction bs generalizing tail m with
  | nil => trivial
  | cons b bs ih =>
    have h0 := hlog 0 (by simp)
    simp only [writeLogFrom, StateT.run_bind]
    refine (touches_bread h0.1 m).bind fun r1 => ?_
    refine (touches_bread (hbs b (by simp)) _).bind fun r2 => ?_
    refine Touches.bind ⟨h0.2, trivial⟩ fun r3 => ih (fun i hi => ?_) (fun c hc => ?_) _
    · have := hlog (i + 1) (by simpa using hi)
      rwa [show tail + (i + 1) = tail + 1 + i by omega] at this
    · exact hbs c (List.mem_cons_of_mem b hc)

theorem touches_installFrom {R W : Nat → Prop} {start tail : Nat} {bs : List Nat}
    (hlog : ∀ i < bs.length, R (start + (tail + i) + 1)) (hbs : ∀ b ∈ bs, R b ∧ W b) (m : Mem) :
    Touches R W ((installFrom start tail bs).run m) := by
  induction bs generalizing tail m with
  | nil => trivial
  | cons b bs ih =>
    have hb := hbs b (by simp)
    simp only [installFrom, StateT.run_bind]
    refine (touches_bread (hlog 0 (by simp)) m).bind fun r1 => ?_
    refine (touches_bread hb.1 _).bind fun r2 => ?_
    refine Touches.bind ⟨hb.2, trivial⟩ fun r3 => ih (fun i hi => ?_) (fun c hc => ?_) _
    · have := hlog (i + 1) (by simpa using hi)
      rwa [show tail + (i + 1) = tail + 1 + i by omega] at this
    · exact hbs c (List.mem_cons_of_mem b hc)

theorem staysInLog {start nlog : Nat} {m : Mem} (h : m.lh.length ≤ nlog - 1) :
    StaysInLog start nlog m := by
  have hin : ∀ i < m.lh.length, start < start + (0 + i) + 1 ∧ start + (0 + i) + 1 < start + nlog :=
    fun i hi => by omega
  exact ⟨touches_writeLogFrom (fun i hi => ⟨.inl (hin i hi), hin i hi⟩) (fun b hb => .inr hb) m,
    touches_installFrom (fun i hi => .inl (hin i hi)) (fun b hb => ⟨.inr hb, hb⟩) m⟩

end Log

namespace Admit

open Param

/-! ## Schedules -/

@[simp] theorem distinct_concat (es : List Event) (e : Event) : distinct (es ++ [e]) =
    match e with
    | .append _ b => insert b (distinct es)
    | .commit _ => ∅
    | _ => distinct es := by
  rw [distinct, List.foldl_append]
  rfl

@[simp] theorem passed_concat (q : Nat) (es : List Event) (e : Event) : passed q (es ++ [e]) =
    match e with
    | .test p b => if p = q then insert b (passed q es) else passed q es
    | .beginOp p => if p = q then ∅ else passed q es
    | _ => passed q es := by
  rw [passed, List.foldl_append]
  rfl

theorem Limited.of_prefix {es es' : List Event} (h : Limited es) (hp : es' <+: es) : Limited es' :=
  fun pre hpre => h pre (hpre.trans hp)

theorem Limited.card_le {es : List Event} (h : Limited es) (p : Nat) :
    (passed p es).card ≤ MAXOPBLOCKS :=
  h es (List.prefix_refl es) p

def Event.isTest (p : Nat) : Event → Bool
  | .test q _ => q = p
  | _ => false

theorem card_passed_le (p : Nat) (es : List Event) :
    (passed p es).card ≤ es.countP (Event.isTest p) := by
  induction es using List.reverseRecOn with
  | nil => simp [passed]
  | append_singleton es e ih =>
    rw [List.countP_append, passed_concat]
    split
    · split
      · rename_i b hq
        have := Finset.card_insert_le b (passed p es)
        simp only [List.countP_singleton, Event.isTest, hq, decide_true, if_true]
        omega
      · omega
    · split
      · simp
      · omega
    · omega

theorem limited_of_countP {es : List Event} (h : ∀ p, es.countP (Event.isTest p) ≤ MAXOPBLOCKS) :
    Limited es := fun pre hpre p =>
  (card_passed_le p pre).trans ((hpre.sublist.countP_le).trans (h p))

/-! ## The invariant -/

def pend (lh : List Nat) : Phase → Nat
  | .writing b => if b ∈ lh then 0 else 1
  | _ => 0

/-- The log space still reserved for an operation that has passed the blocks `ws`. -/
def cost (lh : List Nat) (ws : Finset Nat) (ph : Phase) : Nat := MAXOPBLOCKS - ws.card + pend lh ph

/-- There is room for what the operations may still log. -/
structure Inv (es : List Event) (s : State) (A : Finset Nat) : Prop extends Order s A where
  size : s.size = mkfsNlog
  nodup : s.lh.Nodup
  logged : s.lh.toFinset = distinct es
  reserve : s.lh.length + ∑ p ∈ A, cost s.lh (passed p es) (s.phase p) ≤ LOGSIZE
  op : ∀ p, s.phase p = .op → ∀ b ∈ passed p es, b ∈ s.lh
  writing : ∀ p b, s.phase p = .writing b → b ∈ passed p es ∧ ∀ c ∈ passed p es, c = b ∨ c ∈ s.lh

theorem inv_init : Inv [] (.init mkfsNlog) ∅ where
  toOrder := order_init mkfsNlog
  size := rfl
  nodup := List.nodup_nil
  logged := rfl
  reserve := by simp [State.init, LOGSIZE]
  op _ h := by cases h
  writing _ _ h := by cases h

section
variable {es es' : List Event} {s s' : State} {A A' : Finset Nat} {p q b : Nat}

theorem Inv.length_eq (h : Inv es s A) : s.lh.length = (distinct es).card := by
  rw [← h.logged, List.toFinset_card_of_nodup h.nodup]

theorem Inv.length_le (h : Inv es s A) : s.lh.length ≤ LOGSIZE := by
  have := h.reserve
  omega

theorem Inv.cost_le (h : Inv es s A) (p : Nat) :
    cost s.lh (passed p es) (s.phase p) ≤ MAXOPBLOCKS := by
  unfold cost pend
  split
  · rename_i b hb
    have hpos : 0 < (passed p es).card := Finset.card_pos.2 ⟨b, (h.writing p b hb).1⟩
    have hmax : MAXOPBLOCKS = 10 := rfl
    split <;> omega
  · omega

theorem pend_mono {lh lh' : List Nat} (h : ∀ b ∈ lh, b ∈ lh') (ph : Phase) :
    pend lh' ph ≤ pend lh ph := by
  unfold pend
  split
  · rename_i b
    by_cases hb : b ∈ lh
    · simp [hb, h b hb]
    · rw [if_neg hb]; split <;> omega
  · exact Nat.le_refl _

/-! ## Steps of one process -/

structure Frame (A : Finset Nat) (es : List Event) (s : State) (es' : List Event) (s' : State)
    (p : Nat) : Prop where
  phase : Stays s s' p
  passed : ∀ q ≠ p, passed q es' = passed q es
  lh : ∀ q ∈ A, ∀ b ∈ s.lh, b ∈ s'.lh

theorem Frame.cost (hm : Frame A es s es' s' p) (h : Inv es s A) (hq : q ∈ A) (hne : q ≠ p) :
    cost s'.lh (Admit.passed q es') (s'.phase q) ≤ cost s.lh (Admit.passed q es) (s.phase q) := by
  rw [hm.phase.active hne (.inl ((h.active q).1 hq)), hm.passed q hne]
  exact Nat.add_le_add_left (pend_mono (hm.lh q hq) _) _

theorem Frame.reserve_out (hm : Frame A es s es' s' p) (h : Inv es s A) (hsub : A' ⊆ A) (hp : p ∉ A')
    (hlen : s'.lh.length ≤ s.lh.length) :
    s'.lh.length + ∑ q ∈ A', Admit.cost s'.lh (Admit.passed q es') (s'.phase q) ≤ LOGSIZE := by
  have hsum := Finset.sum_le_sum fun q (hq : q ∈ A') =>
    hm.cost h (hsub hq) fun he => hp (he ▸ hq)
  exact (Nat.add_le_add hlen (hsum.trans (Finset.sum_le_sum_of_subset hsub))).trans h.reserve

theorem Frame.reserve_in (hm : Frame A es s es' s' p) (h : Inv es s A) (hp : p ∈ A)
    (hle : s'.lh.length + Admit.cost s'.lh (Admit.passed p es') (s'.phase p) ≤
      s.lh.length + Admit.cost s.lh (Admit.passed p es) (s.phase p)) :
    s'.lh.length + ∑ q ∈ A, Admit.cost s'.lh (Admit.passed q es') (s'.phase q) ≤ LOGSIZE := by
  have hsum := Finset.sum_le_sum fun q (hq : q ∈ A.erase p) =>
    hm.cost h (Finset.mem_of_mem_erase hq) (Finset.ne_of_mem_erase hq)
  have hr := h.reserve
  rw [← Finset.add_sum_erase A _ hp] at hr ⊢
  omega

section
variable (h : Inv es s A)
include h

theorem Inv.move (hm : Frame A es s es' s' p) (ho : Order s' A')
    (hsize : s'.size = s.size) (hnodup : s'.lh.Nodup) (hlogged : s'.lh.toFinset = distinct es')
    (hreserve : s'.lh.length + ∑ q ∈ A', cost s'.lh (passed q es') (s'.phase q) ≤ LOGSIZE)
    (hop : s'.phase p = .op → ∀ b ∈ passed p es', b ∈ s'.lh)
    (hwriting : ∀ b, s'.phase p = .writing b →
      b ∈ passed p es' ∧ ∀ c ∈ passed p es', c = b ∨ c ∈ s'.lh) : Inv es' s' A' := by
  refine ⟨ho, hsize.trans h.size, hnodup, hlogged, hreserve, fun q hq b hb => ?_, fun q b hq => ?_⟩
  · by_cases hqp : q = p
    · subst hqp
      exact hop hq b hb
    · have hop := (hm.phase.active hqp (.inr (by rw [hq]; trivial))).symm.trans hq
      rw [hm.passed q hqp] at hb
      exact hm.lh q (h.mem (.inl hop)) b (h.op q hop b hb)
  · by_cases hqp : q = p
    · subst hqp
      exact hwriting b hq
    · have hw := (hm.phase.active hqp (.inr (by rw [hq]; trivial))).symm.trans hq
      obtain ⟨h1, h2⟩ := h.writing q b hw
      rw [hm.passed q hqp]
      exact ⟨h1, fun c hc => (h2 c hc).imp_right (hm.lh q (h.mem (.inr ⟨b, hw⟩)) c)⟩

theorem Inv.outside {e : Event} (ho : Order s' A') (hm : Stays s s' p)
    (he : ∀ q ≠ p, passed q (es ++ [e]) = passed q es) (hd : distinct (es ++ [e]) = distinct es)
    (hsub : A' ⊆ A) (hp : p ∉ A') (hsize : s'.size = s.size) (hlh : s'.lh = s.lh) :
    Inv (es ++ [e]) s' A' := by
  have hf : Frame A es s (es ++ [e]) s' p := ⟨hm, he, fun _ _ b hb => hlh.symm ▸ hb⟩
  refine h.move hf ho hsize (hlh ▸ h.nodup) (by rw [hlh, h.logged, hd])
    (hf.reserve_out h hsub hp (by rw [hlh])) (fun hop => ?_) fun b hw => ?_
  · exact absurd (ho.mem (.inl hop)) hp
  · exact absurd (ho.mem (.inr ⟨b, hw⟩)) hp

/-! ## The steps -/

theorem Inv.admit (hp : s.phase p = .idle) (hc : s.committing = false)
    (hroom : s.lh.length + (s.outstanding + 1) * MAXOPBLOCKS ≤ LOGSIZE) :
    Inv (es ++ [.beginOp p]) ({ s with outstanding := s.outstanding + 1 }.set p .op)
      (insert p A) := by
  have ho := h.admitted hp hc
  have hm : Frame A es s (es ++ [.beginOp p])
      ({ s with outstanding := s.outstanding + 1 }.set p .op) p :=
    ⟨stays_set rfl, fun q hq => by simp [Ne.symm hq], fun _ _ _ => id⟩
  refine h.move hm ho rfl h.nodup (by simpa using h.logged) ?_ (by simp) (by simp)
  refine (Nat.add_le_add_left (Finset.sum_le_card_nsmul _ _ MAXOPBLOCKS fun q hq => ?_) _).trans
    (by rw [ho.card, smul_eq_mul]; exact hroom)
  by_cases hqp : q = p
  · simp [hqp, cost, pend]
  · exact (hm.cost h (Finset.mem_of_mem_insert_of_ne hq hqp) hqp).trans (h.cost_le q)

theorem Inv.charge (hl : Limited (es ++ [.test p b])) (hp : s.phase p = .op) :
    Inv (es ++ [.test p b]) (s.set p (.writing b)) A := by
  have hm : Frame A es s (es ++ [.test p b]) (s.set p (.writing b)) p :=
    ⟨stays_set rfl, fun q hq => by simp [Ne.symm hq], fun _ _ _ => id⟩
  have hpass : passed p (es ++ [.test p b]) = insert b (passed p es) := by simp
  refine h.move hm (h.test hp) rfl h.nodup (by simpa using h.logged)
    (hm.reserve_in h (h.mem (.inl hp)) (Nat.add_le_add_left ?_ _)) (by simp) fun c hc => ?_
  · have hlim := hl.card_le p
    rw [hpass] at hlim ⊢
    rw [set_phase_self, set_lh, hp]
    simp only [cost, pend]
    -- a block passed before is in the log already, a new one takes a reserved block
    by_cases hb : b ∈ passed p es
    · rw [Finset.insert_eq_of_mem hb, if_pos (h.op p hp b hb)]
    · rw [Finset.card_insert_of_notMem hb] at hlim ⊢
      split <;> omega
  · rw [set_phase_self] at hc
    cases hc
    rw [hpass]
    exact ⟨Finset.mem_insert_self _ _, fun c hc => (Finset.mem_insert.1 hc).imp_right (h.op p hp c)⟩

theorem Inv.write (hp : s.phase p = .writing b) :
    Inv (es ++ [.append p b]) (logWriteAppend s p b) A := by
  have hlh : (logWriteAppend s p b).lh = if b ∈ s.lh then s.lh else s.lh ++ [b] := rfl
  have hself : (logWriteAppend s p b).phase p = .op := set_phase_self ..
  have hmem : ∀ c, c ∈ (logWriteAppend s p b).lh ↔ c = b ∨ c ∈ s.lh := by
    intro c
    rw [hlh]
    by_cases hb : b ∈ s.lh
    · rw [if_pos hb]
      exact ⟨.inr, fun hc => hc.elim (fun he => he ▸ hb) id⟩
    · rw [if_neg hb, List.mem_append, List.mem_singleton, or_comm]
  have hm : Frame A es s (es ++ [.append p b]) (logWriteAppend s p b) p :=
    ⟨stays_set rfl, fun q _ => by simp, fun _ _ c hc => (hmem c).2 (.inr hc)⟩
  refine h.move hm (h.append hp) rfl ?_ ?_ (hm.reserve_in h (h.mem (.inr ⟨b, hp⟩)) ?_)
    (fun _ c hc => ?_) (by simp [hself])
  · rw [hlh]
    split
    · exact h.nodup
    · rename_i hb
      exact List.nodup_append.2 ⟨h.nodup, List.nodup_singleton b, fun c hc e he => by
        rw [List.mem_singleton.1 he]; exact fun hcb => hb (hcb ▸ hc)⟩
  · ext c
    simp only [distinct_concat, Finset.mem_insert, ← h.logged, List.mem_toFinset, hmem]
  · -- a new block moves from the reservation of `p` into the log
    rw [hself, hp, hlh]
    by_cases hb : b ∈ s.lh <;> simp [cost, pend, hb]
    omega
  · rw [passed_concat] at hc
    exact (hmem c).2 ((h.writing p b hp).2 c hc)

theorem Inv.clear (hp : s.phase p = .committing) :
    Inv (es ++ [.commit p]) ({ s with lh := [] }.set p .committed) A := by
  have ho := h.commit hp
  obtain rfl := h.eq_empty (p := p) (by rw [hp]; trivial)
  have hm : Frame ∅ es s (es ++ [.commit p]) ({ s with lh := [] }.set p .committed) p :=
    ⟨stays_set rfl, fun q _ => by simp, by simp⟩
  exact h.move hm ho rfl List.nodup_nil (by simp [State.set])
    (hm.reserve_out h subset_rfl (by simp) (Nat.zero_le _)) (by simp) (by simp)

theorem Inv.next {e : Event} (hl : Limited (es ++ [e]))
    (hs : Admit.step s e = some (.ok s')) : ∃ A', Inv (es ++ [e]) s' A' := by
  cases step_moves hs with
  | @sleep p hp hw =>
    have hpA : p ∉ A := by rw [h.active, hp]; exact id
    exact ⟨A, h.outside (h.sleep hp hw) (stays_set rfl) (fun q hq => by simp [Ne.symm hq]) (by simp)
      subset_rfl hpA rfl rfl⟩
  | admitted hp hc hroom => exact ⟨_, h.admit hp hc hroom⟩
  | test hp => exact ⟨A, h.charge hl hp⟩
  | append hp => exact ⟨A, h.write hp⟩
  | @last p hp h1 =>
    exact ⟨∅, h.outside (h.last hp h1).2 (stays_set rfl) (fun q _ => by simp) (by simp)
      (Finset.empty_subset A) (Finset.notMem_empty p) rfl rfl⟩
  | @leave p hp _ h1 =>
    exact ⟨_, h.outside (h.leave hp h1) (stays_wake rfl) (fun q _ => by simp) (by simp)
      (A.erase_subset p) (Finset.notMem_erase p A) rfl rfl⟩
  | commit hp => exact ⟨A, h.clear hp⟩
  | @finish p hp =>
    have hpA : p ∉ A := by rw [h.active, hp]; exact id
    exact ⟨A, h.outside (h.finish hp) (stays_wake rfl) (fun q _ => by simp) (by simp) subset_rfl hpA rfl
      rfl⟩

theorem Inv.step_test {o : Outcome} (hs : Admit.step s (.test p b) = some o) :
    (o = .panic "too big a transaction" ∧ LOGSIZE ≤ (distinct es).card + 1) ∨
      (∃ s', o = .ok s') ∧ (distinct es).card + 1 < LOGSIZE := by
  simp only [Admit.step, Option.ite_none_right_eq_some, Option.some.injEq] at hs
  obtain ⟨hp, rfl⟩ := hs
  have hpos := h.pos (h.mem (.inl hp))
  rw [logWriteTest, h.size, h.length_eq, mkfsNlog]
  split
  · exact .inl ⟨rfl, by omega⟩
  · rw [if_neg (by omega)]
    exact .inr ⟨⟨_, rfl⟩, by omega⟩

theorem Inv.step_panic {e : Event} {m : String} (hs : Admit.step s e = some (.panic m)) :
    m = "too big a transaction" ∧ ∃ p b, e = .test p b ∧ LOGSIZE ≤ (distinct es).card + 1 := by
  cases e with
  | test p b =>
    rcases h.step_test hs with ⟨hm, hfull⟩ | ⟨⟨s', hm⟩, -⟩
    · cases hm
      exact ⟨rfl, p, b, rfl, hfull⟩
    · cases hm
  | endOp p => exact absurd hs h.endOp_ok
  | _ => simp [Admit.step] at hs

end

end

/-! ## Runs -/

/-- **The invariant holds after every schedule.** -/
theorem inv_run {es : List Event} {s : State} (hr : run (.init mkfsNlog) es = some (.ok s))
    (hl : Limited es) : ∃ A, Inv es s A :=
  run_induction (P := fun es s => Limited es → ∃ A, Inv es s A) (fun _ => ⟨∅, inv_init⟩)
    (fun es e _ _ h hs hl =>
      (h (hl.of_prefix (List.prefix_append es [e]))).elim fun _ hA => hA.next hl hs) hr hl

theorem run_panic {es : List Event} {m : String} (hl : Limited es)
    (hr : run (.init mkfsNlog) es = some (.panic m)) : m = "too big a transaction" ∧
      ∃ pre p b post, es = pre ++ .test p b :: post ∧ LOGSIZE ≤ (distinct pre).card + 1 := by
  induction es using List.reverseRecOn with
  | nil => cases hr
  | append_singleton es e ih =>
    have hl' := hl.of_prefix (List.prefix_append es [e])
    obtain ⟨s1, h1, h2⟩ | ⟨m', h1, h⟩ := run_append hr
    · obtain ⟨A, hA⟩ := inv_run h1 hl'
      obtain ⟨s2, -, h⟩ | ⟨m', h2, h⟩ := run_cons h2
      · cases h
      · cases h
        obtain ⟨hm, p, b, rfl, hfull⟩ := hA.step_panic h2
        exact ⟨hm, es, p, b, [], rfl, hfull⟩
    · cases h
      obtain ⟨hm, pre, p, b, post, rfl, hfull⟩ := ih hl' h1
      exact ⟨hm, pre, p, b, post ++ [e], by simp, hfull⟩

/-- **When the reservation suffices.** A schedule in which every operation passes at most
`MAXOPBLOCKS` distinct blocks panics unless every call of `log_write` in it comes before `LOGSIZE -
1` distinct blocks were appended since the last commit. -/
theorem log_write_room_iff (es : List Event) (o : Outcome) (hr : run (.init mkfsNlog) es = some o)
    (hl : Limited es) : (∀ s, o = .ok s → s.lh.length ≤ LOGSIZE) ∧
    (o ≠ .panic "too big a transaction" ↔
      ∀ pre p b post, es = pre ++ .test p b :: post → (distinct pre).card < LOGSIZE - 1) := by
  refine ⟨fun s hs => ?_, fun hne pre p b post he => ?_, fun hroom hpanic => ?_⟩
  · subst hs
    obtain ⟨A, hA⟩ := inv_run hr hl
    exact hA.length_le
  · have hlp : Limited pre := hl.of_prefix (he ▸ List.prefix_append pre _)
    obtain ⟨s', h1, h2⟩ | ⟨m, h1, rfl⟩ := run_append (he ▸ hr)
    · obtain ⟨A, hA⟩ := inv_run h1 hlp
      obtain ⟨s2, h3, -⟩ | ⟨m, h3, rfl⟩ := run_cons h2
      · rcases hA.step_test h3 with ⟨h, -⟩ | ⟨-, h⟩
        · cases h
        · omega
      · exact absurd (congrArg Outcome.panic (hA.step_panic h3).1) hne
    · exact absurd (congrArg Outcome.panic (run_panic hlp h1).1) hne
  · subst hpanic
    obtain ⟨-, pre, p, b, post, he, hfull⟩ := run_panic hl hr
    have := hroom pre p b post he
    omega

def fullHouse (n : Nat) : List Event :=
  [.beginOp 0, .beginOp 1, .beginOp 2] ++
    (List.range n).flatMap fun i => [.test (i % 3) i, .append (i % 3) i]

def Event.below (n : Nat) : Event → Bool
  | .test p _ => p < n
  | _ => true

theorem limited_of_below {n : Nat} {es : List Event} (hb : ∀ e ∈ es, e.below n = true)
    (h : ∀ p < n, es.countP (Event.isTest p) ≤ MAXOPBLOCKS) : Limited es := by
  refine limited_of_countP fun p => ?_
  by_cases hp : p < n
  · exact h p hp
  · have : es.countP (Event.isTest p) = 0 := by
      refine List.countP_eq_zero.2 fun e he ht => ?_
      cases e with
      | test q b =>
        have hq := hb _ he
        simp only [Event.below, Event.isTest, decide_eq_true_eq] at hq ht
        omega
      | _ => simp [Event.isTest] at ht
    omega

theorem fullHouse_panics :
    Limited (fullHouse 29 ++ [.test 2 29]) ∧ run (.init mkfsNlog) (fullHouse 29 ++ [.test 2 29]) =
      some (.panic "too big a transaction") :=
  ⟨limited_of_below (n := 3) (by decide) (by decide), rfl⟩

/-- Two operations, which both write block 8. -/
def sharedBlock : List Event :=
  [.beginOp 0, .test 0 7, .append 0 7, .beginOp 1, .test 1 8, .append 1 8, .test 0 8, .append 0 8,
    .endOp 0, .endOp 1]

theorem log_write_room_sharedBlock :
    ∃ s, run (.init mkfsNlog) sharedBlock = some (.ok s) ∧ s.lh = [7, 8] ∧ s.lh.length ≤ LOGSIZE :=
  ⟨_, rfl, rfl, (log_write_room_iff sharedBlock _ rfl
    (limited_of_below (n := 2) (by decide) (by decide))).1 _ rfl⟩

/-- **When the log area is kept.** A schedule that does not panic keeps the log within its `nlog =
LOGSIZE` blocks, header included, exactly when never more than `LOGSIZE - 1` distinct blocks are
appended between two commits. -/
theorem log_area_iff (es : List Event) (s : State) (hr : run (.init mkfsNlog) es = some (.ok s))
    (hl : Limited es) : (∀ pre s', pre <+: es → run (.init mkfsNlog) pre = some (.ok s') →
      s'.lh.length ≤ s'.size - 1 ∧ s'.lh.length ≤ LOGSIZE ∧
        ∀ start cache, Log.StaysInLog start s'.size ⟨s'.lh, cache⟩) ↔
    ∀ pre, pre <+: es → (distinct pre).card ≤ LOGSIZE - 1 := by
  refine ⟨fun h pre hpre => ?_, fun h pre s' hpre hr' => ?_⟩
  · obtain ⟨post, rfl⟩ := hpre
    obtain ⟨s', h', -⟩ | ⟨m, -, h'⟩ := run_append hr
    · obtain ⟨A, hA⟩ := inv_run h' (hl.of_prefix (List.prefix_append pre post))
      have hlen := (h pre s' (List.prefix_append pre post) h').1
      rwa [hA.length_eq, hA.size, mkfsNlog] at hlen
    · cases h'
  · obtain ⟨A, hA⟩ := inv_run hr' (hl.of_prefix hpre)
    have hlen : s'.lh.length ≤ s'.size - 1 := by
      rw [hA.length_eq, hA.size, mkfsNlog]
      exact h pre hpre
    exact ⟨hlen, hA.length_le, fun start cache => Log.staysInLog (m := ⟨s'.lh, cache⟩) hlen⟩

/-- Two calls pass the size test together when one log block is left: the log is overrun. -/
theorem two_writers_overrun :
    Limited (fullHouse 28 ++ [.test 1 28, .test 2 29, .append 1 28, .append 2 29]) ∧
      ∃ s, run (.init mkfsNlog) (fullHouse 28 ++ [.test 1 28, .test 2 29, .append 1 28,
        .append 2 29]) = some (.ok s) ∧ s.size - 1 < s.lh.length :=
  ⟨limited_of_below (n := 3) (by decide) (by decide), _, rfl, by decide⟩

theorem log_area_sharedBlock : ∃ s, run (.init mkfsNlog) sharedBlock = some (.ok s) ∧
    s.lh.length ≤ s.size - 1 ∧ s.lh.length ≤ LOGSIZE ∧
      ∀ start cache, Log.StaysInLog start s.size ⟨s.lh, cache⟩ :=
  ⟨_, rfl, (log_area_iff sharedBlock _ rfl (limited_of_below (n := 2) (by decide) (by decide))).2
    (fun pre hpre => (by decide : ∀ pre ∈ sharedBlock.inits, (distinct pre).card ≤ LOGSIZE - 1) pre
      ((List.mem_inits pre sharedBlock).2 hpre)) sharedBlock _ List.prefix_rfl rfl⟩

end Admit
