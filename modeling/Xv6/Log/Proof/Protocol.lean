import Xv6.Log.Admit

/-!
# The admission protocol of the log

A commit begins when the last operation ends and keeps the others out; a process sleeps in `begin_op`
only while some other is committing or inside an operation, and that one wakes it (`Order`).
-/

namespace Admit

open Param

variable {s s' t : State} {A A' : Finset Nat} {e : Event} {p q b : Nat} {ph ph' : Phase}

@[simp] theorem set_phase_self (s : State) (p : Nat) (ph : Phase) : (s.set p ph).phase p = ph :=
  Function.update_self ..

theorem set_phase_ne (s : State) {p q : Nat} (ph : Phase) (h : q ≠ p) :
    (s.set p ph).phase q = s.phase q :=
  Function.update_of_ne h ..

@[simp] theorem set_lh (s : State) (p : Nat) (ph : Phase) : (s.set p ph).lh = s.lh := rfl

inductive Moves (s : State) : Event → State → Prop
  | sleep {p : Nat} (hp : s.phase p = .idle) (hw : s.committing = true ∨
      s.lh.length + (s.outstanding + 1) * MAXOPBLOCKS > LOGSIZE) :
      Moves s (.beginOp p) (s.set p .sleeping)
  | admitted {p : Nat} (hp : s.phase p = .idle) (hc : s.committing = false)
      (hroom : s.lh.length + (s.outstanding + 1) * MAXOPBLOCKS ≤ LOGSIZE) :
      Moves s (.beginOp p) ({ s with outstanding := s.outstanding + 1 }.set p .op)
  | test {p b : Nat} (hp : s.phase p = .op) : Moves s (.test p b) (s.set p (.writing b))
  | append {p b : Nat} (hp : s.phase p = .writing b) : Moves s (.append p b) (logWriteAppend s p b)
  | last {p : Nat} (hp : s.phase p = .op) (h1 : s.outstanding - 1 = 0) : Moves s (.endOp p)
      ({ s with outstanding := s.outstanding - 1, committing := true }.set p .committing)
  | leave {p : Nat} (hp : s.phase p = .op) (hc : s.committing = false)
      (h1 : s.outstanding - 1 ≠ 0) :
      Moves s (.endOp p) ({ s with outstanding := s.outstanding - 1 }.wakeup.set p .idle)
  | commit {p : Nat} (hp : s.phase p = .committing) :
      Moves s (.commit p) ({ s with lh := [] }.set p .committed)
  | finish {p : Nat} (hp : s.phase p = .committed) :
      Moves s (.finish p) ({ s with committing := false }.wakeup.set p .idle)

theorem step_moves (hs : step s e = some (.ok s')) : Moves s e s' := by
  cases e <;> simp only [step, Option.ite_none_right_eq_some, Option.some.injEq,
    Outcome.ok.injEq] at hs <;> obtain ⟨hp, hs⟩ := hs
  case beginOp p =>
    subst hs
    unfold beginOp
    split
    · rename_i hc
      exact .sleep hp (.inl hc)
    · rename_i hc
      split
      · rename_i hw
        exact .sleep hp (.inr hw)
      · rename_i hw
        exact .admitted hp (Bool.eq_false_iff.2 hc) (Nat.le_of_not_gt hw)
  case test p b =>
    unfold logWriteTest at hs
    split at hs
    · cases hs
    · split at hs <;> cases hs
      exact .test hp
  case append p b => exact hs ▸ .append hp
  case endOp p =>
    unfold endOp at hs
    split at hs
    · cases hs
    · rename_i hc
      split at hs <;> cases hs
      · rename_i h1
        exact .last hp h1
      · rename_i h1
        exact .leave hp (Bool.eq_false_iff.2 hc) h1
  case commit p => exact hs ▸ .commit hp
  case finish p => exact hs ▸ .finish hp

theorem run_append {pre post : List Event} {o : Outcome} (hr : run s (pre ++ post) = some o) :
    (∃ s', run s pre = some (.ok s') ∧ run s' post = some o) ∨
      ∃ m, run s pre = some (.panic m) ∧ o = .panic m := by
  induction pre generalizing s with
  | nil => exact .inl ⟨s, rfl, hr⟩
  | cons e pre ih =>
    rw [List.cons_append] at hr
    simp only [run] at hr ⊢
    split at hr
    · exact ih hr
    · cases hr
      exact .inr ⟨_, rfl, rfl⟩
    · cases hr

theorem run_cons {es : List Event} {o : Outcome} (hr : run s (e :: es) = some o) :
    (∃ s', step s e = some (.ok s') ∧ run s' es = some o) ∨
      ∃ m, step s e = some (.panic m) ∧ o = .panic m := by
  simp only [run] at hr
  split at hr
  · exact .inl ⟨_, by assumption, hr⟩
  · cases hr
    exact .inr ⟨_, by assumption, rfl⟩
  · cases hr

/-- A property of schedules and states that every step keeps holds after every schedule. -/
theorem run_induction {nlog : Nat} {P : List Event → State → Prop} (hinit : P [] (.init nlog))
    (hstep : ∀ es e s s', P es s → step s e = some (.ok s') → P (es ++ [e]) s') {es : List Event}
    (hr : run (.init nlog) es = some (.ok s)) : P es s := by
  induction es using List.reverseRecOn generalizing s with
  | nil =>
    cases hr
    exact hinit
  | append_singleton es e ih =>
    obtain ⟨s1, h1, h2⟩ | ⟨m, -, h⟩ := run_append hr
    · obtain ⟨s2, h2, h3⟩ | ⟨m, -, h⟩ := run_cons h2
      · cases h3
        exact hstep es e s1 s (ih h1) h2
      · cases h
    · cases h

/-! ## The invariant -/

def Phase.Active : Phase → Prop
  | .op | .writing _ => True
  | _ => False

def Phase.Commits : Phase → Prop
  | .committing | .committed => True
  | _ => False

/-- One process commits, and no operation runs then. -/
structure Order (s : State) (A : Finset Nat) : Prop where
  active : ∀ p, p ∈ A ↔ (s.phase p).Active
  card : A.card = s.outstanding
  quiet : s.committing = true → s.outstanding = 0
  holder : s.committing = true ↔ ∃ p, (s.phase p).Commits
  one : ∀ p q, (s.phase p).Commits → (s.phase q).Commits → p = q
  /-- The log is empty between a commit and the next operation. -/
  cleared : s.outstanding = 0 → s.committing = false → s.lh = []
  committed : ∀ p, s.phase p = .committed → s.lh = []
  sleepers : ∀ p, s.phase p = .sleeping → s.committing = true ∨
    s.lh.length + (s.outstanding + 1) * MAXOPBLOCKS > LOGSIZE ∧ 1 ≤ s.outstanding

theorem order_init (nlog : Nat) : Order (.init nlog) ∅ where
  active p := by simp [State.init, Phase.Active]
  card := rfl
  quiet h := by cases h
  holder := ⟨fun h => (by cases h), fun ⟨_, h⟩ => h.elim⟩
  one _ _ h := h.elim
  cleared _ _ := rfl
  committed _ h := by cases h
  sleepers _ h := by cases h

theorem Order.mem (h : Order s A) (hp : s.phase p = .op ∨ ∃ b, s.phase p = .writing b) : p ∈ A := by
  rw [h.active]
  obtain hp | ⟨b, hp⟩ := hp <;> rw [hp] <;> trivial

theorem Order.eq_empty (h : Order s A) (hp : (s.phase p).Commits) : A = ∅ :=
  Finset.card_eq_zero.1 (h.card.trans (h.quiet (h.holder.2 ⟨p, hp⟩)))

theorem Order.not_commits (h : Order s A) (hp : p ∈ A) (q : Nat) : ¬ (s.phase q).Commits := by
  intro hq
  rw [h.eq_empty hq] at hp
  exact Finset.notMem_empty p hp

theorem Order.not_committing (h : Order s A) (hp : p ∈ A) : s.committing = false := by
  refine Bool.eq_false_iff.2 fun hc => ?_
  obtain ⟨q, hq⟩ := h.holder.1 hc
  exact h.not_commits hp q hq

theorem Order.pos (h : Order s A) (hp : p ∈ A) : 1 ≤ s.outstanding := by
  rw [← h.card]
  exact Finset.card_pos.2 ⟨p, hp⟩

/-! ## Steps of one process -/

def Stays (s s' : State) (p : Nat) : Prop :=
  ∀ q ≠ p, s'.phase q = s.phase q ∨ s.phase q = .sleeping ∧ s'.phase q = .idle

theorem stays_set (ht : t.phase = s.phase) : Stays s (t.set p ph) p :=
  fun q hq => .inl (by rw [set_phase_ne t ph hq, ht])

theorem stays_wake (ht : t.phase = s.phase) : Stays s (t.wakeup.set p ph) p := by
  intro q hq
  rw [set_phase_ne _ _ hq, ← ht]
  by_cases h : t.phase q = .sleeping
  · exact .inr ⟨h, if_pos h⟩
  · exact .inl (if_neg h)

theorem Stays.active (hm : Stays s s' p) (hq : q ≠ p) (ha : (s.phase q).Active ∨ (s'.phase q).Active) :
    s'.phase q = s.phase q := by
  rcases hm q hq with h | ⟨h1, h2⟩
  · exact h
  · rw [h1, h2] at ha
    exact (ha.elim id id).elim

theorem Stays.commits (hm : Stays s s' p) (hq : q ≠ p) :
    (s'.phase q).Commits ↔ (s.phase q).Commits := by
  rcases hm q hq with h | ⟨h1, h2⟩
  · rw [h]
  · rw [h1, h2]
    exact Iff.rfl

theorem phase_of_set (hq : (s.set p ph).phase q = ph') (hne : ph ≠ ph') : s.phase q = ph' := by
  by_cases hqp : q = p
  · subst hqp
    rw [set_phase_self] at hq
    exact absurd hq hne
  · rwa [set_phase_ne s ph hqp] at hq

theorem phase_of_wake (hq : (s.wakeup.set p .idle).phase q = ph) (hne : .idle ≠ ph) :
    s.phase q = ph ∧ ph ≠ .sleeping := by
  have hw := phase_of_set hq hne
  by_cases h : s.phase q = .sleeping
  · exact absurd (hw.symm.trans (if_pos h)).symm hne
  · rw [show s.wakeup.phase q = s.phase q from if_neg h] at hw
    exact ⟨hw, hw ▸ h⟩

section
variable (h : Order s A)
include h

theorem Order.move (hm : Stays s s' p) (hA : ∀ q ≠ p, q ∈ A' ↔ q ∈ A)
    (hact : p ∈ A' ↔ (s'.phase p).Active) (hcard : A'.card = s'.outstanding)
    (hquiet : s'.committing = true → s'.outstanding = 0)
    (hcom : s'.committing = s.committing ∧ ((s'.phase p).Commits ↔ (s.phase p).Commits) ∨
      (∀ q ≠ p, ¬ (s.phase q).Commits) ∧ (s'.committing = true ↔ (s'.phase p).Commits))
    (hclr : s'.outstanding = 0 → s'.committing = false → s'.lh = [])
    (hcmt : ∀ q, s'.phase q = .committed → s'.lh = [])
    (hsl : ∀ q, s'.phase q = .sleeping → s'.committing = true ∨
      s'.lh.length + (s'.outstanding + 1) * MAXOPBLOCKS > LOGSIZE ∧ 1 ≤ s'.outstanding) :
    Order s' A' := by
  have hall : s'.committing = s.committing ∧ (∀ q, (s'.phase q).Commits ↔ (s.phase q).Commits) ∨
      (∀ q, (s'.phase q).Commits → q = p) ∧ (s'.committing = true ↔ (s'.phase p).Commits) := by
    refine hcom.imp (fun ⟨hc, hp⟩ => ⟨hc, fun q => ?_⟩) fun ⟨ho, hc⟩ => ⟨fun q hq => ?_, hc⟩
    · by_cases hqp : q = p
      · rw [hqp, hp]
      · exact hm.commits hqp
    · by_contra hqp
      exact ho q hqp ((hm.commits hqp).1 hq)
  refine ⟨fun q => ?_, hcard, hquiet, ?_, fun q r hq hr => ?_, hclr, hcmt, hsl⟩
  · by_cases hqp : q = p
    · rwa [hqp]
    · rw [hA q hqp, h.active]
      exact ⟨fun ha => hm.active hqp (.inl ha) ▸ ha, fun ha => hm.active hqp (.inr ha) ▸ ha⟩
  · rcases hall with ⟨hc, hq⟩ | ⟨ho, hc⟩
    · rw [hc, h.holder]
      exact exists_congr fun q => (hq q).symm
    · exact hc.trans ⟨fun hp => ⟨p, hp⟩, fun ⟨q, hq⟩ => ho q hq ▸ hq⟩
  · rcases hall with ⟨-, hc⟩ | ⟨ho, -⟩
    · exact h.one q r ((hc q).1 hq) ((hc r).1 hr)
    · exact (ho q hq).trans (ho r hr).symm

theorem Order.sleep (hp : s.phase p = .idle) (hw : s.committing = true ∨
    s.lh.length + (s.outstanding + 1) * MAXOPBLOCKS > LOGSIZE) : Order (s.set p .sleeping) A := by
  have hpA : p ∉ A := by rw [h.active, hp]; exact id
  refine h.move (stays_set rfl) (fun _ _ => Iff.rfl) (by simp [hpA, Phase.Active]) h.card h.quiet
    (.inl ⟨rfl, by simp [hp, Phase.Commits]⟩) h.cleared
    (fun q hq => h.committed q (phase_of_set hq (by decide))) fun q hq => ?_
  by_cases hqp : q = p
  · cases hc : s.committing with
    | true => exact .inl hc
    | false =>
      have hroom := hw.resolve_left (by rw [hc]; decide)
      refine .inr ⟨hroom, Nat.pos_of_ne_zero fun h0 => ?_⟩
      -- the log is empty, so the first operation has room
      have h0' : s.outstanding = 0 := h0
      rw [h.cleared h0' hc, h0'] at hroom
      exact absurd hroom (by decide)
  · exact h.sleepers q (set_phase_ne s _ hqp ▸ hq)

theorem Order.admitted (hp : s.phase p = .idle) (hc : s.committing = false) :
    Order ({ s with outstanding := s.outstanding + 1 }.set p .op) (insert p A) := by
  have hpA : p ∉ A := by rw [h.active, hp]; exact id
  refine h.move (stays_set rfl) (fun q hq => by simp [hq]) (by simp [Phase.Active])
    (by rw [Finset.card_insert_of_notMem hpA, h.card]; rfl) (fun ht => ?_)
    (.inl ⟨rfl, by simp [hp, Phase.Commits]⟩) (fun h0 => absurd h0 (Nat.succ_ne_zero _))
    (fun q hq => h.committed q (phase_of_set hq (by decide))) fun q hq => ?_
  · exact absurd (hc.symm.trans ht) (by decide)
  · rcases h.sleepers q (phase_of_set hq (by decide)) with ht | ⟨hroom, -⟩
    · exact absurd (hc.symm.trans ht) (by decide)
    · refine .inr ⟨?_, Nat.succ_pos _⟩
      refine Nat.lt_of_lt_of_le hroom (Nat.add_le_add_left (Nat.mul_le_mul_right _ ?_) _)
      exact Nat.le_succ _

theorem Order.test (hp : s.phase p = .op) : Order (s.set p (.writing b)) A :=
  h.move (stays_set rfl) (fun _ _ => Iff.rfl) (by simp [h.mem (.inl hp), Phase.Active]) h.card h.quiet
    (.inl ⟨rfl, by simp [hp, Phase.Commits]⟩) h.cleared
    (fun q hq => h.committed q (phase_of_set hq (by simp)))
    fun q hq => h.sleepers q (phase_of_set hq (by simp))

theorem Order.append (hp : s.phase p = .writing b) : Order (logWriteAppend s p b) A := by
  have hpA := h.mem (.inr ⟨b, hp⟩)
  have hself : (logWriteAppend s p b).phase p = .op := set_phase_self ..
  refine h.move (stays_set rfl) (fun _ _ => Iff.rfl) (by simp [hpA, hself, Phase.Active]) h.card
    h.quiet (.inl ⟨rfl, by simp [hp, hself, Phase.Commits]⟩) (fun h0 => ?_) (fun q hq => ?_)
    fun q hq => ?_
  · exact absurd h0 (Nat.ne_of_gt (h.pos hpA))
  · have hq' : s.phase q = .committed := phase_of_set hq (by decide)
    exact absurd (by rw [hq']; trivial) (h.not_commits hpA q)
  · refine (h.sleepers q (phase_of_set hq (by decide))).imp_right fun ⟨hroom, hpos⟩ => ⟨?_, hpos⟩
    have hlen : s.lh.length ≤ (logWriteAppend s p b).lh.length := by
      simp only [logWriteAppend, set_lh]
      split
      · exact Nat.le_refl _
      · rw [List.length_append]
        exact Nat.le_add_right _ _
    exact Nat.lt_of_lt_of_le hroom (Nat.add_le_add_right hlen _)

theorem Order.last (hp : s.phase p = .op) (h1 : s.outstanding - 1 = 0) : A = {p} ∧ Order
      ({ s with outstanding := s.outstanding - 1, committing := true }.set p .committing) ∅ := by
  have hpA := h.mem (.inl hp)
  have hpos := h.pos hpA
  obtain ⟨q, rfl⟩ := Finset.card_eq_one.1 (show A.card = 1 by rw [h.card]; omega)
  obtain rfl := Finset.mem_singleton.1 hpA
  refine ⟨rfl, h.move (stays_set rfl) (fun q hq => by simp [hq]) (by simp [Phase.Active]) h1.symm
    (fun _ => h1) (.inr ⟨fun q _ => h.not_commits hpA q, by simp [State.set, Phase.Commits]⟩)
    (fun _ ht => by cases ht) (fun q hq => ?_) fun _ _ => .inl rfl⟩
  have hq' : s.phase q = .committed := phase_of_set hq (by decide)
  exact absurd (by rw [hq']; trivial) (h.not_commits hpA q)

theorem Order.leave (hp : s.phase p = .op) (h1 : s.outstanding - 1 ≠ 0) :
    Order ({ s with outstanding := s.outstanding - 1 }.wakeup.set p .idle) (A.erase p) := by
  have hpA := h.mem (.inl hp)
  refine h.move (stays_wake rfl) (fun q hq => by simp [hq]) (by simp [Phase.Active])
    (by rw [Finset.card_erase_of_mem hpA, h.card]; rfl) (fun ht => ?_)
    (.inl ⟨rfl, by simp [hp, Phase.Commits]⟩) (fun h0 => absurd h0 h1)
    (fun q hq => h.committed q (phase_of_wake hq (by decide)).1)
    fun q hq => absurd rfl (phase_of_wake hq (by decide)).2
  exact absurd ((h.not_committing hpA).symm.trans ht) (by decide)

theorem Order.commit (hp : s.phase p = .committing) :
    Order ({ s with lh := [] }.set p .committed) A := by
  have hpc : (s.phase p).Commits := by rw [hp]; trivial
  have hpA : p ∉ A := by rw [h.active, hp]; exact id
  exact h.move (stays_set rfl) (fun _ _ => Iff.rfl) (by simp [hpA, Phase.Active]) h.card h.quiet
    (.inl ⟨rfl, by simp [hp, Phase.Commits]⟩) (fun _ _ => rfl) (fun _ _ => rfl)
    fun _ _ => .inl (h.holder.2 ⟨p, hpc⟩)

theorem Order.finish (hp : s.phase p = .committed) :
    Order ({ s with committing := false }.wakeup.set p .idle) A := by
  have hpc : (s.phase p).Commits := by rw [hp]; trivial
  have hpA : p ∉ A := by rw [h.active, hp]; exact id
  exact h.move (stays_wake rfl) (fun _ _ => Iff.rfl) (by simp [hpA, Phase.Active]) h.card nofun
    (.inr ⟨fun q hq hc => hq (h.one q p hc hpc), by simp [State.set, State.wakeup, Phase.Commits]⟩)
    (fun _ _ => h.committed p hp) (fun q hq => h.committed q (phase_of_wake hq (by decide)).1)
    fun q hq => absurd rfl (phase_of_wake hq (by decide)).2

/-- **The order of operations and commits is kept by every step.** -/
theorem Order.step (hs : Admit.step s e = some (.ok s')) : ∃ A', Order s' A' := by
  cases step_moves hs with
  | sleep hp hw => exact ⟨A, h.sleep hp hw⟩
  | admitted hp hc => exact ⟨_, h.admitted hp hc⟩
  | test hp => exact ⟨A, h.test hp⟩
  | append hp => exact ⟨A, h.append hp⟩
  | last hp h1 => exact ⟨∅, (h.last hp h1).2⟩
  | leave hp _ h1 => exact ⟨_, h.leave hp h1⟩
  | commit hp => exact ⟨A, h.commit hp⟩
  | finish hp => exact ⟨A, h.finish hp⟩

end

theorem order_run {nlog : Nat} {es : List Event} (hr : run (.init nlog) es = some (.ok s)) :
    ∃ A, Order s A :=
  run_induction (P := fun _ s => ∃ A, Order s A) ⟨∅, order_init nlog⟩
    (fun _ _ _ _ ⟨_, hA⟩ hs => hA.step hs) hr

theorem Order.endOp_ok (h : Order s A) {m : String} : Admit.step s (.endOp p) ≠ some (.panic m) := by
  intro hs
  simp only [Admit.step, Option.ite_none_right_eq_some, Option.some.injEq] at hs
  obtain ⟨hp, hs⟩ := hs
  rw [endOp, if_neg (by simp [h.not_committing (h.mem (.inl hp))])] at hs
  split at hs <;> cases hs

/-- **The admission protocol**, for a log of any size. A commit runs only with no operation
outstanding, and nothing else changes the log header meanwhile; a process that sleeps in `begin_op`
waits for a commit that some process is making, or for log space that some process inside an
operation holds. -/
theorem admission_protocol (nlog : Nat) (es : List Event) (s : State)
    (hr : run (.init nlog) es = some (.ok s)) : (s.committing = true → s.outstanding = 0) ∧
    (∀ p, (s.phase p).Commits → ∀ q b, step s (.test q b) = none ∧ step s (.append q b) = none) ∧
    (∀ p e s', (s.phase p).Commits → step s e = some (.ok s') → s'.lh ≠ s.lh → e = .commit p) ∧
    (∀ e, step s e ≠ some (.panic "log.committing")) ∧ ∀ p, s.phase p = .sleeping →
      (s.committing = true ∧ ∃ q, (s.phase q).Commits) ∨
      (s.lh.length + (s.outstanding + 1) * MAXOPBLOCKS > LOGSIZE ∧ 1 ≤ s.outstanding ∧
        ∃ q, (s.phase q).Active) := by
  obtain ⟨A, h⟩ := order_run hr
  refine ⟨h.quiet, fun p hp q b => ⟨if_neg fun hq => ?_, if_neg fun hq => ?_⟩,
    fun p e s' hp hs hne => ?_, fun e hs => ?_, fun p hp => ?_⟩
  · exact h.not_commits (h.mem (.inl hq)) p hp
  · exact h.not_commits (h.mem (.inr ⟨b, hq⟩)) p hp
  · cases step_moves hs with
    | append hq => exact absurd hp (h.not_commits (h.mem (.inr ⟨_, hq⟩)) p)
    | @commit q hq => rw [h.one p q hp (by rw [hq]; trivial)]
    | _ => exact absurd rfl hne
  · cases e with
    | endOp p => exact h.endOp_ok hs
    | test p b =>
      simp only [Admit.step, Option.ite_none_right_eq_some, Option.some.injEq] at hs
      obtain ⟨hp, hs⟩ := hs
      unfold logWriteTest at hs
      split at hs
      · injection hs with hm
        exact absurd hm (by decide)
      · split at hs
        · injection hs with hm
          exact absurd hm (by decide)
        · cases hs
    | _ => simp [Admit.step] at hs
  · refine (h.sleepers p hp).imp (fun hc => ⟨hc, h.holder.1 hc⟩) fun ⟨hroom, hpos⟩ =>
      ⟨hroom, hpos, ?_⟩
    rw [← h.card] at hpos
    obtain ⟨q, hq⟩ := Finset.card_pos.1 hpos
    exact ⟨q, (h.active q).1 hq⟩

theorem admission_protocol_full : ∃ s,
    run (.init 30) [.beginOp 0, .beginOp 1, .beginOp 2, .beginOp 3] = some (.ok s) ∧
    s.phase 3 = .sleeping ∧ ∃ q, (s.phase q).Active := by
  refine ⟨_, rfl, rfl, ?_⟩
  rcases (admission_protocol 30 [.beginOp 0, .beginOp 1, .beginOp 2, .beginOp 3] _ rfl).2.2.2.2 3
    rfl with ⟨hc, -⟩ | ⟨-, -, hq⟩
  · cases hc
  · exact hq

end Admit
