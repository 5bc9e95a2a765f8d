import Xv6.Base.Monitor

/-!
# A counter with sleep and wakeup

The program of `sleep1.p` for `sleep`, `wakeup`, `acquire` and `release` of the kernel: consumers
wait for a positive counter and decrement it, producers increment it and wake the consumers, with
the lock held or after they released it. The counter is loaded and stored in two steps, as the Promela
model does.
-/

namespace Counter

open Monitor

inductive Pc
  | idle
  /-- The consumer at `value == 0`. -/
  | test
  /-- The consumer before `x = value`. -/
  | load
  /-- The consumer before `value = x - 1`. -/
  | dec (x : Int)
  /-- The consumer before the release. -/
  | done
  /-- The producer before `x = value`; `early` says that it wakes before it releases the lock. -/
  | fetch (early : Bool)
  /-- The producer before `value = x + 1`. -/
  | inc (early : Bool) (x : Int)
  /-- The producer after the increment. -/
  | made (early : Bool)
  /-- The producer that wakes late, after the release. -/
  | released

def act (p : Pc) (value : Int) : Act Unit Int Pc :=
  match p with
  | .test => if value = 0 then .sleep () .test else .set value .load
  | .load => .set value (.dec value)
  | .dec x => .set (x - 1) .done
  | .done => .leave .idle
  | .fetch early => .set value (.inc early value)
  | .inc early x => .set (x + 1) (.made early)
  | .made true => .wake () .done
  | .made false => .leave .released
  | .released => .leave .released
  | .idle => .leave .idle

/-- An iteration of a consumer or a producer. -/
inductive Call : Pc → Pc → Prop
  | consume : Call .idle .test
  | produce (early : Bool) : Call .idle (.fetch early)

def prog {T : Type} : Prog T Unit Int Pc where
  act _ := act
  call _ := Call
  after
    | .released => some ((), .idle)
    | _ => none
  poke _ d d' := d' = d

variable {T : Type}

inductive Reach [DecidableEq T] : State T Unit Int Pc → Prop
  | init (n : Nat) : Reach (.init n fun _ => .idle)
  | step {o : Option T} {s s' : State T Unit Int Pc} (h : Reach s) (hs : Step prog o s s') : Reach s'

/-- The process has incremented the counter and has not ended the wakeup that belongs to it. -/
def Announces (x : Loc Unit Pc) : Prop :=
  match x with
  | .waking _ _ _ | .woke _ _ => True
  | x => x.here = .made true ∨ x.here = .made false ∨ x.here = .released

/-! ## Proof -/

/-- The process relies on the value it read. -/
def Relies : Pc → Prop
  | .load | .dec _ | .inc _ _ => True
  | _ => False

/-- What a process knows of the counter. -/
def Pc.Knows (p : Pc) (value : Int) : Prop :=
  0 ≤ value ∧
    match p with
    | .load => 0 < value
    | .dec x => x = value ∧ 0 < value
    | .inc _ x => x = value
    | _ => True

/-- The wakeup that a process still has to make. -/
def Owes (p : Pc) (_ : Unit) : Prop :=
  match p with
  | .made _ | .released => True
  | _ => False

theorem act_test (v : Int) :
    v = 0 ∧ act .test v = .sleep () .test ∨ v ≠ 0 ∧ act .test v = .set v .load := by
  by_cases hv : v = 0
  · exact .inl ⟨hv, if_pos hv⟩
  · exact .inr ⟨hv, if_neg hv⟩

theorem prog_guards : (prog (T := T)).Guards Relies := by
  refine ⟨fun {t l d l'} h => ?_, fun {t l d c l'} h => ?_, fun {l c l'} h => ?_⟩
  · cases l with
    | test => rcases act_test d with ⟨-, ha⟩ | ⟨-, ha⟩ <;> cases ha.symm.trans h
    | made b =>
      cases b <;> cases h
      exact id
    | _ => cases h <;> exact id
  · cases l with
    | test =>
      rcases act_test d with ⟨-, ha⟩ | ⟨-, ha⟩ <;> cases ha.symm.trans h
      exact id
    | made b => cases b <;> cases h
    | _ => cases h
  · cases l <;> cases h
    exact id

theorem act_knows {p : Pc} {v : Int} (h : p.Knows v) : (act p v).next.Knows ((act p v).data v) := by
  obtain ⟨h0, hp⟩ := h
  cases p with
  | test =>
    rcases act_test v with ⟨-, ha⟩ | ⟨hne, ha⟩ <;> rw [ha]
    · exact ⟨h0, trivial⟩
    · exact ⟨h0, Int.lt_iff_le_and_ne.2 ⟨h0, Ne.symm hne⟩⟩
  | load => exact ⟨h0, rfl, hp⟩
  | dec x =>
    obtain ⟨rfl, hp⟩ := hp
    exact ⟨Int.sub_nonneg_of_le hp, trivial⟩
  | fetch b => exact ⟨h0, rfl⟩
  | inc b x =>
    subst hp
    exact ⟨Int.add_nonneg h0 (by decide), trivial⟩
  | made b => cases b <;> exact ⟨h0, trivial⟩
  | _ => exact ⟨h0, trivial⟩

theorem prog_keeps : (prog (T := T)).Keeps Relies Pc.Knows := by
  refine ⟨act_knows, fun hc h => ?_, fun {l c l' d} ha h => ?_, fun {t l d d'} hp h => ?_,
    fun {l l' d d'} hr h h' => ?_⟩
  · cases hc <;> exact ⟨h.1, trivial⟩
  · cases l <;> cases ha
    exact ⟨h.1, trivial⟩
  · rw [show d' = d from hp]
    exact h
  · cases l with
    | load => exact absurd trivial hr
    | dec x => exact absurd trivial hr
    | inc b x => exact absurd trivial hr
    | _ => exact ⟨h'.1, trivial⟩

theorem prog_ok : (prog (T := T)).Ok (fun _ v => v = 0) Owes := by
  refine ⟨fun hc c ho => ?_, fun {l c l'} ha c' ho => .inl rfl, fun {t d d'} hp c hb => ?_⟩
  · cases hc <;> exact ho.elim
  · exact (show d' = d from hp).trans hb

theorem act_ok {p : Pc} {v : Int} {sleeps : Unit → Prop} (h : p.Knows v) :
    (act p v).Ok (fun _ v => v = 0) Owes sleeps p v := by
  obtain ⟨h0, hp⟩ := h
  cases p with
  | test =>
    rcases act_test v with ⟨hv, ha⟩ | ⟨hne, ha⟩ <;> rw [ha]
    · exact ⟨hv, fun _ => id⟩
    · exact fun c => ⟨.inl, id⟩
  | load => exact fun c => ⟨.inl, id⟩
  | dec x => exact fun c => ⟨fun hv => absurd hv (Int.ne_of_gt hp.2), id⟩
  | fetch b => exact fun c => ⟨.inl, id⟩
  | inc b x => exact fun c => ⟨fun _ => .inr trivial, fun ho => ho.elim⟩
  | made b =>
    cases b with
    | true => exact fun c _ => .inl rfl
    | false => exact fun c _ => .inl trivial
  | released => exact fun c _ => .inl trivial
  | _ => exact fun c ho => ho.elim

variable [DecidableEq T] {s s' : State T Unit Int Pc} {o : Option T}

structure Inv (s : State T Unit Int Pc) : Prop where
  locks : Locks s
  guarded : Guarded Relies s
  knows : Knows Pc.Knows s
  noLost : NoLost (fun _ v => v = 0) Owes s

theorem Inv.step (h : Inv s) (hs : Step prog o s s') : Inv s' := by
  refine ⟨h.locks.step hs, h.guarded.step prog_guards hs,
    h.knows.step h.locks h.guarded prog_keeps hs, h.noLost.step h.locks prog_ok ?_ hs⟩
  intro t l _ hl
  have hhere : s.here t = l := by
    rw [State.here, hl]
    rfl
  exact act_ok (hhere ▸ h.knows t)

theorem Reach.inv (h : Reach s) : Inv s := by
  induction h with
  | init n =>
    exact ⟨locks_init, fun _ h => h.elim, fun _ => ⟨Int.natCast_nonneg n, trivial⟩, noLost_init⟩
  | step _ hs ih => exact ih.step hs

theorem announces_of_debt {x : Loc Unit Pc} (h : x.Debt Owes ()) : Announces x := by
  have howes : ∀ p, Owes p () → p = .made true ∨ p = .made false ∨ p = .released := by
    intro p hp
    cases p with
    | made b => cases b <;> simp
    | released => simp
    | _ => exact hp.elim
  cases x with
  | waking b c l => trivial
  | woke b l => trivial
  | _ => exact howes _ h

/-- **No wakeup is lost.** If a consumer sleeps while the counter is positive, then some process is
between an increment and the end of the wakeup that belongs to it. -/
theorem no_lost_wakeup (h : Reach s) : 0 ≤ s.data ∧
    ∀ t, (s.loc t).Sleeping () → 0 < s.data → ∃ u, Announces (s.loc u) := by
  have hi := h.inv
  refine ⟨?_, fun t ht hpos => ?_⟩
  · cases h with
    | init n => exact Int.natCast_nonneg n
    | step h hs =>
      have ht : Nonempty T := by
        cases hs <;> exact ⟨‹T›⟩
      exact ht.elim fun t => (hi.knows t).1
  · rcases hi.noLost t () ht.sleepsOn with h0 | ⟨u, hu⟩
    · omega
    · exact ⟨u, announces_of_debt hu⟩

theorem no_lost_wakeup_announced : ∃ s : State Bool Unit Int Pc, Reach s ∧
    (s.loc false).Sleeping () ∧ 0 < s.data ∧ ∃ u, Announces (s.loc u) := by
  have h0 : Reach (.init 0 fun _ : Bool => Pc.idle) := .init 0
  have h1 := h0.step (.acquire (t := false) rfl .consume rfl)
  have h2 := h1.step (.sleep (t := false) rfl rfl rfl)
  have h3 := h2.step (.release (t := false) rfl)
  have h4 := h3.step (.mark (t := false) rfl)
  have h5 := h4.step (.sched (t := false) rfl)
  have h6 := h5.step (.acquire (t := true) rfl (.produce false) rfl)
  have h7 := h6.step (.set (t := true) rfl rfl)
  have h8 := h7.step (.set (t := true) rfl rfl)
  have h9 := h8.step (.leave (t := true) rfl rfl)
  exact ⟨_, h9, rfl, by decide, (no_lost_wakeup h9).2 false rfl (by decide)⟩

end Counter
