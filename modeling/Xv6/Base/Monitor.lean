import Mathlib.Algebra.Group.Nat.Defs
import Mathlib.Logic.Function.Basic

/-!
# Monitors with sleep and wakeup

Threads share data under a lock. A thread that holds the lock may wait on a channel: it takes a
second lock, the scheduler's, releases the first, marks itself asleep and gives up the processor,
which frees the second lock. `wakeup` is called with or without the lock of the monitor.

`B c d` is a condition under which waiting on `c` is justified, and `Owes l c` says that a thread with
the local state `l` still has to wake `c`. If each action pays its debts (`Act.Ok`), every sleeper
waits with reason, or is about to be woken (`NoLost.step`).
-/

namespace Monitor

open Function

/-- The next action of a thread that holds the lock; `l` is its local state afterwards. -/
inductive Act (C σ ℓ : Type)
  /-- Change the data. -/
  | set (d : σ) (l : ℓ)
  /-- Wake the threads asleep on `c`. -/
  | wake (c : C) (l : ℓ)
  /-- Wait on `c`, and go on from `l` with the lock held again. -/
  | sleep (c : C) (l : ℓ)
  /-- Release the lock. -/
  | leave (l : ℓ)

inductive Loc (C ℓ : Type)
  /-- Without a lock. -/
  | out (l : ℓ)
  /-- With the lock of the monitor. -/
  | inside (l : ℓ)
  /-- In `wakeup`, before the scan; `b` says whether it holds the lock of the monitor too. -/
  | waking (b : Bool) (c : C) (l : ℓ)
  /-- In `wakeup`, after the scan. -/
  | woke (b : Bool) (l : ℓ)
  /-- In `sleep`, with both locks. -/
  | turning (c : C) (l : ℓ)
  /-- In `sleep`, with the lock of the scheduler only. -/
  | falling (c : C) (l : ℓ)
  /-- Marked asleep, still on the processor. -/
  | marked (c : C) (l : ℓ)
  | asleep (c : C) (l : ℓ)
  /-- Woken, and waiting for a processor. -/
  | ready (l : ℓ)
  /-- Running again, and waiting for the lock of the monitor. -/
  | back (l : ℓ)

structure Prog (T C σ ℓ : Type) where
  /-- The next action of a thread that holds the lock. -/
  act : T → ℓ → σ → Act C σ ℓ
  /-- The calls that a thread outside may start. -/
  call : T → ℓ → ℓ → Prop
  /-- A wakeup that a thread makes after it released the lock. -/
  after : ℓ → Option (C × ℓ)
  /-- What other threads may do to a thread without the lock; it is woken then. -/
  poke : T → σ → σ → Prop

structure State (T C σ ℓ : Type) where
  /-- The holder of the lock of the monitor. -/
  lk : Option T
  /-- The holder of the lock of the scheduler. -/
  pt : Option T
  data : σ
  loc : T → Loc C ℓ

def State.init {T C σ ℓ : Type} (d : σ) (l : T → ℓ) : State T C σ ℓ :=
  ⟨none, none, d, fun t => .out (l t)⟩

variable {T C σ ℓ : Type} [DecidableEq T] [DecidableEq C]

def State.move (s : State T C σ ℓ) (t : T) (x : Loc C ℓ) : State T C σ ℓ :=
  { s with loc := update s.loc t x }

def Loc.rouse (c : C) : Loc C ℓ → Loc C ℓ
  | .asleep c' l => if c' = c then .ready l else .asleep c' l
  | x => x

/-- A thread that is woken whatever it waits for. -/
def Loc.rise : Loc C ℓ → Loc C ℓ
  | .asleep _ l => .ready l
  | x => x

/-- One step; the label is the thread that takes it, or none when a thread is poked. -/
inductive Step (P : Prog T C σ ℓ) : Option T → State T C σ ℓ → State T C σ ℓ → Prop
  | acquire {s t l l'} (h : s.loc t = .out l) (hc : P.call t l l') (hlk : s.lk = none) :
      Step P (some t) s { s.move t (.inside l') with lk := some t }
  | set {s t l d l'} (h : s.loc t = .inside l) (ha : P.act t l s.data = .set d l') :
      Step P (some t) s { s.move t (.inside l') with data := d }
  | leave {s t l l'} (h : s.loc t = .inside l) (ha : P.act t l s.data = .leave l') :
      Step P (some t) s { s.move t (.out l') with lk := none }
  | wake {s t l c l'} (h : s.loc t = .inside l) (ha : P.act t l s.data = .wake c l')
      (hpt : s.pt = none) : Step P (some t) s { s.move t (.waking true c l') with pt := some t }
  | after {s t l c l'} (h : s.loc t = .out l) (ha : P.after l = some (c, l')) (hpt : s.pt = none) :
      Step P (some t) s { s.move t (.waking false c l') with pt := some t }
  | scan {s t b c l} (h : s.loc t = .waking b c l) :
      Step P (some t) s { s with loc := update (fun u => (s.loc u).rouse c) t (.woke b l) }
  | woken {s t b l} (h : s.loc t = .woke b l) :
      Step P (some t) s { s.move t (if b then .inside l else .out l) with pt := none }
  | sleep {s t l c l'} (h : s.loc t = .inside l) (ha : P.act t l s.data = .sleep c l')
      (hpt : s.pt = none) : Step P (some t) s { s.move t (.turning c l') with pt := some t }
  | release {s t c l} (h : s.loc t = .turning c l) :
      Step P (some t) s { s.move t (.falling c l) with lk := none }
  | mark {s t c l} (h : s.loc t = .falling c l) : Step P (some t) s (s.move t (.marked c l))
  | sched {s t c l} (h : s.loc t = .marked c l) :
      Step P (some t) s { s.move t (.asleep c l) with pt := none }
  | resume {s t l} (h : s.loc t = .ready l) (hpt : s.pt = none) :
      Step P (some t) s (s.move t (.back l))
  | reacquire {s t l} (h : s.loc t = .back l) (hlk : s.lk = none) :
      Step P (some t) s { s.move t (.inside l) with lk := some t }
  | poke {s t d} (hp : P.poke t s.data d) (hpt : s.pt = none) :
      Step P none s { s.move t (s.loc t).rise with data := d }

/-! ## Locks -/

section
variable {h : Loc C ℓ → Prop} {o : Option T} {loc : T → Loc C ℓ} {t u : T} {x : Loc C ℓ}

/-- The lock with the holder `o` is held by the thread in a place of the kind `h`. -/
def Held (h : Loc C ℓ → Prop) (o : Option T) (loc : T → Loc C ℓ) : Prop :=
  ∀ t, o = some t ↔ h (loc t)

omit [DecidableEq T] [DecidableEq C] in
theorem Held.unique (hh : Held h o loc) (ht : h (loc t)) (hu : h (loc u)) : t = u :=
  Option.some.inj (((hh t).2 ht).symm.trans ((hh u).2 hu))

omit [DecidableEq T] [DecidableEq C] in
theorem Held.free (hh : Held h none loc) : ¬ h (loc t) := fun ht => by cases (hh t).2 ht

omit [DecidableEq C] in
theorem Held.keep (hh : Held h o loc) (he : h x ↔ h (loc t)) :
    Held h o (update loc t x) := fun u => by
  by_cases hu : u = t
  · subst hu
    rw [update_self, he]
    exact hh u
  · rw [update_of_ne hu]
    exact hh u

omit [DecidableEq C] in
theorem Held.take (hh : Held h none loc) (hx : h x) :
    Held h (some t) (update loc t x) := fun u => by
  by_cases hu : u = t
  · subst hu
    simp [hx]
  · rw [update_of_ne hu]
    exact ⟨fun he => absurd (Option.some.inj he).symm hu, fun hl => absurd hl hh.free⟩

omit [DecidableEq C] in
theorem Held.drop (hh : Held h o loc) (ht : h (loc t)) (hx : ¬ h x) :
    Held h none (update loc t x) := fun u => by
  by_cases hu : u = t
  · subst hu
    simp [hx]
  · rw [update_of_ne hu]
    exact ⟨fun he => (by cases he), fun hl => absurd (hh.unique hl ht) hu⟩

end

def Loc.hasLk : Loc C ℓ → Prop
  | .inside _ | .waking true _ _ | .woke true _ | .turning _ _ => True
  | _ => False

def Loc.hasPt : Loc C ℓ → Prop
  | .waking _ _ _ | .woke _ _ | .turning _ _ | .falling _ _ | .marked _ _ => True
  | _ => False

omit [DecidableEq C] in
@[simp] theorem Loc.hasLk_rise {x : Loc C ℓ} : x.rise.hasLk ↔ x.hasLk := by
  cases x <;> rfl

omit [DecidableEq C] in
@[simp] theorem Loc.hasPt_rise {x : Loc C ℓ} : x.rise.hasPt ↔ x.hasPt := by
  cases x <;> rfl

@[simp] theorem Loc.hasLk_rouse {c : C} {x : Loc C ℓ} : (x.rouse c).hasLk ↔ x.hasLk := by
  cases x with
  | asleep c' l =>
    rw [rouse]
    split <;> rfl
  | _ => rfl

@[simp] theorem Loc.hasPt_rouse {c : C} {x : Loc C ℓ} : (x.rouse c).hasPt ↔ x.hasPt := by
  cases x with
  | asleep c' l =>
    rw [rouse]
    split <;> rfl
  | _ => rfl

structure Locks (s : State T C σ ℓ) : Prop where
  lk : Held Loc.hasLk s.lk s.loc
  pt : Held Loc.hasPt s.pt s.loc

variable {P : Prog T C σ ℓ} {s s' : State T C σ ℓ} {o : Option T} {t u : T} {c : C} {l : ℓ}

omit [DecidableEq T] [DecidableEq C] in
theorem locks_init {d : σ} {l : T → ℓ} : Locks (State.init d l : State T C σ ℓ) :=
  ⟨fun t => by simp [State.init, Loc.hasLk], fun t => by simp [State.init, Loc.hasPt]⟩

theorem Locks.step (hl : Locks s) (hs : Step P o s s') : Locks s' := by
  obtain ⟨hlk, hpt⟩ := hl
  cases hs with
  | acquire h hc hfree =>
    rw [hfree] at hlk
    exact ⟨hlk.take trivial, hpt.keep (by rw [h]; rfl)⟩
  | set h ha => exact ⟨hlk.keep (by rw [h]; rfl), hpt.keep (by rw [h]; rfl)⟩
  | leave h ha => exact ⟨hlk.drop (by rw [h]; trivial) id, hpt.keep (by rw [h]; rfl)⟩
  | wake h ha hfree =>
    rw [hfree] at hpt
    exact ⟨hlk.keep (by rw [h]; rfl), hpt.take trivial⟩
  | after h ha hfree =>
    rw [hfree] at hpt
    exact ⟨hlk.keep (by rw [h]; rfl), hpt.take trivial⟩
  | @scan _ t b c l h =>
    have hlk' : Held Loc.hasLk s.lk fun u => (s.loc u).rouse c := fun u => by
      rw [Loc.hasLk_rouse]
      exact hlk u
    have hpt' : Held Loc.hasPt s.pt fun u => (s.loc u).rouse c := fun u => by
      rw [Loc.hasPt_rouse]
      exact hpt u
    refine ⟨hlk'.keep ?_, hpt'.keep ?_⟩
    · rw [Loc.hasLk_rouse, h]
      cases b <;> rfl
    · rw [Loc.hasPt_rouse, h]
      rfl
  | @woken _ t b l h =>
    refine ⟨hlk.keep ?_, hpt.drop (by rw [h]; trivial) ?_⟩
    · rw [h]
      cases b <;> rfl
    · cases b <;> exact id
  | sleep h ha hfree =>
    rw [hfree] at hpt
    exact ⟨hlk.keep (by rw [h]; rfl), hpt.take trivial⟩
  | release h => exact ⟨hlk.drop (by rw [h]; trivial) id, hpt.keep (by rw [h]; rfl)⟩
  | mark h => exact ⟨hlk.keep (by rw [h]; rfl), hpt.keep (by rw [h]; rfl)⟩
  | sched h => exact ⟨hlk.keep (by rw [h]; rfl), hpt.drop (by rw [h]; trivial) id⟩
  | resume h hfree => exact ⟨hlk.keep (by rw [h]; rfl), hpt.keep (by rw [h]; rfl)⟩
  | reacquire h hfree =>
    rw [hfree] at hlk
    exact ⟨hlk.take trivial, hpt.keep (by rw [h]; rfl)⟩
  | poke hp hfree => exact ⟨hlk.keep Loc.hasLk_rise, hpt.keep Loc.hasPt_rise⟩

/-! ## Data and local states -/

def Loc.here : Loc C ℓ → ℓ
  | .out l | .inside l | .waking _ _ l | .woke _ l | .turning _ l | .falling _ l | .marked _ l
  | .asleep _ l | .ready l | .back l => l

def State.here (s : State T C σ ℓ) (t : T) : ℓ := (s.loc t).here

def Act.next : Act C σ ℓ → ℓ
  | .set _ l | .wake _ l | .sleep _ l | .leave l => l

def Act.data (d : σ) : Act C σ ℓ → σ
  | .set d' _ => d'
  | _ => d

omit [DecidableEq C] in
@[simp] theorem Loc.here_rise {x : Loc C ℓ} : x.rise.here = x.here := by
  cases x <;> rfl

@[simp] theorem Loc.here_rouse {x : Loc C ℓ} : (x.rouse c).here = x.here := by
  cases x with
  | asleep c' l =>
    rw [rouse]
    split <;> rfl
  | _ => rfl

omit [DecidableEq C] in
theorem here_move {x : Loc C ℓ} : (s.move t x).here = update s.here t x.here := by
  funext u
  by_cases hu : u = t
  · subst hu
    simp [State.here, State.move]
  · simp [State.here, State.move, hu]

inductive Effect (P : Prog T C σ ℓ) (s s' : State T C σ ℓ) : Option T → Prop
  /-- A step of `sleep`, `wakeup` or a lock. -/
  | still {o : Option T} (hd : s'.data = s.data) (hh : s'.here = s.here) : Effect P s s' o
  | call {t : T} {l : ℓ} (hc : P.call t (s.here t) l) (hout : ∃ k, s.loc t = .out k)
    (hd : s'.data = s.data)
      (hh : s'.here = update s.here t l) : Effect P s s' (some t)
  | act {t : T} (hin : s.loc t = .inside (s.here t))
      (hd : s'.data = (P.act t (s.here t) s.data).data s.data)
      (hh : s'.here = update s.here t (P.act t (s.here t) s.data).next) :
      Effect P s s' (some t)
  | after {t : T} {c : C} {l : ℓ} (ha : P.after (s.here t) = some (c, l)) (hout : ∃ k, s.loc t = .out k)
      (hd : s'.data = s.data) (hh : s'.here = update s.here t l) : Effect P s s' (some t)
  | poke {t : T} (hp : P.poke t s.data s'.data) (hh : s'.here = s.here) : Effect P s s' none

omit [DecidableEq C] in
theorem here_self {x : Loc C ℓ} (h : x.here = s.here t) : (s.move t x).here = s.here := by
  rw [here_move, h, update_eq_self]

/-- **Every step is one of these.** -/
theorem Step.effect (hs : Step P o s s') : Effect P s s' o := by
  have hact : ∀ {t l}, s.loc t = .inside l → s.here t = l := fun h => by rw [State.here, h]; rfl
  cases hs with
  | acquire h hc hfree =>
    refine .call (l := _) ?_ ⟨_, h⟩ rfl here_move
    rw [State.here, h]
    exact hc
  | set h ha =>
    have he := hact h
    exact .act (by rw [he, h]) (by rw [he, ha]; rfl) (by rw [he, ha]; exact here_move)
  | leave h ha =>
    have he := hact h
    exact .act (by rw [he, h]) (by rw [he, ha]; rfl) (by rw [he, ha]; exact here_move)
  | wake h ha hfree =>
    have he := hact h
    exact .act (by rw [he, h]) (by rw [he, ha]; rfl) (by rw [he, ha]; exact here_move)
  | sleep h ha hfree =>
    have he := hact h
    exact .act (by rw [he, h]) (by rw [he, ha]; rfl) (by rw [he, ha]; exact here_move)
  | @after _ t l c l' h ha hfree =>
    refine .after (c := c) (l := l') ?_ ⟨_, h⟩ rfl here_move
    rw [State.here, h]
    exact ha
  | @scan _ t b c l h =>
    refine .still rfl (funext fun u => ?_)
    by_cases hu : u = t
    · subst hu
      simp [State.here, h, Loc.here]
    · simp [State.here, hu]
  | @woken _ t b l h =>
    refine .still rfl (here_self ?_)
    rw [State.here, h]
    cases b <;> rfl
  | release h => exact .still rfl (here_self (by rw [State.here, h]; rfl))
  | mark h => exact .still rfl (here_self (by rw [State.here, h]; rfl))
  | sched h => exact .still rfl (here_self (by rw [State.here, h]; rfl))
  | resume h hfree => exact .still rfl (here_self (by rw [State.here, h]; rfl))
  | reacquire h hfree => exact .still rfl (here_self (by rw [State.here, h]; rfl))
  | poke hp hfree => exact .poke hp (here_self (by rw [Loc.here_rise]; rfl))

/-! ## No lost wakeup -/

/-- The thread is asleep on `c`, or cannot be kept from it. -/
def Loc.SleepsOn (c : C) : Loc C ℓ → Prop
  | .turning c' _ | .falling c' _ | .marked c' _ | .asleep c' _ => c' = c
  | _ => False

section
variable (B : C → σ → Prop) (Owes : ℓ → C → Prop)

/-- The thread has to wake `c`, or is about to. -/
def Loc.Debt (x : Loc C ℓ) (c : C) : Prop :=
  match x with
  | .waking _ c' l => c' = c ∨ Owes l c
  | x => Owes x.here c

/-- Every sleeper has a reason to wait, or a thread is going to wake it. -/
def NoLost (s : State T C σ ℓ) : Prop :=
  ∀ u c, (s.loc u).SleepsOn c → B c s.data ∨ ∃ t, (s.loc t).Debt Owes c

/-- The action pays its debts: data that ends a wait makes a debt, and a debt stays until the
wakeup is made. A thread may leave with a debt to a channel on which nobody sleeps. -/
def Act.Ok (sleeps : C → Prop) (l : ℓ) (d : σ) : Act C σ ℓ → Prop
  | .set d' l' => ∀ c, (B c d → B c d' ∨ Owes l' c) ∧ (Owes l c → Owes l' c)
  | .wake c l' => ∀ c', Owes l c' → c' = c ∨ Owes l' c'
  | .sleep c l' => B c d ∧ ∀ c', Owes l c' → Owes l' c'
  | .leave l' => ∀ c, Owes l c → Owes l' c ∨ ¬ sleeps c

/-- The parts of a program outside the lock pay their debts. -/
structure Prog.Ok (P : Prog T C σ ℓ) : Prop where
  call : ∀ {t l l'}, P.call t l l' → ∀ c, Owes l c → Owes l' c
  after : ∀ {l c l'}, P.after l = some (c, l') → ∀ c', Owes l c' → c' = c ∨ Owes l' c'
  poke : ∀ {t d d'}, P.poke t d d' → ∀ c, B c d → B c d'

variable {B Owes}

theorem Loc.debt_rouse {c c' : C} {x : Loc C ℓ} : (x.rouse c).Debt Owes c' ↔ x.Debt Owes c' := by
  cases x with
  | asleep c0 l =>
    rw [rouse]
    split <;> rfl
  | _ => rfl

omit [DecidableEq T] [DecidableEq C] in
theorem noLost_init {d : σ} {l : T → ℓ} : NoLost B Owes (State.init d l : State T C σ ℓ) :=
  fun _ _ h => h.elim

omit [DecidableEq C] in
theorem NoLost.move {x : Loc C ℓ} (hn : NoLost B Owes s) (hloc : s'.loc = update s.loc t x)
    (hsl : ∀ c, x.SleepsOn c → (s.loc t).SleepsOn c)
    (hB : ∀ c, B c s.data → B c s'.data ∨ x.Debt Owes c)
    (hD : ∀ c, (s.loc t).Debt Owes c → x.Debt Owes c ∨ ∀ u, ¬ (s.loc u).SleepsOn c) :
    NoLost B Owes s' := by
  have ht : s'.loc t = x := by rw [hloc, update_self]
  have hu : ∀ u, u ≠ t → s'.loc u = s.loc u := fun u hne => by
    rw [hloc, update_of_ne hne]
  intro u c hs
  have hold : ∃ v, (s.loc v).SleepsOn c := by
    by_cases hut : u = t
    · subst hut
      rw [ht] at hs
      exact ⟨u, hsl c hs⟩
    · exact ⟨u, hu u hut ▸ hs⟩
  obtain ⟨v, hv⟩ := hold
  rcases hn v c hv with hb | ⟨w, hw⟩
  · exact (hB c hb).imp_right fun hd => ⟨t, ht.symm ▸ hd⟩
  · right
    by_cases hwt : w = t
    · subst hwt
      rcases hD c hw with hd | hno
      · exact ⟨w, ht.symm ▸ hd⟩
      · exact absurd hv (hno v)
    · exact ⟨w, (hu w hwt).symm ▸ hw⟩

theorem NoLost.scan {b : Bool} (hl : Locks s) (hn : NoLost B Owes s) (h : s.loc t = .waking b c l) :
    NoLost B Owes { s with loc := update (fun u => (s.loc u).rouse c) t (.woke b l) } := by
  have hrouse : ∀ u c', u ≠ t → ((s.loc u).rouse c).SleepsOn c' → (s.loc u).SleepsOn c' ∧ c' ≠ c := by
    intro u c' hut hs
    -- the other places of a sleeper have the lock of the scheduler, which `t` holds
    have hno : ¬ (s.loc u).hasPt := fun hp => hut (hl.pt.unique hp (by rw [h]; trivial))
    cases hx : s.loc u with
    | asleep c0 k =>
      rw [hx, Loc.rouse] at hs
      split at hs
      · exact hs.elim
      · rename_i hne
        obtain rfl : c0 = c' := hs
        exact ⟨rfl, hne⟩
    | turning _ _ => exact absurd (by rw [hx]; trivial) hno
    | falling _ _ => exact absurd (by rw [hx]; trivial) hno
    | marked _ _ => exact absurd (by rw [hx]; trivial) hno
    | _ =>
      rw [hx] at hs
      exact hs.elim
  intro u c' hs
  by_cases hut : u = t
  · subst hut
    simp only [update_self] at hs
    exact hs.elim
  · simp only [update_of_ne hut] at hs
    obtain ⟨hold, hne⟩ := hrouse u c' hut hs
    rcases hn u c' hold with hb | ⟨w, hw⟩
    · exact .inl hb
    · refine .inr ⟨w, ?_⟩
      by_cases hwt : w = t
      · subst hwt
        simp only [update_self]
        rw [h] at hw
        exact hw.resolve_left fun he => hne he.symm
      · simp only [update_of_ne hwt]
        exact Loc.debt_rouse.2 hw

omit [DecidableEq C] in
theorem NoLost.still {x : Loc C ℓ} (hn : NoLost B Owes s)
    (hloc : s'.loc = update s.loc t x) (hdata : s'.data = s.data)
    (hdebt : ∀ c, (s.loc t).Debt Owes c → x.Debt Owes c)
    (hsl : ∀ c, x.SleepsOn c → (s.loc t).SleepsOn c) : NoLost B Owes s' :=
  hn.move hloc hsl (fun _ hb => .inl (hdata ▸ hb)) fun c hd => .inl (hdebt c hd)

/-- **No wakeup is lost** by a step whose action pays its debts. -/
theorem NoLost.step (hl : Locks s) (hn : NoLost B Owes s) (hP : P.Ok B Owes)
    (hok : ∀ t l, o = some t → s.loc t = .inside l →
      (P.act t l s.data).Ok B Owes (fun c => ∃ u, (s.loc u).SleepsOn c) l s.data)
    (hs : Step P o s s') : NoLost B Owes s' := by
  cases hs with
  | acquire h hc hfree =>
    refine hn.move rfl (fun _ => False.elim) (fun _ hb => .inl hb) fun c hd => .inl ?_
    rw [h] at hd
    exact hP.call hc c hd
  | set h ha =>
    have hok := hok _ _ rfl h
    rw [ha] at hok
    refine hn.move rfl (fun _ => False.elim) (fun c hb => (hok c).1 hb) fun c hd => .inl ?_
    rw [h] at hd
    exact (hok c).2 hd
  | leave h ha =>
    have hok := hok _ _ rfl h
    rw [ha] at hok
    refine hn.move rfl (fun _ => False.elim) (fun _ hb => .inl hb) fun c hd => ?_
    rw [h] at hd
    exact (hok c hd).imp_right fun hno u hu => hno ⟨u, hu⟩
  | wake h ha hfree =>
    have hok := hok _ _ rfl h
    rw [ha] at hok
    refine hn.move rfl (fun _ => False.elim) (fun _ hb => .inl hb) fun c hd => .inl ?_
    rw [h] at hd
    exact (hok c hd).imp_left Eq.symm
  | after h ha hfree =>
    refine hn.move rfl (fun _ => False.elim) (fun _ hb => .inl hb) fun c hd => .inl ?_
    rw [h] at hd
    exact (hP.after ha c hd).imp_left Eq.symm
  | scan h => exact hn.scan hl h
  | @woken _ t b l h =>
    refine hn.still rfl rfl (fun c hd => ?_) fun c hx => ?_
    · rw [h] at hd
      cases b <;> exact hd
    · cases b <;> exact hx.elim
  | @sleep _ t l c l' h ha hfree =>
    have hok := hok _ _ rfl h
    rw [ha] at hok
    obtain ⟨hb, hkeep⟩ := hok
    have hdebt : ∀ w c', (s.loc w).Debt Owes c' →
        ((s.move t (.turning c l')).loc w).Debt Owes c' := by
      intro w c' hw
      by_cases hwt : w = t
      · subst hwt
        rw [h] at hw
        simp only [State.move, update_self]
        exact hkeep c' hw
      · simpa only [State.move, update_of_ne hwt] using hw
    intro u c' hu
    by_cases hut : u = t
    · subst hut
      simp only [State.move, update_self] at hu
      obtain rfl : c = c' := hu
      exact .inl hb
    · simp only [State.move, update_of_ne hut] at hu
      exact (hn u c' hu).imp_right fun ⟨w, hw⟩ => ⟨w, hdebt w c' hw⟩
  | release h => exact hn.still rfl rfl (by rw [h]; exact fun _ => id) (by rw [h]; exact fun _ => id)
  | mark h => exact hn.still rfl rfl (by rw [h]; exact fun _ => id) (by rw [h]; exact fun _ => id)
  | sched h => exact hn.still rfl rfl (by rw [h]; exact fun _ => id) (by rw [h]; exact fun _ => id)
  | resume h hfree => exact hn.still rfl rfl (by rw [h]; exact fun _ => id) fun _ => False.elim
  | reacquire h hfree => exact hn.still rfl rfl (by rw [h]; exact fun _ => id) fun _ => False.elim
  | @poke _ t d hp hfree =>
    refine hn.move rfl (fun c hx => ?_) (fun c hb => .inl (hP.poke hp c hb)) fun c hd => .inl ?_
    · cases hx' : s.loc t <;> rw [hx'] at hx <;> first | exact hx | exact hx.elim
    · cases hx' : s.loc t <;> rw [hx'] at hd <;> exact hd

end

/-! ## What a thread under the lock relies on -/

def Loc.Busy : Loc C ℓ → Prop
  | .inside _ | .waking true _ _ | .woke true _ => True
  | _ => False

omit [DecidableEq C] in
theorem Loc.Busy.hasLk {x : Loc C ℓ} (h : x.Busy) : x.hasLk := by
  cases x with
  | waking b c l => cases b <;> exact h
  | woke b l => cases b <;> exact h
  | inside l => trivial
  | _ => exact h.elim

theorem Loc.busy_rouse {x : Loc C ℓ} : (x.rouse c).Busy ↔ x.Busy := by
  cases x with
  | asleep c' l =>
    rw [rouse]
    split <;> rfl
  | _ => rfl

section
variable {R : ℓ → Prop}

/-- Threads whose local states satisfy `R` work under the lock. -/
def Guarded (R : ℓ → Prop) (s : State T C σ ℓ) : Prop := ∀ t, R (s.here t) → (s.loc t).Busy

/-- A program that gives up the lock outside `R` only. -/
structure Prog.Guards (P : Prog T C σ ℓ) (R : ℓ → Prop) : Prop where
  leave : ∀ {t l d l'}, P.act t l d = .leave l' → ¬ R l'
  sleep : ∀ {t l d c l'}, P.act t l d = .sleep c l' → ¬ R l'
  after : ∀ {l c l'}, P.after l = some (c, l') → ¬ R l'

omit [DecidableEq C] in
theorem Guarded.move {x : Loc C ℓ} (hg : Guarded R s) (hloc : s'.loc = update s.loc t x)
    (hx : R x.here → x.Busy) : Guarded R s' := by
  intro u hd
  unfold State.here at hd
  rw [hloc] at hd ⊢
  by_cases hu : u = t
  · subst hu
    rw [update_self] at hd ⊢
    exact hx hd
  · rw [update_of_ne hu] at hd ⊢
    exact hg u hd

omit [DecidableEq C] in
theorem Guarded.still {x y : Loc C ℓ} (hg : Guarded R s) (h : s.loc t = y)
    (hloc : s'.loc = update s.loc t x) (hh : x.here = y.here) (hb : y.Busy → x.Busy) :
    Guarded R s' := by
  refine hg.move hloc fun hr => hb ?_
  rw [← h]
  refine hg t ?_
  rw [State.here, h, ← hh]
  exact hr

theorem Guarded.step (hg : Guarded R s) (hP : P.Guards R) (hs : Step P o s s') : Guarded R s' := by
  cases hs with
  | acquire h hc hfree => exact hg.move rfl fun _ => trivial
  | set h ha => exact hg.move rfl fun _ => trivial
  | leave h ha => exact hg.move rfl fun hr => absurd hr (hP.leave ha)
  | wake h ha hfree => exact hg.move rfl fun _ => trivial
  | after h ha hfree => exact hg.move rfl fun hr => absurd hr (hP.after ha)
  | @scan _ t b c l h =>
    have hr : Guarded R { s with loc := fun u => (s.loc u).rouse c } := by
      intro u hu
      simp only [State.here, Loc.here_rouse] at hu
      exact Loc.busy_rouse.2 (hg u hu)
    refine hr.still (t := t) (y := .waking b c l) ?_ rfl rfl ?_
    · simp only [h]
      rfl
    · cases b <;> exact id
  | @woken _ t b l h => exact hg.still h rfl (by cases b <;> rfl) (by cases b <;> exact id)
  | sleep h ha hfree => exact hg.move rfl fun hr => absurd hr (hP.sleep ha)
  | release h => exact hg.still h rfl rfl id
  | mark h => exact hg.still h rfl rfl id
  | sched h => exact hg.still h rfl rfl id
  | resume h hfree => exact hg.still h rfl rfl id
  | reacquire h hfree => exact hg.move rfl fun _ => trivial
  | @poke _ t d hp hfree =>
    refine hg.still (t := t) rfl rfl Loc.here_rise ?_
    cases s.loc t <;> exact id

/-- What the threads know, of their local states and the data. -/
def Knows (K : ℓ → σ → Prop) (s : State T C σ ℓ) : Prop := ∀ t, K (s.here t) s.data

/-- Every part of the program keeps what its thread knows. -/
structure Prog.Keeps (P : Prog T C σ ℓ) (R : ℓ → Prop) (K : ℓ → σ → Prop) : Prop where
  act : ∀ {t l d}, K l d → K (P.act t l d).next ((P.act t l d).data d)
  call : ∀ {t l l' d}, P.call t l l' → K l d → K l' d
  after : ∀ {l c l' d}, P.after l = some (c, l') → K l d → K l' d
  poke : ∀ {t l d d'}, P.poke t d d' → K l d → K l d'
  /-- A thread outside `R` knows only what every other thread knows too. -/
  share : ∀ {l l' d d'}, ¬ R l → K l d → K l' d' → K l d'

theorem Knows.step {K : ℓ → σ → Prop} (hk : Knows K s) (hl : Locks s) (hg : Guarded R s)
    (hP : P.Keeps R K) (hs : Step P o s s') : Knows K s' := by
  intro u
  cases hs.effect with
  | still hd hh =>
    rw [hd, hh]
    exact hk u
  | @call t l hc hout hd hh =>
    rw [hd, hh]
    by_cases hu : u = t
    · subst hu
      rw [update_self]
      exact hP.call hc (hk u)
    · rw [update_of_ne hu]
      exact hk u
  | @act t hin hd hh =>
    have hself := hP.act (t := t) (hk t)
    rw [hd, hh]
    by_cases hu : u = t
    · subst hu
      rw [update_self]
      exact hself
    · rw [update_of_ne hu]
      -- `t` has the lock, so `u` is outside `R`
      have hin' : (s.loc t).hasLk := by
        rw [hin]
        trivial
      exact hP.share (fun hr => hu (hl.lk.unique (hg u hr).hasLk hin')) (hk u) hself
  | @after t c l ha hout hd hh =>
    rw [hd, hh]
    by_cases hu : u = t
    · subst hu
      rw [update_self]
      exact hP.after ha (hk u)
    · rw [update_of_ne hu]
      exact hk u
  | poke hp hh =>
    rw [hh]
    exact hP.poke hp (hk u)

def Loc.Alone : Loc C ℓ → Prop
  | .waking false _ _ | .woke false _ => True
  | _ => False

omit [DecidableEq C] in
theorem alone_move {x : Loc C ℓ} (hn : ∀ t, ¬ (s.loc t).Alone)
    (hloc : s'.loc = update s.loc t x) (hx : ¬ x.Alone) : ∀ t, ¬ (s'.loc t).Alone := by
  intro u hd
  rw [hloc] at hd
  by_cases hu : u = t
  · subst hu
    rw [update_self] at hd
    exact hx hd
  · rw [update_of_ne hu] at hd
    exact hn u hd

theorem alone_step (hn : ∀ t, ¬ (s.loc t).Alone) (hP : ∀ l, P.after l = none)
    (hs : Step P o s s') : ∀ t, ¬ (s'.loc t).Alone := by
  cases hs with
  | after h ha hfree =>
    rw [hP] at ha
    cases ha
  | @scan _ t b c l h =>
    have ht := hn t
    rw [h] at ht
    have hr : ∀ u, ¬ ((s.loc u).rouse c).Alone := by
      intro u hd
      refine hn u ?_
      cases hx : s.loc u with
      | asleep c' k =>
        rw [hx, Loc.rouse] at hd
        split at hd <;> exact hd.elim
      | _ =>
        rw [hx] at hd
        exact hd
    refine alone_move (s := { s with loc := fun u => (s.loc u).rouse c }) hr rfl ?_
    cases b <;> exact ht
  | @woken _ t b l h => exact alone_move hn rfl (by cases b <;> exact id)
  | @poke _ t d hp hfree =>
    refine alone_move hn rfl fun hd => hn t ?_
    cases hx : s.loc t <;> rw [hx] at hd <;> exact hd
  | _ => exact alone_move hn rfl id

omit [DecidableEq T] [DecidableEq C] in
/-- With the lock free, every sleeper waits with reason, if debts are paid under the lock. -/
theorem NoLost.free {B : C → σ → Prop} {Owes : ℓ → C → Prop} (hl : Locks s)
    (hg : Guarded (Owes · c) s) (hal : ∀ t, ¬ (s.loc t).Alone) (hn : NoLost B Owes s)
    (hfree : s.lk = none) (hu : (s.loc u).SleepsOn c) : B c s.data := by
  rcases hn u c hu with hb | ⟨t, hd⟩
  · exact hb
  · have hlk := hl.lk
    rw [hfree] at hlk
    refine absurd ?_ (hlk.free (t := t))
    cases hx : s.loc t with
    | waking b c' l =>
      cases b with
      | true => trivial
      | false => exact absurd (by rw [hx]; trivial) (hal t)
    | _ =>
      rw [← hx]
      rw [hx] at hd
      refine (hg t ?_).hasLk
      rw [State.here, hx]
      exact hd

end

/-- The state of the thread is `SLEEPING`, on the channel `c`. -/
def Loc.Sleeping (c : C) : Loc C ℓ → Prop
  | .marked c' _ | .asleep c' _ => c' = c
  | _ => False

omit [DecidableEq C] in
theorem Loc.Sleeping.sleepsOn {x : Loc C ℓ} (h : x.Sleeping c) : x.SleepsOn c := by
  cases x with
  | turning c' l => exact h.elim
  | falling c' l => exact h.elim
  | _ => exact h

end Monitor
