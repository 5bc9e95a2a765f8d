import Xv6.Proc.Table

/-!
# Who runs which process

A CPU that executes on the stack of a process, or whose scheduler is about to switch to it, has it as
`c->proc`; no other CPU has. The process is `RUNNING`, except while that CPU holds the lock: a process
changes its state before it leaves its stack, and the lock is released only after `c->proc` is cleared.
-/

namespace Ptable

open Function
open Vm (ProcState)

def Live (x : ProcState) : Prop := x ≠ .unused ∧ x ≠ .embryo

instance (x : ProcState) : Decidable (Live x) := inferInstanceAs (Decidable (_ ∧ _))

def Spc.Holds : Spc → Prop
  | .idle => False
  | _ => True

def Pc.Holds : Pc → Prop
  | .out _ => False
  | _ => True

def Pc.Leaving : Pc → Prop
  | .sched _ => True
  | _ => False

def Pc.Away : Pc → Prop
  | .back _ => True
  | _ => False

def Spc.Ok (proc : Option Slot) (state : Slot → ProcState) (pc : Slot → Pc) : Spc → Prop
  | .idle | .scan => proc = none
  | .chosen p | .loaded p => proc = some p ∧ state p = .runnable ∧ (pc p).Away
  | .ready p => proc = some p ∧ state p = .running ∧ (pc p).Away
  | .returned | .flushed => ∀ p, proc = some p → state p ≠ .running

attribute [grind] Spc.Holds Pc.Holds Pc.Leaving Pc.Away Spc.Ok Live

attribute [grind =] update_apply

@[grind →]
theorem Pc.Away.holds {y : Pc} (h : y.Away) : y.Holds ∧ ¬ y.Leaving := by
  cases y <;> first | exact ⟨trivial, id⟩ | cases h

@[grind →]
theorem Pc.Leaving.holds {y : Pc} (h : y.Leaving) : y.Holds := by
  cases y <;> trivial

variable {C : Type}

/-- Who runs where, and who holds `ptable.lock`. -/
structure Ctl (lock : Option C) (proc stack : C → Option Slot) (sched : C → Spc)
    (state : Slot → ProcState) (pc : Slot → Pc) : Prop where
  /-- The lock is held by the CPU whose code says so. -/
  own : ∀ c, stack c = none → (lock = some c ↔ (sched c).Holds)
  held : ∀ c p, stack c = some p → (lock = some c ↔ (pc p).Holds)
  stk : ∀ c p, stack c = some p →
    proc c = some p ∧ sched c = .returned ∧ (state p = .running ↔ ¬ (pc p).Leaving)
  sch : ∀ c, stack c = none → (sched c).Ok (proc c) state pc
  cur : ∀ c p, proc c = some p → Live (state p) ∧ (state p = .running ∨ lock = some c)
  uniq : ∀ c c' p, proc c = some p → proc c' = some p → c = c'
  run : ∀ p, state p = .running → ∃ c, proc c = some p
  sus : ∀ p, state p = .runnable ∨ state p = .sleeping → (pc p).Away ∨ (pc p).Leaving
  lvg : ∀ p, (pc p).Leaving → ∃ c, stack c = some p

variable {lock : Option C} {proc stack : C → Option Slot} {sched : C → Spc}
  {state : Slot → ProcState} {pc : Slot → Pc} {c : C} {p : Slot}

theorem Spc.Ok.congr {k : Spc} {proc : Option Slot} {state' : Slot → ProcState} {pc' : Slot → Pc}
    (h : k.Ok proc state pc) (he : ∀ q, proc = some q → state' q = state q ∧ pc' q = pc q) :
    k.Ok proc state' pc' := by
  cases k with
  | idle | scan => exact h
  | chosen p | loaded p | ready p =>
    obtain ⟨hp, hs, hb⟩ := h
    exact ⟨hp, (he p hp).1.trans hs, (he p hp).2 ▸ hb⟩
  | returned | flushed =>
    intro q hq
    rw [(he q hq).1]
    exact h q hq

namespace Ctl

/-! ## Consequences -/

section
variable (h : Ctl lock proc stack sched state pc)
include h

theorem live (hk : stack c = some p) : Live (state p) :=
  (h.cur c p (h.stk c p hk).1).1

theorem running_of (hk : stack c = some p) (hp : ¬ (pc p).Leaving) : state p = .running :=
  (h.stk c p hk).2.2.2 hp

theorem only (hk : stack c = some p) : ∀ c', stack c' = none → proc c' ≠ some p := by
  intro c' hk' hp
  rw [h.uniq c' c p hp (h.stk c p hk).1, hk] at hk'
  cases hk'

theorem unseen (hp : ¬ Live (state p)) (c : C) : proc c ≠ some p :=
  fun hc => hp (h.cur c p hc).1

theorem zombie_unseen {q : Slot} (hk : stack c = some p) (hl : (pc p).Holds) (ha : ¬ (pc p).Leaving)
    (hq : state q = .zombie) (c' : C) : proc c' ≠ some q := by
  intro hc
  obtain ⟨hp, -, hr⟩ := h.stk c p hk
  rcases (h.cur c' q hc).2 with hq' | hl'
  · rw [hq] at hq'
    cases hq'
  · -- the CPU that has the zombie is the one that holds the lock, and that one has `p`
    have he : c = c' := Option.some.inj (((h.held c p hk).2 hl).symm.trans hl')
    rw [he, hc] at hp
    rw [← Option.some.inj hp, hq] at hr
    exact nomatch hr.2 (Option.some.inj hp ▸ ha)

theorem sch_update {x : ProcState} {y : Pc} (hn : ∀ c, stack c = none → proc c ≠ some p) :
    ∀ c, stack c = none → (sched c).Ok (proc c) (update state p x) (update pc p y) := by
  intro c hk
  refine (h.sch c hk).congr fun q hq => ?_
  have hne : q ≠ p := fun he => hn c hk (he ▸ hq)
  exact ⟨update_of_ne hne _ _, update_of_ne hne _ _⟩

theorem sch_goto {y : Pc} (hn : ∀ c, stack c = none → proc c ≠ some p) :
    ∀ c, stack c = none → (sched c).Ok (proc c) state (update pc p y) := by
  have hu := h.sch_update (x := state p) (y := y) hn
  rwa [update_eq_self] at hu

/-! ## Steps of processes -/

theorem giveUp {x : ProcState} {a : After}
    (hk : stack c = some p) (hpc : (pc p).Holds) (hx : Live x) (hx' : x ≠ .running) :
    Ctl lock proc stack sched (update state p x) (update pc p (.sched a)) := by
  have hsch := h.sch_update (x := x) (y := .sched a) (h.only hk)
  obtain ⟨own, held, stk, sch, cur, uniq, run, sus, lvg⟩ := h
  refine ⟨?_, ?_, ?_, hsch, ?_, ?_, ?_, ?_, ?_⟩ <;> grind

theorem goto {y : Pc} (hk : stack c = some p)
    (hpc : y.Holds ↔ (pc p).Holds) (hl : ¬ (pc p).Leaving) (hl' : ¬ y.Leaving) :
    Ctl lock proc stack sched state (update pc p y) := by
  have hsch := h.sch_goto (y := y) (h.only hk)
  obtain ⟨own, held, stk, sch, cur, uniq, run, sus, lvg⟩ := h
  refine ⟨?_, ?_, ?_, hsch, ?_, ?_, ?_, ?_, ?_⟩ <;> grind

end

theorem take {y : Pc} (h : Ctl none proc stack sched state pc) (hk : stack c = some p)
    (hpc : y.Holds) (hl : ¬ y.Leaving) : Ctl (some c) proc stack sched state (update pc p y) := by
  have hsch := h.sch_goto (y := y) (h.only hk)
  obtain ⟨own, held, stk, sch, cur, uniq, run, sus, lvg⟩ := h
  refine ⟨?_, ?_, ?_, hsch, ?_, ?_, ?_, ?_, ?_⟩ <;> grind

section
variable (h : Ctl lock proc stack sched state pc)
include h

theorem unlock {b : Base} (hk : stack c = some p) (hpc : (pc p).Holds) (hl : ¬ (pc p).Leaving) :
    Ctl none proc stack sched state (update pc p (.out b)) := by
  have hsch := h.sch_goto (y := .out b) (h.only hk)
  obtain ⟨own, held, stk, sch, cur, uniq, run, sus, lvg⟩ := h
  refine ⟨?_, ?_, ?_, hsch, ?_, ?_, ?_, ?_, ?_⟩ <;> grind

/-! ## Steps on other processes -/

theorem setState {x : ProcState} (hu : ∀ c, proc c ≠ some p) (hx : x ≠ .running)
    (hy : x = .runnable ∨ x = .sleeping → (pc p).Away) :
    Ctl lock proc stack sched (update state p x) pc := by
  have hsch := h.sch_update (x := x) (y := pc p) fun c _ => hu c
  rw [update_eq_self] at hsch
  obtain ⟨own, held, stk, sch, cur, uniq, run, sus, lvg⟩ := h
  refine ⟨?_, ?_, ?_, hsch, ?_, ?_, ?_, ?_, ?_⟩ <;> grind

theorem setContext {a : After}
    (hu : ∀ c, proc c ≠ some p) : Ctl lock proc stack sched state (update pc p (.back a)) := by
  have hsch := h.sch_goto (y := .back a) fun c _ => hu c
  obtain ⟨own, held, stk, sch, cur, uniq, run, sus, lvg⟩ := h
  refine ⟨?_, ?_, ?_, hsch, ?_, ?_, ?_, ?_, ?_⟩ <;> grind

theorem wake {state' : Slot → ProcState}
    (hw : ∀ q, state' q = state q ∨ state q = .sleeping ∧ state' q = .runnable) :
    Ctl lock proc stack sched state' pc := by
  have hsch : ∀ c, stack c = none → (sched c).Ok (proc c) state' pc := by
    intro c hk
    have hs := h.sch c hk
    cases hc : sched c <;> grind
  obtain ⟨own, held, stk, sch, cur, uniq, run, sus, lvg⟩ := h
  refine ⟨?_, ?_, ?_, hsch, ?_, ?_, ?_, ?_, ?_⟩ <;> grind

end

/-! ## Steps of the scheduler -/

section Sched

variable [DecidableEq C]

theorem leave {a : After} (h : Ctl lock proc stack sched state pc) (hk : stack c = some p)
    (hpc : pc p = .sched a) :
    Ctl lock proc (update stack c none) sched state (update pc p (.back a)) := by
  have hsch := h.sch_goto (y := .back a) (h.only hk)
  obtain ⟨own, held, stk, sch, cur, uniq, run, sus, lvg⟩ := h
  refine ⟨?_, ?_, ?_, ?_, ?_, ?_, ?_, ?_, ?_⟩ <;> grind

theorem enter (h : Ctl lock proc stack sched state pc) (hk : stack c = none)
    (hpc : sched c = .ready p) :
    Ctl lock proc (update stack c (some p)) (update sched c .returned) state pc := by
  have hok := h.sch c hk
  rw [hpc] at hok
  obtain ⟨hp, hr, hb⟩ := hok
  have hc : lock = some c := (h.own c hk).2 (hpc ▸ trivial)
  obtain ⟨own, held, stk, sch, cur, uniq, run, sus, lvg⟩ := h
  refine ⟨?_, ?_, ?_, ?_, ?_, ?_, ?_, ?_, ?_⟩ <;> grind

theorem tick {k : Spc} (h : Ctl lock proc stack sched state pc) (hk : stack c = none)
    (hh : k.Holds ↔ (sched c).Holds) (hok : k.Ok (proc c) state pc) :
    Ctl lock proc stack (update sched c k) state pc := by
  obtain ⟨own, held, stk, sch, cur, uniq, run, sus, lvg⟩ := h
  refine ⟨?_, ?_, ?_, ?_, ?_, ?_, ?_, ?_, ?_⟩ <;> grind

theorem acquire (h : Ctl none proc stack sched state pc) (hk : stack c = none)
    (hpc : sched c = .idle) : Ctl (some c) proc stack (update sched c .scan) state pc := by
  have hok := h.sch c hk
  rw [hpc] at hok
  obtain ⟨own, held, stk, sch, cur, uniq, run, sus, lvg⟩ := h
  refine ⟨?_, ?_, ?_, ?_, ?_, ?_, ?_, ?_, ?_⟩ <;> grind

section
variable (h : Ctl lock proc stack sched state pc) (hk : stack c = none)
include h hk

theorem release (hpc : sched c = .scan) : Ctl none proc stack (update sched c .idle) state pc := by
  have hok := h.sch c hk
  rw [hpc] at hok
  have hc : lock = some c := (h.own c hk).2 (hpc ▸ trivial)
  obtain ⟨own, held, stk, sch, cur, uniq, run, sus, lvg⟩ := h
  refine ⟨?_, ?_, ?_, ?_, ?_, ?_, ?_, ?_, ?_⟩ <;> grind

theorem choose (hpc : sched c = .scan) (hr : state p = .runnable) :
    Ctl lock (update proc c (some p)) stack (update sched c (.chosen p)) state pc := by
  have hok := h.sch c hk
  rw [hpc] at hok
  have hc : lock = some c := (h.own c hk).2 (hpc ▸ trivial)
  have hrun : ∀ q, state q = .running → ∃ c', update proc c (some p) c' = some q := by
    intro q hq
    obtain ⟨c', hc'⟩ := h.run q hq
    exact ⟨c', by grind⟩
  obtain ⟨own, held, stk, sch, cur, uniq, run, sus, lvg⟩ := h
  refine ⟨?_, ?_, ?_, ?_, ?_, ?_, hrun, ?_, ?_⟩ <;> grind

theorem clear (hpc : sched c = .flushed) :
    Ctl lock (update proc c none) stack (update sched c .scan) state pc := by
  have hok := h.sch c hk
  rw [hpc] at hok
  have hc : lock = some c := (h.own c hk).2 (hpc ▸ trivial)
  have hrun : ∀ q, state q = .running → ∃ c', update proc c none c' = some q := by
    intro q hq
    obtain ⟨c', hc'⟩ := h.run q hq
    exact ⟨c', by grind⟩
  obtain ⟨own, held, stk, sch, cur, uniq, run, sus, lvg⟩ := h
  refine ⟨?_, ?_, ?_, ?_, ?_, ?_, hrun, ?_, ?_⟩ <;> grind

theorem running (hpc : sched c = .loaded p) :
    Ctl lock proc stack (update sched c (.ready p)) (update state p .running) pc := by
  have hok := h.sch c hk
  rw [hpc] at hok
  obtain ⟨hp, hr, hb⟩ := hok
  have hc : lock = some c := (h.own c hk).2 (hpc ▸ trivial)
  obtain ⟨own, held, stk, sch, cur, uniq, run, sus, lvg⟩ := h
  refine ⟨?_, ?_, ?_, ?_, ?_, ?_, ?_, ?_, ?_⟩ <;> grind

end

end Sched

end Ctl

end Ptable
