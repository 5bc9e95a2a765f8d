import Xv6.Proc.Proof.Control

/-!
# What a step does to the processes

The life of a process has four phases; only `allocproc`, `fork`, `exit` and `wait` take a slot from
one to the next. `Change` lists these steps and says of all others that they leave the phases, the
parents, the pids and the pages of the processes alone (`step_change`).
-/

namespace Ptable

open Function
open Vm (ProcState)

/-! ## Phases -/

inductive Phase
  | unused
  | embryo
  | alive
  | zombie
deriving DecidableEq

@[grind]
def phase : ProcState → Phase
  | .unused => .unused
  | .embryo => .embryo
  | .sleeping | .runnable | .running => .alive
  | .zombie => .zombie

@[grind =]
theorem phase_unused {x : ProcState} : phase x = .unused ↔ x = .unused := by
  cases x <;> decide

@[grind =]
theorem phase_embryo {x : ProcState} : phase x = .embryo ↔ x = .embryo := by
  cases x <;> decide

theorem phase_alive {x : ProcState} (h : x = .running) : phase x = .alive := by
  rw [h]
  rfl

theorem live_of_alive {x : ProcState} (h : phase x = .alive) : Live x := by
  cases x <;> first | decide | cases h

def Base.embryo : Base → Option (Slot × Stage)
  | .run => none
  | .fork np g => some (np, g)

def Pc.embryo : Pc → Option (Slot × Stage)
  | .out b | .yield b | .sched (.release b) | .back (.release b) => b.embryo
  | _ => none

theorem embryo_out {y : Pc} {np : Slot} {g : Stage} (h : y = .out (.fork np g)) :
    y.embryo = some (np, g) := by
  rw [h]
  rfl

/-! ## Slots in the making -/

/-- Each embryo belongs to one `fork`. -/
structure Forks (state : Slot → ProcState) (pc : Slot → Pc) (parent : Slot → Option Slot) :
    Prop where
  emb : ∀ p np g, (pc p).embryo = some (np, g) →
    phase (state np) = .embryo ∧ phase (state p) = .alive ∧ (g ≠ .slot → (pc np).Away) ∧
      parent np = if g = .child then some p else none
  one : ∀ p p' np g g', (pc p).embryo = some (np, g) → (pc p').embryo = some (np, g') → p = p'
  own : ∀ np, phase (state np) = .embryo → ∃ p g, (pc p).embryo = some (np, g)
  clean : ∀ p, phase (state p) = .unused → parent p = none
  init : pc initproc ≠ .exit

namespace Forks

variable {state : Slot → ProcState} {pc : Slot → Pc} {parent : Slot → Option Slot}
  {p np : Slot} {g : Stage}

theorem ne (h : Forks state pc parent) (he : (pc p).embryo = some (np, g)) : np ≠ p := by
  intro hp
  obtain ⟨hn, ha, -⟩ := h.emb p np g he
  rw [hp, ha] at hn
  cases hn

theorem none_of (h : Forks state pc parent) (hp : phase (state p) ≠ .alive) :
    (pc p).embryo = none := by
  cases he : (pc p).embryo with
  | none => rfl
  | some e => exact absurd (h.emb p e.1 e.2 he).2.1 hp

theorem making (h : Forks state pc parent) (he : (pc p).embryo = some (np, g)) :
    phase (state np) = .embryo ∧ np ≠ p ∧ (pc np).embryo = none ∧ (g ≠ .slot → (pc np).Away) ∧
      parent np = if g = .child then some p else none := by
  obtain ⟨hn, -, hg, hpar⟩ := h.emb p np g he
  exact ⟨hn, h.ne he, h.none_of (by rw [hn]; decide), hg, hpar⟩

theorem still {state' : Slot → ProcState} {pc' : Slot → Pc} {parent' : Slot → Option Slot}
    (h : Forks state pc parent)
    (hphase : ∀ q, phase (state' q) = .embryo ↔ phase (state q) = .embryo)
    (halive : ∀ q e, (pc q).embryo = some e → phase (state' q) = .alive)
    (hemb : ∀ q, (pc' q).embryo = (pc q).embryo)
    (hpc : ∀ q, phase (state q) = .embryo → pc' q = pc q ∧ parent' q = parent q)
    (hclean : ∀ q, phase (state' q) = .unused → parent' q = none)
    (hinit : pc' initproc = .exit → pc initproc = .exit) : Forks state' pc' parent' := by
  refine ⟨?_, ?_, ?_, hclean, fun hi => h.init (hinit hi)⟩
  · intro p np g he
    rw [hemb] at he
    obtain ⟨hn, ha, hg, hp⟩ := h.emb p np g he
    rw [(hpc np hn).1, (hpc np hn).2]
    exact ⟨(hphase np).2 hn, halive p _ he, hg, hp⟩
  · intro p p' np g g' he he'
    rw [hemb] at he he'
    exact h.one p p' np g g' he he'
  · intro np hn
    obtain ⟨p, g, he⟩ := h.own np ((hphase np).1 hn)
    exact ⟨p, g, (hemb p).trans he⟩

section

-- the next stage of the slot that `p` makes is `e`
variable {state' : Slot → ProcState} {pc' : Slot → Pc} {parent' : Slot → Option Slot}
  {e : Option (Slot × Stage)} (hy : (pc' p).embryo = e) (hy' : (pc' np).embryo = none)
  (hpc : ∀ q, q ≠ p → q ≠ np → pc' q = pc q)
  (hphase : ∀ q, q ≠ np → phase (state' q) = phase (state q))
  (hpar : ∀ q, q ≠ np → parent' q = parent q) (hinit : pc' initproc = .exit → pc initproc = .exit)
  (hnone : e = none → phase (state' np) = .alive ∨ phase (state' np) = .unused ∧ parent' np = none)
  (hsome : ∀ r g, e = some (r, g) → r = np ∧ phase (state' np) = .embryo ∧
    (g ≠ .slot → (pc' np).Away) ∧ parent' np = if g = .child then some p else none)
include hy hy' hpc hphase hpar hinit hnone hsome

theorem set (h : Forks state pc parent)
    (hn : phase (state np) ≠ .alive) (hp : phase (state p) = .alive)
    (hold : ∀ r g, (pc p).embryo = some (r, g) → r = np)
    (hother : ∀ q g, q ≠ p → (pc q).embryo ≠ some (np, g)) : Forks state' pc' parent' := by
  have hne : np ≠ p := fun he => hn (he ▸ hp)
  have hnp := h.none_of hn
  have hemb : ∀ q, (pc' q).embryo = if q = p then e else (pc q).embryo := by
    intro q
    split_ifs with hq
    · rw [hq, hy]
    · by_cases hqn : q = np
      · rw [hqn, hy', hnp]
      · rw [hpc q hq hqn]
  obtain ⟨emb, one, own, clean, init⟩ := h
  refine ⟨?_, ?_, ?_, ?_, fun hi => init (hinit hi)⟩
  · intro q r g hq
    rw [hemb] at hq
    split_ifs at hq with hqp
    · obtain ⟨rfl, hr⟩ := hsome r g hq
      subst hqp
      exact ⟨hr.1, (hphase q hne.symm).trans hp, hr.2⟩
    · have hr : r ≠ np := fun hr => hother q g hqp (hr ▸ hq)
      have hqn : q ≠ np := by
        intro hqn
        rw [hqn, hnp] at hq
        cases hq
      obtain ⟨h1, h2, h3, h4⟩ := emb q r g hq
      have hrp : r ≠ p := by
        intro hrp
        rw [hrp, hp] at h1
        cases h1
      rw [hphase r hr, hphase q hqn, hpc r hrp hr, hpar r hr]
      exact ⟨h1, h2, h3, h4⟩
  · intro q q' r g g' hq hq'
    rw [hemb] at hq hq'
    split_ifs at hq hq' with h1 h2 h2
    · exact h1.trans h2.symm
    · exact absurd ((hsome r g hq).1 ▸ hq') (hother q' g' h2)
    · exact absurd ((hsome r g' hq').1 ▸ hq) (hother q g h1)
    · exact one q q' r g g' hq hq'
  · intro r hr
    by_cases hrn : r = np
    · subst hrn
      obtain _ | ⟨r', g⟩ := e
      · rcases hnone rfl with h' | ⟨h', -⟩ <;> rw [hr] at h' <;> cases h'
      · exact ⟨p, g, by rw [hemb, if_pos rfl, (hsome r' g rfl).1]⟩
    · obtain ⟨q, g, hq⟩ := own r (hphase r hrn ▸ hr)
      refine ⟨q, g, ?_⟩
      rw [hemb, if_neg, hq]
      intro hqp
      exact hrn (hold r g (hqp ▸ hq))
  · intro r hr
    by_cases hrn : r = np
    · subst hrn
      obtain _ | ⟨r', g⟩ := e
      · rcases hnone rfl with h' | ⟨-, h'⟩
        · rw [hr] at h'
          cases h'
        · exact h'
      · have h' := (hsome r' g rfl).2.1
        rw [hr] at h'
        cases h'
    · rw [hpar r hrn]
      exact clean r (hphase r hrn ▸ hr)

theorem go (h : Forks state pc parent) (he : (pc p).embryo = some (np, g)) :
    Forks state' pc' parent' := by
  obtain ⟨hn, hp, -⟩ := h.emb p np g he
  refine h.set hy hy' hpc hphase hpar hinit hnone hsome (by rw [hn]; decide) hp ?_ ?_
  · intro r g' hr
    rw [he] at hr
    cases hr
    rfl
  · intro q g' hq hq'
    exact hq (h.one q p np g' g hq' he)

end

end Forks

structure Same {C : Type} (s s' : State C) : Prop where
  phase : ∀ q, phase (s'.state q) = phase (s.state q)
  embryo : ∀ q, (s'.pc q).embryo = (s.pc q).embryo
  pc : ∀ q, Ptable.phase (s.state q) = .embryo → s'.pc q = s.pc q
  init : s'.pc initproc = .exit → s.pc initproc = .exit
  parent : s'.parent = s.parent
  pid : s'.pid = s.pid
  killed : s'.killed = s.killed
  kstack : s'.kstack = s.kstack
  pgdir : s'.pgdir = s.pgdir
  use : ∀ k, s.use k ≠ .free → s.use k ≠ .other → s'.use k = s.use k
  uid : s'.uid = s.uid
  born : s'.born = s.born
  nextuid : s'.nextuid = s.nextuid
  asked : s'.asked = s.asked
  log : s'.log = s.log
  /-- A process goes to sleep in `wait` only if it has no child to free. -/
  naps : ∀ q, s'.state q = .sleeping → s'.chan q = some (.proc q) →
    s.state q = .sleeping ∧ s.chan q = some (.proc q) ∨ s.zombieChild q = none

variable {C : Type}

inductive Change : Label → State C → State C → Prop
  | still {l s s'} (hl : l = .other ∨ ∃ pid, l = .kill pid (-1) ∧ s.withPid pid = none)
      (h : Same s s') : Change l s s'
  | kill {s pid q} (hq : s.withPid pid = some q) : Change (.kill pid 0) s (s.kill pid q)
  | allocproc {s p np} (hp : phase (s.state p) = .alive) (he : (s.pc p).embryo = none)
      (hn : phase (s.state np) = .unused) : Change (.create np) s (s.allocproc p np)
  | noStack {s p np} (he : (s.pc p).embryo = some (np, .slot)) :
      Change (.fail np) s (s.noStack p np)
  | newStack {s p np k} (he : (s.pc p).embryo = some (np, .slot)) (hu : s.use k = .free) :
      Change .other s (s.newStack p np k)
  | noMemory {s p np} (he : (s.pc p).embryo = some (np, .stack)) :
      Change (.fail np) s (s.noMemory p np)
  | newMemory {s p np d} (he : (s.pc p).embryo = some (np, .stack)) (hu : s.use d = .free) :
      Change .other s (s.newMemory p np d)
  | setParent {s p np} (he : (s.pc p).embryo = some (np, .memory)) :
      Change .other s
        { s with
          parent := update s.parent np (some p)
          pc := update s.pc p (.out (.fork np .child)) }
  | start {s p np} (he : (s.pc p).embryo = some (np, .child)) :
      Change .other s
        { s with state := update s.state np .runnable, pc := update s.pc p (.out .run) }
  | exit {s p} (hp : phase (s.state p) = .alive) (he : (s.pc p).embryo = none)
      (hi : p ≠ initproc) : Change .other s (s.exit p)
  | reap {s p q} (hp : phase (s.state p) = .alive) (he : (s.pc p).embryo = none)
      (hq : s.zombieChild p = some q) : Change (.reap p q) s (s.reap p q)

/-! ## The sections with the lock held -/

theorem wakeup1_cases (state : Slot → ProcState) (chan : Slot → Option Chan) (ch : Chan)
    (q : Slot) : wakeup1 state chan ch q = state q ∨
      state q = .sleeping ∧ wakeup1 state chan ch q = .runnable := by
  unfold wakeup1
  split_ifs with h
  · exact .inr ⟨h.1, rfl⟩
  · exact .inl rfl

variable {s s' : State C} {l : Label} {c : C} {p np q : Slot} {g : Stage}

namespace State

abbrev Ctl (s : State C) : Prop :=
  Ptable.Ctl s.lock s.proc s.stack s.sched s.state s.pc

abbrev Forks (s : State C) : Prop := Ptable.Forks s.state s.pc s.parent

theorem unused_spec (h : s.unused = some np) : s.state np = .unused := by
  simpa using List.find?_some h

theorem zombieChild_spec (h : s.zombieChild p = some q) :
    s.parent q = some p ∧ s.state q = .zombie := by
  simpa using List.find?_some h

theorem exitState_eq (s : State C) (p : Slot) : ∃ woken : Slot → ProcState,
    (∀ q, woken q = s.state q ∨ s.state q = .sleeping ∧ woken q = .runnable) ∧
      s.exitState p = update woken p .zombie := by
  have hwake : ∀ st : Slot → ProcState,
      (∀ r, st r = s.state r ∨ s.state r = .sleeping ∧ st r = .runnable) →
      ∀ ch r, wakeup1 st s.chan ch r = s.state r ∨
        s.state r = .sleeping ∧ wakeup1 st s.chan ch r = .runnable := by
    intro st hst ch r
    rcases wakeup1_cases st s.chan ch r with hr | ⟨hr, hr'⟩
    · rw [hr]
      exact hst r
    · rcases hst r with he | ⟨-, he⟩
      · exact .inr ⟨he ▸ hr, hr'⟩
      · rw [he] at hr
        cases hr
  refine ⟨_, ?_, rfl⟩
  intro q
  split <;> split_ifs <;> grind

theorem exitState_self (s : State C) (p : Slot) : s.exitState p p = .zombie :=
  update_self ..

theorem phase_exitState (s : State C) (h : q ≠ p) :
    phase (s.exitState p q) = phase (s.state q) := by
  obtain ⟨woken, hw, he⟩ := s.exitState_eq p
  rw [he, update_of_ne h]
  rcases hw q with hq | ⟨hq, hq'⟩
  · rw [hq]
  · rw [hq, hq']
    rfl

end State

/-! ## Steps -/

theorem Forks.embryo_unseen (hf : s.Forks) (h : s.Ctl) (he : (s.pc p).embryo = some (np, g))
    (c : C) : s.proc c ≠ some np :=
  h.unseen (fun hl => hl.2 (phase_embryo.1 (hf.emb p np g he).1)) c

theorem Same.of {lock : Option C} {proc stack : C → Option Slot} {cr3 : C → Option Nat}
    {sched : C → Spc} {state : Slot → ProcState} {pc : Slot → Pc} {chan : Slot → Option Chan}
    (hphase : ∀ q, Ptable.phase (state q) = Ptable.phase (s.state q))
    (hemb : ∀ q, (pc q).embryo = (s.pc q).embryo)
    (hpc : ∀ q, Ptable.phase (s.state q) = .embryo → pc q = s.pc q)
    (hinit : pc initproc = .exit → s.pc initproc = .exit)
    (hnaps : ∀ q, state q = .sleeping → chan q = some (.proc q) →
      s.state q = .sleeping ∧ s.chan q = some (.proc q) ∨ s.zombieChild q = none) :
    Same s
      { s with
        lock := lock, proc := proc, stack := stack, cr3 := cr3, sched := sched, state := state
        pc := pc, chan := chan } :=
  ⟨hphase, hemb, hpc, hinit, rfl, rfl, rfl, rfl, rfl, fun _ _ _ => rfl, rfl, rfl, rfl, rfl, rfl,
    hnaps⟩

theorem Same.cpu {lock : Option C} {proc stack : C → Option Slot} {cr3 : C → Option Nat}
    {sched : C → Spc} :
    Same s { s with lock := lock, proc := proc, stack := stack, cr3 := cr3, sched := sched } :=
  .of (fun _ => rfl) (fun _ => rfl) (fun _ _ => rfl) id fun _ hs hc => .inl ⟨hs, hc⟩

theorem Same.goto {lock : Option C} {stack : C → Option Slot} {state : Slot → ProcState}
    {chan : Slot → Option Chan} {y : Pc} (hp : Live (s.state p))
    (hy : y.embryo = (s.pc p).embryo) (hx : y = .exit → p ≠ initproc)
    (hphase : ∀ q, Ptable.phase (state q) = Ptable.phase (s.state q))
    (hnaps : ∀ q, state q = .sleeping → chan q = some (.proc q) →
      s.state q = .sleeping ∧ s.chan q = some (.proc q) ∨ s.zombieChild q = none) :
    Same s
      { s with
        lock := lock, stack := stack, state := state, pc := update s.pc p y, chan := chan } := by
  refine .of hphase ?_ ?_ ?_ hnaps <;> grind

/-- **What a step can do to the processes.** -/
theorem step_change [DecidableEq C] (h : s.Ctl) (hf : s.Forks) (hs : Step l s s') :
    Change l s s' := by
  have hnaps : ∀ q, s.state q = .sleeping → s.chan q = some (.proc q) →
      s.state q = .sleeping ∧ s.chan q = some (.proc q) ∨ s.zombieChild q = none :=
    fun _ hs hc => .inl ⟨hs, hc⟩
  cases hs with
  | acquire | choose | switchuvm | enter | switchkvm | clear | release =>
    exact .still (.inl rfl) .cpu
  | @running s c p hk hp =>
    have hr : s.state p = .runnable := by
      have hok := h.sch _ hk
      rw [hp] at hok
      exact hok.2.1
    refine .still (.inl rfl) (.of ?_ (fun _ => rfl) (fun _ _ => rfl) id ?_) <;> grind
  | @leave s c p a hk hp =>
    refine .still (.inl rfl) (.goto (h.live hk) ?_ nofun (fun _ => rfl) hnaps)
    rw [hp]
    cases a <;> rfl
  | resume hk hp | yieldLock hk hp | sleepLock n hk hp | waitLock hk hp | waitFail hk hp =>
    exact .still (.inl rfl) (.goto (h.live hk) (hp ▸ rfl) nofun (fun _ => rfl) hnaps)
  | tidy hk hp | rescan hk hp =>
    refine .still (.inl rfl) (.goto (h.live hk) (hp ▸ rfl) nofun (fun _ => rfl) ?_)
    grind
  | yield hk hp | sleep hk hp | waitSleep hk hp =>
    have hr := h.running_of hk (hp ▸ id)
    refine .still (.inl rfl) (.goto (h.live hk) (hp ▸ rfl) nofun ?_ ?_) <;> grind
  | wakeup ch hl =>
    refine .still (.inl rfl) (.of ?_ (fun _ => rfl) (fun _ _ => rfl) id ?_)
    · intro q
      rcases wakeup1_cases s.state s.chan ch q with hq | hq <;> grind
    · intro q
      rcases wakeup1_cases s.state s.chan ch q with hq | hq <;> grind
  | kill hl hq => exact .kill hq
  | noProcess hl hq => exact .still (.inr ⟨_, rfl, hq⟩) .cpu
  | allocproc hk hp hl hn =>
    exact .allocproc (phase_alive (h.running_of hk (hp ▸ id))) (hp ▸ rfl)
      (phase_unused.2 (State.unused_spec hn))
  | noStack hk hp => exact .noStack (embryo_out hp)
  | newStack hk hp hu => exact .newStack (embryo_out hp) hu
  | noMemory hk hp => exact .noMemory (embryo_out hp)
  | newMemory hk hp hu => exact .newMemory (embryo_out hp) hu
  | setParent hk hp => exact .setParent (embryo_out hp)
  | start hk hp hl => exact .start (embryo_out hp)
  | exitLock hk hp hi hl =>
    exact .still (.inl rfl) (.goto (h.live hk) (hp ▸ rfl) (fun _ => hi) (fun _ => rfl) hnaps)
  | exit hk hp =>
    refine .exit (phase_alive (h.running_of hk (hp ▸ id))) (hp ▸ rfl) fun hi => ?_
    exact hf.init (hi ▸ hp)
  | reap hk hp hq => exact .reap (phase_alive (h.running_of hk (hp ▸ id))) (hp ▸ rfl) hq
  | takePage hu | givePage hu =>
    refine .still (.inl rfl) ⟨fun _ => rfl, fun _ => rfl, fun _ _ => rfl, id, rfl, rfl, rfl, rfl,
      rfl, ?_, rfl, rfl, rfl, rfl, rfl, hnaps⟩
    grind

theorem Ctl.step [DecidableEq C] (h : s.Ctl) (hf : s.Forks) (hs : Step l s s') : s'.Ctl := by
  cases hs with
  | acquire hk hp hl => exact Ctl.acquire (hl ▸ h) hk hp
  | choose hk hp hr => exact h.choose hk hp hr
  | switchuvm hk hp =>
    have hok := h.sch _ hk
    rw [hp] at hok
    exact h.tick hk (hp ▸ Iff.rfl) hok
  | running hk hp => exact h.running hk hp
  | enter hk hp => exact h.enter hk hp
  | switchkvm hk hp =>
    have hok := h.sch _ hk
    rw [hp] at hok
    exact h.tick hk (hp ▸ Iff.rfl) hok
  | clear hk hp => exact h.clear hk hp
  | release hk hp => exact h.release hk hp
  | leave hk hp => exact h.leave hk hp
  | resume hk hp => exact h.unlock hk (hp ▸ trivial) (hp ▸ id)
  | tidy hk hp => exact h.goto hk (hp ▸ Iff.rfl) (hp ▸ id) id
  | rescan hk hp => exact h.goto hk (hp ▸ Iff.rfl) (hp ▸ id) id
  | yieldLock hk hp hl => exact Ctl.take (hl ▸ h) hk trivial id
  | yield hk hp => exact h.giveUp hk (hp ▸ trivial) (by decide) (by decide)
  | sleepLock n hk hp hl => exact Ctl.take (hl ▸ h) hk trivial id
  | sleep hk hp => exact h.giveUp hk (hp ▸ trivial) (by decide) (by decide)
  | wakeup ch hl => exact h.wake (wakeup1_cases _ _ _)
  | kill hl hq =>
    refine h.wake fun q => ?_
    simp only [State.kill]
    grind
  | noProcess hl hq => exact h
  | @allocproc s c p np hk hp hl hn =>
    have hu := State.unused_spec hn
    have hg := h.goto (y := .out (.fork np .slot)) hk (hp ▸ Iff.rfl) (hp ▸ id) id
    exact hg.setState (h.unseen (by rw [hu]; decide)) (by decide) (by simp)
  | noStack hk hp =>
    have hu := hf.embryo_unseen h (embryo_out hp)
    have hg := h.goto (y := .out .run) hk (hp ▸ Iff.rfl) (hp ▸ id) id
    exact hg.setState hu (by decide) (by simp)
  | newStack hk hp hu =>
    have hu := hf.embryo_unseen h (embryo_out hp)
    have hne := (hf.ne (embryo_out hp)).symm
    refine (h.setContext hu).goto hk ?_ ?_ id
    · rw [update_of_ne hne, hp]
      rfl
    · rw [update_of_ne hne, hp]
      exact id
  | noMemory hk hp =>
    have hu := hf.embryo_unseen h (embryo_out hp)
    have hg := h.goto (y := .out .run) hk (hp ▸ Iff.rfl) (hp ▸ id) id
    exact hg.setState hu (by decide) (by simp)
  | newMemory hk hp hu => exact h.goto hk (hp ▸ Iff.rfl) (hp ▸ id) id
  | setParent hk hp => exact h.goto hk (hp ▸ Iff.rfl) (hp ▸ id) id
  | @start s c p np hk hp hl =>
    have he := embryo_out hp
    have hg := h.goto (y := .out .run) hk (hp ▸ Iff.rfl) (hp ▸ id) id
    refine hg.setState (hf.embryo_unseen h he) (by decide) fun _ => ?_
    rw [update_of_ne (hf.ne he)]
    exact (hf.emb p np _ he).2.2.1 (by decide)
  | exitLock hk hp hi hl => exact Ctl.take (hl ▸ h) hk trivial id
  | exit hk hp =>
    obtain ⟨woken, hw, he⟩ := s.exitState_eq _
    show Ptable.Ctl _ _ _ _ (s.exitState _) _
    rw [he]
    exact (h.wake hw).giveUp hk (hp ▸ trivial) (by decide) (by decide)
  | waitLock hk hp hl => exact Ctl.take (hl ▸ h) hk trivial id
  | reap hk hp hq =>
    have hu := h.zombie_unseen hk (hp ▸ trivial) (hp ▸ id) (State.zombieChild_spec hq).2
    exact (h.unlock hk (hp ▸ trivial) (hp ▸ id)).setState hu (by decide) (by simp)
  | waitFail hk hp hq hn => exact h.unlock hk (hp ▸ trivial) (hp ▸ id)
  | waitSleep hk hp hq hn ha => exact h.giveUp hk (hp ▸ trivial) (by decide) (by decide)
  | takePage hu => exact h
  | givePage hu => exact h

theorem State.phase_kill (s : State C) (pid : Int) (q r : Slot) :
    phase ((s.kill pid q).state r) = phase (s.state r) := by
  show phase (update s.state q _ r) = _
  grind

theorem Forks.congr (h : s.Forks) (hphase : ∀ q, phase (s'.state q) = phase (s.state q))
    (hemb : ∀ q, (s'.pc q).embryo = (s.pc q).embryo)
    (hpc : ∀ q, phase (s.state q) = .embryo → s'.pc q = s.pc q)
    (hinit : s'.pc initproc = .exit → s.pc initproc = .exit) (hpar : s'.parent = s.parent) :
    s'.Forks := by
  show Ptable.Forks _ _ s'.parent
  rw [hpar]
  refine h.still (fun q => ?_) (fun q e he => ?_) hemb (fun q hq => ⟨hpc q hq, rfl⟩)
    (fun q hq => ?_) hinit
  · rw [hphase]
  · rw [hphase]
    exact (h.emb q e.1 e.2 he).2.1
  · rw [hphase] at hq
    exact h.clean q hq

section
variable (h : s.Forks) (hp : phase (s.state p) = .alive) (he : (s.pc p).embryo = none)
include h hp he

theorem Forks.allocproc (hn : phase (s.state np) = .unused) : (s.allocproc p np).Forks := by
  have hother : ∀ q g, (s.pc q).embryo ≠ some (np, g) := by
    intro q g hq
    have hq' := (h.emb q np g hq).1
    rw [hn] at hq'
    cases hq'
  have hpar := h.clean np hn
  have hnone := h.none_of (p := np) (by rw [hn]; decide)
  have hne : np ≠ p := by
    intro hq
    rw [hq, hp] at hn
    cases hn
  refine h.set (e := some (np, .slot)) ?_ ?_ ?_ ?_ (fun _ _ => rfl) ?_ ?_ ?_ (by rw [hn]; decide) hp
    (fun r g hr => nomatch he.symm.trans hr) (fun q g _ => hother q g) <;>
    simp only [State.allocproc] <;> grind [Pc.embryo, Base.embryo]

theorem Forks.exit : (s.exit p).Forks := by
  have hph : ∀ q, q ≠ p → phase ((s.exit p).state q) = phase (s.state q) :=
    fun q hq => s.phase_exitState hq
  have hpz : phase ((s.exit p).state p) = .zombie := by
    rw [show (s.exit p).state p = _ from s.exitState_self p]
    rfl
  refine h.still (fun q => ?_) (fun q e he' => ?_) (fun q => ?_) (fun q hq => ?_) (fun q hq => ?_) ?_
  · by_cases hq : q = p
    · rw [hq, hpz, hp]
      decide
    · rw [hph q hq]
  · have hq : q ≠ p := by
      intro hq
      rw [hq, he] at he'
      cases he'
    rw [hph q hq]
    exact (h.emb q e.1 e.2 he').2.1
  · simp only [State.exit]
    grind [Pc.embryo]
  · -- the parent of a slot in the making is in `fork`, and `p` is not
    obtain ⟨r, g, hr⟩ := h.own q hq
    have hr' := h.making hr
    simp only [State.exit]
    grind
  · have hq' : q ≠ p := by
      intro hqp
      rw [hqp, hpz] at hq
      cases hq
    rw [hph q hq'] at hq
    simp only [State.exit, h.clean q hq]
    rfl
  · simp only [State.exit]
    grind

theorem Forks.reap (hq : s.state q = .zombie) : (s.reap p q).Forks := by
  have hnone := h.none_of (p := q) (by rw [hq]; decide)
  refine h.still (fun r => ?_) (fun r e he' => ?_) (fun r => ?_) (fun r hr => ?_) (fun r hr => ?_) ?_
  · simp only [State.reap]
    grind
  · have hr := (h.emb r e.1 e.2 he').2.1
    simp only [State.reap]
    grind
  · simp only [State.reap]
    grind [Pc.embryo, Base.embryo]
  · simp only [State.reap]
    grind
  · have hclean := h.clean r
    simp only [State.reap] at hr ⊢
    grind
  · simp only [State.reap]
    grind

end

theorem Forks.change (h : s.Forks) (hc : Change l s s') : s'.Forks := by
  cases hc with
  | still hl hs => exact h.congr hs.phase hs.embryo hs.pc hs.init hs.parent
  | kill hq => exact h.congr (s.phase_kill _ _) (fun _ => rfl) (fun _ _ => rfl) id rfl
  | allocproc hp he hn => exact h.allocproc hp he hn
  | noStack he =>
    have hm := h.making he
    refine h.go (e := none) ?_ ?_ ?_ ?_ ?_ ?_ ?_ ?_ he <;> simp only [State.noStack] <;>
      grind [Pc.embryo, Base.embryo]
  | @newStack s p np k he hu =>
    have hm := h.making he
    refine h.go (e := some (np, .stack)) ?_ ?_ ?_ ?_ ?_ ?_ ?_ ?_ he <;>
      simp only [State.newStack] <;> grind [Pc.embryo, Base.embryo]
  | noMemory he =>
    have hm := h.making he
    refine h.go (e := none) ?_ ?_ ?_ ?_ ?_ ?_ ?_ ?_ he <;> simp only [State.noMemory] <;>
      grind [Pc.embryo, Base.embryo]
  | @newMemory s p np d he hu =>
    have hm := h.making he
    refine h.go (e := some (np, .memory)) ?_ ?_ ?_ ?_ ?_ ?_ ?_ ?_ he <;>
      simp only [State.newMemory] <;> grind [Pc.embryo, Base.embryo]
  | @setParent s p np he =>
    have hm := h.making he
    refine h.go (e := some (np, .child)) ?_ ?_ ?_ ?_ ?_ ?_ ?_ ?_ he <;>
      grind [Pc.embryo, Base.embryo]
  | start he =>
    have hm := h.making he
    refine h.go (e := none) ?_ ?_ ?_ ?_ ?_ ?_ ?_ ?_ he <;> grind [Pc.embryo, Base.embryo]
  | exit hp he hi => exact h.exit hp he
  | reap hp he hq => exact h.reap hp he (State.zombieChild_spec hq).2

/-! ## Runs -/

theorem boot_ctl {avail : Nat → Bool} {k d : Nat} : (boot avail k d : State C).Ctl := by
  refine ⟨fun c _ => ⟨nofun, nofun⟩, nofun, nofun, fun c _ => rfl, nofun, nofun, ?_, ?_, ?_⟩
  · intro p hp
    simp only [boot] at hp
    split_ifs at hp
  · intro p _
    simp only [boot]
    split_ifs <;> exact .inl trivial
  · intro p hp
    simp only [boot] at hp
    split_ifs at hp <;> cases hp

theorem boot_embryo {avail : Nat → Bool} {k d : Nat} (p : Slot) :
    ((boot avail k d : State C).pc p).embryo = none := by
  simp only [boot]
  split_ifs <;> rfl

theorem boot_forks {avail : Nat → Bool} {k d : Nat} : (boot avail k d : State C).Forks := by
  refine ⟨?_, ?_, ?_, fun _ _ => rfl, nofun⟩
  · intro p np g he
    rw [boot_embryo] at he
    cases he
  · intro p p' np g g' he
    rw [boot_embryo] at he
    cases he
  · intro np hn
    simp only [boot] at hn
    split_ifs at hn <;> cases hn

/-- **The invariants hold in every run.** -/
theorem Reach.ctl [DecidableEq C] {R : Label → State C → Prop} (h : Reach R s) :
    s.Ctl ∧ s.Forks := by
  induction h with
  | boot => exact ⟨boot_ctl, boot_forks⟩
  | step _ _ hs ih => exact ⟨ih.1.step ih.2 hs, ih.2.change (step_change ih.1 ih.2 hs)⟩

/-- To prove an invariant, look at the changes only. -/
theorem Reach.induct [DecidableEq C] {R : Label → State C → Prop} {P : State C → Prop}
    (h : Reach R s) (hb : ∀ avail k d, k ≠ d → P (Ptable.boot avail k d))
    (hstep : ∀ l s s', Reach R s → R l s → Step l s s' → s.Ctl → s.Forks → Change l s s' → P s →
      P s') : P s := by
  induction h with
  | boot hk => exact hb _ _ _ hk
  | step h hr hs ih =>
    exact hstep _ _ _ h hr hs h.ctl.1 h.ctl.2 (step_change h.ctl.1 h.ctl.2 hs) ih

end Ptable
