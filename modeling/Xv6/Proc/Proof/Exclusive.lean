import Xv6.Proc.Proof.Change

/-!
# Exclusive use of CPUs, stacks and page directories

`Pages` says which page is the stack and the page directory of which process, and `Maps` that a CPU has
the page directory of `c->proc` loaded, or the kernel's.
-/

namespace Ptable

open Function (update)
open Vm (ProcState)

variable {C : Type} {s s' : State C} {l : Label} {c : C} {p np q : Slot} {g : Stage}

/-! ## Pages -/

def HasDir (pgdir : Slot → Option Nat) (use : Nat → Use) (p : Slot) : Prop :=
  pgdir p ≠ none ∧ ∀ d, pgdir p = some d → use d = .dir p

/-- Each process has a stack and a directory of its own. -/
structure Pages (s : State C) : Prop where
  stack : ∀ p k, s.kstack p = some k → s.use k = .stack p
  live : ∀ p, Live (s.state p) → s.kstack p ≠ none ∧ HasDir s.pgdir s.use p
  made : ∀ p np g, (s.pc p).embryo = some (np, g) →
    (g ≠ .slot → s.kstack np ≠ none) ∧ (g = .memory ∨ g = .child → HasDir s.pgdir s.use np)

attribute [grind] HasDir

@[grind =]
theorem kfree_apply {use : Nat → Use} {o : Option Nat} {k : Nat} :
    kfree use o k = if o = some k then .free else use k := by
  cases o with
  | none => rfl
  | some j =>
    simp only [kfree, Function.update_apply, Option.some.injEq]
    simp only [eq_comm]

theorem HasDir.mono {pgdir pgdir' : Slot → Option Nat} {use use' : Nat → Use}
    (h : HasDir pgdir use p) (hd : pgdir' p = pgdir p) (hu : ∀ d, use d = .dir p → use' d = .dir p) :
    HasDir pgdir' use' p := by
  refine ⟨hd ▸ h.1, fun d hd' => hu d (h.2 d ?_)⟩
  rw [← hd]
  exact hd'

theorem Forks.embryo_not_live (hf : s.Forks) (he : (s.pc p).embryo = some (np, g)) :
    ¬ Live (s.state np) :=
  fun hl => hl.2 (phase_embryo.1 (hf.emb p np g he).1)

theorem Pages.exit (h : Pages s) (hp : phase (s.state p) = .alive) : Pages (s.exit p) := by
  obtain ⟨stack, live, made⟩ := h
  refine ⟨stack, fun q hq => ?_, fun q np g hq => ?_⟩
  · by_cases hqp : q = p
    · exact live q (hqp ▸ live_of_alive hp)
    · have hph := s.phase_exitState hqp
      refine live q ?_
      simp only [State.exit] at hq
      grind
  · refine made q np g ?_
    simp only [State.exit] at hq
    grind [Pc.embryo]

theorem Pages.change (h : Pages s) (hf : s.Forks) (hc : Change l s s') : Pages s' := by
  have hlive : ∀ p np g, (s.pc p).embryo = some (np, g) → ¬ Live (s.state np) :=
    fun _ _ _ => hf.embryo_not_live
  have hone := hf.one
  cases hc with
  | still hl hs =>
    obtain ⟨hphase, hemb, -, -, -, -, -, hk, hd, hu, -, -, -, -, -, -⟩ := hs
    obtain ⟨stack, live, made⟩ := h
    refine ⟨?_, ?_, ?_⟩ <;> grind
  | kill hq =>
    refine ⟨h.stack, fun p hp => h.live p ?_, h.made⟩
    simp only [State.kill] at hp
    grind
  | @allocproc s p np hp he hn =>
    have hother : ∀ q g, (s.pc q).embryo ≠ some (np, g) := by
      intro q g hq
      have hq' := (hf.emb q np g hq).1
      rw [hn] at hq'
      cases hq'
    obtain ⟨stack, live, made⟩ := h
    refine ⟨?_, ?_, ?_⟩ <;> simp only [State.allocproc] <;> grind [Pc.embryo, Base.embryo]
  | noStack he =>
    have hm := hf.making he
    obtain ⟨stack, live, made⟩ := h
    refine ⟨?_, ?_, ?_⟩ <;> simp only [State.noStack] <;> grind [Pc.embryo, Base.embryo]
  | @newStack s p np k he hu =>
    have hm := hf.making he
    have hmono : ∀ q, HasDir s.pgdir s.use q → HasDir s.pgdir (update s.use k (.stack np)) q :=
      fun q hq => hq.mono rfl (by grind)
    obtain ⟨stack, live, made⟩ := h
    refine ⟨?_, ?_, ?_⟩ <;> simp only [State.newStack] <;> grind [Pc.embryo, Base.embryo, HasDir]
  | noMemory he =>
    have hm := hf.making he
    obtain ⟨stack, live, made⟩ := h
    refine ⟨?_, ?_, ?_⟩ <;> simp only [State.noMemory] <;> grind [Pc.embryo, Base.embryo]
  | newMemory he hu =>
    have hm := hf.making he
    obtain ⟨stack, live, made⟩ := h
    refine ⟨?_, ?_, ?_⟩ <;> simp only [State.newMemory] <;> grind [Pc.embryo, Base.embryo]
  | setParent he =>
    obtain ⟨stack, live, made⟩ := h
    refine ⟨?_, ?_, ?_⟩ <;> grind [Pc.embryo, Base.embryo]
  | start he =>
    have hm := hf.making he
    obtain ⟨stack, live, made⟩ := h
    refine ⟨?_, ?_, ?_⟩ <;> grind [Pc.embryo, Base.embryo]
  | exit hp he hi => exact h.exit hp
  | @reap s p q hp he hq =>
    have hz := (State.zombieChild_spec hq).2
    obtain ⟨stack, live, made⟩ := h
    refine ⟨?_, ?_, ?_⟩ <;> simp only [State.reap] <;> grind [Pc.embryo, Base.embryo]

structure Maps (proc stack : C → Option Slot) (sched : C → Spc) (cr3 : C → Option Nat)
    (pgdir : Slot → Option Nat) : Prop where
  cur : ∀ c d, cr3 c = some d → ∃ p, proc c = some p ∧ pgdir p = some d
  flush : ∀ c, stack c = none → sched c = .flushed → cr3 c = none

theorem Maps.step [DecidableEq C] (h : Maps s.proc s.stack s.sched s.cr3 s.pgdir) (hc : s.Ctl)
    (hf : s.Forks) (hs : Step l s s') : Maps s'.proc s'.stack s'.sched s'.cr3 s'.pgdir := by
  obtain ⟨cur, flush⟩ := h
  cases hs with
  | acquire hk hp hl => exact ⟨cur, by grind⟩
  | choose hk hp hr =>
    have hok := hc.sch _ hk
    refine ⟨fun c d hd => ?_, by grind⟩
    obtain ⟨p, hp, hd⟩ := cur c d hd
    exact ⟨p, by grind, hd⟩
  | @switchuvm s c p hk hp =>
    have hok := hc.sch _ hk
    refine ⟨fun c' d hd => ?_, by grind⟩
    by_cases hcc : c' = c
    · exact ⟨p, by grind, by grind⟩
    · exact cur c' d (by grind)
  | running hk hp => exact ⟨cur, by grind⟩
  | enter hk hp => exact ⟨cur, by grind⟩
  | switchkvm hk hp => exact ⟨by grind, by grind⟩
  | clear hk hp =>
    have hz := flush _ hk hp
    refine ⟨fun c d hd => ?_, by grind⟩
    obtain ⟨p, hp, hd⟩ := cur c d hd
    exact ⟨p, by grind, hd⟩
  | release hk hp => exact ⟨cur, by grind⟩
  | leave hk hp =>
    have := hc.stk _ _ hk
    exact ⟨cur, by grind⟩
  | noMemory hk hp =>
    have hu := hf.embryo_unseen hc (embryo_out hp)
    refine ⟨fun c d hd => ?_, flush⟩
    obtain ⟨p, hp, hd⟩ := cur c d hd
    exact ⟨p, hp, by simp only [State.noMemory]; grind⟩
  | newMemory hk hp _ =>
    have hu := hf.embryo_unseen hc (embryo_out hp)
    refine ⟨fun c d hd => ?_, flush⟩
    obtain ⟨p, hp, hd⟩ := cur c d hd
    exact ⟨p, hp, by simp only [State.newMemory]; grind⟩
  | _ => exact ⟨cur, flush⟩

/-! ## Runs -/

theorem boot_pages {avail : Nat → Bool} {k d : Nat} (h : k ≠ d) :
    Pages (boot avail k d : State C) := by
  refine ⟨?_, ?_, ?_⟩
  · simp only [boot]
    grind
  · simp only [boot]
    grind
  · intro p np g he
    rw [boot_embryo] at he
    cases he

theorem Reach.pages [DecidableEq C] {R : Label → State C → Prop} (h : Reach R s) : Pages s :=
  h.induct (fun _ _ _ => boot_pages) fun _ _ _ _ _ _ _ hf hc hp => hp.change hf hc

theorem Reach.maps [DecidableEq C] {R : Label → State C → Prop} (h : Reach R s) :
    Maps s.proc s.stack s.sched s.cr3 s.pgdir :=
  h.induct (P := fun s => Maps s.proc s.stack s.sched s.cr3 s.pgdir)
    (fun _ _ _ _ => ⟨nofun, fun _ _ _ => rfl⟩) fun _ _ _ _ _ hs hc hf _ hm => hm.step hc hf hs

def State.OnStack (s : State C) (c : C) (k : Nat) : Prop :=
  ∃ p, s.stack c = some p ∧ s.kstack p = some k

theorem Pages.stack_inj (h : Pages s) {k : Nat} (hp : s.kstack p = some k)
    (hq : s.kstack q = some k) : p = q := by
  have hpq := (h.stack p k hp).symm.trans (h.stack q k hq)
  cases hpq
  rfl

theorem Pages.dir_inj (h : Pages s) {d : Nat} (hp : s.pgdir p = some d) (hq : s.pgdir q = some d)
    (hlp : Live (s.state p)) (hlq : Live (s.state q)) : p = q := by
  have hpq := ((h.live p hlp).2.2 d hp).symm.trans ((h.live q hlq).2.2 d hq)
  cases hpq
  rfl

/-- **Scheduler exclusivity.** A process that is `RUNNING` is `c->proc` of exactly one CPU; no two
CPUs are on one stack; and what `wait` frees is in use by no CPU. -/
theorem scheduler_exclusive [DecidableEq C] (h : Reach Any s) :
    (∀ p, s.state p = .running → ∃! c, s.proc c = some p) ∧
    (∀ c p, s.stack c = some p → ∃ k, s.OnStack c k) ∧
    (∀ c c' k, s.OnStack c k → s.OnStack c' k → c = c') ∧
    ∀ p q s', Step (.reap p q) s s' → ∀ c, s.proc c ≠ some q ∧ s.stack c ≠ some q ∧
      (∀ k, s.OnStack c k → s.kstack q ≠ some k) ∧ ∀ d, s.cr3 c = some d → s.pgdir q ≠ some d := by
  obtain ⟨hc, hf⟩ := h.ctl
  have hp := h.pages
  refine ⟨?_, ?_, ?_, ?_⟩
  · intro p hr
    obtain ⟨c, hcp⟩ := hc.run p hr
    exact ⟨c, hcp, fun c' hc' => hc.uniq c' c p hc' hcp⟩
  · intro c p hk
    obtain ⟨k, hk'⟩ := Option.ne_none_iff_exists'.1 (hp.live p (hc.live hk)).1
    exact ⟨k, p, hk, hk'⟩
  · intro c c' k hk hk'
    obtain ⟨p, hsp, hkp⟩ := hk
    obtain ⟨p', hsp', hkp'⟩ := hk'
    have he : p = p' := hp.stack_inj hkp hkp'
    subst he
    exact hc.uniq c c' p (hc.stk c p hsp).1 (hc.stk c' p hsp').1
  · intro p q s' hs c
    cases hs with
    | reap hk hpc hq =>
      have hz := (State.zombieChild_spec hq).2
      have hu := hc.zombie_unseen hk (hpc ▸ trivial) (hpc ▸ id) hz
      have hst : ∀ c, s.stack c ≠ some q := fun c hcq => hu c (hc.stk c q hcq).1
      refine ⟨hu c, hst c, ?_, ?_⟩
      · intro k hk hkq
        obtain ⟨r, hsr, hkr⟩ := hk
        exact hst c (hp.stack_inj hkr hkq ▸ hsr)
      · intro d hd hdq
        obtain ⟨r, hcr, hdr⟩ := h.maps.cur c d hd
        have hr : r = q := hp.dir_inj hdr hdq (hc.cur c r hcr).1 (by rw [hz]; decide)
        exact hu c (hr ▸ hcr)

/-- The first process, once a CPU has chosen it. -/
theorem scheduler_exclusive_init : ∃ s : State Bool, Reach Any s ∧ s.state initproc = .running ∧
    ∃! c, s.proc c = some initproc := by
  have h0 : Reach Any (boot (fun _ => true) 0 1 : State Bool) := .boot (by decide)
  have h1 := h0.step trivial (.acquire (c := true) rfl rfl rfl)
  have h2 := h1.step trivial (.choose (c := true) (p := initproc) rfl rfl rfl)
  have h3 := h2.step trivial (.switchuvm (c := true) (p := initproc) rfl rfl)
  have h4 := h3.step trivial (.running (c := true) (p := initproc) rfl rfl)
  exact ⟨_, h4, rfl, (scheduler_exclusive h4).1 initproc rfl⟩

end Ptable
