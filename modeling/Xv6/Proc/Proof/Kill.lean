import Xv6.Proc.Proof.Change

/-!
# What kill hits

`kill` looks for the pid in every slot, whatever its state. A free slot has pid 0, or the pid of a
process whose `fork` failed, so `kill` can find it and set its `killed`; and since `allocproc` does
not clear `killed`, the next process in that slot is killed at once. The same happens if a process
is killed while it is made and its `fork` then fails.
-/

namespace Ptable

open Function
open Vm (ProcState)

variable {C : Type} {s s' : State C} {l : Label} {c : C} {p np q : Slot} {pid r : Int}

/-- The first slot with the pid is in use; a process whose `fork` fails was not killed. -/
def Clean : Label → State C → Prop
  | .kill pid _, s => ∀ q, s.withPid pid = some q → s.state q ≠ .unused
  | .fail np, s => s.killed np = false
  | _, _ => True

/-- A free slot is not killed, and a process only if `kill` was called with its pid. -/
structure Kills (s : State C) : Prop where
  free : ∀ p, phase (s.state p) = .unused → s.killed p = false
  asked : ∀ p, phase (s.state p) ≠ .unused → s.killed p = true → s.asked p = true

theorem State.withPid_spec (h : s.withPid pid = some q) : s.pid q = pid := by
  simpa using List.find?_some h

theorem State.withPid_none (h : s.withPid pid = none) (q : Slot) : s.pid q ≠ pid := by
  simpa using List.find?_eq_none.1 h q (List.mem_finRange q)

theorem Kills.congr (h : Kills s)
    (hphase : ∀ q, phase (s'.state q) = .unused ↔ phase (s.state q) = .unused)
    (hkilled : s'.killed = s.killed) (hasked : s'.asked = s.asked) : Kills s' := by
  refine ⟨fun p hp => ?_, fun p hp hk => ?_⟩
  · rw [hkilled]
    exact h.free p ((hphase p).1 hp)
  · rw [hasked]
    exact h.asked p (fun hu => hp ((hphase p).2 hu)) (hkilled ▸ hk)

theorem Kills.kill (h : Kills s) (hq : s.withPid pid = some q) (hu : s.state q ≠ .unused) :
    Kills (s.kill pid q) := by
  have hpid := State.withPid_spec hq
  refine ⟨fun p hp => ?_, fun p hp hk => ?_⟩
  · rw [s.phase_kill] at hp
    have hne : p ≠ q := fun he => hu (he ▸ phase_unused.1 hp)
    exact (update_of_ne hne _ _).trans (h.free p hp)
  · rw [s.phase_kill] at hp
    simp only [State.kill] at hk ⊢
    by_cases hpq : p = q
    · subst hpq
      simp [hpid, hu]
    · rw [update_of_ne hpq] at hk
      simp [h.asked p hp hk]

theorem Kills.drop (h : Kills s) (hn : s'.killed np = false)
    (hphase : ∀ q, q ≠ np → s'.state q = s.state q) (hkilled : ∀ q, q ≠ np → s'.killed q = s.killed q)
    (hasked : s'.asked = s.asked) : Kills s' := by
  refine ⟨fun p hp => ?_, fun p hp hk => ?_⟩
  · by_cases hpn : p = np
    · exact hpn ▸ hn
    · rw [hkilled p hpn]
      exact h.free p (hphase p hpn ▸ hp)
  · have hpn : p ≠ np := by
      intro he
      rw [he, hn] at hk
      cases hk
    rw [hkilled p hpn] at hk
    rw [hphase p hpn] at hp
    exact hasked ▸ h.asked p hp hk

theorem Kills.change (h : Kills s) (hf : s.Forks) (hr : Clean l s) (hc : Change l s s') :
    Kills s' := by
  cases hc with
  | still hl hs => exact h.congr (fun q => by rw [hs.phase]) hs.killed hs.asked
  | kill hq => exact h.kill hq (hr _ hq)
  | @allocproc s p np hp he hn =>
    have hk := h.free np hn
    obtain ⟨free, asked⟩ := h
    refine ⟨?_, ?_⟩ <;> simp only [State.allocproc] <;> grind
  | noStack he =>
    exact h.drop hr (fun q hq => update_of_ne hq _ _) (fun _ _ => rfl) rfl
  | noMemory he =>
    exact h.drop hr (fun q hq => update_of_ne hq _ _) (fun _ _ => rfl) rfl
  | newStack he hu | newMemory he hu | setParent he => exact h.congr (fun q => Iff.rfl) rfl rfl
  | @start s p np he =>
    have hm := hf.making he
    refine h.congr (fun q => ?_) rfl rfl
    grind
  | @exit s p hp he hi =>
    refine h.congr (fun q => ?_) rfl rfl
    by_cases hq : q = p
    · rw [hq, hp, show (s.exit p).state p = _ from s.exitState_self p]
      decide
    · rw [show phase ((s.exit p).state q) = _ from s.phase_exitState hq]
  | reap hp he hq =>
    exact h.drop (update_self ..) (fun q hq => update_of_ne hq _ _)
      (fun q hq => update_of_ne hq _ _) rfl

variable [DecidableEq C]

theorem Reach.kills (h : Reach Clean s) : Kills s :=
  h.induct (fun _ _ _ _ => ⟨fun _ _ => rfl, nofun⟩) fun _ _ _ _ hr _ _ hf hc hk => hk.change hf hr hc

/-- **Kill hits only its target**, in every run whose steps are all `Clean`: `kill` returns 0 iff a
process in use has the pid, and sets `killed` of such a process only. -/
theorem kill_target (h : Reach Clean s) :
    (∀ pid r s', Clean (.kill pid r) s → Step (.kill pid r) s s' →
      (r = 0 ↔ ∃ q, s.state q ≠ .unused ∧ s.pid q = pid) ∧
      (r = 0 ∧ (∃ q, s.state q ≠ .unused ∧ s.pid q = pid ∧ s'.killed = update s.killed q true) ∨
        r = -1 ∧ s'.killed = s.killed)) ∧
    (∀ np s', Step (.create np) s s' → s'.killed np = false) ∧
    ∀ q, s.state q ≠ .unused → s.killed q = true → s.asked q = true := by
  refine ⟨?_, ?_, ?_⟩
  · intro pid r s' hcl hs
    cases hs with
    | kill hl hq =>
      have hu := hcl _ hq
      have hp := State.withPid_spec hq
      exact ⟨iff_of_true rfl ⟨_, hu, hp⟩, .inl ⟨rfl, _, hu, hp, rfl⟩⟩
    | noProcess hl hq =>
      refine ⟨iff_of_false (by decide) ?_, .inr ⟨rfl, rfl⟩⟩
      intro hq'
      obtain ⟨q, -, hp⟩ := hq'
      exact State.withPid_none hq q hp
  · intro np s' hs
    cases hs with
    | allocproc hk hp hl hn => exact h.kills.free np (phase_unused.2 (State.unused_spec hn))
  · intro q hu hk
    exact h.kills.asked q (fun he => hu (phase_unused.1 he)) hk

theorem kill_target_init : ∃ s s' : State Unit, Reach Clean s ∧ Step (.kill 1 0) s s' ∧
    ∃ q, s.state q ≠ .unused ∧ s.pid q = 1 ∧ s'.killed = update s.killed q true := by
  have h : Reach Clean (boot (fun _ => true) 0 1 : State Unit) := .boot (by decide)
  have hq : (boot (fun _ => true) 0 1 : State Unit).withPid 1 = some initproc := rfl
  have hc : Clean (.kill 1 0) (boot (fun _ => true) 0 1 : State Unit) := by
    intro q hq'
    rw [hq] at hq'
    cases hq'
    decide
  have hs : Step (.kill 1 0) _ _ := .kill rfl hq
  rcases ((kill_target h).1 1 0 _ hc hs).2 with ⟨-, hk⟩ | ⟨hr, -⟩
  · exact ⟨_, _, h, hs, hk⟩
  · cases hr

/-- `kill(0)` finds a free slot and returns 0, although no process has pid 0; the process that the
next `fork` makes is killed, although nobody called `kill` with its pid. -/
theorem kill_hits_free_slot : ∃ (s s' s'' : State Unit) (np : Slot), Reach Any s ∧
    s.stack () = some initproc ∧ (∀ q, s.state q ≠ .unused → s.pid q ≠ 0) ∧
    Step (.kill 0 0) s s' ∧ Step (.create np) s' s'' ∧
    s''.killed np = true ∧ s''.asked np = false := by
  have h0 : Reach Any (boot (fun _ => true) 0 1 : State Unit) := .boot (by decide)
  have h1 := h0.step trivial (.acquire (c := ()) rfl rfl rfl)
  have h2 := h1.step trivial (.choose (c := ()) (p := initproc) rfl rfl rfl)
  have h3 := h2.step trivial (.switchuvm (c := ()) (p := initproc) rfl rfl)
  have h4 := h3.step trivial (.running (c := ()) (p := initproc) rfl rfl)
  have h5 := h4.step trivial (.enter (c := ()) (p := initproc) rfl rfl)
  have h6 := h5.step trivial (.resume (c := ()) (p := initproc) (b := .run) rfl rfl)
  refine ⟨_, _, _, ⟨1, by decide⟩, h6, rfl, ?_, .kill (q := ⟨1, by decide⟩) rfl rfl,
    .allocproc (c := ()) (p := initproc) rfl rfl rfl rfl, rfl, rfl⟩
  intro q hq
  by_cases hqi : q = initproc
  · rw [hqi]
    decide
  · refine absurd ?_ hq
    show update _ initproc _ q = _
    rw [update_of_ne hqi]
    exact if_neg hqi

end Ptable
