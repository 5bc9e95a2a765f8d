import Xv6.Vm.Proof.Fork

/-!
# The memory of the other processes

The pages that a call moves or writes are free, or belong to pipes, to the caller, to a child that
`fork` makes or to a zombie (`call_undisturbed`). So what a process has in its memory changes by its
own calls and stores only (`memory_undisturbed`).
-/

namespace Vm

open Panic Param
open Function (update update_self update_of_ne)

variable {L : Layout} {s s' s'' : Kernel} {d e k p q : Nat} {r : Option Int}

theorem SameSpace.trans (h : SameSpace s s' d) (h' : SameSpace s' s'' d) : SameSpace s s'' d :=
  fun x hx => by
    obtain ⟨hm, hd⟩ := h x hx
    obtain ⟨hm', hd'⟩ := h' x hx
    exact ⟨hm'.trans hm, fun w hw => (hd' w (hm.trans hw)).trans (hd w hw)⟩

theorem wait_zombie (h : Inv L s) (hp : p < NPROC) (hc : wait L p s = .ok (r, s')) :
    s' = s ∨ ∃ q < NPROC, (s.proc q).state = .zombie ∧ Step s s' q := by
  obtain ⟨q, hq, hs⟩ := wait_step h hp hc
  unfold wait at hc
  rw [bind_run get_run] at hc
  cases hfind : (List.range NPROC).find? fun q =>
      (s.proc q).parent = some p ∧ (s.proc q).state = .zombie with
  | none =>
    simp only [hfind, ite_ok] at hc
    rcases hc with ⟨-, hc⟩ | ⟨-, hc⟩
    · exact .inl (pure_ok.1 hc).2
    · exact .inl (pure_ok.1 hc).2
  | some z =>
    have hz : (s.proc z).state = .zombie := by
      have := (find_some hfind).2
      simp at this
      exact this.2
    simp only [hfind, bind_ok, get_run, Except.ok.injEq, Prod.mk.injEq] at hc
    obtain ⟨_, s1, -, _, _, ⟨rfl, rfl⟩, _, s2, -, _, s3, -, _, _, ⟨rfl, rfl⟩, _, s4, hset, hc⟩ := hc
    obtain ⟨-, rfl⟩ := pure_ok.1 hc
    cases hset
    -- the slot whose state changes is the one that the step is of
    obtain rfl : z = q := by
      by_contra hne
      have := (hs.other z hne).state
      simp [hz] at this
    exact .inr ⟨z, hq, hz, hs⟩

/-- **A call leaves the other processes alone.** -/
theorem call_undisturbed {c : Call} (h : Inv L s) (hp : p < NPROC) (hlive : Alive s.proc p)
    (hc : call L p c s = .ok (r, s')) (hnull : ∀ ip argv, c = .exec ip argv → .nullPte ∉ s'.hist)
    (hq : q < NPROC) (hne : q ≠ p) (hl : Alive s.proc q) (hsp : Space s q d k) :
    (s.proc q).Keeps (s'.proc q) ∧ SameSpace s s' d ∧ SameFiles s s' q := by
  have hstep : ∀ a < NPROC, q ≠ a → Step s s' a →
      (s.proc q).Keeps (s'.proc q) ∧ SameSpace s s' d ∧ SameFiles s s' q := fun a ha hqa hs =>
    ⟨hs.other q hqa, (hs.moved.apart (h.own_other ha hq hqa hl.1 hsp)).2, hs.kept q hq hqa⟩
  cases c with
  | fork =>
    obtain ⟨r', hc⟩ := some_map_ok hc
    obtain ⟨hP, hsame⟩ := fork_keeps h hp hlive.1 hc hq hl.1 hsp
    rw [hP]
    exact ⟨Proc.Keeps.refl, hsame⟩
  | wait =>
    rcases wait_zombie h hp hc with rfl | ⟨z, hz, hzomb, hs⟩
    · exact ⟨Proc.Keeps.refl, .refl, sameFiles_of_eq rfl rfl⟩
    · exact hstep z hz (fun he => hl.2 (he ▸ hzomb)) hs
  | kill pid =>
    obtain ⟨r', hc⟩ := some_map_ok hc
    unfold kill at hc
    rw [bind_run get_run] at hc
    cases hfind : (List.range NPROC).find? fun q => (s.proc q).pid = pid with
    | none =>
      simp only [hfind] at hc
      obtain ⟨-, rfl⟩ := pure_ok.1 hc
      exact ⟨Proc.Keeps.refl, .refl, sameFiles_of_eq rfl rfl⟩
    | some a =>
      simp only [hfind] at hc
      cases hc
      refine ⟨keeps_update ⟨rfl, rfl, rfl, rfl⟩, fun _ _ => ⟨rfl, fun _ _ => rfl⟩, sameFiles_of_eq rfl ?_⟩
      by_cases hqa : q = a
      · simp only [hqa, update_self]
      · simp only [update_of_ne hqa]
  | exec ip argv =>
    obtain ⟨r', hc⟩ := some_map_ok hc
    exact hstep p hp hne (exec_step h hp hlive.1 hc (hnull _ _ rfl))
  | sbrk n =>
    obtain ⟨r', hc⟩ := some_map_ok hc
    exact hstep p hp hne (sbrk_step h hp hlive.1 hc)
  | exit =>
    simp only [call, bind_ok] at hc
    obtain ⟨_, s1, hc, hr⟩ := hc
    obtain ⟨-, rfl⟩ := pure_ok.1 hr
    exact hstep p hp hne (exit_step h hp hlive hc)
  | pipe fd =>
    obtain ⟨r', hc⟩ := some_map_ok hc
    exact hstep p hp hne (pipe_step h hp hlive hc)
  | close fd =>
    obtain ⟨r', hc⟩ := some_map_ok hc
    exact hstep p hp hne (h.step_fd hp (sysClose_spec hp hlive h.files hc))
  | dup fd =>
    obtain ⟨r', hc⟩ := some_map_ok hc
    exact hstep p hp hne (h.step_fd hp (sysDup_spec hp hlive h.files hc))
  | «open» b c =>
    obtain ⟨r', hc⟩ := some_map_ok hc
    exact hstep p hp hne (h.step_fd hp (sysOpen_spec hp hlive h.files hc))
  | store va b =>
    simp only [call] at hc
    rw [← bind_assoc, bind_ok] at hc
    obtain ⟨_, s1, hc, hr⟩ := hc
    obtain ⟨-, rfl⟩ := pure_ok.1 hr
    exact hstep p hp hne (store_step h hp hlive.1 hc)

/-! ## Runs -/

/-- Runs of the processes other than `q`. -/
inductive Others (L : Layout) (q : Nat) : Kernel → Kernel → Prop
  | refl {s : Kernel} : Others L q s s
  | step {s s' s'' : Kernel} {p : Nat} {c : Call} {r : Option Int} (h : Others L q s s')
      (hp : p < NPROC) (hne : q ≠ p)
      (hr : (s'.proc p).state = .runnable ∨ (s'.proc p).state = .running) (hv : c.Valid s' p)
      (hc : call L p c s' = .ok (r, s'')) : Others L q s s''

theorem Others.reach (h : Others L q s s') (hr : Reach L s) : Reach L s' := by
  induction h with
  | refl => exact hr
  | step _ hp _ hst hv hc ih => exact ih.step hp hst hv hc

/-- **The memory of a process is its own.** Whatever the other processes do, it keeps its page
directory, its size, its mappings and every byte of its memory. -/
theorem memory_undisturbed (h : Reach L s) (hq : q < NPROC) (hl : Alive s.proc q)
    (ho : Others L q s s') (hnull : .nullPte ∉ s'.hist) :
    ∃ d, (s.proc q).pgdir = some d ∧ (s.proc q).Keeps (s'.proc q) ∧ SameSpace s s' d := by
  induction ho with
  | refl =>
    obtain ⟨d, k, hsp⟩ := (reach_inv h hnull).space q hq hl.1
    exact ⟨d, hsp.pgdir, Proc.Keeps.refl, .refl⟩
  | step hrun hp hne hr hv hc ih =>
    have hnull' := fun hm => hnull ((grows_call _ _ _ hc).subset hm)
    obtain ⟨d, hd, hk, hsame⟩ := ih hnull'
    have hi := reach_inv (hrun.reach h) hnull'
    have hl' : Alive _ q := ⟨hk.state.trans_ne hl.1, hk.state.trans_ne hl.2⟩
    obtain ⟨d', k, hsp⟩ := hi.space q hq hl'.1
    obtain rfl : d = d' := Option.some.inj ((hk.pgdir.trans hd).symm.trans hsp.pgdir)
    obtain ⟨hk', hsame', -⟩ :=
      call_undisturbed hi hp (alive_of_run hr) hc (fun _ _ _ => hnull) hq hne hl' hsp
    exact ⟨d, hd, hk.trans hk', hsame.trans hsame'⟩

/-- The child of the first process sets `killed` of its parent. -/
theorem memory_undisturbed_killed : ∃ s s' d, Reach smallLayout s ∧ Others smallLayout 0 s s' ∧
    (s'.proc 0).killed = true ∧ (s'.proc 0).pgdir = some d ∧ SameSpace s s' d := by
  obtain ⟨s0, d, hreach, hhist, hst, -, -, -, -, s, q, hq, e, hrun, hun, hc⟩ := first_forks
  have hi := reach_inv hreach (by simp [hhist])
  obtain ⟨_, _, hsp⟩ := hi.space 0 (by decide) (by simp [hst])
  have h0 := (fork_keeps hi (by decide) (by simp [hst]) hrun (by decide) (by simp [hst]) hsp).1
  have hcall : call smallLayout 0 .fork s0 = .ok (some (s.proc q).pid, s) := by
    rw [call, map_eq_pure_bind]
    exact bind_run hrun
  have hr : Reach smallLayout s := hreach.step (c := .fork) (by decide) (.inl hst) trivial hcall
  have hnull : .nullPte ∉ s.hist := fun hm => by
    have := noNull_call (fun _ _ h => by cases h) hcall hm
    simp [hhist] at this
  have hkill : call smallLayout q (.kill (s.proc 0).pid) s = .ok (some 0, { s with
      proc := update s.proc 0 { s.proc 0 with killed := true } }) := by
    rw [call, map_eq_pure_bind, kill, bind_assoc, bind_run get_run,
      show List.range NPROC = 0 :: List.range' 1 63 from rfl, List.find?_cons_of_pos (by simp)]
    rfl
  have ho : Others smallLayout 0 s _ := .step (c := .kill (s.proc 0).pid) .refl hq (by
    rintro rfl
    simp [hst] at hun) (.inl hc.state) trivial hkill
  obtain ⟨d', hd', hk, hsame⟩ := memory_undisturbed hr (by decide)
    (alive_of_run (.inl (h0 ▸ hst))) ho hnull
  exact ⟨s, _, d', hr, ho, by simp, hk.pgdir.trans hd', hsame⟩

end Vm
