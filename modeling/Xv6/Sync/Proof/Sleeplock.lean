import Xv6.Sync.Sleeplock

/-!
# Exclusion and wake-up of sleep-locks

The lock is locked exactly if one process holds it, and once that process has stored its pid, `lk->pid`
is its pid (`Owned`). A process on the way from one assignment to the next has `lk->lk`, so no other
can come between (`Midway`). `holdingsleep` returns `lk->locked`, whoever holds the lock (`holding_iff`).
-/

namespace Sleeplock

open Monitor Function

variable {T : Type} {pid : T → Int} {t u : T} {l l' : Local} {d : Lock}

inductive Acts (pid : T → Int) (t : T) (d : Lock) : Local → Act Unit Lock Local → Prop
  | sleep {held} (hd : d.locked = true) : Acts pid t d ⟨.test, held⟩ (.sleep () ⟨.test, held⟩)
  | take {held} (hd : d.locked = false) :
      Acts pid t d ⟨.test, held⟩ (.set { d with locked := true } ⟨.setPid, true⟩)
  | setPid {held} : Acts pid t d ⟨.setPid, held⟩ (.set { d with pid := pid t } ⟨.done, held⟩)
  | clear {held} : Acts pid t d ⟨.clear, held⟩ (.set { d with locked := false } ⟨.clearPid, false⟩)
  | clearPid {held} : Acts pid t d ⟨.clearPid, held⟩ (.set { d with pid := 0 } ⟨.wake, held⟩)
  | wake {held} : Acts pid t d ⟨.wake, held⟩ (.wake () ⟨.done, held⟩)
  | query {held} : Acts pid t d ⟨.query, held⟩ (.set d ⟨.answer d.locked, held⟩)
  | leave {p held} (hp : p = .idle ∨ p = .done ∨ ∃ r, p = .answer r) :
      Acts pid t d ⟨p, held⟩ (.leave ⟨.idle, held⟩)

theorem act_cases : Acts pid t d l (act pid t l d) := by
  obtain ⟨p, held⟩ := l
  cases p with
  | test =>
    cases hd : d.locked with
    | true =>
      simp only [act, hd, if_true]
      exact .sleep hd
    | false =>
      simp only [act, hd]
      exact .take hd
  | setPid => exact .setPid
  | clear => exact .clear
  | clearPid => exact .clearPid
  | wake => exact .wake
  | query => exact .query
  | idle => exact .leave (.inl rfl)
  | done => exact .leave (.inr (.inl rfl))
  | answer r => exact .leave (.inr (.inr ⟨r, rfl⟩))

/-! ## Wake-up -/

/-- The process is between two assignments that belong together, or has an answer to return. -/
def Midway (l : Local) : Prop :=
  match l.pc with
  | .setPid | .clearPid | .wake | .answer _ => True
  | _ => False

def Owes (l : Local) (_ : Unit) : Prop := l.pc = .clearPid ∨ l.pc = .wake

theorem midway_guards : (prog pid).Guards Midway := by
  refine ⟨fun {t l d l'} h => ?_, fun {t l d c l'} h => ?_, fun h => by cases h⟩
  · have hc : Acts pid t d l _ := act_cases
    rw [show act pid t l d = _ from h] at hc
    cases hc
    exact id
  · have hc : Acts pid t d l _ := act_cases
    rw [show act pid t l d = _ from h] at hc
    cases hc
    exact id

theorem Owes.midway {c : Unit} (h : Owes l c) : Midway l := by
  unfold Midway
  rcases h with h | h <;> rw [h] <;> trivial

theorem prog_ok : (prog pid).Ok (fun _ d => d.locked = true) Owes := by
  refine ⟨fun hc c ho => ?_, fun ha => ?_, fun hp c hb => ?_⟩
  · cases hc <;> rcases ho with ho | ho <;> cases ho
  · cases ha
  · rw [show _ = _ from hp]
    exact hb

theorem act_ok {sleeps : Unit → Prop} :
    (act pid t l d).Ok (fun _ d => d.locked = true) Owes sleeps l d := by
  have hacts : Acts pid t d l _ := act_cases
  generalize act pid t l d = a at hacts
  cases hacts with
  | sleep hd => exact ⟨hd, fun _ ho => ho⟩
  | take _ => exact fun c => ⟨fun _ => .inl rfl, fun ho => by rcases ho with ho | ho <;> cases ho⟩
  | setPid => exact fun c => ⟨.inl, fun ho => by rcases ho with ho | ho <;> cases ho⟩
  | clear =>
    exact fun c => ⟨fun _ => .inr (.inl rfl), fun ho => by rcases ho with ho | ho <;> cases ho⟩
  | clearPid => exact fun c => ⟨.inl, fun _ => .inr rfl⟩
  | wake => exact fun c _ => .inl rfl
  | query => exact fun c => ⟨.inl, fun ho => by rcases ho with ho | ho <;> cases ho⟩
  | leave hp =>
    intro c ho
    rcases hp with rfl | rfl | ⟨r, rfl⟩ <;> rcases ho with ho | ho <;> cases ho

/-! ## Ownership -/

structure Local.Ok (l : Local) (d : Lock) : Prop where
  setPid : l.pc = .setPid → l.held = true
  clear : l.pc = .clear → l.held = true
  clearPid : l.pc = .clearPid → d.locked = false
  answer : ∀ r, l.pc = .answer r → r = d.locked

/-- **Ownership** of the lock. -/
structure Owned (pid : T → Int) (s : State T Unit Lock Local) : Prop where
  unique : ∀ t u, (s.here t).held = true → (s.here u).held = true → t = u
  locked : s.data.locked = true ↔ ∃ t, (s.here t).held = true
  pid : ∀ t, (s.here t).Holds → s.data.pid = pid t
  ok : ∀ t, (s.here t).Ok s.data

variable [DecidableEq T] {s s' : State T Unit Lock Local} {o : Option T}

theorem Owned.move (h : Owned pid s) (hd : s'.data = s.data)
    (hh : s'.here = update s.here t l) (hheld : l.held = (s.here t).held)
    (hok : l.Ok s.data) (hpc : l.Holds → (s.here t).Holds) : Owned pid s' := by
  have hother : ∀ u, u ≠ t → s'.here u = s.here u := fun u hu => by
    rw [hh, update_of_ne hu]
  have hself : s'.here t = l := by rw [hh, update_self]
  have heq : ∀ u, (s'.here u).held = (s.here u).held := fun u => by
    by_cases hu : u = t
    · rw [hu, hself, hheld]
    · rw [hother u hu]
  refine ⟨fun u v hu hv => ?_, ?_, fun u hu => ?_, fun u => ?_⟩
  · rw [heq] at hu hv
    exact h.unique u v hu hv
  · simp only [hd, heq]
    exact h.locked
  · rw [hd]
    refine h.pid u ?_
    by_cases hut : u = t
    · subst hut
      rw [hself] at hu
      exact hpc hu
    · rwa [hother u hut] at hu
  · rw [hd]
    by_cases hut : u = t
    · rw [hut, hself]
      exact hok
    · rw [hother u hut]
      exact h.ok u

omit [DecidableEq T] in
theorem Owned.others (h : Owned pid s) (hl : Locks s) (hg : Guarded Midway s)
    (hin : s.loc t = .inside l) (hu : u ≠ t) {d' : Lock} : (s.here u).Ok d' := by
  have hin' : (s.loc t).hasLk := by
    rw [hin]
    trivial
  have hno : ¬ Midway (s.here u) := fun hm => hu (hl.lk.unique (hg u hm).hasLk hin')
  have hok := h.ok u
  refine ⟨hok.setPid, hok.clear, fun hc => absurd ?_ hno, fun r hr => absurd ?_ hno⟩
  · unfold Midway
    rw [hc]
    trivial
  · unfold Midway
    rw [hr]
    trivial

theorem Owned.change (h : Owned pid s) (hl : Locks s) (hg : Guarded Midway s)
    (hin : s.loc t = .inside (s.here t)) (hnone : ∀ u, u ≠ t → (s.here u).held = false)
    (hh : s'.here = update s.here t l) (hlocked : s'.data.locked = l.held)
    (hpid : l.Holds → s'.data.pid = pid t) (hok : l.Ok s'.data) : Owned pid s' := by
  have hother : ∀ u, u ≠ t → s'.here u = s.here u := fun u hu => by
    rw [hh, update_of_ne hu]
  have hself : s'.here t = l := by rw [hh, update_self]
  have honly : ∀ u, (s'.here u).held = true → u = t := fun u hu => by
    by_contra hut
    rw [hother u hut, hnone u hut] at hu
    cases hu
  refine ⟨fun u v hu hv => (honly u hu).trans (honly v hv).symm, ?_, fun u hu => ?_, fun u => ?_⟩
  · rw [hlocked, ← hself]
    exact ⟨fun ht => ⟨t, ht⟩, fun ⟨u, hu⟩ => honly u hu ▸ hu⟩
  · obtain rfl := honly u hu.1
    exact hpid (hself ▸ hu)
  · by_cases hut : u = t
    · rw [hut, hself]
      exact hok
    · rw [hother u hut]
      exact h.others hl hg hin hut

theorem Owned.step (h : Owned pid s) (hl : Locks s) (hg : Guarded Midway s)
    (hs : Step (prog pid) o s s') : Owned pid s' := by
  cases hs.effect with
  | still hd hh =>
    obtain ⟨h1, h2, h3, h4⟩ := h
    exact ⟨by rw [hh]; exact h1, by rw [hd, hh]; exact h2, by rw [hd, hh]; exact h3,
      by rw [hd, hh]; exact h4⟩
  | @call t l hc hout hd hh =>
    generalize hx : s.here t = x at hc
    cases hc with
    | acquiresleep =>
      exact h.move hd hh (by rw [hx]) ⟨nofun, nofun, nofun, nofun⟩ fun hh => hx ▸ ⟨hh.1, nofun⟩
    | releasesleep =>
      exact h.move hd hh (by rw [hx]) ⟨nofun, fun _ => rfl, nofun, nofun⟩ fun hh =>
        hx ▸ ⟨hh.1, nofun⟩
    | holdingsleep =>
      exact h.move hd hh (by rw [hx]) ⟨nofun, nofun, nofun, nofun⟩ fun hh => hx ▸ ⟨hh.1, nofun⟩
  | @act t hin hd hh =>
    have hfree : s.data.locked = false → ∀ u, (s.here u).held = false := fun hf u => by
      by_contra hu
      have := h.locked.2 ⟨u, eq_true_of_ne_false hu⟩
      rw [hf] at this
      cases this
    have halone : (s.here t).held = true → ∀ u, u ≠ t → (s.here u).held = false := fun ht u hut => by
      by_contra hu
      exact hut (h.unique u t (eq_true_of_ne_false hu) ht)
    have hok := h.ok t
    have hlocked : (s.here t).held = true → s.data.locked = true := fun ht => h.locked.2 ⟨t, ht⟩
    have hpid := h.pid t
    have hacts : Acts pid t s.data (s.here t) _ := act_cases
    generalize hx : s.here t = x at hacts hok hlocked hpid halone
    have hd' : s'.data = (act pid t x s.data).data s.data := by rw [← hx]; exact hd
    have hh' : s'.here = update s.here t (act pid t x s.data).next := by rw [← hx]; exact hh
    generalize act pid t x s.data = a at hacts hd' hh'
    cases hacts with
    | sleep _ =>
      exact h.move hd' hh' (by rw [hx]; rfl) ⟨nofun, nofun, nofun, nofun⟩ fun hh => hx ▸ hh
    | take hf =>
      refine h.change hl hg hin (fun u _ => hfree hf u) hh' (by rw [hd']; rfl)
        (fun hh => absurd rfl hh.2) ?_
      rw [hd']
      exact ⟨fun _ => rfl, nofun, nofun, nofun⟩
    | setPid =>
      refine h.change hl hg hin (halone (hok.setPid rfl)) hh' ?_ (fun _ => by rw [hd']; rfl) ?_
      · rw [hd']
        exact (hlocked (hok.setPid rfl)).trans (hok.setPid rfl).symm
      · exact ⟨nofun, nofun, nofun, nofun⟩
    | clear =>
      refine h.change hl hg hin (halone (hok.clear rfl)) hh' (by rw [hd']; rfl) (fun hh => ?_) ?_
      · cases hh.1
      · rw [hd']
        exact ⟨nofun, nofun, fun _ => rfl, nofun⟩
    | clearPid =>
      have hf := hfree (hok.clearPid rfl)
      have hx' := hf t
      rw [hx] at hx'
      refine h.change hl hg hin (fun u _ => hf u) hh' ?_ (fun hh => ?_) ?_
      · rw [hd']
        exact (hok.clearPid rfl).trans hx'.symm
      · exact absurd (hh.1.symm.trans hx') (by decide)
      · exact ⟨nofun, nofun, nofun, nofun⟩
    | wake =>
      exact h.move hd' hh' (by rw [hx]; rfl) ⟨nofun, nofun, nofun, nofun⟩ fun hh =>
        hx ▸ ⟨hh.1, nofun⟩
    | query =>
      exact h.move hd' hh' (by rw [hx]; rfl)
        ⟨nofun, nofun, nofun, fun r hr => (Pc.answer.inj hr).symm⟩ fun hh => hx ▸ ⟨hh.1, nofun⟩
    | @leave p held hp =>
      refine h.move hd' hh' (by rw [hx]; rfl) ⟨nofun, nofun, nofun, nofun⟩ fun hh => hx ▸ ⟨hh.1, ?_⟩
      rcases hp with rfl | rfl | ⟨r, rfl⟩ <;> nofun
  | after ha => cases ha
  | poke hp hh =>
    have hd : s'.data = s.data := hp
    obtain ⟨h1, h2, h3, h4⟩ := h
    exact ⟨by rw [hh]; exact h1, by rw [hd, hh]; exact h2, by rw [hd, hh]; exact h3,
      by rw [hd, hh]; exact h4⟩

/-! ## Runs -/

structure Inv (pid : T → Int) (s : State T Unit Lock Local) : Prop where
  locks : Locks s
  guarded : Guarded Midway s
  owned : Owned pid s
  alone : ∀ t, ¬ (s.loc t).Alone
  noLost : NoLost (fun _ d => d.locked = true) Owes s

theorem Inv.step (h : Inv pid s) (hs : Step (prog pid) o s s') : Inv pid s' where
  locks := h.locks.step hs
  guarded := h.guarded.step midway_guards hs
  owned := h.owned.step h.locks h.guarded hs
  alone := alone_step h.alone (fun _ => rfl) hs
  noLost := h.noLost.step h.locks prog_ok (fun _ _ _ _ => act_ok) hs

theorem Reach.inv (h : Reach pid s) : Inv pid s := by
  induction h with
  | init =>
    refine ⟨locks_init, fun _ h => h.elim, ⟨nofun, ⟨nofun, nofun⟩, fun _ h => ?_, fun _ => ?_⟩,
      fun _ => id, noLost_init⟩
    · cases h.1
    · exact ⟨nofun, nofun, nofun, nofun⟩
  | step _ hs ih => exact ih.step hs

/-- **Sleep-locks exclude, and no waiter is left asleep on a free lock.** -/
theorem sleeplock_safe (h : Reach pid s) : (∀ t u, (s.here t).Holds → (s.here u).Holds → t = u) ∧
    (∀ t, (s.here t).Holds → s.data.locked = true ∧ s.data.pid = pid t) ∧
    (s.lk = none → ∀ t, (s.loc t).Sleeping () → s.data.locked = true) := by
  have hi := h.inv
  refine ⟨fun t u ht hu => hi.owned.unique t u ht.1 hu.1,
    fun t ht => ⟨hi.owned.locked.2 ⟨t, ht.1⟩, hi.owned.pid t ht⟩, fun hfree t ht => ?_⟩
  have hg : Guarded (Owes · ()) s := fun u hu => hi.guarded u hu.midway
  exact hi.noLost.free hi.locks hg hi.alone hfree ht.sleepsOn

theorem sleeplock_safe_two : ∃ s : State Bool Unit Lock Local, Reach (fun _ => 7) s ∧ s.lk = none ∧
    (s.here false).Holds ∧ (s.loc true).Sleeping () ∧ s.data.pid = 7 ∧ s.data.locked = true := by
  have h0 : Reach (fun _ : Bool => 7) (.init ⟨false, 0⟩ fun _ => ⟨.idle, false⟩) := .init
  have h1 := h0.step (.acquire (t := false) rfl .acquiresleep rfl)
  have h2 := h1.step (.set (t := false) rfl rfl)
  have h3 := h2.step (.set (t := false) rfl rfl)
  have h4 := h3.step (.leave (t := false) rfl rfl)
  have h5 := h4.step (.acquire (t := true) rfl .acquiresleep rfl)
  have h6 := h5.step (.sleep (t := true) rfl rfl rfl)
  have h7 := h6.step (.release (t := true) rfl)
  have h8 := h7.step (.mark (t := true) rfl)
  obtain ⟨-, hpid, hwait⟩ := sleeplock_safe h8
  exact ⟨_, h8, rfl, ⟨rfl, nofun⟩, rfl, (hpid false ⟨rfl, nofun⟩).2, hwait rfl true rfl⟩

/-! ## Asking for the lock -/

theorem answer_iff (h : Reach pid s) {r : Bool} (ht : (s.here t).pc = .answer r) :
    r = true ↔ ∃ u, (s.here u).Holds := by
  have hi := h.inv
  have hmid : Midway (s.here t) := by
    unfold Midway
    rw [ht]
    trivial
  rw [(hi.owned.ok t).answer r ht, hi.owned.locked]
  refine exists_congr fun u => ⟨fun hu => ⟨hu, fun hp => ?_⟩, And.left⟩
  -- a process that has just set `lk->locked` has `lk->lk`, as `t` does
  have hmid' : Midway (s.here u) := by
    unfold Midway
    rw [hp]
    trivial
  have := hi.locks.lk.unique (hi.guarded t hmid).hasLk (hi.guarded u hmid').hasLk
  subst this
  rw [ht] at hp
  cases hp

theorem panic_iff {r : Bool} : (∀ g : Guard, g.panic r ≠ none) ↔ r = false := by
  constructor
  · intro h
    have := h .bwrite
    cases r with
    | true => exact absurd rfl this
    | false => rfl
  · rintro rfl g
    cases g <;> nofun

/-- **Lock-ownership checks** are effective exactly while no other process holds the lock: then
`holdingsleep` tells whether the caller has it, and each function that asks panics if it has not. -/
theorem holdingsleep_iff (h : Reach pid s) {r : Bool} (ht : (s.here t).pc = .answer r) :
    ((r = true ↔ (s.here t).Holds) ↔ ∀ u, u ≠ t → ¬ (s.here u).Holds) ∧ (¬ (s.here t).Holds →
      ((∀ g : Guard, g.panic r ≠ none) ↔ ∀ u, u ≠ t → ¬ (s.here u).Holds)) := by
  have hiff := answer_iff h ht
  have hunique := h.inv.owned.unique
  have hcond : (∀ u, u ≠ t → ¬ (s.here u).Holds) ↔ ((∃ u, (s.here u).Holds) → (s.here t).Holds) := by
    constructor
    · rintro hno ⟨u, hu⟩
      by_cases hut : u = t
      · exact hut ▸ hu
      · exact absurd hu (hno u hut)
    · exact fun hself u hut hu => hut (hunique u t hu.1 (hself ⟨u, hu⟩).1)
  refine ⟨?_, fun hnot => ?_⟩
  · rw [hiff, hcond]
    exact ⟨Iff.mp, fun himp => ⟨himp, fun hself => ⟨t, hself⟩⟩⟩
  · rw [panic_iff, hcond, ← hiff]
    cases r with
    | false => exact ⟨fun _ => nofun, fun _ => rfl⟩
    | true => exact ⟨nofun, fun himp => absurd (himp rfl) hnot⟩

theorem holdingsleep_iff_holder : ∃ s : State Bool Unit Lock Local, Reach (fun _ => 7) s ∧
    (s.here false).pc = .answer true ∧ (true = true ↔ (s.here false).Holds) := by
  have h0 : Reach (fun _ : Bool => 7) (.init ⟨false, 0⟩ fun _ => ⟨.idle, false⟩) := .init
  have h1 := h0.step (.acquire (t := false) rfl .acquiresleep rfl)
  have h2 := h1.step (.set (t := false) rfl rfl)
  have h3 := h2.step (.set (t := false) rfl rfl)
  have h4 := h3.step (.leave (t := false) rfl rfl)
  have h5 := h4.step (.acquire (t := false) rfl .holdingsleep rfl)
  have h6 := h5.step (.set (t := false) rfl rfl)
  refine ⟨_, h6, rfl, (holdingsleep_iff h6 (t := false) rfl).1.2 fun u hu => ?_⟩
  cases u with
  | false => exact absurd rfl hu
  | true =>
    rintro ⟨hh, -⟩
    cases hh

/-- A process that does not have the lock is told that it does, because another one has it; none of
the functions that ask panics. -/
theorem holdingsleep_other : ∃ s : State Bool Unit Lock Local, Reach (fun _ => 7) s ∧
    (s.here true).pc = .answer true ∧ ¬ (s.here true).Holds ∧ (s.here false).Holds ∧
    Guard.bwrite.panic true = none ∧ Guard.brelse.panic true = none ∧
    (Guard.iderw true true false true).panic true = none ∧ (Guard.iunlock 1).panic true = none := by
  have h0 : Reach (fun _ : Bool => 7) (.init ⟨false, 0⟩ fun _ => ⟨.idle, false⟩) := .init
  have h1 := h0.step (.acquire (t := false) rfl .acquiresleep rfl)
  have h2 := h1.step (.set (t := false) rfl rfl)
  have h3 := h2.step (.set (t := false) rfl rfl)
  have h4 := h3.step (.leave (t := false) rfl rfl)
  have h5 := h4.step (.acquire (t := true) rfl .holdingsleep rfl)
  have h6 := h5.step (.set (t := true) rfl rfl)
  refine ⟨_, h6, rfl, ?_, ⟨rfl, nofun⟩, rfl, rfl, rfl, rfl⟩
  rintro ⟨hh, -⟩
  cases hh

end Sleeplock
