import Xv6.Ipc.Proof.Fifo

/-!
# Sleepers of a pipe

`pipewrite` that stored bytes owes the readers a wakeup, and makes it at its end and before it sleeps,
but not where it returns -1: a reader may then sleep before a full pipe
(`killed_writer_strands_reader`). In runs without such a return nobody sleeps in vain
(`no_stuck_sleeper`).
-/

namespace Pipe

open Monitor

variable {T : Type} [DecidableEq T] {d : Data T} {t u : T} {l : Local}
  {s s' : State T Chan (Data T) Local} {o : Option T}

def Waits (c : Chan) (d : Data T) : Prop :=
  match c with
  | .nread => d.Empty ∧ d.writeopen = true
  | .nwrite => d.Full ∧ d.readopen = true

def Owes (l : Local) (c : Chan) : Prop :=
  match l.pc, c with
  | .wfor _ i since, .nread => since < i
  | .rcopy _ i, .nwrite => 0 < i
  | .cwake writable, c => c = if writable then .nread else .nwrite
  | _, _ => False

/-- `pipewrite` of process `t` is about to return -1 before a full pipe, having stored bytes since
it took the lock, and a reader sleeps. -/
def Refuses (s : State T Chan (Data T) Local) (t : T) : Prop :=
  ∃ w i since n, s.loc t = .inside ⟨.wfor w i since, n⟩ ∧ i < w.n ∧ since < i ∧ s.data.Full ∧
    (s.data.readopen = false ∨ s.data.killed t = true) ∧ ∃ u, (s.loc u).SleepsOn Chan.nread

inductive Attentive : State T Chan (Data T) Local → Prop
  | init {junk : Nat → UInt8} {killed : T → Bool} : Attentive (alloc junk killed)
  | step {o : Option T} {s s' : State T Chan (Data T) Local} (h : Attentive s) (hs : Step prog o s s')
      (hr : ∀ t, o = some t → ¬ Refuses s t) : Attentive s'

theorem Attentive.reach (h : Attentive s) : Reach s := by
  induction h with
  | init => exact .init
  | step _ hs _ ih => exact ih.step hs

theorem owes_guards (c : Chan) : (prog (T := T)).Guards (Owes · c) := by
  refine ⟨fun {t l d l'} h => ?_, fun {t l d c' l'} h => ?_, fun h => by cases h⟩
  · have hc := act_cases (t := t) (l := l) (d := d)
    rw [show act t l d = _ from h] at hc
    cases hc <;> exact id
  · have hc := act_cases (t := t) (l := l) (d := d)
    rw [show act t l d = _ from h] at hc
    cases hc with
    | wsleep =>
      cases c with
      | nread => exact Nat.lt_irrefl _
      | nwrite => exact id
    | rsleep => exact id

theorem prog_ok : (prog (T := T)).Ok Waits Owes := by
  refine ⟨fun hc c ho => ?_, fun ha => ?_, fun hp c hw => ?_⟩
  · cases hc <;> exact ho.elim
  · cases ha
  · rw [show _ = _ from hp]
    cases c <;> exact hw

omit [DecidableEq T] in
theorem Waits.close {b : Bool} {c : Chan} (h : Waits c d) (hc : c ≠ if b then .nread else .nwrite) :
    Waits c (d.close b) := by
  cases b <;> cases c <;> first | exact h | exact absurd rfl hc

theorem Acts.ok {sleeps : Chan → Prop} {a : Act Chan (Data T) Local} (ha : Acts t d l a)
    (hcalls : Calls d t l) (hknows : l.pc.Knows d)
    (hr : ∀ w i since n, l = ⟨.wfor w i since, n⟩ → i < w.n → since < i → d.Full →
      d.readopen = false ∨ d.killed t = true → ¬ sleeps .nread) :
    a.Ok Waits Owes sleeps l d := by
  have hdone := hcalls.done
  cases ha with
  | refuse hi hf hg =>
    intro c ho
    cases c with
    | nread => exact .inr (hr _ _ _ _ rfl hi ho hf hg)
    | nwrite => exact ho.elim
  | full | stored =>
    intro c ho
    cases c with
    | nread => exact .inl rfl
    | nwrite => exact ho.elim
  | store hi hf =>
    intro c
    cases c with
    | nread => exact ⟨fun _ => .inr (Nat.lt_succ_of_le hdone.2.1), Nat.lt_succ_of_lt⟩
    | nwrite => exact ⟨fun hw => absurd hw.1 hf, id⟩
  | wsleep => exact ⟨hknows, fun c ho => ho.elim⟩
  | rsleep he hw hk => exact ⟨⟨he, hw⟩, fun c ho => ho⟩
  | rgo => exact fun c => ⟨.inl, fun ho => ho.elim⟩
  | copy hi he =>
    intro c
    cases c with
    | nread => exact ⟨fun hw => absurd hw.1 he, id⟩
    | nwrite => exact ⟨fun _ => .inr (Nat.succ_pos _), fun _ => Nat.succ_pos _⟩
  | copied =>
    intro c ho
    cases c with
    | nread => exact ho.elim
    | nwrite => exact .inl rfl
  | @cset b n =>
    intro c
    refine ⟨fun hw => ?_, fun ho => ho.elim⟩
    by_cases hc : c = if b then .nread else .nwrite
    · exact .inr hc
    · exact .inl (hw.close hc)
  | cwake => exact fun c ho => .inl ho
  | _ => exact fun c ho => ho.elim

structure Awake (s : State T Chan (Data T) Local) : Prop where
  inv : Inv s
  guarded : ∀ c, Guarded (Owes · c) s
  alone : ∀ t, ¬ (s.loc t).Alone
  noLost : NoLost Waits Owes s

theorem Awake.step (h : Awake s) (hs : Step prog o s s') (hr : ∀ t, o = some t → ¬ Refuses s t) :
    Awake s' := by
  refine ⟨h.inv.step hs, fun c => (h.guarded c).step (owes_guards c) hs,
    alone_step h.alone (fun _ => rfl) hs, h.noLost.step h.inv.locks prog_ok ?_ hs⟩
  intro t l ho hl
  have hhere : s.here t = l := by rw [State.here, hl]; rfl
  refine act_cases.ok (hhere ▸ h.inv.calls t) (hhere ▸ h.inv.knows t) ?_
  rintro w i since n rfl hi hsince hf hg hsl
  exact hr t ho ⟨w, i, since, n, hl, hi, hsince, hf, hg, hsl⟩

theorem Attentive.awake (h : Attentive s) : Awake s := by
  induction h with
  | init => exact ⟨.init, fun _ _ h => h.elim, fun _ h => h.elim, noLost_init⟩
  | step _ hs hr ih => exact ih.step hs hr

theorem sleeping_reader : ∃ s : State Bool Chan (Data Bool) Local, Attentive s ∧ s.lk = none ∧
    s.pt = none ∧ s.loc false = .asleep .nread ⟨.rtest ⟨0, 1⟩, 1⟩ ∧ s.loc true = .out ⟨.idle 0, 0⟩ ∧
    s.data = ⟨fun _ => 0, 0, 0, true, true, fun _ => false, [], []⟩ := by
  -- a process that is not killed and finds the read end open refuses nothing
  have hno : ∀ (s : State Bool Chan (Data Bool) Local) (t : Bool), s.data.readopen = true →
      s.data.killed t = false → ¬ Refuses s t := by
    rintro s t hopen hk ⟨w, i, since, n, -, -, -, -, hg, -⟩
    rcases hg with hg | hg
    · exact absurd (hopen.symm.trans hg) (by decide)
    · exact absurd (hk.symm.trans hg) (by decide)
  have h0 : Attentive (alloc (fun _ => 0) fun _ : Bool => false) := .init
  have h1 := h0.step (.acquire (t := false) rfl (.read 1) rfl) fun t _ => hno _ t rfl rfl
  have h2 := h1.step (.sleep (t := false) rfl rfl rfl) fun t _ => hno _ t rfl rfl
  have h3 := h2.step (.release (t := false) rfl) fun t _ => hno _ t rfl rfl
  have h4 := h3.step (.mark (t := false) rfl) fun t _ => hno _ t rfl rfl
  have h5 := h4.step (.sched (t := false) rfl) fun t _ => hno _ t rfl rfl
  exact ⟨_, h5, rfl, rfl, rfl, rfl, rfl⟩

/-- **Nobody sleeps in vain on a pipe** whose writers do not return -1 before a full pipe with bytes
stored that a sleeping reader was not told of. -/
theorem no_stuck_sleeper (h : Attentive s) (hfree : s.lk = none) :
    (∀ t, (s.loc t).Sleeping Chan.nread → s.data.Empty ∧ s.data.writeopen = true) ∧
    ∀ t, (s.loc t).Sleeping Chan.nwrite → s.data.Full ∧ s.data.readopen = true := by
  have ha := h.awake
  exact ⟨fun t ht => ha.noLost.free ha.inv.locks (ha.guarded _) ha.alone hfree ht.sleepsOn,
    fun t ht => ha.noLost.free ha.inv.locks (ha.guarded _) ha.alone hfree ht.sleepsOn⟩

theorem no_stuck_sleeper_reader : ∃ s : State Bool Chan (Data Bool) Local, Attentive s ∧
    s.lk = none ∧ (s.loc false).Sleeping Chan.nread ∧ s.data.Empty ∧ s.data.writeopen = true := by
  obtain ⟨s, h, hlk, -, hloc, -⟩ := sleeping_reader
  have hsl : (s.loc false).Sleeping Chan.nread := by rw [hloc]; rfl
  exact ⟨s, h, hlk, hsl, (no_stuck_sleeper h hlk).1 false hsl⟩

theorem killed_writer (i : Nat) (hi : i ≤ 512) : ∃ s : State Bool Chan (Data Bool) Local, Reach s ∧
    s.loc false = .asleep .nread ⟨.rtest ⟨0, 1⟩, 1⟩ ∧
    s.loc true = .inside ⟨.wfor ⟨0, fun _ => 0, 513⟩ i 0, 1⟩ ∧
    s.data.nread = 0 ∧ s.data.nwrite = i ∧ s.data.killed true = true := by
  induction i with
  | zero =>
    obtain ⟨s, h, hlk, hpt, hfalse, htrue, hdata⟩ := sleeping_reader
    have h1 := h.reach.step (.acquire (t := true) htrue (.write (fun _ => 0) 513) hlk)
    have h2 := h1.step (.poke (t := true) rfl hpt)
    refine ⟨_, h2, ?_, ?_, ?_, ?_, ?_⟩
    · simp [State.move, hfalse]
    · simp [State.move, Loc.rise]
    · simp [State.move, hdata]
    · simp [State.move, hdata]
    · simp [State.move]
  | succ i ih =>
    obtain ⟨s, h, hfalse, htrue, hr, hw, hk⟩ := ih (by omega)
    have hf : ¬ s.data.Full := by
      unfold Data.Full PIPESIZE
      rw [hr, hw]
      omega
    have ha : prog.act true ⟨.wfor ⟨0, fun _ => 0, 513⟩ i 0, 1⟩ s.data =
        .set (s.data.store true ⟨0, fun _ => 0, 513⟩ i) ⟨.wfor ⟨0, fun _ => 0, 513⟩ (i + 1) 0, 1⟩ := by
      simp only [prog, act]
      rw [if_pos (by omega), if_neg hf]
    refine ⟨_, h.step (.set htrue ha), ?_, ?_, hr, ?_, hk⟩
    · simp [State.move, hfalse]
    · simp [State.move]
    · simp only [Data.store, hw]
      omega

/-- A killed writer fills the pipe and returns -1; the reader sleeps on, before 512 bytes. -/
theorem killed_writer_strands_reader : ∃ s : State Bool Chan (Data Bool) Local, Reach s ∧
    s.lk = none ∧ (s.loc false).Sleeping Chan.nread ∧ ¬ s.data.Empty := by
  obtain ⟨s, h, hfalse, htrue, hr, hw, hk⟩ := killed_writer 512 (Nat.le_refl _)
  have hf : s.data.Full := hw.trans (hr ▸ by decide)
  have ha : prog.act true ⟨.wfor ⟨0, fun _ => 0, 513⟩ 512 0, 1⟩ s.data = .leave ⟨.idle (-1), 1⟩ := by
    simp only [prog, act]
    rw [if_pos (by decide), if_pos hf, hk, Bool.or_true, if_pos rfl]
  refine ⟨_, h.step (.leave htrue ha), rfl, ?_, ?_⟩
  · simp [State.move, hfalse, Loc.Sleeping]
  · simp [State.move, Data.Empty, hr, hw]

end Pipe
