import Xv6.Bio.Faults
import Xv6.Bio.Proof.Coherent

/-!
# Read errors

As long as every read succeeds, a valid buffer holds the contents of its block or what was written to
it, also after writes that failed (`reads_sound`). After a read that failed the buffer is valid with the
data that it had for another block (`read_error`).
-/

namespace Bio

open Function
open Log (Block)
open Param

namespace Faulty

variable {T : Type} {start : Nat} {s s' : State T} {w w' : Nat → Nat → Block → Prop}
  {t : T} {b : Buf} {m m' : Faulty T}

/-! ## Steps -/

theorem Sound.mono (h : Sound ⟨s, w⟩) (hw : ∀ d n x, w d n x → w' d n x) : Sound ⟨s, w'⟩ :=
  fun b hb => (h b hb).imp_right (hw _ _ _)

theorem Sound.recycle (h : Sound ⟨s, w⟩) (t : T) (dev blockno : Nat) :
    Sound ⟨s.recycle t dev blockno b, w⟩ := by
  intro c hc
  by_cases hcb : c = b
  · subst hcb
    simp [State.recycle] at hc
  · simp only [State.recycle, update_of_ne hcb] at hc ⊢
    exact h c hc

theorem Sound.fetch (h : Sound ⟨s, w⟩) : Sound ⟨s.fetch b, w⟩ := by
  intro c hc
  by_cases hcb : c = b
  · subst hcb
    exact .inl (update_self ..)
  · simp only [State.fetch, update_of_ne hcb] at hc ⊢
    exact h c hc

theorem Sound.change (h : Sound ⟨s, w⟩) (v : Block) : Sound ⟨s.change b v, record (s.change b v) w⟩ := by
  intro c hc
  by_cases hcb : c = b
  · subst hcb
    exact .inr (.inr ⟨c, update_self .., rfl, rfl, rfl⟩)
  · have := h c hc
    simp only [State.change, update_of_ne hcb] at this ⊢
    exact this.imp_right .inl

variable [DecidableEq T]

theorem Sound.writeDone (h : Sound ⟨s, w⟩) (hb : Base start s) (hl : s.lock b = some t) {v : Block}
    (hw : ∀ d n x, w d n x → w' d n x)
    (hv : s.data b = v ∨ w' (s.dev b) (s.blockno b) (s.data b)) : Sound ⟨s.writeDone b v, w'⟩ := by
  intro c hc
  by_cases hcb : c = b
  · subst hcb
    simp only [State.writeDone, State.flush, update_self]
    exact hv
  · have hc : s.valid c = true := (update_of_ne hcb ..).symm.trans hc
    have hne : ¬ (s.dev c = s.dev b ∧ s.blockno c = s.blockno b) :=
      fun he => hcb (hb.inj hl c hc he.1 he.2)
    have hdisk : update s.disk (s.dev b) (update (s.disk (s.dev b)) (s.blockno b) v) (s.dev c)
        (s.blockno c) = s.disk (s.dev c) (s.blockno c) := by
      rw [disk_update, if_neg hne]
    simp only [State.writeDone, State.flush, hdisk]
    exact (h c hc).imp_right (hw _ _ _)

theorem Sound.goto (h : Sound ⟨s, w⟩) (x : Pc) : Sound ⟨s.goto t x, w⟩ := h

theorem lock_of_writes (hb : Base start s) {x q : Pc} (hw : Writes x b (s.pc t) q) :
    s.lock b = some t := by
  obtain ⟨-, -, -, hholds, -, hmem⟩ := hw.ref
  exact hb.users.held t b (hholds ▸ hmem)

theorem Sound.kernel (h : Sound ⟨s, w⟩) (hb : Base start s) (hs : Bio.Step start s s') :
    Sound ⟨s', record s' w⟩ := by
  have hrec : ∀ (s' : State T) d n x, w d n x → record s' w d n x := fun _ _ _ _ => .inl
  cases hs with
  | change v => exact h.change v
  | move => exact h.change _
  | fill => exact h.change _
  | @bget _ t _ _ _ _ _ hget =>
    rcases bget_cases hget with ⟨-, rfl⟩ | ⟨-, -, rfl⟩
    · exact h.mono (hrec _)
    · exact (h.recycle t _ _).mono (hrec _)
  | fetch => exact h.fetch.mono (hrec _)
  | flushed hp =>
    exact h.writeDone hb (hb.users.lock_of_read hp) (hrec _) (.inl rfl)
  | wrote hw =>
    exact h.writeDone hb (lock_of_writes hb hw) (hrec _) (.inl rfl)
  | _ => exact h.mono (hrec _)

theorem step_base (hb : Base start m.core) {reads : Nat → Prop} (hs : Step start reads m m') :
    Base start m'.core := by
  cases hs with
  | kernel hs => exact hb.step hs
  | read hp hv hd =>
    have h := hb.step (.fetch hp hv hd)
    unfold State.readDone
    split_ifs
    · exact h
    · exact ⟨h.users, h.ident, h.excl, h.keys, h.flags, h.spare⟩
  | write v hw =>
    have h := hb.step (.wrote hw)
    exact ⟨h.users, h.ident, h.excl, h.keys, h.flags, h.spare⟩

theorem Sound.step (h : Sound m) (hb : Base start m.core)
    (hs : Step start (fun r => idewait true r ≥ 0) m m') : Sound m' := by
  cases hs with
  | kernel hs => exact h.kernel hb hs
  | read hp hv hd hr =>
    rw [State.readDone, if_pos hr]
    exact h.fetch
  | write v hw =>
    refine (h.writeDone hb (lock_of_writes hb hw) ?_ ?_).goto _
    · exact fun _ _ _ => Or.inl
    · exact .inr (.inr ⟨rfl, rfl, rfl⟩)

/-- **Valid data on a drive with errors**, in every run whose reads all succeed. -/
theorem reads_sound (h : Reach start (fun r => idewait true r ≥ 0) m) : Sound m := by
  suffices Base start m.core ∧ Sound m from this.2
  induction h with
  | init => exact ⟨.init _ _, fun _ h => absurd h Bool.false_ne_true⟩
  | step _ hs ih => exact ⟨step_base ih.1 hs, ih.2.step ih.1 hs⟩

end Faulty

/-- The first read of block 40 of an empty disk, with ones in all buffers, ends with the status `r`. -/
theorem first_read (reads : Nat → Prop) {r : Nat} (hr : reads r) : ∃ (m : Faulty Unit) (b : Buf),
    Faulty.Reach 2 reads m ∧ m.core.pc () = .idle ∧ m.core.lock b = some () ∧ m.core.valid b = true ∧
    m.core.data b = (if idewait true r ≥ 0 then fun _ => 0 else fun _ => 1) ∧
    (m.core.disk = fun _ _ _ => 0) ∧ ∀ d n x, ¬ m.written d n x := by
  let s : State Unit := init (fun _ _ _ => 0) fun _ => 1
  have hn : ∀ b, ¬ (s.dev b = ROOTDEV ∧ s.blockno b = 40) :=
    fun b hb => absurd hb.1 (by decide : 0 ≠ ROOTDEV)
  obtain ⟨c, -, hc⟩ := bget_of_spare (t := ()) (b := ⟨0, NBUF_pos⟩) (.init ..) hn ⟨rfl, rfl⟩
  have h1 : Faulty.Reach 2 reads _ := .step .init (.kernel (.bget (.client ROOTDEV 40) hc))
  have h2 := h1.step (.kernel (.acquire (t := ()) (b := c) (k := .client ROOTDEV 40)
    (by simp [State.goto]) rfl))
  have h3 := h2.step (.read (t := ()) (b := c) (k := .client ROOTDEV 40) (r := r)
    (by simp [State.goto]) (by simp [State.goto, State.recycle])
    (by simp [State.goto, State.recycle]) hr)
  have hdone : ∀ s : State Unit, (s.readDone c r).pc = s.pc ∧ (s.readDone c r).lock = s.lock ∧
      (s.readDone c r).disk = s.disk ∧ (s.readDone c r).fresh = s.fresh ∧
      (s.readDone c r).valid c = true := by
    intro s
    unfold State.readDone
    split_ifs <;> simp [State.fetch]
  obtain ⟨hpc, hlock, hdisk, hfresh, hvalid⟩ := hdone _
  have h4 := h3.step (.kernel (.got (t := ()) (b := c) (k := .client ROOTDEV 40)
    (by rw [hpc]; simp [State.goto]) hvalid))
  refine ⟨_, c, h4, by simp [State.goto, Cont.next], ?_, hvalid, ?_, hdisk, ?_⟩
  · exact (congrFun hlock c).trans (update_self ..)
  · unfold State.readDone
    split_ifs
    · exact update_self ..
    · rfl
  · rintro d n x (((⟨⟨⟩⟩ | ⟨b, hb, -⟩) | ⟨b, hb, -⟩) | ⟨b, hb, -⟩)
    · exact absurd hb Bool.false_ne_true
    · exact absurd hb Bool.false_ne_true
    · exact absurd ((congrFun hfresh b).symm.trans hb) Bool.false_ne_true

/-- The first read ends with `IDE_ERR`: the buffer is valid, with the ones that were in it, while the
disk is empty. -/
theorem read_error : ∃ m : Faulty Unit, Faulty.Reach 2 (fun _ => True) m ∧ ¬ m.Sound := by
  obtain ⟨m, b, h, -, -, hv, hdata, hdisk, hw⟩ := first_read (fun _ => True) (r := IDE_ERR) trivial
  refine ⟨m, h, fun hs => ?_⟩
  rw [if_neg (by decide)] at hdata
  rcases hs b hv with he | he
  · rw [hdata, hdisk] at he
    exact absurd (congrFun he 0) (show (1 : UInt8) ≠ 0 by decide)
  · exact hw _ _ _ he

/-- The first read succeeds: the buffer has the contents of the block. -/
theorem reads_sound_first : ∃ (m : Faulty Unit) (b : Buf),
    Faulty.Reach 2 (fun r => idewait true r ≥ 0) m ∧ m.Sound ∧
    m.core.pc () = .idle ∧ m.core.lock b = some () ∧ m.core.valid b = true ∧
    m.core.data b = m.core.disk (m.core.dev b) (m.core.blockno b) := by
  obtain ⟨m, b, h, hpc, hl, hv, -, -, hw⟩ := first_read (fun r => idewait true r ≥ 0) (r := 0)
    (by decide)
  have hs := Faulty.reads_sound h
  exact ⟨m, b, h, hs, hpc, hl, hv, (hs b hv).resolve_right (hw _ _ _)⟩

end Bio
