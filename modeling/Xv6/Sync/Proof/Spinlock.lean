import Mathlib.Data.List.Nodup
import Xv6.Sync.Spinlock

/-!
# Nesting of the interrupt flag

`ncli` counts the calls of `pushcli` that are outstanding, with one of them the flag is clear, and
`intena` is the flag that the thread had before (`Runs`). A thread that waits in `sched` has
`ptable.lock` as its only lock and one call outstanding, just as the scheduler that takes its place or
passes a CPU to it (`Waits`), so both agree with any CPU whose scheduler holds `ptable.lock`.

The scheduler itself does not save `intena`: once it has passed its CPU to a thread, its `release`
leaves the flag that the last of these threads had, and `sti` sets it again.
-/

namespace Spinlock

open Function

variable {C T L : Type}

/-! ## Invariant -/

def Pc.Active : Pc L → Prop
  | .run | .pushing _ _ | .spin _ | .popping => True
  | _ => False

/-- A call of `pushcli` for a lock that is not held yet, or not any more. -/
def Pc.extra : Pc L → Nat
  | .spin _ | .popping => 1
  | _ => 0

def Pc.Stopped (f : Pc L) : Prop := f = .run ∨ ∃ lk, f = .pushing true lk

/-- What a CPU executes agrees with its `ncli` and `intena`. -/
structure Runs (x : Ctx C T) (k : Context L) (p : Cpu) (holds : L → Prop) : Prop where
  active : k.pc.Active
  ncli : p.ncli = k.pushes
  count : k.pushes = k.plain + k.locks.length + k.pc.extra
  off : 0 < k.pushes → p.ifl = false
  intena : k.passed = false → 0 < k.pushes → p.intena = k.before
  flag : ∀ e lk, k.pc = .pushing e lk → e = p.ifl
  nodup : k.locks.Nodup
  holds : ∀ l, holds l ↔ l ∈ k.locks
  frames : ∀ f ∈ k.frames, f.Stopped
  thread : ∀ t, x = .thread t → k.passed = false

/-- What waits in `sched` has `ptable.lock` only. -/
structure Waits (pt : L) (x : Ctx C T) (k : Context L) : Prop where
  pushes : k.pushes = 1
  plain : k.plain = 0
  locks : k.locks = [pt]
  frames : ∀ f ∈ k.frames, f.Stopped
  pc : match x with
    | .scheduler _ => k.pc = .away ∧ k.passed = true
    | .thread _ => (k.pc = .fresh ∨ k.pc = .swtch k.before) ∧ k.passed = false

/-- **The invariant.** -/
structure Inv (pt : L) (s : State C T L) : Prop where
  runs : ∀ c, Runs (s.on c) (s.here c) (s.cpu c) (s.Holding c)
  waits : ∀ x, (∀ c, s.on c ≠ x) → Waits pt x (s.ctx x)
  own : ∀ c c', s.on c = s.on c' → c = c'
  home : ∀ c c', s.on c = .scheduler c' → c' = c
  interruptible : s.panic ≠ some "popcli - interruptible"
  popcli : s.panic ≠ some "popcli"

theorem Inv.stop {pt : L} {s : State C T L} (h : Inv pt s) {e : String}
    (h1 : e ≠ "popcli - interruptible") (h2 : e ≠ "popcli") : Inv pt { s with panic := some e } :=
  ⟨h.runs, h.waits, h.own, h.home, fun he => h1 (Option.some.inj he),
    fun he => h2 (Option.some.inj he)⟩

section
variable [DecidableEq C] [DecidableEq T] {pt : L} {s s' : State C T L} {c : C} {p : Cpu}
  {k : Context L}

theorem Inv.move (h : Inv pt s) (hcpu : s'.cpu = update s.cpu c p) (hon : s'.on = s.on)
    (hctx : s'.ctx = update s.ctx (s.on c) k) (hpanic : s'.panic = s.panic)
    (hother : ∀ c' l, c' ≠ c → (s'.Holding c' l ↔ s.Holding c' l))
    (hruns : Runs (s.on c) k p (s'.Holding c)) : Inv pt s' := by
  refine ⟨fun c' => ?_, fun x hx => ?_, by rw [hon]; exact h.own, by rw [hon]; exact h.home,
    by rw [hpanic]; exact h.interruptible, by rw [hpanic]; exact h.popcli⟩
  · by_cases hc : c' = c
    · subst hc
      rw [State.here, hon, hcpu, hctx, update_self, update_self]
      exact hruns
    · have hne : s.on c' ≠ s.on c := fun he => hc (h.own c' c he)
      rw [State.here, hon, hcpu, hctx, update_of_ne hne, update_of_ne hc]
      have hr := h.runs c'
      exact ⟨hr.active, hr.ncli, hr.count, hr.off, hr.intena, hr.flag, hr.nodup,
        fun l => (hother c' l hc).trans (hr.holds l), hr.frames, hr.thread⟩
  · rw [hon] at hx
    rw [hctx, update_of_ne fun he => hx c he.symm]
    exact h.waits x hx

end

/-! ## `pushcli` and `popcli` -/

section
variable {x : Ctx C T} {k : Context L} {p : Cpu} {holds : L → Prop} {e : Bool} {lk : Option L}

theorem Runs.push (h : Runs x k p holds) (hpc : k.pc = .pushing e lk) (f : Pc L) (n : Nat)
    (hf : f.Active) (hcount : k.plain + 1 = n + f.extra) (hne : ∀ e lk, f ≠ .pushing e lk) :
    Runs x { k.push e with pc := f, plain := n } (p.pushcli e) holds := by
  have hcnt : k.pushes = k.plain + k.locks.length := by
    have := h.count
    rw [hpc] at this
    exact this
  have hncli := h.ncli
  refine ⟨hf, ?_, ?_, fun _ => rfl, fun hpass _ => ?_, fun e lk he => absurd he (hne e lk), h.nodup,
    h.holds, h.frames, fun t ht => ?_⟩
  · simp only [Cpu.pushcli, Context.push, hncli]
    omega
  · simp only [Context.push]
    omega
  · simp only [Context.push] at hpass
    simp only [Cpu.pushcli, Context.push, hncli]
    by_cases h0 : k.pushes = 0
    · rw [if_pos (by omega), if_pos h0]
    · rw [if_neg h0] at hpass
      rw [if_neg (by omega), if_neg h0]
      exact h.intena hpass (Nat.pos_of_ne_zero h0)
  · simp only [Context.push, h.thread t ht, ite_self]

theorem Runs.popcli_ok (h : Runs x k p holds) (hpc : k.pc = .popping) :
    p.popcli = .ok { p with
      ncli := p.ncli - 1
      ifl := decide (p.ncli - 1 = 0) && p.intena } := by
  have hcnt := h.count
  rw [hpc] at hcnt
  have hpos : 0 < k.pushes := by
    simp only [Pc.extra] at hcnt
    omega
  have hncli := h.ncli
  rw [Cpu.popcli, h.off hpos, if_neg Bool.false_ne_true, if_neg (by omega)]

theorem Runs.pop (h : Runs x k p holds) (hpc : k.pc = .popping) {p' : Cpu} (hp : p.popcli = .ok p') :
    Runs x { k with pc := .run, pushes := k.pushes - 1 } p' holds ∧
      (k.pushes - 1 = 0 → p'.ifl = p.intena) := by
  have hcnt := h.count
  rw [hpc] at hcnt
  simp only [Pc.extra] at hcnt
  have hncli := h.ncli
  rw [h.popcli_ok hpc] at hp
  cases hp
  refine ⟨⟨trivial, ?_, ?_, fun hpos => ?_, fun hpass hpos => ?_, nofun, h.nodup, h.holds, h.frames,
    h.thread⟩, fun h0 => ?_⟩
  · simp only [hncli]
    omega
  · simp only [Pc.extra]
    omega
  · simp only at hpos ⊢
    rw [decide_eq_false (by omega), Bool.false_and]
  · simp only at hpos
    exact h.intena hpass (by omega)
  · simp only
    rw [decide_eq_true (by omega), Bool.true_and]

end

/-! ## Locks -/

section
variable [DecidableEq L] {s s' : State C T L} {c c' : C} {l l' : L}

theorem holding_take (hs : s'.lock = update s.lock l ⟨true, some c⟩)
    (hfree : (s.lock l).locked = false) :
    s'.Holding c' l' ↔ (l' = l ∧ c' = c) ∨ s.Holding c' l' := by
  unfold State.Holding
  rw [hs]
  by_cases hl : l' = l
  · subst hl
    rw [update_self, hfree]
    simp [eq_comm]
  · rw [update_of_ne hl]
    simp [hl]

theorem holding_drop (hs : s'.lock = update s.lock l ⟨false, none⟩) :
    s'.Holding c' l' ↔ l' ≠ l ∧ s.Holding c' l' := by
  unfold State.Holding
  rw [hs]
  by_cases hl : l' = l
  · subst hl
    rw [update_self]
    simp
  · rw [update_of_ne hl]
    simp [hl]

variable {x : Ctx C T} {k : Context L} {p : Cpu} {holds holds' : L → Prop}

omit [DecidableEq L] in
theorem Runs.take (h : Runs x k p holds) (hpc : k.pc = .spin l) (hl : ¬ holds l)
    (hh : ∀ l', holds' l' ↔ l' = l ∨ holds l') :
    Runs x { k with pc := .run, locks := l :: k.locks } p holds' := by
  have hcnt := h.count
  rw [hpc] at hcnt
  simp only [Pc.extra] at hcnt
  refine ⟨trivial, h.ncli, ?_, h.off, h.intena, nofun, ?_, fun l' => ?_, h.frames, h.thread⟩
  · simp only [List.length_cons, Pc.extra]
    omega
  · exact List.nodup_cons.2 ⟨fun hm => hl ((h.holds l).2 hm), h.nodup⟩
  · rw [hh, List.mem_cons, h.holds]

theorem Runs.drop (h : Runs x k p holds) (hpc : k.pc = .run) (hl : l ∈ k.locks)
    (hh : ∀ l', holds' l' ↔ l' ≠ l ∧ holds l') :
    Runs x { k with pc := .popping, locks := k.locks.erase l } p holds' := by
  have hcnt := h.count
  rw [hpc] at hcnt
  have hlen := List.length_erase_of_mem hl
  have hpos := List.length_pos_of_mem hl
  refine ⟨trivial, h.ncli, ?_, h.off, h.intena, nofun, h.nodup.erase l, fun l' => ?_, h.frames,
    h.thread⟩
  · simp only [Pc.extra] at hcnt ⊢
    omega
  · rw [hh, h.holds, h.nodup.mem_erase_iff]

end

/-! ## Interrupts -/

section
variable {x : Ctx C T} {k : Context L} {p : Cpu} {holds : L → Prop}

theorem Runs.on (h : Runs x k p holds) (hi : p.ifl = true) : k.pushes = 0 := by
  by_contra hne
  have := h.off (Nat.pos_of_ne_zero hne)
  rw [hi] at this
  cases this

theorem Runs.stopped (h : Runs x k p holds) (hi : p.ifl = true) : k.pc.Stopped := by
  have h0 := h.on hi
  have hcnt := h.count
  have hactive := h.active
  cases hpc : k.pc with
  | run => exact .inl rfl
  | pushing e lk =>
    rw [h.flag e lk hpc, hi]
    exact .inr ⟨lk, rfl⟩
  | spin l =>
    rw [hpc] at hcnt
    simp only [Pc.extra] at hcnt
    omega
  | popping =>
    rw [hpc] at hcnt
    simp only [Pc.extra] at hcnt
    omega
  | swtch i =>
    rw [hpc] at hactive
    exact hactive.elim
  | fresh =>
    rw [hpc] at hactive
    exact hactive.elim
  | away =>
    rw [hpc] at hactive
    exact hactive.elim

theorem Runs.flip (h : Runs x k p holds) (h0 : k.pushes = 0) (b : Bool) (f : Pc L)
    (hf : f.Active) (he : f.extra = 0) (hflag : ∀ e lk, f = .pushing e lk → e = b)
    (fs : List (Pc L)) (hfs : ∀ f ∈ fs, f.Stopped) :
    Runs x { k with pc := f, frames := fs } { p with ifl := b } holds := by
  have hcnt := h.count
  refine ⟨hf, h.ncli, ?_, fun hpos => ?_, fun _ hpos => ?_, hflag, h.nodup, h.holds, hfs, h.thread⟩
  · simp only [he]
    omega
  · exact absurd h0 (Nat.pos_iff_ne_zero.1 hpos)
  · exact absurd h0 (Nat.pos_iff_ne_zero.1 hpos)

end

/-! ## Passing a CPU -/

section
variable [DecidableEq C] [DecidableEq T] {pt : L} {s s' : State C T L} {c : C} {y : Ctx C T}
  {p : Cpu} {k1 k2 : Context L}

theorem Inv.pass (h : Inv pt s) (hcpu : s'.cpu = update s.cpu c p)
    (hon : s'.on = update s.on c y) (hctx : s'.ctx = update (update s.ctx (s.on c) k1) y k2)
    (hlock : s'.lock = s.lock) (hpanic : s'.panic = s.panic) (hy : ∀ c', s.on c' ≠ y)
    (hhome : ∀ c', y = .scheduler c' → c' = c) (hwaits : Waits pt (s.on c) k1)
    (hruns : Runs y k2 p (s.Holding c)) : Inv pt s' := by
  have hself : s'.on c = y := by rw [hon, update_self]
  have hother : ∀ c', c' ≠ c → s'.on c' = s.on c' := fun c' hc => by
    rw [hon, update_of_ne hc]
  have hhold : ∀ c', s'.Holding c' = s.Holding c' := fun c' => by
    funext l
    rw [State.Holding, hlock]
    rfl
  refine ⟨fun c' => ?_, fun x hx => ?_, fun c1 c2 he => ?_, fun c1 c2 he => ?_,
    by rw [hpanic]; exact h.interruptible, by rw [hpanic]; exact h.popcli⟩
  · rw [hhold]
    by_cases hc : c' = c
    · subst hc
      rw [State.here, hself, hcpu, hctx, update_self, update_self]
      exact hruns
    · rw [State.here, hother c' hc, hcpu, hctx, update_of_ne (hy c'),
        update_of_ne fun he => hc (h.own c' c he), update_of_ne hc]
      exact h.runs c'
  · have hxy : x ≠ y := fun he => hx c (hself.trans he.symm)
    rw [hctx, update_of_ne hxy]
    by_cases hxc : x = s.on c
    · rw [hxc, update_self]
      exact hwaits
    · rw [update_of_ne hxc]
      refine h.waits x fun c' he => ?_
      by_cases hc : c' = c
      · exact hxc (hc ▸ he.symm)
      · exact hx c' ((hother c' hc).trans he)
  · by_cases h1 : c1 = c
    · by_cases h2 : c2 = c
      · rw [h1, h2]
      · rw [h1, hself, hother c2 h2] at he
        exact absurd he.symm (hy c2)
    · by_cases h2 : c2 = c
      · rw [h2, hself, hother c1 h1] at he
        exact absurd he (hy c1)
      · rw [hother c1 h1, hother c2 h2] at he
        exact h.own c1 c2 he
  · by_cases h1 : c1 = c
    · rw [h1, hself] at he
      rw [h1]
      exact hhome c2 he
    · rw [hother c1 h1] at he
      exact h.home c1 c2 he

end

theorem Runs.single {x : Ctx C T} {k : Context L} {p : Cpu} {holds : L → Prop} {l : L}
    (h : Runs x k p holds) (h1 : k.pushes = 1) (hl : holds l) : k.plain = 0 ∧ k.locks = [l] := by
  have hcnt := h.count
  have hm := (h.holds l).1 hl
  have hpos := List.length_pos_of_mem hm
  refine ⟨by omega, ?_⟩
  obtain ⟨l', hl'⟩ := List.length_eq_one_iff.1 (show k.locks.length = 1 by omega)
  rw [hl', List.mem_singleton] at hm
  rw [hl', hm]

theorem Waits.runs {pt : L} {x y : Ctx C T} {k : Context L} {k' : Context L} {p : Cpu}
    {holds : L → Prop} (hw : Waits pt y k) (hr : Runs x k' p holds) (h1 : k'.pushes = 1)
    (hl : k'.locks = [pt]) (b i : Bool) (hi : k.passed = false → i = b) :
    Runs y { k with pc := .run, before := b } { p with intena := i } holds := by
  have hlen : k.locks.length = 1 := by
    rw [hw.locks]
    rfl
  refine ⟨trivial, ?_, ?_, fun _ => ?_, fun hpass _ => hi hpass, nofun, ?_, fun l => ?_, hw.frames,
    fun t ht => ?_⟩
  · simp only [hr.ncli, h1, hw.pushes]
  · simp only [hw.pushes, hw.plain, hlen, Pc.extra]
  · exact hr.off (by omega)
  · simp only [hw.locks]
    exact List.nodup_singleton pt
  · rw [hr.holds, hl]
    simp only [hw.locks]
  · subst ht
    exact hw.pc.2

/-! ## Steps -/

section
variable {pt : L} {s : State C T L} {c : C} {t : T}

theorem Inv.absent (h : Inv pt s) (ht : ¬ (s.ctx (.thread t)).pc.Active) (c : C) :
    s.on c ≠ .thread t := fun he => by
  have := (h.runs c).active
  rw [State.here, he] at this
  exact ht this

theorem Inv.schedulerWaits (h : Inv pt s) (ho : s.on c = .scheduler c) (hr : (s.here c).pc = .run)
    (hl : (s.here c).locks = [pt]) (h1 : (s.here c).pushes = 1) :
    Waits pt (s.on c) { s.here c with pc := .away, passed := true } := by
  have hrun := h.runs c
  have hcnt := hrun.count
  rw [hr, hl] at hcnt
  simp only [List.length_singleton, Pc.extra] at hcnt
  have hplain : (s.here c).plain = 0 := by omega
  refine ⟨h1, hplain, hl, hrun.frames, ?_⟩
  rw [ho]
  exact ⟨rfl, rfl⟩

end

section
variable [DecidableEq C] [DecidableEq T] [DecidableEq L] {pt : L} {s s' : State C T L} {c : C} {t : T}

theorem Inv.step (h : Inv pt s) (hs : Step pt s s') : Inv pt s' := by
  cases hs with
  | @readeflags c lk hp hr =>
    refine h.move rfl rfl rfl rfl (fun _ _ _ => .rfl) ?_
    have hrun := h.runs c
    refine ⟨trivial, hrun.ncli, ?_, hrun.off, hrun.intena, fun e lk' he => ?_, hrun.nodup,
      hrun.holds, hrun.frames, hrun.thread⟩
    · have := hrun.count
      rw [hr] at this
      exact this
    · cases he
      rfl
  | @pushcli c e hp hr =>
    exact h.move rfl rfl rfl rfl (fun _ _ _ => .rfl)
      ((h.runs c).push hr .run ((s.here c).plain + 1) trivial rfl nofun)
  | @acquire c e l hp hr hl =>
    exact h.move rfl rfl rfl rfl (fun _ _ _ => .rfl)
      ((h.runs c).push hr (.spin l) (s.here c).plain trivial rfl nofun)
  | acquireHeld => exact h.stop (by decide) (by decide)
  | @xchg c l hp hr hl =>
    refine h.move rfl rfl rfl rfl (fun c' l' hc => ?_) ((h.runs c).take hr (fun hh => ?_) fun l' => ?_)
    · rw [holding_take rfl hl]
      exact or_iff_right fun he => hc he.2
    · rw [hh.1] at hl
      cases hl
    · rw [holding_take rfl hl, and_iff_left rfl]
  | @release c l hp hr hm hl =>
    refine h.move rfl rfl rfl rfl (fun c' l' hc => ?_) ((h.runs c).drop hr hm fun l' => ?_)
    · rw [holding_drop rfl]
      refine and_iff_right_of_imp fun hh he => hc ?_
      rw [he] at hh
      exact Option.some.inj (hh.2.symm.trans hl.2)
    · rw [holding_drop rfl]
  | releaseFree => exact h.stop (by decide) (by decide)
  | @callPop c hp hr hm =>
    have hrun := h.runs c
    refine h.move rfl rfl rfl rfl (fun _ _ _ => .rfl) ⟨trivial, hrun.ncli, ?_, hrun.off, hrun.intena,
      nofun, hrun.nodup, hrun.holds, hrun.frames, hrun.thread⟩
    have := hrun.count
    rw [hr] at this
    simp only [Pc.extra] at this ⊢
    omega
  | @popcli c p hp hr hc =>
    exact h.move rfl rfl rfl rfl (fun _ _ _ => .rfl) ((h.runs c).pop hr hc).1
  | @popcliPanic c e hp hr hc =>
    rw [(h.runs c).popcli_ok hr] at hc
    cases hc
  | @trap c hp hi =>
    have hrun := h.runs c
    refine h.move rfl rfl rfl rfl (fun _ _ _ => .rfl)
      (hrun.flip (hrun.on hi) false .run trivial rfl nofun _ fun f hf => ?_)
    rcases List.mem_cons.1 hf with rfl | hf
    · exact hrun.stopped hi
    · exact hrun.frames f hf
  | @iret c f fs hp hr hf h0 =>
    have hrun := h.runs c
    have hfs : ∀ g ∈ f :: fs, g.Stopped := hf ▸ hrun.frames
    rw [List.forall_mem_cons] at hfs
    refine h.move rfl rfl rfl rfl (fun _ _ _ => .rfl) (hrun.flip h0 true f ?_ ?_ ?_ fs hfs.2)
    · rcases hfs.1 with rfl | ⟨lk, rfl⟩ <;> trivial
    · rcases hfs.1 with rfl | ⟨lk, rfl⟩ <;> rfl
    · rintro e lk rfl
      rcases hfs.1 with he | ⟨lk', he⟩ <;> cases he
      rfl
  | @sti c hp ho hr hf h0 =>
    have hrun := h.runs c
    have hflip := hrun.flip h0 true (s.here c).pc (by rw [hr]; trivial) (by rw [hr]; rfl)
      (by rw [hr]; nofun) _ hrun.frames
    exact h.move rfl rfl rfl rfl (fun _ _ _ => .rfl) hflip
  | @sched c t hp ho hr hl hn hi =>
    have hrun := h.runs c
    have h1 : (s.here c).pushes = 1 := by
      have := hrun.ncli
      omega
    obtain ⟨hplain, hlocks⟩ := hrun.single h1 hl
    have hy : ∀ c', s.on c' ≠ .scheduler c := fun c' he => by
      obtain rfl := h.home c' c he
      rw [ho] at he
      cases he
    have hw := h.waits _ hy
    have hsched := hw.runs hrun h1 hlocks (s.ctx (.scheduler c)).before (s.cpu c).intena fun hpass =>
      absurd (hpass.symm.trans hw.pc.2) (by decide)
    have hthread : Waits pt (s.on c) { s.here c with pc := .swtch (s.cpu c).intena } := by
      refine ⟨h1, hplain, hlocks, hrun.frames, ?_⟩
      rw [ho]
      exact ⟨.inr (congrArg _ (hrun.intena (hrun.thread t ho) (by omega))), hrun.thread t ho⟩
    refine h.pass (c := c) (y := .scheduler c) (update_eq_self ..).symm rfl (by rw [ho]) rfl
      rfl hy (fun c' he => ?_) hthread hsched
    cases he
    rfl
  | schedLock => exact h.stop (by decide) (by decide)
  | schedLocks => exact h.stop (by decide) (by decide)
  | schedFlag => exact h.stop (by decide) (by decide)
  | @resume c t i hp ho hr hl h1 ht =>
    have hrun := h.runs c
    have hy := h.absent (t := t) (by rw [ht]; exact id)
    have hw := h.waits _ hy
    have hi : i = (s.ctx (.thread t)).before := by
      rcases hw.pc.1 with he | he <;> rw [ht] at he <;> cases he
      rfl
    have hthread := hw.runs hrun h1 hl (s.ctx (.thread t)).before i fun _ => hi
    exact h.pass (c := c) (y := .thread t) rfl rfl (by rw [ho]) rfl rfl hy nofun
      (h.schedulerWaits ho hr hl h1) hthread
  | @start c t hp ho hr hl h1 ht =>
    have hrun := h.runs c
    have hy := h.absent (t := t) (by rw [ht]; exact id)
    have hthread := (h.waits _ hy).runs hrun h1 hl (s.cpu c).intena (s.cpu c).intena fun _ => rfl
    exact h.pass (c := c) (y := .thread t) (update_eq_self ..).symm rfl (by rw [ho]) rfl rfl
      hy nofun (h.schedulerWaits ho hr hl h1) hthread

theorem Reach.inv (h : Reach pt s) : Inv pt s := by
  induction h with
  | boot =>
    refine ⟨fun c => ?_, fun x hx => ?_, fun c c' he => ?_, fun c c' he => ?_, nofun, nofun⟩
    · exact ⟨trivial, rfl, rfl, nofun, nofun, nofun, List.nodup_nil, fun l => ⟨nofun, nofun⟩, nofun,
        nofun⟩
    · cases x with
      | scheduler c => exact absurd rfl (hx c)
      | thread t =>
        exact ⟨rfl, rfl, rfl, fun f hf => .inl (List.mem_singleton.1 hf), .inl rfl, rfl⟩
    · cases he
      rfl
    · cases he
      rfl
  | step _ hs ih => exact ih.step hs

end

section
variable [DecidableEq C] [DecidableEq T] [DecidableEq L] {pt : L} {s s' : State C T L}

def State.Owned (s : State C T L) : Prop :=
  ∀ l, (s.lock l).locked = true → ∃ c, (s.lock l).cpu = some c

omit [DecidableEq C] [DecidableEq T] in
theorem State.Owned.update {l : L} {k : Lock C} (h : s.Owned) (hs : s'.lock = update s.lock l k)
    (hk : k.locked = true → ∃ c, k.cpu = some c) : s'.Owned := by
  intro l' hl
  rw [hs] at hl ⊢
  by_cases he : l' = l
  · subst he
    rw [update_self] at hl ⊢
    exact hk hl
  · rw [update_of_ne he] at hl ⊢
    exact h l' hl

theorem State.Owned.step (h : s.Owned) (hs : Step pt s s') : s'.Owned := by
  cases hs with
  | @xchg c l => exact h.update rfl fun _ => ⟨c, rfl⟩
  | release => exact h.update rfl nofun
  | _ => exact h

theorem Reach.owned (h : Reach pt s) : s.Owned := by
  induction h with
  | boot => exact nofun
  | step _ hs ih => exact ih.step hs

/-- The panics that a caller of `acquire` or `sched` can cause, and how. -/
inductive Misuse (pt : L) (s : State C T L) : String → Prop
  /-- The caller has the lock; that another CPU has it is no reason. -/
  | acquire {c e l} (hr : (s.here c).pc = .pushing e (some l)) (hm : l ∈ (s.here c).locks) :
      Misuse pt s "acquire"
  | unlocked {c t} (ho : s.on c = .thread t) (hm : pt ∉ (s.here c).locks) :
      Misuse pt s "sched ptable.lock"
  | locks {c t} (ho : s.on c = .thread t) (hm : pt ∈ (s.here c).locks)
      (hn : (∃ l ∈ (s.here c).locks, l ≠ pt) ∨ 0 < (s.here c).plain) : Misuse pt s "sched locks"

omit [DecidableEq C] [DecidableEq T] [DecidableEq L] in
theorem Runs.more {x : Ctx C T} {k : Context L} {p : Cpu} {holds : L → Prop}
    (h : Runs x k p holds) (hr : k.pc = .run) (hm : pt ∈ k.locks) (hn : p.ncli ≠ 1) :
    (∃ l ∈ k.locks, l ≠ pt) ∨ 0 < k.plain := by
  have hcnt := h.count
  rw [hr] at hcnt
  simp only [Pc.extra] at hcnt
  have hncli := h.ncli
  have hpos := List.length_pos_of_mem hm
  by_cases hplain : 0 < k.plain
  · exact .inr hplain
  · by_contra hc
    have hall : ∀ l ∈ k.locks, l = pt := fun l hl => by_contra fun hne => hc (.inl ⟨l, hl, hne⟩)
    have hle := h.nodup
    rw [List.eq_replicate_of_mem hall, List.nodup_replicate] at hle
    omega

theorem Inv.misuse (h : Inv pt s) (hs : Step pt s s') {e : String} (he : s'.panic = some e) :
    Misuse pt s' e := by
  cases hs with
  | @acquireHeld c _ l _ hr hl =>
    cases he
    exact .acquire (c := c) hr (((h.runs c).holds l).1 hl)
  | @releaseFree c l _ _ hm hl => exact absurd (((h.runs c).holds l).2 hm) hl
  | @popcliPanic c e hp hr hc =>
    rw [(h.runs c).popcli_ok hr] at hc
    cases hc
  | @schedLock c t _ ho _ hl =>
    cases he
    exact .unlocked (c := c) ho fun hm => hl (((h.runs c).holds pt).2 hm)
  | @schedLocks c t _ ho hr hl hn =>
    cases he
    have hm := ((h.runs c).holds pt).1 hl
    exact .locks (c := c) ho hm ((h.runs c).more hr hm hn)
  | @schedFlag c t _ _ _ hl _ hi =>
    have hm := List.length_pos_of_mem (((h.runs c).holds pt).1 hl)
    have hcnt := (h.runs c).count
    rw [(h.runs c).off (by omega)] at hi
    cases hi
  | _ => cases ‹s.panic = none›.symm.trans he

structure Exclusive (pt : L) (s : State C T L) : Prop where
  /-- A lock is taken when what some CPU executes has acquired it and not released it. -/
  taken : ∀ l, (s.lock l).locked = true ↔ ∃ c, l ∈ (s.here c).locks
  one : ∀ c c' l, l ∈ (s.here c).locks → l ∈ (s.here c').locks → c = c'
  /-- A thread that waits in `sched` has `ptable.lock` when it goes on, and no other lock. -/
  waits : ∀ x, (∀ c, s.on c ≠ x) → (s.ctx x).locks = [pt]
  panic : ∀ e, s.panic = some e → Misuse pt s e

/-- **Spin-locks exclude**, for any CPUs, threads and locks: what two CPUs execute never has the same
lock, and neither `release` nor the check of the flag in `sched` panics. -/
theorem spinlock_exclusive (h : Reach pt s) : Exclusive pt s := by
  have hi := h.inv
  refine ⟨fun l => ⟨fun hl => ?_, fun ⟨c, hc⟩ => (((hi.runs c).holds l).2 hc).1⟩,
    fun c c' l hc hc' => ?_, fun x hx => (hi.waits x hx).locks, fun e he => ?_⟩
  · obtain ⟨c, hc⟩ := h.owned l hl
    exact ⟨c, ((hi.runs c).holds l).1 ⟨hl, hc⟩⟩
  · have h1 := (((hi.runs c).holds l).2 hc).2
    have h2 := (((hi.runs c').holds l).2 hc').2
    exact Option.some.inj (h1.symm.trans h2)
  · cases h with
    | boot => cases he
    | step h0 hs => exact h0.inv.misuse hs he

theorem spinlock_exclusive_taken : ∃ s : State Bool Unit Bool, Reach true s ∧
    true ∈ (s.here false).locks ∧ ∀ c, true ∈ (s.here c).locks → c = false := by
  have h0 : Reach true (boot true fun _ => false : State Bool Unit Bool) := .boot
  have h1 := h0.step (.readeflags (c := false) (some true) rfl rfl)
  have h2 := h1.step (.acquire (c := false) rfl rfl fun h => nomatch h.1)
  have h3 := h2.step (.xchg (c := false) rfl rfl rfl)
  have hm := List.mem_singleton.2 (rfl : true = true)
  exact ⟨_, h3, hm, fun c hc => (spinlock_exclusive h3).one c false true hc hm⟩

end

end Spinlock
