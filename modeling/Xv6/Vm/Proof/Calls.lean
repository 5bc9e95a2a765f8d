import Xv6.Vm.Proof.Invariant

/-!
# System calls keep the invariant

One lemma for each call: it is a `Step` of some process, in a state with the invariant. `fork`
is a step of the child and `wait` one of the zombie; every other call is a step of the caller.
-/

namespace Vm

open Panic Param Function

variable {L : Layout} {s s' s'' : Kernel} {X : Nat → Nat} {d e f g i k w n p q va fd : Nat}
  {u : Unit} {r : Int} {b : UInt8} {bs : List UInt8} {ok : Nat → Bool}

/-! ## Stores -/

theorem translate_ok (h : translate d va ok s = .ok (f, s')) :
    s' = s ∧ ∃ w, entry s.mem d (pdx va) (ptx va) = some w ∧ present w = true ∧ ok w = true ∧
      pteAddr w = f := by
  unfold translate at h
  rw [bind_ok] at h
  obtain ⟨pde, _, hl, h⟩ := h
  cases hl
  simp only [ite_ok, bind_ok] at h
  rcases h with ⟨-, _, _, hth, -⟩ | ⟨hpde, pte, _, hl, h⟩
  · cases hth
  · cases hl
    rcases h with ⟨-, _, _, hth, -⟩ | ⟨hpte, h⟩
    · cases hth
    · obtain ⟨rfl, rfl⟩ := pure_ok.1 h
      simp only [Bool.not_eq_true', Bool.not_eq_false, Bool.and_eq_true] at hpde hpte
      exact ⟨rfl, _, entry_eq hpde.1, hpte.1, hpte.2, rfl⟩

theorem pokeByte_touched (hf : translate d va ok s = .ok (f, s'))
    (hset : setBytes f (va % PGSIZE) [b] s' = .ok (u, s'')) (ho : Own s (dirUse s.mem d))
    (hlow : ∀ w, entry s.mem d (pdx va) (ptx va) = some w → ok w = true → pdx va < 512) :
    Touched s s'' d := by
  obtain ⟨rfl, w, he, hw, hok, rfl⟩ := translate_ok hf
  exact touched_setBytes hset ho (hlow w he hok) (ptx_lt va) he hw

theorem poke_touched (h : poke d ok va bs s = .ok (u, s')) (ho : Own s (dirUse s.mem d))
    (hva : va + bs.length ≤ KERNBASE) : Touched s s' d := by
  induction bs generalizing va s with
  | nil =>
    obtain ⟨-, rfl⟩ := pure_ok.1 h
    exact Touched.refl
  | cons b bs ih =>
    simp only [poke, bind_ok] at h
    obtain ⟨f, s1, hf, _, s2, hset, h⟩ := h
    rw [List.length_cons] at hva
    have ht := pokeByte_touched hf hset ho fun _ _ _ => pdx_user (by omega)
    have hmod : (va + 1) % UINT = va + 1 := Nat.mod_eq_of_lt (by unfold KERNBASE UINT at *; omega)
    rw [hmod] at h
    exact ht.comp (ih h (ho.trans ht.trans) (by omega))

theorem store_touched (h : poke d (fun w => user w && writable w) va [b] s = .ok (u, s'))
    (ho : Own s (dirUse s.mem d)) (hc : KernelClean s.mem d) : Touched s s' d := by
  simp only [poke, bind_ok] at h
  obtain ⟨f, s1, hf, _, s2, hset, h⟩ := h
  obtain ⟨-, rfl⟩ := pure_ok.1 h
  refine pokeByte_touched hf hset ho fun w he hok => hc.user_lt he ?_
  rw [Bool.and_eq_true] at hok
  exact hok.1

/-! ## Calls that change the caller's directory -/

section
variable (h : Inv L s) (hp : p < NPROC) (hst : (s.proc p).state ≠ .unused)
include h hp hst

theorem Inv.own_dir (hsp : Space s p d k) : Own s (dirUse s.mem d) :=
  (h.own_proc hp).mono fun f => by rw [hsp.procUse hst]; omega

omit hp in
theorem Inv.step_touched (hsp : Space s p d k) (ht : Touched s s' d) : Step s s' p := by
  refine h.step_dir (v := s.proc p) hst hsp ?_ ?_ rfl rfl hsp.pgdir rfl
    (ht.same.kernelClean hsp.clean) hsp.sz
  · rw [← ht.trans.proc]
    exact ht.trans
  · rw [update_eq_self, ht.trans.proc]

theorem store_step (hc : (do poke (← curdir p) (fun w => user w && writable w) va [b]) s = .ok (u, s')) :
    Step s s' p := by
  obtain ⟨d, k, hsp⟩ := h.space p hp hst
  rw [bind_ok] at hc
  obtain ⟨d', s1, hd, hc⟩ := hc
  obtain ⟨rfl, hpd⟩ := curdir_ok hd
  obtain rfl : d = d' := Option.some.inj (hsp.pgdir.symm.trans hpd)
  exact h.step_touched hst hsp (store_touched hc (h.own_dir hp hst hsp) hsp.clean)

theorem exec_step {ip : Option Image} {argv : List (List UInt8)}
    (hc : exec L p ip argv s = .ok (r, s')) (hnull : .nullPte ∉ s'.hist) : Step s s' p := by
  obtain ⟨d, k, hsp⟩ := h.space p hp hst
  rcases exec_spec hc hnull hsp.pgdir (h.own_dir hp hst hsp) with
    ht | ⟨d', sz, hsz, hclean, hP, ht⟩
  · refine h.step_fd hp ⟨h.files.of_proc ht.file ht.pipe (fun q => by rw [ht.proc]) fun q hq hg => ?_,
      ?_, fun q => ?_, fun q _ => by rw [ht.proc], fun q _ _ => sameFiles_of_eq ht.file (by rw [ht.proc])⟩
    · rw [ht.proc] at hg
      exact h.files.gone q hq hg
    · rw [ht.file]
      exact (ht.toMoved.frame (pipeUse s.file)).congr (fun f => (Nat.zero_add _).symm)
        fun f => (Nat.zero_add _).symm
    · rw [ht.proc]
      exact Proc.Keeps.refl
  · exact h.step_dir hst hsp ht hP rfl rfl rfl rfl hclean hsz

theorem growproc_step {n : Int} (hc : growproc L p n s = .ok (r, s')) : Step s s' p := by
  obtain ⟨d, k, hsp⟩ := h.space p hp hst
  have ho := h.own_dir hp hst hsp
  unfold growproc at hc
  simp only [bind_ok, get_run, Except.ok.injEq, Prod.mk.injEq] at hc
  obtain ⟨d', s1, hd, _, _, ⟨rfl, rfl⟩, sz, s2, hsz, hc⟩ := hc
  obtain ⟨rfl, hpd⟩ := curdir_ok hd
  obtain rfl : d = d' := Option.some.inj (hsp.pgdir.symm.trans hpd)
  have hgrown : Grown s1 s2 d ∧ sz < KERNBASE := by
    simp only [resize, ite_ok] at hsz
    rcases hsz with ⟨-, ha⟩ | ⟨-, ⟨-, hd⟩ | ⟨-, hp⟩⟩
    · obtain ⟨hg, hr⟩ := allocuvm_spec ha ho
      refine ⟨hg, ?_⟩
      rcases hr with rfl | ⟨hlt, rfl | rfl⟩
      · decide
      · exact hsp.sz
      · exact hlt
    · refine ⟨deallocuvm_grown hsp.sz.le hd ho, ?_⟩
      rcases deallocuvm_spec hsp.sz.le hd ho with ⟨-, rfl, -⟩ | ⟨hlt, rfl, -⟩
      · exact hsp.sz
      · exact hlt.trans hsp.sz
    · obtain ⟨rfl, rfl⟩ := pure_ok.1 hp
      exact ⟨Grown.refl, hsp.sz⟩
  obtain ⟨hg, hlt⟩ := hgrown
  have hclean := hg.clean hsp.clean
  rw [ite_ok] at hc
  rcases hc with ⟨-, hc⟩ | ⟨-, hc⟩
  · obtain ⟨-, rfl⟩ := pure_ok.1 hc
    refine h.step_dir (v := s1.proc p) hst hsp ?_ ?_ rfl rfl hsp.pgdir rfl hclean hsp.sz
    · rw [← hg.trans.proc]
      exact hg.trans
    · rw [update_eq_self, hg.trans.proc]
  · cases hc
    refine h.step_dir (v := { s1.proc p with sz := sz }) hst hsp (e := d) ?_ ?_ rfl rfl hsp.pgdir rfl
      hclean hlt
    · rw [← hg.trans.proc]
      exact hg.trans
    · rw [← hg.trans.proc]

theorem sbrk_step {n : Int} (hc : sysSbrk L p n s = .ok (r, s')) : Step s s' p := by
  unfold sysSbrk at hc
  simp only [bind_ok, get_run, Except.ok.injEq, Prod.mk.injEq] at hc
  obtain ⟨_, _, ⟨rfl, rfl⟩, r', s2, hg, hc⟩ := hc
  rw [ite_ok] at hc
  rcases hc with ⟨-, hc⟩ | ⟨-, hc⟩
  · obtain ⟨-, rfl⟩ := pure_ok.1 hc
    exact growproc_step h hp hst hg
  · obtain ⟨-, rfl⟩ := pure_ok.1 hc
    exact growproc_step h hp hst hg

end

/-! ## Calls on descriptors -/

theorem sysPipe_cases (h : sysPipe L p fd s = .ok (r, s')) (hp : p < NPROC)
    (hlive : Alive s.proc p) (hF : Files s fun _ => 0)
    (hown : ∀ f, pool s f + pipeUse s.file f ≤ 1) :
    FdStep p s s' (fun _ => 0) ∨ ∃ s1 d u bs, FdStep p s s1 (fun _ => 0) ∧ (s1.proc p).pgdir = some d ∧
      bs.length = 8 ∧ fd + 8 ≤ (s.proc p).sz ∧ poke d writable fd bs s1 = .ok (u, s') := by
  unfold sysPipe at h
  simp only [bind_ok, get_run, Except.ok.injEq, Prod.mk.injEq] at h
  obtain ⟨_, _, ⟨rfl, rfl⟩, _, _, ⟨rfl, rfl⟩, h⟩ := h
  rw [ite_ok] at h
  rcases h with ⟨-, h⟩ | ⟨hsz, h⟩
  · obtain ⟨-, rfl⟩ := pure_ok.1 h
    exact .inl (FdStep.refl hF)
  rw [bind_ok] at h
  obtain ⟨o, s1, ha, h⟩ := h
  rcases pipealloc_spec (p := p) ha hF hown with ⟨rfl, hstep⟩ | ⟨rf, wf, rfl, hrf, hwf, hstep⟩
  · obtain ⟨-, rfl⟩ := pure_ok.1 h
    exact .inl hstep.fdStep
  have hstep := hstep.fdStep
  have hF1 : Files s1 fun i => (0 + one wf i) + one rf i := hstep.files.congr fun i => by omega
  simp only [bind_ok] at h
  obtain ⟨o, s2, hf0, h⟩ := h
  rcases fdalloc_spec hf0 hp hrf (hstep.alive hlive) with
    ⟨rfl, rfl⟩ | ⟨fd0, rfl, hfd0, -, rfl, hset0⟩
  · simp only [bind_ok] at h
    obtain ⟨_, s3, hc0, _, s4, hc1, h⟩ := h
    obtain ⟨-, rfl⟩ := pure_ok.1 h
    have hstep3 := fileclose_spec (p := p) hc0 hrf hF1
    exact .inl ((hstep.comp hstep3.fdStep).comp (fileclose_spec hc1 hwf hstep3.files).fdStep)
  have hstep2 := hstep.comp (hset0 _ hF1)
  simp only [bind_ok] at h
  obtain ⟨o, s3, hf1, h⟩ := h
  rcases fdalloc_spec hf1 hp hwf (hstep2.alive hlive) with
    ⟨rfl, rfl⟩ | ⟨fd1, rfl, hfd1, -, rfl, hset1⟩
  · simp only [bind_ok, get_run, Except.ok.injEq, Prod.mk.injEq] at h
    obtain ⟨_, _, ⟨rfl, rfl⟩, _, s4, hclr, _, s5, hc0, _, s6, hc1, h⟩ := h
    obtain ⟨-, rfl⟩ := pure_ok.1 h
    cases hclr
    have hstep4 := fdStep_clear (k := rf) hstep2.files hp hfd0 (hstep2.alive hlive) (by simp)
    have hstep5 := fileclose_spec (p := p) hc0 hrf hstep4.files
    exact .inl (((hstep2.comp hstep4).comp hstep5.fdStep).comp
      (fileclose_spec hc1 hwf hstep5.files).fdStep)
  · simp only [bind_ok] at h
    obtain ⟨d, s4, hd, _, s5, hpoke, h⟩ := h
    obtain ⟨-, rfl⟩ := pure_ok.1 h
    obtain ⟨rfl, hpd⟩ := curdir_ok hd
    exact .inr ⟨_, d, _, _, hstep2.comp (hset1 _ hstep2.files), hpd, rfl, by omega, hpoke⟩

theorem Step.comp (h : Step s s' p) (h' : Step s' s'' p) : Step s s'' p :=
  ⟨h.moved.trans h'.moved, fun q hq => (h.other q hq).trans (h'.other q hq), h'.space, h'.files,
    fun q hq hne => (h.kept q hq hne).trans (h'.kept q hq hne)⟩

theorem pipe_step (h : Inv L s) (hp : p < NPROC) (hlive : Alive s.proc p)
    (hc : sysPipe L p fd s = .ok (r, s')) : Step s s' p := by
  rcases sysPipe_cases hc hp hlive h.files fun f => (by
    have := (h.own_proc hp).le_one f
    omega) with hstep | ⟨s1, d, u, bs, hstep, hpd, hlen, hsz, hpoke⟩
  · exact h.step_fd hp hstep
  · have hs1 := h.step_fd hp hstep
    have h1 := h.step hp hs1
    have hst := (hstep.alive hlive).1
    obtain ⟨k, hsp⟩ := h1.space_of hp hst hpd
    have hlt := hsp.sz
    rw [(hstep.proc p).sz] at hlt
    exact hs1.comp (h1.step_touched hst hsp
      (poke_touched hpoke (h1.own_dir hp hst hsp) (by omega)))

theorem Inv.step_fields {P : Nat → Proc} (h : Inv L s) (hp : p < NPROC)
    (hother : ∀ q, q ≠ p → (s.proc q).Keeps (P q)) (hof : ∀ q, (P q).ofile = (s.proc q).ofile)
    (hkeep : { s.proc p with state := (P p).state }.Keeps (P p))
    (hst : (P p).state = .unused ↔ (s.proc p).state = .unused)
    (hz : (P p).state = .zombie → ∀ fd < NOFILE, (s.proc p).ofile fd = none) :
    Step s { s with proc := P } p := by
  have huse : ∀ f, procUse { s with proc := P } p f = procUse s p f := fun f => by
    simp only [procUse, hst, hkeep.kstack, hkeep.pgdir]
  refine ⟨moved_tables.congr (fun _ => rfl) fun f => by rw [huse], hother, fun hn => ?_,
    h.files.of_proc rfl rfl hof fun q hq hg => ?_, fun q _ _ => sameFiles_of_eq rfl (hof q)⟩
  · obtain ⟨d, k, hsp⟩ := h.space p hp fun hu => hn (hst.2 hu)
    exact ⟨d, k, hkeep.pgdir.trans hsp.pgdir, hkeep.kstack.trans hsp.kstack, hsp.clean,
      hkeep.sz ▸ hsp.sz⟩
  · by_cases hqp : q = p
    · subst hqp
      rcases hg with hg | hg
      · exact h.files.gone q hq (.inl (hst.1 hg))
      · exact hz hg
    · simp only [(hother q hqp).state] at hg
      exact h.files.gone q hq hg

theorem kill_step {pid : Int} (h : Inv L s) (hp : p < NPROC) (hc : kill pid s = .ok (r, s')) :
    ∃ q < NPROC, Step s s' q := by
  unfold kill at hc
  rw [bind_ok] at hc
  obtain ⟨_, _, hg, hc⟩ := hc
  cases hg
  cases hfind : (List.range NPROC).find? fun q => (s.proc q).pid = pid with
  | none =>
    simp only [hfind] at hc
    obtain ⟨-, rfl⟩ := pure_ok.1 hc
    exact ⟨p, hp, h.step_fd hp (FdStep.refl h.files)⟩
  | some q =>
    have hq := (find_some hfind).1
    simp only [hfind] at hc
    cases hc
    refine ⟨q, hq, h.step_fields hq (fun i _ => keeps_update ⟨rfl, rfl, rfl, rfl⟩) (fun i => ?_)
      (by simp only [update_self]; exact ⟨rfl, rfl, rfl, rfl⟩)
      (by simp only [update_self]) fun hz => ?_⟩
    · by_cases hi : i = q
      · rw [hi, update_self]
      · rw [update_of_ne hi]
    · simp only [update_self] at hz
      exact h.files.gone q hq (.inr hz)

/-! ## `fork` -/

theorem Inv.step_new {v : Proc} (h : Inv L s) (hun : (s.proc p).state = .unused)
    (hP : s'.proc = update s.proc p v) (hof : v.ofile = (s.proc p).ofile)
    (hm : Moved s (fun _ => 0) s' (procUse s' p)) (hfile : s'.file = s.file)
    (hpipe : s'.pipe = s.pipe) (hsp : (s'.proc p).state ≠ .unused → ∃ d k, Space s' p d k) :
    Step s s' p := by
  have hq : ∀ q, q ≠ p → s'.proc q = s.proc q := fun q hq => by rw [hP, update_of_ne hq]
  refine ⟨(hm.frame (pipeUse s.file)).congr (fun f => ?_) fun f => ?_, fun q hne => ?_, hsp,
    h.files.of_proc hfile hpipe (fun q => ?_) fun q hlt hg => ?_,
    fun q _ hne => sameFiles_of_eq hfile (by rw [hq q hne])⟩
  · rw [procUse_unused hun]
  · rw [hfile]
  · rw [hq q hne]
    exact Proc.Keeps.refl
  · by_cases hqp : q = p
    · rw [hqp, hP, update_self, hof]
    · rw [hq q hqp]
  · by_cases hqp : q = p
    · exact h.files.gone q hlt (.inl (hqp ▸ hun))
    · rw [hq q hqp] at hg
      exact h.files.gone q hlt hg

theorem Inv.step_child {v : Proc} (h : Inv L s) (hun : (s.proc p).state = .unused)
    (hP : s'.proc = update s.proc p v) (hof : v.ofile = (s.proc p).ofile)
    (hst : v.state ≠ .unused) (hpd : v.pgdir = some d) (hk : v.kstack = some k)
    (hsz : v.sz < KERNBASE) (hclean : KernelClean s'.mem d)
    (hm : Moved s (fun _ => 0) s' fun f => dirUse s'.mem d f + one k f) (hfile : s'.file = s.file)
    (hpipe : s'.pipe = s.pipe) : Step s s' p := by
  have hv : s'.proc p = v := by rw [hP, update_self]
  have hsp : Space s' p d k := ⟨hv ▸ hpd, hv ▸ hk, hclean, hv ▸ hsz⟩
  refine h.step_new hun hP hof (hm.congr (fun _ => rfl) fun f => ?_) hfile hpipe fun _ => ⟨d, k, hsp⟩
  rw [hsp.procUse (hv.symm ▸ hst), Nat.add_comm]

theorem curdir_steady (h : (s.proc p).pgdir = some d) : Steady (curdir p) s d s := fun fs => by
  unfold curdir
  rw [bind_run get_run]
  simp only [h]
  rfl

/-- The slot `p` is that of an embryo, with the kernel stack `k`. -/
structure Embryo (s s' : Kernel) (p k : Nat) : Prop where
  find : ((List.range NPROC).find? fun p => (s.proc p).state = .unused) = some p
  moved : Moved s (fun _ => 0) s' (one k)
  free : s.freelist = k :: s'.freelist
  hist : s'.hist = s.hist
  file : s'.file = s.file
  pipe : s'.pipe = s.pipe
  proc : s'.proc = update s.proc p
    { s.proc p with state := .embryo, pid := s.nextpid, kstack := some k }

theorem Embryo.slot (h : Embryo s s' p k) : p < NPROC ∧ (s.proc p).state = .unused := by
  simpa using find_some h.find

/-- **`allocproc`** makes an embryo, or finds no slot or no page for the stack. -/
theorem allocproc_tries (w : Prop) :
    Tries ((∃ p < NPROC, (s.proc p).state = .unused) ∧ 0 < s.freelist.length) w allocproc s
      (fun r s' => ∃ p k, r = some p ∧ Embryo s s' p k)
      fun r s' => r = none ∧ (s' = s ∨ ∃ p < NPROC, (s.proc p).state = .unused ∧
        Moved s (fun _ => 0) s' (fun _ => 0) ∧ s'.file = s.file ∧ s'.pipe = s.pipe ∧
        ∃ v : Proc, v.state = .unused ∧ v.ofile = (s.proc p).ofile ∧ s'.proc = update s.proc p v) := by
  refine tries_get (fun _ => rfl) ?_
  cases hfind : (List.range NPROC).find? fun p => (s.proc p).state = .unused with
  | none =>
    refine ⟨.of_pure (.inr ⟨rfl, .inl rfl⟩), fun ⟨⟨p, hp, hun⟩, _⟩ => ?_⟩
    exact absurd (decide_eq_true hun) (List.find?_eq_none.1 hfind p (List.mem_range.2 hp))
  | some p =>
    obtain ⟨hp, hun⟩ := find_some hfind
    refine steady_setProc.tries (Steady.tries (v := ()) (fun _ => rfl) (tries_kalloc
      (s := { s with
        proc := update s.proc p { s.proc p with state := .embryo, pid := s.nextpid }
        nextpid := incr s.nextpid }) (fun h => List.ne_nil_of_length_pos h.2) (fun fs => ?_)
      fun k fl fs hfl => ?_))
    · refine .run get_run (.run rfl (.of_pure ⟨rfl, .inr ⟨p, hp, of_decide_eq_true hun, ⟨fun _ => rfl,
        fun _ _ => rfl, rfl, rfl, List.suffix_refl _⟩, rfl, rfl, _, rfl, ?_, update_idem ..⟩⟩))
      simp only [update_self]
    · refine tries_get (fun _ => rfl) (steady_setProc.tries (tries_pure ⟨p, k, rfl, hfind,
        ⟨fun f => ?_, fun _ _ => rfl, rfl, rfl, List.suffix_refl _⟩, hfl, rfl, rfl, rfl, ?_⟩))
      · exact ((trans_take hfl : Trans s (fun _ => 0) { s with freelist := fl } _).count f).trans
          (congrArg (_ + ·) (Nat.zero_add _))
      · simp only [update_self, update_idem]

theorem filedup_steady (h : 0 < (s.file k).ref) : Steady (filedup k) s ()
    { s with file := update s.file k { s.file k with ref := (s.file k).ref + 1 } } := fun fs => by
  rw [filedup, bind_run get_run, if_neg (by simp only; omega)]
  rfl

/-- The child gets the descriptors of the parent. -/
theorem forkFiles_steady (hp : p < NPROC) (hq : q < NPROC) (hne : p ≠ q) (hlive : Alive s.proc q)
    (hF : Files s fun _ => 0) (hn : n + fd = NOFILE)
    (hnone : ∀ i, fd ≤ i → i < NOFILE → (s.proc q).ofile i = none) :
    ∃ s', Steady (forkFiles p q n fd) s () s' ∧ s'.fail = s.fail ∧ FdStep q s s' (fun _ => 0) ∧
      s'.mem = s.mem ∧ ∃ o, s'.proc q = { s.proc q with ofile := o } ∧ ∀ i < NOFILE,
        o i = if fd ≤ i then (s.proc p).ofile i else (s.proc q).ofile i := by
  induction n generalizing fd s with
  | zero =>
    exact ⟨s, fun _ => rfl, rfl, FdStep.refl hF, rfl, _, rfl, fun i hi => (if_neg (by omega)).symm⟩
  | succ n ih =>
    have hfd : fd < NOFILE := by omega
    cases ho : (s.proc p).ofile fd with
    | none =>
      obtain ⟨s', hrun, hfail, hstep, hm, o, hq', hi⟩ := ih hlive hF
        (show n + (fd + 1) = NOFILE by omega) fun i hi => hnone i (by omega)
      refine ⟨s', fun fs => ?_, hfail, hstep, hm, o, hq', fun i hlt => (hi i hlt).trans ?_⟩
      · rw [forkFiles, bind_run get_run]
        simp only [ho]
        exact hrun fs
      · by_cases hfi : i = fd
        · rw [hfi, if_neg (by omega), if_pos (le_refl _), ho, hnone fd (le_refl _) hfd]
        · exact if_congr (by omega) rfl rfl
    | some k =>
      have hk := hF.lt p hp fd hfd k ho
      have hpos : 0 < (s.file k).ref := by
        rw [hF.ref k hk]
        have := refs_pos hp hfd ho
        omega
      have hstep := fdStep_dup hF hq hfd hlive (hnone fd (le_refl _) hfd) hk hpos
      obtain ⟨s', hrun, hfail, hstep', hm, o, hq', hi⟩ := ih (hstep.alive hlive) hstep.files
        (show n + (fd + 1) = NOFILE by omega) fun i hi hlt => by
          simp only [update_self, update_of_ne (show i ≠ fd by omega)]
          exact hnone i (by omega) hlt
      simp only [update_self, update_of_ne hne] at hq' hi
      refine ⟨s', fun fs => ?_, hfail, hstep.comp hstep', hm, o, hq', fun i hlt => (hi i hlt).trans ?_⟩
      · rw [forkFiles, bind_run get_run]
        simp only [ho]
        rw [bind_run (filedup_steady hpos fs)]
        exact hrun fs
      · by_cases hfi : i = fd
        · rw [hfi, if_neg (by omega), if_pos (le_refl _), ho, update_self]
        · rw [update_of_ne hfi]
          exact if_congr (by omega) rfl rfl

/-- The memory below `sz` of the directory `d`, in pages of the directory `e`. -/
structure Cloned (s s' : Kernel) (d e sz : Nat) : Prop where
  byte : ∀ va < pgroundup sz, userByte s'.mem e va = userByte s.mem d va
  perm : ∀ x, x * PGSIZE < pgroundup sz →
    (mapping s'.mem e x).map pteFlags = (mapping s.mem d x).map pteFlags
  rest : ∀ va < KERNBASE, pgroundup sz ≤ va → userFrame s'.mem e va = none
  apart : ∀ va < KERNBASE, ∀ va' < KERNBASE, ∀ f, userFrame s'.mem e va = some f →
    userFrame s'.mem d va' ≠ some f

theorem pteFlags_mkPte (h : present w = true) :
    pteFlags (mkPte (g * PGSIZE) (pteFlags w)) = pteFlags w := by
  have hor : pteFlags w ||| PTE_P = pteFlags w := Nat.eq_of_testBit_eq fun i => by
    rw [Nat.testBit_or]
    cases i with
    | zero => simp_all [PTE_P, pteFlags, PGSIZE, present, Nat.testBit_zero]
    | succ i => simp [PTE_P, Nat.testBit_succ]
  rw [mkPte_eq pteFlags_lt, hor]
  unfold pteFlags PGSIZE
  omega

theorem Copies.cloned (hc : Copies s s' e d 0 (pageCount sz)) (hsz : sz < KERNBASE)
    (hfull : ∀ x, x * PGSIZE < sz → mapping s.mem d x ≠ none)
    (hrest : ∀ x, pageCount sz ≤ x → x < 2 ^ 19 → mapping s'.mem e x = none)
    (ho : Own s' fun f => dirUse s'.mem e f + dirUse s'.mem d f) : Cloned s s' d e sz := by
  obtain ⟨hup, hcount, hpage⟩ := pageCount_spec hsz.le
  have hcopy : ∀ va < pgroundup sz, va < KERNBASE ∧
      ∃ w, mapping s.mem d (va / PGSIZE) = some w ∧ ∃ g,
        mapping s'.mem e (va / PGSIZE) = some (mkPte (g * PGSIZE) (pteFlags w)) ∧
        s'.mem g = s.mem (pteAddr w) := fun va hva => by
    have hx : va / PGSIZE < pageCount sz :=
      Nat.div_lt_of_lt_mul (by rw [Nat.mul_comm, ← hup]; exact hva)
    obtain ⟨w, hw⟩ := Option.ne_none_iff_exists'.1 (hfull _ ((hpage _).2 hx))
    refine ⟨?_, w, hw, hc _ (Nat.zero_le _) hx w hw⟩
    unfold KERNBASE PGSIZE at *
    omega
  refine ⟨fun va hva => ?_, fun x hx => ?_, fun va hk hva => ?_, fun va hva va' hva' f hf hf' => ?_⟩
  · obtain ⟨hk, w, hw, g, hg, hd⟩ := hcopy va hva
    rw [userByte, userByte, userFrame_mapping hk, userFrame_mapping hk, hg, hw]
    simp only [Option.map_some, pteAddr_mkPte pteFlags_lt, hd]
  · obtain ⟨-, w, hw, g, hg, -⟩ := hcopy _ hx
    rw [Nat.mul_div_cancel _ (by decide)] at hw hg
    rw [hg, hw, Option.map_some, Option.map_some, pteFlags_mkPte (mapping_some.1 hw).2]
  · rw [userFrame_mapping hk, hrest _ ?_ ?_]
    · rfl
    · exact (Nat.le_div_iff_mul_le (by decide)).2 (hup ▸ hva)
    · unfold KERNBASE PGSIZE at *
      omega
  · have h1 := dirUse_userFrame hva hf
    have h2 := dirUse_userFrame hva' hf'
    have := ho.le_one f
    omega

/-- The page of a kernel stack is taken: the others are where they were. -/
theorem Inv.own_allocated (h : Inv L s) (hp : p < NPROC) (hst : (s.proc p).state ≠ .unused)
    (hsp : Space s p d n) (hm : Moved s (fun _ => 0) s1 (one k)) :
    (Own s1 fun f => 0 + dirUse s1.mem d f) ∧ SameSpace s s1 d := by
  obtain ⟨ho1, hsame1⟩ := hm.apart ((h.own_dir hp hst hsp).mono fun f => Nat.le_of_eq (Nat.zero_add _))
  exact ⟨ho1.mono fun f => Nat.add_le_add_right (Nat.zero_le _) _, hsame1⟩

/-- What `fork` makes: the process `q` with the directory `e`, from `p` with the directory `d`. -/
structure Child (s s' : Kernel) (p d q e : Nat) : Prop where
  state : (s'.proc q).state = .runnable
  parent : (s'.proc q).parent = some p
  pgdir : (s'.proc q).pgdir = some e
  sz : (s'.proc q).sz = (s.proc p).sz
  files : ∀ fd < NOFILE, (s'.proc q).ofile fd = (s.proc p).ofile fd
  memory : Cloned s s' d e (s.proc p).sz

/-- The slot `q` was unused and still is; no other process changed, and no page was lost. -/
structure Unforked (s s' : Kernel) (q : Nat) : Prop where
  step : Step s s' q
  slot : s' = s ∨ (s.proc q).state = .unused
  other : ∀ a, a ≠ q → s'.proc a = s.proc a
  pool : ∀ f, pool s' f = pool s f

theorem Inv.unforked {v : Proc} (h : Inv L s) (hun : (s.proc q).state = .unused)
    (hm : Moved s (fun _ => 0) s' fun _ => 0) (hP : s'.proc = update s.proc q v)
    (hv : v.state = .unused) (hof : v.ofile = (s.proc q).ofile) (hfile : s'.file = s.file)
    (hpipe : s'.pipe = s.pipe) : Unforked s s' q := by
  have hun' : (s'.proc q).state = .unused := by rw [hP, update_self, hv]
  exact ⟨h.step_new hun hP hof (hm.congr (fun _ => rfl) fun f => procUse_unused hun') hfile hpipe
    (absurd hun'), .inr hun, fun a ha => by rw [hP, update_of_ne ha], fun f => (hm.count f).symm⟩

/-- The stack and the slot of an embryo are given back. -/
theorem Embryo.undo (hem : Embryo s s1 q k) (h : Inv L s) (ht : Trans s1 (fun _ => 0) s2 fun _ => 0)
    (hfree : Trans s2 (fun f => 0 + one k f) s3 fun _ => 0) :
    Unforked s { s3 with
      proc := update s3.proc q { s3.proc q with pgdir := none, kstack := none, state := .unused } }
        q := by
  have hP3 : s3.proc = s1.proc := by rw [hfree.proc, ht.proc]
  have hm : Moved s (fun _ => 0) s3 fun _ => 0 :=
    (hem.moved.congr (fun _ => rfl) fun f => Nat.zero_add _).trans
      ((ht.toMoved.frame (one k)).trans hfree.toMoved)
  refine h.unforked hem.slot.2 ⟨hm.count, hm.mem, hm.held, hm.kpgdir, hm.hist⟩
    (v := { s3.proc q with pgdir := none, kstack := none, state := .unused }) ?_ rfl ?_
    (hfree.file.trans (ht.file.trans hem.file)) (hfree.pipe.trans (ht.pipe.trans hem.pipe))
  · simp only [hP3, hem.proc, update_self, update_idem]
  · simp only [hP3, hem.proc, update_self]

/-- The embryo gets the directory `e`. -/
theorem Embryo.child {o : Option Nat} (hem : Embryo s s1 q k) (h : Inv L s)
    (ht : Trans s1 (fun _ => 0) s2 (dirUse s2.mem e)) (hclean : KernelClean s2.mem e)
    (hsz : sz < KERNBASE) : Step s { s2 with
      proc := update s2.proc q { s2.proc q with pgdir := some e, sz := sz, parent := o } } q := by
  have hm := (hem.moved.congr (fun _ => rfl) fun f => Nat.zero_add _).trans (ht.toMoved.frame (one k))
  have hq : s2.proc q = { s.proc q with state := .embryo, pid := s.nextpid, kstack := some k } := by
    rw [ht.proc, hem.proc, update_self]
  refine h.step_child hem.slot.2 (v := { s2.proc q with pgdir := some e, sz := sz, parent := o })
    ?_ ?_ ?_ rfl ?_ hsz hclean ⟨hm.count, hm.mem, hm.held, hm.kpgdir, hm.hist⟩
    (ht.file.trans hem.file) (ht.pipe.trans hem.pipe)
  · rw [ht.proc, hem.proc, update_idem]
  · rw [hq]
  · simp [hq]
  · rw [hq]

/-- **`fork`** makes a child in an unused slot, or returns -1 and gives back the pages it took. -/
theorem fork_tries {w : Prop} (h : Inv L s) (hp : p < NPROC) (hst : (s.proc p).state ≠ .unused)
    (hd : (s.proc p).pgdir = some d)
    (hfull : w → ∀ x, x * PGSIZE < (s.proc p).sz → mapping s.mem d x ≠ none) :
    Tries (((∃ q < NPROC, (s.proc q).state = .unused) ∧
        1026 + pageCount (s.proc p).sz ≤ s.freelist.length) ∧ w) w (fork L p) s
      (fun r s' => ∃ q < NPROC, ∃ e, (s.proc q).state = .unused ∧ Step s s' q ∧
        (∀ a, a ≠ q → s'.proc a = s.proc a) ∧ r = (s'.proc q).pid ∧ (s'.proc q).state = .runnable ∧
        (w → Child s s' p d q e))
      fun r s' => r = -1 ∧ ∃ q < NPROC, Unforked s s' q := by
  obtain ⟨k0, hsp⟩ := h.space_of hp hst hd
  obtain ⟨-, hcount, hpage⟩ := pageCount_spec hsp.sz.le
  unfold fork
  refine ((allocproc_tries w).imp (fun hc => ⟨hc.1.1, by omega⟩) id (fun _ _ => id)
    fun _ _ => id).bind ?_ ?_
  rotate_left
  · rintro _ s1 ⟨rfl, rfl | ⟨q, hq, hun, hm, hfile, hpipe, v, hv, hof, hP⟩⟩
    · exact .of_pure ⟨rfl, p, hp, h.step_fd hp (FdStep.refl h.files), .inl rfl, fun _ _ => rfl,
        fun _ => rfl⟩
    · exact .of_pure ⟨rfl, q, hq, h.unforked hun hm hP hv hof hfile hpipe⟩
  rintro _ s1 ⟨q, k, rfl, hem⟩
  obtain ⟨hq, hun⟩ := hem.slot
  have hne : p ≠ q := by
    rintro rfl
    exact hst hun
  have hp1 : s1.proc p = s.proc p := by rw [hem.proc, update_of_ne hne]
  obtain ⟨ho1, hsame1⟩ := h.own_allocated hp hst hsp hem.moved
  have hpool : ∀ f, pool s f + 0 = pool s1 f + one k f := hem.moved.count
  have hfull1 : w → ∀ x < pageCount (s.proc p).sz, mapping s1.mem d x ≠ none := fun hw x hx => by
    rw [(hsame1 x (by omega)).1]
    exact hfull hw x ((hpage x).2 hx)
  refine (curdir_steady (hp1 ▸ hd)).tries (tries_get (fun _ => rfl) ?_)
  rw [hp1]
  refine ((copyuvm_copies ho1 hsp.sz).imp (fun hc => ⟨?_, hfull1 hc.2⟩) (fun hw =>
    ⟨fun f (hf : 0 < pool s1 f + 0) => ?_, hfull1 hw⟩)
    (fun _ _ => id) fun _ _ => id).bind ?_ ?_
  · have := hc.1.2
    rw [hem.free, List.length_cons] at this
    omega
  · have := hpool f
    exact h.mem_pages (by omega)
  rotate_left
  · -- the stack and the slot are given back
    rintro _ s2 ⟨rfl, ht⟩
    refine .run get_run ?_
    rw [show (s2.proc q).kstack = some k by rw [ht.proc, hem.proc, update_self]]
    refine (kfree_ends (fun _ => h.mem_pages ?_) fun s3 hfree =>
      hem.undo h ht (kfree_trans hfree)).bind fun _ s3 hs3 =>
        .run get_run (.run rfl (.of_pure ⟨rfl, q, hq, hs3⟩))
    have := hpool k
    rw [one_self] at this
    omega
  rintro _ s2 ⟨e, rfl, ht, hclean, hcop, hrest⟩
  have hp2 : s2.proc p = s.proc p := by rw [ht.proc, hp1]
  have hq2 : s2.proc q =
      { s.proc q with state := .embryo, pid := s.nextpid, kstack := some k } := by
    rw [ht.proc, hem.proc, update_self]
  have hs2 := hem.child (o := some p) h ht hclean (hp2.symm ▸ hsp.sz : (s2.proc p).sz < KERNBASE)
  have h2 := h.step hq hs2
  obtain ⟨s3, hfiles, hfail, hfd, hmem, o, hq3, hof⟩ := forkFiles_steady hp hq hne
    (by simp [Alive, hq2]) h2.files (show NOFILE + 0 = NOFILE from rfl) fun i _ hi => by
      simp only [update_self, hq2]
      exact h.files.gone q hq (.inl hun) i hi
  have hs3 := h2.step_fd hq hfd
  have h3 := h2.step hq hs3
  simp only [update_self, update_of_ne hne, hq2, hp2] at hq3 hof
  refine tries_get (fun _ => rfl) (tries_get (fun _ => rfl) (steady_setProc.tries (hfiles.tries
    (tries_get (fun _ => rfl) (steady_setProc.tries (tries_get (fun _ => rfl) (tries_pure
      ⟨q, hq, e, hun, hs2.comp (hs3.comp (h3.step_fields hq (fun i hi => ?_) (fun i => ?_) ?_ ?_ ?_)),
        fun a ha => ?_, rfl, ?_, fun hw => ?_⟩)))) hfail)))
  · rw [update_of_ne hi]
    exact Proc.Keeps.refl
  · by_cases hi : i = q
    · rw [hi, update_self]
    · rw [update_of_ne hi]
  · rw [update_self]
    exact ⟨rfl, rfl, rfl, rfl⟩
  · simp [hq3]
  · simp
  · simp only [update_of_ne ha, hfd.other a ha, ht.proc, hem.proc]
  · simp only [update_self]
  · have hc := (hcop.of_sameSpace hsame1 hcount).cloned hsp.sz (hfull hw) hrest
      (ht.toMoved.apart ho1).1
    refine ⟨?_, ?_, ?_, ?_, fun fd hlt => ?_, ⟨?_, ?_, ?_, ?_⟩⟩
    all_goals simp only [update_self, hq3, hmem]
    · exact (hof fd hlt).trans (if_pos (Nat.zero_le _))
    · exact hc.byte
    · exact hc.perm
    · exact hc.rest
    · exact hc.apart

/-- `fork` is a step of an unused slot. -/
theorem fork_step (h : Inv L s) (hp : p < NPROC) (hst : (s.proc p).state ≠ .unused)
    (hc : fork L p s = .ok (r, s')) :
    ∃ q < NPROC, Step s s' q ∧ (s' = s ∨ (s.proc q).state = .unused) ∧
      (∀ a, a ≠ q → s'.proc a = s.proc a) ∧ (r = -1 ∧ (∀ f, pool s' f = pool s f) ∨
        (s.proc q).state = .unused ∧ (s'.proc q).state = .runnable ∧ (s'.proc q).pid = r) := by
  obtain ⟨d, k, hsp⟩ := h.space p hp hst
  rcases (fork_tries (w := False) h hp hst hsp.pgdir fun h => h.elim).ends.ok hc with
    ⟨q, hq, e, hun, hs, hP, rfl, hrun, -⟩ | ⟨hr, q, hq, hs⟩
  · exact ⟨q, hq, hs, .inr hun, hP, .inr ⟨hun, hrun, rfl⟩⟩
  · exact ⟨q, hq, hs.step, hs.slot, hs.other, .inl ⟨hr, hs.pool⟩⟩

/-! ## `exit` and `wait` -/

theorem kfree_withProc {P : Nat → Proc} (h : kfree L f s = .ok (u, s')) :
    s'.proc = s.proc ∧ kfree L f { s with proc := P } = .ok (u, { s' with proc := P }) := by
  unfold kfree at h ⊢
  split at h
  · cases h
  · rename_i hc
    cases h
    exact ⟨rfl, by rw [if_neg hc]; rfl⟩

theorem pipeclose_withProc {P : Nat → Proc} {b : Bool} (h : pipeclose L f b s = .ok (u, s')) :
    s'.proc = s.proc ∧ pipeclose L f b { s with proc := P } = .ok (u, { s' with proc := P }) := by
  unfold pipeclose at h ⊢
  rw [bind_run get_run, bind_run rfl] at h ⊢
  rw [ite_ok] at h
  rcases h with ⟨hc, h⟩ | ⟨hc, h⟩
  · rw [if_pos hc]
    exact kfree_withProc h
  · rw [if_neg hc]
    obtain ⟨-, rfl⟩ := pure_ok.1 h
    exact ⟨rfl, rfl⟩

theorem fileclose_withProc {P : Nat → Proc} (h : fileclose L k s = .ok (u, s')) :
    s'.proc = s.proc ∧ fileclose L k { s with proc := P } = .ok (u, { s' with proc := P }) := by
  unfold fileclose at h ⊢
  rw [bind_run get_run] at h ⊢
  by_cases hlt : (s.file k).ref < 1
  · simp only [if_pos hlt, bind_ok] at h
    obtain ⟨_, _, hth, -⟩ := h
    cases hth
  · simp only [if_neg hlt] at h ⊢
    by_cases hr : 0 < (s.file k).ref - 1
    · rw [if_pos hr] at h ⊢
      cases h
      exact ⟨rfl, rfl⟩
    · rw [if_neg hr, bind_ok] at h
      rw [if_neg hr]
      obtain ⟨_, s1, hset, h⟩ := h
      cases hset
      rw [bind_run rfl]
      cases ht : (s.file k).type with
      | none =>
        simp only [ht] at h ⊢
        cases h
        exact ⟨rfl, rfl⟩
      | inode =>
        simp only [ht] at h ⊢
        cases h
        exact ⟨rfl, rfl⟩
      | pipe =>
        simp only [ht] at h ⊢
        exact pipeclose_withProc h

theorem closeFiles_spec (h : closeFiles L p n fd s = .ok (u, s')) (hp : p < NPROC)
    (hlive : Alive s.proc p) (hF : Files s fun _ => 0) (hn : n + fd = NOFILE) :
    FdStep p s s' (fun _ => 0) ∧ ∀ i < NOFILE, (s'.proc p).ofile i = none ∨
      i < fd ∧ (s'.proc p).ofile i = (s.proc p).ofile i := by
  induction n generalizing fd s with
  | zero =>
    obtain ⟨-, rfl⟩ := pure_ok.1 h
    exact ⟨FdStep.refl hF, fun i hi => .inr ⟨by omega, rfl⟩⟩
  | succ n ih =>
    have hfd : fd < NOFILE := by omega
    unfold closeFiles at h
    rw [bind_run get_run] at h
    cases ho : (s.proc p).ofile fd with
    | none =>
      simp only [ho] at h
      obtain ⟨hs, hnone⟩ := ih h hlive hF (by omega)
      refine ⟨hs, fun i hi => ?_⟩
      rcases hnone i hi with hi | ⟨hlt, he⟩
      · exact .inl hi
      · by_cases hif : i = fd
        · exact .inl (he.trans (hif ▸ ho))
        · exact .inr ⟨by omega, he⟩
    | some k =>
      simp only [ho, bind_ok, get_run, Except.ok.injEq, Prod.mk.injEq] at h
      obtain ⟨_, s1, hc, _, _, ⟨rfl, rfl⟩, _, s2, hset, h⟩ := h
      cases hset
      have hclear := fdStep_clear hF hp hfd hlive ho
      obtain ⟨hproc, hc'⟩ := fileclose_withProc (P := update s.proc p
        { s.proc p with ofile := update (s.proc p).ofile fd none }) hc
      have hs := hclear.comp (fileclose_spec hc' (hF.lt p hp fd hfd k ho) hclear.files).fdStep
      simp only [hproc] at h
      obtain ⟨hs', hnone⟩ := ih h (hs.alive hlive) hs.files (by omega)
      refine ⟨hs.comp hs', fun i hi => ?_⟩
      rcases hnone i hi with hi | ⟨hlt, he⟩
      · exact .inl hi
      · simp only [update_self] at he
        by_cases hif : i = fd
        · rw [hif, update_self] at he
          exact .inl (hif ▸ he)
        · rw [update_of_ne hif] at he
          exact .inr ⟨by omega, he⟩

theorem exit_step (h : Inv L s) (hp : p < NPROC) (hlive : Alive s.proc p)
    (hc : exit L p s = .ok (u, s')) : Step s s' p := by
  unfold exit at hc
  rw [bind_run get_run] at hc
  rw [ite_ok] at hc
  rcases hc with ⟨-, hc⟩ | ⟨-, hc⟩
  · rw [bind_ok] at hc
    obtain ⟨_, _, hth, -⟩ := hc
    cases hth
  · simp only [bind_ok] at hc
    obtain ⟨_, s1, hcl, _, s2, hmod, _, _, hg, hset⟩ := hc
    cases hmod
    cases hg
    cases hset
    obtain ⟨hfd, hnone⟩ := closeFiles_spec hcl hp hlive h.files rfl
    have hnone : ∀ i < NOFILE, (s1.proc p).ofile i = none := fun i hi =>
      (hnone i hi).resolve_right fun hlt => Nat.not_lt_zero _ hlt.1
    have hs1 := h.step_fd hp hfd
    have h1 := h.step hp hs1
    have hst1 := (hfd.alive hlive).1
    refine hs1.comp (h1.step_fields hp (fun i hi => ?_) (fun i => ?_) ?_ ?_ fun _ => hnone)
    · rw [update_of_ne hi]
      dsimp only
      split
      · exact ⟨rfl, rfl, rfl, rfl⟩
      · exact Proc.Keeps.refl
    · by_cases hi : i = p
      · subst hi
        rw [update_self]
        dsimp only
        split <;> rfl
      · rw [update_of_ne hi]
        dsimp only
        split <;> rfl
    · rw [update_self]
      dsimp only
      split <;> exact ⟨rfl, rfl, rfl, rfl⟩
    · simp [hst1]

theorem wait_step {r : Option Int} (h : Inv L s) (hp : p < NPROC) (hc : wait L p s = .ok (r, s')) :
    ∃ q < NPROC, Step s s' q := by
  unfold wait at hc
  rw [bind_run get_run] at hc
  cases hfind : (List.range NPROC).find? fun q =>
      (s.proc q).parent = some p ∧ (s.proc q).state = .zombie with
  | none =>
    refine ⟨p, hp, h.step_fd hp ?_⟩
    simp only [hfind, ite_ok] at hc
    rcases hc with ⟨-, hc⟩ | ⟨-, hc⟩
    · obtain ⟨-, rfl⟩ := pure_ok.1 hc
      exact FdStep.refl h.files
    · obtain ⟨-, rfl⟩ := pure_ok.1 hc
      exact FdStep.refl h.files
  | some q =>
    obtain ⟨hq, hz⟩ := find_some hfind
    have hz : (s.proc q).state = .zombie := by simp at hz; exact hz.2
    have hst : (s.proc q).state ≠ .unused := by simp [hz]
    obtain ⟨d, k, hsp⟩ := h.space q hq hst
    simp only [hfind, hsp.kstack, hsp.pgdir, bind_ok, get_run, Except.ok.injEq, Prod.mk.injEq] at hc
    obtain ⟨_, s1, hfree, _, _, ⟨rfl, rfl⟩, _, s2, hset, _, s3, hvm, _, _, ⟨rfl, rfl⟩, _, s4, hset',
      hc⟩ := hc
    obtain ⟨-, rfl⟩ := pure_ok.1 hc
    cases hset
    cases hset'
    have ho : Own s fun f => dirUse s.mem d f + one k f :=
      (h.own_proc hq).mono fun f => by rw [hsp.procUse hst]; omega
    have ht := kfree_trans (X := dirUse s.mem d) hfree
    have hsame : SameDir s.mem s1.mem d :=
      (kfree_trans (X := fun _ => 0) hfree).same fun f hf => by
        have := ho.le_one f
        omega
    have ho1 : Own s1 (dirUse s1.mem d) :=
      (ho.trans ht).mono fun f => hsame.dirUse.le
    have hvm := freevm_trans hvm (ho1.withProc (P := _))
    have hm : Moved s (fun f => dirUse s.mem d f + one k f) s3 fun _ => 0 :=
      (ht.toMoved.congr (fun _ => rfl) fun f => hsame.dirUse).trans
        ⟨hvm.count, hvm.mem, hvm.held, hvm.kpgdir, hvm.hist⟩
    have hP : s3.proc = update s.proc q { s.proc q with kstack := none } := by
      rw [hvm.proc]
      simp only [ht.proc]
    have hfile : s3.file = s.file := hvm.file.trans ht.file
    have hpipe : s3.pipe = s.pipe := hvm.pipe.trans ht.pipe
    have hm' := hm.frame (pipeUse s.file)
    refine ⟨q, hq, ⟨fun f => ?_, fun f hf => hm'.mem f ?_, hm'.held, hm'.kpgdir, hm'.hist⟩,
      fun i hi => ?_, fun hn => ?_, h.files.of_proc hfile hpipe (fun i => ?_) fun i hi hg => ?_,
      fun i _ hi => sameFiles_of_eq hfile (by simp only [update_of_ne hi, hP])⟩
    · rw [hsp.procUse hst, procUse_unused, Nat.add_comm (one k f)]
      · simp only [hfile]
        exact hm'.count f
      · simp only [update_self]
    · rw [hsp.procUse hst] at hf
      omega
    · simp only [update_of_ne hi, hP]
      exact Proc.Keeps.refl
    · simp at hn
    · by_cases hi : i = q
      · simp only [hi, update_self, hP]
      · simp only [update_of_ne hi, hP]
    · by_cases hiq : i = q
      · exact hiq ▸ h.files.gone q hq (.inr hz)
      · simp only [update_of_ne hiq, hP] at hg
        exact h.files.gone i hi hg

end Vm
