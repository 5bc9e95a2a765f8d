import Xv6.Vm.Descriptors
import Xv6.Vm.Proof.Isolation

/-!
# Reference counts of open files

A system call of one process leaves the descriptors of the others alone, with the files that they name
(`call_undisturbed`), and the page of a pipe is freed with its last file (`call_frees`). So the page of a
pipe is never freed under a process that reads or writes it (`open_file_refs`).
-/

namespace Vm

open Panic Param Finset Function

variable {L : Layout} {s s' : Kernel} {d e f g i j k n p q r fd : Nat} {u : Unit} {b c : Bool}

/-! ## Pages of pipes -/

theorem poke_tables {ok : Nat → Bool} {va : Nat} {bs : List UInt8}
    (h : poke d ok va bs s = .ok (u, s')) : s'.freelist = s.freelist ∧ s'.file = s.file := by
  induction bs generalizing va s with
  | nil =>
    obtain ⟨-, rfl⟩ := pure_ok.1 h
    exact ⟨rfl, rfl⟩
  | cons b bs ih =>
    simp only [poke, bind_ok] at h
    obtain ⟨f, s1, hf, _, s2, hset, h⟩ := h
    obtain ⟨rfl, -⟩ := translate_ok hf
    obtain ⟨h1, h2⟩ := ih h
    cases hset
    exact ⟨h1, h2⟩

def PipeOnly (s s' : Kernel) : Prop :=
  ∀ g, s.freelist.count g + pipeUse s.file g = s'.freelist.count g + pipeUse s'.file g

theorem FdStep.pipeOnly {E : Nat → Nat} (h : FdStep p s s' E) (hh : s'.hist = s.hist) :
    PipeOnly s s' := by
  intro g
  have := h.moved.count g
  simp only [pool, hh] at this
  omega

theorem PipeOnly.free (h : PipeOnly s s') (hg : LivePipe s.file g) (hg' : ¬ LivePipe s'.file g) :
    g ∈ s'.freelist := by
  have hcount := h g
  have hone : pipeUse s.file g = 1 := if_pos hg
  have hzero : pipeUse s'.file g = 0 := if_neg hg'
  exact List.count_pos_iff.1 (by omega)

def Call.onFiles : Call → Prop
  | .pipe _ | .close _ | .dup _ | .open _ _ | .exit => True
  | _ => False

section
variable (hi : Inv L s) (hp : p < NPROC) (hlive : Alive s.proc p)
include hi hp hlive

theorem sysPipe_pipeOnly {r : Int} (h : sysPipe L p fd s = .ok (r, s')) : PipeOnly s s' := by
  have hhist : SameHist s s' := Respects.ok .sysPipe h
  rcases sysPipe_cases h hp hlive hi.files fun f => (by
    have := (hi.own_proc hp).le_one f
    omega) with hstep | ⟨s1, d, u, bs, hstep, -, -, -, hpoke⟩
  · exact hstep.pipeOnly hhist
  · obtain ⟨h1, h2⟩ := poke_tables hpoke
    have hh : SameHist s1 s' := Respects.ok .poke hpoke
    have := hstep.pipeOnly (hh.symm.trans hhist)
    unfold PipeOnly at this ⊢
    rwa [h1, h2]

theorem exit_pipeOnly (h : exit L p s = .ok (u, s')) : PipeOnly s s' := by
  unfold exit at h
  rw [bind_run get_run, ite_ok] at h
  rcases h with ⟨-, h⟩ | ⟨-, h⟩
  · rw [bind_ok] at h
    obtain ⟨_, _, hth, -⟩ := h
    cases hth
  · simp only [bind_ok] at h
    obtain ⟨_, s1, hcl, _, s2, hmod, _, _, hg, hset⟩ := h
    cases hmod
    cases hg
    cases hset
    exact (closeFiles_spec hcl hp hlive hi.files rfl).1.pipeOnly
      (Respects.ok (R := SameHist) .closeFiles hcl)

theorem call_pipeOnly {c : Call} {r : Option Int} (hon : c.onFiles)
    (hc : call L p c s = .ok (r, s')) : PipeOnly s s' := by
  cases c with
  | pipe fd => exact (some_map_ok hc).elim fun _ hc => sysPipe_pipeOnly hi hp hlive hc
  | close fd =>
    obtain ⟨r', hc⟩ := some_map_ok hc
    exact (sysClose_spec hp hlive hi.files hc).pipeOnly
      (Respects.ok (R := SameHist) .sysClose hc)
  | dup fd =>
    obtain ⟨r', hc⟩ := some_map_ok hc
    exact (sysDup_spec hp hlive hi.files hc).pipeOnly
      (Respects.ok (R := SameHist) .sysDup hc)
  | «open» b c =>
    obtain ⟨r', hc⟩ := some_map_ok hc
    exact (sysOpen_spec hp hlive hi.files hc).pipeOnly
      (Respects.ok (R := SameHist) .sysOpen hc)
  | exit =>
    simp only [call, bind_ok] at hc
    obtain ⟨_, s1, hc, hr⟩ := hc
    obtain ⟨-, rfl⟩ := pure_ok.1 hr
    exact exit_pipeOnly hi hp hlive hc
  | _ => exact hon.elim

end

def KeepsLive (s s' : Kernel) : Prop := ∀ g, LivePipe s.file g → LivePipe s'.file g

instance : Pages KeepsLive where
  refl _ _ h := h
  trans h h' g hg := h' g (h g hg)
  mem _ _ _ _ h := h
  take _ _ _ _ _ _ h := h
  free _ _ _ _ h := h

instance : ProcTable KeepsLive := ⟨fun _ _ _ _ _ h => h⟩

instance : Drops KeepsLive := ⟨fun _ _ _ h => h⟩

instance : Dups KeepsLive := ⟨fun f s _ s' h g hg => by
  obtain ⟨hpos, rfl⟩ := filedup_ok h
  obtain ⟨k, hk, hr, ht, hp⟩ := hg
  refine ⟨k, hk, ?_⟩
  by_cases hkf : k = f
  · subst hkf
    simp [ht, hp]
  · simp [hkf, hr, ht, hp]⟩

/-- **The page of a pipe is freed with its last file.** -/
theorem call_frees {c : Call} {r : Option Int} (hi : Inv L s) (hp : p < NPROC)
    (hlive : Alive s.proc p) (hne : ∀ ip argv, c ≠ .exec ip argv) (hc : call L p c s = .ok (r, s'))
    (hg : LivePipe s.file g) (hg' : ¬ LivePipe s'.file g) : g ∈ s'.freelist := by
  by_cases hon : c.onFiles
  · exact (call_pipeOnly hi hp hlive hon hc).free hg hg'
  · have hkeep : KeepsLive s s' := by
      cases c with
      | exec ip argv => exact absurd rfl (hne ip argv)
      | fork => exact Respects.ok (.map .fork) hc
      | sbrk n => exact Respects.ok (.map .sysSbrk) hc
      | kill pid => exact Respects.ok (.map .kill) hc
      | wait => exact Respects.ok .wait hc
      | store va b => exact Respects.ok (.bind .curdir fun _ => .bind .poke fun _ => .pure) hc
      | _ => exact absurd trivial hon
    exact absurd (hkeep g hg) hg'

/-! ## Runs -/

structure BusyInv (L : Layout) (x : Busy) : Prop where
  inv : Inv L x.kernel
  inside : ∀ p g, x.inside p = some g → p < NPROC ∧ Alive x.kernel.proc p ∧
    ∃ fd < NOFILE, ∃ k, (x.kernel.proc p).ofile fd = some k ∧ (x.kernel.file k).type = .pipe ∧
      (x.kernel.file k).pipe = g

theorem BusyInv.live {x : Busy} (h : BusyInv L x) (hp : x.inside p = some g) :
    LivePipe x.kernel.file g := by
  obtain ⟨hpn, -, fd, hfd, k, hk, ht, hg⟩ := h.inside p g hp
  have hlt := h.inv.files.lt p hpn fd hfd k hk
  refine ⟨k, hlt, ?_, ht, hg⟩
  rw [h.inv.files.ref k hlt]
  exact refs_pos hpn hfd hk

theorem BusyInv.step {x x' : Busy} (h : BusyInv L x) (hs : Busy.Step L x x') : BusyInv L x' := by
  cases hs with
  | @call s' p c r hp hr hin hne hv hc =>
    have hlive := alive_of_run hr
    obtain ⟨q, hq, hstep⟩ := call_step h.inv hp hlive hc fun ip argv he => absurd he (hne ip argv)
    have hi' := h.inv.step hq hstep
    refine ⟨hi', fun i g hig => ?_⟩
    obtain ⟨hin', ha, fd, hfd, k, hk, ht, hg⟩ := h.inside i g hig
    have hip : i ≠ p := by
      rintro rfl
      rw [hin] at hig
      cases hig
    obtain ⟨d, _, hsp⟩ := h.inv.space i hin' ha.1
    obtain ⟨hkeep, -, hfiles⟩ :=
      call_undisturbed h.inv hp hlive hc (fun ip argv he => absurd he (hne ip argv))
      hin' hip ha hsp
    obtain ⟨hk', h1, h2⟩ := hfiles fd hfd k hk
    exact ⟨hin', ⟨hkeep.state.trans_ne ha.1, hkeep.state.trans_ne ha.2⟩, fd, hfd, k, hk', h1.trans ht,
      h2.trans hg⟩
  | @enter p fd g write hp hr hin hon =>
    obtain ⟨hfd, k, hk, ht, hg, -⟩ := hon
    refine ⟨h.inv, fun i g' hig => ?_⟩
    by_cases hip : i = p
    · subst hip
      simp only [update_self, Option.some.injEq] at hig
      exact ⟨hp, alive_of_run hr, fd, hfd, k, hk, ht, hg.trans hig⟩
    · simp only [update_of_ne hip] at hig
      exact h.inside i g' hig
  | @leave p =>
    refine ⟨h.inv, fun i g hig => ?_⟩
    by_cases hip : i = p
    · subst hip
      simp at hig
    · simp only [update_of_ne hip] at hig
      exact h.inside i g hig

theorem busy_inv {x : Busy} (h : Busy.Reach L x) : BusyInv L x := by
  induction h with
  | boot h => exact ⟨boot_inv h, fun _ _ hp => by cases hp⟩
  | step _ hs ih => exact ih.step hs

theorem Inv.live_not_free (h : Inv L s) (hg : LivePipe s.file g) : g ∉ s.freelist := by
  intro hmem
  have h1 := h.le_one (f := g)
  have h2 := pipeUse_pos.2 hg
  have h3 := List.count_pos_iff.2 hmem
  unfold pool uses at h1
  omega

/-- **Reference counts of open files.** Each file's reference count is the number of descriptors
that name it; the page of a pipe is put on the free list exactly when no open file refers to it any
more; and the pipe that a process is inside of is open. -/
theorem open_file_refs {x : Busy} (h : Busy.Reach L x) :
    (∀ k < NFILE, (x.kernel.file k).ref = refs x.kernel.proc k) ∧
    (∀ k < NFILE, (x.kernel.file k).ref = 0 → (x.kernel.file k).type = .none) ∧
    (∀ x', Busy.Step L x x' → ∀ g, LivePipe x.kernel.file g →
      g ∉ x.kernel.freelist ∧ (g ∈ x'.kernel.freelist ↔ ¬ LivePipe x'.kernel.file g)) ∧
    (∀ p < NPROC, (x.kernel.proc p).state = .runnable ∨ (x.kernel.proc p).state = .running →
      ∀ c r s', c.onFiles → call L p c x.kernel = .ok (r, s') → PipeOnly x.kernel s') ∧
    ∀ p g, x.inside p = some g → LivePipe x.kernel.file g ∧ g ∉ x.kernel.freelist := by
  have hb := busy_inv h
  refine ⟨fun k hk => hb.inv.files.ref k hk, hb.inv.files.pipes.closed, fun x' hs g hg => ?_,
    fun p hp hr c r s' hon hc => call_pipeOnly hb.inv hp (alive_of_run hr) hon hc,
    fun p g hp => ⟨hb.live hp, hb.inv.live_not_free (hb.live hp)⟩⟩
  have hfree := hb.inv.live_not_free hg
  have hb' := hb.step hs
  refine ⟨hfree, fun hmem hg' => hb'.inv.live_not_free hg' hmem, fun hg' => ?_⟩
  cases hs with
  | call hp hr hin hne hv hc =>
    exact call_frees hb.inv hp (alive_of_run hr) hne hc hg hg'
  | enter => exact absurd hg hg'
  | leave => exact absurd hg hg'

/-! ## A pipe of two processes -/

theorem poke_steady {t : Nat} (va : Nat) (bs : List UInt8) (hs : Solo s.mem d)
    (hpde : ent s.mem d 0 = userPte t) (hpte : entry s.mem d 0 0 = some (userPte g))
    (hva : va + bs.length ≤ PGSIZE) : ∃ m, Steady (poke d writable va bs) s () { s with mem := m } ∧
      entry m d 0 0 = entry s.mem d 0 0 := by
  induction bs generalizing va s with
  | nil => exact ⟨s.mem, fun _ => rfl, rfl⟩
  | cons b bs ih =>
    rw [List.length_cons] at hva
    have hdx : pdx va = 0 := by unfold pdx PGSIZE at *; omega
    have htx : ptx va = 0 := by unfold ptx PGSIZE at *; omega
    have hnext : (va + 1) % UINT = va + 1 := Nat.mod_eq_of_lt (by unfold PGSIZE UINT at *; omega)
    have htr := translate_steady va writable (by rw [hdx]; exact hpde) present_mkPte writable_userPte
      (by rw [hdx, htx]; exact hpte) present_mkPte writable_userPte
    have hsame := fun q => hs.same_user (p := q) (by decide) (by decide) hpte present_mkPte
    obtain ⟨m, hrun, hm⟩ := ih
      (s := { s with mem := update s.mem (pteAddr (userPte g)) _ }) (va + 1)
      ((hsame _).solo hs) ((hsame _).ent.trans hpde) (((hsame _).entry (by decide)).trans hpte)
      (show va + 1 + bs.length ≤ PGSIZE by omega)
    refine ⟨m, htr.bind (steady_setBytes.bind ?_), hm.trans ((hsame _).entry (by decide))⟩
    rw [hnext]
    exact hrun

theorem filealloc_steady (hf : k < NFILE) (h0 : (s.file k).ref = 0) (hlt : ∀ j < k, (s.file j).ref ≠ 0) :
    Steady filealloc s (some k) { s with file := update s.file k { s.file k with ref := 1 } } :=
    fun fs => by
  have hfind : ((List.range NFILE).find? fun f => (s.file f).ref = 0) = some k :=
    List.find?_range_eq_some.2 ⟨by simpa using h0, List.mem_range.2 hf, by simpa using hlt⟩
  unfold filealloc
  rw [bind_run get_run]
  simp only [hfind]
  rfl

theorem fdalloc_steady (fd : Nat) (hf : fd < NOFILE) (h0 : (s.proc p).ofile fd = none)
    (hlt : ∀ j < fd, (s.proc p).ofile j ≠ none) : Steady (fdalloc p k) s (some fd) { s with
      proc := update s.proc p { s.proc p with ofile := update (s.proc p).ofile fd (some k) } } :=
        fun fs => by
  have hfind : ((List.range NOFILE).find? fun fd => ((s.proc p).ofile fd).isNone) = some fd :=
    List.find?_range_eq_some.2 ⟨by simp [h0], List.mem_range.2 hf,
    fun j hj => by simpa [Option.isSome_iff_ne_none] using hlt j hj⟩
  unfold fdalloc
  rw [bind_run get_run]
  simp only [hfind]
  rfl

def BusyUp (L : Layout) (s : Kernel) : Prop := ∀ fs, Busy.Reach L ⟨{ s with fail := fs }, fun _ => none⟩

theorem BusyUp.call {c : Call} {r : Option Int} (h : BusyUp L s) (hp : p < NPROC)
    (hr : (s.proc p).state = .runnable) (hne : ∀ ip argv, c ≠ .exec ip argv) (hv : ∀ s, c.Valid s p)
    (hc : Runs (Vm.call L p c) s r s') : BusyUp L s' := by
  obtain ⟨k, hc⟩ := hc
  exact fun fs => (h (List.replicate k false ++ fs)).step (.call hp (.inl hr) rfl hne (hv _) (hc fs))

theorem runs_map {α β : Type} {m : KM α} {h : α → β} {v : α} (hm : Runs m s v s') :
    Runs (h <$> m) s (h v) s' := by
  obtain ⟨k, hm⟩ := hm
  refine ⟨k, fun fs => ?_⟩
  rw [map_eq_pure_bind, bind_run (hm fs)]
  rfl

theorem pipealloc_runs (h : ∀ k, (s.file k).ref = 0) (hfl : 0 < s.freelist.length) :
    ∃ s' g, Runs (pipealloc L) s (some (0, 1)) s' ∧ s'.file 0 = ⟨1, .pipe, true, false, g⟩ ∧
      s'.proc = s.proc ∧ s'.mem = s.mem ∧ s'.freelist.length + 1 = s.freelist.length := by
  obtain ⟨g, fl, hfl⟩ := List.exists_cons_of_length_pos hfl
  have ha := filealloc_steady (s := s) (k := 0) (by decide) (h 0) (by simp)
  have hb := filealloc_steady (s := { s with file := update s.file 0 { s.file 0 with ref := 1 } })
    (k := 1)
    (by decide) (by simp [h 1]) (by simp)
  refine ⟨{ s with
    freelist := fl, pipe := update s.pipe g ⟨true, true⟩
    file := update
      (update (update (update s.file 0 { s.file 0 with ref := 1 }) 1 { s.file 1 with ref := 1 })
      0 ⟨1, .pipe, true, false, g⟩) 1 ⟨1, .pipe, false, true, g⟩ }, g,
    ha.runs.bind (hb.runs.bind ((runs_kalloc (by exact hfl)).bind ⟨0, fun fs => rfl⟩)), ?_, rfl, rfl, ?_⟩
  · simp
  · rw [hfl, List.length_cons]

/-- `pipe` of the first process. -/
theorem sysPipe_runs (hs : Solo s.mem d) (h : First s d) : ∃ s' g, Runs (sysPipe L 0 0) s 0 s' ∧
    s'.file 0 = ⟨1, .pipe, true, false, g⟩ ∧ s'.proc = update s.proc 0 { s.proc 0 with
      ofile := update (update (s.proc 0).ofile 0 (some 0)) 1 (some 1) } ∧
    s'.freelist.length + 1 = s.freelist.length ∧ entry s'.mem d 0 0 = entry s.mem d 0 0 := by
  obtain ⟨t, hpde⟩ := h.pde
  obtain ⟨f, hpte⟩ := h.pte
  obtain ⟨s1, g, hpipe, hfile, hproc, hmem, hlen⟩ := pipealloc_runs (L := L) h.file
    (by have := h.free; omega)
  rw [← hmem] at hs hpde hpte
  have h0 := fdalloc_steady (s := s1) (p := 0) (k := 0) 0 (by decide)
    (by rw [hproc]; exact h.ofile 0) (by simp)
  have h1 := fdalloc_steady (s := { s1 with
    proc := update s1.proc 0 { s1.proc 0 with ofile := update (s1.proc 0).ofile 0 (some 0) } })
    (p := 0) (k := 1) 1 (by decide) (by simp [hproc, h.ofile 1]) (by simp)
  simp only [update_self, update_idem] at h1
  rw [hproc] at h0 h1
  generalize hP : update s.proc 0 { s.proc 0 with
    ofile := update (update (s.proc 0).ofile 0 (some 0)) 1 (some 1) } = P at h1 ⊢
  obtain ⟨m, hpoke, hm⟩ := poke_steady (s := { s1 with proc := P }) 0 (word 0 ++ word 1)
    hs hpde hpte (by decide)
  have hcur := curdir_steady (p := 0) (d := d) (s := { s1 with proc := P })
    (by rw [← hP]; simp only [update_self, h.pgdir])
  refine ⟨{ s1 with proc := P, mem := m }, g, ?_, hfile, rfl, hlen, hm.trans (by rw [hmem])⟩
  unfold sysPipe
  refine runs_get (fun _ => rfl) (runs_get (fun _ => rfl) ?_)
  rw [if_neg (by rw [h.sz]; decide)]
  exact hpipe.bind (h0.runs.bind (h1.runs.bind (hcur.runs.bind (hpoke.runs.bind runs_pure))))

/-- `dup` of the first descriptor. -/
theorem sysDup_runs {v : File} (h0 : (s.proc 0).ofile 0 = some 0) (h1 : (s.proc 0).ofile 1 = some 1)
    (h2 : (s.proc 0).ofile 2 = none) (hf : s.file 0 = v) (hv : 0 < v.ref) : Runs (sysDup 0 0) s 2 { s with
      proc := update s.proc 0 { s.proc 0 with ofile := update (s.proc 0).ofile 2 (some 0) }
      file := update s.file 0 { v with ref := v.ref + 1 } } := by
  have hfd := fdalloc_steady (k := 0) (p := 0) 2 (by decide) h2 fun j hj => by
    obtain rfl | rfl : j = 0 ∨ j = 1 := by omega
    · simp [h0]
    · simp [h1]
  have hdup : ∀ P, Runs (filedup 0) { s with proc := P } ()
      { s with proc := P, file := update s.file 0 { v with ref := v.ref + 1 } } := fun P =>
    runs_get (fun _ => rfl) (by
      simp only [hf]
      rw [if_neg (by omega)]
      exact ⟨0, fun _ => rfl⟩)
  unfold sysDup
  refine runs_get (fun _ => rfl) ?_
  simp only [show 0 < NOFILE by decide, if_true, h0]
  exact hfd.runs.bind ((hdup _).bind runs_pure)

theorem four_le_refs {P : Nat → Proc} (hq : q < NPROC) (hne : q ≠ 0) (h0 : (P 0).ofile 0 = some k)
    (h2 : (P 0).ofile 2 = some k) (h0' : (P q).ofile 0 = some k) (h2' : (P q).ofile 2 = some k) :
    4 ≤ refs P k := by
  have hsub : ({(0, 0), (0, 2), (q, 0), (q, 2)} : Finset (Nat × Nat)) ⊆ fdSlots := fun x hx => by
    simp only [mem_insert, mem_singleton] at hx
    rw [mem_fdSlots]
    rcases hx with rfl | rfl | rfl | rfl <;> simp [NPROC, NOFILE] <;> exact hq
  refine le_trans ?_ (sum_le_sum_of_subset hsub)
  rw [sum_insert, sum_insert, sum_insert, sum_singleton] <;> simp [*, oneOf, hne.symm]

/-- The first process has opened a pipe and duplicated its end for reading; its `fork` succeeds. -/
theorem first_pipes : ∃ s d g, BusyUp smallLayout s ∧ (s.proc 0).state = .runnable ∧
    Forks smallLayout 0 d s ∧ (s.proc 0).ofile 0 = some 0 ∧ (s.proc 0).ofile 2 = some 0 ∧
    s.file 0 = ⟨2, .pipe, true, false, g⟩ := by
  obtain ⟨s, d, ⟨k, hrun⟩, hfirst⟩ := main_runs smallLayout_first
  have hup : BusyUp smallLayout s := fun fs => .boot (hrun fs)
  have hi : Inv smallLayout s := (busy_inv (hup [])).inv.fail
  have hst : (s.proc 0).state ≠ .unused := by simp [hfirst.state]
  obtain ⟨_, hsp⟩ := hi.space_of (by decide) hst hfirst.pgdir
  obtain ⟨s1, g, hpipe, hfile, hproc, hlen, hentry⟩ :=
    sysPipe_runs (L := smallLayout) (hi.own_dir (by decide) hst hsp).solo hfirst
  have hup1 := hup.call (c := .pipe 0) (by decide) hfirst.state (fun _ _ h => by cases h)
    (fun _ => trivial) (runs_map hpipe)
  have hdup :=
    sysDup_runs (s := s1) (by simp [hproc]) (by simp [hproc]) (by simp [hproc, hfirst.ofile]) hfile
    Nat.one_pos
  have hup2 := hup1.call (c := .dup 0) (by decide) (by simp [hproc, hfirst.state])
    (fun _ _ h => by cases h) (fun _ => trivial)
    (runs_map hdup)
  have hfull : ∀ x, x * PGSIZE < PGSIZE → mapping s1.mem d x ≠ none := fun x hx => by
    obtain rfl : x = 0 := by unfold PGSIZE at hx; omega
    obtain ⟨f, hf⟩ := hfirst.pte
    rw [mapping_some.2 ⟨rfl, ?_⟩]
    · simp
    · rw [pageEnt, show entry s1.mem d (0 / 1024) (0 % 1024) = _ from hentry.trans hf, Option.getD_some,
        present_mkPte]
  have hfree := hfirst.free
  have hi2 := (busy_inv (hup2 [])).inv.fail
  refine ⟨_, d, g, hup2, ?_, hi2.forks (by decide) ?_ ?_ ?_ ⟨1, by decide, ?_⟩ ?_, ?_, ?_, ?_⟩
  all_goals simp only [hproc, update_self, hfirst.state, hfirst.pgdir, hfirst.sz]
  · decide
  · exact hfull
  · exact hfirst.unused 1 (by decide)
  · rw [show pageCount PGSIZE = 1 from rfl]
    omega
  · rfl

/-- After `pipe`, `dup` and `fork` of the first process four descriptors name the file for reading. -/
theorem open_file_refs_forked : ∃ x g, Busy.Reach smallLayout x ∧ LivePipe x.kernel.file g ∧
    g ∉ x.kernel.freelist ∧ 4 ≤ (x.kernel.file 0).ref ∧
    ∀ k < NFILE, (x.kernel.file k).ref = refs x.kernel.proc k := by
  obtain ⟨s, d, g, hup, hst, ⟨n, hforks⟩, h0, h2, hfile⟩ := first_pipes
  obtain ⟨s', q, hq, e, hrun, hfree, hchild⟩ := hforks []
  have hx := hup (List.replicate n false ++ [])
  have hi := (busy_inv hx).inv
  have hun : (s.proc 0).state ≠ .unused := by simp [hst]
  have hcall : Vm.call smallLayout 0 .fork { s with fail := List.replicate n false ++ [] } =
      .ok (some (s'.proc q).pid, s') := by
    simp only [Vm.call, map_eq_pure_bind, bind_run hrun]
    rfl
  have hx' :=
    hx.step (.call (c := .fork) (by decide) (.inl hst) rfl (fun _ _ h => by cases h) trivial hcall)
  obtain ⟨_, _, hsp⟩ := hi.space 0 (by decide) hun
  obtain ⟨hP, -, hkeep⟩ := fork_keeps hi (by decide) hun hrun (by decide) hun hsp
  have hq0 : q ≠ 0 := by
    rintro rfl
    exact hun hfree
  obtain ⟨hrefs, -, hpipes, -⟩ := open_file_refs hx'
  have hfour : 4 ≤ (s'.file 0).ref := by
    rw [show (s'.file 0).ref = refs s'.proc 0 from hrefs 0 (by decide)]
    exact four_le_refs hq hq0 (by rw [hP]; exact h0) (by rw [hP]; exact h2)
      ((hchild.files 0 (by decide)).trans h0) ((hchild.files 2 (by decide)).trans h2)
  obtain ⟨-, ht, hg⟩ := hkeep 0 (by decide) 0 h0
  have hlive : LivePipe s'.file g :=
    ⟨0, by decide, by omega, by simp only [ht, hfile], by simp only [hg, hfile]⟩
  exact ⟨_, g, hx', hlive, (hpipes _ (.leave (p := 0)) g hlive).1, hfour, hrefs⟩

end Vm
