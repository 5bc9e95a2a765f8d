import Xv6.Vm.Proof.Calls

/-!
# Runs of the system

`main` establishes the invariant and every system call keeps it, as long as `uva2ka` never read
through a null pointer (`reach_inv`). Isolation and conservation of pages follow for every
reachable state.
-/

namespace Vm

open Bytes Panic Param Finset Function

variable {L : Layout} {s s' : Kernel} {X R : Nat → Nat} {d f g k n p q : Nat} {u : Unit}

theorem some_map_ok {m : KM Int} {r : Option Int} (h : (some <$> m) s = .ok (r, s')) :
    ∃ r', m s = .ok (r', s') := by
  rw [map_eq_pure_bind, bind_ok] at h
  obtain ⟨r', s1, hm, hr⟩ := h
  obtain ⟨-, rfl⟩ := pure_ok.1 hr
  exact ⟨r', hm⟩

/-- **Every system call is a step of some process.** -/
theorem call_step {c : Call} {r : Option Int} (h : Inv L s) (hp : p < NPROC)
    (hlive : Alive s.proc p) (hc : call L p c s = .ok (r, s'))
    (hnull : ∀ ip argv, c = .exec ip argv → .nullPte ∉ s'.hist) : ∃ q < NPROC, Step s s' q := by
  cases c with
  | fork =>
    obtain ⟨r', hc⟩ := some_map_ok hc
    obtain ⟨q, hq, hs, -⟩ := fork_step h hp hlive.1 hc
    exact ⟨q, hq, hs⟩
  | exec ip argv =>
    obtain ⟨r', hc⟩ := some_map_ok hc
    exact ⟨p, hp, exec_step h hp hlive.1 hc (hnull ip argv rfl)⟩
  | sbrk n =>
    obtain ⟨r', hc⟩ := some_map_ok hc
    exact ⟨p, hp, sbrk_step h hp hlive.1 hc⟩
  | exit =>
    simp only [call, bind_ok] at hc
    obtain ⟨_, s1, hc, hr⟩ := hc
    obtain ⟨-, rfl⟩ := pure_ok.1 hr
    exact ⟨p, hp, exit_step h hp hlive hc⟩
  | wait => exact wait_step h hp hc
  | pipe fd =>
    obtain ⟨r', hc⟩ := some_map_ok hc
    exact ⟨p, hp, pipe_step h hp hlive hc⟩
  | close fd =>
    obtain ⟨r', hc⟩ := some_map_ok hc
    exact ⟨p, hp, h.step_fd hp (sysClose_spec hp hlive h.files hc)⟩
  | dup fd =>
    obtain ⟨r', hc⟩ := some_map_ok hc
    exact ⟨p, hp, h.step_fd hp (sysDup_spec hp hlive h.files hc)⟩
  | «open» b c =>
    obtain ⟨r', hc⟩ := some_map_ok hc
    exact ⟨p, hp, h.step_fd hp (sysOpen_spec hp hlive h.files hc)⟩
  | kill pid =>
    obtain ⟨r', hc⟩ := some_map_ok hc
    exact kill_step h hp hc
  | store va b =>
    simp only [call] at hc
    rw [← bind_assoc, bind_ok] at hc
    obtain ⟨_, s1, hc, hr⟩ := hc
    obtain ⟨-, rfl⟩ := pure_ok.1 hr
    exact ⟨p, hp, store_step h hp hlive.1 hc⟩

/-! ## `main` -/

def run (f n g : Nat) : Nat := if f ≤ g ∧ g < f + n then 1 else 0

theorem freePages_trans (h : freePages L n f s = .ok (u, s')) :
    Trans s (fun g => X g + run f n g) s' X := by
  induction n generalizing f s with
  | zero =>
    obtain ⟨-, rfl⟩ := pure_ok.1 h
    refine Trans.refl.congr (fun g => ?_) fun _ => rfl
    rw [run, if_neg (by omega), Nat.add_zero]
  | succ n ih =>
    unfold freePages at h
    rw [bind_ok] at h
    obtain ⟨_, s1, hf, h⟩ := h
    refine ((kfree_trans (X := fun g => X g + run (f + 1) n g) hf).congr (fun g => ?_)
      fun _ => rfl).trans (ih h)
    unfold run one
    split <;> split <;> split <;> omega

theorem reserve_moved (h : reserve n s = .ok (u, s')) :
    (∀ f, pool s' f + s'.held.count f = pool s f + s.held.count f) ∧ s'.mem = s.mem ∧
      s'.kpgdir = s.kpgdir ∧ s'.proc = s.proc ∧ s'.file = s.file := by
  induction n generalizing s with
  | zero =>
    obtain ⟨-, rfl⟩ := pure_ok.1 h
    exact ⟨fun _ => rfl, rfl, rfl, rfl, rfl⟩
  | succ n ih =>
    unfold reserve at h
    rw [bind_ok] at h
    obtain ⟨o, s1, hk, h⟩ := h
    cases o with
    | none => cases h
    | some g =>
      simp only [bind_ok] at h
      obtain ⟨_, s2, hmod, h⟩ := h
      cases hmod
      obtain ⟨hm, ht⟩ := kalloc_some (X := fun _ => 0) hk
      obtain ⟨hc, hmem, hkp, hp, hf⟩ := ih h
      refine ⟨fun f => ?_, hmem.trans hm, hkp.trans ht.kpgdir, hp.trans ht.proc, hf.trans ht.file⟩
      have h1 := hc f
      have h2 := ht.count f
      simp only [ht.held, List.count_cons, beq_iff_eq, one] at h1 h2
      change _ = pool s1 f + _ at h1
      omega

/-- A state of `main` before the first process: the frames `R` are not freed yet. -/
structure Booting (L : Layout) (s : Kernel) (R : Nat → Nat) : Prop where
  count : ∀ f, pool s f + s.held.count f + dirUse s.mem s.kpgdir f + R f =
    if f ∈ pages L then 1 else 0
  unused : ∀ p, (s.proc p).state = .unused ∧ ∀ fd, (s.proc p).ofile fd = none
  closed : ∀ k, (s.file k).ref = 0 ∧ (s.file k).type = .none

theorem Booting.reserve (h : Booting L s R) (hr : Vm.reserve n s = .ok (u, s')) : Booting L s' R := by
  obtain ⟨hc, hmem, hkp, hp, hf⟩ := reserve_moved hr
  refine ⟨fun f => ?_, fun p => hp ▸ h.unused p, fun k => hf ▸ h.closed k⟩
  have h1 := h.count f
  have h2 := hc f
  rw [hmem, hkp]
  omega

theorem Booting.inv (h : Booting L s fun _ => 0) : Inv L s := by
  have hrefs : ∀ k, refs s.proc k = 0 := fun k => by
    by_contra hne
    obtain ⟨p, -, fd, -, hof⟩ := exists_of_refs (Nat.pos_of_ne_zero hne)
    rw [(h.unused p).2] at hof
    cases hof
  have hdead : ∀ f, ¬ LivePipe s.file f := fun f ⟨k, _, hr, _⟩ => by
    rw [(h.closed k).1] at hr
    exact Nat.lt_irrefl 0 hr
  refine ⟨fun f => ?_, fun p _ hn => absurd (h.unused p).1 hn, fun k _ => ?_, fun p _ fd _ k hk => ?_,
    fun p _ _ fd _ => (h.unused p).2 fd, fun k _ _ => ?_, fun k k' f hk => absurd ⟨k, hk⟩ (hdead f),
    fun f hf => absurd hf (hdead f)⟩
  · have hsum : ∑ p ∈ range NPROC, procUse s p f = 0 :=
      sum_eq_zero fun p _ => procUse_unused (h.unused p).1
    rw [← h.count f, uses, hsum, pipeUse, if_neg (hdead f)]
    omega
  · rw [(h.closed k).1, hrefs]
  · rw [(h.unused p).2] at hk
    cases hk
  · exact (h.closed k).2

def firstPage (L : Layout) : Nat := (L.kend + PGSIZE - 1) / PGSIZE - KERNBASE / PGSIZE

theorem firstPage_bounds : 256 < firstPage L ∧ firstPage L ≤ 1024 := by
  have h1 := L.kend_lt
  have h2 := L.data_gt
  have h3 := L.data_le
  unfold firstPage
  unfold KERNLINK EXTMEM at h2
  unfold KERNBASE PGSIZE at *
  omega

theorem freerange_low : freerange L L.kend (KERNBASE + 4 * 1024 * 1024) =
    freePages L (1024 - firstPage L) (firstPage L) := by
  have h1 := L.kend_lt
  have h2 := L.data_gt
  have h3 := L.data_le
  unfold KERNLINK EXTMEM at h2
  have hn : (KERNBASE + 4 * 1024 * 1024 - (L.kend + PGSIZE - 1) / PGSIZE * PGSIZE) / PGSIZE =
      1024 - firstPage L := by
    unfold firstPage KERNBASE PGSIZE at *
    omega
  have hf : ((L.kend + PGSIZE - 1) / PGSIZE * PGSIZE - KERNBASE) / PGSIZE = firstPage L := by
    unfold firstPage KERNBASE PGSIZE at *
    omega
  rw [freerange, hn, hf]

theorem freerange_high : freerange L (KERNBASE + 4 * 1024 * 1024) (KERNBASE + PHYSTOP) =
    freePages L (PHYSTOP / PGSIZE - 1024) 1024 := rfl

theorem pages_split (f : Nat) : run (firstPage L) (1024 - firstPage L) f +
    run 1024 (PHYSTOP / PGSIZE - 1024) f = if f ∈ pages L then 1 else 0 := by
  obtain ⟨h1, h2⟩ := firstPage_bounds (L := L)
  have hm : f ∈ pages L ↔ firstPage L ≤ f ∧ f < PHYSTOP / PGSIZE := mem_pages
  unfold PHYSTOP PGSIZE at *
  by_cases hf : f ∈ pages L
  · rw [if_pos hf]
    have := hm.1 hf
    unfold run
    split <;> split <;> omega
  · rw [if_neg hf]
    rw [hm] at hf
    unfold run
    split <;> split <;> omega

def bootPages (L : Layout) (others drivers : Nat) : KM Unit := do
  freerange L L.kend (KERNBASE + 4 * 1024 * 1024)
  kvmalloc L
  reserve others
  freerange L (KERNBASE + 4 * 1024 * 1024) (KERNBASE + PHYSTOP)
  reserve drivers

theorem main_eq {others drivers : Nat} {init : List UInt8} :
    main L others drivers init = bootPages L others drivers >>= fun _ => userinit L init := by
  simp only [main, bootPages, bind_assoc]

theorem freerange_first {m : Nat → Store} {fail : List Bool} {s1 : Kernel}
    (h : freePages L (1024 - firstPage L) (firstPage L) (.blank m fail) = .ok (u, s1)) :
    Trans (.blank m fail) (fun f => run 1024 (PHYSTOP / PGSIZE - 1024) f +
        run (firstPage L) (1024 - firstPage L) f) s1 (run 1024 (PHYSTOP / PGSIZE - 1024)) ∧
      (∀ f, pool s1 f + run 1024 (PHYSTOP / PGSIZE - 1024) f = if f ∈ pages L then 1 else 0) ∧
      Own s1 fun _ => 0 := by
  have ht := freePages_trans (X := run 1024 (PHYSTOP / PGSIZE - 1024)) h
  have hcount : ∀ f, pool s1 f + run 1024 (PHYSTOP / PGSIZE - 1024) f =
      if f ∈ pages L then 1 else 0 := fun f => by
    have h1 := ht.count f
    have h2 := pages_split (L := L) f
    have h3 : pool (.blank m fail) f = 0 := rfl
    omega
  refine ⟨ht, hcount, fun f => ?_, fun f hf => ?_⟩
  · have := hcount f
    split at this <;> omega
  · have := hcount f
    split at this
    · rename_i hm
      have hlt := (mem_pages.1 hm).2
      unfold PHYSTOP PGSIZE at hlt
      omega
    · omega

theorem boot_booting {others drivers : Nat} {m : Nat → Store} {fail : List Bool}
    (h : bootPages L others drivers (.blank m fail) = .ok (u, s)) : Booting L s fun _ => 0 := by
  unfold bootPages at h
  rw [freerange_low, freerange_high] at h
  simp only [bind_ok] at h
  obtain ⟨_, s1, hfr, _, s2, hkv, _, s3, hres, _, s4, hfr', hres'⟩ := h
  obtain ⟨ht, hcount, ho⟩ := freerange_first hfr
  unfold kvmalloc at hkv
  rw [bind_ok] at hkv
  obtain ⟨o, s1', hset, hkv⟩ := hkv
  rcases setupkvm_spec hset ho with ⟨rfl, -⟩ | ⟨d, rfl, hb⟩
  · cases hkv
  have htk := hb.trans
  cases hkv
  have hb2 : Booting L { s1' with kpgdir := d } (run 1024 (PHYSTOP / PGSIZE - 1024)) := by
    refine ⟨fun f => ?_, fun p => ?_, fun k => ?_⟩
    · have h1 := hcount f
      have h2 : pool s1 f + 0 = pool s1' f + dirUse s1'.mem d f := htk.count f
      have h3 : s1'.held = [] := htk.held.trans ht.held
      simp only [h3, List.count_nil]
      change pool s1' f + 0 + dirUse s1'.mem d f + _ = _
      omega
    · simp only [htk.proc, ht.proc]
      exact ⟨rfl, fun _ => rfl⟩
    · simp only [htk.file, ht.file]
      exact ⟨rfl, rfl⟩
  have hb3 := hb2.reserve hres
  have ht4 := freePages_trans (X := fun _ => 0) hfr'
  have hsame : SameDir s3.mem s4.mem s3.kpgdir := ht4.same fun f hf => by
    have h1 := hb3.count f
    split at h1 <;> omega
  have hb4 : Booting L s4 fun _ => 0 := by
    refine ⟨fun f => ?_, fun p => ht4.proc ▸ hb3.unused p, fun k => ht4.file ▸ hb3.closed k⟩
    have h1 := hb3.count f
    have h2 := ht4.count f
    rw [ht4.held, ht4.kpgdir, hsame.dirUse]
    omega
  exact hb4.reserve hres'

theorem inituvm_spec {init : List UInt8} (h : inituvm d init s = .ok (u, s'))
    (ho : Own s (dirUse s.mem d)) : Grown s s' d := by
  unfold inituvm at h
  simp only [ite_ok, bind_ok] at h
  rcases h with ⟨-, _, _, hth, -⟩ | ⟨-, o, s1, hk, h⟩
  · cases hth
  cases o with
  | none => cases h
  | some g =>
    simp only [bind_ok] at h
    obtain ⟨_, s2, hset, b, s3, hmp, h⟩ := h
    cases hset
    obtain ⟨fs, ⟨hr, -⟩ | ⟨_, fl, hr, hfl, rfl⟩⟩ := kalloc_cases hk <;> cases hr
    rcases (mappages_pages (c := False) (w := False) (x := 0) (PTE_W ||| PTE_U) (by decide) hfl ho
      (by decide) False.elim False.elim).ends.ok hmp with ⟨rfl, hp⟩ | ⟨rfl, fs', rfl⟩
    · have hw : pteAddr (userPte g) = g := pteAddr_userPte
      simp only [Bool.not_true, Bool.false_eq_true, if_false] at h
      rw [← hw] at h
      exact hp.toGrown.comp (touched_setBytes h (ho.trans hp.trans) (by decide) (by decide)
        (entry_of_mapping hp.new) present_mkPte).grown
    · obtain ⟨hsame, ht0⟩ := take_page (l := fs') (p := fill 0) hfl ho
      have ht4 := ht0.trans note_leak
      simp only [Bool.not_false, if_true, bind_ok] at h
      obtain ⟨_, s4, hnote, h⟩ := h
      cases hnote
      cases h
      -- the dropped page is written; it belongs to the pool
      have hsame' : ∀ p, SameDir (update s.mem g (fill 0)) (update (update s.mem g (fill 0)) g p)
        d := fun p =>
        (trans_setMem (X := fun _ => 0) (s := { s with
          fail := fs', freelist := fl, mem := update s.mem g (fill 0), hist := .leak g :: s.hist })
          (by simp [pool])).same fun f hf => by
          have := (ho.trans ht4).le_one f
          simp only at this hf
          omega
      exact ⟨ht4.trans ((trans_setMem (by simp [pool])).congr (fun _ => rfl) fun f => (hsame' _).dirUse),
        fun hc => (hsame' _).kernelClean (hsame.kernelClean hc)⟩

theorem userinit_inv {init : List UInt8} (h : Inv L s) (hc : userinit L init s = .ok (u, s')) :
    Inv L s' := by
  have ho : Own s fun _ => 0 := h.own fun _ => Nat.zero_le _
  unfold userinit at hc
  rw [bind_ok] at hc
  obtain ⟨o, s1, ha, hc⟩ := hc
  rcases (allocproc_tries True).ends.ok ha with ⟨q, k, rfl, hem⟩ | ⟨rfl, -⟩
  rotate_left
  · cases hc
  obtain ⟨hq, hun⟩ := hem.slot
  obtain ⟨-, hm, -, -, hfile, hpipe, hP⟩ := hem
  simp only [bind_ok] at hc
  obtain ⟨_, s1', hmod, o, s2, hset, hc⟩ := hc
  cases hmod
  have ho1 : Own s1 fun _ => 0 := (ho.moved hm).mono fun _ => Nat.zero_le _
  rcases setupkvm_spec hset ⟨ho1.le_one, ho1.lt⟩ with ⟨rfl, -⟩ | ⟨d, rfl, hdir⟩
  · cases hc
  have ht := hdir.trans
  simp only [bind_ok, get_run, Except.ok.injEq, Prod.mk.injEq] at hc
  obtain ⟨_, _, ⟨rfl, rfl⟩, _, s3, hset, _, s4, hini, _, _, ⟨rfl, rfl⟩, hset'⟩ := hc
  cases hset
  cases hset'
  have ht1 : Moved s1 (fun _ => 0) s2 (dirUse s2.mem d) :=
    ⟨ht.count, ht.mem, ht.held, ht.kpgdir, ht.hist⟩
  have hm2 : Moved s (fun _ => 0) s2 fun f => dirUse s2.mem d f + one k f :=
    (hm.congr (fun _ => rfl) fun f => Nat.zero_add _).trans (ht1.frame (one k))
  have ho2 : Own s2 (dirUse s2.mem d) := (ho.moved hm2).mono fun f => Nat.le_add_right _ _
  have hg := inituvm_spec hini ⟨ho2.le_one, ho2.lt⟩
  have hgt := hg.trans.toMoved.frame (one k)
  have hm4 := hm2.trans ⟨hgt.count, hgt.mem, hgt.held, hgt.kpgdir, hgt.hist⟩
  have hP4 : s4.proc = update s.proc q { s.proc q with
      state := .embryo, pid := s.nextpid, kstack := some k, pgdir := some d } := by
    rw [hg.trans.proc]
    simp only [ht.proc, hP, update_self, update_idem]
  refine h.step hq (h.step_child hun (v := { s.proc q with
      state := .runnable, pid := s.nextpid, kstack := some k, pgdir := some d, sz := PGSIZE })
    ?_ rfl (by simp) rfl rfl (show PGSIZE < KERNBASE by decide) (hg.clean hdir.clean)
    ⟨hm4.count, hm4.mem, hm4.held, hm4.kpgdir, hm4.hist⟩
    (hg.trans.file.trans (ht.file.trans hfile)) (hg.trans.pipe.trans (ht.pipe.trans hpipe)))
  simp only [hP4, update_self, update_idem]

/-! ## Reachable states -/

theorem alive_of_run (h : (s.proc p).state = .runnable ∨ (s.proc p).state = .running) :
    Alive s.proc p := by
  unfold Alive
  rcases h with h | h <;> simp [h]

theorem boot_inv {mem : Nat → Store} {fail : List Bool} {others drivers : Nat} {init : List UInt8}
    (h : main L others drivers init (.blank mem fail) = .ok ((), s)) : Inv L s := by
  rw [main_eq, bind_ok] at h
  obtain ⟨_, s1, hb, hu⟩ := h
  exact userinit_inv (boot_booting hb).inv hu

/-- **The invariant holds in every reachable state**, until `uva2ka` reads through a null pointer. -/
theorem reach_inv (h : Reach L s) (hnull : .nullPte ∉ s.hist) : Inv L s := by
  induction h with
  | boot h => exact boot_inv h
  | step h hp hr hv hc ih =>
    have hi := ih fun hm => hnull ((grows_call _ _ _ hc).subset hm)
    obtain ⟨q, hq, hs⟩ := call_step hi hp (alive_of_run hr) hc fun _ _ _ => hnull
    exact hi.step hq hs

end Vm
