import Xv6.Vm.Proof.Run

/-!
# The system comes up

With a kernel that leaves 513 pages of the first four megabytes free, `main` returns
(`boot_first`): the first process then runs with one page of memory.
-/

namespace Vm

open Bytes Param Function

variable {L : Layout} {s s' : Kernel} {X : Nat → Nat} {m : Nat → Store} {d f g i k n p c x : Nat}

def Up (L : Layout) (s : Kernel) : Prop := ∀ fs, Reach L { s with fail := fs }

theorem Up.call {c : Call} {r : Option Int} (h : Up L s) (hp : p < NPROC)
    (hr : (s.proc p).state = .runnable ∨ (s.proc p).state = .running) (hv : c.Valid s p)
    (hc : Runs (Vm.call L p c) s r s') : Up L s' := by
  obtain ⟨k, hc⟩ := hc
  have hv' : ∀ fs, c.Valid { s with fail := fs } p := fun fs => by cases c <;> exact hv
  exact fun fs => (h (List.replicate k false ++ fs)).step hp hr (hv' _) (hc fs)

theorem up_boot {others drivers : Nat} {init : List UInt8}
    (h : Runs (main L others drivers init) (.blank m []) () s) : Up L s := by
  obtain ⟨k, h⟩ := h
  intro fs
  have hrun : main L others drivers init (.blank m (List.replicate k false ++ fs)) =
      .ok ((), { s with fail := fs }) := h fs
  exact .boot hrun

theorem Inv.fail {fs : List Bool} (h : Inv L { s with fail := fs }) : Inv L s :=
  ⟨h.count, fun p hp hst => by
    obtain ⟨d, k, hsp⟩ := h.space p hp hst
    exact ⟨d, k, hsp.pgdir, hsp.kstack, hsp.clean, hsp.sz⟩,
    ⟨h.files.ref, h.files.lt, h.files.gone, h.files.pipes⟩⟩

theorem Up.inv (h : Up L s) (hh : s.hist = []) : Inv L s :=
  (reach_inv (h []) (by simp [hh])).fail

theorem Inv.within (h : Inv L s) (hX : ∀ f, X f ≤ uses s f) : Within L s X :=
  fun f hf => h.mem_pages (by have := hX f; omega)

theorem Inv.within_dir (h : Inv L s) (hp : p < NPROC) (hst : (s.proc p).state ≠ .unused)
    (hsp : Space s p d k) : Within L s (dirUse s.mem d) :=
  h.within fun f => by
    rw [uses_eq hp, hsp.procUse hst]
    omega

theorem freePages_steady (hf : firstPage L ≤ f) (hn : f + n ≤ PHYSTOP / PGSIZE) :
    ∃ s', Steady (freePages L n f) s () s' ∧ s'.freelist.length = s.freelist.length + n ∧
      s'.hist = s.hist := by
  induction n generalizing f s with
  | zero => exact ⟨s, fun _ => rfl, rfl, rfl⟩
  | succ n ih =>
    have hm : f ∈ pages L := mem_pages.2 ⟨hf, by omega⟩
    obtain ⟨s', hrun, hlen, hh⟩ := ih (f := f + 1)
      (s := { s with mem := update s.mem f (freed s.freelist), freelist := f :: s.freelist })
      (by omega) (by omega)
    refine ⟨s', (kfree_steady hm).bind hrun, ?_, hh⟩
    rw [hlen, List.length_cons]
    omega

theorem bootPages_runs (hL : firstPage L + 513 ≤ 1024) :
    ∃ s, Runs (bootPages L 0 0) (.blank m []) () s ∧ 130000 ≤ s.freelist.length ∧ s.hist = [] ∧
      Booting L s fun _ => 0 := by
  obtain ⟨s1, h1, hlen1, hh1⟩ := freePages_steady (L := L) (f := firstPage L)
    (n := 1024 - firstPage L) (s := .blank m []) (le_refl _) (by
      unfold PHYSTOP PGSIZE
      omega)
  have hlen1 : s1.freelist.length = 1024 - firstPage L := by
    rw [hlen1]
    exact Nat.zero_add _
  obtain ⟨-, -, ho1⟩ := freerange_first (h1 [])
  obtain ⟨d, s2, h2, hb⟩ := setupkvm_runs (L := L) (s := s1) (by omega) ⟨ho1.le_one, ho1.lt⟩
  have hkv : Runs (kvmalloc L) s1 () { s2 with kpgdir := d } := h2.bind ⟨0, fun _ => rfl⟩
  obtain ⟨s4, h4, hlen4, hh4⟩ := freePages_steady (L := L) (f := 1024)
    (n := PHYSTOP / PGSIZE - 1024) (s := { s2 with kpgdir := d }) firstPage_bounds.2 (by
      unfold PHYSTOP PGSIZE
      omega)
  have hrun : Runs (bootPages L 0 0) (.blank m []) () s4 := by
    unfold bootPages
    rw [freerange_low, freerange_high]
    exact h1.runs.bind (hkv.bind (runs_pure.bind (h4.runs.bind runs_pure)))
  refine ⟨s4, hrun, ?_, hh4.trans (hb.hist.trans hh1), ?_⟩
  · rw [hlen4]
    unfold PHYSTOP PGSIZE
    omega
  · obtain ⟨fs, hr⟩ := hrun.run
    have hboot : Booting L { s4 with fail := [] } fun _ => 0 := boot_booting hr
    exact ⟨hboot.count, hboot.unused, hboot.closed⟩

/-! ## The first process -/

/-- The memory of the first process when it starts: one page, mapped for user mode. -/
structure First (s : Kernel) (d : Nat) : Prop where
  state : (s.proc 0).state = .runnable
  pgdir : (s.proc 0).pgdir = some d
  sz : (s.proc 0).sz = PGSIZE
  free : 100000 ≤ s.freelist.length
  hist : s.hist = []
  unused : ∀ p, 0 < p → (s.proc p).state = .unused
  pde : ∃ t, ent s.mem d 0 = userPte t
  pte : ∃ g, entry s.mem d 0 0 = some (userPte g)
  rest : ∀ z, 0 < z → z < 2 ^ 19 → present (pageEnt s.mem d z) = false
  pdes : UserPdes s.mem d
  ofile : ∀ fd, (s.proc 0).ofile fd = none
  file : ∀ k, (s.file k).ref = 0

theorem First.find (h : First s d) :
    ((List.range NPROC).find? fun p => (s.proc p).state = .unused) = some 1 := by
  rw [show List.range NPROC = 0 :: 1 :: List.range' 2 62 from rfl,
    List.find?_cons_of_neg (by simp [h.state])]
  exact List.find?_cons_of_pos (by simpa using h.unused 1 (by decide))

theorem inituvm_runs (hroom : Room userTables (c + 1) s d) (ho : Own s (dirUse s.mem d))
    (hfresh : present (pageEnt s.mem d 0) = false) :
    ∃ s' g, Runs (inituvm d []) s () s' ∧ Room userTables c s' d ∧ Added s s' d 0 1 ∧
      PdeStep s.mem s'.mem d 0 ∧
      entry s'.mem d 0 0 = some (userPte g) := by
  obtain ⟨g, fl, hfl⟩ := List.exists_cons_of_ne_nil hroom.ne_nil
  have hnone := mapping_none.2 hfresh
  obtain ⟨_, s', hmap, rfl, hp⟩ := (mappages_pages (c := True) (w := True) (p := fill 0) (l := s.fail)
    (PTE_W ||| PTE_U) (by decide) hfl ho (by decide) (fun _ => ⟨hroom.mono (by omega), hnone⟩)
    fun _ => hnone).runs trivial
  refine ⟨s', g, ?_, hp.room hfl (by decide) hroom, hp.toAdded, hp.step, entry_of_mapping (x := 0) hp.new⟩
  have hset : Steady (setBytes g 0 []) s' () s' := fun fs => by
    have hcopy : copy (s'.mem g) 0 (fun i => ([] : List UInt8).getD i 0) 0 0 = s'.mem g := by
      funext i
      exact if_neg (by omega)
    show Except.ok ((), { s' with fail := fs, mem := update s'.mem g (copy (s'.mem g) 0 _ 0 0) }) = _
    rw [hcopy, update_eq_self]
  unfold inituvm
  rw [if_neg (by decide)]
  rw [Nat.zero_mul] at hmap
  exact (runs_kalloc hfl).bind (steady_setPage.runs.bind (hmap.bind hset.runs))

theorem KernelDir.pageEnt (h : KernelDir m d) (hx : x < 2 ^ 19) : pageEnt m d x = 0 := by
  rw [Vm.pageEnt, h.empty (x / 1024) (by omega)]
  rfl

theorem KernelDir.userPde (h : KernelDir m d) (hi : i < 512) : present (ent m d i) = false := by
  have := h.empty i hi 0
  unfold entry at this
  split at this
  · cases this
  · rename_i hp
    simpa using hp

theorem main_runs (hL : firstPage L + 513 ≤ 1024) :
    ∃ s d, Runs (main L 0 0 []) (.blank (fun _ => fill 0) []) () s ∧ First s d := by
  obtain ⟨s0, hboot, hlen, hh, hb⟩ := bootPages_runs (m := fun _ => fill 0) hL
  have ho : Own s0 fun _ => 0 := hb.inv.own fun _ => Nat.zero_le _
  have hfind : ((List.range NPROC).find? fun p => (s0.proc p).state = .unused) = some 0 := by
    rw [show List.range NPROC = 0 :: List.range' 1 63 from rfl]
    exact List.find?_cons_of_pos (by simpa using (hb.unused 0).1)
  obtain ⟨_, s1, halloc, _, k, rfl, hfind', hm, hfl, hh1, hfile, -, hP⟩ := (allocproc_tries True).runs
    ⟨⟨0, by decide, (hb.unused 0).1⟩, show 0 < s0.freelist.length by omega⟩
  cases hfind.symm.trans hfind'
  rw [hfl, List.length_cons] at hlen
  have ho1 : Own { s1 with initproc := 0 } fun _ => 0 := by
    have := (ho.moved hm).mono fun _ => Nat.zero_le _
    exact ⟨this.le_one, this.lt⟩
  obtain ⟨d, s2, hset, hbuilt⟩ := setupkvm_runs (L := L) (s := { s1 with initproc := 0 })
    (by simp only; omega) ho1
  have hlen2 : s1.freelist.length ≤ _ := hbuilt.free
  have ho2 := ho1.trans hbuilt.trans
  obtain ⟨s4, g, hini, hroom, hadd, hpde, hpte⟩ := inituvm_runs (c := 110000) (d := d)
    (s := { s2 with proc := update s2.proc 0 { s2.proc 0 with pgdir := some d } })
    (room_of_length (by simp only; omega)) ⟨ho2.le_one, ho2.lt⟩
    (by simp only [hbuilt.pageEnt (x := 0) (by decide)]; rfl)
  have hproc : s4.proc = update s1.proc 0 { s1.proc 0 with pgdir := some d } := by
    rw [hadd.trans.proc, hbuilt.trans.proc]
  have hall : Runs (main L 0 0 []) (.blank (fun _ => fill 0) []) () { s4 with
      proc := update s4.proc 0 { s4.proc 0 with sz := PGSIZE, state := .runnable } } := by
    rw [main_eq]
    refine hboot.bind ?_
    unfold userinit
    refine halloc.bind (Runs.bind (v := ()) ⟨0, fun _ => rfl⟩ (hset.bind ?_))
    refine runs_get (fun _ => rfl) (steady_setProc.runs.bind (hini.bind ?_))
    exact runs_get (fun _ => rfl) steady_setProc.runs
  refine ⟨_, d, hall, ?_, ?_, ?_, ?_, ?_, fun p hp => ?_, ?_, ⟨g, hpte⟩, fun z hz hlt => ?_,
    hpde.userPdes fun i hi hp => ?_, fun fd => ?_, fun k => ?_⟩
  · simp only [update_self]
  · simp only [update_self, hproc]
  · simp only [update_self]
  · unfold Room at hroom
    simp only
    omega
  · rw [hadd.hist]
    exact hbuilt.hist.trans (hh1.trans hh)
  · have hne : p ≠ 0 := by omega
    simp only [update_of_ne hne, hproc, hP]
    exact (hb.unused p).1
  · exact hpde.new (hbuilt.toKernelDir.userPde (by decide))
  · rw [hadd.page z (by omega) (by omega)]
    simp only [hbuilt.pageEnt hlt]
    rfl
  · exact absurd hp (by simp only [hbuilt.toKernelDir.userPde hi]; decide)
  · simp only [update_self, hproc, hP]
    exact (hb.unused 0).2 fd
  · rw [show s4.file = s0.file by rw [hadd.trans.file, hbuilt.trans.file, hfile]]
    exact (hb.closed k).1

theorem boot_first (hL : firstPage L + 513 ≤ 1024) : ∃ s d, Up L s ∧ First s d := by
  obtain ⟨s, d, hrun, hfirst⟩ := main_runs hL
  exact ⟨s, d, up_boot hrun, hfirst⟩

def smallLayout : Layout where
  data := KERNLINK + PGSIZE
  kend := KERNLINK + 2 * PGSIZE
  vramSize := PGSIZE
  pvramAddr := PHYSTOP
  data_gt := by decide
  data_page := by decide
  data_le := by decide
  kend_lt := by decide
  vram_pos := by decide
  vram_le := by decide
  pvram_page := by decide
  pvram_lt := by decide

theorem smallLayout_first : firstPage smallLayout + 513 ≤ 1024 := by decide

end Vm
