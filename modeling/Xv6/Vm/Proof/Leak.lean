import Xv6.Vm.Proof.Boot

/-!
# Conservation of pages

As long as no unguarded branch is taken, every page is in one place between system calls
(`pages_conserved`). The branch of `copyuvm` that gives up when `mappages` fails does lose a page
(`fork_loses_page`).
-/

namespace Vm

open Bytes Panic Param Function

variable {L : Layout} {s s' s1 : Kernel} {m : Nat → Store} {d f g i k n p c w : Nat} {α β : Type}
  {fs : List Bool}

/-! ## Runs without a slip -/

/-- Some process was created, with this pid. -/
def Created (s s' : Kernel) (pid : Int) : Prop :=
  ∃ q < NPROC, (s.proc q).state = .unused ∧ (s'.proc q).state = .runnable ∧ (s'.proc q).pid = pid

/-- **Page conservation.** In a run in which neither unguarded branch was taken, every page of the
allocator is in one place, and a `fork` that creates no process returns -1 and gives back the free pages
it took. -/
theorem pages_conserved (h : Reach L s) (hh : s.hist = []) :
    Conserved L s ∧ ∀ p < NPROC, (s.proc p).state = .runnable ∨ (s.proc p).state = .running →
      ∀ r s', call L p .fork s = .ok (some r, s') → s'.hist = [] →
        r = -1 ∧ s'.freelist.Perm s.freelist ∨ Created s s' r := by
  have hi := reach_inv h (by simp [hh])
  refine ⟨hi.conserved hh, fun p hp hr r s' hc hh' => ?_⟩
  rw [call, map_eq_pure_bind, bind_ok] at hc
  obtain ⟨r', s1, hc, hpure⟩ := hc
  obtain ⟨hr', rfl⟩ := pure_ok.1 hpure
  cases hr'
  obtain ⟨q, hq, -, -, -, ⟨rfl, hpool⟩ | hnew⟩ := fork_step hi hp (alive_of_run hr).1 hc
  · refine .inl ⟨rfl, List.perm_iff_count.2 fun f => ?_⟩
    simpa [pool, hh, hh'] using hpool f
  · exact .inr ⟨q, hq, hnew⟩

theorem fork_refused (h : First s d) : ∃ s', fork L 0 { s with fail := [true] } = .ok (-1, s') ∧
    s'.hist = [] ∧ ∀ q, (s'.proc q).state = (s.proc q).state := by
  have halloc : allocproc { s with fail := [true] } = .ok (none, { s with
      fail := [], nextpid := incr s.nextpid
      proc := update s.proc 1 { s.proc 1 with state := .unused, pid := s.nextpid, kstack :=
        none } }) := by
    unfold allocproc
    rw [bind_run get_run]
    simp only [h.find]
    rw [bind_run rfl, bind_run rfl, bind_run (show kalloc _ = .ok (none, _) from rfl)]
    simp only
    rw [bind_run get_run, bind_run rfl, pure_run]
    simp only [update_self, update_idem]
  refine ⟨_, bind_run halloc, h.hist, fun q => ?_⟩
  by_cases hq : q = 1
  · subst hq
    simp only [update_self, h.unused 1 (by decide)]
  · simp only [update_of_ne hq]

/-- The first process calls `fork`, and `kalloc` refuses the kernel stack. -/
theorem pages_conserved_refused : ∃ s s', Reach smallLayout s ∧
    call smallLayout 0 .fork s = .ok (some (-1), s') ∧ Conserved smallLayout s' ∧
    s'.freelist.Perm s.freelist := by
  obtain ⟨s, d, hup, hfirst⟩ := boot_first smallLayout_first
  obtain ⟨s', hfork, hh, hstate⟩ := fork_refused (L := smallLayout) hfirst
  have hcall : call smallLayout 0 .fork { s with fail := [true] } = .ok (some (-1), s') := by
    rw [call, map_eq_pure_bind]
    exact bind_run hfork
  have hr : Reach smallLayout s' := .step (c := .fork) (hup [true]) (by decide) (.inl hfirst.state)
    trivial hcall
  refine ⟨_, s', hup [true], hcall, (pages_conserved hr hh).1, ?_⟩
  rcases (pages_conserved (hup [true]) hfirst.hist).2 0 (by decide) (.inl hfirst.state) _ s' hcall hh with
    h | ⟨q, -, hun, hrun, -⟩
  · exact h.2
  · rw [hstate] at hrun
    exact absurd (hun.symm.trans hrun) (by decide)

/-! ## A page table that is refused -/

/-- The program returns `v` in `s'` when `kalloc` refuses a call after some others. -/
def Leads (m : KM α) (s : Kernel) (fs : List Bool) (v : α) (s' : Kernel) : Prop :=
  ∃ k, m { s with fail := List.replicate k false ++ fs } = .ok (v, s')

theorem Runs.leads {m : KM α} {f : α → KM β} {v : α} {r : β} (h : Runs m s v s1)
    (h' : Leads (f v) s1 fs r s') : Leads (m >>= f) s fs r s' := by
  obtain ⟨k, h⟩ := h
  obtain ⟨k', h'⟩ := h'
  refine ⟨k + k', ?_⟩
  rw [List.replicate_add, List.append_assoc, bind_run (h _)]
  exact h'

theorem Leads.bind {m : KM α} {f : α → KM β} {v : α} {r : β} (h : Leads m s fs v s1)
    (h' : f v s1 = .ok (r, s')) : Leads (m >>= f) s fs r s' := by
  obtain ⟨k, h⟩ := h
  exact ⟨k, (bind_run h).trans h'⟩

theorem leads_get {f : Kernel → KM β} {r : β} (hf : ∀ fs, f { s with fail := fs } = f s)
    (h : Leads (f s) s fs r s') : Leads (get >>= f) s fs r s' := by
  obtain ⟨k, h⟩ := h
  refine ⟨k, ?_⟩
  rw [bind_run get_run, hf]
  exact h

theorem mappages_refused {va size pa perm : Nat}
    (hp : present (ent s.mem d (pdx (pgrounddown va))) = false)
    (hf : s.fail = true :: fs) : mappages d va size pa perm s = .ok (false, { s with fail := fs }) := by
  have hk : kalloc s = .ok (none, { s with fail := fs }) := by simp [kalloc, hf]
  have hw : walkpgdir d (pgrounddown va) true s = .ok (none, { s with fail := fs }) := by
    rw [walk_absent hp, bind_run hk]
    rfl
  unfold mappages mapLoop
  rw [bind_run hw]
  rfl

theorem copyuvm_drops (hlen : 600 ≤ s.freelist.length) (ho : Own s fun f => 0 + dirUse s.mem d f)
    (hw : Within L s fun _ => 0) (hmap : mapping s.mem d 0 = some w) :
    ∃ g s', Leads (copyuvm L d PGSIZE) s [true] none s' ∧ g ∈ pages L ∧
      s'.hist = .leak g :: s.hist ∧ s'.proc = s.proc := by
  obtain ⟨dn, s1, hset, hb⟩ := setupkvm_runs (L := L) (s := s) (by omega) (ho.mono fun _ => Nat.zero_le _)
  obtain ⟨ho1, hsame⟩ := hb.trans.toMoved.apart ho
  have hod := ho1.mono fun f => Nat.le_add_right _ _
  have hw1 := hw.trans hb.trans
  rw [← (hsame 0 (by decide)).1] at hmap
  obtain ⟨hpde, hwent⟩ := entry_isSome (entry_of_mapping hmap)
  have hlen1 := hb.free
  obtain ⟨g, fl, hfl⟩ := List.exists_cons_of_length_pos (l := s1.freelist) (by omega)
  obtain ⟨hsame2, ht2⟩ := take_page (l := []) (p := s1.mem (pteAddr w)) hfl hod
  have ht3 := ht2.trans note_leak
  obtain ⟨s4, hfree, hh4⟩ := freevm_steady (L := L) (hod.trans ht3) (hw1.trans ht3)
  refine ⟨g, { s4 with fail := [] }, ?_, hw1 g (by simp [pool, hfl]), hh4.trans (by rw [← hb.hist]),
    (freevm_trans (hfree []) (hod.trans ht3)).proc.trans hb.trans.proc⟩
  have hwalk : Steady (walkpgdir d 0 false) s1 (some (pteAddr (ent s1.mem d 0), 0)) s1 :=
    walkpgdir_steady 0 hpde
  have hbase : Leads (do
      setPage g ((← get).mem (pteAddr w))
      if ← mappages dn 0 PGSIZE (g * PGSIZE) (pteFlags w) then copyLoop L dn d 0 (0 + PGSIZE)
      else
        note (.leak g)
        freevm L (some dn)
        return none) { s1 with freelist := fl } [true] none { s4 with fail := [] } := by
    have hp : present (ent (update s1.mem g (s1.mem (pteAddr w))) dn 0) = false := by
      have := hsame2.ent (i := 0)
      rw [this]
      exact hb.toKernelDir.userPde (by decide)
    have hmp : mappages dn 0 PGSIZE (g * PGSIZE) (pteFlags w)
        { s1 with freelist := fl, mem := update s1.mem g (s1.mem (pteAddr w))
                  fail := [true] } =
        .ok (false, { s1 with freelist := fl, mem := update s1.mem g (s1.mem (pteAddr w))
                              fail := [] }) := mappages_refused hp rfl
    refine ⟨0, (bind_run get_run).trans ((bind_run (steady_setPage [true])).trans
      ((bind_run hmp).trans ?_))⟩
    simp only [Bool.false_eq_true, if_false]
    exact (bind_run rfl).trans (bind_run (hfree []))
  refine hset.leads ?_
  show Leads (copyLoop L dn d 1 0) _ _ _ _
  unfold copyLoop
  refine hwalk.runs.leads (steady_load.runs.leads ?_)
  rw [show ent s1.mem (pteAddr (ent s1.mem d 0)) 0 = w from hwent.symm]
  simp only [(mapping_some.1 hmap).2, Bool.not_true, Bool.false_eq_true, if_false]
  exact (runs_kalloc hfl).leads hbase

theorem fork_drops (hup : Up L s) (hfirst : First s d) :
    ∃ fs g s', fork L 0 { s with fail := fs } = .ok (-1, s') ∧ g ∈ pages L ∧ s'.hist = [.leak g] ∧
      ∀ q, (s'.proc q).state = (s.proc q).state := by
  have hi := hup.inv hfirst.hist
  have hst : (s.proc 0).state ≠ .unused := by simp [hfirst.state]
  obtain ⟨_, hsp⟩ := hi.space_of (by decide) hst hfirst.pgdir
  have hlen := hfirst.free
  obtain ⟨_, s1, halloc, _, k, rfl, hfind, hm, hfl, hh1, -, -, hP⟩ := (allocproc_tries True).runs
    ⟨⟨1, by decide, hfirst.unused 1 (by decide)⟩, show 0 < s.freelist.length by omega⟩
  cases hfirst.find.symm.trans hfind
  rw [hfl, List.length_cons] at hlen
  have hproc : s1.proc 0 = s.proc 0 := by rw [hP, update_of_ne Nat.zero_ne_one]
  obtain ⟨ho1, hsame⟩ := hi.own_allocated (by decide) hst hsp hm
  have hw := (hi.within (X := fun _ => 0) fun _ => Nat.zero_le _)
  have hk : k ∈ pages L := hw k (by simp [pool, hfl])
  obtain ⟨w, he⟩ := hfirst.pte
  obtain ⟨g, s2, hcopy, hg, hh, hp2⟩ := copyuvm_drops (L := L) (d := d) (w := userPte w)
    (by omega) ho1 (fun f hf => hw f (by have := hm.count f; simp only at *; omega))
    ((hsame 0 (by decide)).1.trans (mapping_some.2 ⟨by rw [pageEnt, he]; rfl, present_mkPte⟩))
  have hk2 : (s2.proc 1).kstack = some k := by
    rw [hp2, hP]
    simp only [update_self]
  have hall : Leads (fork L 0) s [true] (-1) { s2 with
      mem := update s2.mem k (freed s2.freelist), freelist := k :: s2.freelist
      proc := update s2.proc 1
        { s2.proc 1 with pgdir := none, kstack := none, state := .unused } } := by
    unfold fork
    refine halloc.leads ((curdir_steady (hproc ▸ hfirst.pgdir)).runs.leads (leads_get (fun _ => rfl) ?_))
    rw [hproc, hfirst.sz]
    refine hcopy.bind ((bind_run get_run).trans ?_)
    rw [hk2]
    exact (bind_run (kfree_steady hk s2.fail)).trans rfl
  obtain ⟨n, hrun⟩ := hall
  refine ⟨_, g, _, hrun, hg, ?_, fun q => ?_⟩
  · rw [← hfirst.hist, ← hh1]
    exact hh
  · by_cases hq : q = 1
    · subst hq
      rw [hfirst.unused 1 (by decide)]
      simp only [update_self]
    · rw [hp2, hP]
      simp only [update_of_ne hq]

/-- **A failed `fork` loses a page**: the page that `copyuvm` copied is nowhere afterwards. -/
theorem fork_loses_page : ∃ s s', Reach smallLayout s ∧
    call smallLayout 0 .fork s = .ok (some (-1), s') ∧ ¬ Conserved smallLayout s' ∧
      ¬ s'.freelist.Perm s.freelist := by
  obtain ⟨s, d, hup, hfirst⟩ := boot_first smallLayout_first
  obtain ⟨fs, g, s', hfork, hg, hh, hstate⟩ := fork_drops hup hfirst
  have hcall : call smallLayout 0 .fork { s with fail := fs } = .ok (some (-1), s') := by
    rw [call, map_eq_pure_bind]
    exact bind_run hfork
  have hr : Reach smallLayout s' := .step (c := .fork) (hup fs) (by decide) (.inl hfirst.state)
    trivial hcall
  have hi := reach_inv (hup fs) (by simp [hfirst.hist])
  have hi' := reach_inv hr (by simp [hh])
  refine ⟨_, s', hup fs, hcall, fun hc => ?_, fun hperm => ?_⟩
  · have h1 := hi'.places hg
    have h2 := hc g hg
    simp [hh] at h1
    omega
  · obtain ⟨q, -, -, -, -, ⟨-, hpool⟩ | ⟨hun, hnew, -⟩⟩ :=
      fork_step hi (by decide) (by simp [hfirst.state]) hfork
    rotate_left
    · rw [hstate] at hnew
      exact absurd (hun.symm.trans hnew) (by decide)
    have h1 := hpool g
    have h2 := hperm.count_eq g
    simp [pool, hh, hfirst.hist] at h1 h2
    omega

end Vm
