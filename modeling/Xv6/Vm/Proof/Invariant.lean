import Xv6.Vm.Proof.Files

/-!
# The invariant of the page allocator

`Inv L s` holds between system calls: each page that the allocator was given is in the pool or has
one use, every process has a stack and a directory whose kernel part is closed to user mode, and
the file table counts its references. `Inv.step` is the induction step for every call.
-/

namespace Vm

open Bytes Param Finset

variable {L : Layout} {s s' : Kernel} {X Y : Nat → Nat} {m : Nat → Store}
  {d e f g i j k w p q : Nat}

/-- The process has the directory `d` and the stack `k`. -/
structure Space (s : Kernel) (p d k : Nat) : Prop where
  pgdir : (s.proc p).pgdir = some d
  kstack : (s.proc p).kstack = some k
  clean : KernelClean s.mem d
  sz : (s.proc p).sz < KERNBASE

noncomputable def uses (s : Kernel) (f : Nat) : Nat :=
  s.held.count f + dirUse s.mem s.kpgdir f + ∑ p ∈ range NPROC, procUse s p f + pipeUse s.file f

/-- Each page has one place, and each process an address space. -/
structure Inv (L : Layout) (s : Kernel) : Prop where
  count : ∀ f, pool s f + uses s f = if f ∈ pages L then 1 else 0
  space : ∀ p < NPROC, (s.proc p).state ≠ .unused → ∃ d k, Space s p d k
  files : Files s fun _ => 0

/-- A step of process `p`, which leaves the others alone. -/
structure Step (s s' : Kernel) (p : Nat) : Prop where
  moved : Moved s (fun f => procUse s p f + pipeUse s.file f) s'
    (fun f => procUse s' p f + pipeUse s'.file f)
  other : ∀ q, q ≠ p → (s.proc q).Keeps (s'.proc q)
  space : (s'.proc p).state ≠ .unused → ∃ d k, Space s' p d k
  files : Files s' fun _ => 0
  kept : ∀ q < NPROC, q ≠ p → SameFiles s s' q

theorem Inv.space_of (h : Inv L s) (hp : p < NPROC) (hst : (s.proc p).state ≠ .unused)
    (hd : (s.proc p).pgdir = some d) : ∃ k, Space s p d k := by
  obtain ⟨d', k, hsp⟩ := h.space p hp hst
  obtain rfl : d = d' := Option.some.inj (hd.symm.trans hsp.pgdir)
  exact ⟨k, hsp⟩

/-! ## The pages of one process -/

theorem procUse_unused (h : (s.proc p).state = .unused) : procUse s p f = 0 := if_pos h

theorem Space.procUse (h : Space s p d k) (hst : (s.proc p).state ≠ .unused) :
    Vm.procUse s p f = one k f + dirUse s.mem d f := by
  rw [Vm.procUse, if_neg hst, h.pgdir, h.kstack]
  simp only [oneOf, one, dirUseOf, Option.some.injEq]

theorem Space.keeps (h : Space s q d k) (hst : (s.proc q).state ≠ .unused)
    (hm : Moved s X s' Y) (hX : ∀ f, 0 < dirUse s.mem d f → pool s f + X f = 0)
    (hk : (s.proc q).Keeps (s'.proc q)) :
    Space s' q d k ∧ ∀ f, Vm.procUse s' q f = Vm.procUse s q f := by
  have hsame := hm.same hX
  have hs' : Space s' q d k := ⟨hk.pgdir.trans h.pgdir, hk.kstack.trans h.kstack,
    hsame.kernelClean h.clean, hk.sz ▸ h.sz⟩
  refine ⟨hs', fun f => ?_⟩
  rw [hs'.procUse (hk.state ▸ hst), h.procUse hst, hsame.dirUse]

section
variable (h : Inv L s)
include h

theorem Inv.le_one : pool s f + uses s f ≤ 1 := by
  rw [h.count f]
  split <;> omega

theorem Inv.mem_pages (hf : 0 < pool s f + uses s f) : f ∈ pages L := by
  rw [h.count f] at hf
  by_contra hn
  rw [if_neg hn] at hf
  exact Nat.lt_irrefl 0 hf

theorem Inv.own (hX : ∀ f, X f ≤ uses s f) : Own s X where
  le_one f := by
    have := h.le_one (f := f)
    have := hX f
    omega
  lt f hf := by
    have hx := hX f
    have hm := (Vm.mem_pages.1 (h.mem_pages (f := f) (by omega))).2
    simp only [PHYSTOP, PGSIZE] at hm
    omega

end

noncomputable def rest (s : Kernel) (p f : Nat) : Nat :=
  s.held.count f + dirUse s.mem s.kpgdir f + ∑ q ∈ (range NPROC).erase p, procUse s q f

theorem uses_eq (hp : p < NPROC) : uses s f = procUse s p f + pipeUse s.file f + rest s p f := by
  have := add_sum_erase (range NPROC) (fun q => procUse s q f) (mem_range.2 hp)
  unfold uses rest
  omega

theorem procUse_le_rest (hq : q < NPROC) (hne : q ≠ p) : procUse s q f ≤ rest s p f := by
  have := Count.le_sum (g := fun q => procUse s q f) (mem_erase.2 ⟨hne, mem_range.2 hq⟩)
  unfold rest
  omega

theorem Inv.own_proc (h : Inv L s) (hp : p < NPROC) :
    Own s fun f => procUse s p f + pipeUse s.file f :=
  h.own fun f => by rw [uses_eq hp]; exact Nat.le_add_right _ _

/-! ## Steps -/

theorem Inv.step_other (h : Inv L s) (hp : p < NPROC) (hs : Step s s' p) (hq : q < NPROC)
    (hne : q ≠ p) : ((s'.proc q).state ≠ .unused → ∃ d k, Space s' q d k) ∧
      ∀ f, procUse s' q f = procUse s q f := by
  have hk := hs.other q hne
  by_cases hst : (s.proc q).state = .unused
  · have hst' : (s'.proc q).state = .unused := hk.state.trans hst
    exact ⟨fun hn => absurd hst' hn, fun f => by rw [procUse_unused hst', procUse_unused hst]⟩
  · obtain ⟨d, k, hsp⟩ := h.space q hq hst
    have hX : ∀ f, 0 < dirUse s.mem d f → pool s f + (procUse s p f + pipeUse s.file f) = 0 := by
      intro f hf
      have h1 := h.le_one (f := f)
      have h2 := procUse_le_rest (s := s) (f := f) hq hne
      rw [uses_eq hp] at h1
      rw [hsp.procUse hst] at h2
      omega
    obtain ⟨hsp', huse⟩ := hsp.keeps hst hs.moved hX hk
    exact ⟨fun _ => ⟨d, k, hsp'⟩, huse⟩

/-- **A step keeps the invariant.** -/
theorem Inv.step (h : Inv L s) (hp : p < NPROC) (hs : Step s s' p) : Inv L s' := by
  have hkdir : SameDir s.mem s'.mem s.kpgdir := hs.moved.same fun f hf => by
    have h1 := h.le_one (f := f)
    rw [uses_eq hp, rest] at h1
    omega
  have hrest : ∀ f, rest s' p f = rest s p f := fun f => by
    unfold rest
    rw [hs.moved.held, hs.moved.kpgdir, hkdir.dirUse]
    refine congrArg _ (sum_congr rfl fun q hq => ?_)
    exact (h.step_other hp hs (mem_range.1 (mem_of_mem_erase hq)) (ne_of_mem_erase hq)).2 f
  refine ⟨fun f => ?_, fun q hq => ?_, hs.files⟩
  · have h1 := hs.moved.count f
    have h2 := h.count f
    rw [uses_eq hp] at h2 ⊢
    rw [hrest]
    omega
  · by_cases hne : q = p
    · exact hne ▸ hs.space
    · exact (h.step_other hp hs hq hne).1

theorem Inv.step_fd (h : Inv L s) (hp : p < NPROC) (hs : FdStep p s s' fun _ => 0) : Step s s' p := by
  by_cases hst : (s.proc p).state = .unused
  · have hst' : (s'.proc p).state = .unused := (hs.proc p).state.trans hst
    refine ⟨hs.moved.congr (fun f => ?_) fun f => ?_, fun q _ => hs.proc q, absurd hst', hs.files,
      hs.kept⟩
    · rw [procUse_unused hst, Nat.zero_add]
    · rw [procUse_unused hst', Nat.zero_add]
  · obtain ⟨d, k, hsp⟩ := h.space p hp hst
    have hX : ∀ f, 0 < dirUse s.mem d f → pool s f + pipeUse s.file f = 0 := by
      intro f hf
      have h1 := h.le_one (f := f)
      rw [uses_eq hp, hsp.procUse hst] at h1
      omega
    obtain ⟨hsp', huse⟩ := hsp.keeps hst hs.moved hX (hs.proc p)
    refine ⟨(hs.moved.frame (procUse s p)).congr (fun f => ?_) fun f => ?_, fun q _ => hs.proc q,
      fun _ => ⟨d, k, hsp'⟩, hs.files, hs.kept⟩
    · rw [Nat.add_comm]
    · rw [huse, Nat.add_comm]

theorem Files.of_proc {E : Nat → Nat} (h : Files s E) (hfile : s'.file = s.file)
    (hpipe : s'.pipe = s.pipe) (hof : ∀ q, (s'.proc q).ofile = (s.proc q).ofile)
    (hgone : ∀ q < NPROC, (s'.proc q).state = .unused ∨ (s'.proc q).state = .zombie →
      ∀ fd < NOFILE, (s.proc q).ofile fd = none) : Files s' E := by
  refine ⟨fun k hk => ?_, fun q hq fd hfd k hk => ?_, fun q hq hst fd hfd => ?_, ?_⟩
  · rw [hfile, h.ref k hk, refs_congr fun q _ fd _ => by rw [hof q]]
  · rw [hof q] at hk
    exact h.lt q hq fd hfd k hk
  · rw [hof q]
    exact hgone q hq hst fd hfd
  · rw [hfile, hpipe]
    exact h.pipes

theorem Inv.step_dir {v : Proc} (h : Inv L s) (hst : (s.proc p).state ≠ .unused)
    (hsp : Space s p d k) (ht : Trans s (dirUse s.mem d) { s' with proc := s.proc } (dirUse s'.mem e))
    (hP : s'.proc = Function.update s.proc p v) (hstate : v.state = (s.proc p).state)
    (hof : v.ofile = (s.proc p).ofile) (hpd : v.pgdir = some e)
    (hks : v.kstack = (s.proc p).kstack) (hc : KernelClean s'.mem e) (hsz : v.sz < KERNBASE) :
    Step s s' p := by
  have hv : s'.proc p = v := by rw [hP, Function.update_self]
  have hq : ∀ q, q ≠ p → s'.proc q = s.proc q := fun q hq => by rw [hP, Function.update_of_ne hq]
  have hsp' : Space s' p e k := ⟨hv ▸ hpd, hv ▸ hks.trans hsp.kstack, hc, hv ▸ hsz⟩
  have hst' : (s'.proc p).state = (s.proc p).state := hv ▸ hstate
  have hm := ht.toMoved.frame fun f => one k f + pipeUse s.file f
  have hfile : s'.file = s.file := ht.file
  refine ⟨⟨fun f => ?_, fun f hf => ?_, hm.held, hm.kpgdir, hm.hist⟩, fun q hne => ?_,
    fun _ => ⟨e, k, hsp'⟩, h.files.of_proc hfile ht.pipe (fun q => ?_) fun q hlt hg => ?_,
    fun q _ hne => sameFiles_of_eq hfile (by rw [hq q hne])⟩
  · have h1 : pool s f + _ = pool s' f + _ := hm.count f
    rw [hsp.procUse hst, hsp'.procUse (hst'.symm ▸ hst), hfile]
    omega
  · rw [hsp.procUse hst] at hf
    exact hm.mem f (by omega)
  · rw [hq q hne]
    exact Proc.Keeps.refl
  · by_cases hqp : q = p
    · rw [hqp, hv, hof]
    · rw [hq q hqp]
  · refine h.files.gone q hlt ?_
    by_cases hqp : q = p
    · subst hqp
      rwa [hst'] at hg
    · rwa [hq q hqp] at hg

/-! ## Isolation and conservation -/

theorem openPipe_iff (hF : Files s fun _ => 0) : OpenPipe s f ↔ LivePipe s.file f := by
  constructor
  · rintro ⟨p, hp, -, fd, hfd, k, hk, hof, ht, hpf⟩
    refine ⟨k, hk, ?_, ht, hpf⟩
    rw [hF.ref k hk]
    exact refs_pos hp hfd hof
  · rintro ⟨k, hk, hr, ht, hpf⟩
    rw [hF.ref k hk] at hr
    obtain ⟨p, hp, fd, hfd, hof⟩ := exists_of_refs hr
    refine ⟨p, hp, fun hst => ?_, fd, hfd, k, hk, hof, ht, hpf⟩
    rw [hF.gone p hp (.inl hst) fd hfd] at hof
    cases hof

theorem places_eq (hF : Files s fun _ => 0) : places s f = s.freelist.count f + uses s f := by
  unfold places uses pipeUse
  by_cases hl : LivePipe s.file f
  · rw [if_pos hl, if_pos ((openPipe_iff hF).2 hl)]
    omega
  · rw [if_neg hl, if_neg fun ho => hl ((openPipe_iff hF).1 ho)]
    omega

theorem Inv.places (h : Inv L s) (hf : f ∈ pages L) :
    Vm.places s f + s.hist.count (.leak f) = 1 := by
  have h1 := h.count f
  rw [if_pos hf] at h1
  rw [places_eq h.files]
  unfold pool at h1
  omega

theorem Inv.hasDir (h : Inv L s) (hd : HasDir s p d) :
    ∃ k, Space s p d k ∧ ∀ f, procUse s p f = one k f + dirUse s.mem d f := by
  obtain ⟨hp, hst, hpd⟩ := hd
  obtain ⟨k, hsp⟩ := h.space_of hp hst hpd
  exact ⟨k, hsp, fun f => hsp.procUse hst⟩

theorem Inv.isolated (h : Inv L s) : Isolated s where
  user_below p d hd i hi j hj w he hu := by
    obtain ⟨k, hsp, -⟩ := h.hasDir hd
    have hlt : i < 512 := by
      by_contra hge
      rw [hsp.clean i hi (by omega) j hj w he] at hu
      cases hu
    simp only [pgaddr, KERNBASE, UINT]
    omega
  once p d va hd hva f hf q e va' he hva' hf' := by
    obtain ⟨k, hsp, huse⟩ := h.hasDir hd
    obtain ⟨k', hsp', huse'⟩ := h.hasDir he
    have h1 := h.le_one (f := f)
    have h2 := userFrame_use hf hva
    have h3 := userFrame_use hf' hva'
    have h4 := huse f
    have h5 := huse' f
    unfold dirUse at h4 h5
    have hqp : q = p := by
      by_contra hne
      have h6 := procUse_le_rest (s := s) (f := f) he.1 hne
      rw [uses_eq hd.1] at h1
      omega
    subst hqp
    obtain rfl : d = e := Option.some.inj (hd.2.2.symm.trans he.2.2)
    refine ⟨rfl, userFrame_inj ?_ hf hva hf' hva'⟩
    rw [uses_eq hd.1] at h1
    omega
  only p d va hd hva f hf := by
    obtain ⟨k, hsp, huse⟩ := h.hasDir hd
    have h1 := h.le_one (f := f)
    have h2 := userFrame_use hf hva
    have h3 := huse f
    rw [uses_eq hd.1] at h1
    -- the free list, the kernel's pages and the pipes are other uses
    have hfree : pool s f = 0 := by unfold dirUse at h3; omega
    have hpipe : pipeUse s.file f = 0 := by unfold dirUse at h3; omega
    have hrest : rest s p f = 0 := by unfold dirUse at h3; omega
    unfold rest at hrest
    refine ⟨fun hm => ?_, fun hm => ?_, ?_, ?_, fun hop => ?_, fun q e hq => ?_⟩
    · have := List.count_pos_iff.2 hm
      unfold pool at hfree
      omega
    · have := List.count_pos_iff.2 hm
      omega
    · rintro rfl
      have := dirUse_self (m := s.mem) (d := s.kpgdir)
      omega
    · rintro ⟨i, hi, hpr, rfl⟩
      have := dirUse_table hi hpr
      omega
    · have := pipeUse_pos.2 ((openPipe_iff h.files).1 hop)
      omega
    · obtain ⟨k', hsp', huse'⟩ := h.hasDir hq
      have hown : one k' f + one e f + tableUse s.mem e f = 0 := by
        by_cases hqp : q = p
        · subst hqp
          have h4 := huse' f
          obtain rfl : d = e := Option.some.inj (hd.2.2.symm.trans hq.2.2)
          unfold dirUse at h4
          omega
        · have h4 := huse' f
          have h5 := procUse_le_rest (s := s) (f := f) hq.1 hqp
          unfold rest dirUse at *
          omega
      refine ⟨?_, ?_, ?_⟩
      · rintro rfl
        rw [one_self] at hown
        omega
      · rintro ⟨i, hi, hpr, rfl⟩
        have := tableUse_pos hi hpr
        omega
      · intro hk
        obtain rfl : k' = f := Option.some.inj (hsp'.kstack.symm.trans hk)
        rw [one_self] at hown
        omega

theorem Inv.conserved (h : Inv L s) (hh : s.hist = []) : Conserved L s := fun f hf => by
  have := h.places hf
  rwa [hh, List.count_nil, Nat.add_zero] at this

end Vm
