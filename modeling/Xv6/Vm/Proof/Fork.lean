import Xv6.Vm.Proof.Copyout

/-!
# The memory of a child

`fork` for every pattern of failures of `kalloc`, in a process that has all pages below its size: the
child has the bytes, the permissions and the descriptors of its parent, in pages of its own, and the
parent keeps what it has (`fork_copies`). With an unused slot and pages enough it succeeds (`Forks`).
-/

namespace Vm

open Param
open Function (update update_self update_of_ne)

variable {L : Layout} {s s' : Kernel} {d e f k n p q w x sz : Nat}

/-! ## `fork` -/

theorem Inv.own_other (h : Inv L s) (hp : p < NPROC) (hq : q < NPROC) (hne : q ≠ p)
    (hst : (s.proc q).state ≠ .unused) (hsp : Space s q d k) :
    Own s fun f => (procUse s p f + pipeUse s.file f) + dirUse s.mem d f :=
  h.own fun f => by
    have hle := procUse_le_rest (s := s) (f := f) hq hne
    rw [hsp.procUse hst] at hle
    rw [uses_eq hp]
    omega

/-- `fork` leaves the processes alone that there are. -/
theorem fork_keeps {r : Int} {a : Nat} (h : Inv L s) (hp : p < NPROC) (hst : (s.proc p).state ≠ .unused)
    (hc : fork L p s = .ok (r, s')) (ha : a < NPROC) (hsa : (s.proc a).state ≠ .unused)
    (hsp : Space s a d k) : s'.proc a = s.proc a ∧ SameSpace s s' d ∧ SameFiles s s' a := by
  obtain ⟨q, hq, hs, rfl | hun, hP, -⟩ := fork_step h hp hst hc
  · exact ⟨rfl, .refl, sameFiles_of_eq rfl rfl⟩
  · have hne : a ≠ q := fun he => hsa (he ▸ hun)
    exact ⟨hP a hne, (hs.moved.apart (h.own_other hq ha hne hsa hsp)).2, hs.kept a ha hne⟩

/-- `fork` makes a child, if `kalloc` refuses none of the calls that it makes. -/
def Forks (L : Layout) (p d : Nat) (s : Kernel) : Prop :=
  ∃ n, ∀ fs, ∃ s', ∃ q < NPROC, ∃ e, fork L p { s with fail := List.replicate n false ++ fs } =
    .ok ((s'.proc q).pid, s') ∧ (s.proc q).state = .unused ∧
      Child { s with fail := List.replicate n false ++ fs } s' p d q e

theorem Inv.forks (h : Inv L s) (hp : p < NPROC) (hst : (s.proc p).state ≠ .unused)
    (hd : (s.proc p).pgdir = some d)
    (hfull : ∀ x, x * PGSIZE < (s.proc p).sz → mapping s.mem d x ≠ none)
    (hslot : ∃ q < NPROC, (s.proc q).state = .unused)
    (hlen : 1026 + pageCount (s.proc p).sz ≤ s.freelist.length) : Forks L p d s := by
  obtain ⟨_, s', ⟨n, hrun⟩, q, hq, e, hun, -, -, rfl, -, hc⟩ :=
    (fork_tries (L := L) (w := True) h hp hst hd fun _ => hfull).runs ⟨⟨hslot, hlen⟩, trivial⟩
  obtain ⟨h1, h2, h3, h4, h5, h6⟩ := hc trivial
  exact ⟨n, fun fs => ⟨{ s' with fail := fs }, q, hq, e, hrun fs, hun, h1, h2, h3, h4, h5, h6.1,
    h6.2, h6.3, h6.4⟩⟩

/-- **`fork` copies the process.** It returns, for every pattern of failures; the parent keeps its
memory, and a child has the same memory in pages of its own. With a free slot and enough pages there
is a child, unless `kalloc` refuses a call. -/
theorem fork_copies (h : Reach L s) (hnull : .nullPte ∉ s.hist) (hp : p < NPROC)
    (hr : (s.proc p).state = .runnable ∨ (s.proc p).state = .running)
    (hd : (s.proc p).pgdir = some d)
    (hfull : ∀ x, x * PGSIZE < (s.proc p).sz → mapping s.mem d x ≠ none) :
    (∃ r s', fork L p s = .ok (r, s') ∧ s'.proc p = s.proc p ∧ SameSpace s s' d ∧
      (r = -1 ∨ ∃ q < NPROC, ∃ e, (s.proc q).state = .unused ∧ r = (s'.proc q).pid ∧
        Child s s' p d q e)) ∧
    ((∃ q < NPROC, (s.proc q).state = .unused) →
      1026 + pageCount (s.proc p).sz ≤ s.freelist.length → Forks L p d s) := by
  have hi := reach_inv h hnull
  have hst := (alive_of_run hr).1
  refine ⟨?_, hi.forks hp hst hd hfull⟩
  obtain ⟨r, s', hrun, hres⟩ :=
    (fork_tries (L := L) (w := True) hi hp hst hd fun _ => hfull).ends.returns fun _ h => h trivial
  obtain ⟨k, hsp⟩ := hi.space_of hp hst hd
  obtain ⟨hP, hsame, -⟩ := fork_keeps hi hp hst hrun hp hst hsp
  refine ⟨r, s', hrun, hP, hsame, hres.symm.imp And.left ?_⟩
  rintro ⟨q, hq, e, hun, -, -, hr, -, hchild⟩
  exact ⟨q, hq, e, hun, hr, hchild trivial⟩

/-- The first process, in a state in which its `fork` succeeds. -/
theorem first_forks : ∃ s d, Reach smallLayout s ∧ s.hist = [] ∧
    (s.proc 0).state = .runnable ∧ (s.proc 0).pgdir = some d ∧
    (∀ x, x * PGSIZE < (s.proc 0).sz → mapping s.mem d x ≠ none) ∧ (s.proc 1).state = .unused ∧
    1026 + pageCount (s.proc 0).sz ≤ s.freelist.length ∧
    ∃ s', ∃ q < NPROC, ∃ e, fork smallLayout 0 s = .ok ((s'.proc q).pid, s') ∧
      (s.proc q).state = .unused ∧ Child s s' 0 d q e := by
  obtain ⟨s, d, hup, hfirst⟩ := boot_first smallLayout_first
  obtain ⟨-, -, hsz⟩ := hfirst.owned hup
  have hfull : ∀ x, x * PGSIZE < (s.proc 0).sz → mapping s.mem d x ≠ none := fun x hx => by
    rw [hfirst.sz] at hx hsz
    refine Option.isSome_iff_ne_none.1 ((hsz x (by unfold PGSIZE at hx; omega)).2 ?_)
    rwa [show pgroundup PGSIZE = PGSIZE by decide]
  have hun := hfirst.unused 1 (by decide)
  have hlen : 1026 + pageCount (s.proc 0).sz ≤ s.freelist.length := by
    rw [hfirst.sz]
    exact Nat.le_trans (by decide) hfirst.free
  obtain ⟨n, hn⟩ := (hup.inv hfirst.hist).forks (by decide) (by simp [hfirst.state]) hfirst.pgdir hfull
    ⟨1, by decide, hun⟩ hlen
  exact ⟨_, d, hup (List.replicate n false ++ []), hfirst.hist, hfirst.state, hfirst.pgdir, hfull, hun,
    hlen, hn []⟩

theorem fork_copies_first : ∃ s d q e s', Reach smallLayout s ∧ Forks smallLayout 0 d s ∧
    fork smallLayout 0 s = .ok ((s'.proc q).pid, s') ∧ SameSpace s s' d ∧ Child s s' 0 d q e := by
  obtain ⟨s, d, hreach, hhist, hst, hd, hfull, hun, hlen, s', q, -, e, hrun, -, hchild⟩ := first_forks
  obtain ⟨⟨r, s1, hrun', -, hsame, -⟩, hforks⟩ :=
    fork_copies hreach (by simp [hhist]) (by decide) (.inl hst) hd hfull
  cases hrun.symm.trans hrun'
  exact ⟨s, d, q, e, s', hreach, hforks ⟨1, by decide, hun⟩ hlen, hrun, hsame, hchild⟩

end Vm
