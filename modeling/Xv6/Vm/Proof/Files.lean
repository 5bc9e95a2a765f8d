import Xv6.Vm.Proof.Exec

/-!
# Open files and pipes

`Files s E`: the reference count of each file is the number of descriptors that name it, plus `E`
references held by the system call in progress, and a pipe's open ends are those of its live files.
-/

namespace Vm

open Bytes Panic Param Finset Function

variable {L : Layout} {s s' s'' : Kernel} {X Z E : Nat → Nat} {P : Nat → Proc}
  {f g i j k w n p q fd : Nat} {u : Unit} {b c : Bool}

def fdSlots : Finset (Nat × Nat) := range NPROC ×ˢ range NOFILE

theorem mem_fdSlots {x : Nat × Nat} : x ∈ fdSlots ↔ x.1 < NPROC ∧ x.2 < NOFILE := by
  rw [fdSlots, mem_product, mem_range, mem_range]

attribute [irreducible] fdSlots

def refs (P : Nat → Proc) (k : Nat) : Nat := ∑ x ∈ fdSlots, oneOf ((P x.1).ofile x.2) k

def PipeFile (F : Nat → File) (k f : Nat) : Prop :=
  k < NFILE ∧ 0 < (F k).ref ∧ (F k).type = .pipe ∧ (F k).pipe = f

def LivePipe (F : Nat → File) (f : Nat) : Prop := ∃ k, PipeFile F k f

def Pipe.isOpen (v : Pipe) (writable : Bool) : Bool := if writable then v.writeopen else v.readopen

/-- Each open end of a pipe has one file. -/
structure Pipes (F : Nat → File) (T : Nat → Pipe) : Prop where
  closed : ∀ k < NFILE, (F k).ref = 0 → (F k).type = .none
  unique : ∀ k k' f, PipeFile F k f → PipeFile F k' f → (F k).writable = (F k').writable → k = k'
  ends : ∀ f, LivePipe F f → ∀ w, (T f).isOpen w = true ↔
    ∃ k, PipeFile F k f ∧ (F k).writable = w

/-- The invariant of the file table, with `E k` references to `k` outside the descriptors. -/
structure Files (s : Kernel) (E : Nat → Nat) : Prop where
  ref : ∀ k < NFILE, (s.file k).ref = refs s.proc k + E k
  lt : ∀ p < NPROC, ∀ fd < NOFILE, ∀ k, (s.proc p).ofile fd = some k → k < NFILE
  gone : ∀ p < NPROC, (s.proc p).state = .unused ∨ (s.proc p).state = .zombie →
    ∀ fd < NOFILE, (s.proc p).ofile fd = none
  pipes : Pipes s.file s.pipe

open Classical in
noncomputable def pipeUse (F : Nat → File) (f : Nat) : Nat := if LivePipe F f then 1 else 0

theorem pipeUse_eq {F G : Nat → File} (h : LivePipe F f ↔ LivePipe G f) :
    pipeUse F f = pipeUse G f := by
  unfold pipeUse
  by_cases hl : LivePipe F f
  · rw [if_pos hl, if_pos (h.1 hl)]
  · rw [if_neg hl, if_neg fun h' => hl (h.2 h')]

theorem pipeUse_pos {F : Nat → File} : 0 < pipeUse F f ↔ LivePipe F f := by
  unfold pipeUse
  split <;> simp_all

/-! ## Descriptors -/

theorem refs_pos (hp : p < NPROC) (hfd : fd < NOFILE) (h : (P p).ofile fd = some k) :
    0 < refs P k := by
  have hx : (p, fd) ∈ fdSlots := mem_fdSlots.2 ⟨hp, hfd⟩
  have hle := Count.le_sum (g := fun x : Nat × Nat => oneOf ((P x.1).ofile x.2) k) hx
  simp only [h, oneOf, if_true] at hle
  exact hle

theorem exists_of_refs (h : 0 < refs P k) : ∃ p < NPROC, ∃ fd < NOFILE, (P p).ofile fd = some k := by
  obtain ⟨x, hx, hpos⟩ := Count.exists_of_sum_pos h
  obtain ⟨hp, hfd⟩ := mem_fdSlots.1 hx
  refine ⟨x.1, hp, x.2, hfd, ?_⟩
  unfold oneOf at hpos
  split at hpos
  · assumption
  · omega

theorem refs_congr {Q : Nat → Proc} (h : ∀ p < NPROC, ∀ fd < NOFILE, (Q p).ofile fd = (P p).ofile fd) :
    refs Q k = refs P k := by
  unfold refs
  refine sum_congr rfl fun x hx => ?_
  obtain ⟨hp, hfd⟩ := mem_fdSlots.1 hx
  rw [h x.1 hp x.2 hfd]

theorem refs_update {v : Proc} {o : Option Nat} (hp : p < NPROC) (hfd : fd < NOFILE)
    (hv : v.ofile = update (P p).ofile fd o) :
    refs (update P p v) k + oneOf ((P p).ofile fd) k = refs P k + oneOf o k := by
  have hx : (p, fd) ∈ fdSlots := mem_fdSlots.2 ⟨hp, hfd⟩
  have hc := Count.sum_change
    (g := fun x : Nat × Nat => oneOf ((update P p v x.1).ofile x.2) k)
    (h := fun x : Nat × Nat => oneOf ((P x.1).ofile x.2) k) hx (fun x _ hne => by
      by_cases h1 : x.1 = p
      · have h2 : x.2 ≠ fd := fun h2 => hne (Prod.ext h1 h2)
        simp only [h1, update_self, hv, update_of_ne h2]
      · simp only [update_of_ne h1])
  simp only [update_self, hv] at hc
  exact hc

/-! ## The file table -/

section
variable {F : Nat → File} {T : Nat → Pipe} {v : File}

theorem pipeFile_update : PipeFile (update F k v) i f ↔
      if i = k then i < NFILE ∧ 0 < v.ref ∧ v.type = .pipe ∧ v.pipe = f else PipeFile F i f := by
  unfold PipeFile
  split
  · rename_i h
    rw [h, update_self]
  · rename_i h
    rw [update_of_ne h]

theorem Pipes.set (h : Pipes F T) (hlive : ∀ f, (0 < v.ref ∧ v.type = .pipe ∧ v.pipe = f) ↔
      (0 < (F k).ref ∧ (F k).type = .pipe ∧ (F k).pipe = f))
    (hw : 0 < v.ref → v.type = .pipe → v.writable = (F k).writable)
    (hc : v.ref = 0 → v.type = .none) :
    Pipes (update F k v) T ∧ ∀ f, LivePipe (update F k v) f ↔ LivePipe F f := by
  have hpf : ∀ i f, PipeFile (update F k v) i f ↔ PipeFile F i f := fun i f => by
    rw [pipeFile_update]
    split
    · rename_i hi
      subst hi
      simp only [PipeFile, hlive f]
    · rfl
  have hwr : ∀ i f, PipeFile F i f → (update F k v i).writable = (F i).writable := by
    intro i f hi
    by_cases hik : i = k
    · subst hik
      rw [update_self]
      obtain ⟨hr, ht, -⟩ := (hlive f).2 hi.2
      exact hw hr ht
    · rw [update_of_ne hik]
  have hlp : ∀ f, LivePipe (update F k v) f ↔ LivePipe F f := fun f => by
    simp only [LivePipe, hpf]
  refine ⟨⟨fun i hi hr => ?_, fun i j f hi hj hij => ?_, fun f hf w => ?_⟩, hlp⟩
  · by_cases hik : i = k
    · subst hik
      rw [update_self] at hr ⊢
      exact hc hr
    · rw [update_of_ne hik] at hr ⊢
      exact h.closed i hi hr
  · rw [hpf] at hi hj
    rw [hwr i f hi, hwr j f hj] at hij
    exact h.unique i j f hi hj hij
  · rw [h.ends f ((hlp f).1 hf) w]
    refine exists_congr fun i => ?_
    rw [hpf]
    refine and_congr_right fun hi => ?_
    rw [hwr i f hi]

def Pipe.shut (v : Pipe) (writable : Bool) : Pipe :=
  if writable then { v with writeopen := false } else { v with readopen := false }

theorem Pipe.isOpen_shut {v : Pipe} : (v.shut b).isOpen c = if c = b then false else v.isOpen c := by
  cases b <;> cases c <;> rfl

theorem Pipes.close (h : Pipes F T) (hk : PipeFile F k f) :
    Pipes (update F k { F k with ref := 0, type := .none })
        (update T f ((T f).shut (F k).writable)) ∧
      (∀ g, g ≠ f → (LivePipe (update F k { F k with ref := 0, type := .none }) g ↔
        LivePipe F g)) ∧
      (LivePipe (update F k { F k with ref := 0, type := .none }) f ↔
        (T f).isOpen (!(F k).writable) = true) := by
  have hpf : ∀ i g, PipeFile (update F k { F k with ref := 0, type := .none }) i g ↔
      i ≠ k ∧ PipeFile F i g := fun i g => by
    rw [pipeFile_update]
    split
    · rename_i hi
      simp [hi]
    · rename_i hi
      simp [hi]
  have hwr : ∀ i, i ≠ k →
      (update F k { F k with ref := 0, type := .none } i).writable = (F i).writable :=
    fun i hi => by rw [update_of_ne hi]
  have hne : ∀ i g, g ≠ f → PipeFile F i g → i ≠ k := by
    rintro i g hg hi rfl
    exact hg (hi.2.2.2.symm.trans hk.2.2.2)
  -- the other files of this pipe are its other end
  have hother : ∀ i, i ≠ k → PipeFile F i f → (F i).writable = !(F k).writable := by
    intro i hi hif
    have hd : (F i).writable ≠ (F k).writable := fun he => hi (h.unique i k f hif hk he)
    cases hb : (F i).writable <;> cases hc : (F k).writable <;> simp_all
  have hopen := h.ends f ⟨k, hk⟩
  refine ⟨⟨fun i hi hr => ?_, fun i j g hi hj hij => ?_, fun g hg w => ?_⟩, fun g hg => ?_, ?_⟩
  · by_cases hik : i = k
    · rw [hik, update_self]
    · rw [update_of_ne hik] at hr ⊢
      exact h.closed i hi hr
  · rw [hpf] at hi hj
    rw [hwr i hi.1, hwr j hj.1] at hij
    exact h.unique i j g hi.2 hj.2 hij
  · obtain ⟨i, hi⟩ := hg
    rw [hpf] at hi
    by_cases hgf : g = f
    · subst hgf
      rw [update_self, Pipe.isOpen_shut]
      split
      · rename_i hw
        simp only [Bool.false_eq_true, false_iff]
        rintro ⟨j, hj, hjw⟩
        rw [hpf] at hj
        rw [hwr j hj.1, hother j hj.1 hj.2, hw] at hjw
        cases hb : (F k).writable <;> rw [hb] at hjw <;> cases hjw
      · rename_i hw
        rw [hopen w]
        refine exists_congr fun j => ?_
        rw [hpf]
        constructor
        · rintro ⟨hj, rfl⟩
          have hjk : j ≠ k := fun he => hw (by rw [he])
          exact ⟨⟨hjk, hj⟩, hwr j hjk⟩
        · rintro ⟨⟨hjk, hj⟩, hjw⟩
          exact ⟨hj, (hwr j hjk).symm.trans hjw⟩
    · rw [update_of_ne hgf, h.ends g ⟨i, hi.2⟩ w]
      refine exists_congr fun j => ?_
      rw [hpf]
      constructor
      · rintro ⟨hj, rfl⟩
        exact ⟨⟨hne j g hgf hj, hj⟩, hwr j (hne j g hgf hj)⟩
      · rintro ⟨⟨hjk, hj⟩, hjw⟩
        exact ⟨hj, (hwr j hjk).symm.trans hjw⟩
  · simp only [LivePipe, hpf]
    exact exists_congr fun j => and_iff_right_of_imp fun hj => hne j g hg hj
  · rw [hopen]
    simp only [LivePipe, hpf]
    refine exists_congr fun j => ⟨fun ⟨hjk, hj⟩ => ⟨hj, hother j hjk hj⟩, fun ⟨hj, hjw⟩ => ⟨?_, hj⟩⟩
    rintro rfl
    cases hb : (F j).writable <;> rw [hb] at hjw <;> cases hjw

theorem Pipes.create (h : Pipes F T) {i0 i1 : Nat} (hne : i0 ≠ i1) (h0 : i0 < NFILE)
    (h1 : i1 < NFILE) (hr0 : 0 < (F i0).ref) (hr1 : 0 < (F i1).ref) (ht0 : (F i0).type ≠ .pipe)
    (ht1 : (F i1).type ≠ .pipe) (hf : ¬ LivePipe F f) {v0 v1 : File}
    (hv0 : v0 = { F i0 with type := .pipe, readable := true, writable := false, pipe := f })
    (hv1 : v1 = { F i1 with type := .pipe, readable := false, writable := true, pipe := f }) :
    Pipes (update (update F i0 v0) i1 v1) (update T f ⟨true, true⟩) ∧
      ∀ g, LivePipe (update (update F i0 v0) i1 v1) g ↔ g = f ∨ LivePipe F g := by
  have hpf : ∀ i g, PipeFile (update (update F i0 v0) i1 v1) i g ↔
      (i = i0 ∧ g = f) ∨ (i = i1 ∧ g = f) ∨ PipeFile F i g := fun i g => by
    rw [pipeFile_update, pipeFile_update]
    have hp0 : ¬ PipeFile F i0 g := fun hp => ht0 hp.2.2.1
    have hp1 : ¬ PipeFile F i1 g := fun hp => ht1 hp.2.2.1
    split
    · rename_i hi
      subst hi hv1
      simp [h1, hr1, hp1, hne.symm, eq_comm]
    · split
      · rename_i hi
        subst hi hv0
        simp [h0, hr0, hp0, hne, eq_comm]
      · rename_i hi1 hi0
        simp [hi1, hi0]
  have hw0 : (update (update F i0 v0) i1 v1 i0).writable = false := by
    rw [update_of_ne hne, update_self, hv0]
  have hw1 : (update (update F i0 v0) i1 v1 i1).writable = true := by
    rw [update_self, hv1]
  have hwr : ∀ i g, PipeFile F i g →
      (update (update F i0 v0) i1 v1 i).writable = (F i).writable := by
    intro i g hi
    have hi0 : i ≠ i0 := fun he => ht0 (he ▸ hi.2.2.1)
    have hi1 : i ≠ i1 := fun he => ht1 (he ▸ hi.2.2.1)
    rw [update_of_ne hi1, update_of_ne hi0]
  have hlive : ∀ g, LivePipe (update (update F i0 v0) i1 v1) g ↔
      g = f ∨ LivePipe F g := fun g => by
    simp only [LivePipe, hpf]
    constructor
    · rintro ⟨i, ⟨-, hg⟩ | ⟨-, hg⟩ | hg⟩
      · exact .inl hg
      · exact .inl hg
      · exact .inr ⟨i, hg⟩
    · rintro (hg | ⟨i, hi⟩)
      · exact ⟨i0, .inl ⟨rfl, hg⟩⟩
      · exact ⟨i, .inr (.inr hi)⟩
  refine ⟨⟨fun i hi hr => ?_, fun i j g hi hj hij => ?_, fun g hg w => ?_⟩, hlive⟩
  · by_cases hi1 : i = i1
    · rw [hi1, update_self, hv1] at hr
      exact absurd hr (Nat.ne_of_gt hr1)
    · rw [update_of_ne hi1] at hr ⊢
      by_cases hi0 : i = i0
      · rw [hi0, update_self, hv0] at hr
        exact absurd hr (Nat.ne_of_gt hr0)
      · rw [update_of_ne hi0] at hr ⊢
        exact h.closed i hi hr
  · rw [hpf] at hi hj
    rcases hi with ⟨rfl, hg⟩ | ⟨rfl, hg⟩ | hi
    · rcases hj with ⟨rfl, -⟩ | ⟨rfl, -⟩ | hj
      · rfl
      · rw [hw0, hw1] at hij
        cases hij
      · exact absurd ⟨j, hg ▸ hj⟩ hf
    · rcases hj with ⟨rfl, -⟩ | ⟨rfl, -⟩ | hj
      · rw [hw0, hw1] at hij
        cases hij
      · rfl
      · exact absurd ⟨j, hg ▸ hj⟩ hf
    · rcases hj with ⟨rfl, hg⟩ | ⟨rfl, hg⟩ | hj
      · exact absurd ⟨i, hg ▸ hi⟩ hf
      · exact absurd ⟨i, hg ▸ hi⟩ hf
      · rw [hwr i g hi, hwr j g hj] at hij
        exact h.unique i j g hi hj hij
  · by_cases hgf : g = f
    · subst hgf
      rw [update_self]
      cases w with
      | true =>
        refine ⟨fun _ => ⟨i1, ?_, hw1⟩, fun _ => rfl⟩
        rw [hpf]
        exact .inr (.inl ⟨rfl, rfl⟩)
      | false =>
        refine ⟨fun _ => ⟨i0, ?_, hw0⟩, fun _ => rfl⟩
        rw [hpf]
        exact .inl ⟨rfl, rfl⟩
    · rw [update_of_ne hgf, h.ends g (((hlive g).1 hg).resolve_left hgf)]
      refine exists_congr fun i => ?_
      rw [hpf]
      constructor
      · rintro ⟨hi, rfl⟩
        exact ⟨.inr (.inr hi), hwr i g hi⟩
      · rintro ⟨⟨-, hg⟩ | ⟨-, hg⟩ | hi, hiw⟩
        · exact absurd hg hgf
        · exact absurd hg hgf
        · exact ⟨hi, (hwr i g hi).symm.trans hiw⟩

end

/-! ## Operations -/

/-- The descriptors of process `q` name the files that they did, and these are what they were. -/
def SameFiles (s s' : Kernel) (q : Nat) : Prop := ∀ fd < NOFILE, ∀ k, (s.proc q).ofile fd = some k →
  (s'.proc q).ofile fd = some k ∧ (s'.file k).type = (s.file k).type ∧ (s'.file k).pipe = (s.file k).pipe

theorem SameFiles.trans (h : SameFiles s s' q) (h' : SameFiles s' s'' q) : SameFiles s s'' q :=
  fun fd hfd k hk => by
    obtain ⟨h1, h2, h3⟩ := h fd hfd k hk
    obtain ⟨h4, h5, h6⟩ := h' fd hfd k h1
    exact ⟨h4, h5.trans h2, h6.trans h3⟩

theorem sameFiles_of_eq (hF : s'.file = s.file) (hP : (s'.proc q).ofile = (s.proc q).ofile) :
    SameFiles s s' q := fun fd _ k hk => by
  rw [hP, hF]
  exact ⟨hk, rfl, rfl⟩

theorem sameFiles_update {v : File}
    (hv : ∀ fd < NOFILE, (s.proc q).ofile fd = some k → v.type = (s.file k).type ∧
    v.pipe = (s.file k).pipe)
    (hF : s'.file = update s.file k v) (hP : s'.proc = s.proc) : SameFiles s s' q := fun fd hfd i hi => by
  rw [hP, hF]
  by_cases hik : i = k
  · subst hik
    rw [update_self]
    exact ⟨hi, hv fd hfd hi⟩
  · rw [update_of_ne hik]
    exact ⟨hi, rfl, rfl⟩

/-- What a file operation of process `p` does: the table stays consistent, with `E` references outside the
descriptors, and pages move between the pool and the live pipes. -/
structure FileStep (p : Nat) (s s' : Kernel) (E : Nat → Nat) : Prop where
  files : Files s' E
  moved : Moved s (pipeUse s.file) s' (pipeUse s'.file)
  proc : s'.proc = s.proc
  kept : ∀ q < NPROC, q ≠ p → SameFiles s s' q

theorem FileStep.comp (h : FileStep p s s' E) {E' : Nat → Nat} (h' : FileStep p s' s'' E') :
    FileStep p s s'' E' :=
  ⟨h'.files, h.moved.trans h'.moved, h'.proc.trans h.proc, fun q hq hne =>
    (h.kept q hq hne).trans (h'.kept q hq hne)⟩

theorem moved_tables {F : Nat → File} {T : Nat → Pipe} {k : Int} :
    Moved s X { s with proc := P, file := F, pipe := T, nextpid := k } X :=
  ⟨fun _ => rfl, fun _ _ => rfl, rfl, rfl, List.suffix_refl _⟩

theorem fileStep_update {v : File} (h : Files s E) (hk : k < NFILE)
    (hlive : ∀ f, (0 < v.ref ∧ v.type = .pipe ∧ v.pipe = f) ↔
      (0 < (s.file k).ref ∧ (s.file k).type = .pipe ∧ (s.file k).pipe = f))
    (hw : 0 < v.ref → v.type = .pipe → v.writable = (s.file k).writable)
    (hc : v.ref = 0 → v.type = .none) (hv : v.ref + E k = (s.file k).ref + Z k)
    (hE : ∀ i, i ≠ k → Z i = E i) (hkept : ∀ q < NPROC, q ≠ p → ∀ fd < NOFILE,
      (s.proc q).ofile fd = some k → v.type = (s.file k).type ∧ v.pipe = (s.file k).pipe) :
    FileStep p s { s with file := update s.file k v } Z := by
  obtain ⟨hp, hl⟩ := h.pipes.set hlive hw hc
  refine ⟨⟨fun i hi => ?_, h.lt, h.gone, hp⟩, ?_, rfl, fun q hq hne =>
    sameFiles_update (hkept q hq hne) rfl rfl⟩
  · have hr := h.ref i hi
    by_cases hik : i = k
    · subst hik
      simp only [update_self]
      omega
    · simp only [update_of_ne hik, hE i hik, hr]
  · exact moved_tables.congr (fun _ => rfl) fun f => pipeUse_eq (hl f)

theorem find_some {c : Nat → Bool} (h : (List.range n).find? c = some k) : k < n ∧ c k = true :=
  ⟨List.mem_range.1 (List.mem_of_find?_eq_some h), List.find?_some h⟩

theorem filealloc_spec {r : Option Nat} (h : filealloc s = .ok (r, s')) (hF : Files s E) :
    (r = none ∧ s' = s) ∨ ∃ k, r = some k ∧ k < NFILE ∧ (s.file k).ref = 0 ∧
        s' = { s with file := update s.file k { s.file k with ref := 1 } } ∧
        FileStep p s s' (fun i => E i + one k i) := by
  unfold filealloc at h
  rw [bind_ok] at h
  obtain ⟨_, _, hg, h⟩ := h
  cases hg
  cases hfind : (List.range NFILE).find? fun f => (s.file f).ref = 0 with
  | none =>
    simp only [hfind] at h
    obtain ⟨rfl, rfl⟩ := pure_ok.1 h
    exact .inl ⟨rfl, rfl⟩
  | some k =>
    simp only [hfind, bind_ok] at h
    obtain ⟨_, s1, hset, h⟩ := h
    cases hset
    obtain ⟨rfl, rfl⟩ := pure_ok.1 h
    obtain ⟨hk, hr⟩ := find_some hfind
    have hr : (s.file k).ref = 0 := by simpa using hr
    have ht : (s.file k).type ≠ .pipe := by simp [hF.pipes.closed k hk hr]
    refine .inr ⟨k, rfl, hk, hr, rfl, fileStep_update hF hk (fun f => ?_) (fun _ h => absurd h ht)
      (fun h => absurd h Nat.one_ne_zero) ?_ (fun i hi => by rw [one_ne hi.symm, Nat.add_zero])
      fun _ _ _ _ _ _ => ⟨rfl, rfl⟩⟩
    · simp [ht]
    · simp only [one_self, hr]
      omega

theorem filedup_ok (h : filedup k s = .ok (u, s')) :
    0 < (s.file k).ref ∧ s' = { s with
      file := update s.file k { s.file k with ref := (s.file k).ref + 1 } } := by
  unfold filedup at h
  rw [bind_ok] at h
  obtain ⟨_, _, hg, h⟩ := h
  cases hg
  simp only [ite_ok] at h
  rcases h with ⟨-, h⟩ | ⟨hr, h⟩
  · rw [bind_ok] at h
    obtain ⟨_, _, hth, -⟩ := h
    cases hth
  · cases h
    exact ⟨by omega, rfl⟩

theorem fileStep_dup (hF : Files s E) (hk : k < NFILE) (hpos : 0 < (s.file k).ref) :
    FileStep p s { s with
      file := update s.file k { s.file k with ref := (s.file k).ref + 1 } }
      (fun i => E i + one k i) := by
  refine fileStep_update hF hk (fun f => ?_) (fun _ _ => rfl) (fun h => absurd h (Nat.succ_ne_zero _))
    ?_ (fun i hi => by rw [one_ne hi.symm, Nat.add_zero]) fun _ _ _ _ _ _ => ⟨rfl, rfl⟩
  · simp [hpos]
  · simp only [one_self]
    omega

theorem pipeclose_ok (h : pipeclose L f b s = .ok (u, s')) : (((s.pipe f).isOpen (!b) = true) ∧
      s' = { s with pipe := update s.pipe f ((s.pipe f).shut b) }) ∨
    ((s.pipe f).isOpen (!b) = false ∧
      kfree L f { s with pipe := update s.pipe f ((s.pipe f).shut b) } = .ok (u, s')) := by
  unfold pipeclose at h
  simp only [bind_ok, get_run, Except.ok.injEq, Prod.mk.injEq] at h
  obtain ⟨_, _, ⟨rfl, rfl⟩, _, s1, hset, h⟩ := h
  cases hset
  have hiff : ((if b = true then { s.pipe f with writeopen := false }
      else { s.pipe f with readopen := false } : Pipe).readopen = false ∧
      (if b = true then { s.pipe f with writeopen := false }
      else { s.pipe f with readopen := false } : Pipe).writeopen = false) ↔
      (s.pipe f).isOpen (!b) = false := by
    cases b <;> simp [Pipe.isOpen]
  rw [ite_ok, hiff] at h
  rcases h with ⟨ho, h⟩ | ⟨ho, h⟩
  · exact .inr ⟨ho, h⟩
  · obtain ⟨-, rfl⟩ := pure_ok.1 h
    exact .inl ⟨by simpa using ho, rfl⟩

/-- **Closing a file** frees the page of a pipe exactly when its other end is closed. -/
theorem fileclose_spec (h : fileclose L k s = .ok (u, s')) (hk : k < NFILE)
    (hF : Files s fun i => E i + one k i) : FileStep p s s' E := by
  have hE : ∀ i, i ≠ k → E i = E i + one k i := fun i hi => by rw [one_ne hi.symm, Nat.add_zero]
  have href := hF.ref k hk
  rw [one_self] at href
  unfold fileclose at h
  rw [bind_ok] at h
  obtain ⟨_, _, hg, h⟩ := h
  cases hg
  simp only [ite_ok] at h
  rcases h with ⟨hlt, -⟩ | ⟨-, h⟩
  · omega
  · rcases h with ⟨hr, h⟩ | ⟨hr, h⟩
    · cases h
      refine fileStep_update hF hk (fun f => ?_) (fun _ _ => rfl) (fun h0 => ?_) ?_ hE
        fun _ _ _ _ _ _ => ⟨rfl, rfl⟩
      · have : 0 < (s.file k).ref := by omega
        simp [this, hr]
      · simp only at h0
        omega
      · simp only [one_self]
        omega
    · rw [bind_ok] at h
      obtain ⟨_, s1, hset, h⟩ := h
      cases hset
      -- no descriptor is left
      have hlast : ∀ (v : File), ∀ q < NPROC, q ≠ p → ∀ fd < NOFILE, (s.proc q).ofile fd = some k →
          v.type = (s.file k).type ∧ v.pipe = (s.file k).pipe := fun v q hq _ fd hfd hof => by
        have := refs_pos hq hfd hof
        omega
      by_cases ht : (s.file k).type = .pipe
      rotate_left
      · have hs' : s' = { s with file := update s.file k { s.file k with ref := 0, type := .none } } := by
          cases hty : (s.file k).type with
          | pipe => exact absurd hty ht
          | none | inode =>
            simp only [hty] at h
            exact (pure_ok.1 h).2
        subst hs'
        refine fileStep_update hF hk (fun f => ?_) (fun h => absurd h (Nat.lt_irrefl 0))
          (fun _ => rfl) ?_ hE (hlast _)
        · simp [ht]
        · simp only [one_self]
          omega
      · simp only [ht] at h
        have hpf : PipeFile s.file k (s.file k).pipe := ⟨hk, by omega, ht, rfl⟩
        obtain ⟨hp, hother, hthis⟩ := hF.pipes.close hpf
        have hfiles : ∀ {m : Nat → Store} {fl : List Nat}, Files { s with
            mem := m, freelist := fl
            file := update s.file k { s.file k with ref := 0, type := .none }
            pipe := update s.pipe (s.file k).pipe
              ((s.pipe (s.file k).pipe).shut (s.file k).writable) } E := by
          refine ⟨fun i hi => ?_, hF.lt, hF.gone, hp⟩
          have hri := hF.ref i hi
          by_cases hik : i = k
          · subst hik
            simp only [update_self]
            omega
          · simp only [update_of_ne hik]
            rw [hri, ← hE i hik]
        rcases pipeclose_ok h with ⟨ho, rfl⟩ | ⟨ho, hfree⟩
        · refine ⟨hfiles, moved_tables.congr (fun _ => rfl) fun f => pipeUse_eq ?_, rfl,
            fun q hq hne => sameFiles_update (hlast _ q hq hne) rfl rfl⟩
          by_cases hf : f = (s.file k).pipe
          · subst hf
            exact iff_of_true (hthis.2 ho) ⟨k, hpf⟩
          · exact hother f hf
        · have huse : ∀ f, pipeUse s.file f = pipeUse (update s.file k
              { s.file k with ref := 0, type := .none }) f + one (s.file k).pipe f := fun f => by
            by_cases hf : f = (s.file k).pipe
            · subst hf
              have hdead := fun hl => Bool.false_ne_true (ho.symm.trans (hthis.1 hl))
              rw [pipeUse, if_pos ⟨k, hpf⟩, pipeUse, if_neg hdead, one_self]
            · rw [one_ne (Ne.symm hf), Nat.add_zero, pipeUse_eq (hother f hf)]
          have hm := (moved_tables (s := s) (X := pipeUse s.file)).trans
            ((kfree_trans hfree).toMoved.congr huse fun _ => rfl)
          obtain rfl := kfree_ok hfree
          exact ⟨hfiles, hm, rfl, fun q hq hne => sameFiles_update (hlast _ q hq hne) rfl rfl⟩

theorem Files.congr (h : Files s E) {E' : Nat → Nat} (hE : ∀ i, E' i = E i) : Files s E' := by
  rw [funext hE]
  exact h

def Alive (P : Nat → Proc) (p : Nat) : Prop := (P p).state ≠ .unused ∧ (P p).state ≠ .zombie

theorem files_setFd {v : Proc} {o : Option Nat} {E' : Nat → Nat} (h : Files s E) (hp : p < NPROC)
    (hfd : fd < NOFILE) (hv : v.ofile = update (s.proc p).ofile fd o)
    (hst : v.state = (s.proc p).state) (hlive : Alive s.proc p) (ho : ∀ k, o = some k → k < NFILE)
    (hE : ∀ k, oneOf o k + E' k = oneOf ((s.proc p).ofile fd) k + E k) :
    Files { s with proc := update s.proc p v } E' := by
  refine ⟨fun k hk => ?_, fun q hq i hi k hk => ?_, fun q hq hg i hi => ?_, h.pipes⟩
  · have h1 := h.ref k hk
    have h2 := refs_update (k := k) hp hfd hv
    have h3 := hE k
    simp only at h1 ⊢
    omega
  · by_cases hqp : q = p
    · subst hqp
      simp only [update_self, hv] at hk
      by_cases hif : i = fd
      · subst hif
        rw [update_self] at hk
        exact ho k hk
      · rw [update_of_ne hif] at hk
        exact h.lt q hq i hi k hk
    · simp only [update_of_ne hqp] at hk
      exact h.lt q hq i hi k hk
  · by_cases hqp : q = p
    · subst hqp
      simp only [update_self, hst] at hg
      exact absurd hg (not_or.2 hlive)
    · simp only [update_of_ne hqp] at hg ⊢
      exact h.gone q hq hg i hi

/-- The fields of a process that tell which pages it has. -/
structure Proc.Keeps (v v' : Proc) : Prop where
  state : v'.state = v.state
  sz : v'.sz = v.sz
  pgdir : v'.pgdir = v.pgdir
  kstack : v'.kstack = v.kstack

theorem Proc.Keeps.refl {v : Proc} : v.Keeps v := ⟨rfl, rfl, rfl, rfl⟩

theorem Proc.Keeps.trans {v v' v'' : Proc} (h : v.Keeps v') (h' : v'.Keeps v'') : v.Keeps v'' :=
  ⟨h'.state.trans h.state, h'.sz.trans h.sz, h'.pgdir.trans h.pgdir, h'.kstack.trans h.kstack⟩

theorem keeps_update {v : Proc} (hv : (P p).Keeps v) : (P q).Keeps (update P p v q) := by
  by_cases hq : q = p
  · subst hq
    rwa [update_self]
  · rw [update_of_ne hq]
    exact Proc.Keeps.refl

/-- A step of process `p` on its descriptors. -/
structure FdStep (p : Nat) (s s' : Kernel) (E : Nat → Nat) : Prop where
  files : Files s' E
  moved : Moved s (pipeUse s.file) s' (pipeUse s'.file)
  proc : ∀ q, (s.proc q).Keeps (s'.proc q)
  other : ∀ q, q ≠ p → s'.proc q = s.proc q
  kept : ∀ q < NPROC, q ≠ p → SameFiles s s' q

theorem FdStep.refl (h : Files s E) : FdStep p s s E :=
  ⟨h, Moved.refl, fun _ => Proc.Keeps.refl, fun _ _ => rfl, fun _ _ _ => sameFiles_of_eq rfl rfl⟩

theorem FdStep.comp (h : FdStep p s s' E) {E' : Nat → Nat} (h' : FdStep p s' s'' E') :
    FdStep p s s'' E' :=
  ⟨h'.files, h.moved.trans h'.moved, fun q => (h.proc q).trans (h'.proc q),
    fun q hq => (h'.other q hq).trans (h.other q hq), fun q hq hne =>
      (h.kept q hq hne).trans (h'.kept q hq hne)⟩

theorem FileStep.fdStep (h : FileStep p s s' E) : FdStep p s s' E :=
  ⟨h.files, h.moved, fun q => by rw [h.proc]; exact Proc.Keeps.refl, fun q _ => by rw [h.proc], h.kept⟩

theorem FdStep.alive (h : FdStep p s s' E) (hp : Alive s.proc p) : Alive s'.proc p := by
  unfold Alive
  rw [(h.proc p).state]
  exact hp

theorem fdStep_setProc {v : Proc} (hv : (s.proc p).Keeps v)
    (h : Files { s with proc := update s.proc p v } E) :
    FdStep p s { s with proc := update s.proc p v } E :=
  ⟨h, moved_tables, fun _ => keeps_update hv, fun _ hq => update_of_ne hq ..,
    fun q _ hq => sameFiles_of_eq rfl (by simp only [update_of_ne hq])⟩

theorem fdalloc_spec {r : Option Nat} (h : fdalloc p k s = .ok (r, s')) (hp : p < NPROC)
    (hk : k < NFILE) (hlive : Alive s.proc p) :
    (r = none ∧ s' = s) ∨ ∃ fd, r = some fd ∧ fd < NOFILE ∧ (s.proc p).ofile fd = none ∧
      s' = { s with
        proc := update s.proc p
          { s.proc p with ofile := update (s.proc p).ofile fd (some k) } } ∧
      ∀ E, Files s (fun i => E i + one k i) → FdStep p s s' E := by
  unfold fdalloc at h
  rw [bind_ok] at h
  obtain ⟨_, _, hg, h⟩ := h
  cases hg
  cases hfind : (List.range NOFILE).find? fun fd => ((s.proc p).ofile fd).isNone with
  | none =>
    simp only [hfind] at h
    obtain ⟨rfl, rfl⟩ := pure_ok.1 h
    exact .inl ⟨rfl, rfl⟩
  | some fd =>
    simp only [hfind, bind_ok] at h
    obtain ⟨_, s1, hset, h⟩ := h
    cases hset
    obtain ⟨rfl, rfl⟩ := pure_ok.1 h
    obtain ⟨hfd, hn⟩ := find_some hfind
    rw [Option.isNone_iff_eq_none] at hn
    refine .inr ⟨fd, rfl, hfd, hn, rfl, fun E hF => fdStep_setProc ⟨rfl, rfl, rfl, rfl⟩ ?_⟩
    refine files_setFd hF hp hfd rfl rfl hlive (fun i hi => by cases hi; exact hk) fun i => ?_
    simp only [hn, oneOf, one, Option.some.injEq, reduceCtorEq, if_false]
    omega

theorem kalloc_pipes {r : Option Nat} (h : kalloc s = .ok (r, s')) (hF : Files s E) :
    Files s' E ∧ s'.file = s.file ∧ s'.proc = s.proc := by
  obtain ⟨fs, ⟨-, rfl⟩ | ⟨f, fl, -, -, rfl⟩⟩ := kalloc_cases h
  · exact ⟨⟨hF.ref, hF.lt, hF.gone, hF.pipes⟩, rfl, rfl⟩
  · exact ⟨⟨hF.ref, hF.lt, hF.gone, hF.pipes⟩, rfl, rfl⟩

theorem files_create {i0 i1 : Nat} {F : Nat → File} (h : Files s E) (hne : i0 ≠ i1)
    (h0 : i0 < NFILE) (h1 : i1 < NFILE) (hr0 : 0 < (s.file i0).ref) (hr1 : 0 < (s.file i1).ref)
    (ht0 : (s.file i0).type ≠ .pipe) (ht1 : (s.file i1).type ≠ .pipe) (hf : ¬ LivePipe s.file f)
    (hF : F = update (update s.file i0
        { s.file i0 with type := .pipe, readable := true, writable := false, pipe := f }) i1
        { s.file i1 with type := .pipe, readable := false, writable := true, pipe := f }) :
    Files { s with file := F, pipe := update s.pipe f ⟨true, true⟩ } E ∧
      ∀ g, pipeUse F g = pipeUse s.file g + one f g := by
  obtain ⟨hp, hl⟩ := h.pipes.create hne h0 h1 hr0 hr1 ht0 ht1 hf rfl rfl
  rw [← hF] at hp hl
  refine ⟨⟨fun i hi => ?_, h.lt, h.gone, hp⟩, fun g => ?_⟩
  · have hr : (F i).ref = (s.file i).ref := by
      rw [hF]
      by_cases hi1 : i = i1
      · rw [hi1, update_self]
      · rw [update_of_ne hi1]
        by_cases hi0 : i = i0
        · rw [hi0, update_self]
        · rw [update_of_ne hi0]
    exact hr.trans (h.ref i hi)
  · by_cases hg : g = f
    · subst hg
      rw [pipeUse, if_pos ((hl g).2 (.inl rfl)), pipeUse, if_neg hf, one_self]
    · rw [one_ne (Ne.symm hg), Nat.add_zero]
      exact pipeUse_eq ((hl g).trans (or_iff_right hg))

theorem pipealloc_spec {r : Option (Nat × Nat)} (h : pipealloc L s = .ok (r, s')) (hF : Files s E)
    (hown : ∀ f, pool s f + pipeUse s.file f ≤ 1) : (r = none ∧ FileStep p s s' E) ∨
      ∃ i0 i1, r = some (i0, i1) ∧ i0 < NFILE ∧ i1 < NFILE ∧
        FileStep p s s' (fun i => E i + one i0 i + one i1 i) := by
  unfold pipealloc at h
  rw [bind_ok] at h
  obtain ⟨o, s1, ha, h⟩ := h
  rcases filealloc_spec (p := p) ha hF with ⟨rfl, rfl⟩ | ⟨i0, rfl, h0, hr0, hs1, hstep1⟩
  · obtain ⟨rfl, rfl⟩ := pure_ok.1 h
    exact .inl ⟨rfl, hF, Moved.refl, rfl, fun _ _ _ => sameFiles_of_eq rfl rfl⟩
  · rw [bind_ok] at h
    obtain ⟨o, s2, ha, h⟩ := h
    rcases filealloc_spec (p := p) ha hstep1.files with ⟨rfl, rfl⟩ | ⟨i1, rfl, h1, hr1, hs2, hstep2⟩
    · simp only [bind_ok] at h
      obtain ⟨_, s3, hc, h⟩ := h
      obtain ⟨rfl, rfl⟩ := pure_ok.1 h
      exact .inl ⟨rfl, hstep1.comp (fileclose_spec hc h0 hstep1.files)⟩
    · have hstep := hstep1.comp hstep2
      rw [bind_ok] at h
      obtain ⟨o, s3, hk, h⟩ := h
      obtain ⟨hF3, hfile, hproc⟩ := kalloc_pipes hk hstep.files
      have hsame : ∀ q, SameFiles s2 s3 q := fun q => sameFiles_of_eq hfile (by rw [hproc])
      cases o with
      | none =>
        simp only [bind_ok] at h
        obtain ⟨_, s4, hc0, _, s5, hc1, h⟩ := h
        obtain ⟨rfl, rfl⟩ := pure_ok.1 h
        have hm : Moved s2 (pipeUse s2.file) s3 (pipeUse s3.file) := by
          rw [hfile]
          exact (kalloc_none hk).2.toMoved
        have hstep3 : FileStep p s2 s3 (fun i => E i + one i0 i + one i1 i) :=
          ⟨hF3, hm, hproc, fun q _ _ => hsame q⟩
        have hstep4 := fileclose_spec (E := fun i => E i + one i1 i) (p := p) hc0 h0
          (hF3.congr fun i => by omega)
        exact .inl ⟨rfl, (hstep.comp hstep3).comp (hstep4.comp (fileclose_spec hc1 h1 hstep4.files))⟩
      | some f =>
        obtain ⟨-, htr⟩ := kalloc_some (X := pipeUse s2.file) hk
        have hne : i0 ≠ i1 := by
          rintro rfl
          rw [hs1] at hr1
          simp at hr1
        have hdead : ¬ LivePipe s2.file f := fun hl => by
          have h1 := htr.count f
          have h2 := hstep.moved.count f
          have h3 := hown f
          have h4 := pipeUse_pos.2 hl
          rw [one_self] at h1
          omega
        have hf1 : s2.file i1 = { s1.file i1 with ref := 1 } := by
          rw [hs2]
          exact update_self ..
        have hf0 : s2.file i0 = { s.file i0 with ref := 1 } := by
          rw [hs2, hs1]
          exact (update_of_ne hne _ _).trans (update_self ..)
        have ht0 : (s2.file i0).type ≠ .pipe := by
          rw [hf0]
          simp [hF.pipes.closed i0 h0 hr0]
        have ht1 : (s2.file i1).type ≠ .pipe := by
          rw [hf1]
          simp [hstep1.files.pipes.closed i1 h1 hr1]
        cases h
        rw [← hfile] at hdead hf0 hf1 ht0 ht1
        have hcreate := fun F => files_create (F := F) hF3 hne h0 h1 (by rw [hf0]; exact Nat.one_pos)
          (by rw [hf1]; exact Nat.one_pos) ht0 ht1 hdead
        have hu : ∀ v, update s3.file i0 v i1 = s3.file i1 := fun v => by
          rw [update_of_ne hne.symm]
        -- no descriptor names the new files yet
        have hnew : ∀ i, (s3.file i).ref = 1 → i = i0 ∨ i = i1 → i < NFILE → ∀ q < NPROC, ∀ fd < NOFILE,
            (s3.proc q).ofile fd ≠ some i := fun i hi hor hlt q hq fd hfd hof => by
          have hr := hF3.ref i hlt
          have hpos := refs_pos hq hfd hof
          have hone : 1 ≤ one i0 i + one i1 i := by
            rcases hor with rfl | rfl
            · rw [one_self]
              omega
            · rw [one_self]
              omega
          omega
        refine .inr ⟨i0, i1, rfl, h0, h1, hstep.comp ⟨(hcreate _ ?_).1, ?_, hproc, fun q hq _ =>
          (hsame q).trans fun fd hfd i hi => ?_⟩⟩
        · simp only [hu]
        · refine htr.toMoved.trans (moved_tables.congr (fun _ => rfl) fun g => ?_)
          rw [← hfile]
          exact (hcreate _ (by simp only [hu])).2 g
        · have hi0 : i ≠ i0 := by
            rintro rfl
            exact hnew i (by rw [hf0]) (.inl rfl) h0 q hq fd hfd hi
          have hi1 : i ≠ i1 := by
            rintro rfl
            exact hnew i (by rw [hf1]) (.inr rfl) h1 q hq fd hfd hi
          simp only [update_of_ne hi0, update_of_ne hi1]
          exact ⟨hi, trivial, trivial⟩

/-! ## System calls on descriptors -/

theorem fdStep_clear (hF : Files s E) (hp : p < NPROC) (hfd : fd < NOFILE) (hlive : Alive s.proc p)
    (hk : (s.proc p).ofile fd = some k) :
    FdStep p s { s with
      proc := update s.proc p
        { s.proc p with ofile := update (s.proc p).ofile fd none } }
      (fun i => E i + one k i) := by
  refine fdStep_setProc ⟨rfl, rfl, rfl, rfl⟩
    (files_setFd hF hp hfd rfl rfl hlive (fun _ h => by cases h) fun i => ?_)
  simp only [hk, oneOf, one, Option.some.injEq, reduceCtorEq, if_false]
  omega

theorem fdStep_dup (hF : Files s E) (hp : p < NPROC) (hfd : fd < NOFILE) (hlive : Alive s.proc p)
    (hn : (s.proc p).ofile fd = none) (hk : k < NFILE) (hpos : 0 < (s.file k).ref) :
    FdStep p s { s with
      proc := update s.proc p
        { s.proc p with ofile := update (s.proc p).ofile fd (some k) }
      file := update s.file k { s.file k with ref := (s.file k).ref + 1 } } E := by
  -- count the new reference before the new descriptor
  have hstep := fileStep_dup (p := p) hF hk hpos
  refine hstep.fdStep.comp (fdStep_setProc ⟨rfl, rfl, rfl, rfl⟩
    (files_setFd hstep.files hp hfd rfl rfl hlive (fun i hi => by cases hi; exact hk) fun i => ?_))
  simp only [hn, oneOf, one, Option.some.injEq, reduceCtorEq, if_false]
  omega

theorem fd_some {o : Option Nat} (h : (if fd < NOFILE then o else none) = some k) :
    fd < NOFILE ∧ o = some k := by
  split at h
  · exact ⟨‹_›, h⟩
  · cases h

section
variable {r : Int} (hp : p < NPROC) (hlive : Alive s.proc p) (hF : Files s fun _ => 0)
include hp hlive hF

theorem sysClose_spec (h : sysClose L p fd s = .ok (r, s')) : FdStep p s s' fun _ => 0 := by
  unfold sysClose at h
  rw [bind_ok] at h
  obtain ⟨_, _, hg, h⟩ := h
  cases hg
  cases ho : if fd < NOFILE then (s.proc p).ofile fd else none with
  | none =>
    simp only [ho] at h
    obtain ⟨-, rfl⟩ := pure_ok.1 h
    exact FdStep.refl hF
  | some k =>
    obtain ⟨hfd, hk⟩ := fd_some ho
    simp only [ho, bind_ok] at h
    obtain ⟨_, s1, hset, _, s2, hc, h⟩ := h
    obtain ⟨-, rfl⟩ := pure_ok.1 h
    cases hset
    have hstep := fdStep_clear hF hp hfd hlive hk
    exact hstep.comp (fileclose_spec hc (hF.lt p hp fd hfd k hk) hstep.files).fdStep

theorem sysDup_spec (h : sysDup p fd s = .ok (r, s')) : FdStep p s s' fun _ => 0 := by
  unfold sysDup at h
  rw [bind_ok] at h
  obtain ⟨_, _, hg, h⟩ := h
  cases hg
  cases ho : if fd < NOFILE then (s.proc p).ofile fd else none with
  | none =>
    simp only [ho] at h
    obtain ⟨-, rfl⟩ := pure_ok.1 h
    exact FdStep.refl hF
  | some k =>
    obtain ⟨hfd, hk⟩ := fd_some ho
    have hlt := hF.lt p hp fd hfd k hk
    simp only [ho] at h
    rw [bind_ok] at h
    obtain ⟨o, s1, ha, h⟩ := h
    rcases fdalloc_spec ha hp hlt hlive with ⟨rfl, rfl⟩ | ⟨fd', rfl, hfd', hn, rfl, -⟩
    · obtain ⟨-, rfl⟩ := pure_ok.1 h
      exact FdStep.refl hF
    · simp only [bind_ok] at h
      obtain ⟨_, s2, hd, h⟩ := h
      obtain ⟨-, rfl⟩ := pure_ok.1 h
      obtain ⟨hpos, rfl⟩ := filedup_ok hd
      exact fdStep_dup hF hp hfd' hlive hn hlt hpos

theorem sysOpen_spec (h : sysOpen L p b c s = .ok (r, s')) : FdStep p s s' fun _ => 0 := by
  unfold sysOpen at h
  rw [bind_ok] at h
  obtain ⟨o, s1, ha, h⟩ := h
  rcases filealloc_spec (p := p) ha hF with ⟨rfl, rfl⟩ | ⟨k, rfl, hk, hr, hs1, hstep⟩
  · obtain ⟨-, rfl⟩ := pure_ok.1 h
    exact FdStep.refl hF
  · rw [bind_ok] at h
    obtain ⟨o, s2, hfd, h⟩ := h
    rcases fdalloc_spec hfd hp hk (hstep.fdStep.alive hlive) with
      ⟨rfl, rfl⟩ | ⟨fd, rfl, hfd, hn, rfl, hset⟩
    · simp only [bind_ok] at h
      obtain ⟨_, s3, hc, h⟩ := h
      obtain ⟨-, rfl⟩ := pure_ok.1 h
      exact (hstep.comp (fileclose_spec hc hk hstep.files)).fdStep
    · have hstep2 := hstep.fdStep.comp (hset _ hstep.files)
      have ht : (s1.file k).type ≠ .pipe := by
        rw [hs1]
        simp only [update_self]
        simp [hF.pipes.closed k hk hr]
      have hpos : 0 < (s1.file k).ref := by
        rw [hs1]
        simp only [update_self]
        exact Nat.one_pos
      cases h
      refine hstep2.comp (fileStep_update (Z := fun _ => 0) hstep2.files hk (fun f => ?_)
        (fun _ h => ?_) (fun h => ?_) ?_ (fun _ _ => ?_) fun q hq hne fd' hfd' hof => ?_).fdStep
      · simp [ht]
      · cases h
      · exact absurd h (Nat.ne_of_gt hpos)
      · rfl
      · rfl
      · -- no process but `p` has the file, which was free
        simp only [update_of_ne hne] at hof
        have := hstep.files.ref k hk
        have := refs_pos hq hfd' hof
        simp only [hs1, update_self, one_self] at *
        omega

end

end Vm
