import Xv6.Vm.Proof.Boot

/-!
# Growing and shrinking an address space

What `allocuvm`, `deallocuvm` and `growproc` do to the user mappings of a directory, for every
pattern of failures of `kalloc`. `Resized s s' d x y`: only the pages from `x` to `y` are mapped anew,
the other mappings, and the contents of the pages they map, are kept.
-/

namespace Vm

open Bytes Panic Finset Function

variable {L : Layout} {s s' : Kernel} {m : Nat → Store}
  {d f g i j k w n a x y z p oldsz newsz : Nat}

/-! ## User mappings -/

def Sized (m : Nat → Store) (d sz : Nat) : Prop :=
  ∀ x < 2 ^ 19, (mapping m d x).isSome = true ↔ x * PGSIZE < pgroundup sz

/-! ## `deallocuvm` and `allocuvm` -/

theorem sized_iff (h : k ≤ KERNBASE) :
    Sized m d k ↔ ∀ x < 2 ^ 19, (mapping m d x).isSome = true ↔ x < pageCount k := by
  obtain ⟨h1, -, -⟩ := pageCount_spec h
  refine forall_congr' fun x => forall_congr' fun _ => ?_
  rw [h1, Nat.mul_lt_mul_right (show 0 < PGSIZE by decide)]

/-- **`deallocuvm` unmaps its range**, with or without page tables in it. -/
theorem deallocuvm_cut (hold : oldsz ≤ KERNBASE) (hlt : newsz < oldsz)
    (ho : Own s (dirUse s.mem d)) (hw : Within L s (dirUse s.mem d)) :
    ∃ s', Steady (deallocuvm L d oldsz newsz) s newsz s' ∧
      Resized s s' d (pageCount newsz) (pageCount oldsz) ∧
      ∀ z, pageCount newsz ≤ z → z < pageCount oldsz → mapping s'.mem d z = none := by
  have hcount := (pageCount_spec hold).2.1
  obtain ⟨s', hrun, he⟩ := deallocuvm_steady hold hlt ho hw
  exact ⟨s', hrun, he.resized ho.solo hcount, fun z h1 h2 => he.gone (by omega) h1 h2⟩

theorem First.owned (hup : Up L s) (h : First s d) :
    Own s (dirUse s.mem d) ∧ Within L s (dirUse s.mem d) ∧ Sized s.mem d (s.proc 0).sz := by
  have hi := hup.inv h.hist
  have hst : (s.proc 0).state ≠ .unused := by simp [h.state]
  obtain ⟨k, hsp⟩ := hi.space_of (by decide) hst h.pgdir
  refine ⟨hi.own_dir (by decide) hst hsp, hi.within_dir (by decide) hst hsp, ?_⟩
  rw [h.sz, sized_iff (by decide)]
  intro x hx
  rcases Nat.eq_zero_or_pos x with rfl | hpos
  · obtain ⟨g, hg⟩ := h.pte
    refine iff_of_true ?_ (by decide)
    rw [mapping_some.2 ⟨rfl, ?_⟩]
    · rfl
    · rw [pageEnt, show entry s.mem d (0 / 1024) (0 % 1024) = _ from hg, Option.getD_some, present_mkPte]
  · rw [mapping_none.2 (h.rest x hpos hx), show pageCount PGSIZE = 1 from rfl]
    exact iff_of_false (by simp) (by omega)

/-! ## All or nothing -/

/-- The memory grew, by zeroed pages of its own. -/
structure Grew (s s' : Kernel) (d oldsz newsz : Nat) : Prop where
  sized : Sized s'.mem d newsz
  fresh : ∀ x, pgroundup oldsz ≤ x * PGSIZE → x * PGSIZE < pgroundup newsz → ∃ f ∈ s.freelist,
    mapping s'.mem d x = some (userPte f) ∧ s'.mem f = fill 0
  distinct : ∀ x < 2 ^ 19, ∀ y < 2 ^ 19, ∀ v w, mapping s'.mem d x = some v →
    mapping s'.mem d y = some w → pteAddr v = pteAddr w → x = y
  kept : ∀ x < 2 ^ 19, x * PGSIZE < pgroundup oldsz → mapping s'.mem d x = mapping s.mem d x ∧
    ∀ w, mapping s.mem d x = some w → s'.mem (pteAddr w) = s.mem (pteAddr w)

/-- Every free page is free again, unless it became a page table of `d`. -/
def Returned (s s' : Kernel) (d : Nat) : Prop :=
  ∀ f ∈ s.freelist, f ∈ s'.freelist ∨ (IsTable s'.mem d f ∧ ¬ IsTable s.mem d f)

theorem Returned.refl : Returned s s d := fun _ hf => .inl hf

theorem SameSpace.userUse (h : SameSpace s s' d) : Vm.userUse s'.mem d f = Vm.userUse s.mem d f := by
  have hentry : ∀ {m : Nat → Store} {i j : Nat}, j < 1024 →
      entryUse (entry m d i j) f = entryUse (mapping m d (i * 1024 + j)) f := by
    intro m i j hj
    have hi : (i * 1024 + j) / 1024 = i := by omega
    have hj' : (i * 1024 + j) % 1024 = j := by omega
    cases hm : mapping m d (i * 1024 + j) with
    | some w =>
      have := entry_of_mapping hm
      rw [hi, hj'] at this
      rw [this]
    | none =>
      have := mapping_none.1 hm
      rw [pageEnt, hi, hj'] at this
      exact entryUse_absent this
  unfold Vm.userUse
  refine sum_congr rfl fun x hx => ?_
  obtain ⟨h1, h2⟩ := mem_userPages.1 hx
  rw [hentry h2, hentry h2, (h (x.1 * 1024 + x.2) (by omega)).1]

theorem SameSpace.returned (h : SameSpace s s' d) (ho : Own s (dirUse s.mem d))
    (hr : Added s s' d x y) : Returned s s' d := by
  intro f hf
  have hpool : 0 < s.freelist.count f := List.count_pos_iff.2 hf
  have h1 := ho.le_one f
  have h2 := hr.trans.count f
  unfold pool dirUse at h1 h2
  rw [hr.hist, h.userUse] at h2
  by_cases hfree : f ∈ s'.freelist
  · exact .inl hfree
  · have h0 : s'.freelist.count f = 0 := List.count_eq_zero.2 hfree
    exact .inr ⟨isTable_iff.2 (by omega), fun ht => by have := isTable_iff.1 ht; omega⟩

/-- **`allocuvm` returns**, with one of these outcomes. -/
theorem allocuvm_total (newsz : Nat) (ho : Own s (dirUse s.mem d))
    (hw : Within L s (dirUse s.mem d))
    (hnone : oldsz < KERNBASE → ∀ z, pageCount oldsz ≤ z → z < 2 ^ 19 → mapping s.mem d z = none) :
    ∃ r s', allocuvm L d oldsz newsz s = .ok (r, s') ∧ Alloc s s' d oldsz newsz r :=
  (allocuvm_ends newsz ho).returns fun _ h => h ⟨hw, hnone⟩

theorem Sized.none (h : Sized m d oldsz) (hk : oldsz < KERNBASE) (hz : pageCount oldsz ≤ z)
    (hlt : z < 2 ^ 19) : mapping m d z = none := by
  rw [← Option.not_isSome_iff_eq_none, (sized_iff hk.le).1 h z hlt]
  omega

theorem Fresh.grew (hf : Fresh s s' d (pageCount oldsz) (pageCount newsz))
    (hr : Resized s s' d (pageCount oldsz) (pageCount newsz)) (hk : newsz < KERNBASE)
    (hle : oldsz ≤ newsz) (ho : Own s (dirUse s.mem d)) (hsz : Sized s.mem d oldsz) :
    Grew s s' d oldsz newsz := by
  obtain ⟨h1, -, -⟩ := pageCount_spec (k := oldsz) (by omega)
  obtain ⟨h4, h5, -⟩ := pageCount_spec (k := newsz) (by omega)
  rw [sized_iff (by omega)] at hsz
  have hmono : pageCount oldsz ≤ pageCount newsz := pageCount_mono (by omega) hle
  refine ⟨?_, fun x hx hx' => ?_, fun x hx y hy v w hv hw' =>
    (ho.trans hr.trans).solo.mapping_inj hx hy hv hw', fun x hx hx' => ?_⟩
  · rw [sized_iff (by omega)]
    intro x hx
    by_cases hnew : pageCount oldsz ≤ x ∧ x < pageCount newsz
    · obtain ⟨f, -, hm, -⟩ := hf x hnew.1 hnew.2
      rw [hm]
      exact iff_of_true rfl hnew.2
    · rw [hr.mapping hx (by omega), hsz x hx]
      omega
  · refine hf x ?_ ?_
    · rw [h1] at hx
      exact Nat.le_of_mul_le_mul_right hx (by decide)
    · rw [h4] at hx'
      exact Nat.lt_of_mul_lt_mul_right hx'
  · have hlt : x < pageCount oldsz := by
      rw [h1] at hx'
      exact Nat.lt_of_mul_lt_mul_right hx'
    exact ⟨hr.mapping hx (.inl hlt), hr.data x hx (.inl hlt)⟩

theorem Resized.sameSpace (hr : Resized s s' d x y)
    (hnone : ∀ z, x ≤ z → z < 2 ^ 19 → Vm.mapping s.mem d z = none)
    (hgone : ∀ z, x ≤ z → z < y → Vm.mapping s'.mem d z = none) : SameSpace s s' d := fun z hz => by
  by_cases hin : x ≤ z ∧ z < y
  · rw [hgone z hin.1 hin.2, hnone z hin.1 hz]
    exact ⟨rfl, nofun⟩
  · exact ⟨hr.mapping hz (by omega), hr.data z hz (by omega)⟩

/-- **`allocuvm` rolls back**: it grows the address space, or leaves it as it was with every page
for data free again. -/
theorem allocuvm_rolls_back (newsz : Nat) (ho : Own s (dirUse s.mem d))
    (hw : Within L s (dirUse s.mem d)) (hsz : Sized s.mem d oldsz) :
    ∃ r s', allocuvm L d oldsz newsz s = .ok (r, s') ∧
      (r = newsz ∨ r = 0 ∨ newsz < oldsz ∧ r = oldsz) ∧
      (r = newsz → oldsz < newsz → Grew s s' d oldsz newsz) ∧
      (r = 0 → SameSpace s s' d ∧ Returned s s' d) := by
  obtain ⟨r, s', hrun, hres⟩ := allocuvm_total newsz ho hw fun hk z => hsz.none hk
  refine ⟨r, s', hrun, ?_⟩
  cases hres with
  | refused hk hs =>
    subst hs
    exact ⟨.inr (.inl rfl), fun h h' => by omega, fun _ => ⟨.refl, .refl⟩⟩
  | smaller hk hlt hs =>
    subst hs
    exact ⟨.inr (.inr ⟨hlt, rfl⟩), fun h h' => by omega, fun _ => ⟨.refl, .refl⟩⟩
  | grown hk hle hr hf =>
    refine ⟨.inl rfl, fun _ _ => hf.grew hr hk hle ho hsz, fun h0 => ?_⟩
    obtain rfl : oldsz = newsz := by omega
    have hsame : SameSpace s s' d := fun z hz => ⟨hr.mapping hz (by omega), hr.data z hz (by omega)⟩
    exact ⟨hsame, hsame.returned ho hr.toAdded⟩
  | failed hk hlt hr hgone =>
    have hsame := hr.sameSpace (fun z => hsz.none (by omega)) hgone
    exact ⟨.inr (.inl rfl), fun h => by omega, fun _ => ⟨hsame, hsame.returned ho hr.toAdded⟩⟩

theorem allocuvm_rolls_back_first : ∃ s d, First s d ∧ Sized s.mem d PGSIZE ∧
    ∃ r s', allocuvm smallLayout d PGSIZE (3 * PGSIZE) s = .ok (r, s') ∧
      (r = 3 * PGSIZE ∨ r = 0 ∨ 3 * PGSIZE < PGSIZE ∧ r = PGSIZE) ∧
      (r = 3 * PGSIZE → PGSIZE < 3 * PGSIZE → Grew s s' d PGSIZE (3 * PGSIZE)) ∧
      (r = 0 → SameSpace s s' d ∧ Returned s s' d) := by
  obtain ⟨s, d, hup, hfirst⟩ := boot_first smallLayout_first
  obtain ⟨ho, hw, hsz⟩ := hfirst.owned hup
  rw [hfirst.sz] at hsz
  exact ⟨s, d, hfirst, hsz, allocuvm_rolls_back (3 * PGSIZE) ho hw hsz⟩

/-! ## `growproc` -/

/-- What `growproc` is for: with the result 0 the process has `n` bytes more, with the result -1 it
is as it was. -/
def AllOrNothing (L : Layout) (s : Kernel) (p d : Nat) (n : Int) : Prop :=
  ∃ r s', growproc L p n s = .ok (r, s') ∧ (r = 0 ∨ r = -1) ∧ (s'.proc p).pgdir = some d ∧
    (r = 0 → ((s'.proc p).sz : Int) = (s.proc p).sz + n ∧ 0 ≤ (s.proc p).sz + n ∧
      (s.proc p).sz + n < KERNBASE ∧ Sized s'.mem d (s'.proc p).sz) ∧
    (r = -1 → (s'.proc p).sz = (s.proc p).sz ∧ SameSpace s s' d)

section
variable (hd : (s.proc p).pgdir = some d)
include hd

theorem growproc_run {n : Int} {r : Nat} (h : resize L d (s.proc p).sz n s = .ok (r, s')) :
    growproc L p n s = if n ≠ 0 ∧ r = 0 then .ok (-1, s') else
      .ok (0, { s' with proc := update s'.proc p { s'.proc p with sz := r } }) := by
  unfold growproc
  rw [bind_run (curdir_steady hd s.fail), bind_run get_run, bind_run h]
  split <;> rfl

theorem growproc_grow {n : Int} (hk : (s.proc p).sz < KERNBASE)
    (hsz : Sized s.mem d (s.proc p).sz) (hpos : 0 < n) (hn : n < 2 ^ 31)
    (ho : Own s (dirUse s.mem d)) (hw : Within L s (dirUse s.mem d)) : AllOrNothing L s p d n := by
  generalize hold : (s.proc p).sz = oldsz at *
  have hnew : ((oldsz + n) % UINT).toNat = oldsz + n.toNat := by
    unfold KERNBASE UINT at *
    omega
  obtain ⟨r, s', hrun, hres⟩ := allocuvm_total (oldsz + n.toNat) ho hw fun hk z => hsz.none hk
  have hrz : resize L d (s.proc p).sz n s = .ok (r, s') := by
    rw [resize, if_pos hpos, hold, hnew]
    exact hrun
  have hgp := growproc_run hd hrz
  have hfail : s'.proc = s.proc → SameSpace s s' d → r = 0 → AllOrNothing L s p d n := by
    intro hproc hsame hz
    rw [if_pos ⟨by omega, hz⟩] at hgp
    refine ⟨-1, s', hgp, .inr rfl, by rw [hproc, hd], fun h => absurd h (by decide), fun _ => ?_⟩
    rw [hproc]
    exact ⟨rfl, hsame⟩
  cases hres with
  | refused hk hs =>
    subst hs
    exact hfail rfl .refl rfl
  | smaller hk hlt hs => omega
  | grown hk hle hr hf =>
    have hproc : s'.proc = s.proc := hr.trans.proc
    rw [if_neg (by omega)] at hgp
    refine ⟨0, _, hgp, .inl rfl, ?_, fun _ => ?_, fun h => absurd h (by decide)⟩
    · simp only [update_self, hproc, hd]
    · simp only [update_self, hold]
      exact ⟨by omega, by omega, by omega, (hf.grew hr hk hle ho hsz).sized⟩
  | failed hk hlt hr hgone =>
    exact hfail hr.trans.proc (hr.sameSpace (fun z => hsz.none (by omega)) hgone) rfl

theorem growproc_shrink {n : Int} (hk : (s.proc p).sz < KERNBASE)
    (hsz : Sized s.mem d (s.proc p).sz) (hneg : n < 0) (hpos : 0 < (s.proc p).sz + n)
    (ho : Own s (dirUse s.mem d)) (hw : Within L s (dirUse s.mem d)) : AllOrNothing L s p d n := by
  generalize hold : (s.proc p).sz = oldsz at *
  obtain ⟨newsz, hnew⟩ : ∃ newsz : Nat, (newsz : Int) = oldsz + n := ⟨(oldsz + n).toNat, by omega⟩
  have hmod : ((oldsz + n) % UINT).toNat = newsz := by
    unfold KERNBASE UINT at *
    omega
  obtain ⟨s', hrun, hr, hgone⟩ := deallocuvm_cut hk.le
    (show newsz < oldsz by omega) ho hw
  have hres : resize L d (s.proc p).sz n s = .ok (newsz, { s' with fail := s.fail }) := by
    rw [resize, if_neg (by omega), if_pos hneg, hold, hmod]
    exact hrun s.fail
  have hgp := growproc_run hd hres
  rw [if_neg (by omega)] at hgp
  have hproc : s'.proc = s.proc := hr.trans.proc
  rw [sized_iff (by omega)] at hsz
  have hmono : pageCount newsz ≤ pageCount oldsz := pageCount_mono (by omega) (by omega)
  refine ⟨0, _, hgp, .inl rfl, ?_, fun _ => ?_, fun h => absurd h (by decide)⟩
  · simp only [update_self, hproc, hd]
  · simp only [update_self, hold]
    refine ⟨hnew, by omega, by omega, ?_⟩
    rw [sized_iff (by omega)]
    intro x hx
    by_cases hcut : pageCount newsz ≤ x ∧ x < pageCount oldsz
    · rw [hgone x hcut.1 hcut.2]
      exact iff_of_false (by simp) (by omega)
    · rw [hr.mapping hx (by omega), hsz x hx]
      omega

theorem growproc_wrap {n : Int} (hk : (s.proc p).sz < KERNBASE)
    (hneg : (s.proc p).sz + n < 0) (hn : -2 ^ 31 ≤ n) :
    growproc L p n s = .ok (if (s.proc p).sz = 0 then -1 else 0, s) := by
  have hres : resize L d (s.proc p).sz n s = .ok ((s.proc p).sz, s) := by
    rw [resize, if_neg (by omega), if_pos (by omega), deallocuvm, if_pos (by
      unfold KERNBASE UINT at *
      omega)]
    rfl
  rw [growproc_run hd hres]
  by_cases hz : (s.proc p).sz = 0
  · rw [if_pos ⟨by omega, hz⟩, if_pos hz]
  · rw [if_neg (fun h => hz h.2), if_neg hz]
    simp only [update_eq_self]

theorem growproc_all {n : Int} (hk : (s.proc p).sz < KERNBASE)
    (hpos : 0 < (s.proc p).sz) (hn : (s.proc p).sz + n = 0) (ho : Own s (dirUse s.mem d))
    (hw : Within L s (dirUse s.mem d)) :
    ∃ s', growproc L p n s = .ok (-1, s') ∧ mapping s'.mem d 0 = none := by
  obtain ⟨s', hrun, -, hgone⟩ := deallocuvm_cut hk.le hpos ho hw
  have hres : resize L d (s.proc p).sz n s = .ok (0, { s' with fail := s.fail }) := by
    rw [resize, if_neg (by omega), if_pos (by omega), hn]
    exact hrun s.fail
  refine ⟨_, (growproc_run hd hres).trans (if_pos ⟨by omega, rfl⟩), hgone 0 (by decide) ?_⟩
  exact ((pageCount_spec (k := (s.proc p).sz) (by omega)).2.2 0).1 (by omega)

end

/-- **`sbrk` is all-or-nothing exactly when** it does not shrink the process to nothing or below. -/
theorem growproc_all_or_nothing {n : Int} (hd : (s.proc p).pgdir = some d)
    (hk : (s.proc p).sz < KERNBASE) (hsz : Sized s.mem d (s.proc p).sz) (hn : -2 ^ 31 ≤ n)
    (hn' : n < 2 ^ 31) (ho : Own s (dirUse s.mem d)) (hw : Within L s (dirUse s.mem d)) :
    AllOrNothing L s p d n ↔ 0 ≤ n ∨ 0 < (s.proc p).sz + n ∨ (s.proc p).sz = 0 := by
  refine ⟨fun ⟨r, s', hrun, hr, _, h0, h1⟩ => ?_, fun h => ?_⟩
  · by_contra hc
    simp only [not_or, not_le, not_lt] at hc
    obtain ⟨hneg, hle, hne⟩ := hc
    rcases lt_or_eq_of_le hle with hlt | heq
    · rw [growproc_wrap hd hk hlt hn, if_neg hne] at hrun
      cases hrun
      have := (h0 rfl).2.1
      omega
    · obtain ⟨s1, hrun1, hnone⟩ := growproc_all hd hk (by omega) heq ho hw
      rw [hrun1] at hrun
      cases hrun
      have hsame := ((h1 rfl).2 0 (by decide)).1
      have h0 := (hsz 0 (by decide)).2 (by
        have := (pgroundup_bounds (a := (s.proc p).sz) (by omega)).1
        omega)
      rw [← hsame, hnone] at h0
      cases h0
  · rcases lt_trichotomy n 0 with hneg | rfl | hpos
    · by_cases hp : 0 < (s.proc p).sz + n
      · exact growproc_shrink hd hk hsz hneg hp ho hw
      · have hz : (s.proc p).sz = 0 := by omega
        refine ⟨-1, s, ?_, .inr rfl, hd, fun h => absurd h (by decide), fun _ => ⟨rfl, .refl⟩⟩
        rw [growproc_wrap hd hk (by omega) hn, if_pos hz]
    · have hres : resize L d (s.proc p).sz 0 s = .ok ((s.proc p).sz, s) := rfl
      refine ⟨0, s, ?_, .inl rfl, hd, fun _ => ⟨by omega, by omega, by omega, hsz⟩, fun h =>
        absurd h (by decide)⟩
      rw [growproc_run hd hres, if_neg (fun h => h.1 rfl)]
      simp only [update_eq_self]
    · exact growproc_grow hd hk hsz hpos hn' ho hw

theorem growproc_all_or_nothing_first : ∃ s d, First s d ∧ AllOrNothing smallLayout s 0 d (-1) := by
  obtain ⟨s, d, hup, hfirst⟩ := boot_first smallLayout_first
  obtain ⟨ho, hw, hsz⟩ := hfirst.owned hup
  have hk : (s.proc 0).sz < KERNBASE := by rw [hfirst.sz]; decide
  refine ⟨s, d, hfirst, (growproc_all_or_nothing hfirst.pgdir hk hsz (by decide) (by decide) ho hw).2
    (.inr (.inl ?_))⟩
  rw [hfirst.sz]
  decide

/-- **`sbrk` reports one thing and does another.** Asked to shrink by two pages, `growproc` returns
0 and shrinks nothing; asked to shrink by its one page, it returns -1 and the page is gone. -/
theorem growproc_below_zero : ∃ s d, Reach smallLayout s ∧ (s.proc 0).pgdir = some d ∧
    (s.proc 0).sz = PGSIZE ∧ Sized s.mem d PGSIZE ∧
    growproc smallLayout 0 (-2 * PGSIZE) s = .ok (0, s) ∧
    ∃ s', growproc smallLayout 0 (-PGSIZE) s = .ok (-1, s') ∧
      (mapping s.mem d 0).isSome = true ∧ mapping s'.mem d 0 = none := by
  obtain ⟨s, d, hup, hfirst⟩ := boot_first smallLayout_first
  obtain ⟨ho, hw, hsz⟩ := hfirst.owned hup
  have hk : (s.proc 0).sz < KERNBASE := by rw [hfirst.sz]; decide
  obtain ⟨s', hall, hnone⟩ := growproc_all (n := -PGSIZE) hfirst.pgdir hk
    (by rw [hfirst.sz]; decide) (by rw [hfirst.sz]; decide) ho hw
  refine ⟨s, d, hup s.fail, hfirst.pgdir, hfirst.sz, hfirst.sz ▸ hsz, ?_, s', hall, ?_, hnone⟩
  · rw [growproc_wrap hfirst.pgdir hk (by rw [hfirst.sz]; decide) (by decide), if_neg]
    rw [hfirst.sz]
    decide
  · exact (hsz 0 (by decide)).2 (by rw [hfirst.sz]; decide)

end Vm
