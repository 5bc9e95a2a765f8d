import Xv6.Vm.Proof.Framebuffer

/-!
# `mappages` on any page directory

The directory is a tree, and the free pages are no pages of it (`Unshared`); what it maps is arbitrary.
-/

namespace Vm

open Bytes Finset

variable {s s' : Kernel} {m : Nat → Store} {d g i j n w x y z pa perm va : Nat}

/-! ## The loop -/

def missingTables (s : Kernel) (d x y : Nat) : Finset Nat :=
  missing ((Finset.Ico x y).image (· / 1024)) s.mem d

def Supplied (s : Kernel) (d x y : Nat) : Prop :=
  true ∉ s.fail.take (missingTables s d x y).card ∧ (missingTables s d x y).card ≤ s.freelist.length

theorem mem_missingTables (hxy : x < y) (hp : present (ent s.mem d (x / 1024)) = false) :
    x / 1024 ∈ missingTables s d x y :=
  mem_filter.2 ⟨Finset.mem_image_of_mem _ (left_mem_Ico.2 hxy), hp⟩

theorem missingTables_step (hpde : PdeStep s.mem s'.mem d (x / 1024)) (hxy : x < y) :
    missingTables s' d (x + 1) y = (missingTables s d x y).erase (x / 1024) := by
  have hins : insert x (Finset.Ico (x + 1) y) = Finset.Ico x y := by
    ext i
    simp only [mem_insert, mem_Ico]
    omega
  rw [missingTables, missingTables, ← missing_step hpde, ← hins, image_insert, missing, missing,
    filter_insert, if_neg]
  rw [hpde.present.2 (.inl rfl)]
  decide

theorem supplied_self : Supplied s d x x := by
  have hempty : missingTables s d x x = ∅ := by
    rw [missingTables, Finset.Ico_self]
    rfl
  rw [Supplied, hempty, card_empty, List.take_zero]
  exact ⟨List.not_mem_nil, Nat.zero_le _⟩

theorem not_supplied (hxy : x < y) (hp : present (ent s.mem d (x / 1024)) = false)
    (hr : Refused s) : ¬ Supplied s d x y := by
  obtain ⟨k, hk⟩ := Nat.exists_eq_add_one.2 (card_pos.2 ⟨_, mem_missingTables hxy hp⟩)
  rintro ⟨hf, hl⟩
  rw [hk] at hf hl
  rcases hr with hr | hr
  · obtain ⟨fs, hfs⟩ := List.head?_eq_some_iff.1 hr
    rw [hfs, List.take_succ_cons] at hf
    exact hf List.mem_cons_self
  · rw [hr] at hl
    exact absurd hl (Nat.not_succ_le_zero k)

theorem supplied_step (hxy : x < y) (hpde : PdeStep s.mem s'.mem d (x / 1024))
    (hkept : present (ent s.mem d (x / 1024)) = true → s'.fail = s.fail ∧ s'.freelist = s.freelist)
    (htaken : present (ent s.mem d (x / 1024)) = false →
      s'.fail = s.fail.tail ∧ ¬ Refused s ∧ ∃ t, s.freelist = t :: s'.freelist) :
    Supplied s d x y ↔ Supplied s' d (x + 1) y := by
  unfold Supplied
  rw [missingTables_step hpde hxy]
  cases hp : present (ent s.mem d (x / 1024)) with
  | true =>
    have hnot : x / 1024 ∉ missingTables s d x y := fun h => by
      rw [(mem_filter.1 h).2] at hp
      cases hp
    rw [erase_eq_of_notMem hnot, (hkept hp).1, (hkept hp).2]
  | false =>
    obtain ⟨hfail, hr, t, ht⟩ := htaken hp
    have hmem := mem_missingTables hxy hp
    obtain ⟨k, hk⟩ := Nat.exists_eq_add_one.2 (card_pos.2 ⟨_, hmem⟩)
    rw [card_erase_of_mem hmem, hk, hfail, ht, List.length_cons, Nat.add_sub_cancel,
      Nat.add_le_add_iff_right]
    refine and_congr_left fun _ => not_congr ?_
    cases hl : s.fail with
    | nil => simp
    | cons b fs =>
      have hb : b = false := Bool.not_eq_true _ ▸ fun he => hr (.inl (by rw [hl, he]; rfl))
      rw [List.take_succ_cons, List.mem_cons, hb, List.tail_cons]
      simp

theorem Unshared.first (hs : Unshared s d) (hx : x < 2 ^ 20) (hxy : x < y) (n pa perm : Nat)
    (hfree : present (pageEnt s.mem d x) = false) : (¬ Supplied s d x y ∧
      Vm.mapLoop d perm n (x * PGSIZE) pa s = .ok (false, { s with fail := s.fail.tail })) ∨
    ∃ s1, Vm.mapLoop d perm n (x * PGSIZE) pa s = mapRest d perm (x * PGSIZE) pa n s1 ∧ Unshared s1 d ∧
      (Supplied s d x y ↔ Supplied s1 d (x + 1) y) ∧
      ∀ z < 2 ^ 20, pageEnt s1.mem d z =
        if z = x then mkPte pa perm % UINT else pageEnt s.mem d z := by
  obtain ⟨hpd, hpt⟩ := pdx_page hx
  have hfree' : present ((entry s.mem d (pdx (x * PGSIZE)) (ptx (x * PGSIZE))).getD 0) = false := by
    rw [hpd, hpt]
    exact hfree
  rcases hs.round n pa perm with ⟨hp, hr, hrun⟩ | ⟨fs, ht, hkept, htaken, hrun⟩
  · exact .inl ⟨not_supplied hxy (hpd ▸ hp) hr, hrun⟩
  · obtain ⟨hf, hpde, hentry⟩ := hs.placed (w := mkPte pa perm) ht
    refine .inr ⟨_, hrun.trans (if_neg (by rw [hfree']; decide)),
      ⟨hf.tree, hf.nodup, hf.lt, hf.root, hf.table⟩, ?_, fun z hz =>
      pageEnt_of_entry hx hz hentry⟩
    have hlist := tabled_kept (s := s) (d := d) (i := pdx (x * PGSIZE))
    have htake := tabled_taken ht
    rw [hpd] at hpde hkept htaken hlist htake
    refine supplied_step hxy hpde (fun hp => ⟨hkept hp, ?_⟩) fun hp =>
      ⟨(htaken hp).1, (htaken hp).2, ?_⟩
    · rw [← hlist hp, ← hpd]
      rfl
    · rw [← hpd] at htake hp
      exact htake hp

theorem Unshared.mapLoop (hs : Unshared s d) (hn : x + n < 2 ^ 20) (hpa : pa < UINT)
    (hfree : ∀ z, x ≤ z → z ≤ x + n → present (pageEnt s.mem d z) = false) (perm : Nat) :
    ∃ r s', Vm.mapLoop d perm n (x * PGSIZE) pa s = .ok (r, s') ∧
      (r = true ↔ Supplied s d x (x + n + 1)) ∧
      (r = true → ∀ z, x ≤ z → z ≤ x + n → pageEnt s'.mem d z = rowPte x pa perm z) ∧
      ∀ z < 2 ^ 20, z < x ∨ x + n < z → pageEnt s'.mem d z = pageEnt s.mem d z := by
  have hrow : rowPte x pa perm x = mkPte pa perm % UINT := by
    rw [rowPte, Nat.sub_self, Nat.zero_mul, Nat.add_zero, Nat.mod_eq_of_lt hpa]
  have hstart : x ≤ x + n := by omega
  induction n generalizing x pa s with
  | zero =>
    rcases hs.first (by omega) (Nat.lt_succ_self x) 0 pa perm (hfree x (Nat.le_refl x) hstart) with
      ⟨hno, hrun⟩ | ⟨s1, hrun, hs1, hsup, hent⟩
    · exact ⟨false, _, hrun, iff_of_false (by simp) hno, (by simp), fun z _ _ => rfl⟩
    · refine ⟨true, s1, hrun, iff_of_true rfl (hsup.2 supplied_self), fun _ z h1 h2 => ?_,
        fun z hz hne => ?_⟩
      · obtain rfl : z = x := by omega
        rw [hent z (by omega), if_pos rfl, hrow]
      · rw [hent z hz, if_neg (by omega)]
  | succ n ih =>
    rcases hs.first (y := x + (n + 1) + 1) (by omega) (by omega) (n + 1) pa perm
      (hfree x (Nat.le_refl x) hstart) with ⟨hno, hrun⟩ | ⟨s1, hrun, hs1, hsup, hent⟩
    · exact ⟨false, _, hrun, iff_of_false (by simp) hno, (by simp), fun z _ _ => rfl⟩
    · have hnext : (x * PGSIZE + PGSIZE) % UINT = (x + 1) * PGSIZE := by
        unfold PGSIZE UINT
        omega
      have hpa' : (pa + PGSIZE) % UINT < UINT := Nat.mod_lt _ (by decide)
      obtain ⟨r, s', hrun', hr, hrow', hother⟩ := ih hs1 (x := x + 1) (by omega) hpa'
        (fun z h1 h2 => by rw [hent z (by omega), if_neg (by omega)]; exact hfree z (by omega) (by omega))
        (by rw [rowPte, Nat.sub_self, Nat.zero_mul, Nat.add_zero, Nat.mod_mod]) (by omega)
      rw [show x + 1 + n + 1 = x + (n + 1) + 1 by omega, ← hsup] at hr
      refine ⟨r, s', ?_, hr, fun ht z h1 h2 => ?_, fun z hz hne => ?_⟩
      · rw [hrun, mapRest, hnext]
        exact hrun'
      · by_cases hzx : z = x
        · rw [hother z (by omega) (by omega), hent z (by omega), if_pos hzx, hzx, hrow]
        · rw [hrow' ht z (by omega) (by omega), rowPte_succ (by omega)]
      · rw [hother z hz (by omega), hent z hz, if_neg (by omega)]

/-! ## The result -/

theorem mappages_range {size : Nat} (hsize : 0 < size) (hva : va + size - 1 < UINT) :
    mappages d va size pa perm = Vm.mapLoop d perm ((va + size - 1) / PGSIZE - va / PGSIZE)
      (va / PGSIZE * PGSIZE) pa := by
  have hlast : (va + size + UINT - 1) % UINT = va + size - 1 := by
    rw [show va + size + UINT - 1 = va + size - 1 + UINT by omega, Nat.add_mod_right,
      Nat.mod_eq_of_lt hva]
  have hn : (pgrounddown (va + size - 1) + UINT - pgrounddown va) % UINT / PGSIZE =
      (va + size - 1) / PGSIZE - va / PGSIZE := by
    unfold pgrounddown PGSIZE UINT at *
    omega
  rw [mappages, hlast, hn]
  rfl

/-- The page `x` is mapped to the physical address `pa` with the flags `flags`. -/
def Translates (m : Nat → Store) (d x pa flags : Nat) : Prop :=
  ∃ w, mapping m d x = some w ∧ pteAddr w * PGSIZE = pa ∧ pteFlags w = flags

theorem translates_rowPte (h : pageEnt m d z = rowPte x pa perm z) (hpa : pa % PGSIZE = 0)
    (hperm : perm < PGSIZE) :
    Translates m d z ((pa + (z - x) * PGSIZE) % UINT) (perm ||| PTE_P) := by
  obtain ⟨f, hf, hflt⟩ : ∃ f, (pa + (z - x) * PGSIZE) % UINT = f * PGSIZE ∧ f < 2 ^ 20 := by
    refine ⟨(pa + (z - x) * PGSIZE) % UINT / PGSIZE, ?_, ?_⟩ <;> unfold PGSIZE UINT at * <;> omega
  have hw : rowPte x pa perm z = mkPte (f * PGSIZE) perm := by
    rw [rowPte, hf, Nat.mod_eq_of_lt (mkPte_lt hflt hperm)]
  rw [hw] at h
  refine ⟨_, mapping_some.2 ⟨h, present_mkPte⟩, ?_, ?_⟩
  · rw [pteAddr_mkPte hperm, hf]
  · have hlt := or_lt_pgsize hperm
    rw [mkPte_eq hperm, pteFlags]
    unfold PGSIZE at *
    omega

/-- `mappages` of pages that are not mapped returns, with success exactly if `kalloc` has a page for
each page table that is missing. On success each page is mapped to its physical page with the
permission, and in any case the other pages are mapped as before. -/
theorem mappages_translates (s : Kernel) (d va size pa perm : Nat) (hs : Unshared s d)
    (hsize : 0 < size) (hva : va + size - 1 < UINT) (hpa : pa % PGSIZE = 0) (hlt : pa < UINT)
    (hperm : perm < PGSIZE)
    (hfree : ∀ x, va / PGSIZE ≤ x → x ≤ (va + size - 1) / PGSIZE → mapping s.mem d x = none) :
    ∃ r s', mappages d va size pa perm s = .ok (r, s') ∧
      (r = true ↔ Supplied s d (va / PGSIZE) ((va + size - 1) / PGSIZE + 1)) ∧
      (r = true → ∀ i, va / PGSIZE + i ≤ (va + size - 1) / PGSIZE →
        Translates s'.mem d (va / PGSIZE + i) ((pa + i * PGSIZE) % UINT) (perm ||| PTE_P)) ∧
      ∀ x < 2 ^ 20, x < va / PGSIZE ∨ (va + size - 1) / PGSIZE < x →
        mapping s'.mem d x = mapping s.mem d x := by
  have hle : va / PGSIZE ≤ (va + size - 1) / PGSIZE := Nat.div_le_div_right (by omega)
  have hlast : va / PGSIZE + ((va + size - 1) / PGSIZE - va / PGSIZE) = (va + size - 1) / PGSIZE := by
    omega
  have hy : (va + size - 1) / PGSIZE < 2 ^ 20 := by
    unfold PGSIZE UINT at *
    omega
  obtain ⟨r, s', hrun, hr, hrow, hother⟩ := hs.mapLoop (x := va / PGSIZE)
    (n := (va + size - 1) / PGSIZE - va / PGSIZE) (by omega) hlt
    (fun z h1 h2 => mapping_none.1 (hfree z h1 (by omega))) perm
  rw [hlast] at hr hrow hother
  refine ⟨r, s', ?_, hr, fun ht i hi => ?_, fun x hx hne => mapping_congr (hother x hx hne)⟩
  · rw [mappages_range hsize hva]
    exact hrun
  · have h := translates_rowPte (hrow ht (va / PGSIZE + i) (by omega) hi) hpa hperm
    rwa [Nat.add_sub_cancel_left] at h

theorem freshKernel_unshared : Unshared freshKernel 1 := by
  have hp : ∀ i, present (ent freshKernel.mem 1 i) ≠ true := fun i => by
    rw [ent_fill_zero rfl, present_zero]
    decide
  refine ⟨⟨fun i _ h => absurd h (hp i), fun i _ k _ h => absurd h (hp i)⟩, List.nodup_range',
    fun g hg => ?_, fun hm => ?_, fun i _ h => absurd h (hp i)⟩
  · obtain ⟨j, hj, rfl⟩ := List.mem_range'.1 hg
    omega
  · obtain ⟨j, hj, he⟩ := List.mem_range'.1 hm
    omega

theorem mappages_translates_top : ∃ s',
    mappages 1 0xFFFFE000 0x2000 0x1000 PTE_W freshKernel = .ok (true, s') ∧
      Translates s'.mem 1 0xFFFFF 0x2000 (PTE_W ||| PTE_P) := by
  have hnone : ∀ x, mapping freshKernel.mem 1 x = none := fun x => by
    rw [mapping_none, pageEnt, entry_none (by rw [ent_fill_zero rfl]; rfl)]
    rfl
  obtain ⟨r, s', hrun, hr, hmap, -⟩ := mappages_translates freshKernel 1 0xFFFFE000 0x2000 0x1000 PTE_W
    freshKernel_unshared (by decide) (by decide) (by decide) (by decide) (by decide) fun x _ _ => hnone x
  have hcard : (missingTables freshKernel 1 0xFFFFE 0x100000).card ≤ 1 :=
    (card_filter_le _ _).trans (by decide)
  have hlen : freshKernel.freelist.length = 600 := List.length_range'
  obtain rfl := hr.2 ⟨fun h => List.not_mem_nil (List.mem_of_mem_take h),
    by rw [hlen]; exact hcard.trans (by decide)⟩
  exact ⟨s', hrun, hmap rfl 1 (by decide)⟩

end Vm
