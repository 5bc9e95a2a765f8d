import Xv6.Vm.Proof.Ledger

/-!
# Changing one directory

The effect of the stores of `vm.c` on the directory they change. A directory whose pages are all
different (`Solo`) sees exactly the change at the index that was written.
-/

namespace Vm

open Bytes Finset Function

variable {s : Kernel} {m m' : Nat → Store} {d f g i j k w x y i0 j0 : Nat}

def Solo (m : Nat → Store) (d : Nat) : Prop := ∀ f, dirUse m d f ≤ 1

theorem Own.solo (h : Own s (dirUse s.mem d)) : Solo s.mem d := fun f => by
  have := h.le_one f
  omega

theorem Solo.table_ne (h : Solo m d) (hi : i < NPDENTRIES) (hp : present (ent m d i) = true) :
    pteAddr (ent m d i) ≠ d := by
  intro he
  have h1 := tableUse_pos hi hp
  have h2 := h d
  rw [he] at h1
  rw [dirUse, one_self] at h2
  omega

theorem Solo.table_inj (h : Solo m d) (hi : i < NPDENTRIES) (hk : k < NPDENTRIES)
    (hp : present (ent m d i) = true) (hpk : present (ent m d k) = true)
    (he : pteAddr (ent m d i) = pteAddr (ent m d k)) : i = k := by
  have hs : tableUse m d (pteAddr (ent m d k)) ≤ 1 := by
    have := h (pteAddr (ent m d k))
    unfold dirUse at this
    omega
  refine Count.eq_of_sum_le_one hs (mem_dirIndices.2 hi) (mem_dirIndices.2 hk) ?_ ?_
  · rw [if_pos ⟨hp, he⟩]
    exact Nat.one_pos
  · rw [if_pos ⟨hpk, rfl⟩]
    exact Nat.one_pos

/-- The directory and its page tables are different pages. -/
structure Tree (m : Nat → Store) (d : Nat) : Prop where
  root : ∀ i < NPDENTRIES, present (ent m d i) = true → pteAddr (ent m d i) ≠ d
  inj : ∀ i < NPDENTRIES, ∀ k < NPDENTRIES, present (ent m d i) = true → present (ent m d k) = true →
    pteAddr (ent m d i) = pteAddr (ent m d k) → i = k

theorem Solo.tree (h : Solo m d) : Tree m d :=
  ⟨fun _ hi hp => h.table_ne hi hp, fun _ hi _ hk hp hpk he => h.table_inj hi hk hp hpk he⟩

theorem Solo.user_ne (h : Solo m d) (hi : i < 512) (hj : j < 1024) (he : entry m d i j = some w)
    (hw : present w = true) :
    pteAddr w ≠ d ∧ ∀ k < NPDENTRIES, present (ent m d k) = true → pteAddr (ent m d k) ≠ pteAddr w := by
  have h1 := userUse_pos hi hj he hw
  have h2 := h (pteAddr w)
  unfold dirUse at h2
  refine ⟨fun hd => ?_, fun k hk hp ht => ?_⟩
  · rw [hd, one_self] at h2
    rw [hd] at h1
    omega
  · have h3 := tableUse_pos hk hp
    rw [ht] at h3
    omega

theorem isTable_iff : IsTable m d f ↔ 0 < tableUse m d f := by
  refine ⟨fun ⟨i, hi, hp, hf⟩ => hf ▸ tableUse_pos hi hp, fun h => ?_⟩
  by_contra hno
  refine absurd h (Nat.not_lt.2 (Nat.le_of_eq (sum_eq_zero fun i hi => if_neg fun hp => hno ?_)))
  exact ⟨i, mem_dirIndices.1 hi, hp⟩

theorem entry_eq (hp : present (ent m d i) = true) :
    entry m d i j = some (ent m (pteAddr (ent m d i)) j) := if_pos hp

theorem entry_none (hp : present (ent m d i) = false) : entry m d i j = none :=
  if_neg (by simp [hp])

theorem entry_eq_none (he : entry m d i j = none) : present (ent m d i) = false := by
  unfold entry at he
  split at he
  · cases he
  · rename_i hp
    exact Bool.eq_false_iff.2 hp

theorem entry_isSome (he : entry m d i j = some w) :
    present (ent m d i) = true ∧ w = ent m (pteAddr (ent m d i)) j := by
  unfold entry at he
  split at he
  · rename_i hp
    cases he
    exact ⟨hp, rfl⟩
  · cases he

theorem entry_lt (he : entry m d i j = some w) : w < UINT := by
  obtain ⟨-, rfl⟩ := entry_isSome he
  exact get32_lt _ _

theorem ent_fill_zero (h : m f = fill 0) : ent m f i = 0 := by
  rw [ent, h]
  rfl

theorem ent_store :
    ent (update m g (put32 (m g) (4 * k) w)) g i = if i = k then w % UINT else ent m g i := by
  rw [ent, update_self]
  split
  · rename_i h
    rw [h, get32_put32, UINT]
  · exact get32_put32_ne _ _ (by omega)

/-! ## A new page table -/

def newTable (m : Nat → Store) (d i0 g : Nat) : Nat → Store :=
  update (update m g (fill 0)) d
    (put32 (update m g (fill 0) d) (4 * i0) (userPte g))

section
variable (hg : g ≠ d)
include hg

theorem newTable_ent (hlt : g < 2 ^ 20) : ent (newTable m d i0 g) d i =
      if i = i0 then userPte g else ent m d i := by
  have hw : userPte g % 2 ^ 32 = userPte g :=
    Nat.mod_eq_of_lt (mkPte_lt hlt (by decide))
  unfold ent newTable
  rw [update_self, update_of_ne hg.symm]
  split
  · rename_i hi
    rw [hi, get32_put32, hw]
  · exact get32_put32_ne _ _ (by omega)

omit hg in
theorem newTable_other (hf : f ≠ d) (hfg : f ≠ g) : newTable m d i0 g f = m f := by
  rw [newTable, update_of_ne hf, update_of_ne hfg]

theorem newTable_self : newTable m d i0 g g = fill 0 := by
  rw [newTable, update_of_ne hg, update_self]

theorem newTable_entry_tree (hs : Tree m d) (hlt : g < 2 ^ 20)
    (hu : ∀ i < NPDENTRIES, present (ent m d i) = true → pteAddr (ent m d i) ≠ g)
    (hi : i < NPDENTRIES) :
    entry (newTable m d i0 g) d i j = if i = i0 then some 0 else entry m d i j := by
  have hpde : ent (newTable m d i0 g) d i = _ := newTable_ent hg hlt
  split
  · rename_i h
    rw [if_pos h] at hpde
    rw [entry_eq (by rw [hpde]; exact present_mkPte), hpde, pteAddr_userPte,
      ent_fill_zero (newTable_self hg)]
  · rename_i h
    rw [if_neg h] at hpde
    unfold entry
    rw [hpde]
    split
    · rename_i hp
      rw [ent_congr (newTable_other (hs.root i hi hp) (hu i hi hp))]
    · rfl

theorem newTable_entry (hs : Solo m d) (hu : dirUse m d g = 0) (hlt : g < 2 ^ 20)
    (hi : i < NPDENTRIES) :
    entry (newTable m d i0 g) d i j = if i = i0 then some 0 else entry m d i j := by
  refine newTable_entry_tree hg hs.tree hlt (fun k hk hp he => ?_) hi
  have := dirUse_table hk hp
  rw [he] at this
  omega

theorem newTable_dirUse (hs : Solo m d) (hu : dirUse m d g = 0) (hlt : g < 2 ^ 20)
    (h0 : i0 < NPDENTRIES) (hp : present (ent m d i0) = false) :
    dirUse (newTable m d i0 g) d f = dirUse m d f + one g f := by
  have htab : tableUse (newTable m d i0 g) d f = tableUse m d f + one g f := by
    have hc := Count.sum_change (k := i0) (S := dirIndices)
      (g := fun i => if present (ent (newTable m d i0 g) d i) = true ∧
        pteAddr (ent (newTable m d i0 g) d i) = f then 1 else 0)
      (h := fun i => if present (ent m d i) = true ∧ pteAddr (ent m d i) = f then 1 else 0)
      (mem_dirIndices.2 h0) (fun i _ hne => by rw [newTable_ent hg hlt, if_neg hne])
    simp only [hp, newTable_ent hg hlt (i := i0), if_true, present_mkPte, Bool.false_eq_true,
      false_and, if_false, true_and, pteAddr_userPte] at hc
    exact hc
  have huse : userUse (newTable m d i0 g) d f = userUse m d f := by
    unfold userUse
    refine sum_congr rfl fun x hx => ?_
    rw [newTable_entry hg hs hu hlt (by have := (mem_userPages.1 hx).1; unfold NPDENTRIES; omega)]
    split
    · rename_i h
      rw [h, entry_none hp, entryUse_zero, entryUse_none]
    · rfl
  rw [dirUse, htab, huse, dirUse]
  omega

end

/-! ## A new entry in a page table -/

def setPte (m : Nat → Store) (d i0 j0 w : Nat) : Nat → Store :=
  update m (pteAddr (ent m d i0)) (put32 (m (pteAddr (ent m d i0))) (4 * j0) w)

section
variable (h0 : i0 < NPDENTRIES) (hp : present (ent m d i0) = true)
include h0 hp

theorem Tree.setPte_ent (hs : Tree m d) : ent (setPte m d i0 j0 w) d i = ent m d i := by
  exact ent_congr (update_of_ne (hs.root i0 h0 hp).symm _ _)

theorem Tree.setPte_entry (hs : Tree m d) (hi : i < NPDENTRIES) : entry (setPte m d i0 j0 w) d i j =
      if i = i0 ∧ j = j0 then some (w % UINT) else entry m d i j := by
  unfold entry
  rw [hs.setPte_ent h0 hp]
  split
  · rename_i hpi
    by_cases hii : i = i0
    · subst hii
      rw [setPte, ent_store]
      by_cases hj : j = j0 <;> simp [hj]
    · have hne : pteAddr (ent m d i) ≠ pteAddr (ent m d i0) :=
        fun he => hii (hs.inj i hi i0 h0 hpi hp he)
      rw [setPte, ent_congr (update_of_ne hne _ _), if_neg (by simp [hii])]
  · rename_i hpi
    rw [if_neg]
    rintro ⟨rfl, -⟩
    exact hpi hp

end

section
variable (hs : Solo m d) (h0 : i0 < NPDENTRIES) (hp : present (ent m d i0) = true)
include hs h0 hp

theorem setPte_ent : ent (setPte m d i0 j0 w) d i = ent m d i := hs.tree.setPte_ent h0 hp

theorem setPte_entry (hi : i < NPDENTRIES) : entry (setPte m d i0 j0 w) d i j =
      if i = i0 ∧ j = j0 then some (w % UINT) else entry m d i j := hs.tree.setPte_entry h0 hp hi

theorem setPte_dirUse (hu : i0 < 512) (hj : j0 < 1024) :
    dirUse (setPte m d i0 j0 w) d f + entryUse (entry m d i0 j0) f =
      dirUse m d f + entryUse (some (w % UINT)) f := by
  have hx : (i0, j0) ∈ userPages := mem_userPages.2 ⟨hu, hj⟩
  have hc := Count.sum_change
    (g := fun x : Nat × Nat => entryUse (entry (setPte m d i0 j0 w) d x.1 x.2) f)
    (h := fun x : Nat × Nat => entryUse (entry m d x.1 x.2) f) hx (fun x hx hne => by
      have := (mem_userPages.1 hx).1
      rw [setPte_entry hs h0 hp (by unfold NPDENTRIES; omega), if_neg]
      rintro ⟨h1, h2⟩
      exact hne (Prod.ext h1 h2))
  simp only [setPte_entry hs h0 hp h0, and_self, if_true] at hc
  have htab : tableUse (setPte m d i0 j0 w) d f = tableUse m d f := by
    simp only [tableUse, setPte_ent hs h0 hp]
  unfold dirUse userUse
  rw [htab]
  omega

theorem setPte_dirUse_fresh {v : Nat} (hu : i0 < 512) (hj : j0 < 1024)
    (hold : present ((entry m d i0 j0).getD 0) = false) (hv : w % UINT = v)
    (hpv : present v = true) :
    dirUse (setPte m d i0 j0 w) d f = dirUse m d f + one (pteAddr v) f := by
  have hc := setPte_dirUse (w := w) (f := f) hs h0 hp hu hj
  rwa [entryUse_absent hold, hv, entryUse_present hpv, Nat.add_zero] at hc

theorem setPte_dirUse_kernel (hk : 512 ≤ i0) : dirUse (setPte m d i0 j0 w) d f = dirUse m d f := by
  have htab : tableUse (setPte m d i0 j0 w) d f = tableUse m d f := by
    simp only [tableUse, setPte_ent hs h0 hp]
  have huse : userUse (setPte m d i0 j0 w) d f = userUse m d f := by
    unfold userUse
    refine sum_congr rfl fun x hx => ?_
    have := (mem_userPages.1 hx).1
    rw [setPte_entry hs h0 hp (by unfold NPDENTRIES; omega), if_neg (by omega)]
  rw [dirUse, htab, huse, dirUse]

end

theorem Solo.same_user (h : Solo m d) {p : Store} (hi : i < 512) (hj : j < 1024)
    (he : entry m d i j = some w) (hw : present w = true) :
    SameDir m (update m (pteAddr w) p) d := by
  obtain ⟨h1, h2⟩ := h.user_ne hi hj he hw
  exact ⟨update_of_ne h1.symm _ _, fun k hk hp => update_of_ne (h2 k hk hp) _ _⟩

/-! ## The pages of a directory -/

def pageEnt (m : Nat → Store) (d x : Nat) : Nat := (entry m d (x / 1024) (x % 1024)).getD 0

theorem pdx_page (hx : x < 2 ^ 20) : pdx (x * PGSIZE) = x / 1024 ∧ ptx (x * PGSIZE) = x % 1024 := by
  unfold pdx ptx PGSIZE
  omega

def mapping (m : Nat → Store) (d x : Nat) : Option Nat :=
  if present (pageEnt m d x) = true then some (pageEnt m d x) else none

theorem mapping_none : mapping m d x = none ↔ present (pageEnt m d x) = false := by
  unfold mapping
  split <;> simp_all

theorem mapping_some : mapping m d x = some w ↔ pageEnt m d x = w ∧ present w = true := by
  unfold mapping
  split
  · rename_i hp
    rw [Option.some.injEq]
    exact ⟨fun h => ⟨h, h ▸ hp⟩, fun h => h.1⟩
  · rename_i hp
    refine iff_of_false nofun fun h => ?_
    rw [h.1] at hp
    exact hp h.2

theorem mapping_congr (h : pageEnt m' d x = pageEnt m d x) : mapping m' d x = mapping m d x := by
  rw [mapping, h, mapping]

theorem entry_of_mapping (h : mapping m d x = some w) :
    entry m d (x / 1024) (x % 1024) = some w := by
  obtain ⟨h1, h2⟩ := mapping_some.1 h
  unfold pageEnt at h1
  cases he : entry m d (x / 1024) (x % 1024) with
  | none =>
    rw [he, Option.getD_none] at h1
    rw [← h1] at h2
    cases h2
  | some v =>
    rw [he, Option.getD_some] at h1
    rw [h1]

theorem userUse_mapping (hx : x < 2 ^ 19) (h : mapping m d x = some w) :
    0 < userUse m d (pteAddr w) :=
  userUse_pos (by omega) (by omega) (entry_of_mapping h) (mapping_some.1 h).2

theorem Solo.mapping_inj (h : Solo m d) (hx : x < 2 ^ 19) (hy : y < 2 ^ 19) {v w : Nat}
    (hv : mapping m d x = some v) (hw : mapping m d y = some w) (he : pteAddr v = pteAddr w) :
    x = y := by
  have hle : userUse m d (pteAddr w) ≤ 1 := by
    have := h (pteAddr w)
    unfold dirUse at this
    omega
  unfold userUse at hle
  have hmem : ∀ z < 2 ^ 19, (z / 1024, z % 1024) ∈ userPages := fun z hz =>
    mem_userPages.2 ⟨by omega, by omega⟩
  have hpair := Count.eq_of_sum_le_one hle (hmem x hx) (hmem y hy)
    (by
      rw [entry_of_mapping hv, entryUse_present (mapping_some.1 hv).2, he, one_self]
      exact Nat.one_pos)
    (by
      rw [entry_of_mapping hw, entryUse_present (mapping_some.1 hw).2, one_self]
      exact Nat.one_pos)
  have h1 := congrArg Prod.fst hpair
  have h2 := congrArg Prod.snd hpair
  simp only at h1 h2
  omega

end Vm
