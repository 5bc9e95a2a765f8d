import Xv6.Vm.Proof.Stack

/-!
# The order of the free list

`kalloc` takes the first page of the free list and `kfree` puts a page in front of it, so it is known
which pages a function uses.
-/

namespace Vm

open Bytes Panic Finset Function

variable {L : Layout} {s s' s'' : Kernel} {d f g i k w n x c oldsz newsz : Nat}

/-! ## The pages of the kernel part -/

open Classical in
/-- The number of pages that `setupkvm` takes: the directory, and the page tables of the mappings. -/
noncomputable def kernelPages (L : Layout) : Nat :=
  (dirIndices.filter fun i => ∃ k ∈ kmap L, k.Covers i).card + 1

theorem Built.takes (hb : Built L s s' d) (ho : Own s fun _ => 0) (hp : s'.freelist <:+ s.freelist) :
    s'.freelist = s.freelist.drop (kernelPages L) := by
  classical
  obtain ⟨taken, htaken⟩ := hp
  have hcount : ∀ f, taken.count f = dirUse s'.mem d f := fun f => by
    have h1 : pool s f + 0 = pool s' f + dirUse s'.mem d f := hb.trans.count f
    unfold pool at h1
    rw [hb.hist, ← htaken, List.count_append] at h1
    omega
  have hsolo : Solo s'.mem d := (ho.trans hb.trans).solo
  have hnodup : taken.Nodup := List.nodup_iff_count_le_one.2 fun f => by
    rw [hcount]
    exact hsolo f
  -- the pages taken are the directory and its page tables
  have hmem : ∀ f, f ∈ taken ↔ f = d ∨ IsTable s'.mem d f := fun f => by
    have huser : userUse s'.mem d f = 0 := sum_eq_zero fun x hx => by
      rw [hb.empty x.1 (mem_userPages.1 hx).1]
      rfl
    rw [← List.count_pos_iff, hcount, dirUse, huser, isTable_iff, one, Nat.add_zero]
    split <;> omega
  have hset : taken.toFinset = insert d
      ((dirIndices.filter fun i => ∃ k ∈ kmap L, k.Covers i).image fun i =>
      pteAddr (ent s'.mem d i)) := by
    ext f
    rw [List.mem_toFinset, hmem, mem_insert, mem_image]
    refine or_congr Iff.rfl (exists_congr fun i => ?_)
    rw [mem_filter, mem_dirIndices, hb.pde i, and_assoc]
  have hlen : taken.length = kernelPages L := by
    rw [← List.toFinset_card_of_nodup hnodup, hset, card_insert_of_notMem, card_image_of_injOn]
    · rfl
    · intro i hi k hk he
      obtain ⟨hi, hci⟩ := mem_filter.1 (mem_coe.1 hi)
      obtain ⟨hk, hck⟩ := mem_filter.1 (mem_coe.1 hk)
      exact hsolo.table_inj (mem_dirIndices.1 hi) (mem_dirIndices.1 hk) ((hb.pde i).2 hci)
        ((hb.pde k).2 hck) he
    · intro hin
      obtain ⟨i, hi, he⟩ := mem_image.1 hin
      obtain ⟨hi, hci⟩ := mem_filter.1 hi
      exact hsolo.table_ne (mem_dirIndices.1 hi) ((hb.pde i).2 hci) he
  rw [← htaken, ← hlen, List.drop_left]

theorem kernelPages_le : kernelPages L ≤ 513 := by
  classical
  have hsub : (dirIndices.filter fun i => ∃ k ∈ kmap L, k.Covers i) ⊆ Ico 512 1024 := fun i hi => by
    obtain ⟨hi, k, hk, hcov⟩ := mem_filter.1 hi
    exact mem_Ico.2 ⟨covers_kernel hk hcov, mem_dirIndices.1 hi⟩
  have := card_le_card hsub
  rw [Nat.card_Ico] at this
  exact Nat.succ_le_succ this

theorem page_takes {fl : List Nat} (oldsz newsz : Nat) (hx : x < 2 ^ 19) (hfl : s.freelist = g :: fl)
    (hlen : 600 ≤ s.freelist.length) (ho : Own s (dirUse s.mem d))
    (hfresh : present (pageEnt s.mem d x) = false) :
    ∃ s', (∀ n r s'', Runs (allocLoop L d oldsz newsz n ((x + 1) * PGSIZE)) s' r s'' →
        Runs (allocLoop L d oldsz newsz (n + 1) (x * PGSIZE)) s r s'') ∧
      Added s s' d x (x + 1) ∧ PdeStep s.mem s'.mem d (x / 1024) ∧
      entry s'.mem d (x / 1024) (x % 1024) = some (userPte g) ∧
      (present (ent s.mem d (x / 1024)) = true → s'.freelist = fl) ∧
      (present (ent s.mem d (x / 1024)) = false → ∃ t, fl = t :: s'.freelist) := by
  have hnone := mapping_none.2 hfresh
  obtain ⟨_, s', hmap, rfl, hp⟩ := (mappages_pages (c := True) (w := True) (p := fill 0) (l := s.fail)
    (PTE_W ||| PTE_U) hx hfl ho (by decide) (fun _ => ⟨room_of_length (by omega), hnone⟩) fun _ =>
    hnone).runs
    trivial
  refine ⟨s', fun n r s'' hrun => ?_, hp.toAdded, hp.step, entry_of_mapping hp.new, hp.kept, hp.taken⟩
  unfold allocLoop
  refine (runs_kalloc hfl).bind (steady_setPage.runs.bind (hmap.bind ?_))
  rw [if_pos rfl, show x * PGSIZE + PGSIZE = (x + 1) * PGSIZE by unfold PGSIZE; omega]
  exact hrun

/-! ## Giving pages back -/

/-- Every page is as it was, or filled with junk, and pages are added to the free list. -/
def Junked (s s' : Kernel) : Prop :=
  (∀ f, s'.mem f = s.mem f ∨ Freed s' f) ∧ s.freelist <:+ s'.freelist

theorem Junked.comp (h : Junked s s') (h' : Junked s' s'') : Junked s s'' := by
  refine ⟨fun f => ?_, h.2.trans h'.2⟩
  rcases h'.1 f with h1 | h1
  · refine (h.1 f).imp h1.trans fun ⟨l, hl, hm⟩ => ⟨l, hl.trans h'.2, h1.trans hm⟩
  · exact .inr h1

theorem kfree_junked {u : Unit} (h : kfree L g s = .ok (u, s')) :
    Junked s s' ∧ s'.freelist = g :: s.freelist := by
  rw [kfree_ok h]
  refine ⟨⟨fun f => ?_, List.suffix_cons _ _⟩, rfl⟩
  by_cases hf : f = g
  · subst hf
    exact .inr ⟨_, List.suffix_rfl, update_self ..⟩
  · exact .inl (update_of_ne hf ..)

theorem freeTables_junked {u : Unit} (h : freeTables L d n i s = .ok (u, s')) : Junked s s' := by
  induction n generalizing i s with
  | zero =>
    rw [(pure_ok.1 h).2]
    exact ⟨fun _ => .inl rfl, List.suffix_refl _⟩
  | succ n ih =>
    unfold freeTables at h
    rw [bind_run load_run] at h
    split at h
    · obtain ⟨_, s1, hk, h⟩ := bind_ok.1 h
      exact (kfree_junked hk).1.comp (ih h)
    · exact ih h

theorem freevm_parts {u : Unit} (ho : Own s (dirUse s.mem d))
    (h : freevm L (some d) s = .ok (u, s')) : ∃ s1 s2 u2, Emptied s s1 d 0 (2 ^ 19) ∧
      freeTables L d NPDENTRIES 0 s1 = .ok (u2, s2) ∧ kfree L d s2 = .ok (u, s') := by
  unfold freevm at h
  obtain ⟨_, s1, h1, h⟩ := bind_ok.1 h
  obtain ⟨u2, s2, h2, h3⟩ := bind_ok.1 h
  rcases deallocuvm_spec (Nat.le_refl _) h1 ho with ⟨hle, -⟩ | ⟨-, -, he⟩
  · exact absurd hle (by decide)
  · exact ⟨s1, s2, u2, he, h2, h3⟩

theorem freevm_pushes {vs : List Nat} {u : Unit} (ho : Own s (dirUse s.mem d))
    (hvs : ∀ i v, vs[i]? = some v → mapping s.mem d i = some v)
    (hrest : ∀ z, vs.length ≤ z → z < 2 ^ 19 → mapping s.mem d z = none) (hlen : vs.length ≤ 2 ^ 19)
    (hp : present (ent s.mem d 0) = true) (h : freevm L (some d) s = .ok (u, s')) :
    ∃ l t, s'.freelist = l ++ t :: ((vs.map pteAddr).reverse ++ s.freelist) := by
  obtain ⟨s1, s2, u2, he, h2, h3⟩ := freevm_parts ho h
  have hfl1 := he.freelist
  have hvs0 : ∀ i v, vs[i]? = some v → mapping s.mem d (0 + i) = some v := fun i v hv => by
    rw [Nat.zero_add]
    exact hvs i v hv
  rw [framesIn_eq hvs0 (fun z hz => hrest z (by omega)) (by omega)] at hfl1
  rw [show NPDENTRIES = 1023 + 1 from rfl, freeTables, bind_run load_run,
    if_pos (by rw [he.pde]; exact hp)] at h2
  obtain ⟨_, s3, hk, h2⟩ := bind_ok.1 h2
  obtain ⟨-, hfl⟩ := kfree_junked hk
  obtain ⟨-, l, hl⟩ := freeTables_junked h2
  obtain ⟨-, hfl'⟩ := kfree_junked h3
  refine ⟨d :: l, pteAddr (ent s1.mem d 0), ?_⟩
  rw [hfl', ← hl, hfl, hfl1]
  rfl

theorem freevm_fills {v : Nat} {u : Unit} (ho : Own s (dirUse s.mem d))
    (hv : mapping s.mem d 0 = some v) (h : freevm L (some d) s = .ok (u, s')) :
    Freed s' (pteAddr v) := by
  obtain ⟨s1, s2, u2, he, h2, h3⟩ := freevm_parts ho h
  have hu := (ho.solo.user_ne (by decide) (by decide) (entry_of_mapping hv) (mapping_some.1 hv).2).2
  have hfill := he.mem _ fun ⟨i, hi, hp, ht⟩ => hu i hi hp ht
  rw [if_pos (mem_framesIn.2 ⟨0, le_refl _, by decide, v, hv, rfl⟩)] at hfill
  obtain ⟨l, hl, hm⟩ := hfill
  obtain ⟨hj, hfl⟩ := (freeTables_junked h2).comp (kfree_junked h3).1
  exact (hj (pteAddr v)).elim (fun h0 => ⟨l, hl.trans hfl, h0.trans hm⟩) id

end Vm
