import Xv6.Vm.Proof.Resize

/-!
# What `deallocuvm` frees

`deallocuvm` on any directory whose pages are all different (`Solo`), with page tables and entries
absent anywhere.
-/

namespace Vm

open Bytes

variable {L : Layout} {s s' : Kernel} {m : Nat → Store} {d f g k n w x y z oldsz newsz : Nat}

theorem framesIn_nodup (hs : Solo m d) (hy : y ≤ 2 ^ 19) : (framesIn m d x y).Nodup := by
  -- by induction on the number of pages left, as the first frame is that of no later page
  generalize hn : y - x = n
  induction n generalizing x with
  | zero =>
    rw [framesIn_none fun z h1 h2 => by omega]
    exact List.nodup_nil
  | succ n ih =>
    cases hw : mapping m d x with
    | none =>
      rw [framesIn_skip (Nat.le_succ x) fun z h1 h2 => by rw [show z = x by omega, hw]]
      exact ih (by omega)
    | some w =>
      rw [framesIn_cons (by omega) hw, List.nodup_cons]
      refine ⟨fun hmem => ?_, ih (by omega)⟩
      obtain ⟨z, h1, h2, v, hv, he⟩ := mem_framesIn.1 hmem
      have := hs.mapping_inj (by omega) (by omega) hv hw he
      omega

/-- **`deallocuvm` frees exactly the range.** It gives each frame that is mapped at a page from
`PGROUNDUP(newsz)` up to `oldsz` to `kfree` once and clears exactly their entries. -/
theorem deallocuvm_frees_range (hs : Solo s.mem d) (hlt : newsz < oldsz) (hle : oldsz ≤ KERNBASE) :
    (framesIn s.mem d (pageCount newsz) (pageCount oldsz)).Nodup ∧
    ((∀ f ∈ framesIn s.mem d (pageCount newsz) (pageCount oldsz), f ∈ pages L) →
      ∃ s', deallocuvm L d oldsz newsz s = .ok (newsz, s') ∧ s'.freelist =
          (framesIn s.mem d (pageCount newsz) (pageCount oldsz)).reverse ++ s.freelist ∧
        Cleared s.mem s'.mem d (pageCount newsz) (pageCount oldsz)) ∧
    ((∃ f ∈ framesIn s.mem d (pageCount newsz) (pageCount oldsz), f ∉ pages L) →
      deallocuvm L d oldsz newsz s = .error "kfree") := by
  refine ⟨framesIn_nodup hs (pageCount_spec hle).2.1, ?_⟩
  rcases deallocuvm_empties (L := L) hs hle hlt with ⟨⟨f, hf, hno⟩, h⟩ | ⟨hf, s', h, he⟩
  · exact ⟨fun hall => absurd (hall f hf) hno, fun _ => h s.fail⟩
  · exact ⟨fun _ => ⟨_, h s.fail, he.freelist, he.toCleared⟩,
      fun ⟨f, hmem, hno⟩ => absurd (hf f hmem) hno⟩

/-! ## A directory with one page -/

def oneTable : Nat → Store := newTable (fun _ => fill 0) 300 0 301

def onePage (f : Nat) : Kernel :=
  Kernel.blank (setPte oneTable 300 0 0 (mkPte (f * PGSIZE) PTE_U)) []

theorem oneTable_dirUse : dirUse oneTable 300 g = one 300 g + one 301 g := by
  have hb : ∀ f, dirUse (fun _ => fill 0) 300 f = one 300 f := fun f => dirUse_blank rfl
  rw [oneTable, newTable_dirUse (by decide) (fun f => by rw [hb]; unfold one; split <;> omega)
    (by rw [hb]; rfl) (by decide) (by decide) (by rw [ent_fill_zero rfl]; rfl), hb]

theorem oneTable_solo : Solo oneTable 300 := fun g => by
  rw [oneTable_dirUse]
  unfold one
  split <;> split <;> omega

theorem oneTable_ent : present (ent oneTable 300 0) = true := by
  rw [oneTable, newTable_ent (by decide) (by decide), if_pos rfl, present_mkPte]

theorem oneTable_entry (hi : k < NPDENTRIES) :
    entry oneTable 300 k n = if k = 0 then some 0 else none := by
  have hb : ∀ f, dirUse (fun _ => fill 0) 300 f = one 300 f := fun f => dirUse_blank rfl
  rw [oneTable, newTable_entry (by decide) (fun f => by rw [hb]; unfold one; split <;> omega)
    (by rw [hb]; rfl) (by decide) hi, entry_blank rfl]

theorem onePage_solo (hf : f < 2 ^ 20) (h1 : f ≠ 300) (h2 : f ≠ 301) : Solo (onePage f).mem 300 := by
  intro g
  have hlt := mkPte_lt hf (show PTE_U < PGSIZE by decide)
  have hu : dirUse (onePage f).mem 300 g = dirUse oneTable 300 g + one (pteAddr (mkPte _ _)) g :=
    setPte_dirUse_fresh oneTable_solo (by decide) oneTable_ent (by decide) (by decide)
      (by rw [oneTable_entry (by decide)]; rfl) (Nat.mod_eq_of_lt hlt) present_mkPte
  rw [hu, oneTable_dirUse, pteAddr_mkPte (by decide)]
  unfold one
  split <;> split <;> split <;> omega

theorem onePage_frames (hf : f < 2 ^ 20) : framesIn (onePage f).mem 300 0 1 = [f] := by
  have hlt := mkPte_lt hf (show PTE_U < PGSIZE by decide)
  have he : entry (onePage f).mem 300 0 0 = _ :=
    setPte_entry oneTable_solo (by decide) oneTable_ent (by decide)
  rw [if_pos ⟨rfl, rfl⟩, Nat.mod_eq_of_lt hlt] at he
  have hm : mapping (onePage f).mem 300 0 = some (mkPte (f * PGSIZE) PTE_U) := by
    rw [mapping_some, pageEnt, he]
    exact ⟨rfl, present_mkPte⟩
  rw [framesIn_cons (by decide) hm, pteAddr_mkPte (by decide)]
  rfl

theorem deallocuvm_frees_page : Solo (onePage 400).mem 300 ∧ framesIn (onePage 400).mem 300 0 1 = [400] ∧
    ∃ s', deallocuvm smallLayout 300 PGSIZE 0 (onePage 400) = .ok (0, s') ∧ s'.freelist = [400] ∧
      Cleared (onePage 400).mem s'.mem 300 0 1 := by
  have hs := onePage_solo (f := 400) (by decide) (by decide) (by decide)
  have hfr := onePage_frames (f := 400) (by decide)
  obtain ⟨-, h, -⟩ := deallocuvm_frees_range (L := smallLayout) hs
    (show 0 < PGSIZE by decide) (by decide)
  simp only [show pageCount 0 = 0 from rfl, show pageCount PGSIZE = 1 from rfl, hfr,
    List.mem_singleton, forall_eq] at h
  exact ⟨hs, hfr, h (mem_pages.2 (by decide))⟩

/-- A frame outside of the physical memory is not taken by `kfree`. -/
theorem deallocuvm_kfree_panics : Solo (onePage (PHYSTOP / PGSIZE)).mem 300 ∧
    framesIn (onePage (PHYSTOP / PGSIZE)).mem 300 0 1 = [PHYSTOP / PGSIZE] ∧
    deallocuvm smallLayout 300 PGSIZE 0 (onePage (PHYSTOP / PGSIZE)) = .error "kfree" := by
  have hs := onePage_solo (f := PHYSTOP / PGSIZE) (by decide) (by decide) (by decide)
  have hfr := onePage_frames (f := PHYSTOP / PGSIZE) (by decide)
  have hno : PHYSTOP / PGSIZE ∉ pages smallLayout := fun h => absurd (mem_pages.1 h).2 (by decide)
  refine ⟨hs, hfr, ?_⟩
  rcases deallocuvm_empties (L := smallLayout) hs (by decide)
    (show 0 < PGSIZE by decide) with ⟨-, h⟩ | ⟨hf, -⟩
  · exact h []
  · rw [show pageCount 0 = 0 from rfl, show pageCount PGSIZE = 1 from rfl, hfr] at hf
    exact absurd (hf _ List.mem_cons_self) hno

end Vm
