import Xv6.Vm.Proof.Map

/-!
# Freeing pages of a directory

`deallocuvm` goes through the pages of its range from below: the frames it finds are given to
`kfree` in that order, and their entries are cleared (`Emptied`). It ends in the panic of `kfree`
exactly if one of the frames is no page of the allocator (`deallocuvm_empties`).
-/

namespace Vm

open Bytes Panic Finset Function

variable {L : Layout} {s s' s'' : Kernel} {X : Nat → Nat} {m m' m'' : Nat → Store}
  {d f g i j k w n v x y z top oldsz newsz : Nat} {u : Unit} {α β : Type}

/-! ## The frames of a range -/

def pageCount (sz : Nat) : Nat := pgroundup sz / PGSIZE

theorem pageCount_spec (h : k ≤ KERNBASE) :
    pgroundup k = pageCount k * PGSIZE ∧ pageCount k ≤ 2 ^ 19 ∧
      ∀ z, z * PGSIZE < k ↔ z < pageCount k := by
  obtain ⟨h1, h2, h3, h4⟩ := pgroundup_bounds h
  unfold pageCount
  unfold KERNBASE PGSIZE at *
  refine ⟨by omega, by omega, fun z => by omega⟩

def framesIn (m : Nat → Store) (d x y : Nat) : List Nat :=
  (List.range' x (y - x)).filterMap fun z => (mapping m d z).map pteAddr

theorem framesIn_congr (h : ∀ z, x ≤ z → z < y → mapping m' d z = mapping m d z) :
    framesIn m' d x y = framesIn m d x y := by
  refine List.filterMap_congr fun z hz => ?_
  obtain ⟨h1, h2⟩ := List.mem_range'_1.1 hz
  rw [h z h1 (by omega)]

theorem framesIn_none (h : ∀ z, x ≤ z → z < y → mapping m d z = none) : framesIn m d x y = [] := by
  refine List.filterMap_eq_nil_iff.2 fun z hz => ?_
  obtain ⟨h1, h2⟩ := List.mem_range'_1.1 hz
  rw [h z h1 (by omega), Option.map_none]

theorem framesIn_skip (hk : x ≤ k) (h : ∀ z, x ≤ z → z < k → mapping m d z = none) :
    framesIn m d x y = framesIn m d k y := by
  by_cases hky : k ≤ y
  · have hsplit : List.range' x (y - x) = List.range' x (k - x) ++ List.range' k (y - k) := by
      rw [show y - x = k - x + (y - k) by omega, ← List.range'_append_1,
        show x + (k - x) = k by omega]
    have hnil := framesIn_none h
    unfold framesIn at *
    rw [hsplit, List.filterMap_append, hnil, List.nil_append]
  · rw [framesIn_none fun z hz hz' => h z hz (by omega), framesIn, show y - k = 0 by omega]
    rfl

theorem framesIn_cons (hxy : x < y) (h : mapping m d x = some w) :
    framesIn m d x y = pteAddr w :: framesIn m d (x + 1) y := by
  rw [framesIn, show y - x = y - (x + 1) + 1 by omega, List.range'_succ,
    List.filterMap_cons_some (b := pteAddr w) (by rw [h, Option.map_some])]
  rfl

theorem mem_framesIn : f ∈ framesIn m d x y ↔
    ∃ z, x ≤ z ∧ z < y ∧ ∃ w, mapping m d z = some w ∧ pteAddr w = f := by
  simp only [framesIn, List.mem_filterMap, List.mem_range'_1, Option.map_eq_some_iff]
  exact ⟨fun ⟨z, hz, hw⟩ => ⟨z, by omega, by omega, hw⟩, fun ⟨z, h1, h2, hw⟩ => ⟨z, by omega, hw⟩⟩

theorem framesIn_eq {vs : List Nat} (hvs : ∀ i v, vs[i]? = some v → mapping m d (x + i) = some v)
    (hrest : ∀ z, x + vs.length ≤ z → z < y → mapping m d z = none) (hle : x + vs.length ≤ y) :
    framesIn m d x y = vs.map pteAddr := by
  induction vs generalizing x with
  | nil => exact framesIn_none hrest
  | cons v vs ih =>
    rw [List.length_cons] at hrest hle
    have hv : mapping m d x = some v := hvs 0 v rfl
    rw [framesIn_cons (by omega) hv, List.map_cons,
      ih (fun i w hw => ?_) (fun z hz => hrest z (by omega)) (by omega)]
    rw [Nat.add_assoc, Nat.add_comm 1 i]
    exact hvs (i + 1) w hw

theorem mem_framesIn_use (hy : y ≤ 2 ^ 19) (h : f ∈ framesIn m d x y) : 0 < dirUse m d f := by
  obtain ⟨z, -, hz, w, hw, rfl⟩ := mem_framesIn.1 h
  have := userUse_mapping (by omega) hw
  unfold dirUse
  omega

/-! ## Cleared entries -/

/-- The entries from `x` to `y` are cleared. -/
structure Cleared (m m' : Nat → Store) (d x y : Nat) : Prop where
  pde : ∀ i, ent m' d i = ent m d i
  pte : ∀ z < 2 ^ 20, entry m' d (z / 1024) (z % 1024) =
    if x ≤ z ∧ z < y ∧ (mapping m d z).isSome then some 0 else entry m d (z / 1024) (z % 1024)

theorem Cleared.refl (h : y ≤ x) : Cleared m m d x y :=
  ⟨fun _ => rfl, fun z _ => by rw [if_neg (by omega)]⟩

theorem Cleared.mapping (h : Cleared m m' d x y) (hz : z < 2 ^ 20) (hne : z < x ∨ y ≤ z) :
    Vm.mapping m' d z = Vm.mapping m d z := by
  refine mapping_congr ?_
  unfold pageEnt
  rw [h.pte z hz, if_neg (by omega)]

theorem Cleared.skip (h : Cleared m m' d k y) (hk : x ≤ k)
    (hnone : ∀ z, x ≤ z → z < k → Vm.mapping m d z = none) : Cleared m m' d x y := by
  refine ⟨h.pde, fun z hz => ?_⟩
  rw [h.pte z hz]
  refine if_congr ⟨fun ⟨h1, h2⟩ => ⟨by omega, h2⟩, fun ⟨h1, h2, h3⟩ => ⟨?_, h2, h3⟩⟩ rfl rfl
  by_contra hlt
  rw [hnone z h1 (by omega)] at h3
  cases h3

theorem Cleared.cons (h : Cleared m m' d x (x + 1)) (h' : Cleared m' m'' d (x + 1) y)
    (hxy : x < y) : Cleared m m'' d x y := by
  refine ⟨fun i => (h'.pde i).trans (h.pde i), fun z hz => ?_⟩
  rw [h'.pte z hz]
  by_cases hzx : z ≤ x
  · rw [if_neg (by omega), h.pte z hz]
    exact if_congr ⟨fun ⟨h1, h2, h3⟩ => ⟨h1, by omega, h3⟩, fun ⟨h1, h2, h3⟩ => ⟨h1, by omega, h3⟩⟩
      rfl rfl
  · rw [h.mapping hz (.inr (by omega)), h.pte z hz, if_neg (by omega : ¬ (x ≤ z ∧ z < x + 1 ∧ _))]
    exact if_congr ⟨fun ⟨h1, h2⟩ => ⟨by omega, h2⟩, fun ⟨h1, h2⟩ => ⟨by omega, h2⟩⟩ rfl rfl

theorem Cleared.gone (h : Cleared m m' d x y) (hz : z < 2 ^ 20) (h1 : x ≤ z) (h2 : z < y) :
    Vm.mapping m' d z = none := by
  have hpte := h.pte z hz
  cases hm : Vm.mapping m d z with
  | none =>
    rw [hm, if_neg (by simp)] at hpte
    rw [← hm, mapping_congr (congrArg (Option.getD · 0) hpte)]
  | some w =>
    rw [hm, if_pos ⟨h1, h2, rfl⟩] at hpte
    rw [mapping_none, pageEnt, hpte]
    rfl

/-! ## One page -/

def unmap (s : Kernel) (d i j w : Nat) : Kernel :=
  { s with
    mem := setPte (update s.mem (pteAddr w) (freed s.freelist)) d i j 0
    freelist := pteAddr w :: s.freelist }

section
variable (hs : Solo s.mem d) (hx : x < 2 ^ 19) (hw : mapping s.mem d x = some w)
include hs hx hw

theorem unmap_same : SameDir s.mem (update s.mem (pteAddr w) (freed s.freelist)) d :=
  hs.same_user (by omega) (by omega) (entry_of_mapping hw) (mapping_some.1 hw).2

theorem unmap_solo : Solo (update s.mem (pteAddr w) (freed s.freelist)) d := fun f => by
  rw [(unmap_same hs hx hw).dirUse]
  exact hs f

theorem unmap_present :
    present (ent (update s.mem (pteAddr w) (freed s.freelist)) d (x / 1024)) = true := by
  rw [(unmap_same hs hx hw).ent]
  exact (entry_isSome (entry_of_mapping hw)).1

theorem unmap_run (hf : pteAddr w ∈ pages L) :
    (do kfree L (pteAddr w); store (pteAddr (ent s.mem d (x / 1024))) (x % 1024) 0 : KM Unit) s =
      .ok ((), unmap s d (x / 1024) (x % 1024) w) := by
  have hk : kfree L (pteAddr w) s = .ok ((),
      { s with
        mem := update s.mem (pteAddr w) (freed s.freelist)
        freelist := pteAddr w :: s.freelist }) := by
    rw [kfree_eq, if_pos hf]
  rw [bind_run hk, unmap, setPte, (unmap_same hs hx hw).ent]
  rfl

theorem unmap_ent : ent (unmap s d (x / 1024) (x % 1024) w).mem d k = ent s.mem d k := by
  rw [unmap, setPte_ent (unmap_solo hs hx hw) (by unfold NPDENTRIES; omega) (unmap_present hs hx hw)]
  exact (unmap_same hs hx hw).ent

theorem unmap_dirUse : dirUse s.mem d f =
    dirUse (unmap s d (x / 1024) (x % 1024) w).mem d f + one (pteAddr w) f := by
  have hsame := unmap_same hs hx hw
  have hc := setPte_dirUse (w := 0) (f := f) (unmap_solo hs hx hw) (by unfold NPDENTRIES; omega)
    (unmap_present hs hx hw) (by omega) (show x % 1024 < 1024 by omega)
  rw [hsame.entry (by unfold NPDENTRIES; omega), entry_of_mapping hw,
    entryUse_present (mapping_some.1 hw).2, hsame.dirUse, Nat.zero_mod, entryUse_zero,
    Nat.add_zero] at hc
  exact hc.symm

theorem unmap_mem (hf : ¬ IsTable s.mem d f) : (unmap s d (x / 1024) (x % 1024) w).mem f =
    if f = pteAddr w then freed s.freelist else s.mem f := by
  have hne : f ≠ pteAddr (ent (update s.mem (pteAddr w) (freed s.freelist)) d (x / 1024)) := by
    rintro rfl
    rw [(unmap_same hs hx hw).ent] at hf
    exact hf ⟨_, by unfold NPDENTRIES; omega, (entry_isSome (entry_of_mapping hw)).1, rfl⟩
  simp only [unmap, setPte, update_of_ne hne, update_apply]

theorem cleared_unmap : Solo (unmap s d (x / 1024) (x % 1024) w).mem d ∧
    Cleared s.mem (unmap s d (x / 1024) (x % 1024) w).mem d x (x + 1) := by
  refine ⟨fun f => ?_, fun i => unmap_ent hs hx hw, fun z hz => ?_⟩
  · have h1 := hs f
    have h2 := unmap_dirUse (f := f) hs hx hw
    omega
  · rw [unmap, setPte_entry (unmap_solo hs hx hw) (by unfold NPDENTRIES; omega)
      (unmap_present hs hx hw) (by unfold NPDENTRIES; omega),
      (unmap_same hs hx hw).entry (by unfold NPDENTRIES; omega), Nat.zero_mod]
    refine if_congr ⟨fun ⟨h1, h2⟩ => ?_, fun ⟨h1, h2, _⟩ => by omega⟩ rfl rfl
    obtain rfl : z = x := by omega
    rw [hw]
    exact ⟨le_refl _, by omega, rfl⟩

end

/-! ## The loop of `deallocuvm` -/

def Steady (m : KM α) (s : Kernel) (v : α) (s' : Kernel) : Prop :=
  ∀ fs, m { s with fail := fs } = .ok (v, { s' with fail := fs })

theorem Steady.bind {m : KM α} {f : α → KM β} {v : α} {r : β} (h : Steady m s v s')
    (h' : Steady (f v) s' r s'') : Steady (m >>= f) s r s'' := fun fs => by
  rw [bind_run (h fs)]
  exact h' fs

theorem walk_page (hx : x < 2 ^ 20) : Steady (walkpgdir d (x * PGSIZE) false) s
    (if present (ent s.mem d (x / 1024)) then some (pteAddr (ent s.mem d (x / 1024)), x % 1024)
      else none) s := fun fs => by
  rw [walk_run, (pdx_page hx).1, (pdx_page hx).2]

theorem walkpgdir_steady (va : Nat) (hp : present (ent s.mem d (pdx va)) = true) :
    Steady (walkpgdir d va false) s (some (pteAddr (ent s.mem d (pdx va)), ptx va)) s :=
  fun _ => walk_present hp

theorem freed_rest {l : List Nat} (h : 4 ≤ i) : freed l i = 1 := by
  have h0 : i ≠ 0 := by omega
  have h1 : i ≠ 1 := by omega
  have h2 : i ≠ 2 := by omega
  have h3 : i ≠ 3 := by omega
  simp [freed, put32, put16, fill, h0, h1, h2, h3]

def Freed (s : Kernel) (f : Nat) : Prop := ∃ l, f :: l <:+ s.freelist ∧ s.mem f = freed l

/-- The frames mapped from `x` to `y` are free, filled with junk, and their entries are cleared. -/
structure Emptied (s s' : Kernel) (d x y : Nat) : Prop extends Cleared s.mem s'.mem d x y where
  freelist : s'.freelist = (framesIn s.mem d x y).reverse ++ s.freelist
  use : ∀ f, dirUse s.mem d f = dirUse s'.mem d f + (framesIn s.mem d x y).count f
  mem : ∀ f, ¬ IsTable s.mem d f →
    if f ∈ framesIn s.mem d x y then Freed s' f else s'.mem f = s.mem f
  rest : s' = { s with mem := s'.mem, freelist := s'.freelist }

theorem Emptied.refl (h : y ≤ x) : Emptied s s d x y := by
  have hnil : framesIn s.mem d x y = [] := framesIn_none fun z h1 h2 => by omega
  refine ⟨.refl h, ?_, fun f => ?_, fun f _ => ?_, rfl⟩
  · rw [hnil]
    rfl
  · rw [hnil, List.count_nil, Nat.add_zero]
  · rw [hnil, if_neg List.not_mem_nil]

theorem Emptied.skip (h : Emptied s s' d k y) (hk : x ≤ k)
    (hnone : ∀ z, x ≤ z → z < k → Vm.mapping s.mem d z = none) : Emptied s s' d x y := by
  obtain ⟨hc, hfl, huse, hmem, hrest⟩ := h
  rw [← framesIn_skip hk hnone] at hfl
  simp only [← framesIn_skip hk hnone] at huse hmem
  exact ⟨hc.skip hk hnone, hfl, huse, hmem, hrest⟩

theorem Emptied.cons (hs : Solo s.mem d) (hy : y ≤ 2 ^ 19) (hxy : x < y)
    (hw : Vm.mapping s.mem d x = some w)
    (h : Emptied (unmap s d (x / 1024) (x % 1024) w) s' d (x + 1) y) : Emptied s s' d x y := by
  have hx : x < 2 ^ 19 := by omega
  have hc := (cleared_unmap hs hx hw).2
  have hrest : framesIn (unmap s d (x / 1024) (x % 1024) w).mem d (x + 1) y =
      framesIn s.mem d (x + 1) y :=
    framesIn_congr fun z h1 h2 => hc.mapping (by omega) (.inr h1)
  have hcons := framesIn_cons hxy hw
  have htab : ∀ f, IsTable (unmap s d (x / 1024) (x % 1024) w).mem d f ↔ IsTable s.mem d f := by
    intro f
    simp only [IsTable, unmap_ent hs hx hw]
  refine ⟨hc.cons h.toCleared hxy, ?_, fun f => ?_, fun f hf => ?_, ?_⟩
  · rw [h.freelist, hrest, hcons, List.reverse_cons, List.append_assoc]
    rfl
  · rw [unmap_dirUse hs hx hw, h.use f, hrest, hcons, List.count_cons, one, Nat.add_assoc]
    simp only [beq_iff_eq]
  · have hm := h.mem f (mt (htab f).1 hf)
    rw [hrest, unmap_mem hs hx hw hf] at hm
    rw [hcons]
    by_cases hin : f ∈ framesIn s.mem d (x + 1) y
    · rw [if_pos (List.mem_cons_of_mem _ hin)]
      rwa [if_pos hin] at hm
    · rw [if_neg hin] at hm
      by_cases hfw : f = pteAddr w
      · subst hfw
        rw [if_pos List.mem_cons_self]
        rw [if_pos rfl] at hm
        exact ⟨_, h.freelist ▸ List.suffix_append .., hm⟩
      · rw [if_neg (by simp [hfw, hin])]
        rwa [if_neg hfw] at hm
  · exact h.rest

theorem deallocLoop_page (hs : Solo s.mem d) (hold : oldsz ≤ KERNBASE) (hlt : x * PGSIZE < oldsz) :
    (∃ y, x < y ∧ (∀ z, x ≤ z → z < y → mapping s.mem d z = none) ∧
      ∀ fs, deallocLoop L d oldsz (n + 1) (x * PGSIZE) { s with fail := fs } =
        deallocLoop L d oldsz n (y * PGSIZE) { s with fail := fs }) ∨
    ∃ w, mapping s.mem d x = some w ∧
      ∀ fs, deallocLoop L d oldsz (n + 1) (x * PGSIZE) { s with fail := fs } =
        if pteAddr w ∈ pages L then
          deallocLoop L d oldsz n ((x + 1) * PGSIZE)
            { unmap s d (x / 1024) (x % 1024) w with fail := fs }
        else .error "kfree" := by
  have hx : x < 2 ^ 19 := by
    unfold KERNBASE PGSIZE at *
    omega
  obtain ⟨h1, -⟩ := pdx_page (x := x) (by omega)
  have hnext : (x * PGSIZE + PGSIZE) % UINT = (x + 1) * PGSIZE := by
    unfold PGSIZE UINT
    omega
  have hpde : (pgaddr (x / 1024 + 1) 0 + UINT - PGSIZE + PGSIZE) % UINT =
      (x / 1024 + 1) * 1024 * PGSIZE := by
    unfold pgaddr PGSIZE UINT
    omega
  have hwalk := walk_page (d := d) (s := s) (x := x) (by omega)
  cases he : entry s.mem d (x / 1024) (x % 1024) with
  | none =>
    have hp := entry_eq_none he
    refine .inl ⟨(x / 1024 + 1) * 1024, by omega, fun z hz hz' => ?_, fun fs => ?_⟩
    · rw [mapping_none, pageEnt, show z / 1024 = x / 1024 by omega, entry_none hp]
      rfl
    · rw [deallocLoop, if_pos hlt, bind_run (hwalk fs), hp]
      simp only [Bool.false_eq_true, if_false, h1, hpde]
  | some w =>
    obtain ⟨hp, hent⟩ := entry_isSome he
    have hround : ∀ fs, deallocLoop L d oldsz (n + 1) (x * PGSIZE) { s with fail := fs } = (do
        if present w then
          if pteAddr w = 0 then throw "kfree"
          kfree L (pteAddr w)
          store (pteAddr (ent s.mem d (x / 1024))) (x % 1024) 0
        deallocLoop L d oldsz n ((x + 1) * PGSIZE) : KM Unit) { s with fail := fs } := by
      intro fs
      rw [deallocLoop, if_pos hlt, bind_run (hwalk fs), if_pos hp, ← hnext, hent]
      rfl
    by_cases hw : present w = true
    · have hm : mapping s.mem d x = some w := mapping_some.2 ⟨by rw [pageEnt, he, Option.getD_some], hw⟩
      refine .inr ⟨w, hm, fun fs => ?_⟩
      rw [hround, if_pos hw]
      by_cases hf : pteAddr w ∈ pages L
      · obtain ⟨_, s1, hk, hst⟩ := bind_ok.1 (unmap_run (s := { s with fail := fs }) hs hx hm hf)
        rw [if_pos hf, if_neg (page_ne_zero hf)]
        exact (bind_run hk).trans (bind_run hst)
      · have hk : kfree L (pteAddr w) { s with fail := fs } = .error "kfree" := by
          rw [kfree_eq, if_neg hf]
        rw [if_neg hf]
        split
        · rfl
        · exact bind_error hk
    · refine .inl ⟨x + 1, by omega, fun z hz hz' => ?_, fun fs => ?_⟩
      · rw [show z = x by omega, mapping_none, pageEnt, he]
        exact Bool.eq_false_iff.2 hw
      · rw [hround, if_neg hw]

theorem deallocLoop_frees (hs : Solo s.mem d) (htop : top ≤ KERNBASE)
    (hy : ∀ z, z * PGSIZE < top ↔ z < y) (hn : top ≤ (x + n) * PGSIZE) :
    ((∃ f ∈ framesIn s.mem d x y, f ∉ pages L) ∧
      ∀ fs, deallocLoop L d top n (x * PGSIZE) { s with fail := fs } = .error "kfree") ∨
    ((∀ f ∈ framesIn s.mem d x y, f ∈ pages L) ∧
      ∃ s', Steady (deallocLoop L d top n (x * PGSIZE)) s () s' ∧ Emptied s s' d x y) := by
  have hend : ∀ {x : Nat} {s : Kernel}, y ≤ x →
      (∀ f ∈ framesIn s.mem d x y, f ∈ pages L) ∧ Emptied s s d x y := fun hle =>
    ⟨fun f hf => by obtain ⟨z, h1, h2, -⟩ := mem_framesIn.1 hf; omega, .refl hle⟩
  have hy' : y ≤ 2 ^ 19 := by
    by_contra hlt
    have := (hy (2 ^ 19)).2 (by omega)
    unfold KERNBASE PGSIZE at *
    omega
  induction n generalizing x s with
  | zero =>
    have hle : y ≤ x := by
      by_contra hlt
      have := (hy x).2 (by omega)
      unfold PGSIZE at *
      omega
    exact .inr ⟨(hend hle).1, s, fun _ => rfl, (hend hle).2⟩
  | succ n ih =>
    by_cases hlt : x * PGSIZE < top
    · have hxy : x < y := (hy x).1 hlt
      rcases deallocLoop_page (L := L) (n := n) hs htop hlt with
        ⟨k, hk, hnone, hround⟩ | ⟨w, hw, hround⟩
      · rw [framesIn_skip hk.le hnone]
        rcases ih (x := k) hs (hn.trans (Nat.mul_le_mul_right _ (by omega))) with
          ⟨hf, hrun⟩ | ⟨hf, s', hrun, he⟩
        · exact .inl ⟨hf, fun fs => (hround fs).trans (hrun fs)⟩
        · exact .inr ⟨hf, s', fun fs => (hround fs).trans (hrun fs), he.skip hk.le hnone⟩
      · have hc := cleared_unmap hs (by omega) hw
        have ih' := ih (x := x + 1) hc.1 (hn.trans (Nat.mul_le_mul_right _ (by omega)))
        rw [framesIn_congr fun z h1 h2 => hc.2.mapping (by omega) (.inr h1)] at ih'
        rw [framesIn_cons hxy hw]
        by_cases hmem : pteAddr w ∈ pages L
        · simp only [if_pos hmem] at hround
          rcases ih' with ⟨⟨f, hf, hno⟩, hrun⟩ | ⟨hf, s', hrun, he⟩
          · exact .inl ⟨⟨f, List.mem_cons_of_mem _ hf, hno⟩, fun fs => (hround fs).trans (hrun fs)⟩
          · exact .inr ⟨List.forall_mem_cons.2 ⟨hmem, hf⟩, s', fun fs => (hround fs).trans (hrun fs),
              .cons hs hy' hxy hw he⟩
        · simp only [if_neg hmem] at hround
          exact .inl ⟨⟨_, List.mem_cons_self, hmem⟩, hround⟩
    · have hle : y ≤ x := Nat.le_of_not_lt fun h => hlt ((hy x).2 h)
      refine .inr ⟨(hend hle).1, s, fun fs => ?_, (hend hle).2⟩
      rw [deallocLoop, if_neg hlt]
      rfl

/-- **`deallocuvm`** empties the range above the new size, or it panics in `kfree`. -/
theorem deallocuvm_empties (hs : Solo s.mem d) (hle : oldsz ≤ KERNBASE) (hlt : newsz < oldsz) :
    ((∃ f ∈ framesIn s.mem d (pageCount newsz) (pageCount oldsz), f ∉ pages L) ∧
      ∀ fs, deallocuvm L d oldsz newsz { s with fail := fs } = .error "kfree") ∨
    ((∀ f ∈ framesIn s.mem d (pageCount newsz) (pageCount oldsz), f ∈ pages L) ∧
      ∃ s', Steady (deallocuvm L d oldsz newsz) s newsz s' ∧
        Emptied s s' d (pageCount newsz) (pageCount oldsz)) := by
  obtain ⟨h1, -, -⟩ := pageCount_spec (k := newsz) (by omega)
  obtain ⟨-, -, h3⟩ := pageCount_spec hle
  unfold deallocuvm
  rw [if_neg (by omega), h1]
  rcases deallocLoop_frees (L := L) (x := pageCount newsz) (n := oldsz / PGSIZE + 1) hs hle h3
    (by unfold PGSIZE; omega) with ⟨hf, hrun⟩ | ⟨hf, s', hrun, he⟩
  · exact .inl ⟨hf, fun fs => bind_error (hrun fs)⟩
  · exact .inr ⟨hf, s', hrun.bind fun _ => rfl, he⟩

theorem Emptied.hist (h : Emptied s s' d x y) : s'.hist = s.hist := by rw [h.rest]

theorem Emptied.trans (h : Emptied s s' d x y) : Trans s (dirUse s.mem d) s' (dirUse s'.mem d) := by
  obtain ⟨m', fl, rfl⟩ : ∃ m' fl, s' = { s with mem := m', freelist := fl } := ⟨_, _, h.rest⟩
  refine ⟨⟨fun f => ?_, fun f hf => ?_, rfl, rfl, List.suffix_refl _⟩, rfl, rfl, rfl, rfl, rfl⟩
  · have huse := h.use f
    unfold pool
    rw [h.freelist, List.count_append, List.count_reverse]
    simp only at huse ⊢
    omega
  · have huse := h.use f
    have hm := h.mem f fun ⟨i, hi, hp, ht⟩ => by
      have := dirUse_table hi hp
      rw [ht] at this
      omega
    rwa [if_neg] at hm
    rw [← List.count_pos_iff]
    omega

theorem deallocuvm_spec {r : Nat} (hold : oldsz ≤ KERNBASE)
    (h : deallocuvm L d oldsz newsz s = .ok (r, s')) (ho : Own s (dirUse s.mem d)) :
    (oldsz ≤ newsz ∧ r = oldsz ∧ s' = s) ∨
      (newsz < oldsz ∧ r = newsz ∧ Emptied s s' d (pageCount newsz) (pageCount oldsz)) := by
  by_cases hle : oldsz ≤ newsz
  · rw [deallocuvm, if_pos hle] at h
    obtain ⟨rfl, rfl⟩ := pure_ok.1 h
    exact .inl ⟨hle, rfl, rfl⟩
  · rcases deallocuvm_empties (L := L) ho.solo hold (Nat.lt_of_not_le hle) with
      ⟨-, hrun⟩ | ⟨-, s1, hrun, he⟩
    · cases h.symm.trans (hrun s.fail)
    · cases h.symm.trans (hrun s.fail)
      obtain ⟨m', fl, rfl⟩ : ∃ m' fl, s1 = { s with mem := m', freelist := fl } := ⟨_, _, he.rest⟩
      exact .inr ⟨Nat.lt_of_not_le hle, rfl, he⟩

/-! ## `freevm` -/

def tablesFrom (m : Nat → Store) (d i f : Nat) : Nat :=
  ∑ k ∈ dirIndices, if i ≤ k ∧ present (ent m d k) = true ∧ pteAddr (ent m d k) = f then 1 else 0

theorem tablesFrom_zero {m : Nat → Store} : tablesFrom m d 0 f = tableUse m d f := by
  simp only [tablesFrom, tableUse, Nat.zero_le, true_and]

theorem tablesFrom_end {m : Nat → Store} : tablesFrom m d NPDENTRIES f = 0 := by
  refine sum_eq_zero fun k hk => if_neg fun h => ?_
  have := mem_dirIndices.1 hk
  omega

theorem tablesFrom_step {m : Nat → Store} (hi : i < NPDENTRIES) :
    tablesFrom m d i f = tablesFrom m d (i + 1) f +
      if present (ent m d i) = true then one (pteAddr (ent m d i)) f else 0 := by
  have hc := Count.sum_change (k := i) (S := dirIndices)
    (g := fun k => if i ≤ k ∧ present (ent m d k) = true ∧ pteAddr (ent m d k) = f then 1 else 0)
    (h := fun k => if i + 1 ≤ k ∧ present (ent m d k) = true ∧ pteAddr (ent m d k) = f
      then 1 else 0)
    (mem_dirIndices.2 hi) (fun k _ hne => by
      have : i ≤ k ↔ i + 1 ≤ k := by omega
      simp only [this])
  simp only [Nat.le_refl, true_and, Nat.not_succ_le_self, false_and, if_false, Nat.add_zero] at hc
  unfold tablesFrom
  rw [hc]
  by_cases hp : present (ent m d i) = true <;> simp [hp, one]

theorem freeTables_trans {m : Nat → Store} (hm : s.mem d = m d)
    (hd : ∀ i < NPDENTRIES, present (ent m d i) = true → pteAddr (ent m d i) ≠ d)
    (h : freeTables L d n i s = .ok (u, s')) (hn : n + i = NPDENTRIES) :
    s'.mem d = m d ∧ Trans s (fun f => X f + tablesFrom m d i f) s' X := by
  induction n generalizing i s with
  | zero =>
    obtain ⟨-, rfl⟩ := pure_ok.1 h
    refine ⟨hm, Trans.refl.congr (fun f => ?_) fun _ => rfl⟩
    rw [show i = NPDENTRIES by omega, tablesFrom_end, Nat.add_zero]
  | succ n ih =>
    unfold freeTables at h
    simp only [bind_ok, load_run, Except.ok.injEq, Prod.mk.injEq] at h
    obtain ⟨w, s1, ⟨rfl, rfl⟩, h⟩ := h
    rw [ent_congr (m := m) hm] at h
    have hi : i < NPDENTRIES := by omega
    split at h
    · rename_i hp
      rw [bind_ok] at h
      obtain ⟨_, s1, hk, h⟩ := h
      have htr := kfree_trans (X := fun f => X f + tablesFrom m d (i + 1) f) hk
      have hm' : s1.mem d = m d := by
        rw [kfree_ok hk]
        exact (update_of_ne (hd i hi hp).symm _ _).trans hm
      obtain ⟨h1, h2⟩ := ih hm' h (by omega)
      refine ⟨h1, (htr.trans h2).congr (fun f => ?_) fun _ => rfl⟩
      rw [tablesFrom_step hi, if_pos hp]
      omega
    · rename_i hp
      obtain ⟨h1, h2⟩ := ih hm h (by omega)
      refine ⟨h1, h2.congr (fun f => ?_) fun _ => rfl⟩
      rw [tablesFrom_step hi, if_neg hp]
      omega

/-- **`freevm` releases a directory**, with its page tables and user pages. -/
theorem freevm_trans (h : freevm L (some d) s = .ok (u, s')) (ho : Own s (dirUse s.mem d)) :
    Trans s (dirUse s.mem d) s' (fun _ => 0) := by
  unfold freevm at h
  simp only [bind_ok] at h
  obtain ⟨r, s1, h1, _, s2, h2, h3⟩ := h
  rcases deallocuvm_spec (Nat.le_refl _) h1 ho with ⟨hle, -, -⟩ | ⟨-, -, hd⟩
  · exact absurd hle (by decide)
  · have ho1 := ho.trans hd.trans
    have huse : ∀ f, userUse s1.mem d f = 0 := fun f => by
      unfold userUse
      refine sum_eq_zero fun x hx => entryUse_absent ?_
      obtain ⟨hx1, hx2⟩ := mem_userPages.1 hx
      have hgone := mapping_none.1 (hd.gone (z := x.1 * 1024 + x.2) (by omega) (Nat.zero_le _)
        (show _ < 2 ^ 19 by omega))
      rwa [pageEnt, show (x.1 * 1024 + x.2) / 1024 = x.1 by omega,
        show (x.1 * 1024 + x.2) % 1024 = x.2 by omega] at hgone
    obtain ⟨-, ht⟩ := freeTables_trans (X := one d) rfl (fun i hi hp => ho1.solo.table_ne hi hp) h2
      rfl
    refine hd.trans.trans ((ht.trans ((kfree_trans h3).congr (fun f => ?_) fun _ => rfl)).congr
      (fun f => ?_) fun _ => rfl)
    · exact (Nat.zero_add _).symm
    · rw [dirUse, huse, tablesFrom_zero, Nat.add_zero]

end Vm
