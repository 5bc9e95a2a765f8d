import Xv6.Vm.Proof.Table

/-!
# Walking and mapping

One round of `mappages` sets one entry, takes a page for the page table if there is none, and fails if
there is no page (`mapLoop_round`).
-/

namespace Vm

open Bytes Panic Function

variable {s s' : Kernel} {X Y : Nat → Nat} {m m' : Nat → Store} {d f g i j k w n a pa perm va : Nat}

/-! ## `walkpgdir` -/

theorem walk_run : walkpgdir d va false s = .ok (if present (ent s.mem d (pdx va)) then
    some (pteAddr (ent s.mem d (pdx va)), ptx va) else none, s) := by
  rw [walkpgdir, bind_run load_run]
  split <;> rfl

theorem walk_find_some (h : walkpgdir d va false s = .ok (some (k, j), s')) :
    s' = s ∧ present (ent s.mem d (pdx va)) = true ∧ k = pteAddr (ent s.mem d (pdx va)) ∧
      j = ptx va := by
  rw [walk_run] at h
  split at h
  · rename_i hp
    cases h
    exact ⟨rfl, hp, rfl, rfl⟩
  · cases h

/-- The page table `i0` is there, and the others are as before. -/
structure PdeStep (m m' : Nat → Store) (d i0 : Nat) : Prop where
  other : ∀ i, i ≠ i0 → ent m' d i = ent m d i
  old : present (ent m d i0) = true → ent m' d i0 = ent m d i0
  new : present (ent m d i0) = false → ∃ g, ent m' d i0 = userPte g

theorem PdeStep.present (h : PdeStep m m' d k) :
    Vm.present (ent m' d i) = true ↔ i = k ∨ Vm.present (ent m d i) = true := by
  by_cases hi : i = k
  · subst hi
    refine iff_of_true ?_ (.inl rfl)
    cases hp : Vm.present (ent m d i) with
    | true => rw [h.old hp, hp]
    | false =>
      obtain ⟨g, hg⟩ := h.new hp
      rw [hg, present_mkPte]
  · rw [h.other i hi]
    exact (or_iff_right hi).symm

/-- A kernel function adds the page table `i0` to `d`: it takes a free page for it, and writes to
that, to the directory and to its page tables. -/
structure Tabled (s s' : Kernel) (d i0 : Nat) : Prop where
  pde : PdeStep s.mem s'.mem d i0
  hist : s'.hist = s.hist
  kept : present (ent s.mem d i0) = true → s'.freelist = s.freelist
  taken : present (ent s.mem d i0) = false → ∃ t, s.freelist = t :: s'.freelist
  mem : ∀ f, pool s f + one d f + tableUse s.mem d f = 0 → s'.mem f = s.mem f

def tabled (s : Kernel) (d i : Nat) : Kernel :=
  if present (ent s.mem d i) then s
  else { s with freelist := s.freelist.tail, mem := newTable s.mem d i (s.freelist.headD 0) }

def Tableable (s : Kernel) (d i : Nat) : Prop :=
  present (ent s.mem d i) = true ∨ s.freelist ≠ []

/-- The directory is a tree, and the pages that `kalloc` returns are not in it. -/
structure Unshared (s : Kernel) (d : Nat) : Prop where
  tree : Tree s.mem d
  nodup : s.freelist.Nodup
  lt : ∀ g ∈ s.freelist, g < 2 ^ 20
  root : d ∉ s.freelist
  table : ∀ i < NPDENTRIES, present (ent s.mem d i) = true → pteAddr (ent s.mem d i) ∉ s.freelist

theorem tabled_kept (hp : present (ent s.mem d i) = true) :
    (tabled s d i).freelist = s.freelist := by
  rw [tabled, if_pos hp]

theorem tabled_taken (ht : Tableable s d i) (hp : present (ent s.mem d i) = false) :
    ∃ t, s.freelist = t :: (tabled s d i).freelist := by
  obtain ⟨g, fl, hfl⟩ := List.exists_cons_of_ne_nil (ht.resolve_left (by rw [hp]; decide))
  exact ⟨g, by rw [tabled, if_neg (by rw [hp]; decide), hfl]; rfl⟩

theorem Unshared.tabled (hs : Unshared s d) (ht : Tableable s d i) :
    Unshared (tabled s d i) d ∧ PdeStep s.mem (tabled s d i).mem d i ∧
      ∀ k < NPDENTRIES, ∀ j, entry (tabled s d i).mem d k j =
        if k = i then some ((entry s.mem d k j).getD 0) else entry s.mem d k j := by
  cases hp : present (ent s.mem d i) with
  | true =>
    rw [Vm.tabled, if_pos hp]
    refine ⟨hs, ⟨fun _ _ => rfl, fun _ => rfl, fun h => ?_⟩, fun k hk j => ?_⟩
    · rw [hp] at h
      cases h
    · split
      · rename_i he
        rw [he, entry_eq hp, Option.getD_some]
      · rfl
  | false =>
    obtain ⟨g, fl, hfl⟩ := List.exists_cons_of_ne_nil (ht.resolve_left (by rw [hp]; decide))
    have hmem : g ∈ s.freelist := by simp [hfl]
    have hsub : ∀ q ∈ fl, q ∈ s.freelist := fun q hq => by simp [hfl, hq]
    have hne : g ≠ d := fun he => hs.root (he ▸ hmem)
    have hu : ∀ k < NPDENTRIES, present (ent s.mem d k) = true → pteAddr (ent s.mem d k) ≠ g :=
      fun k hk hp he => hs.table k hk hp (he ▸ hmem)
    obtain ⟨hgf, hnodup⟩ := List.nodup_cons.1 (hfl ▸ hs.nodup)
    have hnew : ∀ k, k = i → ent (newTable s.mem d i g) d k = userPte g :=
      fun k hk => (newTable_ent hne (hs.lt g hmem)).trans (if_pos hk)
    have hold : ∀ k, k ≠ i → ent (newTable s.mem d i g) d k = ent s.mem d k :=
      fun k hk => (newTable_ent hne (hs.lt g hmem)).trans (if_neg hk)
    have haddr : ∀ k, k = i → pteAddr (ent (newTable s.mem d i g) d k) = g := fun k hk => by
      rw [hnew k hk, pteAddr_userPte]
    rw [Vm.tabled, if_neg (by rw [hp]; decide), hfl]
    simp only [List.headD_cons, List.tail_cons]
    refine ⟨⟨⟨fun k hk hpk => ?_, fun k hk l hl hpk hpl he => ?_⟩, hnodup,
      fun q hq => hs.lt q (hsub q hq), fun hq => hs.root (hsub d hq), fun k hk hpk => ?_⟩,
      ⟨hold, fun h => ?_, fun _ => ⟨g, hnew i rfl⟩⟩, fun k hk j => ?_⟩
    · by_cases hki : k = i
      · rw [haddr k hki]
        exact hne
      · rw [hold k hki] at hpk ⊢
        exact hs.tree.root k hk hpk
    · by_cases hki : k = i <;> by_cases hli : l = i
      · rw [hki, hli]
      · rw [haddr k hki, hold l hli] at he
        rw [hold l hli] at hpl
        exact absurd he.symm (hu l hl hpl)
      · rw [hold k hki, haddr l hli] at he
        rw [hold k hki] at hpk
        exact absurd he (hu k hk hpk)
      · rw [hold k hki] at hpk he
        rw [hold l hli] at hpl he
        exact hs.tree.inj k hk l hl hpk hpl he
    · by_cases hki : k = i
      · rwa [haddr k hki]
      · rw [hold k hki] at hpk ⊢
        exact fun hq => hs.table k hk hpk (hsub _ hq)
    · rw [hp] at h
      cases h
    · rw [newTable_entry_tree hne hs.tree (hs.lt g hmem) hu hk]
      split
      · rename_i he
        rw [he, entry_none hp, Option.getD_none]
      · rfl

/-- What `walkpgdir` does when it may allocate. -/
structure Walked (s s' : Kernel) (d va : Nat) : Prop extends Tabled s s' d (pdx va) where
  present : present (ent s'.mem d (pdx va)) = true
  entry : ∀ i < NPDENTRIES, ∀ j, entry s'.mem d i j =
    if i = pdx va then some ((entry s.mem d i j).getD 0) else entry s.mem d i j
  trans : Trans s (dirUse s.mem d) s' (dirUse s'.mem d)
  table : 0 < pool s (pteAddr (ent s'.mem d (pdx va))) +
    tableUse s.mem d (pteAddr (ent s'.mem d (pdx va)))

theorem Own.free (ho : Own s (dirUse s.mem d)) (hg : g ∈ s.freelist) :
    g ≠ d ∧ g < 2 ^ 20 ∧ dirUse s.mem d g = 0 ∧ 0 < pool s g := by
  have hpos : 0 < pool s g := by
    have := List.count_pos_iff.2 hg
    unfold pool
    omega
  have h1 := ho.le_one g
  refine ⟨?_, ho.lt g (by omega), by omega, hpos⟩
  rintro rfl
  have := dirUse_self (m := s.mem) (d := g)
  omega

theorem Own.unshared (ho : Own s (dirUse s.mem d)) : Unshared s d := by
  refine ⟨ho.solo.tree, List.nodup_iff_count_le_one.2 fun f => ?_, fun g hg => (ho.free hg).2.1,
    fun hd => (ho.free hd).1 rfl, fun i hi hp hg => ?_⟩
  · have := ho.le_one f
    unfold pool at this
    omega
  · have h1 := dirUse_table hi hp
    have h2 := (ho.free hg).2.2.1
    omega

theorem walked_tabled (ho : Own s (dirUse s.mem d)) (ht : Tableable s d (pdx va)) :
    Walked s (tabled s d (pdx va)) d va := by
  obtain ⟨-, hpde, hentry⟩ := ho.unshared.tabled ht
  cases hp : present (ent s.mem d (pdx va)) with
  | true =>
    have hs : tabled s d (pdx va) = s := if_pos hp
    have := tableUse_pos (pdx_lt va) hp
    rw [hs] at hpde hentry ⊢
    refine ⟨⟨hpde, rfl, fun _ => rfl, fun h => ?_, fun _ _ => rfl⟩, hp, hentry, Trans.refl, by omega⟩
    rw [hp] at h
    cases h
  | false =>
    obtain ⟨g, fl, hfl⟩ := List.exists_cons_of_ne_nil (ht.resolve_left (by rw [hp]; decide))
    obtain ⟨hne, hlt, hu, hpos⟩ := ho.free (g := g) (by rw [hfl]; exact List.mem_cons_self)
    have hs : tabled s d (pdx va) = { s with freelist := fl, mem := newTable s.mem d (pdx va) g } := by
      rw [tabled, if_neg (by rw [hp]; decide), hfl]
      rfl
    have hother : ∀ f, pool s f + one d f = 0 → newTable s.mem d (pdx va) g f = s.mem f := by
      refine fun f hf => newTable_other ?_ ?_
      · rintro rfl
        rw [one_self] at hf
        omega
      · rintro rfl
        omega
    rw [hs] at hpde hentry ⊢
    refine ⟨⟨hpde, rfl, fun h => ?_, fun _ => ⟨g, hfl⟩, fun f hf => hother f (by omega)⟩,
      hpde.present.2 (.inl rfl), hentry, ?_, ?_⟩
    · rw [hp] at h
      cases h
    · refine ⟨⟨fun f => ?_, fun f hf => hother f ?_, rfl, rfl, List.suffix_refl _⟩, rfl, rfl, rfl,
        rfl, rfl⟩
      · rw [newTable_dirUse hne ho.solo hu hlt (pdx_lt va) hp]
        simp only [pool, hfl, List.count_cons, one, beq_iff_eq]
        omega
      · have hd := dirUse_self (m := s.mem) (d := d)
        have : d ≠ f := by
          rintro rfl
          omega
        rw [one_ne this]
        omega
    · simp only [newTable_ent hne hlt, if_true, pteAddr_userPte]
      omega

def Refused (s : Kernel) : Prop := s.fail.head? = some true ∨ s.freelist = []

theorem kalloc_refused (h : Refused s) : kalloc s = .ok (none, { s with fail := s.fail.tail }) := by
  unfold kalloc Refused at *
  rcases hf : s.fail with _ | ⟨_ | _, fs⟩ <;> rcases hl : s.freelist with _ | ⟨g, fl⟩ <;> simp_all

theorem kalloc_takes {fl : List Nat} (h : s.fail.head? ≠ some true) (hfl : s.freelist = g :: fl) :
    kalloc s = .ok (some g, { s with fail := s.fail.tail, freelist := fl }) := by
  unfold kalloc
  rcases hf : s.fail with _ | ⟨_ | _, fs⟩ <;> simp_all

theorem kalloc_total (s : Kernel) : ∃ fs, kalloc s = .ok (none, { s with fail := fs }) ∨
      ∃ g fl, s.freelist = g :: fl ∧
        kalloc s = .ok (some g, { s with fail := fs, freelist := fl }) := by
  by_cases hr : Refused s
  · exact ⟨_, .inl (kalloc_refused hr)⟩
  · obtain ⟨hf, hl⟩ := not_or.1 hr
    obtain ⟨g, fl, hfl⟩ := List.exists_cons_of_ne_nil hl
    exact ⟨_, .inr ⟨g, fl, hfl, kalloc_takes hf hfl⟩⟩

theorem walk_present {b : Bool} (hp : present (ent s.mem d (pdx va)) = true) :
    walkpgdir d va b s = .ok (some (pteAddr (ent s.mem d (pdx va)), ptx va), s) := by
  rw [walkpgdir, bind_run load_run, if_pos hp]
  rfl

theorem walk_absent (hp : present (ent s.mem d (pdx va)) = false) :
    walkpgdir d va true s = (do
      match ← kalloc with
      | none => return none
      | some g =>
        modify fun s : Kernel => { s with mem := newTable s.mem d (pdx va) g }
        return some (g, ptx va)) s := by
  rw [walkpgdir, bind_run load_run, if_neg (by rw [hp]; decide)]
  rfl

theorem walk_takes {fl : List Nat} {fs : List Bool} (hne : g ≠ d) (hlt : g < 2 ^ 20)
    (hp : present (ent s.mem d (pdx va)) = false) (hfl : s.freelist = g :: fl)
    (hk : kalloc s = .ok (some g, { s with fail := fs, freelist := fl })) :
    walkpgdir d va true s = .ok (some (pteAddr (ent (tabled s d (pdx va)).mem d (pdx va)), ptx va),
      { tabled s d (pdx va) with fail := fs }) := by
  rw [walk_absent hp, bind_run hk, tabled, if_neg (by rw [hp]; decide), hfl]
  simp only [List.headD_cons, newTable_ent hne hlt, if_true,
    pteAddr_userPte]
  rfl

theorem Unshared.walk (hs : Unshared s d) (va : Nat) :
    (present (ent s.mem d (pdx va)) = false ∧ Refused s ∧
      walkpgdir d va true s = .ok (none, { s with fail := s.fail.tail })) ∨
    ∃ fs, Tableable s d (pdx va) ∧ (present (ent s.mem d (pdx va)) = true → fs = s.fail) ∧
      (present (ent s.mem d (pdx va)) = false → fs = s.fail.tail ∧ ¬ Refused s) ∧
      walkpgdir d va true s =
        .ok (some (pteAddr (ent (Vm.tabled s d (pdx va)).mem d (pdx va)), ptx va),
          { Vm.tabled s d (pdx va) with fail := fs }) := by
  cases hp : present (ent s.mem d (pdx va)) with
  | true =>
    refine .inr ⟨s.fail, .inl hp, fun _ => rfl, (by simp), ?_⟩
    rw [walk_present hp, Vm.tabled, if_pos hp]
  | false =>
    by_cases hr : Refused s
    · refine .inl ⟨rfl, hr, ?_⟩
      rw [walk_absent hp, bind_run (kalloc_refused hr)]
      rfl
    · obtain ⟨hf, hl⟩ := not_or.1 hr
      obtain ⟨g, fl, hfl⟩ := List.exists_cons_of_ne_nil hl
      have hmem : g ∈ s.freelist := by simp [hfl]
      refine .inr ⟨s.fail.tail, .inr hl, (by simp), fun _ => ⟨rfl, hr⟩, ?_⟩
      exact walk_takes (fun he => hs.root (he ▸ hmem)) (hs.lt g hmem) hp hfl (kalloc_takes hf hfl)

/-! ## One round of `mappages` -/

def placed (s : Kernel) (d a w : Nat) : Kernel :=
  { tabled s d (pdx a) with mem := setPte (tabled s d (pdx a)).mem d (pdx a) (ptx a) w }

theorem Unshared.placed (hs : Unshared s d) (ht : Tableable s d (pdx a)) :
    Unshared (placed s d a w) d ∧ PdeStep s.mem (placed s d a w).mem d (pdx a) ∧
      ∀ k < NPDENTRIES, ∀ j, entry (placed s d a w).mem d k j = if k = pdx a then
        if j = ptx a then some (w % UINT) else some ((entry s.mem d k j).getD 0)
        else entry s.mem d k j := by
  obtain ⟨hf, hpde, hentry⟩ := hs.tabled ht
  have hp := hpde.present.2 (.inl rfl)
  have hent : ∀ k, ent (Vm.placed s d a w).mem d k = ent (Vm.tabled s d (pdx a)).mem d k := fun k =>
    hf.tree.setPte_ent (pdx_lt a) hp
  refine ⟨⟨⟨fun k hk hpk => ?_, fun k hk l hl hpk hpl he => ?_⟩, hf.nodup, hf.lt, hf.root,
    fun k hk hpk => ?_⟩, ⟨fun k hk => (hent k).trans (hpde.other k hk),
    fun h => (hent _).trans (hpde.old h), fun h => (hent (pdx a)).symm ▸ hpde.new h⟩, fun k hk j => ?_⟩
  · rw [hent] at hpk ⊢
    exact hf.tree.root k hk hpk
  · rw [hent] at hpk hpl
    rw [hent k, hent l] at he
    exact hf.tree.inj k hk l hl hpk hpl he
  · rw [hent] at hpk ⊢
    exact hf.table k hk hpk
  · simp only [Vm.placed, hf.tree.setPte_entry (pdx_lt a) hp hk, hentry k hk]
    by_cases h1 : k = pdx a <;> by_cases h2 : j = ptx a <;> simp [h1, h2]

/-- What one round of `mappages` does. -/
structure Mapped (s s' : Kernel) (d va w : Nat) : Prop extends Tabled s s' d (pdx va) where
  entry : ∀ i < NPDENTRIES, ∀ j, entry s'.mem d i j =
    if i = pdx va then
      if j = ptx va then some w else some ((entry s.mem d i j).getD 0)
    else entry s.mem d i j
  fresh : Vm.present ((Vm.entry s.mem d (pdx va) (ptx va)).getD 0) = false
  user : pdx va < 512 → present w = true →
    Trans s (fun f => dirUse s.mem d f + one (pteAddr w) f) s' (dirUse s'.mem d)
  kernel : 512 ≤ pdx va → Trans s (dirUse s.mem d) s' (dirUse s'.mem d)

theorem Trans.setFail {fs : List Bool} (h : Trans s X s' Y) : Trans s X { s' with fail := fs } Y :=
  h.trans trans_fail

theorem Mapped.setFail {fs : List Bool} (h : Mapped s s' d a w) :
    Mapped s { s' with fail := fs } d a w :=
  ⟨⟨h.pde, h.hist, h.kept, h.taken, h.mem⟩, h.entry, h.fresh, fun hu hp => (h.user hu hp).setFail,
    fun hk => (h.kernel hk).setFail⟩

theorem mapped_placed (ho : Own s (dirUse s.mem d)) (ht : Tableable s d (pdx a))
    (hfresh : present ((entry s.mem d (pdx a) (ptx a)).getD 0) = false) :
    Mapped s (placed s d a w) d a (w % UINT) := by
  have hwk := walked_tabled ho ht
  have ho1 := ho.trans hwk.trans
  obtain ⟨-, hpde, hentry⟩ := ho.unshared.placed (w := w) ht
  have hold : present ((entry (tabled s d (pdx a)).mem d (pdx a) (ptx a)).getD 0) = false := by
    rw [hwk.entry _ (pdx_lt a), if_pos rfl]
    exact hfresh
  have hpos := dirUse_table (pdx_lt a) hwk.present
  refine ⟨⟨hpde, hwk.hist, hwk.kept, hwk.taken, fun f hf => ?_⟩, hentry, hfresh, fun hu hp => ?_,
    fun hk => ?_⟩
  · have hne : f ≠ pteAddr (ent (tabled s d (pdx a)).mem d (pdx a)) := by
      rintro rfl
      have := hwk.table
      omega
    exact (update_of_ne hne _ _).trans (hwk.mem f hf)
  · refine (hwk.trans.frame _).trans ?_
    refine Trans.congr (X := fun f => dirUse (tabled s d (pdx a)).mem d f + one (pteAddr (w % UINT)) f)
      (Y := fun f => dirUse (tabled s d (pdx a)).mem d f + one (pteAddr (w % UINT)) f)
      (trans_setMem (by omega)) (fun _ => rfl) fun f => ?_
    exact setPte_dirUse_fresh ho1.solo (pdx_lt a) hwk.present hu (ptx_lt a) hold rfl hp
  · exact hwk.trans.trans (Trans.congr (X := dirUse (tabled s d (pdx a)).mem d)
      (Y := dirUse (tabled s d (pdx a)).mem d) (trans_setMem (by omega)) (fun _ => rfl)
      fun f => setPte_dirUse_kernel ho1.solo (pdx_lt a) hwk.present hk)

def mapRest (d perm a pa : Nat) : Nat → KM Bool
  | 0 => return true
  | n + 1 => mapLoop d perm n ((a + PGSIZE) % UINT) ((pa + PGSIZE) % UINT)

theorem Unshared.mapLoop_walk {fs fs' : List Bool} (n pa perm : Nat) (hs : Unshared s d)
    (ht : Tableable s d (pdx a)) (hw : walkpgdir d a true { s with fail := fs' } =
      .ok (some (pteAddr (ent (Vm.tabled s d (pdx a)).mem d (pdx a)), ptx a),
        { Vm.tabled s d (pdx a) with fail := fs })) :
    mapLoop d perm n a pa { s with fail := fs' } =
      if present ((entry s.mem d (pdx a) (ptx a)).getD 0) then .error "remap"
      else mapRest d perm a pa n { Vm.placed s d a (mkPte pa perm) with fail := fs } := by
  obtain ⟨-, hpde, hentry⟩ := hs.tabled ht
  have he := hentry (pdx a) (pdx_lt a) (ptx a)
  rw [if_pos rfl, entry_eq (hpde.present.2 (.inl rfl)), Option.some.injEq] at he
  unfold mapLoop
  rw [bind_run hw]
  simp only
  rw [bind_run load_run]
  simp only [he]
  split
  · rfl
  · cases n <;> rfl

theorem Unshared.round (hs : Unshared s d) (n pa perm : Nat) :
    (present (ent s.mem d (pdx a)) = false ∧ Refused s ∧
      mapLoop d perm n a pa s = .ok (false, { s with fail := s.fail.tail })) ∨
    ∃ fs, Tableable s d (pdx a) ∧ (present (ent s.mem d (pdx a)) = true → fs = s.fail) ∧
      (present (ent s.mem d (pdx a)) = false → fs = s.fail.tail ∧ ¬ Refused s) ∧
      mapLoop d perm n a pa s = if present ((entry s.mem d (pdx a) (ptx a)).getD 0) then .error "remap"
        else mapRest d perm a pa n { Vm.placed s d a (mkPte pa perm) with fail := fs } := by
  rcases hs.walk a with ⟨hp, hr, hw⟩ | ⟨fs, ht, h1, h2, hw⟩
  · refine .inl ⟨hp, hr, ?_⟩
    unfold mapLoop
    rw [bind_run hw]
    rfl
  · exact .inr ⟨fs, ht, h1, h2, hs.mapLoop_walk n pa perm ht hw⟩

/-- **One round of `mappages`**: it maps the page, or there is no page for the page table and it
changes nothing; a page that is mapped already is a panic. -/
theorem mapLoop_round (pa perm : Nat) (ho : Own s (dirUse s.mem d)) :
    (∃ fs, mapLoop d perm n a pa s = .ok (false, { s with fail := fs })) ∨
    (present ((entry s.mem d (pdx a) (ptx a)).getD 0) = true ∧
      mapLoop d perm n a pa s = .error "remap") ∨
    ∃ s1, Mapped s s1 d a (mkPte pa perm % UINT) ∧
      mapLoop d perm n a pa s = mapRest d perm a pa n s1 := by
  rcases ho.unshared.round n pa perm with ⟨-, -, hrun⟩ | ⟨fs, ht, -, -, hrun⟩
  · exact .inl ⟨_, hrun⟩
  · by_cases hp : present ((entry s.mem d (pdx a) (ptx a)).getD 0) = true
    · exact .inr (.inl ⟨hp, hrun.trans (if_pos hp)⟩)
    · exact .inr (.inr ⟨_, (mapped_placed ho ht (Bool.eq_false_iff.2 hp)).setFail,
        hrun.trans (if_neg hp)⟩)

theorem mappages_page {x : Nat} (hx : x < 2 ^ 19) :
    mappages d (x * PGSIZE) PGSIZE pa perm = mapLoop d perm 0 (x * PGSIZE) pa := by
  have hn : (pgrounddown ((x * PGSIZE + PGSIZE + UINT - 1) % UINT) + UINT - pgrounddown (x * PGSIZE)) %
      UINT / PGSIZE = 0 := by
    unfold pgrounddown PGSIZE UINT at *
    omega
  have ha : pgrounddown (x * PGSIZE) = x * PGSIZE := by
    unfold pgrounddown PGSIZE
    omega
  rw [mappages, hn, ha]

theorem pageEnt_of_entry {x z : Nat} (hx : x < 2 ^ 20) (hz : z < 2 ^ 20)
    (h : ∀ i < NPDENTRIES, ∀ j, entry m' d i j = if i = pdx (x * PGSIZE) then
      if j = ptx (x * PGSIZE) then some w else some ((entry m d i j).getD 0) else entry m d i j) :
    pageEnt m' d z = if z = x then w else pageEnt m d z := by
  obtain ⟨h1, h2⟩ := pdx_page hx
  have he := h (z / 1024) (by unfold NPDENTRIES; omega) (z % 1024)
  rw [h1, h2] at he
  unfold pageEnt
  rw [he]
  by_cases hzx : z = x
  · rw [if_pos (by rw [hzx]), if_pos (by rw [hzx]), if_pos hzx, Option.getD_some]
  · rw [if_neg hzx]
    split
    · rw [if_neg (by omega), Option.getD_some]
    · rfl

theorem mapped_pageEnt {x z : Nat} (hx : x < 2 ^ 20) (hz : z < 2 ^ 20)
    (h : Mapped s s' d (x * PGSIZE) w) :
    pageEnt s'.mem d z = if z = x then w else pageEnt s.mem d z :=
  pageEnt_of_entry hx hz h.entry

end Vm
