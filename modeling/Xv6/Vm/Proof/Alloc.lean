import Xv6.Vm.Proof.Total

/-!
# Pages of processes

`allocuvm` and `copyuvm` for every pattern of failures of `kalloc`: they take frames from the pool only,
and give them back when they fail. `Resized s s' d x y`: only the pages from `x` to `y` are mapped anew,
the other mappings, and the contents of the pages they map, are kept.
-/

namespace Vm

open Bytes Panic Finset Function

variable {L : Layout} {s s' s'' : Kernel} {X Y : Nat → Nat} {m m' : Nat → Store}
  {d e f g i j k w n x y z c va perm oldsz newsz sz : Nat} {u : Unit} {fl : List Nat}
  {fs : List Bool} {p : Store}

/-! ## User mappings -/

theorem take_page {l : List Bool} (hfl : s.freelist = g :: fl) (ho : Own s (dirUse s.mem d)) :
    SameDir s.mem (update s.mem g p) d ∧
      Trans s (dirUse s.mem d) { s with fail := l, freelist := fl, mem := update s.mem g p }
        (fun f => dirUse (update s.mem g p) d f + one g f) := by
  obtain ⟨-, -, hu, hpos⟩ := ho.free (g := g) (by rw [hfl]; exact List.mem_cons_self)
  have hne : ∀ f, 0 < dirUse s.mem d f → f ≠ g := by
    rintro f hf rfl
    omega
  have hsame : SameDir s.mem (update s.mem g p) d :=
    ⟨update_of_ne (hne d dirUse_self) _ _, fun i hi hp => update_of_ne (hne _ (dirUse_table hi hp)) _ _⟩
  refine ⟨hsame, ⟨fun f => ?_, fun f hf => update_of_ne ?_ _ _, rfl, rfl, List.suffix_refl _⟩,
    rfl, rfl, rfl, rfl, rfl⟩
  · simp only [hsame.dirUse, pool, hfl, List.count_cons, one, beq_iff_eq]
    omega
  · rintro rfl
    omega

theorem kfree_same (hf : kfree L g s = .ok (u, s')) (ho : Own s fun f => dirUse s.mem d f + one g f) :
    SameDir s.mem s'.mem d := by
  have hu : ∀ f, 0 < dirUse s.mem d f → f ≠ g := by
    rintro f hf' rfl
    have := ho.le_one f
    simp only [one_self] at this
    omega
  rw [kfree_ok hf]
  exact ⟨update_of_ne (hu d dirUse_self) _ _,
    fun i hi hp => update_of_ne (hu _ (dirUse_table hi hp)) _ _⟩

theorem SameDir.pageEnt (h : SameDir m m' d) (hx : x < 2 ^ 20) :
    Vm.pageEnt m' d x = Vm.pageEnt m d x := by
  unfold Vm.pageEnt
  rw [h.entry (by unfold NPDENTRIES; omega)]

theorem SameDir.missing (h : SameDir m m' d) : Vm.missing I m' d = Vm.missing I m d := by
  simp only [Vm.missing, h.ent]

theorem PdeStep.of_same {m1 : Nat → Store} (hs : SameDir m m1 d) (h : PdeStep m1 m' d k) :
    PdeStep m m' d k where
  other i hi := (h.other i hi).trans hs.ent
  old hp := (h.old (by rw [hs.ent]; exact hp)).trans hs.ent
  new hp := h.new (by rw [hs.ent]; exact hp)

theorem SameDir.mapping (h : SameDir m m' d) (hx : x < 2 ^ 19) :
    Vm.mapping m' d x = Vm.mapping m d x := mapping_congr (h.pageEnt (by omega))

theorem deallocuvm_grown {r : Nat} (hold : oldsz ≤ KERNBASE)
    (h : deallocuvm L d oldsz newsz s = .ok (r, s')) (ho : Own s (dirUse s.mem d)) :
    Grown s s' d := by
  rcases deallocuvm_spec hold h ho with ⟨-, -, rfl⟩ | ⟨-, -, hd⟩
  · exact .refl
  · exact ⟨hd.trans, hd.kernelClean⟩

/-- Only pages from `x` to `y` were mapped. -/
structure Added (s s' : Kernel) (d x y : Nat) : Prop extends Grown s s' d where
  hist : s'.hist = s.hist
  page : ∀ z < 2 ^ 20, z < x ∨ y ≤ z → pageEnt s'.mem d z = pageEnt s.mem d z
  pde : ∀ i, 512 ≤ i ∨ present (ent s.mem d i) = true → ent s'.mem d i = ent s.mem d i

theorem Added.comp (h : Added s s' d x k) (h' : Added s' s'' d k j) (hle : x ≤ k) (hle' : k ≤ j) :
    Added s s'' d x j := by
  refine ⟨h.toGrown.comp h'.toGrown, h'.hist.trans h.hist, fun z hz hne => ?_, fun i hi => ?_⟩
  · rw [h'.page z hz (by omega), h.page z hz (by omega)]
  · have he := h.pde i hi
    rw [h'.pde i (by rw [he]; exact hi), he]

/-- The pages from `x` to `y` are mapped anew, and nothing else changes for user mode. -/
structure Resized (s s' : Kernel) (d x y : Nat) : Prop extends Added s s' d x y where
  data : ∀ z < 2 ^ 19, z < x ∨ y ≤ z → ∀ w, mapping s.mem d z = some w →
    s'.mem (pteAddr w) = s.mem (pteAddr w)

theorem Resized.mapping (h : Resized s s' d x y) (hz : z < 2 ^ 19) (hne : z < x ∨ y ≤ z) :
    Vm.mapping s'.mem d z = Vm.mapping s.mem d z :=
  mapping_congr (h.page z (by omega) hne)

theorem Resized.refl : Resized s s d x y :=
  ⟨⟨Grown.refl, rfl, fun _ _ _ => rfl, fun _ _ => rfl⟩, fun _ _ _ _ _ => rfl⟩

theorem Resized.mono (h : Resized s s' d x y) (hx : i ≤ x) (hy : y ≤ j) : Resized s s' d i j :=
  ⟨⟨h.toGrown, h.hist, fun z hz hne => h.page z hz (by omega), h.pde⟩,
    fun z hz hne => h.data z hz (by omega)⟩

theorem Resized.comp (h : Resized s s' d x y) (h' : Resized s' s'' d x y) :
    Resized s s'' d x y where
  toGrown := h.toGrown.comp h'.toGrown
  hist := h'.hist.trans h.hist
  page z hz hne := (h'.page z hz hne).trans (h.page z hz hne)
  pde i hi := by
    have he := h.pde i hi
    rw [h'.pde i (by rw [he]; exact hi), he]
  data z hz hne w hw :=
    (h'.data z hz hne w ((h.mapping hz hne).trans hw)).trans (h.data z hz hne w hw)

theorem Own.mapped (ho : Own s (dirUse s.mem d)) (hx : x < 2 ^ 19)
    (hw : mapping s.mem d x = some w) :
    pool s (pteAddr w) = 0 ∧ one d (pteAddr w) = 0 ∧ tableUse s.mem d (pteAddr w) = 0 := by
  have h1 := ho.le_one (pteAddr w)
  have h2 := userUse_mapping hx hw
  unfold dirUse at h1
  omega

theorem Emptied.resized (h : Emptied s s' d x y) (hs : Solo s.mem d) (hy : y ≤ 2 ^ 19) :
    Resized s s' d x y := by
  refine ⟨⟨⟨h.trans, h.kernelClean⟩, h.hist, fun z hz hne => ?_,
    fun i _ => h.pde i⟩, fun z hz hne w hw => ?_⟩
  · unfold pageEnt
    rw [h.pte z hz, if_neg (by omega)]
  · have hu := (hs.user_ne (by omega) (by omega) (entry_of_mapping hw) (mapping_some.1 hw).2).2
    have hm := h.mem _ fun ⟨i, hi, hp, ht⟩ => hu i hi hp ht
    rwa [if_neg fun hf => ?_] at hm
    obtain ⟨k, h1, h2, v, hv, he⟩ := mem_framesIn.1 hf
    have := hs.mapping_inj (by omega) hz hv hw he
    omega

theorem Resized.of_fail (h : Resized { s with fail := fs } s' d x y) : Resized s s' d x y :=
  ⟨⟨⟨trans_fail.trans h.trans, h.clean⟩, h.hist, h.page, h.pde⟩, h.data⟩

/-- User mode sees no difference: the mappings and the pages they map are the same. -/
def SameSpace (s s' : Kernel) (d : Nat) : Prop :=
  ∀ x < 2 ^ 19, mapping s'.mem d x = mapping s.mem d x ∧
    ∀ w, mapping s.mem d x = some w → s'.mem (pteAddr w) = s.mem (pteAddr w)

theorem SameSpace.refl : SameSpace s s d := fun _ _ => ⟨rfl, fun _ _ => rfl⟩

theorem Moved.apart (h : Moved s X s' Y) (ho : Own s fun f => X f + dirUse s.mem e f) :
    (Own s' fun f => Y f + dirUse s'.mem e f) ∧ SameSpace s s' e := by
  have hfree : ∀ f, 0 < dirUse s.mem e f → pool s f + X f = 0 := fun f hf => by
    have := ho.le_one f
    omega
  have hsame := h.same hfree
  refine ⟨?_, fun x hx => ⟨hsame.mapping hx, fun w hw => h.mem _ (hfree _ ?_)⟩⟩
  · simp only [hsame.dirUse]
    exact ho.moved (h.frame _)
  · have := userUse_mapping hx hw
    unfold dirUse
    omega

/-! ## One page -/

def userTables : Finset Nat := range 512

theorem room_of_length (h : 512 + c ≤ s.freelist.length) : Room userTables c s d := by
  have h1 := card_filter_le userTables fun i => present (ent s.mem d i) = false
  have h2 : userTables.card = 512 := card_range 512
  unfold Room missing
  omega

/-- The page `x` is mapped to `g`, taken from the free list with the contents `p`. -/
structure Paged (s s' : Kernel) (d x g : Nat) (fl : List Nat) (p : Store) (perm : Nat) : Prop
    extends Resized s s' d x (x + 1) where
  step : PdeStep s.mem s'.mem d (x / 1024)
  kept : present (ent s.mem d (x / 1024)) = true → s'.freelist = fl
  taken : present (ent s.mem d (x / 1024)) = false → ∃ t, fl = t :: s'.freelist
  new : mapping s'.mem d x = some (mkPte (g * PGSIZE) perm)
  copy : s'.mem g = p

theorem Paged.room (h : Paged s s' d x g fl p perm) (hfl : s.freelist = g :: fl) (hx : x < 2 ^ 19)
    (hroom : Room userTables (c + 1) s d) : Room userTables c s' d := by
  refine Room.step (s := { s with freelist := fl }) ?_ (mem_range.2 (by omega)) h.step h.kept h.taken
  unfold Room at *
  rw [hfl, List.length_cons] at hroom
  simp only
  omega

theorem Paged.free (h : Paged s s' d x g fl p perm) : s'.freelist <:+ fl := by
  cases hp : present (ent s.mem d (x / 1024)) with
  | true => rw [h.kept hp]
  | false =>
    obtain ⟨t, ht⟩ := h.taken hp
    exact ht ▸ List.suffix_cons _ _

theorem paged_mapped {l : List Bool} (hfl : s.freelist = g :: fl) (ho : Own s (dirUse s.mem d))
    (hx : x < 2 ^ 19) (hperm : perm < PGSIZE)
    (hmap : Mapped { s with fail := l, freelist := fl, mem := update s.mem g p } s' d (x * PGSIZE)
      (mkPte (g * PGSIZE) perm)) : Paged s s' d x g fl p perm := by
  obtain ⟨h1, h2⟩ := pdx_page (x := x) (by omega)
  obtain ⟨hsame, ht0⟩ := take_page (l := l) (p := p) hfl ho
  obtain ⟨-, -, -, hg⟩ := ho.free (g := g) (by rw [hfl]; exact List.mem_cons_self)
  have hpool : ∀ f, pool { s with fail := l, freelist := fl, mem := update s.mem g p } f ≤
      pool s f := fun f => by
    simp only [pool, hfl, List.count_cons]
    omega
  have ht := hmap.user (by rw [h1]; omega) present_mkPte
  rw [pteAddr_mkPte hperm] at ht
  have hpde := hmap.pde.of_same hsame
  have hkept := hmap.kept
  have htaken := hmap.taken
  simp only [hsame.ent, h1] at hpde hkept htaken
  refine ⟨⟨⟨⟨ht0.trans ht, fun hc => kernelClean_mapped hmap (.inl (by rw [h1]; omega))
    (hsame.kernelClean hc)⟩, hmap.hist, fun z hz hne => ?_, fun i hi => ?_⟩, fun z hz _ w hw => ?_⟩,
    hpde, hkept, htaken, ?_, ?_⟩
  · rw [mapped_pageEnt (by omega) hz hmap, if_neg (by omega)]
    exact hsame.pageEnt hz
  · by_cases hix : i = x / 1024
    · subst hix
      exact hpde.old (hi.resolve_left (by omega))
    · exact hpde.other i hix
  · obtain ⟨hw1, hw2, hw3⟩ := ho.mapped hz hw
    have hwg : pteAddr w ≠ g := by
      rintro rfl
      omega
    refine (hmap.mem _ ?_).trans (update_of_ne hwg _ _)
    have := hpool (pteAddr w)
    simp only [hsame.tableUse]
    omega
  · rw [mapping_some, mapped_pageEnt (by omega) (by omega) hmap, if_pos rfl]
    exact ⟨rfl, present_mkPte⟩
  · refine (hmap.mem g ?_).trans (update_self ..)
    have hu := (ho.trans ht0).le_one g
    simp only [one_self, dirUse] at hu ⊢
    omega

theorem mappages_pages {c w : Prop} {l : List Bool} (perm : Nat) (hx : x < 2 ^ 19)
    (hfl : s.freelist = g :: fl) (ho : Own s (dirUse s.mem d)) (hperm : perm < PGSIZE)
    (hc : c → Room userTables 1 s d ∧ mapping s.mem d x = none) (hw : w → mapping s.mem d x = none) :
    Tries c w (mappages d (x * PGSIZE) PGSIZE (g * PGSIZE) perm)
      { s with fail := l, freelist := fl, mem := update s.mem g p }
      (fun r s' => r = true ∧ Paged s s' d x g fl p perm) fun r s' => r = false ∧
        ∃ fs, s' = { s with fail := fs, freelist := fl, mem := update s.mem g p } := by
  obtain ⟨h1, h2⟩ := pdx_page (x := x) (by omega)
  obtain ⟨hsame, ht0⟩ := take_page (l := l) (p := p) hfl ho
  have ho1 := ho.trans ht0
  have hf : mapping s.mem d x = none → present ((entry (update s.mem g p) d (pdx (x * PGSIZE))
      (ptx (x * PGSIZE))).getD 0) = false := fun h => by
    rw [h1, h2]
    exact (congrArg present (hsame.pageEnt (by omega))).trans (mapping_none.1 h)
  rw [mappages_page hx]
  refine tries_mapLoop (ho1.mono fun f => Nat.le_add_right _ _) (fun h0 => ⟨?_, hf (hc h0).2⟩)
    (fun h0 => hf (hw h0)) (fun fs => ⟨rfl, fs, rfl⟩) fun s1 hmap => tries_pure ⟨rfl, ?_⟩
  · refine Room.tableable (I := userTables) (c := 0) ?_ (mem_range.2 (by rw [h1]; omega))
    have hroom := (hc h0).1
    unfold Room at hroom ⊢
    rw [hfl, List.length_cons] at hroom
    simp only [hsame.missing]
    omega
  · rw [Nat.mod_eq_of_lt (mkPte_lt (ho1.lt g (by simp)) hperm)] at hmap
    exact paged_mapped hfl ho hx hperm hmap

/-! ## `allocuvm` -/

def UserPdes (m : Nat → Store) (d : Nat) : Prop :=
  ∀ i < 512, present (ent m d i) = true → ∃ t, ent m d i = userPte t

def UserPage (m : Nat → Store) (d x : Nat) : Prop :=
  ∃ t f, ent m d (x / 1024) = userPte t ∧
    entry m d (x / 1024) (x % 1024) = some (userPte f)

theorem PdeStep.userPdes (h : PdeStep m m' d k) (hu : UserPdes m d) : UserPdes m' d := by
  intro i hi hp
  by_cases hik : i = k
  · subst hik
    cases ho : Vm.present (ent m d i) with
    | true => rw [h.old ho]; exact hu i hi ho
    | false => exact h.new ho
  · rw [h.other i hik] at hp ⊢
    exact hu i hi hp

theorem UserPdes.page (hu : UserPdes m d) (hx : x < 2 ^ 19)
    (he : entry m d (x / 1024) (x % 1024) = some (userPte f)) : UserPage m d x := by
  obtain ⟨t, ht⟩ := hu (x / 1024) (by omega) (entry_isSome he).1
  exact ⟨t, f, ht, he⟩

theorem Added.userPage (h : Added s s' d x k) (hj : j < 2 ^ 19) (hne : j < x ∨ k ≤ j)
    (hu : UserPage s.mem d j) : UserPage s'.mem d j := by
  obtain ⟨t, f, ht, he⟩ := hu
  have hp : present (ent s.mem d (j / 1024)) = true := by rw [ht, present_mkPte]
  have hpde := h.pde (j / 1024) (.inr hp)
  have hpage := h.page j (by omega) hne
  refine ⟨t, f, hpde.trans ht, ?_⟩
  have he' : entry s'.mem d (j / 1024) (j % 1024) = _ := entry_eq (by rw [hpde, hp])
  rw [pageEnt, pageEnt, he', he, Option.getD_some, Option.getD_some] at hpage
  rw [he', hpage]

theorem pageCount_mono (h : k ≤ KERNBASE) (hle : j ≤ k) : pageCount j ≤ pageCount k := by
  rw [pageCount, pageCount, pgroundup_of_le h, pgroundup_of_le (hle.trans h)]
  unfold PGSIZE
  omega

/-- **`deallocuvm` unmaps its range**, with or without page tables in it. -/
theorem deallocuvm_cuts (hold : oldsz ≤ KERNBASE) (hlt : newsz < oldsz)
    (ho : Own s (dirUse s.mem d)) : Ends (deallocuvm L d oldsz newsz) s
      (fun _ s' => Resized s s' d (pageCount newsz) (pageCount oldsz) ∧
        ∀ z, pageCount newsz ≤ z → z < pageCount oldsz → mapping s'.mem d z = none)
      fun _ => ¬ Within L s (dirUse s.mem d) := by
  have hcount := (pageCount_spec hold).2.1
  cases hm : deallocuvm L d oldsz newsz s with
  | ok r =>
    rcases deallocuvm_spec hold hm ho with ⟨hle, -, -⟩ | ⟨-, -, he⟩
    · omega
    · exact .of_ok hm ⟨he.resized ho.solo hcount, fun z h1 h2 => he.gone (by omega) h1 h2⟩
  | error e =>
    refine .of_error hm fun hw => ?_
    obtain ⟨s', hrun, -⟩ := deallocuvm_steady hold hlt ho hw
    cases hm.symm.trans (hrun s.fail)

theorem kfree_ends {w : Prop} {Q : Unit → Kernel → Prop} (hw : w → f ∈ pages L)
    (hq : ∀ s', kfree L f s = .ok ((), s') → Q () s') : Ends (kfree L f) s Q fun _ => ¬ w := by
  by_cases hf : f ∈ pages L
  · exact .of_ok (kfree_steady hf s.fail) (hq _ (kfree_steady hf s.fail))
  · exact .of_error (by rw [kfree_eq, if_neg hf]) fun h => hf (hw h)

/-- A page is taken, others are unmapped, and the page is given back. -/
theorem Resized.returned {s2 s3 : Kernel} (hfl : s.freelist = g :: fl) (ho : Own s (dirUse s.mem d))
    (hr : Resized { s with fail := fs, freelist := fl, mem := update s.mem g p } s2 d x y)
    (hf : kfree L g s2 = .ok (u, s3)) : Resized s s3 d x y ∧ SameDir s2.mem s3.mem d := by
  obtain ⟨hsame, ht0⟩ := take_page (l := fs) (p := p) hfl ho
  have h2 := ht0.trans (hr.trans.frame (one g))
  have hsame' := kfree_same hf (ho.trans h2)
  refine ⟨⟨⟨⟨h2.trans ((kfree_trans hf).congr (fun _ => rfl) fun f => hsame'.dirUse), fun hc =>
    hsame'.kernelClean (hr.clean (hsame.kernelClean hc))⟩, ?_, fun z hz hne => ?_, fun i hi => ?_⟩,
    fun z hz hne w hw => ?_⟩, hsame'⟩
  · rw [kfree_ok hf]
    exact hr.hist
  · exact (hsame'.pageEnt hz).trans ((hr.page z hz hne).trans (hsame.pageEnt hz))
  · refine hsame'.ent.trans ((hr.pde i ?_).trans hsame.ent)
    simp only [hsame.ent]
    exact hi
  · have hne' : pteAddr w ≠ g := by
      rintro rfl
      have h1 := (ho.mapped hz hw).1
      simp [pool, hfl] at h1
    rw [kfree_ok hf]
    exact (update_of_ne hne' _ _).trans ((hr.data z hz hne w ((hsame.mapping hz).trans hw)).trans
      (update_of_ne hne' _ _))

/-- The pages from `x` to `y` are mapped to different frames that were free, filled with zeros. -/
def Fresh (s s' : Kernel) (d x y : Nat) : Prop :=
  ∀ z, x ≤ z → z < y → ∃ f ∈ s.freelist,
    mapping s'.mem d z = some (userPte f) ∧ s'.mem f = fill 0

theorem allocLoop_grows (hnew : newsz < KERNBASE) (hold : oldsz < newsz) (hx : pageCount oldsz ≤ x)
    (hn : x + n = pageCount newsz) (ho : Own s (dirUse s.mem d)) :
    Tries (Room userTables n s d ∧ ∀ z, x ≤ z → z < pageCount newsz → mapping s.mem d z = none)
      (Within L s (dirUse s.mem d) ∧ ∀ z, x ≤ z → z < pageCount newsz → mapping s.mem d z = none)
      (allocLoop L d oldsz newsz n (x * PGSIZE)) s
      (fun r s' => r = newsz ∧ Resized s s' d x (pageCount newsz) ∧ Fresh s s' d x (pageCount newsz) ∧
        (∀ c, Room userTables (c + n) s d → Room userTables c s' d) ∧
        (UserPdes s.mem d → UserPdes s'.mem d))
      fun r s' => r = 0 ∧ Resized s s' d (pageCount oldsz) (pageCount newsz) ∧
        ∀ z, pageCount oldsz ≤ z → z < pageCount newsz → mapping s'.mem d z = none := by
  have hcount := (pageCount_spec (k := newsz) (by omega)).2.1
  induction n generalizing x s with
  | zero =>
    obtain rfl : x = pageCount newsz := by omega
    exact tries_pure ⟨rfl, .refl, fun z h1 h2 => by omega, fun _ => id, id⟩
  | succ n ih =>
    have hx' : x < 2 ^ 19 := by omega
    unfold allocLoop
    refine tries_kalloc (fun h => h.1.ne_nil) (fun fs => ?_) fun g fl fs hfl =>
      steady_setPage.tries ?_
    · exact ((deallocuvm_cuts (s := { s with fail := fs }) hnew.le hold ho.fail).weaken fun _ =>
        mt And.left).bind
        fun _ s1 h => .of_pure ⟨rfl, h.1.of_fail, h.2⟩
    refine (mappages_pages (PTE_W ||| PTE_U) hx' hfl ho (by decide)
      (fun h => ⟨h.1.mono (by omega), h.2 x (le_refl _) (by omega)⟩) fun h =>
      h.2 x (le_refl _) (by omega)).bind ?_ ?_
    · rintro _ s1 ⟨rfl, hp⟩
      have hrest : (∀ z, x ≤ z → z < pageCount newsz → mapping s.mem d z = none) →
          ∀ z, x + 1 ≤ z → z < pageCount newsz → mapping s1.mem d z = none := fun h z h1 h2 => by
        rw [hp.mapping (by omega) (.inr h1)]
        exact h z (by omega) h2
      rw [if_pos rfl, show x * PGSIZE + PGSIZE = (x + 1) * PGSIZE by unfold PGSIZE; omega]
      refine (ih (x := x + 1) (by omega) (by omega) (ho.trans hp.trans)).imp
        (fun h => ⟨hp.room hfl hx' h.1, hrest h.2⟩) (fun h => ⟨h.1.trans hp.trans, hrest h.2⟩)
        (fun r s' ⟨hr, hres, hf, hroom, hu⟩ => ⟨hr, (hp.toResized.mono (le_refl _) (by omega)).comp
          (hres.mono (by omega) (le_refl _)), fun z h1 h2 => ?_, fun c h => hroom c (hp.room hfl hx' h),
          fun h => hu (hp.step.userPdes h)⟩)
        fun r s' ⟨hr, hres, hg⟩ => ⟨hr, (hp.toResized.mono hx (by omega)).comp hres, hg⟩
      by_cases hzx : z = x
      · subst hzx
        have hd := hres.data z hx' (.inl (by omega)) _ hp.new
        rw [pteAddr_userPte, hp.copy] at hd
        exact ⟨g, by rw [hfl]; exact List.mem_cons_self,
          (hres.mapping hx' (.inl (by omega))).trans hp.new, hd⟩
      · obtain ⟨f, hf1, hf2⟩ := hf z (by omega) h2
        exact ⟨f, hfl ▸ List.mem_cons_of_mem _ (hp.free.subset hf1), hf2⟩
    · -- the page table of the page could not be allocated
      rintro _ _ ⟨rfl, fs', rfl⟩
      obtain ⟨hsame, ht0⟩ := take_page (l := fs') (p := fill 0) hfl ho
      have ho1 := (ho.trans ht0).mono fun f => Nat.le_add_right (dirUse (update s.mem g (fill 0)) d f) _
      refine ((deallocuvm_cuts hnew.le hold ho1).weaken fun _ => mt fun h =>
        (h.1.trans ht0).mono fun f => Nat.le_add_right _ _).bind fun _ s2 ⟨hr, hg⟩ =>
        (kfree_ends (fun h => h.1 g (by simp [pool, hfl])) fun s3 hf => ?_).bind fun _ _ => .of_pure
      obtain ⟨hres, hsame'⟩ := hr.returned hfl ho hf
      exact ⟨rfl, hres, fun z h1 h2 => (hsame'.mapping (by omega)).trans (hg z h1 h2)⟩

inductive Alloc (s s' : Kernel) (d oldsz newsz : Nat) : Nat → Prop
  | refused (hk : KERNBASE ≤ newsz) (hs : s' = s) : Alloc s s' d oldsz newsz 0
  | smaller (hk : newsz < KERNBASE) (hlt : newsz < oldsz) (hs : s' = s) : Alloc s s' d oldsz newsz oldsz
  | grown (hk : newsz < KERNBASE) (hle : oldsz ≤ newsz)
      (hr : Resized s s' d (pageCount oldsz) (pageCount newsz))
      (hf : Fresh s s' d (pageCount oldsz) (pageCount newsz)) : Alloc s s' d oldsz newsz newsz
  | failed (hk : newsz < KERNBASE) (hlt : oldsz < newsz)
      (hr : Resized s s' d (pageCount oldsz) (pageCount newsz))
      (hgone : ∀ z, pageCount oldsz ≤ z → z < pageCount newsz → mapping s'.mem d z = none) :
      Alloc s s' d oldsz newsz 0

/-- **`allocuvm`** has one of these outcomes. -/
theorem allocuvm_ends (newsz : Nat) (ho : Own s (dirUse s.mem d)) :
    Ends (allocuvm L d oldsz newsz) s (fun r s' => Alloc s s' d oldsz newsz r) fun _ =>
      ¬ (Within L s (dirUse s.mem d) ∧
        (oldsz < KERNBASE → ∀ z, pageCount oldsz ≤ z → z < 2 ^ 19 → mapping s.mem d z = none)) := by
  refine .ite (fun hk => .of_pure (.refused hk rfl)) fun hk => .ite (fun hlt => .of_pure
    (.smaller (by omega) hlt rfl)) fun hlt => ?_
  obtain ⟨h1, h2, h3⟩ := pageCount_spec (k := oldsz) (by omega)
  obtain ⟨h4, h5, h6⟩ := pageCount_spec (k := newsz) (by omega)
  have hmono : pageCount oldsz ≤ pageCount newsz := pageCount_mono (by omega) (by omega)
  have hcount : (newsz - pgroundup oldsz + PGSIZE - 1) / PGSIZE = pageCount newsz - pageCount oldsz := by
    have := h6 (pageCount newsz)
    have := h6 (pageCount newsz - 1)
    rw [h1]
    unfold PGSIZE at *
    omega
  rw [hcount, h1]
  rcases Nat.eq_or_lt_of_le (Nat.not_lt.1 hlt) with rfl | hold
  · rw [Nat.sub_self]
    exact .of_pure (.grown (by omega) (le_refl _) .refl fun z h1 h2 => by omega)
  refine (allocLoop_grows (n := pageCount newsz - pageCount oldsz) (by omega) hold (le_refl _) (by omega)
    ho).ends.mono (fun r s' h => ?_) fun _ => mt fun h =>
    ⟨h.1, fun z hz hz' => h.2 (by omega) z hz (by omega)⟩
  rcases h with ⟨rfl, hr, hf, -⟩ | ⟨rfl, hr, hgone⟩
  · exact .grown (by omega) (by omega) hr hf
  · exact .failed (by omega) hold hr hgone

theorem Alloc.toGrown {r : Nat} (h : Alloc s s' d oldsz newsz r) : Grown s s' d := by
  cases h with
  | refused hk hs | smaller hk hlt hs => exact hs ▸ .refl
  | grown hk hle hr hf => exact hr.toGrown
  | failed hk hlt hr hgone => exact hr.toGrown

theorem allocuvm_spec {r : Nat} (h : allocuvm L d oldsz newsz s = .ok (r, s'))
    (ho : Own s (dirUse s.mem d)) :
    Grown s s' d ∧ (r = 0 ∨ newsz < KERNBASE ∧ (r = oldsz ∨ r = newsz)) := by
  have ha := (allocuvm_ends newsz ho).ok h
  refine ⟨ha.toGrown, ?_⟩
  cases ha with
  | refused | failed => exact .inl rfl
  | smaller hk => exact .inr ⟨hk, .inl rfl⟩
  | grown hk => exact .inr ⟨hk, .inr rfl⟩

theorem entryUse_clearU (hw : w < UINT) : entryUse (some (clearU w)) f = entryUse (some w) f := by
  simp only [entryUse, present_clearU, pteAddr_clearU hw]

theorem clearpteu_spec (h : clearpteu d va s = .ok (u, s')) (ho : Own s (dirUse s.mem d))
    (hva : va < KERNBASE) : Grown s s' d := by
  unfold clearpteu at h
  rw [bind_ok] at h
  obtain ⟨o, s1, hwalk, h⟩ := h
  cases o with
  | none => cases h
  | some p =>
    obtain ⟨k, j⟩ := p
    obtain ⟨rfl, hp, rfl, rfl⟩ := walk_find_some hwalk
    simp only [bind_ok, load_run, Except.ok.injEq, Prod.mk.injEq] at h
    obtain ⟨w, s2, ⟨rfl, rfl⟩, h⟩ := h
    cases h
    have he := entry_eq (j := ptx va) hp
    have hlt := entry_lt he
    have hcl : clearU (ent s1.mem (pteAddr (ent s1.mem d (pdx va))) (ptx va)) % UINT =
        clearU (ent s1.mem (pteAddr (ent s1.mem d (pdx va))) (ptx va)) :=
      Nat.mod_eq_of_lt (Nat.lt_of_le_of_lt (clearU_le _) hlt)
    have hent : ∀ {i j : Nat}, i < NPDENTRIES → entry (setPte s1.mem d (pdx va) (ptx va)
        (clearU (ent s1.mem (pteAddr (ent s1.mem d (pdx va))) (ptx va)))) d i j = _ :=
      fun hi => setPte_entry ho.solo (pdx_lt va) hp hi
    rw [hcl] at hent
    refine ⟨?_, fun hc i hi hk j hj v hv => ?_⟩
    · refine (trans_setMem (X := dirUse s1.mem d) (g := pteAddr (ent s1.mem d (pdx va))) ?_).congr
        (fun _ => rfl) fun f => ?_
      · have := dirUse_table (pdx_lt va) hp
        omega
      · have hc := setPte_dirUse (f := f)
          (w := clearU (ent s1.mem (pteAddr (ent s1.mem d (pdx va))) (ptx va))) ho.solo (pdx_lt va) hp
          (pdx_user hva) (ptx_lt va)
        rw [hcl, entryUse_clearU hlt, he] at hc
        exact Nat.add_right_cancel hc
    · have hv' := hent hi ▸ hv
      rw [if_neg (by have := pdx_user hva; omega)] at hv'
      exact hc i hi hk j hj v hv'

/-! ## `copyuvm` -/

theorem note_leak : Trans s (fun f => X f + one g f) { s with hist := .leak g :: s.hist } X where
  count f := by
    simp only [pool, List.count_cons, one, beq_iff_eq, Slip.leak.injEq]
    omega
  mem _ _ := rfl
  proc := rfl
  initproc := rfl
  file := rfl
  pipe := rfl
  held := rfl
  kpgdir := rfl
  nextpid := rfl
  hist := List.suffix_cons _ _

/-- The pages from `x` to `y` of `d` have the permissions and the contents of those of `e`. -/
def Copies (s s' : Kernel) (d e x y : Nat) : Prop :=
  ∀ z, x ≤ z → z < y → ∀ w, mapping s.mem e z = some w → ∃ g,
    mapping s'.mem d z = some (mkPte (g * PGSIZE) (pteFlags w)) ∧ s'.mem g = s.mem (pteAddr w)

theorem Copies.of_sameSpace {s1 : Kernel} (h : Copies s1 s' d e x y) (hs : SameSpace s s1 e)
    (hy : y ≤ 2 ^ 19) : Copies s s' d e x y := fun z hz hlt w hw => by
  obtain ⟨hmap, hdata⟩ := hs z (by omega)
  obtain ⟨g, hg, hm⟩ := h z hz hlt w (hmap.trans hw)
  exact ⟨g, hg, hm.trans (hdata w hw)⟩

theorem pteFlags_lt : pteFlags w < PGSIZE := Nat.mod_lt _ (by decide)

theorem KernelDir.unmapped (h : KernelDir m d) (hx : x < 2 ^ 19) : mapping m d x = none := by
  rw [mapping_none, pageEnt, h.empty (x / 1024) (by omega)]
  rfl

/-- **The loop of `copyuvm`** copies the pages of `e`, or frees the new directory. -/
theorem copyLoop_copies (hn : x + n ≤ 2 ^ 19)
    (ho : Own s fun f => dirUse s.mem d f + dirUse s.mem e f) :
    Tries (Room userTables n s d ∧ ∀ z, x ≤ z → z < x + n → mapping s.mem e z ≠ none ∧
    mapping s.mem d z = none)
      (Within L s (dirUse s.mem d) ∧ ∀ z, x ≤ z → z < x + n → mapping s.mem e z ≠ none ∧
      mapping s.mem d z = none)
      (copyLoop L d e n (x * PGSIZE)) s
      (fun r s' => r = some d ∧ Resized s s' d x (x + n) ∧ Copies s s' d e x (x + n))
      fun r s' => r = none ∧ Trans s (dirUse s.mem d) s' fun _ => 0 := by
  induction n generalizing x s with
  | zero => exact tries_pure ⟨rfl, .refl, fun z h1 h2 => by omega⟩
  | succ n ih =>
    have hx : x < 2 ^ 19 := by omega
    have hod : Own s (dirUse s.mem d) := ho.mono fun f => Nat.le_add_right _ _
    -- without a page to copy it panics
    have hpanic : mapping s.mem e x = none →
        ¬ ∀ z, x ≤ z → z < x + (n + 1) → mapping s.mem e z ≠ none ∧ mapping s.mem d z = none :=
      fun hm h => (h x (le_refl _) (by omega)).1 hm
    unfold copyLoop
    refine (walk_page (by omega)).tries ?_
    cases hp : present (ent s.mem e (x / 1024)) with
    | false =>
      have := hpanic (mapping_none.2 (by rw [pageEnt, entry_none hp]; rfl))
      exact tries_throw (fun h => this h.2) fun h => this h.2
    | true =>
      refine steady_load.tries ?_
      have hpe : pageEnt s.mem e x = ent s.mem (pteAddr (ent s.mem e (x / 1024))) (x % 1024) := by
        rw [pageEnt, entry_eq hp, Option.getD_some]
      rw [← hpe]
      generalize hw : pageEnt s.mem e x = w
      cases hpw : present w with
      | false =>
        have := hpanic (mapping_none.2 (hw ▸ hpw))
        exact tries_throw (fun h => this h.2) fun h => this h.2
      | true =>
        have hmap := mapping_some.2 ⟨hw, hpw⟩
        refine tries_kalloc (fun h => h.1.ne_nil) (fun fs => ?_) fun g fl fs hfl =>
          tries_get (fun _ => rfl) (steady_setPage.tries ?_)
        · exact ((freevm_ends (s := { s with fail := fs }) hod.fail).weaken fun _ => mt And.left).bind
            fun _ _ h => .of_pure ⟨rfl, trans_fail.trans h.2⟩
        refine (mappages_pages (pteFlags w) hx hfl hod pteFlags_lt
          (fun h => ⟨h.1.mono (by omega), (h.2 x (le_refl _) (by omega)).2⟩)
          fun h => (h.2 x (le_refl _) (by omega)).2).bind ?_ ?_
        · rintro _ s1 ⟨rfl, hp⟩
          obtain ⟨ho1, hsame1⟩ := hp.trans.toMoved.apart ho
          have hrest : (∀ z, x ≤ z → z < x + (n + 1) → mapping s.mem e z ≠ none ∧
            mapping s.mem d z = none) →
              ∀ z, x + 1 ≤ z → z < x + 1 + n → mapping s1.mem e z ≠ none ∧ mapping s1.mem d z = none :=
            fun h z h1 h2 => by
              rw [hp.mapping (by omega) (.inr h1), (hsame1 z (by omega)).1]
              exact h z (by omega) (by omega)
          rw [if_pos rfl, show x * PGSIZE + PGSIZE = (x + 1) * PGSIZE by unfold PGSIZE; omega]
          refine (ih (x := x + 1) (by omega) ho1).imp (fun h => ⟨hp.room hfl hx h.1, hrest h.2⟩)
            (fun h => ⟨h.1.trans hp.trans, hrest h.2⟩) ?_
            fun r s' h => ⟨h.1, hp.trans.trans h.2⟩
          rintro r s' ⟨hr, hres, hc⟩
          refine ⟨hr, (hp.toResized.mono (le_refl _) (by omega)).comp (hres.mono (by omega) (by omega)),
            fun z hz hlt v hv => ?_⟩
          by_cases hzx : z = x
          · subst hzx
            cases hmap.symm.trans hv
            have hd := hres.data z hx (.inl (by omega)) _ hp.new
            rw [pteAddr_mkPte pteFlags_lt, hp.copy] at hd
            exact ⟨g, (hres.mapping hx (.inl (by omega))).trans hp.new, hd⟩
          · exact hc.of_sameSpace hsame1 (by omega) z (by omega) (by omega) v hv
        · -- the page of the copy is dropped, and the new directory is freed
          rintro _ _ ⟨rfl, fs', rfl⟩
          obtain ⟨hsame, ht0⟩ := take_page (l := fs') (p := s.mem (pteAddr w)) hfl hod
          have ht1 := ht0.trans note_leak
          exact .run rfl (((freevm_ends (hod.trans ht1)).weaken fun _ => mt fun h =>
            h.1.trans ht1).bind fun _ _ h => .of_pure ⟨rfl, ht1.trans h.2⟩)

theorem copyuvm_pages (hsz : sz < KERNBASE) : (sz + PGSIZE - 1) / PGSIZE = pageCount sz := by
  rw [pageCount, pgroundup_of_le hsz.le]
  simp [PGSIZE]

/-- **`copyuvm`** copies the pages of a directory, or gives back what it took. -/
theorem copyuvm_copies (ho : Own s fun f => 0 + dirUse s.mem e f) (hsz : sz < KERNBASE) :
    Tries (1025 + pageCount sz ≤ s.freelist.length ∧ ∀ x < pageCount sz, mapping s.mem e x ≠ none)
      (Within L s (fun _ => 0) ∧ ∀ x < pageCount sz, mapping s.mem e x ≠ none) (copyuvm L e sz) s
      (fun r s' => ∃ d, r = some d ∧ Trans s (fun _ => 0) s' (dirUse s'.mem d) ∧ KernelClean s'.mem d ∧
        Copies s s' d e 0 (pageCount sz) ∧ ∀ x, pageCount sz ≤ x → x < 2 ^ 19 → mapping s'.mem d x = none)
      fun r s' => r = none ∧ Trans s (fun _ => 0) s' fun _ => 0 := by
  obtain ⟨-, hcount, -⟩ := pageCount_spec hsz.le
  unfold copyuvm
  refine ((setupkvm_builds (ho.mono fun _ => Nat.zero_le _)).imp (fun h => by omega) And.left
    (fun _ _ => id)
    fun _ _ => id).bind ?_ ?_
  rotate_left
  · rintro _ _ ⟨rfl, -, ht⟩
    exact .of_pure ⟨rfl, ht⟩
  rintro _ s1 ⟨d, rfl, hb⟩
  obtain ⟨ho1, hsame⟩ := hb.trans.toMoved.apart ho
  have hrest : (∀ x < pageCount sz, mapping s.mem e x ≠ none) → ∀ z, 0 ≤ z → z < 0 + pageCount sz →
      mapping s1.mem e z ≠ none ∧ mapping s1.mem d z = none := fun h z _ hz => by
    rw [(hsame z (by omega)).1]
    exact ⟨h z (by omega), hb.toKernelDir.unmapped (by omega)⟩
  have hloop := copyLoop_copies (L := L) (x := 0) (n := pageCount sz) (by omega) ho1
  rw [Nat.zero_mul] at hloop
  simp only [copyuvm_pages hsz]
  refine hloop.imp (fun h => ⟨room_of_length (by have := hb.free; omega), hrest h.2⟩)
    (fun h => ⟨h.1.trans hb.trans, hrest h.2⟩) (fun r s' ⟨hr, hres, hc⟩ =>
    ⟨d, hr, hb.trans.trans hres.trans,
      hres.clean hb.clean, ?_, fun x hx hlt => ?_⟩) fun r s' ⟨hr, ht⟩ => ⟨hr, hb.trans.trans ht⟩
  · rw [Nat.zero_add] at hc
    exact hc.of_sameSpace hsame hcount
  · rw [hres.mapping hlt (.inr (by omega))]
    exact hb.toKernelDir.unmapped hlt

end Vm
