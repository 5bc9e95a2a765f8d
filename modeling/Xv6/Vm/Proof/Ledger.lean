import Xv6.Vm.Isolation

/-!
# The ledger of frames

A kernel function owns some frames while it runs: those of the pool (free or dropped), and `X f`
uses of each frame `f` that its caller hands over. `Trans s X s' Y` says that the function moved frames
between the pool and its uses only, and wrote to frames it owned only. It leaves every other directory
alone (`Trans.same`), so functions are verified one at a time.
-/

namespace Vm

open Bytes Finset Function

variable {L : Layout} {s s' s'' : Kernel} {X Y Z R : Nat → Nat} {m m' : Nat → Store}
  {d e f g i j w : Nat}

/-- The frames outside any use: free, or dropped by mistake. -/
def pool (s : Kernel) (f : Nat) : Nat := s.freelist.count f + s.hist.count (.leak f)

/-- No frame is owned twice, and every owned frame has an address below `2 ^ 32`. -/
structure Own (s : Kernel) (X : Nat → Nat) : Prop where
  le_one : ∀ f, pool s f + X f ≤ 1
  lt : ∀ f, 0 < pool s f + X f → f < 2 ^ 20

/-- Frames move between the pool and the uses `X`, and only owned frames are written. -/
structure Moved (s : Kernel) (X : Nat → Nat) (s' : Kernel) (Y : Nat → Nat) : Prop where
  count : ∀ f, pool s f + X f = pool s' f + Y f
  mem : ∀ f, pool s f + X f = 0 → s'.mem f = s.mem f
  held : s'.held = s.held
  kpgdir : s'.kpgdir = s.kpgdir
  hist : s.hist <:+ s'.hist

/-- Frames move, and the tables of processes, files and pipes stay as they are. -/
structure Trans (s : Kernel) (X : Nat → Nat) (s' : Kernel) (Y : Nat → Nat) : Prop
    extends Moved s X s' Y where
  proc : s'.proc = s.proc
  initproc : s'.initproc = s.initproc
  file : s'.file = s.file
  pipe : s'.pipe = s.pipe
  nextpid : s'.nextpid = s.nextpid

theorem Moved.refl : Moved s X s X := ⟨fun _ => rfl, fun _ _ => rfl, rfl, rfl, List.suffix_refl _⟩

theorem Moved.trans (h : Moved s X s' Y) (h' : Moved s' Y s'' Z) : Moved s X s'' Z where
  count f := (h.count f).trans (h'.count f)
  mem f hf := (h'.mem f ((h.count f).symm.trans hf)).trans (h.mem f hf)
  held := h'.held.trans h.held
  kpgdir := h'.kpgdir.trans h.kpgdir
  hist := h.hist.trans h'.hist

theorem Trans.refl : Trans s X s X := ⟨Moved.refl, rfl, rfl, rfl, rfl, rfl⟩

theorem Trans.trans (h : Trans s X s' Y) (h' : Trans s' Y s'' Z) : Trans s X s'' Z where
  toMoved := h.toMoved.trans h'.toMoved
  proc := h'.proc.trans h.proc
  initproc := h'.initproc.trans h.initproc
  file := h'.file.trans h.file
  pipe := h'.pipe.trans h.pipe
  nextpid := h'.nextpid.trans h.nextpid

theorem Moved.congr (h : Moved s X s' Y) {X' Y' : Nat → Nat} (hX : ∀ f, X' f = X f)
    (hY : ∀ f, Y' f = Y f) : Moved s X' s' Y' := by
  rw [funext hX, funext hY]
  exact h

theorem Trans.congr (h : Trans s X s' Y) {X' Y' : Nat → Nat} (hX : ∀ f, X' f = X f)
    (hY : ∀ f, Y' f = Y f) : Trans s X' s' Y' :=
  { h with toMoved := h.toMoved.congr hX hY }

/-- What a function does not own, it does not change. -/
theorem Moved.frame (h : Moved s X s' Y) (R : Nat → Nat) :
    Moved s (fun f => X f + R f) s' (fun f => Y f + R f) :=
  { h with
    count := fun f => by have := h.count f; omega
    mem := fun f hf => h.mem f (by omega) }

theorem Trans.frame (h : Trans s X s' Y) (R : Nat → Nat) :
    Trans s (fun f => X f + R f) s' (fun f => Y f + R f) :=
  { h with toMoved := h.toMoved.frame R }

theorem Own.moved (h : Own s X) (ht : Moved s X s' Y) : Own s' Y :=
  ⟨fun f => ht.count f ▸ h.le_one f, fun f hf => h.lt f (by rw [ht.count f]; exact hf)⟩

theorem Own.trans (h : Own s X) (ht : Trans s X s' Y) : Own s' Y := h.moved ht.toMoved

theorem Own.mono (h : Own s X) (hle : ∀ f, Y f ≤ X f) : Own s Y :=
  ⟨fun f => by have := h.le_one f; have := hle f; omega,
   fun f hf => h.lt f (by have := hle f; omega)⟩

/-! ## Counting -/

@[simp] theorem one_self : one g g = 1 := if_pos rfl

theorem one_ne (h : g ≠ f) : one g f = 0 := if_neg h

@[simp] theorem entryUse_zero : entryUse (some 0) f = 0 := by simp [entryUse]

@[simp] theorem entryUse_none : entryUse none f = 0 := rfl

theorem entryUse_absent {o : Option Nat} (h : present (o.getD 0) = false) : entryUse o f = 0 := by
  cases o with
  | none => rfl
  | some w => exact if_neg fun hp => by simp [show present w = false from h] at hp

theorem entryUse_present (h : present w = true) : entryUse (some w) f = one (pteAddr w) f := by
  simp [entryUse, one, h]

theorem tableUse_pos (hi : i < NPDENTRIES) (hp : present (ent m d i) = true) :
    0 < tableUse m d (pteAddr (ent m d i)) := by
  have h := Count.le_sum (g := fun i' => if present (ent m d i') = true ∧
    pteAddr (ent m d i') = pteAddr (ent m d i) then 1 else 0) (mem_dirIndices.2 hi)
  simp only [hp, and_self, if_true] at h
  exact h

theorem userUse_pos (hi : i < 512) (hj : j < 1024) (he : entry m d i j = some w)
    (hw : present w = true) : 0 < userUse m d (pteAddr w) := by
  have hx : (i, j) ∈ userPages := mem_userPages.2 ⟨hi, hj⟩
  have h := Count.le_sum (g := fun x : Nat × Nat => entryUse (entry m d x.1 x.2) (pteAddr w)) hx
  simp only [he, entryUse, hw, and_self, if_true] at h
  exact h

theorem dirUse_self : 0 < dirUse m d d := by
  unfold dirUse
  rw [one_self]
  omega

theorem dirUse_table (hi : i < NPDENTRIES) (hp : present (ent m d i) = true) :
    0 < dirUse m d (pteAddr (ent m d i)) := by
  have := tableUse_pos hi hp
  unfold dirUse
  omega

theorem dirUse_user (hi : i < 512) (hj : j < 1024) (he : entry m d i j = some w)
    (hw : present w = true) : 0 < dirUse m d (pteAddr w) := by
  have := userUse_pos hi hj he hw
  unfold dirUse
  omega

/-! ## A directory whose pages are kept -/

structure SameDir (m m' : Nat → Store) (d : Nat) : Prop where
  dir : m' d = m d
  table : ∀ i < NPDENTRIES, present (ent m d i) = true →
    m' (pteAddr (ent m d i)) = m (pteAddr (ent m d i))

theorem ent_congr (h : m' f = m f) : ent m' f i = ent m f i := by
  rw [ent, h, ent]

theorem SameDir.ent (h : SameDir m m' d) : Vm.ent m' d i = Vm.ent m d i := ent_congr h.dir

theorem SameDir.entry (h : SameDir m m' d) (hi : i < NPDENTRIES) :
    Vm.entry m' d i j = Vm.entry m d i j := by
  unfold Vm.entry
  rw [h.ent]
  split
  · rename_i hp
    rw [ent_congr (h.table i hi hp)]
  · rfl

theorem SameDir.tableUse (h : SameDir m m' d) : Vm.tableUse m' d f = Vm.tableUse m d f := by
  simp only [Vm.tableUse, h.ent]

theorem SameDir.userUse (h : SameDir m m' d) : Vm.userUse m' d f = Vm.userUse m d f := by
  unfold Vm.userUse
  refine sum_congr rfl fun x hx => ?_
  have := (mem_userPages.1 hx).1
  rw [h.entry (by unfold NPDENTRIES; omega)]

theorem SameDir.dirUse (h : SameDir m m' d) : Vm.dirUse m' d f = Vm.dirUse m d f := by
  rw [Vm.dirUse, h.tableUse, h.userUse, Vm.dirUse]

theorem Moved.same (h : Moved s X s' Y) (he : ∀ f, 0 < dirUse s.mem e f → pool s f + X f = 0) :
    SameDir s.mem s'.mem e :=
  ⟨h.mem e (he e dirUse_self), fun _ hi hp => h.mem _ (he _ (dirUse_table hi hp))⟩

theorem Trans.same (h : Trans s X s' Y) (he : ∀ f, 0 < dirUse s.mem e f → pool s f + X f = 0) :
    SameDir s.mem s'.mem e := h.toMoved.same he

/-! ## Primitive steps -/

@[simp] theorem load_run : load f i s = .ok (ent s.mem f i, s) := rfl

theorem trans_setMem {p : Store} (hg : 0 < pool s g + X g) :
    Trans s X { s with mem := update s.mem g p } X where
  count _ := rfl
  mem f hf := by
    have hne : f ≠ g := by
      rintro rfl
      omega
    exact update_of_ne hne _ _
  proc := rfl
  initproc := rfl
  file := rfl
  pipe := rfl
  held := rfl
  kpgdir := rfl
  nextpid := rfl
  hist := List.suffix_refl _

theorem kalloc_cases {r : Option Nat} (h : kalloc s = .ok (r, s')) :
    ∃ fs, (r = none ∧ s' = { s with fail := fs }) ∨
      ∃ f fl, r = some f ∧ s.freelist = f :: fl ∧ s' = { s with fail := fs, freelist := fl } := by
  unfold kalloc at h
  split at h
  · cases h
    exact ⟨_, .inl ⟨rfl, rfl⟩⟩
  · cases h
    exact ⟨_, .inl ⟨rfl, rfl⟩⟩
  · rename_i hfl _
    cases h
    exact ⟨_, .inr ⟨_, _, rfl, hfl, rfl⟩⟩

theorem trans_fail {fs : List Bool} : Trans s X { s with fail := fs } X :=
  ⟨⟨fun _ => rfl, fun _ _ => rfl, rfl, rfl, List.suffix_refl _⟩, rfl, rfl, rfl, rfl, rfl⟩

theorem kalloc_none (h : kalloc s = .ok (none, s')) : s'.mem = s.mem ∧ Trans s X s' X := by
  obtain ⟨fs, ⟨-, rfl⟩ | ⟨f, fl, hr, -⟩⟩ := kalloc_cases h
  · exact ⟨rfl, trans_fail⟩
  · cases hr

theorem trans_take {fl : List Nat} {fs : List Bool} (hfl : s.freelist = g :: fl) :
    Trans s X { s with fail := fs, freelist := fl } fun f => X f + one g f := by
  refine ⟨⟨fun f => ?_, fun _ _ => rfl, rfl, rfl, List.suffix_refl _⟩, rfl, rfl, rfl, rfl, rfl⟩
  simp only [pool, hfl, List.count_cons, one, beq_iff_eq]
  omega

theorem kalloc_some (h : kalloc s = .ok (some g, s')) :
    s'.mem = s.mem ∧ Trans s X s' (fun f => X f + one g f) := by
  obtain ⟨fs, ⟨hr, -⟩ | ⟨f, fl, hr, hfl, rfl⟩⟩ := kalloc_cases h
  · cases hr
  · cases hr
    exact ⟨rfl, trans_take hfl⟩

theorem mem_pages : f ∈ pages L ↔
    (L.kend + PGSIZE - 1) / PGSIZE - KERNBASE / PGSIZE ≤ f ∧ f < PHYSTOP / PGSIZE := by
  have h1 := L.kend_lt
  have h2 := L.data_gt
  have h3 := L.data_le
  simp only [pages, List.mem_range'_1, KERNBASE, KERNLINK, EXTMEM, PGSIZE, PHYSTOP] at *
  omega

theorem page_ne_zero (hf : f ∈ pages L) : f ≠ 0 := by
  have h1 := (mem_pages.1 hf).1
  have h2 := L.data_gt
  have h3 := L.data_le
  unfold KERNLINK EXTMEM KERNBASE PGSIZE at *
  omega

theorem kfree_eq : kfree L g s = if g ∈ pages L then
    .ok ((), { s with mem := update s.mem g (freed s.freelist), freelist := g :: s.freelist })
      else .error "kfree" := by
  have hc : g * PGSIZE + KERNBASE < L.kend ∨ PHYSTOP ≤ g * PGSIZE ↔ g ∉ pages L := by
    have h1 := L.kend_lt
    have h2 := L.data_gt
    have h3 := L.data_le
    rw [mem_pages]
    unfold KERNLINK EXTMEM KERNBASE PGSIZE PHYSTOP at *
    omega
  by_cases hg : g ∈ pages L
  · rw [kfree, if_neg (fun h => hc.1 h hg), if_pos hg]
    rfl
  · rw [kfree, if_pos (hc.2 hg), if_neg hg]
    rfl

theorem kfree_ok {u : Unit} (h : kfree L g s = .ok (u, s')) :
    s' = { s with mem := update s.mem g (freed s.freelist), freelist := g :: s.freelist } := by
  unfold kfree at h
  split at h
  · cases h
  · cases h
    rfl

theorem kfree_trans {u : Unit} (h : kfree L g s = .ok (u, s')) :
    Trans s (fun f => X f + one g f) s' X := by
  rw [kfree_ok h]
  refine { trans_setMem (X := fun f => X f + one g f) (by simp) with count := fun f => ?_ }
  simp only [pool, List.count_cons, one, beq_iff_eq]
  omega

end Vm
