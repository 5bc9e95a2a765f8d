import Mathlib.Order.Interval.Finset.Nat
import Xv6.Vm.Proof.Free
import Xv6.Vm.Proof.History

/-!
# Programs that call `kalloc`

`Runs m s a s'`: `m` returns `a` when `kalloc` refuses none of the calls that `m` makes, whatever it does
afterwards; `Steady m s a s'`: it does so without calling `kalloc`. `Tries c w m s G B` is about every
pattern of failures: `m` returns as `G` says or, after a refusal, as `B` says. `setupkvm_builds` is such a
specification of `setupkvm`.
-/

namespace Vm

open Bytes Panic Finset Function

variable {L : Layout} {s s' s'' : Kernel} {X Y : Nat → Nat} {m m' : Nat → Store}
  {d e f g i j k w n a b c pa va perm x oldsz newsz : Nat} {α β : Type} {I : Finset Nat}

/-! ## Runs -/

def Runs (m : KM α) (s : Kernel) (v : α) (s' : Kernel) : Prop :=
  ∃ k, ∀ fs, m { s with fail := List.replicate k false ++ fs } = .ok (v, { s' with fail := fs })

theorem Steady.runs {m : KM α} {v : α} (h : Steady m s v s') : Runs m s v s' := ⟨0, h⟩

theorem Runs.bind {m : KM α} {f : α → KM β} {v : α} {r : β} (h : Runs m s v s')
    (h' : Runs (f v) s' r s'') : Runs (m >>= f) s r s'' := by
  obtain ⟨k, h⟩ := h
  obtain ⟨k', h'⟩ := h'
  refine ⟨k + k', fun fs => ?_⟩
  rw [List.replicate_add, List.append_assoc, bind_run (h _)]
  exact h' fs

theorem runs_pure {v : α} : Runs (pure v) s v s := ⟨0, fun _ => rfl⟩

theorem runs_get {f : Kernel → KM β} {r : β} (hf : ∀ fs, f { s with fail := fs } = f s)
    (h : Runs (f s) s r s') : Runs (get >>= f) s r s' := by
  obtain ⟨k, h⟩ := h
  refine ⟨k, fun fs => ?_⟩
  rw [bind_run get_run, hf]
  exact h fs

theorem runs_kalloc {fl : List Nat} (h : s.freelist = g :: fl) :
    Runs kalloc s (some g) { s with freelist := fl } := by
  refine ⟨1, fun fs => ?_⟩
  simp [kalloc, h]

theorem steady_load : Steady (load f i) s (ent s.mem f i) s := fun _ => rfl

theorem steady_store : Steady (store f i w) s ()
    { s with mem := update s.mem f (put32 (s.mem f) (4 * i) w) } := fun _ => rfl

theorem steady_setPage {p : Store} :
    Steady (setPage f p) s () { s with mem := update s.mem f p } := fun _ => rfl

theorem steady_setBytes {o : Nat} {bs : List UInt8} : Steady (setBytes f o bs) s ()
    { s with
      mem := update s.mem f (copy (s.mem f) o (fun i => bs.getD i 0) 0 bs.length) } :=
  fun _ => rfl

theorem steady_setProc {p : Nat} {v : Proc} :
    Steady (setProc p v) s () { s with proc := update s.proc p v } := fun _ => rfl

theorem Runs.run {m : KM α} {v : α} (h : Runs m s v s') :
    ∃ fs, m { s with fail := fs } = .ok (v, { s' with fail := [] }) := by
  obtain ⟨k, h⟩ := h
  exact ⟨_, h []⟩

theorem Trans.fail {fs fs' : List Bool} (h : Trans { s with fail := fs } X { s' with fail := fs' } Y) :
    Trans s X s' Y :=
  ⟨⟨h.count, h.mem, h.held, h.kpgdir, h.hist⟩, h.proc, h.initproc, h.file, h.pipe, h.nextpid⟩

theorem Own.fail {fs : List Bool} (h : Own s X) : Own { s with fail := fs } X := ⟨h.le_one, h.lt⟩

/-! ## Every pattern of failures -/

/-- The program returns as `G` or `B` says, or panics, which it does not do under `w`; with `c` there are
pages enough to return as `G` says. -/
structure Tries (c w : Prop) (m : KM α) (s : Kernel) (G B : α → Kernel → Prop) : Prop where
  ends : Ends m s (fun r s' => G r s' ∨ B r s') fun _ => ¬ w
  runs : c → ∃ r s', Runs m s r s' ∧ G r s'

section

variable {c c' w w' : Prop} {m : KM α} {f : α → KM β} {G G' B B' : α → Kernel → Prop}
  {H D : β → Kernel → Prop}

theorem Tries.imp (h : Tries c' w' m s G' B') (hc : c → c') (hw : w → w')
    (hg : ∀ r s', G' r s' → G r s') (hb : ∀ r s', B' r s' → B r s') : Tries c w m s G B :=
  ⟨h.ends.mono (fun r s' => Or.imp (hg r s') (hb r s')) fun _ => mt hw,
    fun h0 => (h.runs (hc h0)).imp fun r => Exists.imp fun s' => And.imp_right (hg r s')⟩

theorem Tries.bind (h : Tries c w m s G B) (hg : ∀ r s1, G r s1 → Tries c w (f r) s1 H D)
    (hb : ∀ r s1, B r s1 → Ends (f r) s1 D fun _ => ¬ w) : Tries c w (m >>= f) s H D where
  ends := h.ends.bind fun r s1 hr =>
    hr.elim (fun h' => (hg r s1 h').ends) fun h' => (hb r s1 h').mono (fun _ _ => .inr) fun _ => id
  runs h0 := by
    obtain ⟨r, s1, hrun, h'⟩ := h.runs h0
    obtain ⟨r', s', hrun', hr'⟩ := (hg r s1 h').runs h0
    exact ⟨r', s', hrun.bind hrun', hr'⟩

theorem tries_pure {v : α} (h : G v s) : Tries c w (pure v) s G B :=
  ⟨.of_pure (.inl h), fun _ => ⟨v, s, runs_pure, h⟩⟩

theorem tries_throw {e : String} (hc : ¬ c) (hw : ¬ w) : Tries c w (throw e) s G B :=
  ⟨.of_throw hw, fun h => absurd h hc⟩

theorem Steady.tries {v : α} (h : Steady m s v s') (hf : Tries c w (f v) s' H D)
    (hs : s'.fail = s.fail := by rfl) : Tries c w (m >>= f) s H D :=
  ⟨.run (h s.fail) (hs ▸ hf.ends), fun h0 => (hf.runs h0).imp fun _ => Exists.imp fun _ hr =>
    ⟨h.runs.bind hr.1, hr.2⟩⟩

theorem tries_get {f : Kernel → KM β} (hf : ∀ fs, f { s with fail := fs } = f s)
    (h : Tries c w (f s) s H D) : Tries c w (get >>= f) s H D :=
  ⟨.run get_run h.ends, fun h0 => (h.runs h0).imp fun _ => Exists.imp fun _ hr =>
  ⟨runs_get hf hr.1, hr.2⟩⟩

theorem tries_kalloc {f : Option Nat → KM β} (hc : c → s.freelist ≠ [])
    (hn : ∀ fs, Ends (f none) { s with fail := fs } D fun _ => ¬ w)
    (hg : ∀ g fl fs, s.freelist = g :: fl →
      Tries c w (f (some g)) { s with fail := fs, freelist := fl } H D) :
    Tries c w (kalloc >>= f) s H D where
  ends := by
    obtain ⟨fs, hk | ⟨g, fl, hfl, hk⟩⟩ := kalloc_total s
    · exact .run hk ((hn fs).mono (fun _ _ => .inr) fun _ => id)
    · exact .run hk (hg g fl fs hfl).ends
  runs h0 := by
    obtain ⟨g, fl, hfl⟩ := List.exists_cons_of_ne_nil (hc h0)
    obtain ⟨r, s', hr, h'⟩ := (hg g fl s.fail hfl).runs h0
    exact ⟨r, s', (runs_kalloc hfl).bind hr, h'⟩

end

/-! ## Giving pages back -/

def Within (L : Layout) (s : Kernel) (X : Nat → Nat) : Prop := ∀ f, 0 < pool s f + X f → f ∈ pages L

theorem Within.trans (h : Within L s X) (ht : Trans s X s' Y) : Within L s' Y :=
  fun f hf => h f (by rw [ht.count f]; exact hf)

theorem Within.mono (h : Within L s X) (hle : ∀ f, Y f ≤ X f) : Within L s Y :=
  fun f hf => h f (by have := hle f; omega)

theorem kfree_steady (hf : f ∈ pages L) : Steady (kfree L f) s ()
    { s with mem := update s.mem f (freed s.freelist), freelist := f :: s.freelist } := fun fs => by
  rw [kfree_eq, if_pos hf]

theorem deallocuvm_steady (hle : oldsz ≤ KERNBASE) (hlt : newsz < oldsz)
    (ho : Own s (dirUse s.mem d)) (hw : Within L s (dirUse s.mem d)) :
    ∃ s', Steady (deallocuvm L d oldsz newsz) s newsz s' ∧
      Emptied s s' d (pageCount newsz) (pageCount oldsz) := by
  rcases deallocuvm_empties (L := L) ho.solo hle hlt with ⟨⟨f, hf, hno⟩, -⟩ | ⟨-, h⟩
  · have := mem_framesIn_use (pageCount_spec hle).2.1 hf
    exact absurd (hw f (by omega)) hno
  · exact h

theorem freeTables_steady (hm : s.mem d = m d) (hd : ∀ i < NPDENTRIES, present (ent m d i) = true →
      pteAddr (ent m d i) ≠ d ∧ pteAddr (ent m d i) ∈ pages L) (hn : n + i = NPDENTRIES) :
    ∃ s', Steady (freeTables L d n i) s () s' := by
  induction n generalizing i s with
  | zero => exact ⟨s, fun _ => rfl⟩
  | succ n ih =>
    have hi : i < NPDENTRIES := by omega
    have hent : ent s.mem d i = ent m d i := ent_congr hm
    cases hp : present (ent m d i) with
    | true =>
      obtain ⟨hne, hmem⟩ := hd i hi hp
      obtain ⟨s', hrun⟩ := ih (i := i + 1)
        (s := { s with mem := update s.mem (pteAddr (ent m d i)) (freed s.freelist)
                       freelist := pteAddr (ent m d i) :: s.freelist })
        ((update_of_ne hne.symm _ _).trans hm) (by omega)
      refine ⟨s', steady_load.bind ?_⟩
      simp only [hent, hp, if_true]
      exact (kfree_steady hmem).bind hrun
    | false =>
      obtain ⟨s', hrun⟩ := ih (i := i + 1) hm (by omega)
      refine ⟨s', steady_load.bind ?_⟩
      simp only [hent, hp, Bool.false_eq_true, if_false]
      exact hrun

theorem freevm_steady (ho : Own s (dirUse s.mem d)) (hw : Within L s (dirUse s.mem d)) :
    ∃ s', Steady (freevm L (some d)) s () s' ∧ s'.hist = s.hist := by
  obtain ⟨s1, hrun, he⟩ := deallocuvm_steady (Nat.le_refl KERNBASE) (show 0 < KERNBASE by decide)
    ho hw
  have ho1 := ho.trans he.trans
  have hw1 := hw.trans he.trans
  obtain ⟨s2, h2⟩ := freeTables_steady (L := L) (s := s1) (m := s1.mem) (d := d) (i := 0)
    (n := NPDENTRIES) rfl (fun i hi hp => ⟨ho1.solo.table_ne hi hp, hw1 _ (by
      have := dirUse_table hi hp
      omega)⟩) rfl
  have hd : d ∈ pages L := hw1 d (by
    have := dirUse_self (m := s1.mem) (d := d)
    omega)
  have hall : Steady (freevm L (some d)) s () _ := hrun.bind (h2.bind (kfree_steady hd))
  exact ⟨_, hall, (Respects.ok .freevm (hall s.fail) : SameHist _ _)⟩

theorem freevm_ends (ho : Own s (dirUse s.mem d)) : Ends (freevm L (some d)) s
    (fun _ s' => s'.hist = s.hist ∧ Trans s (dirUse s.mem d) s' fun _ => 0)
    fun _ => ¬ Within L s (dirUse s.mem d) := by
  cases hm : freevm L (some d) s with
  | ok r => exact .of_ok hm ⟨(Respects.ok .freevm hm : SameHist _ _), freevm_trans hm ho⟩
  | error e =>
    refine .of_error hm fun hw => ?_
    obtain ⟨s', hrun, -⟩ := freevm_steady ho hw
    cases hm.symm.trans (hrun s.fail)

/-! ## Page tables -/

def missing (I : Finset Nat) (m : Nat → Store) (d : Nat) : Finset Nat :=
  I.filter fun i => present (ent m d i) = false

def Room (I : Finset Nat) (c : Nat) (s : Kernel) (d : Nat) : Prop :=
  (missing I s.mem d).card + c ≤ s.freelist.length

theorem missing_step (h : PdeStep m m' d k) : missing I m' d = (missing I m d).erase k := by
  ext i
  have hp := h.present (i := i)
  simp only [missing, mem_filter, mem_erase]
  by_cases hi : i = k
  · simp only [hi, true_or, iff_true, ne_eq, not_true_eq_false, false_and, iff_false, not_and,
      Bool.not_eq_false] at hp ⊢
    exact fun _ => hp
  · rw [h.other i hi]
    simp [hi]

theorem Room.tableable (hroom : Room I c s d) (hI : i ∈ I) : Tableable s d i := by
  cases hp : present (ent s.mem d i) with
  | true => exact .inl hp
  | false =>
    refine .inr fun hnil => ?_
    have hmem : i ∈ missing I s.mem d := mem_filter.2 ⟨hI, hp⟩
    have := card_pos.2 ⟨i, hmem⟩
    unfold Room at hroom
    rw [hnil, List.length_nil] at hroom
    omega

theorem Room.ne_nil (h : Room I (c + 1) s d) : s.freelist ≠ [] := fun hnil => by
  simp [Room, hnil] at h

theorem Room.mono (h : Room I c s d) (hle : b ≤ c) : Room I b s d :=
  (Nat.add_le_add_left hle _).trans h

theorem Room.step (hroom : Room I c s d) (hI : i ∈ I) (hpde : PdeStep s.mem s'.mem d i)
    (hkept : present (ent s.mem d i) = true → s'.freelist = s.freelist)
    (htaken : present (ent s.mem d i) = false → ∃ t, s.freelist = t :: s'.freelist) :
    Room I c s' d := by
  unfold Room at *
  rw [missing_step hpde]
  cases hp : present (ent s.mem d i) with
  | true =>
    rw [hkept hp]
    exact (Nat.add_le_add_right card_erase_le c).trans hroom
  | false =>
    obtain ⟨t, ht⟩ := htaken hp
    have hmem : i ∈ missing I s.mem d := mem_filter.2 ⟨hI, hp⟩
    have := card_pos.2 ⟨i, hmem⟩
    rw [card_erase_of_mem hmem]
    rw [ht, List.length_cons] at hroom
    omega

theorem Tabled.room (h : Tabled s s' d i) (hI : i ∈ I) (hroom : Room I c s d) : Room I c s' d :=
  hroom.step hI h.pde h.kept h.taken

theorem tabled_fail {fs : List Bool} :
    tabled { s with fail := fs } d i = { tabled s d i with fail := fs } := by
  unfold tabled
  split <;> rfl

theorem walk_runs (ho : Own s (dirUse s.mem d)) (ht : Tableable s d (pdx va)) :
    Runs (walkpgdir d va true) s (some (pteAddr (ent (tabled s d (pdx va)).mem d (pdx va)), ptx va))
      (tabled s d (pdx va)) := by
  cases hp : present (ent s.mem d (pdx va)) with
  | true =>
    refine ⟨0, fun fs => (walk_present (s := { s with fail := fs }) hp).trans ?_⟩
    rw [tabled, if_pos hp]
  | false =>
    obtain ⟨g, fl, hfl⟩ := List.exists_cons_of_ne_nil (ht.resolve_left (by rw [hp]; decide))
    refine ⟨1, fun fs => ?_⟩
    have hk : kalloc { s with fail := false :: fs } =
        .ok (some g, { s with fail := fs, freelist := fl }) := by simp [kalloc, hfl]
    obtain ⟨hne, hlt, -⟩ := ho.free (g := g) (by rw [hfl]; exact List.mem_cons_self)
    refine (walk_takes (s := { s with fail := false :: fs }) hne hlt hp hfl hk).trans ?_
    rw [tabled_fail]

/-- One round of `mappages`, of a page that is not mapped. -/
theorem tries_mapLoop {c w : Prop} {G B : Bool → Kernel → Prop} (ho : Own s (dirUse s.mem d))
    (hc : c → Tableable s d (pdx a) ∧ present ((entry s.mem d (pdx a) (ptx a)).getD 0) = false)
    (hw : w → present ((entry s.mem d (pdx a) (ptx a)).getD 0) = false)
    (hb : ∀ fs, B false { s with fail := fs })
    (hg : ∀ s1, Mapped s s1 d a (mkPte pa perm % UINT) → Tries c w (mapRest d perm a pa n) s1 G B) :
    Tries c w (mapLoop d perm n a pa) s G B where
  ends := by
    rcases mapLoop_round (n := n) (a := a) pa perm ho with ⟨fs, hrun⟩ | ⟨hp, hrun⟩ | ⟨s1, hmap, hrun⟩
    · exact .of_ok hrun (.inr (hb fs))
    · refine .of_error hrun fun h0 => ?_
      rw [hw h0] at hp
      cases hp
    · exact .of_eq hrun (hg s1 hmap).ends
  runs h0 := by
    obtain ⟨ht, hfresh⟩ := hc h0
    obtain ⟨r, s', ⟨k', hr⟩, h'⟩ := (hg _ (mapped_placed ho ht hfresh)).runs h0
    obtain ⟨k, hwalk⟩ := walk_runs ho ht
    refine ⟨r, s', ⟨k + k', fun fs => ?_⟩, h'⟩
    rw [List.replicate_add, List.append_assoc, ho.unshared.mapLoop_walk _ _ _ ht (hwalk _),
      if_neg (by rw [hfresh]; decide)]
    exact hr fs

/-! ## Entries of the kernel -/

def KernelClean (m : Nat → Store) (d : Nat) : Prop :=
  ∀ i < NPDENTRIES, 512 ≤ i → ∀ j < 1024, ∀ w, entry m d i j = some w → user w = false

theorem SameDir.kernelClean (h : SameDir m m' d) (hc : KernelClean m d) : KernelClean m' d :=
  fun i hi hk j hj w he => hc i hi hk j hj w (by rwa [h.entry hi] at he)

theorem Cleared.kernelClean {x y : Nat} (h : Cleared m m' d x y) (hc : KernelClean m d) :
    KernelClean m' d := by
  intro i hi hk j hj w he
  have hpte := h.pte (i * 1024 + j) (by unfold NPDENTRIES at hi; omega)
  rw [show (i * 1024 + j) / 1024 = i by omega, show (i * 1024 + j) % 1024 = j by omega, he] at hpte
  split at hpte
  · cases hpte
    rfl
  · exact hc i hi hk j hj w hpte.symm

theorem kernelClean_mapped (h : Mapped s s' d a w) (hw : pdx a < 512 ∨ user w = false)
    (hc : KernelClean s.mem d) : KernelClean s'.mem d := by
  intro i hi hk j hj v he
  rw [h.entry i hi j] at he
  split at he
  · rename_i hii
    split at he
    · cases he
      rcases hw with hw | hw
      · omega
      · exact hw
    · cases he
      cases ho : entry s.mem d i j with
      | none => rfl
      | some v => exact hc i hi hk j hj v ho
  · exact hc i hi hk j hj v he

theorem user_kernelPte (hpa : pa % PGSIZE = 0) (hlt : pa < UINT)
    (hperm : perm = 0 ∨ perm = PTE_W) : user (mkPte pa perm % UINT) = false := by
  have hp : perm < PGSIZE := by rcases hperm with rfl | rfl <;> decide
  rw [show pa = pa / PGSIZE * PGSIZE by unfold PGSIZE at *; omega, Nat.mod_eq_of_lt
    (mkPte_lt (by unfold PGSIZE UINT at *; omega) hp)]
  exact user_mkPte hperm

/-- The directory has changed, with the pages that it uses. -/
structure Grown (s s' : Kernel) (d : Nat) : Prop where
  trans : Trans s (dirUse s.mem d) s' (dirUse s'.mem d)
  clean : KernelClean s.mem d → KernelClean s'.mem d

theorem Grown.refl : Grown s s d := ⟨Trans.refl, id⟩

theorem Grown.comp (h : Grown s s' d) (h' : Grown s' s'' d) : Grown s s'' d :=
  ⟨h.trans.trans h'.trans, fun hc => h'.clean (h.clean hc)⟩

def kernelTables : Finset Nat := Ico 512 1024

/-- The pages `P` of the kernel are mapped, with page tables for them. -/
structure Laid (s s' : Kernel) (d : Nat) (P : Nat → Prop) : Prop extends Grown s s' d where
  hist : s'.hist = s.hist
  page : ∀ z < 2 ^ 20, ¬ P z → pageEnt s'.mem d z = pageEnt s.mem d z
  pde : ∀ i, present (ent s'.mem d i) = true ↔ present (ent s.mem d i) = true ∨ ∃ z, P z ∧ z / 1024 = i
  room : ∀ c, Room kernelTables c s d → Room kernelTables c s' d

section
variable {P Q : Nat → Prop}

theorem Laid.congr (h : Laid s s' d P) (hP : ∀ z, P z ↔ Q z) : Laid s s' d Q :=
  (funext fun z => propext (hP z) : P = Q) ▸ h

theorem Laid.comp (h : Laid s s' d P) (h' : Laid s' s'' d Q) : Laid s s'' d fun z => P z ∨ Q z where
  toGrown := h.toGrown.comp h'.toGrown
  hist := h'.hist.trans h.hist
  page z hz hne := (h'.page z hz fun hq => hne (.inr hq)).trans (h.page z hz fun hp => hne (.inl hp))
  pde i := by
    rw [h'.pde, h.pde, or_assoc]
    simp only [or_and_right, exists_or]
  room c hc := h'.room c (h.room c hc)

end

theorem pdx_kernelPage (hx : KERNBASE / PGSIZE ≤ x) (hlt : x < 2 ^ 20) : 512 ≤ pdx (x * PGSIZE) := by
  rw [(pdx_page hlt).1]
  unfold KERNBASE PGSIZE at hx
  omega

theorem laid_mapped (hx : KERNBASE / PGSIZE ≤ x) (hlt : x < 2 ^ 20) (hw : user w = false)
    (hmap : Mapped s s' d (x * PGSIZE) w) : Laid s s' d (· = x) := by
  have hk := pdx_kernelPage hx hlt
  refine ⟨⟨hmap.kernel hk, kernelClean_mapped hmap (.inr hw)⟩, hmap.hist, fun z hz hne => ?_, fun i => ?_,
    fun c => hmap.room (mem_Ico.2 ⟨hk, pdx_lt _⟩)⟩
  · rw [mapped_pageEnt hlt hz hmap, if_neg hne]
  · rw [hmap.pde.present, (pdx_page hlt).1, or_comm, exists_eq_left, @eq_comm _ i]

def rowPte (x pa perm z : Nat) : Nat := mkPte ((pa + (z - x) * PGSIZE) % UINT) perm % UINT

theorem rowPte_succ (h : x < k) :
    rowPte (x + 1) ((pa + PGSIZE) % UINT) perm k = rowPte x pa perm k := by
  have hz : pa + (k - x) * PGSIZE = pa + PGSIZE + (k - (x + 1)) * PGSIZE := by
    unfold PGSIZE
    omega
  rw [rowPte, rowPte, hz, Nat.mod_add_mod]

theorem mapLoop_lays (hperm : perm = 0 ∨ perm = PTE_W) (hpa : pa % PGSIZE = 0) (hlt : pa < UINT)
    (hx : KERNBASE / PGSIZE ≤ x) (hn : x + n < 2 ^ 20) (ho : Own s (dirUse s.mem d))
    (hfresh : ∀ z, x ≤ z → z ≤ x + n → present (pageEnt s.mem d z) = false) :
    Tries (Room kernelTables c s d) True (mapLoop d perm n (x * PGSIZE) pa) s
      (fun r s' => r = true ∧ Laid s s' d (fun z => x ≤ z ∧ z ≤ x + n) ∧
        ∀ z, x ≤ z → z ≤ x + n → pageEnt s'.mem d z = rowPte x pa perm z)
      fun r s' => r = false ∧ s'.hist = s.hist ∧ Trans s (dirUse s.mem d) s' (dirUse s'.mem d) := by
  induction n generalizing x pa s
  all_goals
    have hxlt : x < 2 ^ 20 := by omega
    have hf := hfresh x (le_refl _) (by omega)
    rw [pageEnt, ← (pdx_page hxlt).1, ← (pdx_page hxlt).2] at hf
    refine tries_mapLoop ho (fun hr => ⟨hr.tableable (mem_Ico.2 ⟨pdx_kernelPage hx hxlt, pdx_lt _⟩), hf⟩)
      (fun _ => hf) (fun fs => ⟨rfl, rfl, trans_fail⟩) fun s1 hmap => ?_
    have hl := laid_mapped hx hxlt (user_kernelPte hpa hlt hperm) hmap
    have hrow : pageEnt s1.mem d x = rowPte x pa perm x := by
      rw [mapped_pageEnt hxlt hxlt hmap, if_pos rfl, rowPte, Nat.sub_self, Nat.zero_mul, Nat.add_zero,
        Nat.mod_eq_of_lt hlt]
  case zero =>
    refine tries_pure ⟨rfl, hl.congr fun z => by omega, fun z h1 h2 => ?_⟩
    obtain rfl : z = x := by omega
    exact hrow
  case succ n ih =>
    have hnext : (x * PGSIZE + PGSIZE) % UINT = (x + 1) * PGSIZE := by
      unfold PGSIZE UINT
      omega
    rw [mapRest, hnext]
    refine (ih (x := x + 1) (s := s1) (by unfold PGSIZE UINT at *; omega) (Nat.mod_lt _ (by decide))
      (by omega) (by omega) (ho.trans hl.trans) fun z hz hz' => ?_).imp (hl.room c) id
      ?_ fun r s' h => ⟨h.1, h.2.1.trans hl.hist, hl.trans.trans h.2.2⟩
    · rw [hl.page z (by omega) (by omega)]
      exact hfresh z (by omega) (by omega)
    · rintro r s' ⟨hr, hl', hrow'⟩
      refine ⟨hr, (hl.comp hl').congr fun z => by omega, fun z h1 h2 => ?_⟩
      by_cases hzx : z = x
      · rw [hl'.page z (by omega) (by omega), hzx, hrow]
      · rw [hrow' z (by omega) (by omega), rowPte_succ (by omega)]

/-! ## The mappings of `kmap` -/

/-- A mapping that the kernel can make: from `KERNBASE` on, of whole pages, for the kernel only. -/
structure Kmap.Ok (k : Kmap) : Prop where
  virt : KERNBASE ≤ k.virt
  size_pos : 0 < (k.physEnd + UINT - k.physStart) % UINT
  size_le : k.virt + (k.physEnd + UINT - k.physStart) % UINT ≤ UINT
  page : k.physStart % PGSIZE = 0
  lt : k.physStart < UINT
  perm : k.perm = 0 ∨ k.perm = PTE_W

theorem kmap_ok : ∀ k ∈ kmap L, k.Ok := by
  have h1 := L.data_gt
  have h2 := L.data_page
  have h3 := L.data_le
  have h4 := L.kend_lt
  have h5 := L.vram_pos
  have h6 := L.vram_le
  have h7 := L.pvram_lt
  unfold KERNLINK EXTMEM KERNBASE PCI_BAR_BASE PCI_VP_OFFSET DEVSPACE PGSIZE UINT at *
  simp only [kmap, List.forall_mem_cons, List.not_mem_nil, false_implies, implies_true, and_true]
  refine ⟨?_, ?_, ?_, ?_, ?_, ?_⟩
  · exact ⟨by decide, by decide, by decide, by decide, by decide, .inr rfl⟩
  · refine ⟨?_, ?_, ?_, ?_, ?_, .inl rfl⟩ <;>
      simp only [KERNLINK, KERNBASE, EXTMEM, UINT, PGSIZE] <;> omega
  · refine ⟨?_, ?_, ?_, ?_, ?_, .inr rfl⟩ <;>
      simp only [KERNBASE, PHYSTOP, UINT, PGSIZE] <;> omega
  · refine ⟨?_, ?_, ?_, L.pvram_page, ?_, .inr rfl⟩ <;>
      simp only [KERNBASE, DEVSPACE, UINT] <;> omega
  · exact ⟨by decide, by decide, by decide, by decide, by decide, .inr rfl⟩
  · exact ⟨by decide, by decide, by decide, by decide, by decide, .inr rfl⟩

def Kmap.first (k : Kmap) : Nat := k.virt / PGSIZE

def Kmap.last (k : Kmap) : Nat :=
  (k.virt + (k.physEnd + UINT - k.physStart) % UINT - 1) / PGSIZE

def Kmap.Covers (k : Kmap) (i : Nat) : Prop := ∃ z, k.first ≤ z ∧ z ≤ k.last ∧ z / 1024 = i

def Kmap.Laid (k : Kmap) (m : Nat → Store) (d : Nat) : Prop :=
  ∀ z, k.first ≤ z → z ≤ k.last → pageEnt m d z = rowPte k.first k.physStart k.perm z

theorem Kmap.Ok.bounds {k : Kmap} (h : k.Ok) :
    KERNBASE / PGSIZE ≤ k.first ∧ k.first ≤ k.last ∧ k.last < 2 ^ 20 := by
  obtain ⟨h1, h2, h3, -⟩ := h
  unfold Kmap.first Kmap.last
  generalize (k.physEnd + UINT - k.physStart) % UINT = size at *
  unfold KERNBASE PGSIZE UINT at *
  omega

theorem mappages_eq {k : Kmap} (h : k.Ok) :
    mappages d k.virt ((k.physEnd + UINT - k.physStart) % UINT) k.physStart k.perm =
      mapLoop d k.perm (k.last - k.first) (k.first * PGSIZE) k.physStart := by
  obtain ⟨h1, h2, h3, -⟩ := h
  have hn : (pgrounddown ((k.virt + (k.physEnd + UINT - k.physStart) % UINT + UINT - 1) % UINT) +
      UINT - pgrounddown k.virt) % UINT / PGSIZE = k.last - k.first := by
    unfold Kmap.first Kmap.last
    generalize (k.physEnd + UINT - k.physStart) % UINT = size at *
    unfold pgrounddown KERNBASE PGSIZE UINT at *
    omega
  rw [mappages, hn]
  rfl

theorem mapKernel_lays {ks : List Kmap} (hks : ∀ k ∈ ks, k.Ok)
    (hdis : ks.Pairwise fun k k' => k.last < k'.first ∨ k'.last < k.first)
    (ho : Own s (dirUse s.mem d))
    (hfresh : ∀ k ∈ ks, ∀ z, k.first ≤ z → z ≤ k.last → present (pageEnt s.mem d z) = false) :
    Tries (Room kernelTables c s d) (Within L s (dirUse s.mem d)) (mapKernel L d ks) s
      (fun r s' => r = some d ∧ Laid s s' d (fun z => ∃ k ∈ ks, k.first ≤ z ∧ z ≤ k.last) ∧
        ∀ k ∈ ks, k.Laid s'.mem d)
      fun r s' => r = none ∧ s'.hist = s.hist ∧ Trans s (dirUse s.mem d) s' fun _ => 0 := by
  induction ks generalizing s with
  | nil => exact tries_pure ⟨rfl, ⟨.refl, rfl, fun _ _ _ => rfl, fun i => by simp, fun _ => id⟩, nofun⟩
  | cons k ks ih =>
    have hk := hks k List.mem_cons_self
    obtain ⟨hb1, hb2, hb3⟩ := hk.bounds
    obtain ⟨hd, hdis⟩ := List.pairwise_cons.1 hdis
    have hlast : k.first + (k.last - k.first) = k.last := by omega
    rw [mapKernel, mappages_eq hk]
    refine ((mapLoop_lays (c := c) hk.perm hk.page hk.lt hb1 (by omega) ho fun z h1 h2 =>
      hfresh k List.mem_cons_self z h1 (by omega)).imp id (fun _ => trivial) (fun _ _ => id)
      fun _ _ => id).bind ?_ ?_
    · rintro _ s1 ⟨rfl, hl, hrow⟩
      rw [hlast] at hl hrow
      refine (ih (fun k' hk' => hks k' (List.mem_cons_of_mem _ hk')) hdis (ho.trans hl.trans)
        fun k' hk' z h1 h2 => ?_).imp (hl.room c) (fun hw => hw.trans hl.trans)
          (fun r s' ⟨hr, hl', hrows⟩ =>
          ⟨hr, (hl.comp hl').congr fun z => by simp, List.forall_mem_cons.2 ⟨fun z h1 h2 => ?_, hrows⟩⟩)
        fun r s' ⟨hr, hh, ht⟩ => ⟨hr, hh.trans hl.hist, hl.trans.trans ht⟩
      · have hb := (hks k' (List.mem_cons_of_mem _ hk')).bounds
        have := hd k' hk'
        rw [hl.page z (by omega) (by omega)]
        exact hfresh k' (List.mem_cons_of_mem _ hk') z h1 h2
      · -- the later rows are disjoint from this one
        rw [hl'.page z (by omega) fun ⟨k', hk', h⟩ => by have := hd k' hk'; omega, hrow z h1 h2]
    · rintro _ s1 ⟨rfl, hh, ht⟩
      exact ((freevm_ends (ho.trans ht)).weaken fun _ => mt fun hw => hw.trans ht).bind
        fun _ _ h => .of_pure ⟨rfl, h.1.trans hh, ht.trans h.2⟩

theorem kmap_disjoint : (kmap L).Pairwise fun k k' => k.last < k'.first ∨ k'.last < k.first := by
  have h1 := L.data_gt
  have h2 := L.data_page
  have h3 := L.data_le
  have h4 := L.kend_lt
  have h5 := L.vram_pos
  have h6 := L.vram_le
  have h7 := L.pvram_lt
  simp only [kmap, List.pairwise_cons, List.mem_cons, List.not_mem_nil, or_false, forall_eq_or_imp,
    forall_eq, IsEmpty.forall_iff, implies_true, List.Pairwise.nil, and_true, Kmap.first, Kmap.last]
  unfold KERNLINK EXTMEM PHYSTOP PCI_BAR_BASE PCI_VP_OFFSET DEVSPACE KERNBASE PGSIZE UINT at *
  omega

theorem covers_kernel {m : Kmap} (hm : m ∈ kmap L) (h : m.Covers i) : 512 ≤ i := by
  obtain ⟨z, h1, -, h3⟩ := h
  have := (kmap_ok m hm).bounds.1
  unfold KERNBASE PGSIZE at this
  omega

/-! ## `setupkvm` -/

theorem entry_blank (h : m d = fill 0) : entry m d i j = none :=
  entry_none (by rw [ent_fill_zero h]; rfl)

theorem dirUse_blank (h : m d = fill 0) : dirUse m d f = one d f := by
  have htab : tableUse m d f = 0 :=
    sum_eq_zero fun i _ => if_neg (by rw [ent_fill_zero h]; simp)
  have huse : userUse m d f = 0 := by
    unfold userUse
    exact sum_eq_zero fun x _ => by rw [entry_blank h, entryUse_none]
  rw [dirUse, htab, huse]
  omega

/-- A directory without user pages. -/
structure KernelDir (m : Nat → Store) (d : Nat) : Prop where
  clean : KernelClean m d
  empty : ∀ i < 512, ∀ j, entry m d i j = none

/-- A directory as `setupkvm` makes it, with the page tables of the kernel's mappings. -/
structure Built (L : Layout) (s s' : Kernel) (d : Nat) : Prop extends KernelDir s'.mem d where
  trans : Trans s (fun _ => 0) s' (dirUse s'.mem d)
  hist : s'.hist = s.hist
  pde : ∀ i, present (ent s'.mem d i) = true ↔ ∃ k ∈ kmap L, k.Covers i
  rows : ∀ k ∈ kmap L, k.Laid s'.mem d
  free : s.freelist.length ≤ s'.freelist.length + 513

theorem setupkvm_builds (ho : Own s fun _ => 0) :
    Tries (513 ≤ s.freelist.length) (Within L s fun _ => 0) (setupkvm L) s
      (fun r s' => ∃ d, r = some d ∧ Built L s s' d)
      fun r s' => r = none ∧ s'.hist = s.hist ∧ Trans s (fun _ => 0) s' fun _ => 0 := by
  unfold setupkvm
  refine tries_kalloc (fun hlen hnil => by simp [hnil] at hlen)
    (fun fs => .of_pure ⟨rfl, rfl, trans_fail⟩) fun d fl fs hfl => steady_setPage.tries ?_
  have hblank : update s.mem d (fill 0) d = fill 0 := update_self ..
  have hent : ∀ i, ent (update s.mem d (fill 0)) d i = 0 := fun i => ent_fill_zero hblank
  have h0 : Trans s (fun _ => 0) { s with fail := fs, freelist := fl, mem := update s.mem d (fill 0) }
      (dirUse (update s.mem d (fill 0)) d) :=
    (trans_take hfl).trans ((trans_setMem (X := fun f => 0 + one d f) (by simp)).congr (fun _ => rfl)
      fun f => by rw [dirUse_blank hblank, Nat.zero_add])
  have hroom : 513 ≤ s.freelist.length → Room kernelTables (s.freelist.length - 513)
      { s with fail := fs, freelist := fl, mem := update s.mem d (fill 0) } d := fun hlen => by
    have := card_filter_le kernelTables fun i => present (ent (update s.mem d (fill 0)) d i) = false
    have hcard : kernelTables.card = 512 := Nat.card_Ico 512 1024
    unfold Room missing
    rw [hfl, List.length_cons] at hlen ⊢
    simp only
    omega
  rw [if_neg (by decide)]
  refine (mapKernel_lays (c := s.freelist.length - 513) kmap_ok kmap_disjoint (ho.trans h0)
    fun k _ z _ _ => ?_).imp hroom (fun hw => hw.trans h0) ?_
    fun r s' h => ⟨h.1, h.2.1, h0.trans h.2.2⟩
  · rw [pageEnt, entry_blank hblank]
    rfl
  · rintro r s' ⟨hr, hl, hrows⟩
    have hpde : ∀ i, present (ent s'.mem d i) = true ↔ ∃ k ∈ kmap L, k.Covers i := fun i => by
      rw [hl.pde, hent]
      constructor
      · rintro (h | ⟨z, ⟨k, hk, h1, h2⟩, h3⟩)
        · cases h
        · exact ⟨k, hk, z, h1, h2, h3⟩
      · rintro ⟨k, hk, z, h1, h2, h3⟩
        exact .inr ⟨z, ⟨k, hk, h1, h2⟩, h3⟩
    refine ⟨d, hr, ⟨⟨hl.clean fun i _ _ j _ w he => ?_, fun i hi j => entry_none ?_⟩,
      h0.trans hl.trans, hl.hist, hpde, hrows, ?_⟩⟩
    · rw [entry_blank hblank] at he
      cases he
    · refine Bool.eq_false_iff.2 fun hp => ?_
      obtain ⟨k, hk, hcov⟩ := (hpde i).1 hp
      have := covers_kernel hk hcov
      omega
    · by_cases hlen : 513 ≤ s.freelist.length
      · have := hl.room _ (hroom hlen)
        unfold Room at this
        omega
      · omega

theorem setupkvm_runs (hlen : 513 ≤ s.freelist.length) (ho : Own s fun _ => 0) :
    ∃ d s', Runs (setupkvm L) s (some d) s' ∧ Built L s s' d := by
  obtain ⟨_, s', hrun, d, rfl, hb⟩ := (setupkvm_builds ho).runs hlen
  exact ⟨d, s', hrun, hb⟩

theorem setupkvm_spec {r : Option Nat} (h : setupkvm L s = .ok (r, s')) (ho : Own s fun _ => 0) :
    (r = none ∧ s'.hist = s.hist ∧ Trans s (fun _ => 0) s' fun _ => 0) ∨
      ∃ d, r = some d ∧ Built L s s' d :=
  ((setupkvm_builds ho).ends.ok h).symm

end Vm
