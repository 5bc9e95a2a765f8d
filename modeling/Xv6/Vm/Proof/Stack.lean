import Xv6.Vm.Exec
import Xv6.Vm.Proof.Copyout

/-!
# The user stack of a new program

A copy to the stack that reaches below the stack page meets the inaccessible page and fails
(`copyout_below`); one whose start wraps around below address 0 fails if the start has a page table
(`copyout_wrapped`). So when `pushFrame` succeeds it wrote to the stack page only, and the arguments
can be read back (`pushFrame_total`).
-/

namespace Vm

open Bytes Panic Param Finset

variable {L : Layout} {s s' : Kernel} {m m' : Nat → Store}
  {d f g i j k w n x z o va sz lo hi top cur sp : Nat} {bs a : List UInt8} {c : Nat → UInt8}

/-! ## The two pages -/

/-- The user pages of `d` are those below `top`, and all but the one before the last are for user
mode; their bytes are `c`. -/
structure Stacked (m : Nat → Store) (d top : Nat) (c : Nat → UInt8) : Prop where
  aligned : top % PGSIZE = 0
  two : 2 * PGSIZE ≤ top
  lt : top < KERNBASE
  page : ∀ x < top / PGSIZE, x ≠ top / PGSIZE - 2 →
    ∃ f, mapping m d x = some (userPte f)
  guard : ∃ w, mapping m d (top / PGSIZE - 2) = some w ∧ user w = false
  rest : ∀ x, top / PGSIZE ≤ x → x < 2 ^ 19 → mapping m d x = none
  byte : ∀ va < top, userByte m d va = some (c va)

theorem pageCount_aligned (h : top % PGSIZE = 0) (hlt : top < KERNBASE) :
    pageCount top = top / PGSIZE := by
  rw [pageCount, pgroundup_of_le hlt.le]
  unfold PGSIZE at *
  omega

theorem mapping_clearU (hs : Solo s.mem d) (hx : x < 2 ^ 19) (hw : mapping s.mem d x = some w)
    (hz : z < 2 ^ 19) : mapping (setPte s.mem d (x / 1024) (x % 1024) (clearU w)) d z =
      if z = x then some (clearU w) else mapping s.mem d z := by
  obtain ⟨hp, -⟩ := entry_isSome (entry_of_mapping hw)
  have hmod : clearU w % UINT = clearU w :=
    Nat.mod_eq_of_lt ((clearU_le w).trans_lt (entry_lt (entry_of_mapping hw)))
  have he : entry (setPte s.mem d (x / 1024) (x % 1024) (clearU w)) d (z / 1024) (z % 1024) = _ :=
    setPte_entry hs (by unfold NPDENTRIES; omega) hp (by unfold NPDENTRIES; omega)
  split
  · rename_i hzx
    subst hzx
    rw [if_pos ⟨rfl, rfl⟩, hmod] at he
    rw [mapping_some, pageEnt, he, present_clearU]
    exact ⟨rfl, (mapping_some.1 hw).2⟩
  · rw [if_neg (by omega)] at he
    exact mapping_congr (by rw [pageEnt, he, pageEnt])

theorem clearpteu_stacked (ho : Own s (dirUse s.mem d)) (h : Holds s.mem d top c)
    (haln : top % PGSIZE = 0) (htwo : 2 * PGSIZE ≤ top) (hlt : top < KERNBASE) :
    ∃ s', clearpteu d (top - 2 * PGSIZE) s = .ok ((), s') ∧ Extended s s' d ∧
      Stacked s'.mem d top c := by
  have hcount := pageCount_aligned haln hlt
  obtain ⟨x, hx⟩ : ∃ x, x = top / PGSIZE - 2 := ⟨_, rfl⟩
  have hva : top - 2 * PGSIZE = x * PGSIZE := by unfold PGSIZE at *; omega
  have hx2 : x + 2 = top / PGSIZE := by unfold PGSIZE at *; omega
  have hx19 : x < 2 ^ 19 := by unfold KERNBASE PGSIZE at *; omega
  obtain ⟨f, hf⟩ := h.page x (by rw [hcount]; unfold PGSIZE at *; omega)
  obtain ⟨h1, h2⟩ := pdx_page (x := x) (by omega)
  obtain ⟨hp, hent⟩ := entry_isSome (entry_of_mapping hf)
  have hwlt := entry_lt (entry_of_mapping hf)
  have hclr := clearpteu_steady (s := s) (d := d) (x * PGSIZE) (by rw [h1]; exact hp)
  rw [h1, h2, ← hent] at hclr
  have hrun := hclr s.fail
  generalize hw : userPte f = w at *
  have hset : ∀ i, ent (setPte s.mem d (x / 1024) (x % 1024) (clearU w)) d i = ent s.mem d i :=
    fun i => setPte_ent ho.solo (by unfold NPDENTRIES; omega) hp
  have hmap : ∀ z < 2 ^ 19, mapping (setPte s.mem d (x / 1024) (x % 1024) (clearU w)) d z =
      if z = x then some (clearU w) else mapping s.mem d z :=
    fun z hz => mapping_clearU ho.solo hx19 hf hz
  refine ⟨_, by rw [hva]; exact hrun, ⟨clearpteu_spec hrun ho (by omega), rfl, fun i _ => hset i⟩,
    haln, htwo, hlt, fun z hz hne => ?_, ?_, fun z hz hz' => ?_, fun va hva => ?_⟩
  · have hzlt : z < 2 ^ 19 := by unfold KERNBASE PGSIZE at *; omega
    simp only [hmap z hzlt]
    rw [if_neg (by omega)]
    exact h.page z (by omega)
  · simp only [← hx, hmap x hx19, if_true]
    exact ⟨_, rfl, user_clearU⟩
  · simp only [hmap z hz']
    rw [if_neg (by omega)]
    exact h.rest z (by omega) hz'
  · have hvk : va < KERNBASE := by omega
    have hzlt : va / PGSIZE < 2 ^ 19 := by unfold KERNBASE PGSIZE at *; omega
    have hframe : userFrame (setPte s.mem d (x / 1024) (x % 1024) (clearU w)) d va =
        userFrame s.mem d va := by
      rw [userFrame_mapping hvk, userFrame_mapping hvk, hmap _ hzlt]
      split
      · rename_i hzx
        rw [hzx, hf, Option.map_some, Option.map_some, pteAddr_clearU hwlt]
      · rfl
    rw [← h.byte va (by rw [hcount]; unfold PGSIZE at *; omega), userByte, userByte, hframe]
    cases hu : userFrame s.mem d va with
    | none => rfl
    | some g =>
      rw [userFrame_mapping hvk, Option.map_eq_some_iff] at hu
      obtain ⟨v, hv, rfl⟩ := hu
      have hne := (ho.solo.user_ne (by omega) (by omega) (entry_of_mapping hv) (mapping_some.1 hv).2).2
        (x / 1024) (by unfold NPDENTRIES; omega) hp
      exact congrArg some (congrFun (Function.update_of_ne hne.symm _ _) _)

theorem access_mapping (hva : va < KERNBASE) :
    access m d va = true ↔ ∃ w, mapping m d (va / PGSIZE) = some w ∧ user w = true := by
  have hdx : pdx va = va / PGSIZE / 1024 := by unfold pdx PGSIZE KERNBASE at *; omega
  have htx : ptx va = va / PGSIZE % 1024 := by unfold ptx PGSIZE KERNBASE at *; omega
  rw [access_iff, hdx, htx]
  refine ⟨fun ⟨w, he, hp, hu⟩ => ⟨w, ?_, hu⟩, fun ⟨w, hm, hu⟩ =>
    ⟨w, entry_of_mapping hm, (mapping_some.1 hm).2, hu⟩⟩
  rw [mapping_some, pageEnt, he]
  exact ⟨rfl, hp⟩

theorem Stacked.access (h : Stacked m d top c) (hc : KernelClean m d) (hva : va < UINT) :
    access m d va = true ↔ va < top ∧ va / PGSIZE ≠ top / PGSIZE - 2 := by
  have haln := h.aligned
  by_cases hk : va < KERNBASE
  · rw [access_mapping hk]
    have hz : va / PGSIZE < 2 ^ 19 := by unfold KERNBASE PGSIZE at *; omega
    by_cases hlt : va < top
    · have hlt' : va / PGSIZE < top / PGSIZE := by unfold PGSIZE at *; omega
      by_cases hg : va / PGSIZE = top / PGSIZE - 2
      · obtain ⟨w, hw, hu⟩ := h.guard
        refine iff_of_false (fun ⟨v, hv, huv⟩ => ?_) (fun h => h.2 hg)
        rw [hg, hw] at hv
        cases hv
        rw [hu] at huv
        cases huv
      · obtain ⟨f, hf⟩ := h.page _ hlt' hg
        exact iff_of_true ⟨_, hf, user_userPte⟩ ⟨hlt, hg⟩
    · refine iff_of_false (fun ⟨v, hv, _⟩ => ?_) (fun h => hlt h.1)
      rw [h.rest _ (by unfold PGSIZE at *; omega) hz] at hv
      cases hv
  · have := h.lt
    exact iff_of_false (fun ha => hk (hc.access_lt hva ha)) fun h => by omega

theorem Stacked.table (h : Stacked m d top c) (hva : va < top) :
    present (ent m d (pdx va)) = true := by
  have hlt := h.lt
  have haln := h.aligned
  have hdx : pdx va = va / PGSIZE / 1024 := by unfold pdx PGSIZE KERNBASE at *; omega
  obtain ⟨w, hw⟩ : ∃ w, mapping m d (va / PGSIZE) = some w := by
    by_cases hg : va / PGSIZE = top / PGSIZE - 2
    · obtain ⟨w, hw, -⟩ := h.guard
      exact ⟨w, hg ▸ hw⟩
    · obtain ⟨f, hf⟩ := h.page (va / PGSIZE) (by unfold PGSIZE at *; omega) hg
      exact ⟨_, hf⟩
  rw [hdx]
  exact (entry_isSome (entry_of_mapping hw)).1

theorem Stacked.same {c' : Nat → UInt8} (h : Stacked m d top c) (hsame : SameDir m m' d)
    (hb : ∀ va < top, userByte m' d va = some (c' va)) : Stacked m' d top c' := by
  have hlt := h.lt
  refine ⟨h.aligned, h.two, hlt, fun x hx hne => ?_, ?_, fun x hx hx' => ?_, hb⟩
  · rw [hsame.mapping (by unfold KERNBASE PGSIZE at *; omega)]
    exact h.page x hx hne
  · rw [hsame.mapping (by unfold KERNBASE PGSIZE at *; omega)]
    exact h.guard
  · rw [hsame.mapping hx']
    exact h.rest x hx hx'

theorem Stacked.wrote (h : Stacked s.mem d top c) (hs : Solo s.mem d) (hw : Wrote s s' d lo hi)
    (hhi : hi ≤ top) : ∃ c', Stacked s'.mem d top c' ∧ ∀ va < top, va < lo ∨ hi ≤ va → c' va = c va := by
  have hlt := h.lt
  refine ⟨fun va => (userByte s'.mem d va).getD 0, h.same hw.same fun va hva => ?_,
    fun va hva hout => ?_⟩
  · have hb := h.byte va hva
    unfold userByte at hb ⊢
    rw [hw.same.userFrame]
    cases hu : userFrame s.mem d va with
    | none =>
      rw [hu] at hb
      cases hb
    | some f => rfl
  · simp only [hw.byte hs (by omega) (by omega) hout, h.byte va hva, Option.getD_some]

/-! ## Copying to the stack -/

theorem Solo.same_pages (hs : Solo m d) (hc : KernelClean m d)
    (h : ∀ f o, m' f o ≠ m f o → ∃ va < UINT, access m d va = true ∧ userFrame m d va = some f) :
    SameDir m m' d := by
  have hne : ∀ g, (∀ va < UINT, access m d va = true → userFrame m d va ≠ some g) → m' g = m g := by
    intro g hg
    funext o
    by_contra hne
    obtain ⟨va, h1, h2, h3⟩ := h g o hne
    exact hg va h1 h2 h3
  have huser : ∀ va < UINT, access m d va = true → ∀ g, userFrame m d va = some g →
      g ≠ d ∧ ∀ k < NPDENTRIES, present (ent m d k) = true → pteAddr (ent m d k) ≠ g := by
    intro va hva ha g hg
    have hk := hc.access_lt hva ha
    rw [userFrame_mapping hk, Option.map_eq_some_iff] at hg
    obtain ⟨w, hw, rfl⟩ := hg
    exact hs.user_ne (by unfold KERNBASE PGSIZE at *; omega) (by omega) (entry_of_mapping hw)
      (mapping_some.1 hw).2
  exact ⟨hne d fun va h1 h2 h3 => (huser va h1 h2 d h3).1 rfl,
    fun i hi hp => hne _ fun va h1 h2 h3 => (huser va h1 h2 _ h3).2 i hi hp rfl⟩

theorem Checked.wrote (h : Checked L cur d va bs s) (lo hi : Nat) (hs : Solo s.mem d)
    (hc : KernelClean s.mem d) (hin : ∀ i < bs.length, access s.mem d ((va + i) % UINT) = true →
      lo ≤ (va + i) % UINT ∧ (va + i) % UINT < hi) :
    ∃ r s', copyout L cur d va bs s = .ok (r, s') ∧ Wrote s s' d lo hi ∧
      (r = true ↔ ∀ i < bs.length, access s.mem d ((va + i) % UINT) = true) ∧
      (r = true → ∀ i < bs.length, userByte s'.mem d ((va + i) % UINT) = some (bs.getD i 0)) := by
  obtain ⟨r, m', hrun, hr, hdata, hmem⟩ := h
  have hsame : SameDir s.mem m' d := hs.same_pages hc fun f o hne => by
    obtain ⟨i, -, h2, h3, -⟩ := hmem f o hne
    exact ⟨_, Nat.mod_lt _ (by decide), h2, h3⟩
  have hoff : ∀ i, (va + i) % UINT % PGSIZE = (va + i) % PGSIZE := fun i =>
    Nat.mod_mod_of_dvd _ (by decide)
  refine ⟨r, _, hrun, ⟨rfl, hsame, fun f o hne => ?_⟩, hr, fun hrt i hi => ?_⟩
  · obtain ⟨i, h1, h2, h3, h4⟩ := hmem f o hne
    exact ⟨_, (hin i h1 h2).1, (hin i h1 h2).2, h3, (hoff i).trans h4⟩
  · obtain ⟨f, hf⟩ := access_frame (hr.1 hrt i hi)
    rw [userByte, hsame.userFrame, hf, Option.map_some, hoff]
    exact congrArg some (hdata hrt i hi f hf)

section
variable (h : Stacked s.mem d top c) (hs : Solo s.mem d) (hc : KernelClean s.mem d)
include h hs hc

theorem copyout_below (L : Layout) (cur va : Nat) (bs : List UInt8) (hpos : 0 < bs.length)
    (hend : va + bs.length ≤ top) (hlow : top - 2 * PGSIZE < va + bs.length) :
    ∃ r s', copyout L cur d va bs s = .ok (r, s') ∧ Wrote s s' d va (va + bs.length) ∧
      (r = true ↔ top - PGSIZE ≤ va) ∧
      (r = true → ∀ i < bs.length, userByte s'.mem d (va + i) = some (bs.getD i 0)) := by
  have hlt := h.lt
  have haln := h.aligned
  have htwo := h.two
  have hmod : ∀ i < bs.length, (va + i) % UINT = va + i := fun i hi => by
    unfold UINT KERNBASE at *
    omega
  have hck : Checked L cur d va bs s := copyout_of_tables (by unfold UINT KERNBASE at *; omega)
    (by unfold UINT KERNBASE at *; omega) hs hc fun i hi _ => by
      rw [hmod i hi]
      exact h.table (by omega)
  obtain ⟨r, s', hrun, hwr, hr, hdata⟩ := hck.wrote va (va + bs.length) hs hc
    fun i hi _ => by
      rw [hmod i hi]
      omega
  refine ⟨r, s', hrun, hwr, ?_, fun hrt i hi => by rw [← hmod i hi]; exact hdata hrt i hi⟩
  rw [hr]
  refine ⟨fun hall => ?_, fun hle i hi => ?_⟩
  · by_contra hnot
    -- the range has a byte of the inaccessible page
    have hg := hall (max va (top - 2 * PGSIZE) - va) (by omega)
    rw [hmod _ (by omega), h.access hc (by unfold UINT KERNBASE at *; omega)] at hg
    refine hg.2 ?_
    unfold PGSIZE at *
    omega
  · rw [hmod i hi, h.access hc (by unfold UINT KERNBASE at *; omega)]
    unfold PGSIZE at *
    omega

theorem copyout_wrapped (L : Layout) (cur : Nat) (bs : List UInt8) (hva : KERNBASE ≤ va)
    (hlt : va < UINT) (hlen : bs.length ≤ UINT) (hpos : 0 < bs.length)
    (hp : present (ent s.mem d (pdx va)) = true) :
    ∃ s', copyout L cur d va bs s = .ok (false, s') ∧ Wrote s s' d 0 top := by
  have hno : access s.mem d ((va + 0) % UINT) ≠ true := by
    rw [Nat.add_zero, Nat.mod_eq_of_lt hlt]
    intro ha
    have := hc.access_lt hlt ha
    omega
  have hck : Checked L cur d va bs s := copyout_of_tables hlt hlen hs hc fun i hi hacc => by
    rcases Nat.eq_zero_or_pos i with rfl | hi'
    · rwa [Nat.add_zero, Nat.mod_eq_of_lt hlt]
    · exact absurd (hacc 0 hi') hno
  obtain ⟨r, s', hrun, hwr, hr, -⟩ := hck.wrote 0 top hs hc fun i _ ha =>
    ⟨Nat.zero_le _, ((h.access hc (Nat.mod_lt _ (by decide))).1 ha).1⟩
  cases r with
  | false => exact ⟨s', hrun, hwr⟩
  | true => exact absurd (hr.1 rfl 0 hpos) hno

end

/-! ## The argument strings -/

def pushAddr (sp : Nat) (a : List UInt8) : Nat := (sp + UINT - (a.length + 1) % UINT) % UINT / 4 * 4

/-- The address `va` has a page table in the directory of a program that ends at `top`. -/
def HasTable (L : Layout) (top va : Nat) : Prop := va < top ∨ ∃ k ∈ kmap L, k.Covers (pdx va)

def Tame (L : Layout) (top : Nat) : Nat → List (List UInt8) → Prop
  | _, [] => True
  | sp, a :: argv => HasTable L top (pushAddr sp a) ∧
    (top - PGSIZE ≤ pushAddr sp a → pushAddr sp a < top → Tame L top (pushAddr sp a) argv)

/-- The new directory is ready for the arguments. -/
structure Ready (L : Layout) (s : Kernel) (d top : Nat) (c : Nat → UInt8) : Prop
    extends Stacked s.mem d top c where
  solo : Solo s.mem d
  clean : KernelClean s.mem d
  tables : ∀ i, (∃ k ∈ kmap L, k.Covers i) → present (ent s.mem d i) = true

theorem Ready.wrote (h : Ready L s d top c) (hw : Wrote s s' d lo hi) (hhi : hi ≤ top) :
    ∃ c', Ready L s' d top c' ∧ ∀ va < top, va < lo ∨ hi ≤ va → c' va = c va := by
  obtain ⟨c', hc', hkeep⟩ := h.toStacked.wrote h.solo hw hhi
  exact ⟨c', ⟨hc', hw.same.solo h.solo, hw.same.kernelClean h.clean, fun i hi => by
    rw [hw.same.ent]
    exact h.tables i hi⟩, hkeep⟩

/-- The string `a` is at the address `q`. -/
structure Placed (m : Nat → Store) (d lo hi : Nat) (a : List UInt8) (q : Nat) : Prop where
  low : lo ≤ q
  high : q + a.length + 1 ≤ hi
  byte : ∀ j ≤ a.length, userByte m d (q + j) = some ((a ++ [0]).getD j 0)

theorem Placed.wrote {q : Nat} (h : Placed s.mem d lo hi a q) (hs : Solo s.mem d)
    (hw : Wrote s s' d i j) (hj : j ≤ lo) (hhi : hi ≤ KERNBASE) (hi' : k ≤ lo) :
    Placed s'.mem d k hi a q := by
  obtain ⟨h1, h2, h3⟩ := h
  refine ⟨by omega, h2, fun o ho => ?_⟩
  rw [hw.byte hs (by omega) (by omega) (.inr (by omega))]
  exact h3 o ho

theorem push_total (cur : Nat) (h : Ready L s d top c) (hsp : sp ≤ top) (hlow : top - PGSIZE ≤ sp)
    (ha : a.length < KERNBASE) (ht : HasTable L top (pushAddr sp a)) :
    ∃ r s', copyout L cur d (pushAddr sp a) (a ++ [0]) s = .ok (r, s') ∧ Wrote s s' d 0 top ∧
      (r = true → top - PGSIZE ≤ pushAddr sp a ∧ Wrote s s' d (pushAddr sp a) sp ∧
        Placed s'.mem d (pushAddr sp a) sp a (pushAddr sp a)) := by
  have hlt := h.lt
  have htwo := h.two
  have hlen : (a ++ [0]).length = a.length + 1 := by simp
  have hmod : (a.length + 1) % UINT = a.length + 1 := by unfold UINT KERNBASE at *; omega
  by_cases hwrap : a.length + 1 ≤ sp
  · obtain ⟨hva, hva'⟩ : pushAddr sp a + a.length + 1 ≤ sp ∧ sp < pushAddr sp a + a.length + 5 := by
      unfold pushAddr
      rw [hmod]
      unfold UINT KERNBASE at *
      omega
    obtain ⟨r, s', hrun, hwr, hr, hdata⟩ := copyout_below h.toStacked h.solo h.clean L cur
      (pushAddr sp a) (a ++ [0]) (by omega) (by omega) (by unfold PGSIZE at *; omega)
    rw [hlen] at hwr hdata
    refine ⟨r, s', hrun, hwr.mono (Nat.zero_le _) (by omega), fun hrt => ⟨hr.1 hrt,
      hwr.mono (le_refl _) (by omega), le_refl _, hva, fun j hj => hdata hrt j (by omega)⟩⟩
  · have hva : KERNBASE ≤ pushAddr sp a ∧ pushAddr sp a < UINT := by
      unfold pushAddr
      rw [hmod]
      unfold UINT KERNBASE at *
      omega
    obtain ⟨s', hrun, hwr⟩ := copyout_wrapped h.toStacked h.solo h.clean L cur (a ++ [0])
      hva.1 hva.2 (by unfold UINT KERNBASE at *; omega) (by omega)
      (h.tables _ (ht.resolve_left (by omega)))
    exact ⟨false, s', hrun, hwr, nofun⟩

theorem pushArgs_total {argv : List (List UInt8)} (cur argc : Nat) (ustack : List Nat)
    (h : Ready L s d top c) (hsp : sp ≤ top) (hlow : top - PGSIZE ≤ sp)
    (ha : ∀ a ∈ argv, a.length < KERNBASE) (ht : Tame L top sp argv) :
    ∃ r s', pushArgs L cur d argv argc sp ustack s = .ok (r, s') ∧ Wrote s s' d 0 top ∧
      ∀ sp' args, r = some (sp', args) → (argc ≤ MAXARG → argc + argv.length ≤ MAXARG) ∧
        top - PGSIZE ≤ sp' ∧ sp' ≤ sp ∧ (sp % 4 = 0 → sp' % 4 = 0) ∧ Wrote s s' d sp' sp ∧
        ∃ qs, args = ustack ++ qs ∧ List.Forall₂ (Placed s'.mem d sp' sp) argv qs := by
  induction argv generalizing s sp argc ustack c with
  | nil =>
    refine ⟨_, s, rfl, .refl, fun sp' args hr => ?_⟩
    cases hr
    exact ⟨by simp, hlow, le_refl _, id, .refl, [], by simp, .nil⟩
  | cons a argv ih =>
    rw [pushArgs]
    by_cases hmax : MAXARG ≤ argc
    · rw [if_pos hmax]
      exact ⟨none, s, rfl, .refl, nofun⟩
    rw [if_neg hmax]
    obtain ⟨htab, hrest⟩ := ht
    obtain ⟨r1, s1, hrun, hwr, hok⟩ := push_total cur h hsp hlow
      (ha a List.mem_cons_self) htab
    have hstep : (copyout L cur d (pushAddr sp a) (a ++ [0]) >>= fun b =>
        if b = true then pushArgs L cur d argv (argc + 1) (pushAddr sp a) (ustack ++ [pushAddr sp a])
        else pure none) s = (if r1 = true then
          pushArgs L cur d argv (argc + 1) (pushAddr sp a) (ustack ++ [pushAddr sp a])
        else pure none) s1 := bind_run hrun
    unfold pushAddr at hstep
    rw [hstep]
    cases r1 with
    | false => exact ⟨none, s1, rfl, hwr, nofun⟩
    | true =>
      obtain ⟨hpage, hwr1, hplaced⟩ := hok rfl
      obtain ⟨c1, hr1, -⟩ := h.wrote hwr (le_refl _)
      have hnext : pushAddr sp a + a.length + 1 ≤ sp := hplaced.high
      obtain ⟨r, s', hrun', hwr', hall⟩ := ih (argc + 1) (ustack ++ [pushAddr sp a])
        hr1 (by omega) hpage (fun b hb => ha b (List.mem_cons_of_mem _ hb))
        (hrest hpage (by omega))
      refine ⟨r, s', hrun', hwr.comp hwr', fun sp' args hr => ?_⟩
      obtain ⟨h1, h2, h3, h4, h5, qs, h6, h7⟩ := hall sp' args hr
      have hlt := h.lt
      refine ⟨fun _ => ?_, h2, by omega, fun _ => h4 ?_, (hwr1.mono h3 (le_refl _)).comp
        (h5.mono (le_refl _) (by omega)), pushAddr sp a :: qs, ?_, .cons ?_ (h7.imp fun b q hb => ?_)⟩
      · have := h1 (by omega)
        rw [List.length_cons]
        omega
      · unfold pushAddr
        omega
      · rw [h6, List.append_assoc, List.singleton_append]
      · exact hplaced.wrote hr1.solo h5 (le_refl _) (by omega) h3
      · exact ⟨hb.low, by have := hb.high; omega, hb.byte⟩

/-! ## Reading the arguments back -/

def userWords (m : Nat → Store) (d : Nat) : Nat → Nat → Option (List Nat)
  | 0, _ => some []
  | n + 1, va => do
    let b0 ← userByte m d va
    let b1 ← userByte m d (va + 1)
    let b2 ← userByte m d (va + 2)
    let b3 ← userByte m d (va + 3)
    let ws ← userWords m d n (va + 4)
    return (b0.toNat + 2 ^ 8 * b1.toNat + 2 ^ 16 * b2.toNat + 2 ^ 24 * b3.toNat) :: ws

def userString (m : Nat → Store) (d : Nat) : Nat → Nat → Option (List UInt8)
  | 0, _ => none
  | n + 1, va => do
    let b ← userByte m d va
    if b = 0 then return [] else return b :: (← userString m d n (va + 1))

/-- The arguments of `main`: above the return address are `argc` and the address of `argc` pointers
to strings, and after them a null pointer. -/
def decode (m : Nat → Store) (d esp : Nat) : Option (List (List UInt8)) := do
  match ← userWords m d 3 esp with
  | [pc, argc, argv] =>
    let ptrs ← userWords m d argc argv
    let last ← userWords m d 1 (argv + 4 * argc)
    if pc = 0xffffffff ∧ last = [0] then ptrs.mapM (userString m d KERNBASE) else none
  | _ => none

theorem length_word (w : Nat) : (word w).length = 4 := rfl

theorem length_words (ws : List Nat) : (ws.flatMap word).length = 4 * ws.length := by
  induction ws with
  | nil => rfl
  | cons w ws ih => rw [List.flatMap_cons, List.length_append, ih, length_word, List.length_cons]; omega

theorem userWords_of {ws : List Nat} (va : Nat)
    (h : ∀ j < 4 * ws.length, userByte m d (va + j) = some ((ws.flatMap word).getD j 0)) :
    userWords m d ws.length va = some (ws.map (· % UINT)) := by
  induction ws generalizing va with
  | nil => rfl
  | cons w ws ih =>
    have hrest := ih (va + 4) fun j hj => by
      have := h (4 + j) (by rw [List.length_cons]; omega)
      rw [List.flatMap_cons, List.getD_append_right _ _ _ _ (by rw [length_word]; omega), length_word,
        Nat.add_sub_cancel_left, ← Nat.add_assoc] at this
      exact this
    have hbyte : ∀ j < 4, userByte m d (va + j) = some ((word w).getD j 0) := fun j hj => by
      have := h j (by rw [List.length_cons]; omega)
      rwa [List.flatMap_cons, List.getD_append _ _ _ _ (by rw [length_word]; omega)] at this
    have h0 := hbyte 0 (by decide)
    rw [Nat.add_zero] at h0
    rw [List.length_cons, userWords, h0, hbyte 1 (by decide), hbyte 2 (by decide),
      hbyte 3 (by decide), hrest]
    simp only [word, List.getD_cons_zero, List.getD_cons_succ, Option.bind_eq_bind, Option.bind_some,
      List.map_cons, UInt8.toNat_ofNat', Option.pure_def]
    congr 2
    unfold UINT
    omega

theorem userString_of (va n : Nat)
    (h : ∀ j ≤ a.length, userByte m d (va + j) = some ((a ++ [0]).getD j 0))
    (hz : 0 ∉ a) (hn : a.length < n) : userString m d n va = some a := by
  induction a generalizing va n with
  | nil =>
    obtain ⟨n, rfl⟩ : ∃ k, n = k + 1 := ⟨n - 1, by omega⟩
    have h0 := h 0 (le_refl _)
    rw [Nat.add_zero] at h0
    rw [userString, h0]
    rfl
  | cons b a ih =>
    rw [List.length_cons] at hn
    obtain ⟨n, rfl⟩ : ∃ k, n = k + 1 := ⟨n - 1, by omega⟩
    have h0 := h 0 (Nat.zero_le _)
    rw [Nat.add_zero] at h0
    have hb : b ≠ 0 := fun he => hz (he ▸ List.mem_cons_self)
    have hrest := ih (va + 1) n (fun j hj => by
      have := h (j + 1) (by rw [List.length_cons]; omega)
      rwa [List.cons_append, List.getD_cons_succ, show va + (j + 1) = va + 1 + j by omega] at this)
      (fun h => hz (List.mem_cons_of_mem _ h)) (by omega)
    rw [userString, h0]
    simp only [List.cons_append, List.getD_cons_zero, Option.bind_eq_bind, Option.bind_some, hrest,
      if_neg hb, Option.pure_def]

theorem mapM_userString {argv : List (List UInt8)} {qs : List Nat}
    (h : List.Forall₂ (Placed m d lo hi) argv qs) (hz : ∀ a ∈ argv, 0 ∉ a)
    (hhi : hi ≤ KERNBASE) : qs.mapM (userString m d KERNBASE) = some argv := by
  induction h with
  | nil => rfl
  | cons hp _ ih =>
    have h1 := userString_of _ KERNBASE hp.byte (hz _ List.mem_cons_self) (by
      have := hp.high
      omega)
    rw [List.mapM_cons, h1, Option.bind_eq_bind, Option.bind_some,
      ih fun a ha => hz a (List.mem_cons_of_mem _ ha)]
    rfl

/-! ## The whole stack -/

theorem words_at (xs ys zs : List Nat) (h : ∀ j < ((xs ++ ys ++ zs).flatMap word).length,
      userByte m d (va + j) = some (((xs ++ ys ++ zs).flatMap word).getD j 0)) :
    userWords m d ys.length (va + 4 * xs.length) = some (ys.map (· % UINT)) := by
  refine userWords_of _ fun j hj => ?_
  have := h (4 * xs.length + j) (by
    rw [length_words, List.length_append, List.length_append]
    omega)
  rw [List.flatMap_append, List.flatMap_append, List.append_assoc,
    List.getD_append_right _ _ _ _ (by rw [length_words]; omega), length_words,
    Nat.add_sub_cancel_left, List.getD_append _ _ _ _ (by rw [length_words]; exact hj),
    ← Nat.add_assoc] at this
  exact this

/-- The arguments lie between `sp` and `top`: the frame of `main` at `sp`, and the strings. -/
def Framed (m : Nat → Store) (d top sp : Nat) (argv : List (List UInt8)) : Prop :=
  ∃ qs : List Nat, List.Forall₂ (Placed m d sp top) argv qs ∧ qs.length ≤ MAXARG ∧
    sp + 4 * (qs.length + 4) ≤ top ∧
    ∀ j < (([0xffffffff, qs.length, sp + 12] ++ qs ++ [0]).flatMap word).length,
      userByte m d (sp + j) =
        some ((([0xffffffff, qs.length, sp + 12] ++ qs ++ [0]).flatMap word).getD j 0)

theorem length_frame (sp : Nat) (qs : List Nat) :
    (([0xffffffff, qs.length, sp + 12] ++ qs ++ [0]).flatMap word).length = 4 * (qs.length + 4) := by
  rw [length_words, List.length_append, List.length_append]
  simp only [List.length_cons, List.length_nil]
  omega

theorem Framed.congr {argv : List (List UInt8)} (h : Framed m d top sp argv)
    (hb : ∀ va < top, userByte m' d va = userByte m d va) : Framed m' d top sp argv := by
  obtain ⟨qs, h1, h2, h3, h4⟩ := h
  have hplaced : ∀ a q, Placed m d sp top a q → Placed m' d sp top a q := fun a q hp =>
    ⟨hp.low, hp.high, fun j hj => by
      rw [hb _ (by have := hp.high; omega)]
      exact hp.byte j hj⟩
  refine ⟨qs, h1.imp hplaced, h2, h3, fun j hj => ?_⟩
  rw [hb _ (by rw [length_frame] at hj; omega)]
  exact h4 j hj

theorem Framed.decode {argv : List (List UInt8)} (h : Framed m d top sp argv) (htop : top ≤ KERNBASE)
    (hz : ∀ a ∈ argv, 0 ∉ a) : decode m d sp = some argv := by
  obtain ⟨qs, hq, hlen, hle, h⟩ := h
  have hva : sp + 12 < UINT := by unfold UINT KERNBASE at *; omega
  have hlen : qs.length < UINT := by unfold UINT MAXARG at *; omega
  have hqs : qs.map (· % UINT) = qs := by
    refine (List.map_congr_left fun q hq' => ?_).trans (List.map_id qs)
    obtain ⟨i, hi, rfl⟩ := List.getElem_of_mem hq'
    have := (hq.get (by rw [hq.length_eq]; exact hi) hi).high
    simp only [List.get_eq_getElem] at this
    exact Nat.mod_eq_of_lt (by unfold UINT KERNBASE at *; omega)
  have h1 := words_at [] [0xffffffff, qs.length, sp + 12] (qs ++ [0]) (by
    rw [List.nil_append, ← List.append_assoc]
    exact h)
  have h2 := words_at [0xffffffff, qs.length, sp + 12] qs [0] h
  have h3 := words_at ([0xffffffff, qs.length, sp + 12] ++ qs) [0] [] (by
    rw [List.append_nil]
    exact h)
  rw [hqs] at h2
  simp only [List.length_nil, List.length_cons, List.length_append, List.map_cons, List.map_nil,
    Nat.mod_eq_of_lt hva, Nat.mod_eq_of_lt hlen, Nat.mul_zero, Nat.add_zero] at h1 h2 h3
  rw [show sp + 4 * (0 + 1 + 1 + 1) = sp + 12 by omega] at h2
  rw [show sp + 4 * (0 + 1 + 1 + 1 + qs.length) = sp + 12 + 4 * qs.length by omega] at h3
  rw [Vm.decode, h1]
  simp only [Option.bind_eq_bind, Option.bind_some, h2, h3]
  rw [if_pos ⟨by decide, by decide⟩]
  exact mapM_userString hq hz htop

theorem pushFrame_total {argv : List (List UInt8)} (cur : Nat) (h : Ready L s d top c)
    (ha : ∀ a ∈ argv, a.length < KERNBASE) (ht : Tame L top top argv) :
    ∃ r s', pushFrame L cur d top argv s = .ok (r, s') ∧ Wrote s s' d 0 top ∧
      ∀ sp, r = some sp → sp % 4 = 0 ∧ top - PGSIZE ≤ sp ∧ sp < top ∧
        Wrote s s' d (top - PGSIZE) top ∧ Framed s'.mem d top sp argv := by
  have hlt := h.lt
  have htwo := h.two
  have haln := h.aligned
  obtain ⟨r1, s1, hrun1, hwr1, hok⟩ := pushArgs_total cur 0 [] h
    (le_refl _) (Nat.sub_le _ _) ha ht
  rw [pushFrame, bind_run hrun1]
  cases r1 with
  | none => exact ⟨none, s1, rfl, hwr1, nofun⟩
  | some q =>
    obtain ⟨sp, args⟩ := q
    obtain ⟨hmax, hpage, hle, haln4, hwr, qs, hargs, hplaced⟩ := hok sp args rfl
    obtain ⟨c1, h1, -⟩ := h.wrote hwr1 (le_refl _)
    rw [List.nil_append] at hargs
    subst hargs
    have hlen : args.length ≤ 32 := by
      have := hmax (Nat.zero_le _)
      rw [← hplaced.length_eq]
      unfold MAXARG at this
      omega
    have haln4 := haln4 (by unfold PGSIZE at *; omega)
    -- the frame lies right below the strings
    obtain ⟨va, hva⟩ : ∃ va, va = sp - (3 + args.length + 1) * 4 := ⟨_, rfl⟩
    have hsub : va + (3 + args.length + 1) * 4 = sp := by unfold PGSIZE at *; omega
    have hsp : (sp + UINT - (3 + args.length + 1) * 4) % UINT = va := by
      unfold PGSIZE UINT KERNBASE at *
      omega
    have hptr : (sp + UINT - (args.length + 1) * 4) % UINT = va + 12 := by
      unfold PGSIZE UINT KERNBASE at *
      omega
    have hwords := length_frame va args
    simp only [hsp, hptr]
    obtain ⟨r2, s2, hrun2, hwr2, hr2, hdata⟩ := copyout_below h1.toStacked h1.solo h1.clean L cur va
      (([0xffffffff, args.length, va + 12] ++ args ++ [0]).flatMap word) (by omega) (by omega)
      (by unfold PGSIZE at *; omega)
    have hall := hwr1.comp (hwr2.mono (Nat.zero_le _) (by omega))
    rw [bind_run hrun2]
    cases r2 with
    | false => exact ⟨none, s2, rfl, hall, nofun⟩
    | true =>
      have hstart := hr2.1 rfl
      refine ⟨some va, s2, rfl, hall, fun sp' hsp' => ?_⟩
      cases hsp'
      exact ⟨by omega, hstart, by omega, (hwr.mono hpage (le_refl _)).comp
        (hwr2.mono hstart (by omega)), args, hplaced.imp fun a q hp =>
          hp.wrote h1.solo hwr2 (by omega) hlt.le (by omega), hlen, by omega, hdata rfl⟩

theorem pageCount_pgroundup (h : k < KERNBASE) : pageCount (pgroundup k) = pageCount k := by
  obtain ⟨-, -, h3, h4⟩ := pgroundup_bounds h.le
  rw [pageCount, pgroundup_of_le h3, pageCount]
  unfold PGSIZE at *
  omega

theorem stack_total (ho : Own s (dirUse s.mem d)) (hw : Within L s (dirUse s.mem d))
    (h : Holds s.mem d k c) (hk : k < KERNBASE) :
    ∃ r s1, allocuvm L d (pgroundup k) ((pgroundup k + 2 * PGSIZE) % UINT) s = .ok (r, s1) ∧
      Extended s s1 d ∧ (r ≠ 0 → r = pgroundup k + 2 * PGSIZE ∧
        ∃ s2, clearpteu d (r - 2 * PGSIZE) s1 = .ok ((), s2) ∧ Extended s s2 d ∧
          Stacked s2.mem d r c) := by
  obtain ⟨h1, h2, h3, h4⟩ := pgroundup_bounds hk.le
  have hmod : (pgroundup k + 2 * PGSIZE) % UINT = pgroundup k + 2 * PGSIZE := by
    unfold UINT KERNBASE PGSIZE at *
    omega
  have hround : Holds s.mem d (pgroundup k) c := by
    refine ⟨⟨?_, ?_⟩, ?_, ?_⟩ <;> rw [pageCount_pgroundup hk]
    · exact h.page
    · exact h.rest
    · exact h.byte
    · exact h.zero
  rw [hmod]
  obtain ⟨r, s1, hal, hkept, hres⟩ :=
    (allocuvm_holds (pgroundup k + 2 * PGSIZE) ho hround).returns fun _ h => h hw
  refine ⟨r, s1, hal, hkept, fun hz => ?_⟩
  obtain ⟨hlt, hr, hholds⟩ := hres hz
  obtain ⟨s2, hclr, hkept2, hst⟩ := clearpteu_stacked (ho.trans hkept.trans) hholds
    (by unfold PGSIZE at *; omega) (by omega) (by omega)
  exact ⟨by omega, s2, hclr, hkept.comp hkept2, hst⟩

theorem userStack_total {argv : List (List UInt8)} (cur : Nat) (ho : Own s (dirUse s.mem d))
    (hw : Within L s (dirUse s.mem d)) (hc : KernelClean s.mem d)
    (htab : ∀ i, (∃ k ∈ kmap L, k.Covers i) → present (ent s.mem d i) = true)
    (h : Holds s.mem d k c) (hk : k < KERNBASE) (ha : ∀ a ∈ argv, a.length < KERNBASE)
    (ht : ∀ r s1, allocuvm L d (pgroundup k) ((pgroundup k + 2 * PGSIZE) % UINT) s = .ok (r, s1) →
      r ≠ 0 → Tame L r r argv) :
    ∃ r s', userStack L cur d k argv s = .ok (r, s') ∧ Extended s s' d ∧
      ∀ sz sp, r = some (sz, sp) → sz = pgroundup k + 2 * PGSIZE ∧ sp % 4 = 0 ∧
        ∃ s1, Stacked s1.mem d sz c ∧ pushFrame L cur d sz argv s1 = .ok (some sp, s') ∧
          Wrote s1 s' d (sz - PGSIZE) sz ∧ Framed s'.mem d sz sp argv := by
  obtain ⟨r, s1, hal, hkept, hres⟩ := stack_total ho hw h hk
  rw [userStack, bind_run hal]
  by_cases hz : r = 0
  · rw [if_pos hz]
    exact ⟨none, s1, rfl, hkept, nofun⟩
  rw [if_neg hz]
  obtain ⟨hr, s2, hclr, hkept2, hst⟩ := hres hz
  rw [bind_run hclr]
  have hready : Ready L s2 d r c := ⟨hst, (ho.trans hkept2.trans).solo, hkept2.clean hc, fun i hi => by
    obtain ⟨m, hm, hcov⟩ := hi
    rw [hkept2.kernel i (covers_kernel hm hcov)]
    exact htab i ⟨m, hm, hcov⟩⟩
  obtain ⟨r', s', hrun, hwr, hok⟩ := pushFrame_total cur hready ha (ht r s1 hal hz)
  have hkept' := hkept2.comp (hwr.kept hst.lt.le)
  rw [bind_run hrun]
  cases r' with
  | none => exact ⟨none, s', rfl, hkept', nofun⟩
  | some sp =>
    refine ⟨some (r, sp), s', rfl, hkept', fun sz sp' hsome => ?_⟩
    cases hsome
    obtain ⟨h4, h5, h6, h7, h8⟩ := hok sp rfl
    exact ⟨hr, h4, s2, hst, hrun, h7, h8⟩

end Vm
