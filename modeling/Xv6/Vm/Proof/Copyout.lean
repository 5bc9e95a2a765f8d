import Xv6.Vm.Proof.NullPte
import Xv6.Vm.Proof.Resize

/-!
# `copyout`

When the page of a chunk has a page table, the check of `PTE_P` and `PTE_U` decides (`uva2ka_table`);
when it has none, the entry that is checked lies at address 0 (`uva2ka_gap`).
-/

namespace Vm

open Bytes Panic Function

variable {L : Layout} {s s' : Kernel} {m m' : Nat → Store} {d e f g i j k w n a o va cur : Nat}
  {bs : List UInt8}

def access (m : Nat → Store) (d va : Nat) : Bool :=
  match entry m d (pdx va) (ptx va) with
  | some w => present w && user w
  | none => false

theorem access_iff : access m d va = true ↔
    ∃ w, entry m d (pdx va) (ptx va) = some w ∧ present w = true ∧ user w = true := by
  unfold access
  split <;> simp_all

theorem access_frame (h : access m d va = true) : ∃ f, userFrame m d va = some f := by
  obtain ⟨w, he, hp, -⟩ := access_iff.1 h
  exact ⟨pteAddr w, by simp only [userFrame, he, hp, if_true]⟩

theorem SameDir.access (h : SameDir m m' d) : Vm.access m' d va = Vm.access m d va := by
  unfold Vm.access
  rw [h.entry (pdx_lt va)]

theorem KernelClean.access_lt (hc : KernelClean m d) (hva : va < UINT) (h : access m d va = true) :
    va < KERNBASE := by
  obtain ⟨w, he, -, hu⟩ := access_iff.1 h
  have := hc.user_lt he hu
  unfold pdx at this
  unfold KERNBASE
  unfold UINT at hva
  omega

theorem Solo.addr_inj (h : Solo m d) (hc : KernelClean m d) (hva : va < UINT) (ha : a < UINT)
    (hv : access m d va = true) (hw : access m d a = true) (hf : userFrame m d va = some f)
    (hg : userFrame m d a = some f) (ho : va % PGSIZE = a % PGSIZE) : va = a := by
  have hle : userUse m d f ≤ 1 := by
    have := h f
    unfold dirUse at this
    omega
  have hp := userFrame_inj hle hf (hc.access_lt hva hv) hg (hc.access_lt ha hw)
  unfold pgrounddown PGSIZE at *
  omega

/-! ## One page -/

theorem page_addr (va : Nat) : pdx (pgrounddown va) = pdx va ∧ ptx (pgrounddown va) = ptx va := by
  unfold pdx ptx pgrounddown PGSIZE
  omega

theorem uva2ka_table (hp : present (ent s.mem d (pdx va)) = true) :
    uva2ka L cur d (pgrounddown va) s =
      .ok (if access s.mem d va = true then userFrame s.mem d va else none, s) := by
  obtain ⟨h1, h2⟩ := page_addr va
  have hwalk : walkpgdir d (pgrounddown va) false s =
      .ok (some (pteAddr (ent s.mem d (pdx va)), ptx va), s) := by
    rw [walk_run, h1, h2, if_pos hp]
  rw [uva2ka, bind_run hwalk]
  simp only
  rw [bind_run load_run, pure_run]
  congr 2
  unfold access userFrame
  rw [entry_eq hp]
  simp only
  cases hpr : present (ent s.mem (pteAddr (ent s.mem d (pdx va))) (ptx va)) <;>
    cases user (ent s.mem (pteAddr (ent s.mem d (pdx va))) (ptx va)) <;> rfl

theorem uva2ka_gap {r : Option Nat} (hp : present (ent s.mem d (pdx va)) = false)
    (h : uva2ka L cur d (pgrounddown va) s = .ok (r, s')) : .nullPte :: s.hist <:+ s'.hist := by
  obtain ⟨h1, -⟩ := page_addr va
  have hwalk : walkpgdir d (pgrounddown va) false s = .ok (none, s) := by
    rw [walk_run, h1, hp]
    rfl
  exact uva2ka_untabled hwalk h

theorem chunk_addr (hva : va < UINT) (hi : i < PGSIZE - va % PGSIZE) :
    (va + i) % UINT = va + i ∧ pdx (va + i) = pdx va ∧ ptx (va + i) = ptx va ∧
      (va + i) % PGSIZE = va % PGSIZE + i := by
  unfold pdx ptx
  unfold PGSIZE UINT at *
  omega

theorem next_addr :
    ((pgrounddown va + PGSIZE) % UINT + i) % UINT = (va + (PGSIZE - va % PGSIZE) + i) % UINT ∧
      ((pgrounddown va + PGSIZE) % UINT + i) % PGSIZE = (va + (PGSIZE - va % PGSIZE) + i) % PGSIZE := by
  unfold pgrounddown PGSIZE UINT at *
  omega

theorem access_chunk (hva : va < UINT) (hi : i < PGSIZE - va % PGSIZE) :
    access m d ((va + i) % UINT) = access m d va ∧
      userFrame m d ((va + i) % UINT) = userFrame m d va := by
  obtain ⟨h0, h1, h2, -⟩ := chunk_addr hva hi
  rw [h0]
  unfold access userFrame
  rw [h1, h2]
  exact ⟨rfl, rfl⟩

/-! ## The whole range -/

/-- The range has no page without a page table before its first page that user mode cannot access. -/
def Tables (m : Nat → Store) (d va n : Nat) : Prop :=
  ∀ i < n, (∀ j < i, access m d ((va + j) % UINT) = true) →
    present (ent m d (pdx ((va + i) % UINT))) = true

/-- What `copyout` is for: it succeeds if user mode can access the whole range, which then holds
the bytes; it writes to bytes of the range that user mode can access only; and it reads no entry
through a null pointer, for nothing but memory changes. -/
def Checked (L : Layout) (cur d va : Nat) (bs : List UInt8) (s : Kernel) : Prop :=
  ∃ r m', copyout L cur d va bs s = .ok (r, { s with mem := m' }) ∧
    (r = true ↔ ∀ i < bs.length, access s.mem d ((va + i) % UINT) = true) ∧
    (r = true → ∀ i < bs.length, ∀ f, userFrame s.mem d ((va + i) % UINT) = some f →
      m' f ((va + i) % PGSIZE) = bs.getD i 0) ∧
    ∀ f o, m' f o ≠ s.mem f o → ∃ i < bs.length, access s.mem d ((va + i) % UINT) = true ∧
      userFrame s.mem d ((va + i) % UINT) = some f ∧ (va + i) % PGSIZE = o

def chunk (va : Nat) (bs : List UInt8) : Nat := min (PGSIZE - va % PGSIZE) bs.length

theorem copyout_cons (L : Layout) (cur : Nat) (b : UInt8) (bs : List UInt8)
    (hp : present (ent s.mem d (pdx va)) = true) : copyout L cur d va (b :: bs) s =
      if access s.mem d va = true then
        match userFrame s.mem d va with
        | some f => copyout L cur d ((pgrounddown va + PGSIZE) % UINT)
            ((b :: bs).drop (chunk va (b :: bs)))
            { s with mem := update s.mem f (copy (s.mem f) (va % PGSIZE)
                (fun i => ((b :: bs).take (chunk va (b :: bs))).getD i 0) 0
                ((b :: bs).take (chunk va (b :: bs))).length) }
        | none => .ok (false, s)
      else .ok (false, s) := by
  have hoff : va - pgrounddown va = va % PGSIZE := by
    unfold pgrounddown PGSIZE
    omega
  rw [copyout, bind_run (uva2ka_table hp)]
  split
  · cases userFrame s.mem d va with
    | none => rfl
    | some f =>
      simp only [hoff]
      rfl
  · rfl

theorem rest_addr (hlt : chunk va bs < bs.length) :
    ((pgrounddown va + PGSIZE) % UINT + i) % UINT = (va + (chunk va bs + i)) % UINT ∧
      ((pgrounddown va + PGSIZE) % UINT + i) % PGSIZE = (va + (chunk va bs + i)) % PGSIZE := by
  have hn : chunk va bs = PGSIZE - va % PGSIZE := by
    unfold chunk at *
    omega
  rw [hn, ← Nat.add_assoc]
  exact next_addr

theorem chunk_le (va : Nat) (bs : List UInt8) : chunk va bs ≤ PGSIZE - va % PGSIZE ∧
    chunk va bs ≤ bs.length := by
  unfold chunk
  omega

theorem chunk_pos {b : UInt8} : 0 < chunk va (b :: bs) := by
  unfold chunk PGSIZE
  rw [List.length_cons]
  omega

theorem tables_rest (hva : va < UINT) (ha : access m d va = true) : Tables m d va bs.length ↔
    Tables m d ((pgrounddown va + PGSIZE) % UINT) (bs.drop (chunk va bs)).length := by
  have hfirst : ∀ j < chunk va bs, access m d ((va + j) % UINT) = true := fun j hj => by
    rw [(access_chunk hva (hj.trans_le (chunk_le va bs).1)).1, ha]
  rw [List.length_drop]
  refine ⟨fun h i hi hacc => ?_, fun h i hi hacc => ?_⟩
  · have hlt : chunk va bs < bs.length := by omega
    rw [(rest_addr hlt).1]
    refine h _ (by omega) fun j hj => ?_
    by_cases hjn : j < chunk va bs
    · exact hfirst j hjn
    · have := hacc (j - chunk va bs) (by omega)
      rwa [(rest_addr hlt).1, Nat.add_sub_cancel' (by omega)] at this
  · by_cases hin : i < chunk va bs
    · obtain ⟨w, he, -⟩ := access_iff.1 (hfirst i hin)
      exact (entry_isSome he).1
    · have hlt : chunk va bs < bs.length := by omega
      have := h (i - chunk va bs) (by omega) fun j hj => by
        rw [(rest_addr hlt).1]
        exact hacc _ (by omega)
      rwa [(rest_addr hlt).1, Nat.add_sub_cancel' (by omega)] at this

theorem SameDir.tables (h : SameDir m m' d) : Tables m' d va n ↔ Tables m d va n := by
  simp only [Tables, h.access, h.ent]

/-- The first chunk is written, and `copyout` goes on at the next page. -/
theorem copyout_chunk (L : Layout) (cur : Nat) (hl : bs ≠ []) (hs : Solo s.mem d)
    (hc : KernelClean s.mem d) (ha : access s.mem d va = true) :
    ∃ f q, userFrame s.mem d va = some f ∧ SameDir s.mem (update s.mem f q) d ∧
      (bs.drop (chunk va bs)).length < bs.length ∧ copyout L cur d va bs s =
        copyout L cur d ((pgrounddown va + PGSIZE) % UINT) (bs.drop (chunk va bs))
          { s with mem := update s.mem f q } ∧
      ∀ o, q o = if va % PGSIZE ≤ o ∧ o < va % PGSIZE + chunk va bs then
        bs.getD (o - va % PGSIZE) 0 else s.mem f o := by
  obtain ⟨b, l, rfl⟩ := List.exists_cons_of_ne_nil hl
  obtain ⟨f, hf⟩ := access_frame ha
  obtain ⟨w, he, hw, hu⟩ := access_iff.1 ha
  have hfw : f = pteAddr w := by
    simp only [userFrame, he, hw, if_true, Option.some.injEq] at hf
    exact hf.symm
  have hle := chunk_le va (b :: l)
  have hpos : 0 < chunk va (b :: l) := chunk_pos
  have hstep := copyout_cons L cur b l (entry_isSome he).1
  rw [if_pos ha, hf] at hstep
  refine ⟨f, _, hf, ?_, ?_, hstep, fun o => ?_⟩
  · rw [hfw]
    exact hs.same_user (hc.user_lt he hu) (ptx_lt va) he hw
  · rw [List.length_drop]
    omega
  · rw [copy, List.length_take, Nat.min_eq_left hle.2]
    split
    · rw [Nat.zero_add, List.getD_eq_getElem?_getD, List.getElem?_take_of_lt (by omega),
        List.getD_eq_getElem?_getD]
    · rfl

theorem copyout_of_tables (hva : va < UINT) (hlen : bs.length ≤ UINT) (hs : Solo s.mem d)
    (hc : KernelClean s.mem d) (ht : Tables s.mem d va bs.length) : Checked L cur d va bs s := by
  induction hn : bs.length using Nat.strong_induction_on generalizing va bs s with
  | _ len ih =>
  rcases eq_or_ne bs [] with rfl | hl
  · refine ⟨true, s.mem, by rw [copyout]; rfl, ?_, ?_, fun f o h => absurd rfl h⟩
    · simp
    · simp
  have hpos := List.length_pos_iff.2 hl
  cases ha : access s.mem d va with
  | false =>
    have hp := ht 0 hpos (by simp)
    rw [Nat.add_zero, Nat.mod_eq_of_lt hva] at hp
    obtain ⟨b, l, rfl⟩ := List.exists_cons_of_ne_nil hl
    refine ⟨false, s.mem, ?_, ?_, (by simp), fun f o h => absurd rfl h⟩
    · rw [copyout_cons L cur b l hp, ha]
      rfl
    · refine iff_of_false (by simp) fun h => ?_
      have := h 0 hpos
      rw [Nat.add_zero, Nat.mod_eq_of_lt hva, ha] at this
      cases this
  | true =>
    obtain ⟨f, q, hf, hsame, hdrop, hstep, hq⟩ := copyout_chunk L cur hl hs hc ha
    have hle := chunk_le va bs
    obtain ⟨r, m', hrun, hr, hdata, hmem⟩ := ih _ (hn ▸ hdrop)
      (s := { s with mem := update s.mem f q })
      (Nat.mod_lt (pgrounddown va + PGSIZE) (show 0 < UINT by decide)) (by omega)
      (fun f => hsame.dirUse ▸ hs f) (hsame.kernelClean hc)
      (hsame.tables.2 ((tables_rest hva ha).1 ht)) rfl
    simp only [hsame.access, hsame.userFrame, List.length_drop] at hr hdata hmem
    refine ⟨r, m', hstep.trans hrun, ?_, fun hrt i hi g hg => ?_, fun g o hne => ?_⟩
    · rw [hr]
      refine ⟨fun h i hi => ?_, fun h i hi => ?_⟩
      · by_cases hin : i < chunk va bs
        · rw [(access_chunk hva (hin.trans_le hle.1)).1, ha]
        · have := h (i - chunk va bs) (by omega)
          rwa [(rest_addr (show chunk va bs < bs.length by omega)).1, Nat.add_sub_cancel' (by omega)]
            at this
      · rw [(rest_addr (show chunk va bs < bs.length by omega)).1]
        exact h _ (by omega)
    · have hall := hr.1 hrt
      by_cases hin : i < chunk va bs
      · -- a byte of the first chunk is not written again
        obtain ⟨h1, h2⟩ := access_chunk (m := s.mem) (d := d) hva (hin.trans_le hle.1)
        obtain rfl : g = f := Option.some.inj (hg.symm.trans (h2.trans hf))
        obtain ⟨h3, -, -, h4⟩ := chunk_addr hva (hin.trans_le hle.1)
        have hkeep : m' g ((va + i) % PGSIZE) = q ((va + i) % PGSIZE) := by
          by_contra hne
          obtain ⟨k, hk, hka, hkf, hko⟩ := hmem g ((va + i) % PGSIZE) (by
            simpa only [update_self] using hne)
          have hlt : chunk va bs < bs.length := by omega
          rw [(rest_addr hlt).1] at hka hkf
          rw [(rest_addr hlt).2] at hko
          have := hs.addr_inj hc (Nat.mod_lt _ (by decide)) (Nat.mod_lt _ (by decide))
            (h1.trans ha) hka hg hkf (by
              rw [Nat.mod_mod_of_dvd _ (by decide), Nat.mod_mod_of_dvd _ (by decide)]
              exact hko.symm)
          unfold UINT at *
          omega
        rw [hkeep, hq, h4, if_pos ⟨by omega, by omega⟩, Nat.add_sub_cancel_left]
      · have hlt : chunk va bs < bs.length := by omega
        have := hdata hrt (i - chunk va bs) (by omega) g (by
          rwa [(rest_addr hlt).1, Nat.add_sub_cancel' (by omega)])
        rw [(rest_addr hlt).2, Nat.add_sub_cancel' (by omega)] at this
        rw [this, List.getD_eq_getElem?_getD, List.getElem?_drop, Nat.add_sub_cancel' (by omega),
          List.getD_eq_getElem?_getD]
    · by_cases hlate : m' g o = update s.mem f q g o
      · have hgf : g = f := by
          by_contra hgf
          rw [hlate, update_of_ne hgf] at hne
          exact hne rfl
        subst hgf
        rw [hlate, update_self, hq] at hne
        split at hne
        · rename_i hin
          have hi : o - va % PGSIZE < PGSIZE - va % PGSIZE := by omega
          obtain ⟨h1, h2⟩ := access_chunk (m := s.mem) (d := d) hva hi
          obtain ⟨-, -, -, h4⟩ := chunk_addr hva hi
          refine ⟨o - va % PGSIZE, by omega, h1.trans ha, h2.trans hf, ?_⟩
          rw [h4]
          omega
        · exact absurd rfl hne
      · obtain ⟨i, hi, hia, hif, hio⟩ := hmem g o hlate
        have hlt : chunk va bs < bs.length := by omega
        rw [(rest_addr hlt).1] at hia hif
        rw [(rest_addr hlt).2] at hio
        exact ⟨chunk va bs + i, by omega, hia, hif, hio⟩

theorem copyout_gap {r : Bool} (hva : va < UINT) (hs : Solo s.mem d) (hc : KernelClean s.mem d)
    (ht : ¬ Tables s.mem d va bs.length) (h : copyout L cur d va bs s = .ok (r, s')) :
    .nullPte :: s.hist <:+ s'.hist := by
  induction hn : bs.length using Nat.strong_induction_on generalizing va bs s with
  | _ len ih =>
  rcases eq_or_ne bs [] with rfl | hl
  · exact absurd (fun i hi => absurd hi (Nat.not_lt_zero _)) ht
  cases ha : access s.mem d va with
  | true =>
    obtain ⟨f, q, -, hsame, hdrop, hstep, -⟩ := copyout_chunk L cur hl hs hc ha
    rw [hstep] at h
    exact ih _ (hn ▸ hdrop) (s := { s with mem := update s.mem f q }) (Nat.mod_lt _ (by decide))
      (fun g => hsame.dirUse ▸ hs g) (hsame.kernelClean hc)
      (fun hrest => ht ((tables_rest hva ha).2 (hsame.tables.1 hrest))) h rfl
  | false =>
    cases hp : present (ent s.mem d (pdx va)) with
    | false =>
      obtain ⟨b, l, rfl⟩ := List.exists_cons_of_ne_nil hl
      rw [copyout, bind_ok] at h
      obtain ⟨o, s1, hu, h⟩ := h
      refine (uva2ka_gap hp hu).trans ?_
      cases o with
      | none =>
        obtain ⟨-, rfl⟩ := pure_ok.1 h
        exact List.suffix_refl _
      | some f =>
        rw [bind_ok] at h
        obtain ⟨_, s2, hset, h⟩ := h
        exact List.IsSuffix.trans (Respects.ok (R := Longer) .setBytes hset)
          (Respects.ok (R := Longer) .copyout h)
    | true =>
      -- the first page decides, and it has a page table
      refine absurd (fun i hi hacc => ?_) ht
      rcases Nat.eq_zero_or_pos i with rfl | hpos
      · rwa [Nat.add_zero, Nat.mod_eq_of_lt hva]
      · have := hacc 0 hpos
        rw [Nat.add_zero, Nat.mod_eq_of_lt hva, ha] at this
        cases this

/-- **`copyout` checks every page exactly when** it meets no page without a page table before the
first one that user mode cannot access. -/
theorem copyout_checked (hva : va < UINT) (hlen : bs.length ≤ UINT) (ho : Own s (dirUse s.mem d))
    (hc : KernelClean s.mem d) : Checked L cur d va bs s ↔ Tables s.mem d va bs.length := by
  refine ⟨fun ⟨r, m', hrun, _⟩ => ?_, copyout_of_tables hva hlen ho.solo hc⟩
  by_contra ht
  have := (copyout_gap hva ho.solo hc ht hrun).length_le
  simp only [List.length_cons] at this
  omega

theorem copyout_checked_first : ∃ s d, First s d ∧ Checked smallLayout d d 8 [7] s := by
  obtain ⟨s, d, hup, hfirst⟩ := boot_first smallLayout_first
  obtain ⟨ho, -, -⟩ := hfirst.owned hup
  obtain ⟨k, hsp⟩ := (hup.inv hfirst.hist).space_of (by decide) (by simp [hfirst.state]) hfirst.pgdir
  refine ⟨s, d, hfirst, (copyout_checked (by decide) (by decide) ho hsp.clean).2 ?_⟩
  intro i hi _
  obtain rfl : i = 0 := Nat.lt_one_iff.1 hi
  obtain ⟨t, ht⟩ := hfirst.pde
  rw [show pdx ((8 + 0) % UINT) = 0 by decide, ht, present_mkPte]

/-- **`copyout` to an address without a page table.** The first process stores at address 0 an entry
that names its own page table. A byte copied to `0xFDBFF000` of a new directory then goes to that
page table, and `copyout` reports success. -/
theorem copyout_unchecked : ∃ s s1 s2 d e f, Reach smallLayout s ∧ (s.proc 0).pgdir = some d ∧
    setupkvm smallLayout s = .ok (some e, s1) ∧
    copyout smallLayout d e 0xFDBFF000 [0] s1 = .ok (true, s2) ∧
    access s1.mem e 0xFDBFF000 = false ∧ dirUse s1.mem e f = 0 ∧ s2.mem f ≠ s1.mem f ∧
    .nullPte ∉ s1.hist ∧ .nullPte ∈ s2.hist := by
  obtain ⟨s0, d, hup, hfirst⟩ := boot_first smallLayout_first
  obtain ⟨s', t, g, h', -⟩ := sbrk_runs (n := 1) hup hfirst (by decide) (by decide)
  obtain ⟨s, h, -, hm⟩ := h'.aims Nat.two_pos
  have hword := h.word h.table_lt hm
  obtain ⟨e, s1, ⟨c, hset⟩, hbuilt⟩ := setupkvm_runs (L := smallLayout) (s := s)
    (by have := h.free; omega) h.own_none
  have haim := h.aimed hword hbuilt.trans
  have hgap : present (ent s1.mem e (pdx 0xFDBFF000)) = false := by
    rw [show pdx 0xFDBFF000 = 1014 by decide]
    simpa using mt (hbuilt.pde 1014).1 kmap_covers.1
  have hu := uva2ka_null 0xFDBFF000 haim hgap
  have hcopy : Steady (copyout smallLayout d e 0xFDBFF000 [0]) s1 true
      { s1 with
        hist := .nullPte :: s1.hist
        mem := update s1.mem t (copy (s1.mem t) 0 (fun i => [(0 : UInt8)].getD i 0) 0 1) } := by
    have hoff : 0xFDBFF000 - pgrounddown 0xFDBFF000 = 0 := by decide
    have hmin : min (PGSIZE - 0) [(0 : UInt8)].length = 1 := by decide
    rw [copyout]
    refine hu.bind ?_
    simp only [hoff, hmin]
    refine steady_setBytes.bind ?_
    rw [show ([(0 : UInt8)]).drop 1 = [] from rfl, copyout]
    exact fun _ => rfl
  refine ⟨_, _, _, d, e, t, h.up (List.replicate c false ++ []), h.pgdir, hset [], hcopy [], ?_,
    haim.other, fun heq => ?_, ?_, List.mem_cons_self⟩
  · simp only [access, entry_none hgap]
  · -- the low byte of the entry of page 0 has the bit `PTE_P`
    have hbyte : s1.mem t 0 = 0 := by
      have := congrFun heq 0
      simpa [copy] using this.symm
    have hent : ent s1.mem t 0 = userPte g := by
      have := haim.pte
      rw [entry_eq (by rw [haim.pde, present_mkPte]), haim.pde, pteAddr_userPte] at this
      exact Option.some.inj this
    have hodd : present (ent s1.mem t 0) = true := by rw [hent, present_mkPte]
    rw [ent, get32, get16, hbyte, present, Nat.testBit_zero, decide_eq_true_eq] at hodd
    simp only [UInt8.toNat_zero] at hodd
    omega
  · simp [hbuilt.hist, h.hist]

end Vm
