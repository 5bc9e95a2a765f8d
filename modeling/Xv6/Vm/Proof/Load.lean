import Mathlib.Data.List.GetD
import Xv6.Vm.Proof.Alloc

/-!
# Loading a program

The segment loop of `exec` for every file and every pattern of failures of `kalloc`: it returns, and
what it built is `layout` of the segments of the file (`loadSegs_ends`).
-/

namespace Vm

open Bytes Panic

variable {L : Layout} {s s' s'' : Kernel} {m m' : Nat → Store}
  {d f g i j k w n a x y z p o va sz addr offset lo hi : Nat} {bs : List UInt8} {img : Image}
  {c : Nat → UInt8}

/-! ## Writing to user pages -/

/-- User pages of `d` were written. -/
structure Touched (s s' : Kernel) (d : Nat) : Prop where
  trans : Trans s (dirUse s.mem d) s' (dirUse s'.mem d)
  same : SameDir s.mem s'.mem d

theorem Touched.refl : Touched s s d := ⟨Trans.refl, rfl, fun _ _ _ => rfl⟩

theorem Touched.comp (h : Touched s s' d) (h' : Touched s' s'' d) : Touched s s'' d := by
  refine ⟨h.trans.trans h'.trans, h'.same.dir.trans h.same.dir, fun i hi hp => ?_⟩
  have h2 := h'.same.table i hi (by rw [h.same.ent]; exact hp)
  rw [h.same.ent] at h2
  exact h2.trans (h.same.table i hi hp)

theorem Touched.grown (h : Touched s s' d) : Grown s s' d := ⟨h.trans, h.same.kernelClean⟩

theorem touched_setBytes (hset : setBytes (pteAddr w) o bs s = .ok ((), s'))
    (ho : Own s (dirUse s.mem d)) (hi : i < 512) (hj : j < 1024)
    (he : entry s.mem d i j = some w) (hw : present w = true) : Touched s s' d := by
  cases hset
  have hsame := fun p => ho.solo.same_user (p := p) hi hj he hw
  refine ⟨(trans_setMem ?_).congr (fun _ => rfl) fun f => (hsame _).dirUse, hsame _⟩
  have := dirUse_user hi hj he hw
  omega

/-! ## User bytes -/

theorem SameDir.userFrame (h : SameDir m m' d) : Vm.userFrame m' d va = Vm.userFrame m d va := by
  unfold Vm.userFrame
  rw [h.entry (pdx_lt va)]

theorem userFrame_some (h : userFrame m d va = some f) (hva : va < KERNBASE) :
    ∃ w, pdx va < 512 ∧ ptx va < 1024 ∧ entry m d (pdx va) (ptx va) = some w ∧ present w = true ∧
      pteAddr w = f := by
  unfold userFrame at h
  split at h
  · rename_i w he
    split at h
    · rename_i hw
      cases h
      exact ⟨w, pdx_user hva, ptx_lt va, he, hw, rfl⟩
    · cases h
  · cases h

theorem userFrame_use (h : userFrame m d va = some f) (hva : va < KERNBASE) :
    0 < userUse m d f := by
  obtain ⟨w, hi, hj, he, hw, rfl⟩ := userFrame_some h hva
  exact userUse_pos hi hj he hw

theorem userFrame_inj {va' : Nat} (hle : userUse m d f ≤ 1) (h : userFrame m d va = some f)
    (hva : va < KERNBASE) (h' : userFrame m d va' = some f) (hva' : va' < KERNBASE) :
    pgrounddown va' = pgrounddown va := by
  obtain ⟨w, hi, hj, he, hw, hf⟩ := userFrame_some h hva
  obtain ⟨w', hi', hj', he', hw', hf'⟩ := userFrame_some h' hva'
  have hpair : (pdx va, ptx va) = (pdx va', ptx va') := by
    unfold userUse at hle
    refine Count.eq_of_sum_le_one hle (mem_userPages.2 ⟨hi, hj⟩) (mem_userPages.2 ⟨hi', hj'⟩) ?_ ?_
    · simp [he, entryUse, hw, hf]
    · simp [he', entryUse, hw', hf']
  have h1 := congrArg Prod.fst hpair
  have h2 := congrArg Prod.snd hpair
  simp only [pdx, ptx, pgrounddown, KERNBASE, PGSIZE] at *
  omega

theorem userFrame_mapping (hva : va < KERNBASE) :
    userFrame m d va = (mapping m d (va / PGSIZE)).map pteAddr := by
  have hdx : pdx va = va / PGSIZE / 1024 := by unfold pdx PGSIZE KERNBASE at *; omega
  have htx : ptx va = va / PGSIZE % 1024 := by unfold ptx PGSIZE KERNBASE at *; omega
  unfold userFrame mapping pageEnt
  rw [hdx, htx]
  cases entry m d (va / PGSIZE / 1024) (va / PGSIZE % 1024) with
  | none => rfl
  | some w =>
    simp only [Option.getD_some]
    split <;> rfl

/-- Only user bytes of `d` in `[lo, hi)` were written. -/
structure Wrote (s s' : Kernel) (d lo hi : Nat) : Prop where
  state : s' = { s with mem := s'.mem }
  same : SameDir s.mem s'.mem d
  mem : ∀ f o, s'.mem f o ≠ s.mem f o → ∃ va, lo ≤ va ∧ va < hi ∧ userFrame s.mem d va = some f ∧
    va % PGSIZE = o

theorem SameDir.refl : SameDir m m d := ⟨rfl, fun _ _ _ => rfl⟩

theorem SameDir.comp {m'' : Nat → Store} (h : SameDir m m' d) (h' : SameDir m' m'' d) :
    SameDir m m'' d := by
  refine ⟨h'.dir.trans h.dir, fun i hi hp => ?_⟩
  have h2 := h'.table i hi (by rw [h.ent]; exact hp)
  rw [h.ent] at h2
  exact h2.trans (h.table i hi hp)

theorem Wrote.refl : Wrote s s d lo hi := ⟨rfl, .refl, fun _ _ h => absurd rfl h⟩

theorem Wrote.mono (h : Wrote s s' d lo hi) (hlo : i ≤ lo) (hhi : hi ≤ j) : Wrote s s' d i j :=
  ⟨h.state, h.same, fun f o hne => by
    obtain ⟨va, h1, h2, h3⟩ := h.mem f o hne
    exact ⟨va, by omega, by omega, h3⟩⟩

theorem Wrote.comp (h : Wrote s s' d lo hi) (h' : Wrote s' s'' d lo hi) : Wrote s s'' d lo hi := by
  refine ⟨?_, h.same.comp h'.same, fun f o hne => ?_⟩
  · rw [h'.state, h.state]
  · by_cases hlate : s''.mem f o = s'.mem f o
    · exact h.mem f o (hlate ▸ hne)
    · obtain ⟨va, h1, h2, h3, h4⟩ := h'.mem f o hlate
      exact ⟨va, h1, h2, h.same.userFrame ▸ h3, h4⟩

theorem dirUse_userFrame (hva : va < KERNBASE) (h : userFrame m d va = some f) :
    0 < dirUse m d f := by
  rw [userFrame_mapping hva, Option.map_eq_some_iff] at h
  obtain ⟨w, hw, rfl⟩ := h
  have := userUse_mapping (by unfold KERNBASE PGSIZE at *; omega) hw
  unfold dirUse
  omega

theorem Wrote.touched (h : Wrote s s' d lo hi) (hhi : hi ≤ KERNBASE) : Touched s s' d := by
  refine ⟨⟨⟨fun f => ?_, fun f hf => ?_, ?_, ?_, ?_⟩, ?_, ?_, ?_, ?_, ?_⟩, h.same⟩
  · rw [h.same.dirUse, h.state]
    rfl
  · funext o
    by_contra hne
    obtain ⟨va, -, h2, h3, -⟩ := h.mem f o hne
    have := dirUse_userFrame (by omega) h3
    omega
  all_goals rw [h.state]

theorem Wrote.byte (h : Wrote s s' d lo hi) (hs : Solo s.mem d) (hhi : hi ≤ KERNBASE)
    (hva : va < KERNBASE) (hout : va < lo ∨ hi ≤ va) :
    userByte s'.mem d va = userByte s.mem d va := by
  unfold userByte
  rw [h.same.userFrame]
  cases hf : userFrame s.mem d va with
  | none => rfl
  | some f =>
    rw [Option.map_some, Option.map_some]
    congr 1
    by_contra hne
    obtain ⟨a, h1, h2, h3, h4⟩ := h.mem f _ hne
    have hle : userUse s.mem d f ≤ 1 := by
      have := hs f
      unfold dirUse at this
      omega
    have := userFrame_inj hle hf hva h3 (by omega)
    unfold pgrounddown PGSIZE at *
    omega

theorem SameDir.solo (h : SameDir m m' d) (hs : Solo m d) : Solo m' d := fun f => by
  rw [h.dirUse]
  exact hs f

theorem wrote_setBytes (o : Nat) (bs : List UInt8) (hs : Solo s.mem d) (hx : x < 2 ^ 19)
    (hm : mapping s.mem d x = some w)
    (hlen : o + bs.length ≤ PGSIZE) : ∃ s', setBytes (pteAddr w) o bs s = .ok ((), s') ∧
      Wrote s s' d (x * PGSIZE + o) (x * PGSIZE + o + bs.length) ∧
      ∀ j < bs.length, userByte s'.mem d (x * PGSIZE + o + j) = some (bs.getD j 0) := by
  have hframe : ∀ j < PGSIZE, userFrame s.mem d (x * PGSIZE + j) = some (pteAddr w) := fun j hj => by
    rw [userFrame_mapping (by unfold KERNBASE PGSIZE at *; omega),
      show (x * PGSIZE + j) / PGSIZE = x by unfold PGSIZE at *; omega, hm]
    rfl
  have hsame := fun q => hs.same_user (p := q) (by omega) (by omega) (entry_of_mapping hm)
    (mapping_some.1 hm).2
  refine ⟨_, rfl, ⟨rfl, hsame _, fun f o' hne => ?_⟩, fun j hj => ?_⟩
  · by_cases hf : f = pteAddr w
    · subst hf
      simp only [Function.update_self, copy] at hne
      split at hne
      · refine ⟨x * PGSIZE + o', by omega, by omega, hframe o' (by omega), ?_⟩
        unfold PGSIZE at *
        omega
      · exact absurd rfl hne
    · simp only [Function.update_of_ne hf] at hne
      exact absurd rfl hne
  · rw [userByte, (hsame _).userFrame, Nat.add_assoc, hframe (o + j) (by omega), Option.map_some]
    congr 1
    simp only [Function.update_self, copy]
    rw [if_pos (by unfold PGSIZE at *; omega),
      show 0 + ((x * PGSIZE + (o + j)) % PGSIZE - o) = j by unfold PGSIZE at *; omega]

/-- The bytes that `loaduvm` reads, in `n` pages from offset `i` on. -/
def Image.segment (img : Image) (offset sz : Nat) : Nat → Nat → Option (List UInt8)
  | 0, _ => some []
  | n + 1, i =>
    let m := if sz - i < PGSIZE then sz - i else PGSIZE
    match img.read ((offset + i) % UINT) m with
    | none => none
    | some bs => if bs.length = m then (img.segment offset sz n (i + PGSIZE)).map (bs ++ ·) else none

/-- **The loop of `loaduvm`** finds the pages of the range, and fills them with the bytes of the
file. -/
theorem loadLoop_total (img : Image) (offset sz n i : Nat) (hs : Solo s.mem d)
    (hmap : ∀ x, addr ≤ x * PGSIZE → x * PGSIZE < addr + sz → ∃ w, mapping s.mem d x = some w)
    (hk : addr + sz ≤ KERNBASE) (haddr : addr % PGSIZE = 0) (hi : i % PGSIZE = 0)
    (hn : sz ≤ i + n * PGSIZE) (hn' : i + n * PGSIZE < sz + PGSIZE) :
    ∃ r s', loadLoop d addr img.reader offset sz n i s = .ok (r, s') ∧
      Wrote s s' d (addr + i) (addr + sz) ∧ r = (img.segment offset sz n i).isSome ∧
      ∀ data, img.segment offset sz n i = some data → data.length = sz - i ∧
        ∀ j < sz - i, userByte s'.mem d (addr + i + j) = some (data.getD j 0) := by
  induction n generalizing i s with
  | zero =>
    refine ⟨true, s, rfl, .refl, rfl, fun data h => ?_⟩
    cases h
    exact ⟨by simp; omega, fun j hj => by omega⟩
  | succ n ih =>
    have hi' : (addr + i) % PGSIZE = 0 := by unfold PGSIZE at *; omega
    have hlt : i < sz := by unfold PGSIZE at *; omega
    obtain ⟨x, hx⟩ : ∃ x, addr + i = x * PGSIZE := ⟨(addr + i) / PGSIZE, by
      unfold PGSIZE at *
      omega⟩
    have hx19 : x < 2 ^ 19 := by unfold KERNBASE PGSIZE at *; omega
    obtain ⟨h1, h2⟩ := pdx_page (x := x) (by omega)
    obtain ⟨w, hw⟩ := hmap x (by omega) (by omega)
    obtain ⟨hp, hent⟩ := entry_isSome (entry_of_mapping hw)
    have hwalk : walkpgdir d ((addr + i) % UINT) false s =
        .ok (some (pteAddr (ent s.mem d (x / 1024)), x % 1024), s) := by
      rw [show (addr + i) % UINT = x * PGSIZE by unfold KERNBASE UINT at *; omega, walk_run, h1, h2,
        if_pos hp]
    generalize hm : (if sz - i < PGSIZE then sz - i else PGSIZE) = len
    have hlen : len ≤ PGSIZE ∧ len ≤ sz - i ∧ (sz - i ≤ PGSIZE → len = sz - i) ∧
        (PGSIZE ≤ sz - i → len = PGSIZE) := by
      rw [← hm]
      split <;> omega
    have hstep : loadLoop d addr img.reader offset sz (n + 1) i s =
        (match img.read ((offset + i) % UINT) len with
        | none => pure false
        | some bs => do
          setBytes (pteAddr w) 0 bs
          if bs.length ≠ len then return false
          loadLoop d addr img.reader offset sz n (i + PGSIZE) : KM Bool) s := by
      rw [loadLoop, bind_run hwalk]
      simp only
      rw [bind_run load_run, ← hent]
      subst hm
      rfl
    rw [hstep, Image.segment, hm]
    cases hrd : img.read ((offset + i) % UINT) len with
    | none => exact ⟨false, s, rfl, .refl, rfl, (by simp)⟩
    | some bs =>
      have hbs := img.read_le _ _ _ hrd
      obtain ⟨s1, hset, hwr, hdata⟩ := wrote_setBytes 0 bs hs hx19 hw (by omega)
      rw [Nat.add_zero, ← hx] at hwr hdata
      simp only
      rw [bind_run hset]
      by_cases hfull : bs.length = len
      · rw [if_neg (not_not_intro hfull), if_pos hfull]
        obtain ⟨r, s', hrun, hwr', hr, hseg⟩ := ih (i := i + PGSIZE) (s := s1) (hwr.same.solo hs)
          (fun y hy hy' => by
            rw [hwr.same.mapping (by unfold KERNBASE PGSIZE at *; omega)]
            exact hmap y hy hy')
          (by unfold PGSIZE at *; omega) (by unfold PGSIZE at *; omega)
          (by unfold PGSIZE at *; omega)
        refine ⟨r, s', hrun, (hwr.mono (le_refl _) (by omega)).comp
          (hwr'.mono (by omega) (le_refl _)), ?_, fun data hdat => ?_⟩
        · rw [hr, Option.isSome_map]
        · obtain ⟨rest, hrest, rfl⟩ := Option.map_eq_some_iff.1 hdat
          obtain ⟨hlr, hbr⟩ := hseg rest hrest
          refine ⟨by rw [List.length_append]; unfold PGSIZE at *; omega, fun j hj => ?_⟩
          by_cases hjl : j < bs.length
          · rw [hwr'.byte (hwr.same.solo hs) hk (by omega)
              (.inl (by unfold PGSIZE at *; omega)), hdata j hjl, List.getD_append _ _ _ _ hjl]
          · have hjp : PGSIZE ≤ j := by omega
            have := hbr (j - PGSIZE) (by omega)
            rw [show addr + (i + PGSIZE) + (j - PGSIZE) = addr + i + j by omega] at this
            rw [this, List.getD_append_right _ _ _ _ (by omega),
              show bs.length = PGSIZE by omega]
      · rw [if_pos hfull, if_neg hfull]
        exact ⟨false, s1, rfl, hwr.mono (le_refl _) (by omega), rfl, (by simp)⟩

/-! ## Contents of the user pages -/

/-- The user pages of `d` are those below `PGROUNDUP(sz)`, for reading and writing. -/
structure Spaced (m : Nat → Store) (d sz : Nat) : Prop where
  page : ∀ x < pageCount sz, ∃ f, mapping m d x = some (userPte f)
  rest : ∀ x, pageCount sz ≤ x → x < 2 ^ 19 → mapping m d x = none

/-- The user bytes of `d` are `c`, with zeros behind the last page. -/
structure Holds (m : Nat → Store) (d sz : Nat) (c : Nat → UInt8) : Prop extends Spaced m d sz where
  byte : ∀ va < pageCount sz * PGSIZE, userByte m d va = some (c va)
  zero : ∀ va, pageCount sz * PGSIZE ≤ va → c va = 0

/-- Pages may be added to the user part of `d`, and the kernel part has its page tables. -/
structure Extended (s s' : Kernel) (d : Nat) : Prop extends Grown s s' d where
  hist : s'.hist = s.hist
  kernel : ∀ i, 512 ≤ i → ent s'.mem d i = ent s.mem d i

theorem Extended.refl : Extended s s d := ⟨.refl, rfl, fun _ _ => rfl⟩

theorem Extended.comp (h : Extended s s' d) (h' : Extended s' s'' d) : Extended s s'' d :=
  ⟨h.toGrown.comp h'.toGrown, h'.hist.trans h.hist,
    fun i hi => (h'.kernel i hi).trans (h.kernel i hi)⟩

theorem Resized.kept (h : Resized s s' d x y) : Extended s s' d :=
  ⟨h.toGrown, h.hist, fun i hi => h.pde i (.inl hi)⟩

theorem Wrote.kept (h : Wrote s s' d lo hi) (hhi : hi ≤ KERNBASE) : Extended s s' d :=
  ⟨(h.touched hhi).grown, by rw [h.state], fun _ _ => h.same.ent⟩

theorem Resized.byte (h : Resized s s' d x y) (hva : va < KERNBASE)
    (hout : va / PGSIZE < x ∨ y ≤ va / PGSIZE) : userByte s'.mem d va = userByte s.mem d va := by
  have hz : va / PGSIZE < 2 ^ 19 := by unfold KERNBASE PGSIZE at *; omega
  unfold userByte
  rw [userFrame_mapping hva, userFrame_mapping hva, h.mapping hz hout]
  cases hm : Vm.mapping s.mem d (va / PGSIZE) with
  | none => rfl
  | some w => rw [Option.map_some, Option.map_some, Option.map_some, h.data _ hz hout w hm]

theorem KernelDir.holds (h : KernelDir m d) : Holds m d 0 fun _ => 0 :=
  ⟨⟨fun x hx => absurd hx (Nat.not_lt_zero x), fun x _ hx => h.unmapped hx⟩, fun va hva =>
  absurd hva (by show ¬ va < 0 * PGSIZE; omega), fun _ _ => rfl⟩

theorem allocuvm_holds (newsz : Nat) (ho : Own s (dirUse s.mem d)) (h : Holds s.mem d sz c) :
    Ends (allocuvm L d sz newsz) s (fun r s' => Extended s s' d ∧
      (r ≠ 0 → newsz < KERNBASE ∧ r = max sz newsz ∧ Holds s'.mem d r c))
      fun _ => ¬ Within L s (dirUse s.mem d) := by
  refine (allocuvm_ends newsz ho).mono (fun r s' ha => ?_) fun _ =>
    mt fun hw => ⟨hw, fun _ z hz => h.rest z hz⟩
  cases ha with
  | refused hn hs =>
    subst hs
    exact ⟨.refl, fun h0 => absurd rfl h0⟩
  | smaller hn hlt hs =>
    subst hs
    exact ⟨.refl, fun _ => ⟨hn, by omega, h⟩⟩
  | failed hn hlt hr hgone => exact ⟨hr.kept, fun h0 => absurd rfl h0⟩
  | grown hn hle hr hf =>
    have hmono := pageCount_mono hn.le hle
    have hcount := (pageCount_spec hn.le).2.1
    refine ⟨hr.kept, fun _ => ⟨hn, by omega, ⟨⟨fun x hx => ?_, fun x hx hlt => ?_⟩, fun va hva => ?_,
      fun va hva => h.zero va (Nat.le_trans (Nat.mul_le_mul_right _ hmono) hva)⟩⟩⟩
    · by_cases hold : x < pageCount sz
      · rw [hr.mapping (by omega) (.inl hold)]
        exact h.page x hold
      · obtain ⟨f, -, hm, -⟩ := hf x (by omega) hx
        exact ⟨f, hm⟩
    · rw [hr.mapping hlt (.inr hx)]
      exact h.rest x (by omega) hlt
    · have hva' : va < KERNBASE := hva.trans_le (Nat.mul_le_mul_right PGSIZE hcount)
      have hdiv : va / PGSIZE < pageCount newsz := Nat.div_lt_of_lt_mul (Nat.mul_comm _ _ ▸ hva)
      by_cases hold : va / PGSIZE < pageCount sz
      · rw [hr.byte hva' (.inl hold)]
        exact h.byte va (Nat.lt_mul_of_div_lt hold (by decide))
      · obtain ⟨f, -, hm, hz⟩ := hf (va / PGSIZE) (by omega) hdiv
        rw [userByte, userFrame_mapping hva', hm, Option.map_some, Option.map_some,
          pteAddr_userPte, hz, h.zero va ((Nat.le_div_iff_mul_le (by decide)).1 (by omega))]
        rfl

/-! ## The segments of a file -/

structure Segment where
  vaddr : Nat
  memsz : Nat
  data : List UInt8

def Segment.Valid (g : Segment) : Prop :=
  g.data.length ≤ g.memsz ∧ g.vaddr + g.memsz < KERNBASE ∧ g.vaddr % PGSIZE = 0

def Segment.put (g : Segment) (c : Nat → UInt8) (va : Nat) : UInt8 :=
  if g.vaddr ≤ va ∧ va < g.vaddr + g.data.length then g.data.getD (va - g.vaddr) 0 else c va

def layout (segs : List Segment) (c : Nat → UInt8) : Nat → UInt8 :=
  segs.foldl (fun c g => g.put c) c

def topOf (segs : List Segment) (sz : Nat) : Nat :=
  segs.foldl (fun sz g => max sz (g.vaddr + g.memsz)) sz

def Image.segments (img : Image) : Nat → Nat → Option (List Segment)
  | 0, _ => some []
  | n + 1, off =>
    match img.readAll off PROGHDR with
    | none => none
    | some ph =>
      if get32 ph 0 ≠ ELF_PROG_LOAD then img.segments n ((off + PROGHDR) % UINT)
      else
        match img.segment (get32 ph 4) (get32 ph 16) ((get32 ph 16 + PGSIZE - 1) / PGSIZE) 0 with
        | none => none
        | some data =>
          (img.segments n ((off + PROGHDR) % UINT)).map (⟨get32 ph 8, get32 ph 20, data⟩ :: ·)

theorem readAll_run {img : Image} {off : Nat} :
    img.reader.readAll off n s = .ok (img.readAll off n, s) := rfl

theorem loaduvm_holds (img : Image) (offset : Nat) (hs : Solo s.mem d) (h : Holds s.mem d sz c)
    (hk : sz < KERNBASE)
    (haddr : addr % PGSIZE = 0) (hle : addr + n ≤ sz) :
    ∃ r s', loaduvm d addr img.reader offset n s = .ok (r, s') ∧ Wrote s s' d addr (addr + n) ∧
      (r = true → ∃ data, img.segment offset n ((n + PGSIZE - 1) / PGSIZE) 0 = some data ∧
        data.length = n ∧ ∀ memsz, Holds s'.mem d sz (Segment.put ⟨addr, memsz, data⟩ c)) := by
  obtain ⟨h1, h2, h3⟩ := pageCount_spec hk.le
  obtain ⟨hb, -⟩ := pgroundup_bounds hk.le
  obtain ⟨r, s', hrun, hwr, hr, hdata⟩ := loadLoop_total img offset n ((n + PGSIZE - 1) / PGSIZE) 0
    hs (fun x hx hx' => by
      obtain ⟨f, hf⟩ := h.page x ((h3 x).1 (by omega))
      exact ⟨_, hf⟩) (by omega) haddr rfl (by unfold PGSIZE; omega) (by unfold PGSIZE; omega)
  rw [Nat.add_zero] at hwr
  refine ⟨r, s', ?_, hwr, fun hrt => ?_⟩
  · rw [loaduvm, if_neg (not_not_intro haddr)]
    exact hrun
  · rw [hrt] at hr
    obtain ⟨data, hsome⟩ := Option.isSome_iff_exists.1 hr.symm
    obtain ⟨hlen, hbytes⟩ := hdata data hsome
    rw [Nat.sub_zero] at hlen
    rw [h1] at hb
    refine ⟨data, hsome, hlen, fun memsz => ⟨⟨fun x hx => ?_, fun x hx hlt => ?_⟩, fun va hva => ?_,
      fun va hva => ?_⟩⟩
    · rw [hwr.same.mapping (by omega)]
      exact h.page x hx
    · rw [hwr.same.mapping hlt]
      exact h.rest x hx hlt
    · by_cases hin : addr ≤ va ∧ va < addr + n
      · have := hbytes (va - addr) (by omega)
        rw [Nat.add_zero, Nat.add_sub_cancel' hin.1] at this
        rw [this, Segment.put, if_pos (by rw [hlen]; exact hin)]
      · rw [hwr.byte hs (by omega) (by unfold KERNBASE PGSIZE at *; omega) (by omega), h.byte va hva,
          Segment.put, if_neg (by rw [hlen]; exact hin)]
    · rw [Segment.put, if_neg (by simp only [hlen]; omega)]
      exact h.zero va hva

/-- **The segment loop of `exec`** returns, and on success has put the segments of the file into
memory that reaches to the end of the highest. -/
theorem loadSegs_ends (img : Image) (n off : Nat) (ho : Own s (dirUse s.mem d))
    (h : Holds s.mem d sz c) (hk : sz < KERNBASE) :
    Ends (loadSegs L d img.reader n off sz) s (fun r s' => Extended s s' d ∧ ∀ k, r = some k →
      ∃ segs, img.segments n off = some segs ∧ (∀ g ∈ segs, g.Valid) ∧ k = topOf segs sz ∧
        k < KERNBASE ∧ Holds s'.mem d k (layout segs c)) fun _ => ¬ Within L s (dirUse s.mem d) := by
  induction n generalizing off sz s c with
  | zero =>
    exact .of_pure ⟨.refl, fun k hk' => by cases hk'; exact ⟨[], rfl, (by simp), rfl, hk, h⟩⟩
  | succ n ih =>
    refine .run readAll_run ?_
    rw [Image.segments]
    cases img.readAll off PROGHDR with
    | none => exact .of_pure ⟨.refl, nofun⟩
    | some ph =>
      have hv := get32_lt ph 8
      have hm := get32_lt ph 20
      simp only
      generalize get32 ph 8 = vaddr at *
      generalize get32 ph 20 = memsz at *
      generalize get32 ph 16 = filesz at *
      refine .ite (fun hload => ?_) fun hload => .ite (fun _ => .of_pure ⟨.refl, nofun⟩) fun hmf =>
        .ite (fun _ => .of_pure ⟨.refl, nofun⟩) fun hwrap => ?_
      · rw [if_pos hload]
        exact ih _ ho h hk
      rw [if_neg hload, show (vaddr + memsz) % UINT = vaddr + memsz by unfold UINT at *; omega]
      refine (allocuvm_holds (vaddr + memsz) ho h).bind fun r1 s1 ⟨hext, hres⟩ =>
        .ite (fun _ => .of_pure ⟨hext, nofun⟩) fun hz =>
        .ite (fun _ => .of_pure ⟨hext, nofun⟩) fun haln => ?_
      obtain ⟨hlt, hr1, hholds⟩ := hres hz
      obtain ⟨r2, s2, hld, hwr, hdata⟩ := loaduvm_holds img (get32 ph 4) (n := filesz)
        (ho.trans hext.trans).solo hholds (by omega) (not_not.1 haln) (by omega)
      have hext2 := hext.comp (hwr.kept (by omega))
      refine .run hld ?_
      cases r2 with
      | false => exact .of_pure ⟨hext2, nofun⟩
      | true =>
        obtain ⟨data, hseg, hlen, hholds2⟩ := hdata rfl
        refine (ih ((off + PROGHDR) % UINT) (ho.trans hext2.trans) (hholds2 memsz) (by omega)).mono
          (fun r s' ⟨hext', hall⟩ => ⟨hext2.comp hext', fun k hk' => ?_⟩)
          fun _ => mt fun hw => hw.trans hext2.trans
        obtain ⟨segs, hsegs, hval, htop, hkk, hlay⟩ := hall k hk'
        refine ⟨⟨vaddr, memsz, data⟩ :: segs, ?_, fun g hg => ?_, ?_, hkk, hlay⟩
        · rw [hseg]
          simp only [hsegs, Option.map_some]
        · rcases List.mem_cons.1 hg with rfl | hg
          · exact ⟨by simp only [hlen]; omega, hlt, not_not.1 haln⟩
          · exact hval g hg
        · rw [htop, topOf, topOf, List.foldl_cons, hr1]

end Vm
