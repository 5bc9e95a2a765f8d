import Mathlib.Algebra.BigOperators.Group.Finset.Piecewise
import Xv6.Vm.Proof.Segments

/-!
# `exec` and the null entry

The address 0 of the calling process holds an entry for its own page table `t`, and an argument string of
`0x2404FFF` bytes makes `exec` copy to `0xFDBFF000`, where the new directory has no page table. Then the
first page of the string replaces `t`, and `exec` fails (`Prepared.strikes`). As long as `uva2ka` does not
read through a null entry pointer, address spaces are isolated (`address_spaces_isolated`).

The string can map a free page at the address 0 (`Struck.dirUse_le`). The next `exec` uses that page
for the new program and frees it with the old memory (`struck_launches`). After `main` the free list
descends, so the process can choose how far it grows such that no byte of the entry is 0
(`armed_named`).
-/

namespace Vm

open Bytes Panic Param Finset Function

variable {s s' s'' : Kernel} {d f g i j k n t w pg va F a0 a1 a2 a3 a4 : Nat} {a path : List UInt8}
  {fl : List Nat}

/-! ## The page table is overwritten -/

/-- `exec` has failed after the first page of the string `bs` was copied over the page table `t`. -/
structure Struck (s s' : Kernel) (t : Nat) (bs : List UInt8) : Prop where
  proc : s'.proc = s.proc
  hist : s'.hist = .nullPte :: s.hist
  count : ∀ f, pool s' f = pool s f
  mem : ∀ f, pool s f = 0 → f ≠ t → s'.mem f = s.mem f
  table : ∀ j < 1024, ent s'.mem t j = get32 (fun i => bs.getD i 0) (4 * j)

theorem Prepared.freed_order {L : Layout} {s0 : Kernel} {u : Unit} (hp : Prepared L s0 s' pg a0 a2 a3 a4)
    (hsame : SameDir s'.mem s.mem pg) (ho : Own s (dirUse s.mem pg))
    (h : freevm L (some pg) s = .ok (u, s'')) :
    ∃ l x, s''.freelist = l ++ x :: a4 :: a3 :: a2 :: a0 :: s.freelist := by
  have hmap : ∀ z < 2 ^ 19, mapping s.mem pg z = mapping s'.mem pg z := fun z hz => hsame.mapping hz
  obtain ⟨w, hw, hguard⟩ := hp.guard
  have hpages : ∀ i v, [userPte a0, userPte a2, w,
      userPte a4][i]? = some v → mapping s.mem pg i = some v := by
    intro i v hv
    rcases i with _ | _ | _ | _ | i
    · exact (hmap 0 (by decide)).trans (hp.first.trans hv)
    · exact (hmap 1 (by decide)).trans (hp.second.trans hv)
    · exact (hmap 2 (by decide)).trans (hw.trans hv)
    · exact (hmap 3 (by decide)).trans (hp.stack.trans hv)
    · cases hv
  obtain ⟨l, x, hl⟩ := freevm_pushes ho hpages
    (fun z hz hlt => (hmap z hlt).trans (hp.rest z hz hlt)) (by simp only [List.length_cons]; decide)
    (by rw [hsame.ent]; exact (entry_isSome (entry_of_mapping hp.first)).1) h
  refine ⟨l, x, ?_⟩
  rw [hl]
  simp only [List.map_cons, List.map_nil, pteAddr_userPte, hguard]
  rfl

theorem Prepared.strikes (hp : Prepared smallLayout s s' pg a0 a2 a3 a4) (h : Armed smallLayout s d t g n)
    (hword : ent s.mem g 0 = userPte t) (ha : a.length + 1 = 0x2405000) :
    ∃ s'', Steady (pushArgs smallLayout d pg [a] 0 (4 * PGSIZE) []) s' none (overwrite s' t (a ++ [0])) ∧
      Steady (freevm smallLayout (some pg)) (overwrite s' t (a ++ [0])) () s'' ∧
      Struck s s'' t (a ++ [0]) ∧ ∃ l x, s''.freelist =
      l ++ x :: a4 :: a3 :: a2 :: a0 :: s'.freelist := by
  obtain ⟨-, hut, -⟩ := h.uses
  have haim := h.aimed hword hp.trans
  have hlen : PGSIZE < (a ++ [0]).length := by
    rw [List.length_append, List.length_singleton, ha]
    decide
  have hgap : present (ent s'.mem pg 1014) = false :=
    Bool.eq_false_of_not_eq_true (mt (hp.kernel 1014 (by decide)).1 kmap_covers.1)
  have hvram := (hp.kernel 1015 (by decide)).2 kmap_covers.2
  have hcopy := copyout_null haim hgap hvram hp.clean hlen
  have hown : Own s' (dirUse s'.mem pg) := h.own_none.trans hp.trans
  have hwithin : Within smallLayout s' (dirUse s'.mem pg) :=
    (h.within.mono fun _ => Nat.zero_le _).trans hp.trans
  obtain ⟨s'', hfree, hhist, htr⟩ := freevm_overwrite (a ++ [0]) hown hwithin haim.other
  refine ⟨s'', ?_, hfree, ⟨htr.proc.trans hp.trans.proc, ?_, fun f => ?_, fun f hf hne => ?_,
    fun j hj => ?_⟩, ?_⟩
  · have hsp : (4 * PGSIZE + UINT - (a.length + 1) % UINT) % UINT / 4 * 4 = 0xFDBFF000 := by
      rw [ha]
      decide
    unfold pushArgs
    rw [if_neg (by decide), hsp]
    exact hcopy.bind fun _ => rfl
  · rw [hhist, hp.hist]
  · have h1 : pool s f + 0 = pool s' f + dirUse s'.mem pg f := hp.trans.count f
    have h2 : pool (overwrite s' t (a ++ [0])) f + dirUse s'.mem pg f = pool s'' f + 0 := htr.count f
    rw [pool_overwrite] at h2
    omega
  · have h1 : pool s f + 0 = pool s' f + dirUse s'.mem pg f := hp.trans.count f
    rw [htr.mem f (by rw [pool_overwrite]; omega)]
    exact (update_of_ne hne ..).trans (hp.trans.mem f (by omega))
  · have h1 := (h.keeps hp.trans hut).2
    rw [ent_congr (htr.mem t (by rw [pool_overwrite]; omega))]
    exact overwrite_word hj hlen.le
  · have hsame : SameDir s'.mem (overwrite s' t (a ++ [0])).mem pg := sameDir_overwrite haim.other
    have hown' : Own (overwrite s' t (a ++ [0])) (dirUse (overwrite s' t (a ++ [0])).mem pg) := by
      rw [show dirUse (overwrite s' t (a ++ [0])).mem pg = dirUse s'.mem pg from
        funext fun f => hsame.dirUse]
      exact ⟨fun f => hown.le_one f, fun f => hown.lt f⟩
    have hfl := hp.freed_order hsame hown' (hfree s'.fail)
    exact hfl

section
variable (hs : Struck s s' t a) (h : Armed smallLayout s d t g n)
include hs h

theorem Struck.kept (hf : 0 < dirUse s.mem d f) (hne : f ≠ t) : s'.mem f = s.mem f := by
  have := h.own.le_one f
  exact hs.mem f (by omega) hne

theorem Struck.pde : ent s'.mem d i = ent s.mem d i := by
  obtain ⟨ht, -, -⟩ := h.uses
  refine ent_congr (hs.kept h dirUse_self fun hdt => ?_)
  exact h.own.solo.table_ne (by decide) (by rw [h.pde, present_mkPte]) (ht.trans hdt.symm)

theorem Struck.low (hj : j < 1024) : entry s'.mem d 0 j = some (get32 (fun i => a.getD i 0) (4 * j)) := by
  obtain ⟨ht, -, -⟩ := h.uses
  have hp : present (ent s'.mem d 0) = true := by rw [hs.pde h, h.pde, present_mkPte]
  rw [entry_eq hp, hs.pde h, ht, hs.table j hj]

theorem Struck.high (hi : 0 < i) (hi' : i < NPDENTRIES) : entry s'.mem d i j = entry s.mem d i j := by
  obtain ⟨ht, -, -⟩ := h.uses
  unfold entry
  rw [hs.pde h]
  split
  · rename_i hp
    refine congrArg some (ent_congr (hs.kept h (dirUse_table hi' hp) fun hne => ?_))
    have := h.own.solo.table_inj hi' (by decide) hp (by rw [h.pde, present_mkPte]) (hne.trans ht.symm)
    omega
  · rfl

theorem Struck.byte (hlo : 2 ^ 22 ≤ va) (hhi : va < KERNBASE) :
    userByte s'.mem d va = userByte s.mem d va := by
  obtain ⟨ht, -, -⟩ := h.uses
  have hpos : 0 < pdx va := by
    unfold pdx KERNBASE at *
    omega
  have hframe : userFrame s'.mem d va = userFrame s.mem d va := by
    unfold userFrame
    rw [hs.high h hpos (pdx_lt va)]
  unfold userByte
  rw [hframe]
  cases hf : userFrame s.mem d va with
  | none => rfl
  | some f =>
    have hne : f ≠ t := by
      have hmap := hf
      rw [userFrame_mapping hhi, Option.map_eq_some_iff] at hmap
      obtain ⟨w, hw, rfl⟩ := hmap
      have hx : va / PGSIZE < 2 ^ 19 := by
        unfold KERNBASE PGSIZE at *
        omega
      have huser := (h.own.solo.user_ne (by omega) (by omega)
        (entry_of_mapping hw) (mapping_some.1 hw).2).2 0 (by decide) (by rw [h.pde, present_mkPte])
      rw [ht] at huser
      exact huser.symm
    rw [Option.map_some, Option.map_some, hs.kept h (dirUse_userFrame hhi hf) hne]

theorem Struck.dirUse_le (hw : get32 (fun i => a.getD i 0) 0 = w) (hF : pteAddr w = F)
    (hrest : ∀ j, 0 < j → j < 1024 → present (get32 (fun i => a.getD i 0) (4 * j)) = false) :
    dirUse s'.mem d f ≤ dirUse s.mem d f + one F f := by
  have htab : tableUse s'.mem d f = tableUse s.mem d f := sum_congr rfl fun i _ => by rw [hs.pde h]
  have huser : userUse s'.mem d f ≤ userUse s.mem d f + one F f := by
    have hle : ∀ x ∈ userPages, entryUse (entry s'.mem d x.1 x.2) f ≤
        entryUse (entry s.mem d x.1 x.2) f + if x = (0, 0) then one F f else 0 := fun x hx => by
      obtain ⟨h1, h2⟩ := mem_userPages.1 hx
      obtain ⟨i, j⟩ := x
      by_cases hi : i = 0
      · subst hi
        rw [hs.low h h2]
        by_cases hj : j = 0
        · subst hj
          rw [if_pos rfl, Nat.mul_zero, hw, entryUse, one, hF]
          split <;> split <;> omega
        · have h0 : entryUse (some (get32 (fun i => a.getD i 0) (4 * j))) f = 0 :=
            if_neg fun hp => by rw [hrest j (by omega) h2] at hp; cases hp.1
          exact h0.le.trans (Nat.zero_le _)
      · have heq : entry s'.mem d i j = entry s.mem d i j :=
          hs.high h (by omega) (by unfold NPDENTRIES; omega)
        exact (congrArg (entryUse · f) heq).le.trans (Nat.le_add_right ..)
    calc userUse s'.mem d f
        ≤ ∑ x ∈ userPages, (entryUse (entry s.mem d x.1 x.2) f + if x = (0, 0) then one F f else 0) :=
          sum_le_sum hle
      _ = userUse s.mem d f + one F f := by
          rw [sum_add_distrib, Finset.sum_ite_eq', if_pos (mem_userPages.2 (by decide))]
          rfl
  unfold dirUse
  omega

end

/-! ## The memory of the process -/

/-- At address 0 there is an entry for the page table `t`, and from 4 MB on the strings `a` and `path`. -/
structure Loaded (s : Kernel) (d t g n : Nat) (a path : List UInt8) : Prop
    extends Armed smallLayout s d t g n where
  word : ent s.mem g 0 = userPte t
  fits : 0x400000 + (a ++ 0 :: (path ++ [0])).length ≤ n * PGSIZE
  byte : ∀ i < (a ++ 0 :: (path ++ [0])).length,
    userByte s.mem d (0x400000 + i) = some ((a ++ 0 :: (path ++ [0])).getD i 0)

theorem Armed.loads (h : Armed smallLayout s d t g n) (a path : List UInt8)
    (hfit : 0x400000 + (a ++ 0 :: (path ++ [0])).length ≤ n * PGSIZE) :
    ∃ s', Loaded s' d t g n a path ∧ s'.freelist = s.freelist := by
  obtain ⟨s1, h1, hfl1, hm1⟩ := h.aims (Nat.pos_of_ne_zero fun h0 => by simp [h0] at hfit)
  obtain ⟨s2, h2, hfl2, hm2⟩ := bytes_armed 0x400000 _ h1 hfit
  have hk := h.sz_lt
  refine ⟨s2, ⟨h2, h2.word h.table_lt fun i hi => ?_, hfit, fun i hi => ?_⟩, hfl2.trans hfl1⟩
  · rw [hm2 i (by unfold KERNBASE; omega), if_neg (by omega), hm1 i hi]
  · rw [hm2 _ (by omega), if_pos ⟨by omega, by omega⟩, Nat.add_sub_cancel_left]

theorem Loaded.argument (h : Loaded s d t g n a path) (h0 : 0 ∉ a) : Fetchstr s 0 a := by
  have hlen : (a ++ 0 :: (path ++ [0])).length = a.length + (path.length + 2) := by simp
  have hfit := h.fits
  refine ⟨d, 0x400000, h.pgdir, by rw [h.sz]; omega, h0, fun i hi => ?_⟩
  rw [h.byte i (by omega), List.append_cons, List.getD_eq_getElem?_getD,
    List.getElem?_append_left (by simp; omega), List.getD_eq_getElem?_getD]

theorem Loaded.fetch (h : Loaded s d t g n a path) (h0 : 0 ∉ path) (hproc : s'.proc = s.proc)
    (hm : ∀ va, 2 ^ 22 ≤ va → va < KERNBASE → userByte s'.mem d va = userByte s.mem d va) :
    Fetchstr s' 0 path := by
  have hlen : (a ++ 0 :: (path ++ [0])).length = a.length + (path.length + 2) := by simp
  have hfit := h.fits
  have hk := h.sz_lt
  refine ⟨d, 0x400000 + (a.length + 1), by rw [hproc]; exact h.pgdir, by rw [hproc, h.sz]; omega, h0,
    fun i hi => ?_⟩
  rw [hm _ (by omega) (by omega), Nat.add_assoc, h.byte _ (by omega), List.getD_eq_getElem?_getD,
    List.getElem?_append_right (by omega), show a.length + 1 + i - a.length = i + 1 by omega,
    List.getElem?_cons_succ, List.getD_eq_getElem?_getD]

theorem Struck.length (hs : Struck s s' t a) (hh : s.hist = []) :
    s'.freelist.length = s.freelist.length := by
  refine List.Perm.length_eq (List.perm_iff_count.2 fun f => ?_)
  have := hs.count f
  simpa [pool, hs.hist, hh] using this

theorem Loaded.strikes (bs : List UInt8) (h : Loaded s d t g n a path) (ha : a.length + 1 = 0x2405000)
    (hfl : s.freelist.drop (kernelPages smallLayout) = a0 :: a1 :: a2 :: a3 :: a4 :: fl) :
    ∃ pg s1 s2 s2' s5 s', Runs (setupkvm smallLayout) s (some pg) s1 ∧
      Runs (allocuvm smallLayout pg 0 (2 * PGSIZE)) s1 (2 * PGSIZE) s2 ∧ Loads s2 s2' pg bs ∧
      Runs (userStack smallLayout d pg (2 * PGSIZE) [a]) s2' none s5 ∧
      Steady (freevm smallLayout (some pg)) s5 () s' ∧
      s1.proc = s.proc ∧ s2'.proc = s.proc ∧ Struck s s' t (a ++ [0]) ∧
      ∃ x, s'.freelist.drop (kernelPages smallLayout) = x :: a4 :: a3 :: a2 :: a0 :: fl := by
  obtain ⟨pg, s1, s2, s2', s3, s4, hset, halloc, hloads, halloc', hclr, hp1, hp2, hfl4, hprep⟩ :=
    program_runs bs h.free h.own_none hfl
  obtain ⟨s', hpush, hfree, hstruck, l, x, hl⟩ := hprep.strikes h.toArmed h.word ha
  have hframe : Runs (pushFrame smallLayout d pg (4 * PGSIZE) [a]) s4 none _ :=
    (hpush.bind fun _ => rfl).runs
  refine ⟨pg, s1, s2, s2', _, s', hset, halloc, hloads, userStack_runs halloc' hclr hframe, hfree,
    hp1, hp2, hstruck, x, ?_⟩
  have hlen : l.length = kernelPages smallLayout := by
    have h1 := hstruck.length h.hist
    have h2 := congrArg List.length hfl
    have h3 := h.free
    have h4 := kernelPages_le (L := smallLayout)
    rw [hl, hfl4, List.length_append] at h1
    rw [List.length_drop] at h2
    simp only [List.length_cons] at h1 h2
    omega
  rw [hl, hfl4, ← hlen, List.drop_left]

/-! ## A page that the string can name -/

theorem suffix_descending {l low : List Nat} {lo i : Nat}
    (h : l <:+ (List.range' lo n).reverse ++ low) (hin : low.length + i < l.length) :
    l[i]? = some (lo + l.length - low.length - 1 - i) := by
  obtain ⟨p, hp⟩ := h
  have hlen : p.length + l.length = n + low.length := by
    have := congrArg List.length hp
    rwa [List.length_append, List.length_append, List.length_reverse, List.length_range'] at this
  have hget : l[i]? = (p ++ l)[p.length + i]? := by
    rw [List.getElem?_append_right (by omega), Nat.add_sub_cancel_left]
  rw [hget, hp, List.getElem?_append_left (by rw [List.length_reverse, List.length_range']; omega),
    List.getElem?_reverse (by rw [List.length_range']; omega), List.length_range',
    List.getElem?_range' (by omega)]
  exact congrArg some (by omega)

structure Named (F : Nat) : Prop where
  high : 4096 ≤ F
  lt : F < 131072
  mid : F / 16 % 256 ≠ 0

theorem armed_named {q : Nat} (hq : q < 5) : ∃ s d t g n F, Armed smallLayout s d t g n ∧ 0x2810 ≤ n ∧
    s.freelist[kernelPages smallLayout + q]? = some F ∧ Named F := by
  obtain ⟨s0, d, hrun, hfirst⟩ := main_runs smallLayout_first
  have hup := up_boot hrun
  obtain ⟨fs, hr⟩ := hrun.run
  obtain ⟨low, hlow, hsuf⟩ := main_order hr
  have hfree := hfirst.free
  have hle := hsuf.length_le
  have hk := kernelPages_le (L := smallLayout)
  rw [List.length_append, List.length_reverse, List.length_range',
    show PHYSTOP / PGSIZE - 1024 = 130048 from rfl] at hle
  simp only at hle
  -- the first page of the list, and the number of pages that brings it to a good place
  obtain ⟨x, hx⟩ : ∃ x, x = 1024 + s0.freelist.length - low.length - 1 := ⟨_, rfl⟩
  obtain ⟨n, hn⟩ : ∃ n, n = 10300 + (x - 14300) % 4096 := ⟨_, rfl⟩
  obtain ⟨s, t, g, harm, hpop, h1, h2⟩ := sbrk_runs (n := n) hup hfirst (by omega) (by omega)
  have hmem := suffix_descending (i := kernelPages smallLayout + q) (hpop.trans hsuf) (by omega)
  exact ⟨s, d, t, g, n + 1, _, harm, by omega, hmem, by omega, by omega, by omega⟩

/-- Copied over a page table, the string `a` maps the page `F` at address 0 and nothing else. -/
structure Names (a : List UInt8) (F : Nat) : Prop where
  length : a.length + 1 = 0x2405000
  nul : 0 ∉ a
  first : get32 (fun i => (a ++ [0]).getD i 0) 0 = F * PGSIZE + 0x707
  rest : ∀ j, 0 < j → j < 1024 → present (get32 (fun i => (a ++ [0]).getD i 0) (4 * j)) = false

theorem word_nul (h : Named F) : 0 ∉ word (F * PGSIZE + 0x707) := by
  have h1 := h.high
  have h2 := h.lt
  have h3 := h.mid
  have hbyte : ∀ k, k % 256 ≠ 0 → (0 : UInt8) ≠ UInt8.ofNat k := fun k hk h => by
    have := congrArg UInt8.toNat h
    rw [UInt8.toNat_ofNat'] at this
    exact hk this.symm
  intro h0
  unfold word at h0
  simp only [List.mem_cons, List.not_mem_nil, or_false] at h0
  rcases h0 with h0 | h0 | h0 | h0
  · exact hbyte _ (by unfold PGSIZE; omega) h0
  · exact hbyte _ (by unfold PGSIZE; omega) h0
  · exact hbyte _ (by unfold PGSIZE; omega) h0
  · exact hbyte _ (by unfold PGSIZE; omega) h0

theorem exists_names (h : Named F) : ∃ a, Names a F := by
  obtain ⟨n, hn⟩ : ∃ n, n + 5 = 0x2405000 := ⟨_, rfl⟩
  have h1 := h.lt
  refine ⟨word (F * PGSIZE + 0x707) ++ List.replicate n 2, ?_, fun h0 => ?_, ?_, fun j hj hlt => ?_⟩
  · rw [List.length_append, length_word, List.length_replicate]
    omega
  · rcases List.mem_append.1 h0 with h0 | h0
    · exact word_nul h h0
    · cases List.eq_of_mem_replicate h0
  · simp [word, get32, get16]
    unfold PGSIZE
    omega
  · have hbyte : ∀ i, 4 ≤ i → i < 4096 →
        (word (F * PGSIZE + 0x707) ++ List.replicate n 2 ++ [0]).getD i 0 = 2 := fun i h4 hi => by
      rw [List.append_assoc, List.getD_eq_getElem?_getD,
        List.getElem?_append_right (by rw [length_word]; exact h4), length_word,
        List.getElem?_append_left (by rw [List.length_replicate]; omega),
        List.getElem?_replicate_of_lt (by omega), Option.getD_some]
    simp only [get32, get16, hbyte (4 * j) (by omega) (by omega), hbyte (4 * j + 1) (by omega) (by omega),
      hbyte (4 * j + 2) (by omega) (by omega), hbyte (4 * j + 2 + 1) (by omega) (by omega)]
    rfl

theorem pteAddr_named : pteAddr (F * PGSIZE + 0x707) = F := by
  unfold pteAddr PGSIZE
  omega

theorem Struck.named (hs : Struck s s' t (a ++ [0])) (h : Armed smallLayout s d t g n) (ha : Names a F) :
    mapping s'.mem d 0 = some (F * PGSIZE + 0x707) := by
  rw [mapping_some, pageEnt, hs.low h (by decide), Nat.mul_zero, ha.first]
  refine ⟨rfl, ?_⟩
  rw [present, Nat.testBit_zero]
  simp only [decide_eq_true_eq]
  unfold PGSIZE
  omega

theorem Prepared.uses {L : Layout} (hp : Prepared L s s' pg a0 a2 a3 a4) :
    0 < dirUse s'.mem pg a2 ∧ 0 < dirUse s'.mem pg a4 := by
  have h2 := userUse_mapping (by decide) hp.second
  have h4 := userUse_mapping (by decide) hp.stack
  rw [pteAddr_userPte] at h2 h4
  unfold dirUse
  omega

theorem Prepared.same {L : Layout} {m : Nat → Store} (hp : Prepared L s s' pg a0 a2 a3 a4)
    (ho : Own s fun _ => 0)
    (h : ∀ f, 0 < dirUse s'.mem pg f → f ≠ a2 → f ≠ a4 → m f = s'.mem f) : SameDir s'.mem m pg := by
  have hsolo : Solo s'.mem pg := (ho.trans hp.trans).solo
  have hne : ∀ x < 2 ^ 19, ∀ f, mapping s'.mem pg x = some (userPte f) →
      f ≠ pg ∧ ∀ k < NPDENTRIES, present (ent s'.mem pg k) = true → pteAddr (ent s'.mem pg k) ≠ f := by
    intro x hx f hf
    have hu := hsolo.user_ne (by omega) (by omega) (entry_of_mapping hf) present_mkPte
    rwa [pteAddr_userPte] at hu
  obtain ⟨hd2, ht2⟩ := hne 1 (by decide) _ hp.second
  obtain ⟨hd4, ht4⟩ := hne 3 (by decide) _ hp.stack
  exact ⟨h pg dirUse_self hd2.symm hd4.symm,
    fun i hi hp => h _ (dirUse_table hi hp) (ht2 i hi hp) (ht4 i hi hp)⟩

theorem Struck.releases {s1 : Kernel} (hs : Struck s s' t (a ++ [0])) (h : Armed smallLayout s d t g n)
    (ha : Names a F) (hp : Prepared smallLayout s' s1 pg a0 a2 a3 a4) (hF : F = a2 ∨ F = a4) :
    Within smallLayout s' (dirUse s'.mem d) ∧ (∀ f, f = d ∨ IsTable s'.mem d f → pool s' f = 0) ∧
      (∀ f, pool s1 f + dirUse s'.mem d f ≤ 1) ∧
      ∀ f, 0 < dirUse s1.mem pg f → f ≠ F → pool s1 f + dirUse s'.mem d f = 0 := by
  have hone := h.own.le_one
  have hcount : ∀ f, pool s f = pool s1 f + dirUse s1.mem pg f := fun f => by
    rw [← hs.count]
    exact hp.trans.count f
  have hnew : 0 < dirUse s1.mem pg F := by
    rcases hF with rfl | rfl
    · exact hp.uses.1
    · exact hp.uses.2
  have hold : ∀ f, dirUse s'.mem d f ≤ dirUse s.mem d f + one F f := fun f =>
    hs.dirUse_le h ha.first pteAddr_named ha.rest
  have hself : one F F = 1 := if_pos rfl
  have hother : ∀ f, f ≠ F → one F f = 0 := fun f hf => if_neg hf.symm
  refine ⟨fun f hf => h.within f ?_, fun f hf => ?_, fun f => ?_, fun f hf hne => ?_⟩
  · have h1 := hold f
    rw [hs.count] at hf
    by_cases hfF : f = F
    · have := hcount F
      rw [hfF]
      omega
    · rw [hother f hfF] at h1
      omega
  · have h1 := hone f
    have h2 : 0 < dirUse s.mem d f := by
      rcases hf with rfl | ⟨i, hi, hp, rfl⟩
      · exact dirUse_self
      · rw [hs.pde h] at hp ⊢
        exact dirUse_table hi hp
    rw [hs.count]
    omega
  · have h1 := hone f
    have h2 := hold f
    have h3 := hcount f
    by_cases hfF : f = F
    · subst hfF
      omega
    · rw [hother f hfF] at h2
      omega
  · have h1 := hone f
    have h2 := hold f
    have h3 := hcount f
    rw [hother f hne] at h2
    omega

theorem Armed.loads_string (h : Armed smallLayout s d t g n) (hn : 0x2810 ≤ n)
    (ha : a.length + 1 = 0x2405000) :
    ∃ s', Loaded s' d t g n a [Fs.SLASH, 102] ∧ s'.freelist = s.freelist ∧ ∃ a0 a1 a2 a3 a4 fl,
      s'.freelist.drop (kernelPages smallLayout) = a0 :: a1 :: a2 :: a3 :: a4 :: fl := by
  obtain ⟨s', h', hfl⟩ := h.loads a [Fs.SLASH, 102] (by
    rw [List.length_append]
    simp only [List.length_cons, List.length_append, List.length_nil]
    unfold PGSIZE
    omega)
  refine ⟨s', h', hfl, Exec.exists_five ?_⟩
  have h1 := kernelPages_le (L := smallLayout)
  have h2 := h'.free
  rw [List.length_drop]
  omega

end Vm

namespace Exec

open Bytes Panic Param Function Vm Fs

variable {s s' : Kernel} {d t g n off a0 a1 a2 a3 a4 : Nat} {a path : List UInt8} {fl : List Nat}

/-! ## `exec` fails -/

theorem exec_strikes (h : Vm.Loaded s d t g n a path) (ha : a.length + 1 = 0x2405000) (h0 : 0 ∉ a)
    (hfl : s.freelist.drop (kernelPages smallLayout) = a0 :: a1 :: a2 :: a3 :: a4 :: fl) :
    ∃ s' x, Call.Valid s 0 (.exec (some (image (.tree 1) 51 first_bounded)) [a]) ∧
      Vm.Runs (call smallLayout 0 (.exec (some (image (.tree 1) 51 first_bounded)) [a])) s
        (some (-1)) s' ∧ Struck s s' t (a ++ [0]) ∧
      s'.freelist.drop (kernelPages smallLayout) = x :: a4 :: a3 :: a2 :: a0 :: fl := by
  obtain ⟨pg, s1, s2, s3, s5, s', hset, ⟨k, halloc⟩, ⟨t', w, hwalk, hword, hbytes⟩, hstack, hfree,
    hproc, -, hstruck, x, hx⟩ := h.strikes blankElf ha hfl
  obtain ⟨-, hmagic, hnum, hoff, -⟩ := blankElf_header
  refine ⟨s', x, ⟨show 1 < MAXARG by decide, fun b hb => List.mem_singleton.1 hb ▸ h.argument h0⟩, ?_,
    hstruck, hx⟩
  have hread : ∀ off n, off + n ≤ 84 → ∀ u, (image (.tree 1) 51 first_bounded).reader.readi off n u =
      .ok (some ((blankElf.drop off).take n), u) := fun off n hle u => by rw [← tree_read hle]; rfl
  have hsegs : Vm.Runs (loadSegs smallLayout pg (image (.tree 1) 51 first_bounded).reader 1 52 0) s1
      (some (2 * PGSIZE)) s3 :=
    ⟨k, fun l => loadSegs_blank (hread 52 _ (by decide) _) (halloc l) (hwalk l) (hword l)
      (hread 0 84 (by decide) _) (hbytes l)⟩
  have hcur : Steady (curdir 0) s1 d s1 := curdir_steady (by rw [hproc]; exact h.pgdir)
  rw [call, map_eq_pure_bind]
  refine Vm.Runs.bind (v := -1) ?_ Vm.runs_pure
  unfold Vm.exec
  simp only [tree_readAll 0 ELFHDR (by decide), hmagic, ne_eq, not_true_eq_false, if_false]
  refine hset.bind (hcur.runs.bind (Vm.Runs.bind (v := none) ?_ (hfree.runs.bind Vm.runs_pure)))
  unfold execImage
  rw [hnum, hoff]
  exact hsegs.bind hstack

theorem exec_fails (h : Vm.Loaded s d t g n a path) (ha : a.length + 1 = 0x2405000)
    (hfl : s.freelist.drop (kernelPages smallLayout) = a0 :: a1 :: a2 :: a3 :: a4 :: fl) :
    ∃ M', Runs (exec smallLayout 0 [SLASH, 102] [a]) (.first s) (-1) M' ∧
      Struck s M'.vm t (a ++ [0]) := by
  obtain ⟨pg, s1, s2, s3, s5, s', hset, halloc, hloads, hstack, hfree, -, hproc, hstruck, -⟩ :=
    h.strikes blankElf ha hfl
  obtain ⟨fs, -, hopen⟩ := exec_opens (M := .first s) (p := 0) [a] rfl first_cwd hset halloc hloads
  refine ⟨_, hopen (-1) { Machine.first s with vm := s', fs := fs } ?_, hstruck⟩
  have hcur : Steady (curdir 0) s3 d s3 := curdir_steady (by rw [hproc]; exact h.pgdir)
  refine (runs_onVm (M := { Machine.first s with vm := s3, fs := fs }) (hcur.runs.bind hstack)).bind ?_
  show Runs (bad smallLayout (some pg) none) _ _ _
  unfold bad
  rw [if_pos (by nofun)]
  exact (runs_onVm (M := { Machine.first s with vm := s5, fs := fs }) hfree.runs).bind runs_pure

/-- **A failed `exec` has changed the memory of the process**: a page that was there is gone. -/
theorem exec_changes_caller : ∃ M M' d a va b, Reach smallLayout M.vm ∧ WellFormed M.fs ∧
    (M.vm.proc 0).pgdir = some d ∧ Fetchstr M.vm 0 [SLASH, 102] ∧ Fetchstr M.vm 0 a ∧
    exec smallLayout 0 [SLASH, 102] [a] M = .ok (-1, M') ∧
    userByte M.vm.mem d va = some b ∧ userByte M'.vm.mem d va = none := by
  obtain ⟨s0, d, t, g, n, F, h0, hn, -, hname⟩ := armed_named (q := 0) (by decide)
  obtain ⟨a, ha⟩ := exists_names hname
  obtain ⟨s, h, -, a0, a1, a2, a3, a4, fl, hfl⟩ := h0.loads_string hn ha.length
  obtain ⟨M', ⟨k, hrun⟩, hstruck⟩ := exec_fails h ha.length hfl
  obtain ⟨u, f, -, hpte⟩ := h.page 1 (by omega)
  have hpath : Fetchstr s 0 [SLASH, 102] := h.fetch (by decide) rfl fun _ _ _ => rfl
  have harg : Fetchstr s 0 a := h.argument ha.nul
  refine ⟨(Machine.first s).failing (List.replicate k false ++ []), M'.failing [], d, a, PGSIZE,
    s.mem f 0, h.up _, tree_wellFormed, h.pgdir, hpath, harg, hrun [], ?_, ?_⟩
  · have hf : userFrame s.mem d PGSIZE = some f := userFrame_of_page hpte (by decide)
    show userByte s.mem d PGSIZE = some (s.mem f 0)
    rw [userByte, hf]
    rfl
  · show userByte M'.vm.mem d PGSIZE = none
    rw [userByte, userFrame, show pdx PGSIZE = 0 from rfl, show ptx PGSIZE = 1 from rfl,
      hstruck.low h.toArmed (by decide)]
    simp only [ha.rest 1 (by decide) (by decide), Bool.false_eq_true, if_false, Option.map_none]

/-! ## The next `exec` -/

theorem struck_launches {F b0 b1 b2 b3 b4 : Nat} (h : Armed smallLayout s d t g n)
    (hs : Struck s s' t (a ++ [0])) (ha : Names a F)
    (hfl : s'.freelist.drop (kernelPages smallLayout) = b0 :: b1 :: b2 :: b3 :: b4 :: fl)
    (hF : F = b2 ∨ F = b4) :
    ∃ pg M', Runs (exec smallLayout 0 [SLASH, 102] [[SLASH, 102]]) (.first s') 0 M' ∧
      (M'.vm.proc 0).pgdir = some pg ∧ (M'.tf 0).esp = 4 * PGSIZE - 24 ∧
      (∀ i, 4 ≤ i → M'.vm.mem F i = 1) ∧
      mapping M'.vm.mem pg 1 = some (userPte b2) ∧
      mapping M'.vm.mem pg 3 = some (userPte b4) ∧
      ∀ z, 4 ≤ z → z < 2 ^ 19 → mapping M'.vm.mem pg z = none := by
  obtain ⟨_, hsp⟩ := h.space
  have ho := h.own
  have ho' : Own s' fun _ => 0 :=
    ⟨fun f => by have := ho.le_one f; rw [hs.count]; omega,
      fun f hf => ho.lt f (by rw [hs.count] at hf; omega)⟩
  obtain ⟨pg, s1, q, fs, hprep, -, hrun⟩ := exec_launches (M := .first s') (p := 0) rfl first_cwd
    (show (s'.proc 0).pgdir = some d by rw [hs.proc]; exact h.pgdir)
    (show (s'.proc 0).kstack ≠ none by rw [hs.proc, hsp.kstack]; nofun)
    (show 2000 ≤ s'.freelist.length by rw [hs.length h.hist]; exact h.free) ho' hfl
  obtain ⟨hwithin, htab, hle, hzero⟩ := hs.releases h ha hprep hF
  obtain ⟨s2, hfree, -, htr, hfill⟩ := hprep.freevm_old ho' hwithin htab hle q (update s1.proc 0
    { s1.proc 0 with pgdir := some pg, sz := 4 * PGSIZE })
  have hsame : SameDir s1.mem s2.mem pg := hprep.same ho' fun f hf h2 h4 => by
    have hfF : f ≠ F := by
      rcases hF with rfl | rfl
      · exact h2
      · exact h4
    rw [htr.mem f (hzero f hf hfF)]
    exact update_of_ne h4 ..
  refine ⟨pg, _, hrun s2 hfree.runs, ?_, ?_, ?_, ?_, ?_, fun z hz hlt => ?_⟩
  · show (s2.proc 0).pgdir = some pg
    rw [htr.proc]
    simp only [update_self]
  · simp only [update_self]
  · obtain ⟨l, -, hF1⟩ := hfill _ (hs.named h ha)
    rw [pteAddr_named] at hF1
    intro i hi
    exact (congrFun hF1 i).trans (freed_rest hi)
  · exact (hsame.mapping (by decide)).trans hprep.second
  · exact (hsame.mapping (by decide)).trans hprep.stack
  · exact (hsame.mapping hlt).trans (hprep.rest z hz hlt)

/-- A call of `exec` fails, and then a page of the free list is mapped at address 0. -/
theorem exec_named {q : Nat} (hq : q < 5) : ∃ s s' d t g n a F x a0 a1 a2 a3 a4 fl,
    Vm.Loaded s d t g n a [SLASH, 102] ∧ Names a F ∧
    Call.Valid s 0 (.exec (some (image (.tree 1) 51 first_bounded)) [a]) ∧
    Vm.Runs (call smallLayout 0 (.exec (some (image (.tree 1) 51 first_bounded)) [a])) s (some (-1)) s' ∧
    Struck s s' t (a ++ [0]) ∧ (a0 :: a1 :: a2 :: a3 :: a4 :: fl)[q]? = some F ∧
    s'.freelist.drop (kernelPages smallLayout) = x :: a4 :: a3 :: a2 :: a0 :: fl := by
  obtain ⟨s0, d, t, g, n, F, h0, hn, hF, hname⟩ := armed_named hq
  obtain ⟨a, ha⟩ := exists_names hname
  obtain ⟨s, h, hfl0, a0, a1, a2, a3, a4, fl, hfl⟩ := h0.loads_string hn ha.length
  obtain ⟨s', x, hvalid, hcall, hstruck, hfl'⟩ := exec_strikes h ha.length ha.nul hfl
  have hget : (a0 :: a1 :: a2 :: a3 :: a4 :: fl)[q]? = some F := by
    rw [← hfl, List.getElem?_drop, hfl0, hF]
  exact ⟨s, s', d, t, g, n, a, F, x, a0, a1, a2, a3, a4, fl, h, ha, hvalid, hcall, hstruck, hget, hfl'⟩

/-- **Two calls of `exec`**: the first one fails, and after the second one the page `x` of the new
program is filled with junk. -/
theorem exec_spoils {x : Nat} (hx : x = 1 ∨ x = 3) : ∃ s M' pg, Up smallLayout s ∧
    Fetchstr s 0 [SLASH, 102] ∧
    Runs (exec smallLayout 0 [SLASH, 102] [[SLASH, 102]]) (.first s) 0 M' ∧
    (M'.vm.proc 0).pgdir = some pg ∧ (M'.tf 0).esp = 4 * PGSIZE - 24 ∧
    (∀ va < KERNBASE, va / PGSIZE = x → 4 ≤ va % PGSIZE → userByte M'.vm.mem pg va = some 1) ∧
    ∀ va < KERNBASE, 4 ≤ va / PGSIZE → userByte M'.vm.mem pg va = none := by
  obtain ⟨q, hq, hqx⟩ : ∃ q < 5, q = 3 ∧ x = 1 ∨ q = 0 ∧ x = 3 := by
    rcases hx with rfl | rfl
    · exact ⟨3, by decide, .inl ⟨rfl, rfl⟩⟩
    · exact ⟨0, by decide, .inr ⟨rfl, rfl⟩⟩
  obtain ⟨s, s', d, t, g, n, a, F, y, a0, a1, a2, a3, a4, fl, h, ha, hvalid, hcall, hstruck, hget,
    hfl'⟩ :=
    exec_named hq
  have hup : Up smallLayout s' := h.up.call (by decide) (.inl h.state) hvalid hcall
  have hFx : F = a3 ∧ x = 1 ∨ F = a0 ∧ x = 3 := by
    rcases hqx with ⟨rfl, hx⟩ | ⟨rfl, hx⟩
    · exact .inl ⟨(Option.some.inj hget).symm, hx⟩
    · exact .inr ⟨(Option.some.inj hget).symm, hx⟩
  obtain ⟨pg, M', hrun, hpg, hesp, hones, h1, h3, hrest⟩ := struck_launches h.toArmed hstruck ha hfl'
    (hFx.imp And.left And.left)
  have hpage : mapping M'.vm.mem pg x = some (userPte F) := by
    rcases hFx with ⟨rfl, rfl⟩ | ⟨rfl, rfl⟩
    · exact h1
    · exact h3
  refine ⟨s', M', pg, hup, h.fetch (by decide) hstruck.proc fun _ => hstruck.byte h.toArmed, hrun,
    hpg, hesp, fun va hva hvx hv4 => ?_, fun va hva hv4 => ?_⟩
  · rw [userByte, userFrame_mapping hva, hvx, hpage, Option.map_some, Option.map_some,
      pteAddr_userPte, hones _ hv4]
  · rw [userByte, userFrame_mapping hva, hrest _ hv4 (by unfold KERNBASE PGSIZE at *; omega)]
    rfl

/-- **The memory of a new program is not what its file describes.** -/
theorem exec_spoils_image : ∃ M M' pg elf hs, ∃ hb : Bounded M.fs.devsw, Reach smallLayout M.vm ∧
    WellFormed M.fs ∧ Fetchstr M.vm 0 [SLASH, 102] ∧
    M.fs.resolve (pathStart (M.cwd 0) [SLASH, 102]) (components [SLASH, 102]) = some 51 ∧
    (M.fs.cur 51).type ≠ T_DEV ∧ (image M.fs 51 hb).readAll 0 ELFHDR = some elf ∧
    headers (image M.fs 51 hb) (get16 elf 44) (get32 elf 28) = some hs ∧ hs.Pairwise Header.Apart ∧
    (∀ g ∈ hs, g.vaddr % PGSIZE = 0 ∧ g.filesz ≤ g.memsz) ∧
    exec smallLayout 0 [SLASH, 102] [[SLASH, 102]] M = .ok (0, M') ∧ (M'.vm.proc 0).pgdir = some pg ∧
    ¬ Describes M.fs 51 hs M'.vm.mem pg := by
  obtain ⟨s, M', pg, hup, hpath, ⟨k, hrun⟩, hpg, -, hones, -⟩ := exec_spoils (.inl rfl)
  obtain ⟨-, -, hnum, hoff, -⟩ := blankElf_header
  refine ⟨(Machine.first s).failing (List.replicate k false ++ []), M'.failing [], pg, _,
    [⟨0, 0, 84, 2 * PGSIZE⟩], first_bounded, hup _, tree_wellFormed, hpath, tree_resolve _, ?_,
    tree_readAll _ _ (by decide), ?_, List.pairwise_singleton _ _, ?_, hrun [], hpg, fun hd => ?_⟩
  · rw [show ((Machine.first s).failing _).fs = .tree 1 from rfl, tree_cur]
    exact tree_type
  · rw [hnum, hoff]
    exact tree_headers
  · intro g hg
    rw [List.mem_singleton.1 hg]
    decide
  · have hzero := hd.zero _ (List.mem_singleton_self _) (PGSIZE + 4) (by decide) (by
      intro k hk
      rw [List.mem_singleton.1 hk]
      decide)
    rw [show userByte (M'.failing []).vm.mem pg (PGSIZE + 4) = some 1 from
      hones _ (by decide) rfl (by decide)] at hzero
    cases hzero

/-! ## The arguments -/

theorem userWords_none {m : Nat → Store} {va : Nat} (hn : 0 < n) (hb : userByte m d va = none) :
    userWords m d n va = none := by
  obtain ⟨k, rfl⟩ := Nat.exists_eq_add_of_lt hn
  simp [userWords, hb]

theorem userWords_ones {m : Nat → Store} (va : Nat)
    (h : ∀ i < 4 * n, userByte m d (va + i) = some 1) :
    userWords m d n va = some (List.replicate n 0x01010101) := by
  induction n generalizing va with
  | zero => rfl
  | succ n ih =>
    have hrest := ih (va + 4) fun i hi => by
      rw [Nat.add_assoc]
      exact h (4 + i) (by omega)
    have h0 : userByte m d va = some 1 := h 0 (by omega)
    simp only [userWords, h0, h 1 (by omega), h 2 (by omega), h 3 (by omega), hrest]
    rfl

/-- **The arguments of a new program are lost.** -/
theorem exec_spoils_arguments : ∃ M M' pg, Reach smallLayout M.vm ∧ WellFormed M.fs ∧
    Fetchstr M.vm 0 [SLASH, 102] ∧ exec smallLayout 0 [SLASH, 102] [[SLASH, 102]] M = .ok (0, M') ∧
    (M'.vm.proc 0).pgdir = some pg ∧ decode M'.vm.mem pg (M'.tf 0).esp ≠ some [[SLASH, 102]] := by
  obtain ⟨s, M', pg, hup, hpath, ⟨k, hrun⟩, hpg, hesp, hones, hnone⟩ := exec_spoils (.inr rfl)
  refine ⟨(Machine.first s).failing (List.replicate k false ++ []), M'.failing [], pg, hup _,
    tree_wellFormed, hpath, hrun [], hpg, ?_⟩
  -- the number of arguments is that of the ones, and so is their address, where nothing is mapped
  obtain ⟨w, hw⟩ : ∃ w, 0x01010101 = w := ⟨_, rfl⟩
  have hwords : userWords M'.vm.mem pg 3 (4 * PGSIZE - 24) = some [w, w, w] := by
    rw [← hw]
    exact userWords_ones _ fun i hi =>
      hones _ (by unfold KERNBASE PGSIZE; omega) (by unfold PGSIZE; omega)
        (by unfold PGSIZE; omega)
  have hptrs : userWords M'.vm.mem pg w w = none := userWords_none (by omega)
    (hnone w (by rw [← hw]; decide) (by rw [← hw]; decide))
  show decode M'.vm.mem pg (M'.tf 0).esp ≠ some [[SLASH, 102]]
  rw [hesp, decode, hwords]
  simp [hptrs]

end Exec

/-! ## Isolation of address spaces -/

namespace Vm

/-- **Address-space isolation**, in every state of a run without a null-pointer read. -/
theorem address_spaces_isolated {L : Layout} (h : Reach L s) (hnull : .nullPte ∉ s.hist) : Isolated s :=
  (reach_inv h hnull).isolated

/-- The first process has called `sbrk`. -/
theorem address_spaces_isolated_sbrk : ∃ s, Reach smallLayout s ∧ (s.proc 0).sz = 3 * PGSIZE ∧
    .nullPte ∉ s.hist ∧ Isolated s := by
  obtain ⟨s, d, hup, hfirst⟩ := boot_first smallLayout_first
  obtain ⟨s', t, g, h, -⟩ := sbrk_runs (n := 2) hup hfirst (by decide) (by decide)
  have hnull : .nullPte ∉ s'.hist := by simp [h.hist]
  exact ⟨s', h.up s'.fail, h.sz, hnull, address_spaces_isolated (h.up s'.fail) hnull⟩

/-- **An argument string overwrites a page table.** The first process stores an entry that names its own
page table at address 0 and calls `exec` with a string that is longer than the new stack: two pages of
the process are one frame then. -/
theorem null_pte_overwrites : ∃ s s', Reach smallLayout s ∧ Isolated s ∧
    call smallLayout 0 (.exec (some (Exec.image (.tree 1) 51 Exec.first_bounded))
      [List.replicate 0x2404FFF 7]) s = .ok (some (-1), s') ∧ Reach smallLayout s' ∧ ¬ Isolated s' := by
  obtain ⟨n, hn⟩ : ∃ n, n = 0x2404FFF := ⟨_, rfl⟩
  rw [← hn]
  have hlen : (List.replicate n (7 : UInt8)).length + 1 = 0x2405000 := by rw [List.length_replicate, hn]
  obtain ⟨s0, d, t, g, k, -, h0, hk, -⟩ := armed_named (q := 0) (by decide)
  obtain ⟨s, h, -, a0, a1, a2, a3, a4, fl, hfl⟩ := h0.loads_string hk hlen
  obtain ⟨s', -, hvalid, ⟨c, hrun⟩, hs, -⟩ := Exec.exec_strikes h hlen
    (fun h0 => by cases List.eq_of_mem_replicate h0) hfl
  have hreach := h.up (List.replicate c false ++ [])
  refine ⟨_, _, hreach, (reach_inv hreach (by simp [h.hist])).isolated, hrun [],
    hreach.step (c := .exec (some _) [_]) (by decide) (.inl h.state) hvalid (hrun []), fun hiso => ?_⟩
  have hbyte : ∀ i < 8, (List.replicate n (7 : UInt8) ++ [0]).getD i 0 = 7 := fun i hi => by
    rw [List.getD_eq_getElem?_getD, List.getElem?_append_left (by omega),
      List.getElem?_replicate_of_lt (by omega), Option.getD_some]
  have hframe : ∀ x < 2, userFrame s'.mem d (x * PGSIZE) = some 0x7070 := fun x hx => by
    rw [userFrame_mapping (by unfold PGSIZE KERNBASE; omega), Nat.mul_div_cancel _ (by decide),
      mapping, pageEnt, Nat.div_eq_of_lt (by omega), Nat.mod_eq_of_lt (by omega),
      hs.low h.toArmed (by omega)]
    simp only [Bytes.get32, Bytes.get16, hbyte (4 * x) (by omega), hbyte (4 * x + 1) (by omega),
      hbyte (4 * x + 2) (by omega), hbyte (4 * x + 2 + 1) (by omega)]
    rfl
  have hdir : HasDir { s' with fail := [] } 0 d := by
    refine ⟨by decide, ?_, ?_⟩
    · show (s'.proc 0).state ≠ .unused
      simp [hs.proc, h.state]
    · exact (congrArg (fun P => (P 0).pgdir) hs.proc).trans h.pgdir
  have := hiso.once 0 d (0 * PGSIZE) hdir (by decide) _ (hframe 0 (by decide)) 0 d (1 * PGSIZE) hdir
    (by decide) (hframe 1 (by decide))
  exact absurd this.2 (by decide)

end Vm
