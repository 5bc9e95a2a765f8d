import Xv6.Vm.Proof.Order
import Xv6.Vm.Proof.Program

/-!
# A program starts

`exec` of the file `f` of `Fs.State.tree`, an executable with two pages of memory (`Fs.blankElf`). The
free list decides which pages the new memory consists of.
-/

namespace Vm

open Bytes Panic Param Finset Function

variable {L : Layout} {s s' : Kernel} {m : Nat → Store} {d e f g i j k w n x a b c pg va cur : Nat}
  {bs : List UInt8}

/-! ## The new directory -/

/-- The new directory `pg` before the arguments are pushed: two pages of memory `a` and `b`, the page
`g` that user mode has no access to, and the stack page `c`. -/
structure Prepared (L : Layout) (s s' : Kernel) (pg a b g c : Nat) : Prop where
  trans : Trans s (fun _ => 0) s' (dirUse s'.mem pg)
  hist : s'.hist = s.hist
  clean : KernelClean s'.mem pg
  kernel : ∀ i, 512 ≤ i → (present (ent s'.mem pg i) = true ↔ ∃ k ∈ kmap L, k.Covers i)
  first : mapping s'.mem pg 0 = some (userPte a)
  second : mapping s'.mem pg 1 = some (userPte b)
  guard : ∃ w, mapping s'.mem pg 2 = some w ∧ pteAddr w = g
  stack : mapping s'.mem pg 3 = some (userPte c)
  rest : ∀ z, 4 ≤ z → z < 2 ^ 19 → mapping s'.mem pg z = none

theorem mapping_entry (h : entry m d (x / 1024) (x % 1024) = some (userPte f)) :
    mapping m d x = some (userPte f) := by
  rw [mapping_some, pageEnt, h]
  exact ⟨rfl, present_mkPte⟩

theorem clearpteu_other (hx : x < 2 ^ 19) (ho : Own s (dirUse s.mem d))
    (hw : mapping s.mem d x = some w) :
    ∃ s', Steady (clearpteu d (x * PGSIZE)) s () s' ∧ Grown s s' d ∧ s'.hist = s.hist ∧
      s'.freelist = s.freelist ∧ (∀ i, ent s'.mem d i = ent s.mem d i) ∧
      ∀ z < 2 ^ 19, mapping s'.mem d z = if z = x then some (clearU w) else mapping s.mem d z := by
  obtain ⟨h1, h2⟩ := pdx_page (x := x) (by omega)
  obtain ⟨hp, hent⟩ := entry_isSome (entry_of_mapping hw)
  have hi : x / 1024 < NPDENTRIES := by
    unfold NPDENTRIES
    omega
  have hclr := clearpteu_steady (x * PGSIZE) (by rw [h1]; exact hp)
  obtain ⟨ht, hc⟩ := clearpteu_spec (hclr []) ho.fail (by unfold KERNBASE PGSIZE; omega)
  rw [h1, h2, ← hent] at hclr ht hc
  exact ⟨_, hclr, ⟨ht.fail, hc⟩, rfl, rfl, fun i => setPte_ent ho.solo hi hp,
    fun z hz => mapping_clearU ho.solo hx hw hz⟩

theorem Touched.added (h : Touched s s' d) (hh : s'.hist = s.hist) : Added s s' d x x :=
  ⟨h.grown, hh, fun _ hz _ => h.same.pageEnt hz, fun _ _ => h.same.ent⟩

/-- The bytes `bs` are copied to the start of the page at address 0. -/
def Loads (s s' : Kernel) (pg : Nat) (bs : List UInt8) : Prop :=
  ∃ t w, Steady (walkpgdir pg 0 false) s (some (t, 0)) s ∧ Steady (load t 0) s w s ∧
    Steady (setBytes (pteAddr w) 0 bs) s () s'

theorem loads (bs : List UInt8) (ho : Own s (dirUse s.mem pg)) (he : entry s.mem pg 0 0 = some w)
    (hw : present w = true) : ∃ s', Loads s s' pg bs ∧ Touched s s' pg ∧ s'.hist = s.hist ∧
      s'.freelist = s.freelist ∧ s'.proc = s.proc := by
  obtain ⟨hp, hent⟩ := entry_isSome he
  refine ⟨{ s with mem := update s.mem (pteAddr w) (copy (s.mem (pteAddr w)) 0 (fun i => bs.getD i 0) 0
    bs.length) }, ⟨_, w, walkpgdir_steady 0 hp, ?_, fun _ => rfl⟩,
    touched_setBytes (show setBytes (pteAddr w) 0 bs s = .ok ((), _) from rfl) ho (by decide)
    (by decide) he hw, rfl, rfl, rfl⟩
  rw [hent]
  exact steady_load

/-- Two pages and, if there is none yet, the page table come from the free list. -/
theorem pair_takes {fl l : List Nat} (oldsz newsz : Nat) (hx : x + 1 < 1024) (hlen : 600 ≤ fl.length)
    (ho : Own s (dirUse s.mem d)) (htab : l.length = if present (ent s.mem d 0) then 0 else 1)
    (hfl : s.freelist = a :: (l ++ b :: fl))
    (hfresh : ∀ z < 2 ^ 19, x ≤ z → present (pageEnt s.mem d z) = false) :
    ∃ s', Runs (allocLoop L d oldsz newsz 2 (x * PGSIZE)) s newsz s' ∧ Added s s' d x (x + 2) ∧
      present (ent s'.mem d 0) = true ∧ s'.freelist = fl ∧
      mapping s'.mem d x = some (userPte a) ∧
      mapping s'.mem d (x + 1) = some (userPte b) := by
  have h0 : x / 1024 = 0 := by omega
  have h1 : (x + 1) / 1024 = 0 := by omega
  obtain ⟨p, hstep, hadd, hpde, he, hkeep, hmore⟩ := page_takes (L := L) oldsz newsz (by omega) hfl
    (by rw [hfl]; simp only [List.length_cons, List.length_append]; omega) ho (hfresh x (by omega) le_rfl)
  rw [h0] at hpde hkeep hmore
  have hp : present (ent p.mem d 0) = true := hpde.present.2 (.inl rfl)
  have hflp : p.freelist = b :: fl := by
    by_cases h : present (ent s.mem d 0) = true
    · rw [if_pos h, List.length_eq_zero_iff] at htab
      rw [hkeep h, htab, List.nil_append]
    · obtain ⟨t, ht⟩ := hmore (Bool.eq_false_of_not_eq_true h)
      rw [if_neg h] at htab
      obtain ⟨u, rfl⟩ := List.length_eq_one_iff.1 htab
      exact (List.cons.inj ht).2.symm
  obtain ⟨s', hstep', hadd', hpde', he', hkeep', -⟩ :=
    page_takes (L := L) (x := x + 1) oldsz newsz (by omega)
    hflp (by rw [hflp]; simp only [List.length_cons]; omega) (ho.trans hadd.trans)
    (by rw [hadd.page (x + 1) (by omega) (.inr le_rfl)]; exact hfresh _ (by omega) (by omega))
  rw [h1] at hpde' hkeep'
  exact ⟨s', hstep 1 _ _ (hstep' 0 _ _ runs_pure), hadd.comp hadd' (by omega) (by omega),
    hpde'.present.2 (.inl rfl), hkeep' hp,
    (mapping_congr (hadd'.page x (by omega) (.inl (by omega)))).trans (mapping_entry he),
    mapping_entry he'⟩

/-- **The steps of `exec` before the arguments**; `bs` is the start of the program. -/
theorem program_runs (bs : List UInt8) {a0 a1 a2 a3 a4 : Nat} {fl : List Nat}
    (hlen : 2000 ≤ s.freelist.length) (ho : Own s fun _ => 0)
    (hfl : s.freelist.drop (kernelPages L) = a0 :: a1 :: a2 :: a3 :: a4 :: fl) :
    ∃ pg s1 s2 s2' s3 s4, Runs (setupkvm L) s (some pg) s1 ∧
      Runs (allocuvm L pg 0 (2 * PGSIZE)) s1 (2 * PGSIZE) s2 ∧ Loads s2 s2' pg bs ∧
      Runs (allocuvm L pg (2 * PGSIZE) (4 * PGSIZE)) s2' (4 * PGSIZE) s3 ∧
      Steady (clearpteu pg (2 * PGSIZE)) s3 () s4 ∧ s1.proc = s.proc ∧ s2'.proc = s.proc ∧
      s4.freelist = fl ∧ Prepared L s s4 pg a0 a2 a3 a4 := by
  obtain ⟨pg, s1, hset, hbuilt⟩ := setupkvm_runs (L := L) (s := s) (by omega) ho
  have hlen1 := hbuilt.free
  obtain ⟨fs, hrun1⟩ := hset.run
  have hpop := setupkvm_pops hrun1
  have hfl1 : s1.freelist = a0 :: ([a1] ++ a2 :: a3 :: a4 :: fl) := (hbuilt.takes ho hpop).trans hfl
  have ho1 := ho.trans hbuilt.trans
  have hnone : ∀ z < 2 ^ 19, present (pageEnt s1.mem pg z) = false := fun z hz => by
    rw [hbuilt.toKernelDir.pageEnt hz]
    rfl
  have hlong : 990 ≤ fl.length := by
    rw [hfl1] at hlen1
    simp only [List.length_cons, List.length_append, List.length_nil] at hlen1
    omega
  -- the program, and its start from the file
  obtain ⟨s2, hrun2, hadd2, hp2, hfl2, hfirst, hsecond⟩ := pair_takes (L := L) (x := 0) 0 (2 * PGSIZE)
    (by decide) (by simp only [List.length_cons]; omega) ho1
    (by rw [hbuilt.toKernelDir.userPde (by decide)]; rfl) hfl1 fun z hz _ => hnone z hz
  have ho2 := ho1.trans hadd2.trans
  obtain ⟨s2', hloads, htouch, hhist, hflq, hproc⟩ := loads bs ho2 (entry_of_mapping (x := 0) hfirst)
    present_mkPte
  have hadd := hadd2.comp (htouch.added (x := 2) hhist) (by decide) (by decide)
  have hoq := ho2.trans htouch.trans
  -- the pages of the stack
  obtain ⟨s3, hrun3, hadd3, -, hfl3, hguard, hstack⟩ :=
    pair_takes (L := L) (x := 2) (l := []) (2 * PGSIZE)
    (4 * PGSIZE) (by decide) (show 600 ≤ fl.length by omega) hoq
    (by rw [htouch.same.ent, hp2]; rfl) (hflq.trans hfl2)
    fun z hz hle => by rw [hadd.page z (by omega) (.inr hle)]; exact hnone z hz
  have hold : ∀ z < 2, mapping s3.mem pg z = mapping s2.mem pg z := fun z hz =>
    (mapping_congr (hadd3.page z (by omega) (.inl hz))).trans (htouch.same.mapping (by omega))
  have hall := hadd.comp hadd3 (by decide) (by decide)
  obtain ⟨s4, hclr, hgrown, hhist4, hfl4, hpde, hmap⟩ := clearpteu_other (x := 2) (by decide)
    (hoq.trans hadd3.trans) hguard
  refine ⟨pg, s1, s2, s2', s3, s4, hset, ?_, hloads, ?_, hclr, hbuilt.trans.proc, ?_, hfl4.trans hfl3,
    ⟨hbuilt.trans.trans (hall.trans.trans hgrown.trans), hhist4.trans (hall.hist.trans hbuilt.hist),
      hgrown.clean (hall.clean hbuilt.clean), fun i hi => ?_, ?_, ?_, ?_, ?_, fun z hz hz' => ?_⟩⟩
  · rw [allocuvm, if_neg (by decide), if_neg (by decide), show pgroundup 0 = 0 * PGSIZE from rfl,
      show (2 * PGSIZE - 0 * PGSIZE + PGSIZE - 1) / PGSIZE = 2 from rfl]
    exact hrun2
  · rw [allocuvm, if_neg (by decide), if_neg (by decide),
      show pgroundup (2 * PGSIZE) = 2 * PGSIZE from rfl,
      show (4 * PGSIZE - 2 * PGSIZE + PGSIZE - 1) / PGSIZE = 2 from rfl]
    exact hrun3
  · rw [hproc, hadd2.trans.proc, hbuilt.trans.proc]
  · rw [← hbuilt.pde i, hpde, hall.pde i (.inl hi)]
  · rw [hmap 0 (by decide), if_neg (by decide), hold 0 (by decide), hfirst]
  · rw [hmap 1 (by decide), if_neg (by decide), hold 1 (by decide), hsecond]
  · refine ⟨_, by rw [hmap 2 (by decide), if_pos rfl], ?_⟩
    rw [pteAddr_clearU (entry_lt (entry_of_mapping hguard)), pteAddr_userPte]
  · rw [hmap 3 (by decide), if_neg (by decide)]
    exact hstack
  · rw [hmap z hz', if_neg (by omega), mapping_none, hall.page z (by omega) (.inr hz)]
    exact hnone z hz'

theorem stack_used (h : Prepared L s s' pg a b g c) (ho : Own s fun _ => 0) :
    0 < dirUse s'.mem pg c ∧ pool s c = 1 ∧ pool s' c = 0 := by
  have hc : 0 < dirUse s'.mem pg c := dirUse_userFrame (show 3 * PGSIZE < KERNBASE by decide) (by
    rw [userFrame_mapping (by decide), show 3 * PGSIZE / PGSIZE = 3 from rfl, h.stack, Option.map_some,
      pteAddr_userPte])
  have h1 : pool s c + 0 = pool s' c + dirUse s'.mem pg c := h.trans.count c
  have h2 := ho.le_one c
  exact ⟨hc, by omega, by omega⟩

/-- **The old directory is freed** when its pages are not free, except for those that are in use again
in the new one. -/
theorem Prepared.freevm_old (h : Prepared L s s' pg a b g c) (ho : Own s fun _ => 0)
    (hw : Within L s (dirUse s.mem d)) (htab : ∀ f, f = d ∨ IsTable s.mem d f → pool s f = 0)
    (hle : ∀ f, pool s' f + dirUse s.mem d f ≤ 1) (q : Store) (P : Nat → Proc) :
    ∃ s'', Steady (freevm L (some d)) { s' with mem := update s'.mem c q, proc := P } () s'' ∧
      s''.hist = s'.hist ∧
      Trans { s' with mem := update s'.mem c q, proc := P } (dirUse s.mem d) s'' (fun _ => 0) ∧
      ∀ v, mapping s.mem d 0 = some v → Freed s'' (pteAddr v) := by
  obtain ⟨-, hc, -⟩ := stack_used h ho
  have hmem : ∀ f, f = d ∨ IsTable s.mem d f → update s'.mem c q f = s.mem f := fun f hf => by
    have h0 := htab f hf
    rw [update_of_ne (fun hfc => by rw [hfc] at h0; omega)]
    exact h.trans.mem f (by omega)
  have hsame : SameDir s.mem (update s'.mem c q) d :=
    ⟨hmem d (.inl rfl), fun i hi hp => hmem _ (.inr ⟨i, hi, hp, rfl⟩)⟩
  have huse : dirUse (update s'.mem c q) d = dirUse s.mem d := funext fun f => hsame.dirUse
  have hpool : ∀ f, 0 < pool s' f + dirUse s.mem d f → f ∈ pages L := fun f hf => hw f (by
    have h1 : pool s f + 0 = pool s' f + dirUse s'.mem pg f := h.trans.count f
    omega)
  have hown : Own { s' with mem := update s'.mem c q, proc := P } (dirUse s.mem d) :=
    ⟨hle, fun f hf => by
      have := (mem_pages.1 (hpool f hf)).2
      unfold PHYSTOP PGSIZE at this
      omega⟩
  have hwithin : Within L { s' with mem := update s'.mem c q, proc := P } (dirUse s.mem d) := hpool
  rw [← huse] at hown hwithin
  obtain ⟨s'', hrun, hh⟩ := freevm_steady hown hwithin
  have htr := (freevm_trans (hrun []) hown.fail).fail
  rw [huse] at htr
  refine ⟨s'', hrun, hh, htr, fun v hv => ?_⟩
  have hfill : Freed { s'' with fail := [] } (pteAddr v) := freevm_fills hown.fail (by
    rw [hsame.mapping (by decide)]
    exact hv) (hrun [])
  exact hfill

/-! ## The stack -/

theorem copyout_page (L : Layout) (cur : Nat) (ha : access s.mem d va = true)
    (hf : userFrame s.mem d va = some f) (bs : List UInt8) (hlen : bs.length ≤ PGSIZE - va % PGSIZE)
    (hne : bs ≠ []) :
    Steady (copyout L cur d va bs) s true { s with
      mem := update s.mem f
        (copy (s.mem f) (va % PGSIZE) (fun i => bs.getD i 0) 0 bs.length) } := fun fs => by
  obtain ⟨b, bs, rfl⟩ := List.exists_cons_of_ne_nil hne
  obtain ⟨w, he, -⟩ := access_iff.1 ha
  have hchunk : chunk va (b :: bs) = (b :: bs).length := Nat.min_eq_right hlen
  rw [copyout_cons (s := { s with fail := fs }) L cur b bs (entry_isSome he).1, hchunk, List.drop_length,
    List.take_length]
  simp only [ha, hf, if_true]
  rw [copyout]
  rfl

theorem copyout_stack (L : Layout) (cur va : Nat) (bs : List UInt8)
    (h : mapping s.mem d 3 = some (userPte c)) (hlo : 3 * PGSIZE ≤ va)
    (hhi : va + bs.length ≤ 4 * PGSIZE) (hne : bs ≠ []) :
    ∃ q, Steady (copyout L cur d va bs) s true { s with mem := update s.mem c q } := by
  have hlen := List.length_pos_iff.2 hne
  have hva : va < KERNBASE := by
    unfold KERNBASE PGSIZE at *
    omega
  have hpage : va / PGSIZE = 3 := by
    unfold PGSIZE at *
    omega
  have ha : access s.mem d va = true := (access_mapping hva).2 ⟨_, hpage ▸ h, user_userPte⟩
  have hf : userFrame s.mem d va = some c := by
    rw [userFrame_mapping hva, hpage, h, Option.map_some, pteAddr_userPte]
  exact ⟨_, copyout_page L cur ha hf bs (by unfold PGSIZE at *; omega) hne⟩

theorem pushFrame_path (L : Layout) (cur : Nat) (hs : Solo s.mem d)
    (h : mapping s.mem d 3 = some (userPte c)) :
    ∃ q, Steady (pushFrame L cur d (4 * PGSIZE) [[Fs.SLASH, 102]]) s (some (4 * PGSIZE - 24))
      { s with mem := update s.mem c q } := by
  obtain ⟨q1, h1⟩ := copyout_stack L cur (4 * PGSIZE - 4) ([Fs.SLASH, 102] ++ [0]) h (by decide)
    (by decide) (by decide)
  have hsame : SameDir s.mem (update s.mem c q1) d := by
    have := hs.same_user (p := q1) (by decide) (by decide) (entry_of_mapping h) present_mkPte
    rwa [pteAddr_userPte] at this
  obtain ⟨q2, h2⟩ := copyout_stack (s := { s with mem := update s.mem c q1 }) (c := c) L cur
    (4 * PGSIZE - 24) (([0xffffffff, 1, 4 * PGSIZE - 12] ++ [4 * PGSIZE - 4] ++ [0]).flatMap word)
    ((hsame.mapping (by decide)).trans h) (by decide) (by decide) (by decide)
  rw [update_idem] at h2
  have hargs : Steady (pushArgs L cur d [[Fs.SLASH, 102]] 0 (4 * PGSIZE) []) s
      (some (4 * PGSIZE - 4, [4 * PGSIZE - 4])) { s with mem := update s.mem c q1 } := by
    unfold pushArgs
    rw [if_neg (by decide)]
    exact h1.bind fun _ => rfl
  exact ⟨q2, hargs.bind (h2.bind fun _ => rfl)⟩

theorem userStack_runs {s1 s2 s3 : Kernel} {argv : List (List UInt8)} {r : Option Nat}
    (halloc : Runs (allocuvm L pg (2 * PGSIZE) (4 * PGSIZE)) s (4 * PGSIZE) s1)
    (hclr : Steady (clearpteu pg (2 * PGSIZE)) s1 () s2)
    (hpush : Runs (pushFrame L cur pg (4 * PGSIZE) argv) s2 r s3) :
    Runs (userStack L cur pg (2 * PGSIZE) argv) s (r.map fun sp => (4 * PGSIZE, sp)) s3 := by
  unfold userStack
  refine Runs.bind (v := 4 * PGSIZE) halloc ?_
  rw [if_neg (by decide)]
  refine hclr.runs.bind (hpush.bind ?_)
  cases r with
  | none => exact runs_pure
  | some sp => exact runs_pure

end Vm

/-! ## The file -/

namespace Fs

open Panic Param Function

theorem tree_cached (n : Nat) : (State.tree n).cached.length ≤ n := by
  have hsub : (State.tree n).cached ⊆ List.range' 1 n := by
    intro j hj
    rw [State.cached, List.mem_filter, decide_eq_true_eq] at hj
    rw [List.mem_range'_1]
    by_contra hout
    have h0 : ((State.tree n).ino j).ref = 0 := if_neg (by omega)
    omega
  have := (List.subperm_of_subset (List.nodup_range.filter _) hsub).length_le
  rwa [List.length_range'] at this

theorem blankElf_byte {o : Nat} (ho : o < 84) :
    byte treeDisk (dinode .tree treeDisk 51) o = blankElf.getD o 0 := by
  have hptr : ptr treeDisk (dinode .tree treeDisk 51) 0 = 11 := tree_file
  have hslot : slot (o / BSIZE) = 0 := by
    rw [show o / BSIZE = 0 from Nat.div_eq_of_lt (by unfold BSIZE; omega)]
    rfl
  rw [byte, hslot, hptr, if_neg (by decide), Nat.mod_eq_of_lt (by unfold BSIZE; omega)]
  rfl

open Bytes in
theorem blankElf_header : ((blankElf.drop 0).take Vm.ELFHDR).length = Vm.ELFHDR ∧
    get32 (fun i => ((blankElf.drop 0).take Vm.ELFHDR).getD i 0) 0 = Vm.ELF_MAGIC ∧
    get16 (fun i => ((blankElf.drop 0).take Vm.ELFHDR).getD i 0) 44 = 1 ∧
    get32 (fun i => ((blankElf.drop 0).take Vm.ELFHDR).getD i 0) 28 = 52 ∧
    get32 (fun i => ((blankElf.drop 0).take Vm.ELFHDR).getD i 0) 24 = 0 := by decide

open Bytes in
theorem blankElf_program : ((blankElf.drop 52).take Vm.PROGHDR).length = Vm.PROGHDR ∧
    get32 (fun i => ((blankElf.drop 52).take Vm.PROGHDR).getD i 0) 0 = Vm.ELF_PROG_LOAD ∧
    get32 (fun i => ((blankElf.drop 52).take Vm.PROGHDR).getD i 0) 4 = 0 ∧
    get32 (fun i => ((blankElf.drop 52).take Vm.PROGHDR).getD i 0) 8 = 0 ∧
    get32 (fun i => ((blankElf.drop 52).take Vm.PROGHDR).getD i 0) 16 = 84 ∧
    get32 (fun i => ((blankElf.drop 52).take Vm.PROGHDR).getD i 0) 20 = 2 * Vm.PGSIZE := by decide

theorem tree_bytes {off n : Nat} (hle : off + n ≤ 84) :
    bytes treeDisk (dinode .tree treeDisk 51) off n = (blankElf.drop off).take n := by
  refine List.ext_getElem ?_ fun i h1 h2 => ?_
  · rw [length_bytes, List.length_take, List.length_drop, show blankElf.length = 84 from rfl]
    omega
  · rw [length_bytes] at h1
    simp only [bytes, List.getElem_map, List.getElem_range, List.getElem_take, List.getElem_drop]
    rw [blankElf_byte (by omega), List.getD_eq_getElem]

theorem tree_type : (dinode .tree treeDisk 51).type ≠ T_DEV := by
  rw [tree_file_type]
  decide

theorem tree_opens {cwd : Nat} (hc : (State.tree 1).Cwd cwd) :
    ∃ fs1 fs2, namei cwd [SLASH, 102] (State.tree 1) = .ok (some 51, fs1) ∧
      ilock 51 fs1 = .ok ((), fs1.lock 51) ∧
      (∀ off n, off + n ≤ 84 →
        readi 51 off n (fs1.lock 51) = .ok (some ((blankElf.drop off).take n), fs1.lock 51)) ∧
      iunlockput 51 (fs1.lock 51) = .ok ((), fs2) ∧ SameRefs (State.tree 1) fs2 := by
  have hwf : WellFormed (State.tree 1) := tree_wellFormed
  have hheld : (State.tree 1).Held 51 := tree_held (.inr rfl)
  have hfull : ¬ NINODE ≤ (State.tree 1).cached.length + 1 := by
    have := tree_cached 1
    unfold NINODE
    omega
  obtain ⟨r, fs1, hrun, hres, hwalk⟩ :=
    (namei_walks hwf hc (show 0 ∉ [SLASH, 102] by decide)).returns fun _ he => hfull he.2
  rw [tree_resolve] at hres
  subst hres
  have hwalk : Walk (State.tree 1) fs1 (single 51) := hwalk
  obtain ⟨fs2, hput, hwalk2⟩ := release_run hwf hheld hwalk (hwalk.toStill.lock 51)
    (A := fun _ => 0) ⟨fun _ => rfl, fun _ => rfl⟩
  refine ⟨fs1, fs2, hrun, hwalk.ilock hwf hheld, fun off n hle => ?_, hput, hwalk2.ref, hwalk2.locked⟩
  have hnode : (fs1.lock 51).node 51 = dinode .tree treeDisk 51 := by
    rw [fs1.lock_node, hwalk.cur, tree_cur]
  have hdisk : (fs1.lock 51).disk = treeDisk := hwalk.disk
  rw [readi_present (hwalk.good hwf hheld) (m := n) (by rw [hnode]; exact tree_type)
    (by rw [hnode, tree_file_size]; omega) (by omega) (by rw [hnode, tree_file_size]; omega), hnode,
    hdisk]
  · rw [tree_bytes hle]
  · intro o h1 h2
    have ho : o / BSIZE = 0 := Nat.div_eq_of_lt (by unfold BSIZE; omega)
    rw [hnode, hdisk, ho]
    exact ⟨by decide, by rw [show slot 0 = 0 from rfl, tree_file]; decide⟩

end Fs

namespace Exec

open Bytes Panic Param Function Vm Fs

variable {L : Layout} {M M' M'' : Machine} {s1 s2 s3 s4 : Kernel} {p d ip pg sp n : Nat}
  {path : List UInt8} {argv : List (List UInt8)} {α β : Type}

/-! ## Runs of the machine -/

def Machine.failing (M : Machine) (fs : List Bool) : Machine := { M with vm := { M.vm with fail := fs } }

def Runs (m : XM α) (M : Machine) (v : α) (M' : Machine) : Prop :=
  ∃ k, ∀ fs, m (M.failing (List.replicate k false ++ fs)) = .ok (v, M'.failing fs)

theorem Runs.bind {m : XM α} {f : α → XM β} {v : α} {r : β} (h : Runs m M v M')
    (h' : Runs (f v) M' r M'') : Runs (m >>= f) M r M'' := by
  obtain ⟨k, h⟩ := h
  obtain ⟨k', h'⟩ := h'
  refine ⟨k + k', fun fs => ?_⟩
  rw [List.replicate_add, List.append_assoc, bind_run (h _)]
  exact h' fs

theorem runs_pure {v : α} : Runs (pure v) M v M := ⟨0, fun _ => rfl⟩

theorem runs_modify {g : Machine → Machine} (hg : ∀ fs, g (M.failing fs) = (g M).failing fs) :
    Runs (modify g) M () (g M) := ⟨0, fun fs => congrArg (fun s => Except.ok ((), s)) (hg fs)⟩

theorem runs_get {f : Machine → XM β} {r : β} (hf : ∀ fs, f (M.failing fs) = f M)
    (h : Runs (f M) M r M') : Runs (get >>= f) M r M' := by
  obtain ⟨k, h⟩ := h
  refine ⟨k, fun fs => ?_⟩
  rw [bind_run get_run, hf]
  exact h fs

theorem runs_onVm {m : KM α} {v : α} {s : Kernel} (h : Vm.Runs m M.vm v s) :
    Runs (onVm m) M v { M with vm := s } := by
  obtain ⟨k, h⟩ := h
  exact ⟨k, fun fs => onVm_run (h fs)⟩

theorem runs_onFs {m : FsM α} {v : α} {fs : State} (h : m M.fs = .ok (v, fs)) :
    Runs (onFs m) M v { M with fs := fs } := by
  refine ⟨0, fun _ => ?_⟩
  have h : ∀ l, m (M.failing l).fs = .ok (v, fs) := fun _ => h
  simp only [onFs, h]
  rfl

/-! ## `exec` of the file -/

theorem onFs_run {m : FsM α} {a : α} {fs : State} (h : m M.fs = .ok (a, fs)) :
    onFs m M = .ok (a, { M with fs := fs }) := by
  simp only [onFs, h]

/-- The file is open and its header read; what is left is `execElf`. -/
theorem exec_reads (L : Layout) (argv : List (List UInt8)) {cwd : Nat} (hcwd : (State.tree 1).Cwd cwd) :
    ∃ fs1 fs2 elf, get32 elf 28 = 52 ∧ get16 elf 44 = 1 ∧ get32 elf 24 = 0 ∧
      (∀ off n, off + n ≤ 84 → readi 51 off n fs1 = .ok (some ((blankElf.drop off).take n), fs1)) ∧
      iunlockput 51 fs1 = .ok ((), fs2) ∧ SameRefs (.tree 1) fs2 ∧
      ∀ M : Machine, M.fs = .tree 1 → M.cwd p = cwd → exec L p [SLASH, 102] argv M =
        execElf L p [SLASH, 102] argv 51 elf { M with fs := fs1, outstanding := M.outstanding + 1 } := by
  obtain ⟨fs1, fs2, hnamei, hlock, hread, hput, hrefs⟩ := tree_opens hcwd
  obtain ⟨hlen, hmagic, hnum, hoff, hentry⟩ := blankElf_header
  refine ⟨fs1.lock 51, fs2, _, hoff, hnum, hentry, hread, hput, hrefs, fun M hfs hc => ?_⟩
  have helf := hread 0 ELFHDR (by decide)
  generalize (blankElf.drop 0).take ELFHDR = elf at *
  rw [exec, bind_run beginOp_run, bind_run get_run,
    bind_run (onFs_run (M := { M with outstanding := M.outstanding + 1 })
    (by rw [hfs, hc]; exact hnamei))]
  simp only
  rw [bind_run (onFs_run hlock)]
  have hall : (reader 51).readAll 0 ELFHDR { M with
      fs := fs1.lock 51, outstanding := M.outstanding + 1 } = .ok (some fun i => elf.getD i 0, { M with
      fs := fs1.lock 51, outstanding := M.outstanding + 1 }) := by
    rw [Reader.readAll, bind_run (onFs_run helf), whole, if_pos hlen]
    rfl
  rw [bind_run hall]
  simp only [hmagic, ne_eq, not_true_eq_false, if_false]

theorem loadSegs_blank {σ : Type} {F : Reader σ} {x x1 x2 : σ} {t w : Nat}
    (hph : F.readi 52 PROGHDR x = .ok (some ((blankElf.drop 52).take PROGHDR), x))
    (halloc : F.run (allocuvm L pg 0 (2 * PGSIZE)) x = .ok (2 * PGSIZE, x1))
    (hwalk : F.run (walkpgdir pg 0 false) x1 = .ok (some (t, 0), x1))
    (hword : F.run (load t 0) x1 = .ok (w, x1)) (hread : F.readi 0 84 x1 = .ok (some blankElf, x1))
    (hset : F.run (setBytes (pteAddr w) 0 blankElf) x1 = .ok ((), x2)) :
    loadSegs L pg F 1 52 0 x = .ok (some (2 * PGSIZE), x2) := by
  obtain ⟨hlen, hload, hoff, hvaddr, hfilesz, hmemsz⟩ := blankElf_program
  have hall : F.readAll 52 PROGHDR x =
      .ok (some fun i => ((blankElf.drop 52).take PROGHDR).getD i 0, x) := by
    rw [Reader.readAll, bind_run hph, whole, if_pos hlen]
    rfl
  have hlu : loaduvm pg 0 F 0 84 x1 = .ok (true, x2) := by
    rw [loaduvm, if_neg (by decide), show (84 + PGSIZE - 1) / PGSIZE = 1 from rfl, loadLoop]
    refine (bind_run hwalk).trans ((bind_run hword).trans ((bind_run hread).trans ?_))
    exact bind_run hset
  rw [loadSegs, bind_run hall]
  simp only [hload, hoff, hvaddr, hfilesz, hmemsz, ne_eq, not_true_eq_false, if_false]
  rw [if_neg (by decide), if_neg (by decide)]
  refine (bind_run halloc).trans ?_
  rw [if_neg (by decide), if_neg (by decide)]
  exact bind_run hlu

theorem exec_opens (argv : List (List UInt8)) (hfs : M.fs = State.tree 1)
    (hcwd : (State.tree 1).Cwd (M.cwd p))
    (hset : Vm.Runs (setupkvm L) M.vm (some pg) s1)
    (halloc : Vm.Runs (allocuvm L pg 0 (2 * PGSIZE)) s1 (2 * PGSIZE) s2)
    (hloads : Loads s2 s3 pg blankElf) :
    ∃ fs, SameRefs M.fs fs ∧ ∀ r M', Runs (do
        match ← onVm (do userStack L (← curdir p) pg (2 * PGSIZE) argv) with
        | none => bad L (some pg) none
        | some (sz, sp) => commit L p pg sz 0 sp [SLASH, 102]) { M with vm := s3, fs := fs } r M' →
      Runs (exec L p [SLASH, 102] argv) M r M' := by
  obtain ⟨fs1, fs2, elf, hoff, hnum, hentry, hread, hput, hrefs, hexec⟩ := exec_reads (p := p) L argv hcwd
  refine ⟨fs2, hfs ▸ hrefs, fun r M' hrest => ?_⟩
  obtain ⟨t, w, hwalk, hword, hbytes⟩ := hloads
  have hsegs : Runs (loadSegs L pg (reader 51) 1 52 0)
      { M with vm := s1, fs := fs1, outstanding := M.outstanding + 1 } (some (2 * PGSIZE))
      { M with vm := s3, fs := fs1, outstanding := M.outstanding + 1 } := by
    obtain ⟨k, halloc⟩ := halloc
    refine ⟨k, fun l => ?_⟩
    have hvm : ∀ {α : Type} {m : KM α} {v : α} {s : Kernel}, m { s2 with fail := l } = .ok (v, s) →
        onVm m { M with vm := { s2 with fail := l }, fs := fs1, outstanding := M.outstanding + 1 } =
          .ok (v, { M with vm := s, fs := fs1, outstanding := M.outstanding + 1 }) := fun h => onVm_run h
    exact loadSegs_blank (onFs_run (hread 52 _ (by decide))) (onVm_run (halloc l)) (hvm (hwalk l))
      (hvm (hword l)) (onFs_run (hread 0 84 (by decide))) (hvm (hbytes l))
  have hrun : Runs (execElf L p [SLASH, 102] argv 51 elf)
      { M with fs := fs1, outstanding := M.outstanding + 1 } r M' := by
    unfold execElf
    rw [hoff, hnum, hentry]
    refine (runs_onVm (M := { M with fs := fs1, outstanding := M.outstanding + 1 }) hset).bind
      (hsegs.bind ((runs_onFs hput).bind ((runs_modify fun _ => rfl).bind ?_)))
    simp only [Nat.add_sub_cancel]
    exact hrest
  obtain ⟨k, hrun⟩ := hrun
  exact ⟨k, fun l => (hexec (M.failing (List.replicate k false ++ l)) hfs rfl).trans (hrun l)⟩

theorem runs_switchuvm {s : Kernel} (pg : Nat) (hk : (s.proc p).kstack ≠ none)
    (hd : (s.proc p).pgdir = some pg) :
    Vm.Runs (switchuvm p) s () s := by
  unfold switchuvm
  refine Vm.runs_get (fun _ => rfl) ?_
  rw [if_neg hk]
  refine Vm.runs_get (fun _ => rfl) ?_
  rw [if_neg (by rw [hd]; nofun)]
  exact Vm.runs_pure

theorem runs_commit {sz entry : Nat} (hd : (M.vm.proc p).pgdir = some d)
    (hk : (M.vm.proc p).kstack ≠ none) (hfree : Vm.Runs (freevm L (some d)) { M.vm with
      proc := update M.vm.proc p { M.vm.proc p with pgdir := some pg, sz := sz } } () s1) :
    Runs (commit L p pg sz entry sp path) M 0 { M with
      vm := s1
      tf := update M.tf p ⟨entry, sp⟩
      name := update M.name p (safestrcpy (lastElem path path) 16) } := by
  unfold commit
  refine (runs_modify fun _ => rfl).bind (runs_get (fun _ => rfl) ?_)
  refine (runs_onVm steady_setProc.runs).bind ((runs_modify fun _ => rfl).bind ?_)
  refine (runs_onVm (runs_switchuvm pg ?_ ?_)).bind ?_
  · simp only [update_self]
    exact hk
  · simp only [update_self]
  · simp only [hd]
    exact (runs_onVm (M := { M with
      vm := { M.vm with
        proc := update M.vm.proc p { M.vm.proc p with pgdir := some pg, sz := sz } }
      tf := update M.tf p ⟨entry, sp⟩
      name := update M.name p (safestrcpy (lastElem path path) 16) }) hfree).bind runs_pure

theorem exec_launches {a0 a1 a2 a3 a4 : Nat} {fl : List Nat} (hfs : M.fs = State.tree 1)
    (hcwd : (State.tree 1).Cwd (M.cwd p)) (hd : (M.vm.proc p).pgdir = some d)
    (hk : (M.vm.proc p).kstack ≠ none) (hlen : 2000 ≤ M.vm.freelist.length)
    (ho : Own M.vm fun _ => 0)
    (hfl : M.vm.freelist.drop (kernelPages L) = a0 :: a1 :: a2 :: a3 :: a4 :: fl) :
    ∃ pg s q fs, Prepared L M.vm s pg a0 a2 a3 a4 ∧ SameRefs M.fs fs ∧
      ∀ s', Vm.Runs (freevm L (some d)) { s with
          mem := update s.mem a4 q
          proc := update s.proc p
            { s.proc p with pgdir := some pg, sz := 4 * PGSIZE } } () s' →
        Runs (exec L p [SLASH, 102] [[SLASH, 102]]) M 0 { M with
          vm := s', fs := fs
          tf := update M.tf p ⟨0, 4 * PGSIZE - 24⟩
          name := update M.name p [102] } := by
  obtain ⟨pg, s1, s2, s2', s3, s4, hset, halloc, hloads, halloc', hclr, -, hproc, -, hprep⟩ :=
    program_runs blankElf hlen ho hfl
  obtain ⟨q, hpush⟩ := pushFrame_path L d (ho.trans hprep.trans).solo hprep.stack
  obtain ⟨fs, hrefs, hopen⟩ := exec_opens [[SLASH, 102]] hfs hcwd hset halloc hloads
  refine ⟨pg, s4, q, fs, hprep, hrefs, fun s' hfree => hopen _ _ ?_⟩
  have hcur : Steady (curdir p) s2' d s2' := curdir_steady (by rw [hproc]; exact hd)
  have hstack := Vm.Runs.bind (f := fun cur => userStack L cur pg (2 * PGSIZE) [[SLASH, 102]])
    hcur.runs (userStack_runs halloc' hclr hpush.runs)
  refine (runs_onVm (M := { M with vm := s2', fs := fs }) hstack).bind ?_
  refine runs_commit (M := { M with vm := { s4 with mem := update s4.mem a4 q }, fs := fs }) ?_ ?_ hfree
  · rw [hprep.trans.proc]
    exact hd
  · rw [hprep.trans.proc]
    exact hk

/-! ## The first process -/

def Machine.first (s : Kernel) : Machine where
  vm := s
  fs := .tree 1
  outstanding := 0
  cwd _ := ROOTINO
  tf _ := ⟨0, 0⟩
  name _ := []

theorem first_cwd : (State.tree 1).Cwd ROOTINO := ⟨(tree_held (.inl rfl)).1, by decide⟩

theorem first_bounded : Bounded (State.tree 1).devsw := nofun

theorem exists_five {l : List Nat} (h : 5 ≤ l.length) :
    ∃ a b c d e t, l = a :: b :: c :: d :: e :: t := by
  match l with
  | a :: b :: c :: d :: e :: t => exact ⟨a, b, c, d, e, t, rfl⟩

theorem first_caller {s : Kernel} (hup : Up smallLayout s) (h : First s d) (l : List Bool)
    (ha : ∀ a ∈ argv, 0 ∉ a ∧ a.length < KERNBASE) :
    Caller smallLayout (.first { s with fail := l }) 0 d [SLASH, 102] argv := by
  obtain ⟨ho, hw, -⟩ := h.owned hup
  exact ⟨h.pgdir, ho.fail, hw, tree_wellFormed, first_cwd, first_bounded, by decide, ha⟩

theorem reaches_aligned {img : Image} {s s' : Kernel} {sz : Nat} (ho : Own s fun _ => 0)
    (h : reaches L img s = .ok (some sz, s')) : sz % PGSIZE = 0 ∧ sz ≠ 0 := by
  unfold reaches at h
  cases helf : img.readAll 0 ELFHDR with
  | none =>
    rw [helf] at h
    cases h
  | some elf =>
    rw [helf] at h
    simp only [ite_ok] at h
    rcases h with ⟨-, h⟩ | ⟨-, h⟩
    · cases h
    obtain ⟨o, s1, hset, h⟩ := bind_ok.1 h
    rcases setupkvm_spec hset ho with ⟨rfl, -⟩ | ⟨pg, rfl, hb⟩
    · cases h
    obtain ⟨o, s2, hsegs, h⟩ := bind_ok.1 h
    obtain ⟨hg, hk⟩ :=
      (loadSegs_ends img _ _ (ho.trans hb.trans) hb.toKernelDir.holds (by decide)).ok hsegs
    cases o with
    | none => cases h
    | some k =>
      obtain ⟨r, s3, halloc, h⟩ := bind_ok.1 h
      obtain ⟨-, -, -, -, hk, -⟩ := hk k rfl
      have halign := (pgroundup_bounds hk.le).2.2.2
      have hr := (allocuvm_spec halloc ((ho.trans hb.trans).trans hg.trans)).2
      obtain ⟨h, -⟩ := pure_ok.1 h
      split at h
      · cases h
      · rename_i hne
        obtain rfl := Option.some.inj h
        obtain ⟨-, hr⟩ := hr.resolve_left hne
        unfold PGSIZE UINT at *
        omega

/-- **The first process starts the program `/f`**, with the path as its argument. -/
theorem exec_first : ∃ s M' d, ∃ hc : Caller smallLayout (.first s) 0 d [SLASH, 102] [[SLASH, 102]],
    Fits smallLayout (.first s) 0 [SLASH, 102] [[SLASH, 102]] hc.dev ∧
      exec smallLayout 0 [SLASH, 102] [[SLASH, 102]] (.first s) = .ok (0, M') := by
  obtain ⟨s, d, hup, hfirst⟩ := boot_first smallLayout_first
  obtain ⟨ho, hw, -⟩ := hfirst.owned hup
  have hi := hup.inv hfirst.hist
  have hst : (s.proc 0).state ≠ .unused := by simp [hfirst.state]
  obtain ⟨_, k, hsp⟩ := hi.space 0 (by decide) hst
  have ho0 : Own s fun _ => 0 := ho.mono fun _ => Nat.zero_le _
  have hlen := hfirst.free
  obtain ⟨a0, a1, a2, a3, a4, fl, hfl⟩ := exists_five (l := s.freelist.drop (kernelPages smallLayout)) (by
    have := kernelPages_le (L := smallLayout)
    rw [List.length_drop]
    omega)
  obtain ⟨pg, s1, q, fs, hprep, -, hrun⟩ := exec_launches (M := .first s) (p := 0) rfl first_cwd
    hfirst.pgdir (by rw [show (Machine.first s).vm = s from rfl, hsp.kstack]; nofun)
    (show 2000 ≤ s.freelist.length by omega) ho0 hfl
  have hsolo := fun f => ho.le_one f
  obtain ⟨s2, hfree, -⟩ := hprep.freevm_old ho0 hw (fun f hf => by
    have h1 := hsolo f
    have h2 : 0 < dirUse s.mem d f := by
      rcases hf with rfl | ⟨i, hi, hp, rfl⟩
      · exact dirUse_self
      · exact dirUse_table hi hp
    show pool s f = 0
    omega) (fun f => by
    have h1 := hsolo f
    have h2 : pool s f + 0 = pool s1 f + dirUse s1.mem pg f := hprep.trans.count f
    show pool s1 f + dirUse s.mem d f ≤ 1
    omega) q _
  obtain ⟨k, hrun⟩ := hrun s2 hfree.runs
  refine ⟨_, _, d, first_caller hup hfirst _ (by decide), fun ip _ sz s' hreach => ?_, hrun []⟩
  obtain ⟨hal, hne⟩ := reaches_aligned ho0.fail hreach
  refine ⟨.inl ?_, fun _ _ => trivial⟩
  show (sz + UINT - 3) % UINT / 4 * 4 < sz
  unfold PGSIZE at hal
  unfold UINT
  omega

/-- **No page is left for the new directory**, whatever the arguments are. -/
theorem exec_refused (argv : List (List UInt8)) (ha : ∀ a ∈ argv, 0 ∉ a ∧ a.length < KERNBASE) :
    ∃ s M' d, ∃ hc : Caller smallLayout (.first s) 0 d [SLASH, 102] argv,
      Fits smallLayout (.first s) 0 [SLASH, 102] argv hc.dev ∧
        exec smallLayout 0 [SLASH, 102] argv (.first s) = .ok (-1, M') := by
  obtain ⟨s, d, hup, hfirst⟩ := boot_first smallLayout_first
  have hset : setupkvm smallLayout { s with fail := [true] } = .ok (none, { s with fail := [] }) := rfl
  obtain ⟨fs1, fs2, elf, -, -, -, -, hput, -, hexec⟩ := exec_reads (p := 0) smallLayout argv first_cwd
  have hrun := hexec (.first { s with fail := [true] }) rfl rfl
  rw [execElf, bind_run (onVm_run hset)] at hrun
  refine ⟨{ s with fail := [true] }, _, d, first_caller hup hfirst _ ha, fun ip _ sz s' hreach => ?_,
    hrun.trans (bind_run (onFs_run hput))⟩
  have hreach : reaches smallLayout (image (.tree 1) ip first_bounded) { s with fail := [true] } =
    .ok (some sz, s') := hreach
  unfold reaches at hreach
  cases helf : (image (.tree 1) ip first_bounded).readAll 0 ELFHDR with
  | none =>
    rw [helf] at hreach
    cases hreach
  | some elf =>
    rw [helf] at hreach
    simp only [ite_ok] at hreach
    rcases hreach with ⟨-, hreach⟩ | ⟨-, hreach⟩
    · cases hreach
    · rw [bind_run hset] at hreach
      cases hreach

end Exec
