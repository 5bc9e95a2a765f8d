import Mathlib.Tactic.IntervalCases
import Xv6.Vm.Proof.Boot
import Xv6.Vm.Proof.Take

/-!
# The null entry

`uva2ka` reads through the entry pointer that `walkpgdir` returns, also when it is null. The kernel then
takes the word at address 0 of the calling process for the page-table entry, and the process chooses that
word: `copyout` to an address without a page table writes the page that the word names (`copyout_null`).
-/

namespace Vm

open Bytes Panic Function

variable {L : Layout} {s s' : Kernel} {m : Nat → Store} {Y : Nat → Nat}
  {d e f g i j k n p c x w t va : Nat} {bs : List UInt8}

/-! ## The memory of the attacker -/

/-- The first process has `n` pages of memory; `t` is its first page table and `g` its first page. -/
structure Armed (L : Layout) (s : Kernel) (d t g n : Nat) : Prop where
  up : Up L s
  state : (s.proc 0).state = .runnable
  pgdir : (s.proc 0).pgdir = some d
  sz : (s.proc 0).sz = n * PGSIZE
  free : 2000 ≤ s.freelist.length
  hist : s.hist = []
  pde : ent s.mem d 0 = userPte t
  pte : entry s.mem d 0 0 = some (userPte g)
  page : ∀ x < n, UserPage s.mem d x

section
variable (h : Armed L s d t g n)
include h

theorem Armed.inv : Inv L s := h.up.inv h.hist

theorem Armed.alive : (s.proc 0).state ≠ .unused := by simp [h.state]

theorem Armed.space : ∃ k, Space s 0 d k := h.inv.space_of (by decide) h.alive h.pgdir

theorem Armed.own : Own s (dirUse s.mem d) :=
  h.space.elim fun _ hsp => h.inv.own_dir (by decide) h.alive hsp

theorem Armed.own_none : Own s fun _ => 0 := h.own.mono fun _ => Nat.zero_le _

theorem Armed.within : Within L s (dirUse s.mem d) :=
  h.space.elim fun _ hsp => h.inv.within_dir (by decide) h.alive hsp

theorem Armed.sz_lt : n * PGSIZE < KERNBASE := by
  obtain ⟨k, hsp⟩ := h.space
  exact h.sz ▸ hsp.sz

end

theorem sbrk_runs (hup : Up L s) (hfirst : First s d) (hn0 : 0 < n) (hn : n ≤ 50000) :
    ∃ s' t g, Armed L s' d t g (n + 1) ∧ s'.freelist <:+ s.freelist ∧
      s'.freelist.length + n ≤ s.freelist.length ∧
      s.freelist.length ≤ s'.freelist.length + n + 512 := by
  obtain ⟨t, ht⟩ := hfirst.pde
  obtain ⟨g, hg⟩ := hfirst.pte
  have hpage : UserPage s.mem d 0 := ⟨t, g, ht, hg⟩
  have harm : Armed L s d t g 1 := ⟨hup, hfirst.state, hfirst.pgdir, hfirst.sz,
    (by have := hfirst.free; omega), hfirst.hist, ht, hg, fun x hx => by
      obtain rfl : x = 0 := by omega
      exact hpage⟩
  have ho := harm.own
  have hlong := hfirst.free
  have hcount : 1 + n = pageCount ((n + 1) * PGSIZE) := by
    unfold pageCount pgroundup PGSIZE UINT
    omega
  have hall : Room userTables (s.freelist.length - n - 512 + n) s d := room_of_length (by omega)
  obtain ⟨_, s1, hrun, rfl, hadd, hnew, hroom, hpdes⟩ := (allocLoop_grows (L := L) (x := 1) (n := n)
    (show (n + 1) * PGSIZE < KERNBASE by unfold PGSIZE KERNBASE; omega)
    (show PGSIZE < (n + 1) * PGSIZE by unfold PGSIZE; omega)
    (by decide) hcount ho).runs ⟨hall.mono (by omega), fun z h1 h2 =>
    mapping_none.2 (hfirst.rest z h1 (by omega))⟩
  have hroom := hroom _ hall
  rw [← hcount] at hadd hnew
  have halloc : Runs (resize L d PGSIZE (n * PGSIZE : Nat)) s ((n + 1) * PGSIZE) s1 := by
    have hsz : (((PGSIZE : Nat) + (n * PGSIZE : Nat) : Int) % (UINT : Nat)).toNat = (n + 1) * PGSIZE := by
      unfold PGSIZE UINT
      omega
    have hcount : ((n + 1) * PGSIZE - pgroundup PGSIZE + PGSIZE - 1) / PGSIZE = n := by
      unfold pgroundup PGSIZE UINT
      omega
    have hstart : pgroundup PGSIZE = 1 * PGSIZE := rfl
    unfold resize
    rw [if_pos (by unfold PGSIZE; omega), hsz, allocuvm, if_neg (by unfold PGSIZE KERNBASE; omega),
      if_neg (by unfold PGSIZE; omega), hcount, hstart]
    exact hrun
  have hcall : Runs (call L 0 (.sbrk (n * PGSIZE : Nat))) s (some (PGSIZE : Nat)) { s1 with
      proc := update s1.proc 0 { s1.proc 0 with sz := (n + 1) * PGSIZE } } := by
    have hgrow : Runs (growproc L 0 (n * PGSIZE : Nat)) s 0 { s1 with
        proc := update s1.proc 0 { s1.proc 0 with sz := (n + 1) * PGSIZE } } := by
      unfold growproc
      refine (curdir_steady hfirst.pgdir).runs.bind (runs_get (fun _ => rfl) ?_)
      rw [hfirst.sz]
      refine halloc.bind ?_
      rw [if_neg (by unfold PGSIZE; omega)]
      exact runs_get (fun _ => rfl) (steady_setProc.runs.bind runs_pure)
    rw [call, map_eq_pure_bind]
    refine Runs.bind (v := ((PGSIZE : Nat) : Int)) ?_ runs_pure
    unfold sysSbrk
    refine runs_get (fun _ => rfl) (hgrow.bind ?_)
    rw [if_neg (by decide), hfirst.sz]
    exact runs_pure
  have hpres : present (ent s.mem d 0) = true := by rw [ht, present_mkPte]
  have hpde : ent s1.mem d 0 = ent s.mem d 0 := hadd.pde 0 (.inr hpres)
  obtain ⟨fs, hr⟩ := hrun.run
  obtain ⟨hpop, hlen⟩ := allocLoop_pops (by unfold PGSIZE; omega) hr
  have hlen' : s.freelist.length ≤ s1.freelist.length + n + 512 := by
    unfold Room at hroom
    omega
  refine ⟨_, t, g, ⟨hup.call (c := .sbrk (n * PGSIZE : Nat)) (by decide)
    (.inl hfirst.state) trivial hcall, ?_, ?_, ?_, ?_, ?_, ?_, ?_, fun x hx => ?_⟩, hpop, hlen, hlen'⟩
  · simp only [update_self, hadd.trans.proc, hfirst.state]
  · simp only [update_self, hadd.trans.proc, hfirst.pgdir]
  · simp only [update_self]
  · have := hfirst.free
    simp only
    omega
  · exact hadd.hist.trans hfirst.hist
  · exact hpde.trans ht
  · obtain ⟨t', g', ht', hg'⟩ := hadd.userPage (by decide) (.inl (by decide)) hpage
    have hpage' := hadd.page 0 (by decide) (.inl (by decide))
    rw [pageEnt, pageEnt, hg', show entry s.mem d (0 / 1024) (0 % 1024) = _ from hg, Option.getD_some,
      Option.getD_some] at hpage'
    exact hg'.trans (congrArg some hpage')
  · by_cases hx0 : x = 0
    · subst hx0
      exact hadd.userPage (by decide) (.inl (by decide)) hpage
    · obtain ⟨f, -, hf, -⟩ := hnew x (by omega) (by omega)
      exact (hpdes hfirst.pdes).page (by omega) (entry_of_mapping hf)

/-! ## Storing bytes -/

theorem user_userPte : user (userPte f) = true := by
  simp only [user, mkPte, Nat.testBit_or, show PTE_W.testBit 2 = false from rfl,
    show PTE_U.testBit 2 = true from rfl, Bool.or_true, Bool.true_or]

theorem writable_userPte : writable (userPte f) = true := by
  simp only [writable, mkPte, Nat.testBit_or, show PTE_W.testBit 1 = true from rfl,
    Bool.or_true, Bool.true_or]

theorem translate_steady {v w : Nat} (va : Nat) (ok : Nat → Bool) (hpde : ent s.mem d (pdx va) = v)
    (hp : present v = true) (hv : ok v = true) (hpte : entry s.mem d (pdx va) (ptx va) = some w)
    (hpw : present w = true)
    (hw : ok w = true) : Steady (translate d va ok) s (pteAddr w) s := by
  subst hpde
  have he : ent s.mem (pteAddr (ent s.mem d (pdx va))) (ptx va) = w := by
    rw [entry_eq hp] at hpte
    exact Option.some.inj hpte
  unfold translate
  refine steady_load.bind ?_
  simp only [hp, hv, Bool.and_self, Bool.not_true, Bool.false_eq_true, if_false]
  refine steady_load.bind ?_
  simp only [he, hpw, hw, Bool.and_self, Bool.not_true, Bool.false_eq_true, if_false]
  exact fun _ => rfl

theorem userFrame_of_page (h : entry m d (va / PGSIZE / 1024) (va / PGSIZE % 1024) =
    some (userPte f)) (hva : va < KERNBASE) : userFrame m d va = some f := by
  have hdx : pdx va = va / PGSIZE / 1024 := by unfold pdx PGSIZE KERNBASE at *; omega
  have htx : ptx va = va / PGSIZE % 1024 := by unfold ptx PGSIZE KERNBASE at *; omega
  rw [userFrame, hdx, htx, h]
  simp only [present_mkPte, if_true, pteAddr_userPte]

theorem userByte_store {b : UInt8} {a : Nat} (hs : Solo m d) (hf : userFrame m d va = some f)
    (hva : va < KERNBASE) (ha : a < KERNBASE)
    (hsame : SameDir m (update m f (copy (m f) (va % PGSIZE) (fun i => [b].getD i 0) 0 1)) d) :
    userByte (update m f (copy (m f) (va % PGSIZE) (fun i => [b].getD i 0) 0 1)) d a =
      if a = va then some b else userByte m d a := by
  have hframe : userFrame (update m f (copy (m f) (va % PGSIZE) (fun i => [b].getD i 0) 0 1))
      d a = userFrame m d a := by
    unfold userFrame
    rw [hsame.entry (pdx_lt a)]
  unfold userByte
  rw [hframe]
  by_cases hav : a = va
  · subst hav
    simp [hf, copy]
  · rw [if_neg hav]
    cases hg : userFrame m d a with
    | none => rfl
    | some g =>
      by_cases hgf : g = f
      · subst hgf
        have hle : userUse m d g ≤ 1 := by
          have := hs g
          unfold dirUse at this
          omega
        have hround := userFrame_inj hle hf hva hg ha
        have hne : ¬ (va % PGSIZE ≤ a % PGSIZE ∧ a % PGSIZE < va % PGSIZE + 1) := by
          unfold pgrounddown PGSIZE at *
          omega
        rw [Option.map_some, Option.map_some, update_self, copy, if_neg hne]
      · rw [Option.map_some, Option.map_some, update_of_ne hgf]

theorem store_armed (va : Nat) (b : UInt8) (h : Armed L s d t g n) (hva : va < n * PGSIZE) :
    ∃ s', Armed L s' d t g n ∧ s'.freelist = s.freelist ∧ ∀ a < KERNBASE,
      userByte s'.mem d a = if a = va then some b else userByte s.mem d a := by
  have ho := h.own
  have hlt : va < KERNBASE := hva.trans h.sz_lt
  have hdx : pdx va = va / PGSIZE / 1024 := by unfold pdx PGSIZE KERNBASE at *; omega
  have htx : ptx va = va / PGSIZE % 1024 := by unfold ptx PGSIZE KERNBASE at *; omega
  obtain ⟨t', f, hpde, hpte⟩ := h.page (va / PGSIZE) (by unfold PGSIZE at *; omega)
  have hok : ∀ f, (user (userPte f) &&
      writable (userPte f)) = true := fun f => by
    rw [user_userPte, writable_userPte]
    rfl
  have htr := translate_steady va (fun w => user w && writable w)
    (by rw [hdx]; exact hpde) present_mkPte (hok t') (by rw [hdx, htx]; exact hpte) present_mkPte (hok f)
  rw [pteAddr_userPte] at htr
  have hpoke : Steady (poke d (fun w => user w && writable w) va [b]) s () _ :=
    htr.bind (steady_setBytes.bind fun fs => rfl)
  have hcall : Runs (call L 0 (.store va b)) s (some 0) _ :=
    (curdir_steady h.pgdir).runs.bind (hpoke.runs.bind runs_pure)
  have hsame := fun p => ho.solo.same_user (p := p) (by unfold PGSIZE KERNBASE at *; omega)
    (Nat.mod_lt _ (by decide)) hpte present_mkPte
  rw [pteAddr_userPte] at hsame
  have hvalid : Call.Valid s 0 (.store va b) := by
    show va < UINT
    unfold UINT KERNBASE at *
    omega
  refine ⟨_, ⟨h.up.call (c := .store va b) (by decide) (.inl h.state) hvalid hcall, h.state, h.pgdir,
    h.sz, h.free, h.hist, (hsame _).ent.trans h.pde, ((hsame _).entry (by decide)).trans h.pte,
    fun x hx => ?_⟩, rfl, fun a ha =>
      userByte_store ho.solo (userFrame_of_page hpte hlt) hlt ha (hsame _)⟩
  obtain ⟨u, v, hu, hv⟩ := h.page x hx
  have hxlt : x / 1024 < NPDENTRIES := by
    have h1 := h.sz_lt
    unfold NPDENTRIES KERNBASE PGSIZE at *
    omega
  exact ⟨u, v, (hsame _).ent.trans hu, ((hsame _).entry hxlt).trans hv⟩

theorem bytes_armed (va : Nat) (bs : List UInt8) (h : Armed L s d t g n)
    (hva : va + bs.length ≤ n * PGSIZE) :
    ∃ s', Armed L s' d t g n ∧ s'.freelist = s.freelist ∧ ∀ a < KERNBASE, userByte s'.mem d a =
      if va ≤ a ∧ a < va + bs.length then some (bs.getD (a - va) 0) else userByte s.mem d a := by
  induction bs generalizing va s with
  | nil => exact ⟨s, h, rfl, fun a _ => by rw [if_neg (by simp)]⟩
  | cons b bs ih =>
    rw [List.length_cons] at hva
    obtain ⟨s1, h1, hfl, hb⟩ := store_armed va b h (by omega)
    obtain ⟨s', h', hfl', hbs⟩ := ih (va + 1) h1 (by omega)
    refine ⟨s', h', hfl'.trans hfl, fun a ha => ?_⟩
    rw [hbs a ha, hb a ha, List.length_cons]
    by_cases hav : a = va
    · subst hav
      simp
    · by_cases hin : va + 1 ≤ a ∧ a < va + 1 + bs.length
      · rw [if_pos hin, if_pos (by omega), show a - va = a - (va + 1) + 1 by omega,
          List.getD_cons_succ]
      · rw [if_neg hin, if_neg hav, if_neg (by omega)]

theorem Armed.word (h : Armed L s d t g n) (hw : w < UINT)
    (hb : ∀ i < 4, userByte s.mem d i = some (UInt8.ofNat (w / 2 ^ (8 * i)))) :
    ent s.mem g 0 = w := by
  have hbyte : ∀ i < 4, s.mem g i = UInt8.ofNat (w / 2 ^ (8 * i)) := fun i hi => by
    have h1 := hb i hi
    have hz : i / PGSIZE = 0 := Nat.div_eq_of_lt (by unfold PGSIZE; omega)
    have hm : i % PGSIZE = i := Nat.mod_eq_of_lt (by unfold PGSIZE; omega)
    rw [userByte, userFrame_of_page (by rw [hz]; exact h.pte) (by unfold KERNBASE; omega),
      Option.map_some, hm] at h1
    exact Option.some.inj h1
  unfold UINT at hw
  simp [ent, get32, get16, hbyte 0 (by decide), hbyte 1 (by decide), hbyte 2 (by decide),
    hbyte 3 (by decide)]
  omega

/-! ## A copy through the null entry -/

theorem kmap_covers : (¬ ∃ k ∈ kmap smallLayout, k.Covers 1014) ∧
    ∃ k ∈ kmap smallLayout, k.Covers 1015 := by
  constructor
  · rintro ⟨k, hk, z, h1, h2, h3⟩
    have hgap : ∀ k ∈ kmap smallLayout, k.last < 1014 * 1024 ∨ 1015 * 1024 ≤ k.first := by decide
    have := hgap k hk
    omega
  · exact ⟨_, List.mem_cons_of_mem _ (List.mem_cons_of_mem _ (List.mem_cons_of_mem _
      List.mem_cons_self)), 0xFDFFF, by decide, by decide, rfl⟩

theorem clearpteu_steady (va : Nat) (hp : present (ent s.mem d (pdx va)) = true) :
    Steady (clearpteu d va) s () { s with
      mem := setPte s.mem d (pdx va) (ptx va)
        (clearU (ent s.mem (pteAddr (ent s.mem d (pdx va))) (ptx va))) } := by
  unfold clearpteu
  exact (walkpgdir_steady va hp).bind (steady_load.bind steady_store)

structure Aimed (L : Layout) (s : Kernel) (d t g pg : Nat) : Prop where
  pde : ent s.mem d 0 = userPte t
  pte : entry s.mem d 0 0 = some (userPte g)
  word : ent s.mem g 0 = userPte t
  page : t ∈ pages L
  other : dirUse s.mem pg t = 0

theorem kernelFrame_steady (hf : f ∈ pages L) : Steady (kernelFrame L d f) s f s := fun fs => by
  have hm := mem_pages.1 hf
  have h1 := L.data_gt
  have h2 := L.data_page
  have h3 := L.data_le
  unfold PGSIZE PHYSTOP KERNBASE at hm
  rw [kernelFrame, if_neg (by unfold PHYSTOP PGSIZE; omega),
    if_neg (by unfold EXTMEM PGSIZE KERNBASE; omega)]
  rfl

theorem uva2ka_null (va : Nat) (h : Aimed L s d t g e) (hp : present (ent s.mem e (pdx va)) = false) :
    Steady (uva2ka L d e va) s (some t) { s with hist := .nullPte :: s.hist } := by
  have hwalk : Steady (walkpgdir e va false) s none s := fun fs => by
    rw [walk_run, hp]
    rfl
  have hnote : Steady (note .nullPte) s () { s with hist := .nullPte :: s.hist } := fun _ => rfl
  have htr := translate_steady (s := { s with hist := .nullPte :: s.hist }) 0
    (fun _ => true) h.pde present_mkPte rfl h.pte present_mkPte rfl
  rw [pteAddr_userPte] at htr
  unfold uva2ka
  refine hwalk.bind (hnote.bind (htr.bind (steady_load.bind ?_)))
  simp only [h.word, present_mkPte, user_userPte, Bool.and_self, if_true,
    pteAddr_userPte]
  exact (kernelFrame_steady h.page).bind fun _ => rfl

theorem uva2ka_kernel (hc : KernelClean s.mem e) (hva : KERNBASE ≤ va) (hlt : va < UINT)
    (hp : present (ent s.mem e (pdx va)) = true) : Steady (uva2ka L d e va) s none s := by
  have hu := hc (pdx va) (pdx_lt va) (pdx_kernel hva hlt) (ptx va) (ptx_lt va) _ (entry_eq hp)
  unfold uva2ka
  refine (walkpgdir_steady va hp).bind (steady_load.bind ?_)
  simp only [hu, Bool.and_false, Bool.false_eq_true, if_false]
  exact fun _ => rfl

def overwrite (s : Kernel) (t : Nat) (bs : List UInt8) : Kernel :=
  { s with
    hist := .nullPte :: s.hist
    mem := update s.mem t
      (copy (s.mem t) 0 (fun i => (bs.take PGSIZE).getD i 0) 0 (bs.take PGSIZE).length) }

theorem sameDir_overwrite (h : dirUse s.mem e t = 0) : SameDir s.mem (overwrite s t bs).mem e := by
  have hne : ∀ f, 0 < dirUse s.mem e f → f ≠ t := fun f hf he => by
    rw [he, h] at hf
    omega
  exact ⟨update_of_ne (hne e dirUse_self) _ _,
    fun i hi hp => update_of_ne (hne _ (dirUse_table hi hp)) _ _⟩

theorem pool_overwrite : pool (overwrite s t bs) f = pool s f := by simp [pool, overwrite]

/-- A copy to `0xFDBFF000` writes one page through the null pointer and then fails. -/
theorem copyout_null (h : Aimed L s d t g e) (hgap : present (ent s.mem e 1014) = false)
    (hvram : present (ent s.mem e 1015) = true) (hc : KernelClean s.mem e)
    (hlen : PGSIZE < bs.length) :
    Steady (copyout L d e 0xFDBFF000 bs) s false (overwrite s t bs) := by
  have hsame : SameDir s.mem (overwrite s t bs).mem e := sameDir_overwrite h.other
  obtain ⟨b, bs, rfl⟩ := List.exists_cons_of_length_pos (l := bs) (by omega)
  obtain ⟨b', bs', hdrop⟩ := List.exists_cons_of_length_pos (l := (b :: bs).drop PGSIZE) (by
    rw [List.length_drop]
    omega)
  have hoff : 0xFDBFF000 - pgrounddown 0xFDBFF000 = 0 := by decide
  have hmin : min (PGSIZE - 0) (b :: bs).length = PGSIZE := Nat.min_eq_left (by omega)
  have hnext : (pgrounddown 0xFDBFF000 + PGSIZE) % UINT = 0xFDC00000 := by decide
  have hlow : Steady (uva2ka L d e (pgrounddown 0xFDBFF000)) s (some t)
      { s with hist := .nullPte :: s.hist } := by
    refine uva2ka_null _ h ?_
    rw [show pdx (pgrounddown 0xFDBFF000) = 1014 by decide]
    exact hgap
  have hhigh : Steady (uva2ka L d e (pgrounddown 0xFDC00000)) (overwrite s t (b :: bs)) none
      (overwrite s t (b :: bs)) := by
    refine uva2ka_kernel (hsame.kernelClean hc) (by decide) (by decide) ?_
    rw [show pdx (pgrounddown 0xFDC00000) = 1015 by decide, hsame.ent]
    exact hvram
  rw [copyout]
  refine hlow.bind ?_
  simp only [hoff, hmin, hnext, hdrop]
  refine steady_setBytes.bind ?_
  rw [copyout]
  refine hhigh.bind ?_
  exact fun _ => rfl

theorem freevm_overwrite (bs : List UInt8) (ho : Own s (dirUse s.mem e))
    (hw : Within L s (dirUse s.mem e))
    (ht : dirUse s.mem e t = 0) : ∃ s', Steady (freevm L (some e)) (overwrite s t bs) () s' ∧
      s'.hist = .nullPte :: s.hist ∧ Trans (overwrite s t bs) (dirUse s.mem e) s' fun _ => 0 := by
  have huse : dirUse (overwrite s t bs).mem e = dirUse s.mem e :=
    funext fun f => (sameDir_overwrite ht).dirUse
  have ho' : Own (overwrite s t bs) (dirUse s.mem e) :=
    ⟨fun f => by rw [pool_overwrite]; exact ho.le_one f,
     fun f hf => ho.lt f (by rwa [pool_overwrite] at hf)⟩
  have hw' : Within L (overwrite s t bs) (dirUse s.mem e) :=
    fun f hf => hw f (by rwa [pool_overwrite] at hf)
  rw [← huse] at ho' hw'
  obtain ⟨s', hfree, hh⟩ := freevm_steady ho' hw'
  have htr := (freevm_trans (hfree []) ho'.fail).fail
  rw [huse] at htr
  exact ⟨s', hfree, hh, htr⟩

theorem overwrite_word (hj : j < 1024) (hlen : PGSIZE ≤ bs.length) :
    ent (overwrite s t bs).mem t j = get32 (fun i => bs.getD i 0) (4 * j) := by
  have hbyte : ∀ i < PGSIZE, (overwrite s t bs).mem t i = bs.getD i 0 := fun i hi => by
    simp only [overwrite, update_self, copy, List.length_take, Nat.min_eq_left hlen]
    rw [if_pos (by omega), Nat.sub_zero, Nat.zero_add, List.getD_eq_getElem?_getD,
      List.getElem?_take_of_lt hi, List.getD_eq_getElem?_getD]
  unfold PGSIZE at hbyte
  simp only [ent, get32, get16, hbyte (4 * j) (by omega), hbyte (4 * j + 1) (by omega),
    hbyte (4 * j + 2) (by omega), hbyte (4 * j + 2 + 1) (by omega)]

section
variable (h : Armed L s d t g c)
include h

theorem Armed.uses : pteAddr (ent s.mem d 0) = t ∧ 0 < dirUse s.mem d t ∧ 0 < dirUse s.mem d g := by
  have ht : pteAddr (ent s.mem d 0) = t := by rw [h.pde, pteAddr_userPte]
  have hug := dirUse_user (by decide) (by decide) h.pte present_mkPte
  rw [pteAddr_userPte] at hug
  exact ⟨ht, ht ▸ dirUse_table (by decide) (by rw [h.pde, present_mkPte]), hug⟩

theorem Armed.keeps (htr : Trans s (fun _ => 0) s' Y) (hf : 0 < dirUse s.mem d f) :
    s'.mem f = s.mem f ∧ pool s' f + Y f = 0 := by
  have h1 := h.own.le_one f
  exact ⟨htr.mem f (by omega), by rw [← htr.count f]; omega⟩

theorem Armed.aimed (hword : ent s.mem g 0 = userPte t)
    (htr : Trans s (fun _ => 0) s' (dirUse s'.mem e)) : Aimed L s' d t g e := by
  obtain ⟨ht, hut, hug⟩ := h.uses
  have hd : ent s'.mem d 0 = ent s.mem d 0 := ent_congr (h.keeps htr dirUse_self).1
  refine ⟨hd.trans h.pde, ?_, (ent_congr (h.keeps htr hug).1).trans hword, ?_, ?_⟩
  · rw [← h.pte, entry, entry, hd, ht, ent_congr (h.keeps htr hut).1]
  · exact h.within t (by omega)
  · have := (h.keeps htr hut).2
    omega

end

/-- The process can store an entry for its page table at address 0. -/
theorem Armed.aims (h : Armed L s d t g n) (hn : 0 < n) : ∃ s', Armed L s' d t g n ∧
    s'.freelist = s.freelist ∧
    ∀ i < 4, userByte s'.mem d i = some (UInt8.ofNat (userPte t / 2 ^ (8 * i))) := by
  have h4 : (Vm.word (userPte t)).length = 4 := rfl
  obtain ⟨s', h', hfl, hm⟩ := bytes_armed 0 (Vm.word (userPte t)) h (by
    rw [h4]
    unfold PGSIZE
    omega)
  refine ⟨s', h', hfl, fun i hi => ?_⟩
  rw [hm i (by unfold KERNBASE; omega), if_pos ⟨Nat.zero_le _, by rw [h4]; omega⟩]
  interval_cases i <;> simp [Vm.word]

theorem Armed.table_lt (h : Armed L s d t g n) : userPte t < UINT := by
  obtain ⟨-, hut, -⟩ := h.uses
  exact mkPte_lt (h.own.lt t (by omega)) (by decide)

end Vm
