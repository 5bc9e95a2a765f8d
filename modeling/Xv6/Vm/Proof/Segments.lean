import Xv6.Vm.Proof.Launch

/-!
# The program in memory

What `exec` leaves when it succeeds, in terms of the file. When no two segments share a page, the order
in which they were put into memory does not matter, and memory is what the headers describe
(`Describes`). The results are about a process whose pages have no other use (`Caller`) and arguments
that are put at addresses with a page table (`Fits`).
-/

namespace Exec

open Bytes Panic Function Vm Fs

variable {L : Layout} {M M' : Machine} {s : State} {p d ip pg sz sp n i k va off : Nat}
  {path : List UInt8} {argv : List (List UInt8)} {img : Image}

/-! ## Program headers -/

structure Header where
  off : Nat
  vaddr : Nat
  filesz : Nat
  memsz : Nat

def headers (img : Image) : Nat → Nat → Option (List Header)
  | 0, _ => some []
  | n + 1, off =>
    match img.readAll off PROGHDR with
    | none => none
    | some ph =>
      if get32 ph 0 ≠ ELF_PROG_LOAD then headers img n ((off + PROGHDR) % UINT)
      else (headers img n ((off + PROGHDR) % UINT)).map
        (⟨get32 ph 4, get32 ph 8, get32 ph 16, get32 ph 20⟩ :: ·)

def Header.Meets (g : Header) (x : Nat) : Prop :=
  g.vaddr < (x + 1) * PGSIZE ∧ x * PGSIZE < g.vaddr + g.memsz

def Header.Apart (g h : Header) : Prop := ∀ x, ¬ (g.Meets x ∧ h.Meets x)

def Header.segment (s : State) (ip : Nat) (g : Header) : Segment :=
  ⟨g.vaddr, g.memsz, bytes s.disk (s.cur ip) g.off g.filesz⟩

theorem segment_bytes {offset : Nat} {data : List UInt8} (hi : img.read = contents s ip)
    (hdev : (s.cur ip).type ≠ T_DEV) (hoff : i < sz → offset + i < 2 ^ 32)
    (hk : sz ≤ i + k * PGSIZE) (h : img.segment offset sz k i = some data) :
    data = bytes s.disk (s.cur ip) (offset + i) (sz - i) := by
  induction k generalizing i data with
  | zero =>
    cases h
    rw [show sz - i = 0 by omega]
    rfl
  | succ k ih =>
    rw [Image.segment, hi, contents, if_neg hdev] at h
    generalize hm : (if sz - i < PGSIZE then sz - i else PGSIZE) = m at h
    have hmin : m = min (sz - i) PGSIZE := by
      rw [← hm]
      split <;> omega
    split at h
    · cases h
    · rename_i bs hbs
      split at hbs
      · cases hbs
      rename_i hin
      cases hbs
      split at h
      · rename_i hlen
        rw [length_bytes] at hlen
        rw [Option.map_eq_some_iff] at h
        obtain ⟨rest, hrest, rfl⟩ := h
        by_cases hlt : i < sz
        · have hmod : (offset + i) % UINT = offset + i := Nat.mod_eq_of_lt (hoff hlt)
          rw [hmod] at hin hlen ⊢
          have := ih (i := i + PGSIZE) (fun h => by omega) (by rw [Nat.succ_mul] at hk; omega) hrest
          rw [this, hlen]
          by_cases hlast : sz - i < PGSIZE
          · rw [show m = sz - i by omega, show sz - (i + PGSIZE) = 0 by omega]
            exact List.append_nil _
          · rw [show m = PGSIZE by omega, show offset + (i + PGSIZE) = offset + i + PGSIZE by omega,
              show sz - (i + PGSIZE) = sz - i - PGSIZE by omega]
            exact (bytes_split _ (by omega)).symm
        · have := ih (i := i + PGSIZE) (fun h => by omega) (by omega) hrest
          rw [this, hlen, show m = 0 by omega, show sz - (i + PGSIZE) = 0 by omega,
            show sz - i = 0 by omega]
          rfl
      · cases h

theorem segments_headers {segs : List Segment} (hi : img.read = contents s ip)
    (hdev : (s.cur ip).type ≠ T_DEV) (h : img.segments n off = some segs) :
    ∃ hs, headers img n off = some hs ∧ segs = hs.map (Header.segment s ip) := by
  induction n generalizing off segs with
  | zero =>
    cases h
    exact ⟨[], rfl, rfl⟩
  | succ n ih =>
    rw [Image.segments] at h
    rw [headers]
    cases hph : img.readAll off PROGHDR with
    | none =>
      rw [hph] at h
      cases h
    | some ph =>
      simp only [hph] at h ⊢
      split at h
      · rename_i hload
        rw [if_pos hload]
        exact ih h
      · rename_i hload
        rw [if_neg hload]
        split at h
        · cases h
        · rename_i data hdata
          rw [Option.map_eq_some_iff] at h
          obtain ⟨rest, hrest, rfl⟩ := h
          obtain ⟨hs, hhs, rfl⟩ := ih hrest
          have hbytes : data = bytes s.disk (s.cur ip) (get32 ph 4 + 0) (get32 ph 16 - 0) :=
            segment_bytes hi hdev (fun _ => get32_lt ph 4) (by unfold PGSIZE; omega) hdata
          refine ⟨_ :: hs, by rw [hhs]; rfl, ?_⟩
          rw [hbytes]
          rfl

/-! ## Putting segments into memory -/

theorem layout_other {segs : List Segment} {c : Nat → UInt8}
    (h : ∀ g ∈ segs, va < g.vaddr ∨ g.vaddr + g.data.length ≤ va) : layout segs c va = c va := by
  induction segs generalizing c with
  | nil => rfl
  | cons g segs ih =>
    have hg := h g List.mem_cons_self
    refine (ih fun k hk => h k (List.mem_cons_of_mem _ hk)).trans ?_
    exact if_neg (by omega)

theorem layout_file {segs : List Segment} {c : Nat → UInt8} {g : Segment}
    (hp : segs.Pairwise fun a b => ∀ va, a.vaddr ≤ va ∧ va < a.vaddr + a.data.length →
      va < b.vaddr ∨ b.vaddr + b.data.length ≤ va)
    (hg : g ∈ segs) (hi : i < g.data.length) : layout segs c (g.vaddr + i) = g.data.getD i 0 := by
  induction segs generalizing c with
  | nil => cases hg
  | cons a segs ih =>
    rw [List.pairwise_cons] at hp
    rcases List.mem_cons.1 hg with rfl | hg
    · refine (layout_other fun k hk => hp.1 k hk _ (by omega)).trans ?_
      refine (if_pos (by omega)).trans ?_
      rw [Nat.add_sub_cancel_left]
    · exact ih hp.2 hg

theorem le_topOf {segs : List Segment} (hle : k ≤ sz) : k ≤ topOf segs sz := by
  induction segs generalizing sz with
  | nil => exact hle
  | cons a segs ih => exact ih (hle.trans (Nat.le_max_left ..))

theorem end_le_topOf {segs : List Segment} {g : Segment} (hg : g ∈ segs) :
    g.vaddr + g.memsz ≤ topOf segs sz := by
  induction segs generalizing sz with
  | nil => cases hg
  | cons a segs ih =>
    rcases List.mem_cons.1 hg with rfl | hg
    · show g.vaddr + g.memsz ≤ topOf segs (max sz (g.vaddr + g.memsz))
      exact le_topOf (Nat.le_max_right ..)
    · exact ih hg

theorem topOf_lt {segs : List Segment} (hsz : sz < k) (h : ∀ g ∈ segs, g.vaddr + g.memsz < k) :
    topOf segs sz < k := by
  induction segs generalizing sz with
  | nil => exact hsz
  | cons a segs ih =>
    exact ih (Nat.max_lt.2 ⟨hsz, h a List.mem_cons_self⟩) fun g hg => h g (List.mem_cons_of_mem _ hg)

/-- The memory of the directory `pg` is what the headers `hs` of the file describe. -/
structure Describes (s : State) (ip : Nat) (hs : List Header) (m : Nat → Store) (pg : Nat) :
    Prop where
  file : ∀ g ∈ hs, ∀ i < g.filesz,
    userByte m pg (g.vaddr + i) = some (byte s.disk (s.cur ip) (g.off + i))
  zero : ∀ g ∈ hs, ∀ va < pgroundup (g.vaddr + g.memsz),
    (∀ k ∈ hs, va < k.vaddr ∨ k.vaddr + k.filesz ≤ va) → userByte m pg va = some 0

/-! ## The memory after `exec` -/

theorem Replaced.program (h : Replaced L M M' p d img argv pg sz sp) :
    ∃ elf segs c, img.readAll 0 ELFHDR = some elf ∧
      img.segments (get16 elf 44) (get32 elf 28) = some segs ∧ (∀ g ∈ segs, g.Valid) ∧
      sz = stackTop segs ∧ M'.tf = update M.tf p ⟨get32 elf 24, sp⟩ ∧
      Stacked M'.vm.mem pg sz c ∧
      ∀ va < sz - PGSIZE, c va = layout segs (fun _ => 0) va := by
  obtain ⟨elf, segs, helf, hsegs, hvalid, hsz, htf, s1, s2, hst, hsolo, -, hwr, hmem⟩ := h.elf
  obtain ⟨c, hst2, hc⟩ := hst.wrote hsolo hwr (le_refl _)
  obtain ⟨hsame, hbyte⟩ := same_frames hmem
  refine ⟨elf, segs, c, helf, hsegs, hvalid, hsz, htf, hst2.same hsame fun va hva => ?_,
    fun va hva => hc va (by omega) (.inl hva)⟩
  rw [hbyte va (hva.trans hst.lt)]
  exact hst2.byte va hva

theorem guard_closed {m : Nat → Store} {c : Nat → UInt8} (h : Stacked m pg sz c)
    (hlo : sz - 2 * PGSIZE ≤ va) (hhi : va < sz - PGSIZE) : access m pg va = false := by
  have h1 := h.aligned
  have h2 := h.two
  have h3 := h.lt
  have hpage : va / PGSIZE = sz / PGSIZE - 2 := by
    unfold PGSIZE at *
    omega
  by_contra hacc
  obtain ⟨w, hw, hu⟩ := (access_mapping (by omega)).1 (Bool.eq_true_of_not_eq_false hacc)
  obtain ⟨v, hv, hn⟩ := h.guard
  rw [hpage, hv] at hw
  cases hw
  rw [hn] at hu
  cases hu

theorem describes {m : Nat → Store} {hs : List Header} {c : Nat → UInt8}
    (hvalid : ∀ g ∈ hs.map (Header.segment s ip), g.Valid) (hp : hs.Pairwise Header.Apart)
    (hst : Stacked m pg sz c) (hsz : sz = stackTop (hs.map (Header.segment s ip)))
    (hc : ∀ va < sz - PGSIZE, c va = layout (hs.map (Header.segment s ip)) (fun _ => 0) va) :
    Describes s ip hs m pg := by
  have hlen : ∀ g : Header, (g.segment s ip).data.length = g.filesz := fun g => length_bytes ..
  have hv : ∀ g ∈ hs, g.filesz ≤ g.memsz := fun g hg => by
    rw [← hlen]
    exact (hvalid _ (List.mem_map_of_mem hg)).1
  have htop : ∀ g ∈ hs, pgroundup (g.vaddr + g.memsz) + 2 * PGSIZE ≤ sz := fun g hg => by
    have hmem : g.segment s ip ∈ hs.map (Header.segment s ip) := List.mem_map_of_mem hg
    have hle : g.vaddr + g.memsz ≤ topOf (hs.map (Header.segment s ip)) 0 := end_le_topOf hmem
    have hlt := topOf_lt (k := KERNBASE) (show 0 < KERNBASE by decide) fun k hk => (hvalid k hk).2.1
    rw [hsz, stackTop, pgroundup_of_le (by omega), pgroundup_of_le hlt.le]
    exact Nat.add_le_add_right (Nat.mul_le_mul_right _ (Nat.div_le_div_right (by omega))) _
  -- no byte of the file lies in the page of another segment
  have hdis : (hs.map (Header.segment s ip)).Pairwise fun a b => ∀ va,
      a.vaddr ≤ va ∧ va < a.vaddr + a.data.length → va < b.vaddr ∨ b.vaddr + b.data.length ≤ va := by
    refine List.pairwise_map.2 (hp.imp_of_mem fun {a b} ha hb hab va hin => ?_)
    by_contra hout
    rw [hlen] at hin hout
    change a.vaddr ≤ va ∧ va < a.vaddr + a.filesz at hin
    change ¬ (va < b.vaddr ∨ b.vaddr + b.filesz ≤ va) at hout
    have h1 := hv a ha
    have h2 := hv b hb
    refine hab (va / PGSIZE) ⟨⟨?_, ?_⟩, ?_, ?_⟩ <;> unfold PGSIZE <;> omega
  have hpage : 2 * PGSIZE ≤ sz := hst.two
  refine ⟨fun g hg i hi => ?_, fun g hg va hva hout => ?_⟩
  · have hlt : g.vaddr + i < sz - PGSIZE := by
      have h1 := htop g hg
      have h2 := hv g hg
      have h3 := (pgroundup_bounds (hvalid _ (List.mem_map_of_mem hg)).2.1.le).1
      have h4 : g.vaddr + g.memsz ≤ pgroundup (g.vaddr + g.memsz) := h3
      unfold PGSIZE at *
      omega
    have hfile := layout_file (c := fun _ => 0) (i := i) hdis (List.mem_map_of_mem hg)
      (by rw [hlen]; exact hi)
    rw [hst.byte _ (by omega), hc _ hlt, show g.vaddr = (g.segment s ip).vaddr from rfl, hfile]
    exact congrArg some (by simp [Header.segment, bytes, hi])
  · have hlt : va < sz - PGSIZE := by
      have := htop g hg
      unfold PGSIZE at *
      omega
    rw [hst.byte _ (by omega), hc _ hlt, layout_other]
    intro k hk
    obtain ⟨b, hb, rfl⟩ := List.mem_map.1 hk
    rw [hlen]
    exact hout b hb

theorem tree_read (hle : off + n ≤ 84) :
    (image (.tree 1) 51 first_bounded).read off n = some ((blankElf.drop off).take n) := by
  have hcur : (State.tree 1).cur 51 = dinode .tree treeDisk 51 := congrFun tree_cur 51
  show contents (.tree 1) 51 off n = _
  rw [contents, hcur, if_neg tree_type, tree_file_size, if_neg (by omega), Nat.min_eq_left (by omega)]
  exact congrArg some (tree_bytes hle)

theorem tree_readAll (off n : Nat) (hle : off + n ≤ 84) :
    (image (.tree 1) 51 first_bounded).readAll off n =
    some fun i => ((blankElf.drop off).take n).getD i 0 := by
  have hlen : ((blankElf.drop off).take n).length = n := by
    rw [List.length_take, List.length_drop, show blankElf.length = 84 from rfl]
    omega
  rw [Image.readAll, tree_read hle, whole, if_pos hlen]

theorem tree_headers : headers (image (.tree 1) 51 first_bounded) 1 52 =
    some [⟨0, 0, 84, 2 * PGSIZE⟩] := by
  obtain ⟨-, hload, hfile, hvaddr, hfilesz, hmemsz⟩ := blankElf_program
  simp only [headers, tree_readAll 52 PROGHDR (by decide), hload, hfile, hvaddr, hfilesz, hmemsz, ne_eq,
    not_true_eq_false, if_false, Option.map_some]

/-- **`exec` builds the image that the file describes.** -/
theorem exec_builds_image (hc : Caller L M p d path argv) (ht : Fits L M p path argv hc.dev)
    (h : exec L p path argv M = .ok (0, M')) :
    ∃ ip elf pg, M.fs.resolve (pathStart (M.cwd p) path) (components path) = some ip ∧
      (image M.fs ip hc.dev).readAll 0 ELFHDR = some elf ∧ (M'.vm.proc p).pgdir = some pg ∧
      (M'.tf p).eip = get32 elf 24 ∧
      (∀ va, (M'.vm.proc p).sz - 2 * PGSIZE ≤ va → va < (M'.vm.proc p).sz - PGSIZE →
        access M'.vm.mem pg va = false) ∧
      ((M.fs.cur ip).type ≠ T_DEV →
        ∃ hs, headers (image M.fs ip hc.dev) (get16 elf 44) (get32 elf 28) = some hs ∧
          (hs.Pairwise Header.Apart → Describes M.fs ip hs M'.vm.mem pg)) := by
  rcases exec_outcome hc ht h with ⟨h0, -⟩ | ⟨-, ip, pg, sz, sp, hres, hrep⟩
  · cases h0
  obtain ⟨elf, segs, c, helf, hsegs, hvalid, hsz, htf, hst, hlay⟩ := hrep.program
  have hproc : M'.vm.proc p = { M.vm.proc p with pgdir := some pg, sz := sz } := by
    rw [hrep.proc, update_self]
  refine ⟨ip, elf, pg, hres, helf, by rw [hproc], by rw [htf, update_self], fun va h1 h2 => ?_,
    fun hdev => ?_⟩
  · rw [hproc] at h1 h2
    exact guard_closed hst h1 h2
  · obtain ⟨hs, hhs, rfl⟩ := segments_headers rfl hdev hsegs
    exact ⟨hs, hhs, fun hp => describes hvalid hp hst hsz hlay⟩

theorem exec_builds_image_first : ∃ s M' pg,
    exec smallLayout 0 [SLASH, 102] [[SLASH, 102]] (.first s) = .ok (0, M') ∧
      (M'.vm.proc 0).pgdir = some pg ∧ (M'.tf 0).eip = 0 ∧
      Describes (.tree 1) 51 [⟨0, 0, 84, 2 * PGSIZE⟩] M'.vm.mem pg := by
  obtain ⟨s, M', d, hc, ht, hrun⟩ := exec_first
  obtain ⟨ip, elf, pg, hres, helf, hpg, heip, -, hdesc⟩ := exec_builds_image hc ht hrun
  obtain rfl : 51 = ip := Option.some.inj ((tree_resolve _).symm.trans hres)
  obtain ⟨-, -, hnum, hoff, hentry⟩ := blankElf_header
  obtain rfl := Option.some.inj ((tree_readAll 0 ELFHDR (by decide)).symm.trans helf)
  obtain ⟨hs, hhs, hd⟩ := hdesc (by
    rw [show (Machine.first s).fs = .tree 1 from rfl, tree_cur]
    exact tree_type)
  rw [hnum, hoff] at hhs
  obtain rfl := Option.some.inj (tree_headers.symm.trans hhs)
  exact ⟨s, M', pg, hrun, hpg, heip.trans hentry, hd (List.pairwise_singleton ..)⟩

/-- **The arguments are found on the stack of the new program**: from the memory that the file
describes, the new memory differs in the stack page only. -/
theorem exec_passes_arguments (hc : Caller L M p d path argv) (ht : Fits L M p path argv hc.dev)
    (h : exec L p path argv M = .ok (0, M')) :
    ∃ pg, (M'.vm.proc p).pgdir = some pg ∧ decode M'.vm.mem pg (M'.tf p).esp = some argv ∧
      (M'.tf p).esp % 4 = 0 ∧
      ∃ ip elf segs s1 s2, M.fs.resolve (pathStart (M.cwd p) path) (components path) = some ip ∧
        (image M.fs ip hc.dev).readAll 0 ELFHDR = some elf ∧
        (image M.fs ip hc.dev).segments (get16 elf 44) (get32 elf 28) = some segs ∧
        Stacked s1.mem pg (M'.vm.proc p).sz (layout segs fun _ => 0) ∧ Solo s1.mem pg ∧
        pushFrame L d pg (M'.vm.proc p).sz argv s1 = .ok (some (M'.tf p).esp, s2) ∧
        Vm.Wrote s1 s2 pg ((M'.vm.proc p).sz - PGSIZE) (M'.vm.proc p).sz ∧
        ∀ f, 0 < dirUse s2.mem pg f → M'.vm.mem f = s2.mem f := by
  rcases exec_outcome hc ht h with ⟨h0, -⟩ | ⟨-, ip, pg, sz, sp, hres, hrep⟩
  · cases h0
  obtain ⟨elf, segs, helf, hsegs, -, -, htf, s1, s2, hst, hsolo, hpush, hwr, hmem⟩ := hrep.elf
  have hproc : M'.vm.proc p = { M.vm.proc p with pgdir := some pg, sz := sz } := by
    rw [hrep.proc, update_self]
  have hesp : (M'.tf p).esp = sp := by rw [htf, update_self]
  rw [hproc, hesp]
  exact ⟨pg, rfl, hrep.framed.decode hst.lt.le fun a ha => (hc.argv a ha).1, hrep.aligned, ip, elf,
    segs, s1, s2, hres, helf, hsegs, hst, hsolo, hpush, hwr, hmem⟩

theorem exec_passes_arguments_first : ∃ s M' pg,
    exec smallLayout 0 [SLASH, 102] [[SLASH, 102]] (.first s) = .ok (0, M') ∧
      (M'.vm.proc 0).pgdir = some pg ∧
      decode M'.vm.mem pg (M'.tf 0).esp = some [[SLASH, 102]] := by
  obtain ⟨s, M', d, hc, ht, hrun⟩ := exec_first
  obtain ⟨pg, hpg, hdec, -⟩ := exec_passes_arguments hc ht hrun
  exact ⟨s, M', pg, hrun, hpg, hdec⟩

/-- **`exec` fails cleanly, or frees the old memory once.** -/
theorem exec_fails_cleanly {r : Int} (hc : Caller L M p d path argv) (ht : Fits L M p path argv hc.dev)
    (h : exec L p path argv M = .ok (r, M')) : (r = -1 ∧ Failed M M' d) ∨
      r = 0 ∧ Settled M M' ∧ ∀ f, 0 < dirUse M.vm.mem d f →
        M.vm.freelist.count f = 0 ∧ M'.vm.freelist.count f = 1 := by
  rcases exec_outcome hc ht h with hf | ⟨hr, ip, pg, sz, sp, -, hrep⟩
  · exact .inl hf
  · exact .inr ⟨hr, hrep.toSettled, hrep.freed⟩

/-- The first process calls `exec` when no page is left for a directory, with an argument of 36 MB, and
again when there are pages. -/
theorem exec_fails_cleanly_first : (∃ s M' d a, a.length = 0x2404FFF ∧
      exec smallLayout 0 [SLASH, 102] [a] (.first s) = .ok (-1, M') ∧ Failed (.first s) M' d) ∧
    ∃ s M' d, exec smallLayout 0 [SLASH, 102] [[SLASH, 102]] (.first s) = .ok (0, M') ∧
      (s.proc 0).pgdir = some d ∧ Settled (.first s) M' ∧ M'.vm.freelist.count d = 1 := by
  refine ⟨?_, ?_⟩
  · obtain ⟨n, hn⟩ : ∃ n, n = 0x2404FFF := ⟨_, rfl⟩
    obtain ⟨s, M', d, hc, ht, hrun⟩ := exec_refused [List.replicate n 102] (by
      intro a ha
      rw [List.mem_singleton.1 ha, List.length_replicate]
      exact ⟨fun h => (by cases List.eq_of_mem_replicate h), by unfold KERNBASE; omega⟩)
    rcases exec_fails_cleanly hc ht hrun with ⟨-, hf⟩ | ⟨hr, -⟩
    · exact ⟨s, M', d, _, by rw [List.length_replicate, hn], hrun, hf⟩
    · cases hr
  · obtain ⟨s, M', d, hc, ht, hrun⟩ := exec_first
    rcases exec_fails_cleanly hc ht hrun with ⟨hr, -⟩ | ⟨-, hset, hfree⟩
    · cases hr
    · exact ⟨s, M', d, hrun, hc.pgdir, hset, (hfree d dirUse_self).2⟩

end Exec
