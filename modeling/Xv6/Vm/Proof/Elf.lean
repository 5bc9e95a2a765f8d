import Xv6.Vm.Proof.Segments

/-!
# No file makes `exec` panic

Whatever the file says, the segment loop and the stack set-up of `exec` return; the functions after
them call neither `loaduvm` nor `mappages` nor `clearpteu`, and panic with other texts (`Other`).
-/

namespace Vm

open Bytes Panic

variable {L : Layout} {s s' s1 s2 : Kernel} {d f k n p cur off sz addr offset : Nat} {img : Image}
  {c : Nat → UInt8} {α : Type}

/-! ## The calls of `loaduvm` -/

/-- The segment loop, for `n` program headers from `off` on, calls `loaduvm` for `filesz` bytes at
`addr` in the state `s1`. -/
inductive LoadCall (L : Layout) (d : Nat) (img : Image) :
    (n off sz : Nat) → Kernel → (addr offset filesz : Nat) → Kernel → Prop
  | here {n off sz sz' : Nat} {s s1 : Kernel} {ph : Store} (hph : img.readAll off PROGHDR = some ph)
      (hload : get32 ph 0 = ELF_PROG_LOAD) (hmem : get32 ph 16 ≤ get32 ph 20)
      (hwrap : get32 ph 8 ≤ (get32 ph 8 + get32 ph 20) % UINT)
      (halloc : allocuvm L d sz ((get32 ph 8 + get32 ph 20) % UINT) s = .ok (sz', s1)) (hz : sz' ≠ 0)
      (haln : get32 ph 8 % PGSIZE = 0) :
      LoadCall L d img (n + 1) off sz s (get32 ph 8) (get32 ph 4) (get32 ph 16) s1
  | skip {n off sz addr offset filesz : Nat} {s s' : Kernel} {ph : Store}
      (hph : img.readAll off PROGHDR = some ph) (hload : get32 ph 0 ≠ ELF_PROG_LOAD)
      (h : LoadCall L d img n ((off + PROGHDR) % UINT) sz s addr offset filesz s') :
      LoadCall L d img (n + 1) off sz s addr offset filesz s'
  | next {n off sz sz' addr offset filesz : Nat} {s s1 s2 s' : Kernel} {ph : Store}
      (hph : img.readAll off PROGHDR = some ph) (hload : get32 ph 0 = ELF_PROG_LOAD)
      (hmem : get32 ph 16 ≤ get32 ph 20) (hwrap : get32 ph 8 ≤ (get32 ph 8 + get32 ph 20) % UINT)
      (halloc : allocuvm L d sz ((get32 ph 8 + get32 ph 20) % UINT) s = .ok (sz', s1)) (hz : sz' ≠ 0)
      (haln : get32 ph 8 % PGSIZE = 0)
      (hld : loaduvm d (get32 ph 8) img.reader (get32 ph 4) (get32 ph 16) s1 = .ok (true, s2))
      (h : LoadCall L d img n ((off + PROGHDR) % UINT) sz' s2 addr offset filesz s') :
      LoadCall L d img (n + 1) off sz s addr offset filesz s'

def UserRange (m : Nat → Store) (d addr n : Nat) : Prop :=
  ∀ x, addr ≤ x * PGSIZE → x * PGSIZE < addr + n →
    ∃ f, mapping m d x = some (userPte f)

theorem alloc_segment {vaddr memsz sz' : Nat} (ho : Own s (dirUse s.mem d))
    (hh : Holds s.mem d sz c) (hk : sz < KERNBASE)
    (hv : vaddr < 2 ^ 32) (hm : memsz < 2 ^ 32) (hwrap : vaddr ≤ (vaddr + memsz) % UINT)
    (halloc : allocuvm L d sz ((vaddr + memsz) % UINT) s = .ok (sz', s1)) (hz : sz' ≠ 0) :
    Extended s s1 d ∧ Holds s1.mem d sz' c ∧ sz' < KERNBASE ∧ vaddr + memsz ≤ sz' := by
  have hsum : (vaddr + memsz) % UINT = vaddr + memsz := by
    unfold UINT at *
    omega
  rw [hsum] at halloc
  obtain ⟨hkept, hres⟩ := (allocuvm_holds (vaddr + memsz) ho hh).ok halloc
  obtain ⟨hlt, hr, hholds⟩ := hres hz
  exact ⟨hkept, hholds, by omega, by omega⟩

/-- **Every call of `loaduvm`** finds the pages of its range, and writes to bytes of the range only. -/
theorem LoadCall.range {filesz : Nat} (h : LoadCall L d img n off sz s addr offset filesz s1)
    (ho : Own s (dirUse s.mem d)) (hh : Holds s.mem d sz c)
    (hk : sz < KERNBASE) : UserRange s1.mem d addr filesz ∧
      ∃ r s2, loaduvm d addr img.reader offset filesz s1 = .ok (r, s2) ∧
        Wrote s1 s2 d addr (addr + filesz) := by
  induction h generalizing c with
  | skip _ _ _ ih => exact ih ho hh hk
  | @here n off sz sz' s s1 ph _ _ hmem hwrap halloc hz haln =>
    obtain ⟨hkept, hh1, hk1, hle⟩ := alloc_segment ho hh hk (get32_lt ph 8) (get32_lt ph 20) hwrap
      halloc hz
    obtain ⟨r, s2, hrun, hwr, -⟩ := loaduvm_holds img (get32 ph 4)
      (ho.trans hkept.trans).solo hh1 hk1 haln (show get32 ph 8 + get32 ph 16 ≤ sz' by omega)
    exact ⟨fun x _ hx => hh1.page x (((pageCount_spec hk1.le).2.2 x).1 (by omega)), r, s2, hrun, hwr⟩
  | @next n off sz sz' addr offset filesz s s1 s2 s' ph _ _ hmem hwrap halloc hz haln hld _ ih =>
    obtain ⟨hkept, hh1, hk1, hle⟩ := alloc_segment ho hh hk (get32_lt ph 8) (get32_lt ph 20) hwrap
      halloc hz
    obtain ⟨r, s3, hrun, hwr, hdata⟩ := loaduvm_holds img (get32 ph 4)
      (ho.trans hkept.trans).solo hh1 hk1 haln (show get32 ph 8 + get32 ph 16 ≤ sz' by omega)
    rw [hld] at hrun
    cases hrun
    obtain ⟨data, -, -, hh2⟩ := hdata rfl
    have hkept2 := hkept.comp (hwr.kept (by omega))
    exact ih (ho.trans hkept2.trans) (hh2 0) hk1

/-! ## Panics of the other functions -/

def Other (t : String) : Prop := t ∈ ["trap", "kfree", "freevm: no pgdir"]

instance : Mild Other := ⟨by simp [Other], by simp [Other], by simp [Other]⟩

def Anyhow (_ _ : Kernel) : Prop := True

instance : Pages Anyhow where
  refl _ := trivial
  trans _ _ := trivial
  mem _ _ _ := trivial
  take _ _ _ _ _ := trivial
  free _ _ _ := trivial

instance : ProcTable Anyhow := ⟨fun _ _ _ _ => trivial⟩

instance : Nulls Anyhow := ⟨fun _ => trivial⟩

theorem Respects.ends {m : KM α} (h : Respects Anyhow Other m) : Ends m s (fun _ _ => True) Other := h s

theorem curdir_ends : Ends (curdir p) s (fun _ s' => s' = s) Other := by
  refine .run get_run ?_
  cases (s.proc p).pgdir with
  | none => exact .of_throw Mild.trap
  | some d => exact .of_pure rfl

/-! ## `exec` -/

theorem execImage_ends {elf : Store} {argv : List (List UInt8)} (ho : Own s (dirUse s.mem d))
    (hw : Within L s (dirUse s.mem d)) (hh : Holds s.mem d 0 c) :
    Ends (execImage L cur d img elf argv) s (fun _ _ => True) Other := by
  refine ((loadSegs_ends img (get16 elf 44) (get32 elf 28) ho hh (by decide)).weaken
    fun _ h => absurd hw h).bind fun r s1 ⟨hkept, hok⟩ => ?_
  cases r with
  | none => exact .of_pure trivial
  | some sz =>
    obtain ⟨segs, -, -, -, hk, hholds⟩ := hok sz rfl
    obtain ⟨r', s2, hal, -, hres⟩ := stack_total (ho.trans hkept.trans) (hw.trans hkept.trans) hholds hk
    refine .run hal (.ite (fun _ => .of_pure trivial) fun hz => ?_)
    obtain ⟨-, s3, hclr, -, -⟩ := hres hz
    refine .run hclr (Respects.ends ?_)
    exact .tried .pushFrame .pure fun _ => .pure

theorem exec_ends {argv : List (List UInt8)} (ho : Own s fun _ => 0) (hw : Within L s fun _ => 0) :
    Ends (exec L p (some img) argv) s (fun _ _ => True) Other := by
  unfold exec
  simp only
  cases img.readAll 0 ELFHDR with
  | none => exact .of_pure trivial
  | some elf =>
    refine .ite (fun _ => .of_pure trivial) fun _ => ?_
    refine ((setupkvm_builds ho).ends.weaken fun _ h => absurd hw h).bind ?_
    rintro _ s0 (⟨pg, rfl, hb⟩ | ⟨rfl, -⟩)
    · refine curdir_ends.bind ?_
      rintro cur _ rfl
      refine (execImage_ends (ho.trans hb.trans) (hw.trans hb.trans) hb.toKernelDir.holds).bind
        fun r s1 _ => ?_
      cases r with
      | none => exact Respects.ends (.bind .freevm fun _ => .pure)
      | some sz =>
        exact Respects.ends (.got fun _ => .bind .setProc fun _ => .bind .freevm fun _ => .pure)
    · exact .of_pure trivial

/-- **No file makes `exec` panic** in `loaduvm`, `mappages` or `clearpteu`, whatever `kalloc`
refuses. -/
theorem exec_survives_every_file {argv : List (List UInt8)} (ho : Own s fun _ => 0)
    (hw : Within L s fun _ => 0) : (∀ t, exec L p (some img) argv s = .error t →
      t ∉ ["loaduvm: addr must be page aligned", "loaduvm: address should exist", "remap",
        "clearpteu"]) ∧
    ∀ elf pg s0, img.readAll 0 ELFHDR = some elf → setupkvm L s = .ok (some pg, s0) →
      ∀ addr offset filesz s1,
        LoadCall L pg img (get16 elf 44) (get32 elf 28) 0 s0 addr offset filesz s1 →
        UserRange s1.mem pg addr filesz ∧
          ∃ r s2, loaduvm pg addr img.reader offset filesz s1 = .ok (r, s2) ∧
            Wrote s1 s2 pg addr (addr + filesz) := by
  refine ⟨fun t ht hmem => ?_, fun elf pg s0 _ hset addr offset filesz s1 hcall => ?_⟩
  · have := (exec_ends ho hw).error ht
    simp only [Other, List.mem_cons, List.not_mem_nil, or_false] at this hmem
    rcases this with rfl | rfl | rfl <;> simp at hmem
  · obtain ⟨_, h, hb⟩ := (setupkvm_spec hset ho).resolve_left fun h => by cases h.1
    cases h
    exact hcall.range (ho.trans hb.trans) hb.toKernelDir.holds (by decide)

/-- The program of the file `f` is loaded for the first process. -/
theorem exec_survives_every_file_first : ∃ s pg s1 s2 r, Reach smallLayout s ∧
    (∀ t, exec smallLayout 0 (some (Exec.image (.tree 1) 51 Exec.first_bounded)) [] s = .error t →
      t ∉ ["loaduvm: addr must be page aligned", "loaduvm: address should exist", "remap", "clearpteu"]) ∧
    UserRange s1.mem pg 0 84 ∧
    loaduvm pg 0 (Exec.image (.tree 1) 51 Exec.first_bounded).reader 0 84 s1 = .ok (r, s2) ∧
    Wrote s1 s2 pg 0 84 := by
  obtain ⟨s, d, hup, hfirst⟩ := boot_first smallLayout_first
  obtain ⟨ho, hw, -⟩ := hfirst.owned hup
  have ho := ho.mono fun _ => Nat.zero_le _
  have hfree := hfirst.free
  obtain ⟨pg, s0, ⟨k, hset⟩, hb⟩ := setupkvm_runs (L := smallLayout) (s := s) (by omega) ho
  have hlen := hb.free
  obtain ⟨_, s1, ⟨k', hpages⟩, rfl, -⟩ := (allocLoop_grows (L := smallLayout)
    (x := 0) (n := 2) (d := pg) (show 2 * PGSIZE < KERNBASE by decide) (show 0 < 2 * PGSIZE by decide)
    (by decide) (by decide) (ho.trans hb.trans)).runs
    ⟨room_of_length (by omega), fun z _ hz => hb.toKernelDir.unmapped
      (hz.trans (show pageCount (2 * PGSIZE) < 2 ^ 19 by decide))⟩
  obtain ⟨-, -, hnum, hoff, -⟩ := Fs.blankElf_header
  obtain ⟨-, hload, hfile, hvaddr, hfilesz, hmemsz⟩ := Fs.blankElf_program
  have hcall : LoadCall smallLayout pg _ 1 52 0 { s0 with fail := List.replicate k' false ++ [] } _ _ _
      { s1 with fail := [] } :=
      .here (Exec.tree_readAll 52 PROGHDR (by decide)) hload (by rw [hfilesz, hmemsz]; decide)
    (by rw [hvaddr, hmemsz]; decide) (by rw [hvaddr, hmemsz]; exact hpages []) (by decide)
    (by rw [hvaddr]; rfl)
  rw [hvaddr, hfile, hfilesz] at hcall
  obtain ⟨hexec, hcalls⟩ := exec_survives_every_file (L := smallLayout) (p := 0)
    (s := { s with fail := List.replicate k false ++ (List.replicate k' false ++ []) })
    ho.fail (hw.mono fun _ => Nat.zero_le _)
  obtain ⟨hrange, r, s2, hrun, hwrote⟩ := hcalls _ pg _ (Exec.tree_readAll 0 ELFHDR (by decide)) (hset _)
    0 0 84 _ (by rw [hnum, hoff]; exact hcall)
  exact ⟨_, pg, _, s2, r, hup _, hexec, hrange, hrun, hwrote⟩

end Vm
