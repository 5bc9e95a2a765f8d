import Xv6.Vm.Proof.Boot

/-!
# What the kernel's directory translates

`mappages` rounds the virtual start of a row of `kmap` down to a page and takes the physical start as it
is, so the row is shifted by the offset of its virtual start in its page (`physOf_row`). The rows that
`vm.c` lists start at pages; the frame buffer starts at `DEVSPACE - vram_size`, at a page exactly if its
size is a number of pages (`framebuffer_translates_iff`).
-/

namespace Vm

open Bytes Function

variable {L : Layout} {s s' : Kernel} {m : Nat → Store} {d f w o perm va : Nat} {k : Kmap}

/-! ## Translation -/

def physOf (m : Nat → Store) (d va : Nat) : Option Nat :=
  (userFrame m d va).map fun f => f * PGSIZE + va % PGSIZE

def Kmap.size (k : Kmap) : Nat := (k.physEnd + UINT - k.physStart) % UINT

def Kmap.Translates (k : Kmap) (m : Nat → Store) (d : Nat) : Prop :=
  ∀ o < k.size, physOf m d (k.virt + o) = some ((k.physStart + o) % UINT)

theorem physOf_pageEnt (hva : va < UINT) (hp : present (pageEnt m d (va / PGSIZE)) = true) :
    physOf m d va = some (pteAddr (pageEnt m d (va / PGSIZE)) * PGSIZE + va % PGSIZE) := by
  have h1 : va / PGSIZE / 1024 = pdx va := by
    unfold pdx PGSIZE UINT at *
    omega
  have h2 : va / PGSIZE % 1024 = ptx va := rfl
  unfold pageEnt at hp ⊢
  rw [h1, h2] at hp ⊢
  rw [physOf, userFrame]
  cases he : entry m d (pdx va) (ptx va) with
  | none =>
    rw [he] at hp
    cases hp
  | some w =>
    rw [he, Option.getD_some] at hp
    simp only [hp, if_true, Option.map_some, Option.getD_some]

/-! ## The rows of `kmap` -/

theorem physOf_row (hk : k.Ok) (h : k.Laid m d) (hlt : o < k.size) :
    physOf m d (k.virt + o) = some ((k.physStart + k.virt % PGSIZE + o) % UINT) := by
  obtain ⟨h1, h2, h3, h4, h5, h6⟩ := hk
  have hp : k.perm < PGSIZE := by rcases h6 with h6 | h6 <;> rw [h6] <;> decide
  have hent := h ((k.virt + o) / PGSIZE) (Nat.div_le_div_right (Nat.le_add_right _ _))
    (Nat.div_le_div_right (by unfold Kmap.size at hlt; omega))
  -- the page of `virt + o` is a whole number of pages after that of `virt`
  generalize hq : (k.virt + o) / PGSIZE - k.first = q at *
  have hbase : (k.physStart + q * PGSIZE) % UINT =
      (k.physStart + q * PGSIZE) % UINT / PGSIZE * PGSIZE := by
    unfold PGSIZE UINT at *
    omega
  have hfr : (k.physStart + q * PGSIZE) % UINT / PGSIZE < 2 ^ 20 := by
    unfold PGSIZE UINT
    omega
  rw [rowPte, hq, hbase, Nat.mod_eq_of_lt (mkPte_lt hfr hp)] at hent
  rw [physOf_pageEnt (by unfold Kmap.size at hlt; omega) (by rw [hent, present_mkPte]), hent,
    pteAddr_mkPte hp, Option.some.injEq]
  unfold Kmap.first at hq
  unfold PGSIZE UINT at *
  omega

theorem translates_iff (hk : k.Ok) (h : k.Laid m d) : k.Translates m d ↔ k.virt % PGSIZE = 0 := by
  constructor
  · intro ht
    have h0 := ht 0 hk.size_pos
    rw [physOf_row hk h hk.size_pos, Option.some.injEq, Nat.add_zero, Nat.add_zero] at h0
    have := hk.lt
    have := hk.page
    unfold PGSIZE UINT at *
    omega
  · intro hv o hlt
    rw [physOf_row hk h hlt, hv, Nat.add_zero]

/-! ## The frame buffer -/

def vramRow (L : Layout) : Kmap :=
  ⟨DEVSPACE - L.vramSize, L.pvramAddr, (L.pvramAddr + L.vramSize) % UINT, PTE_W⟩

theorem vramRow_mem : vramRow L ∈ kmap L := by simp [kmap, vramRow]

theorem vramRow_size : (vramRow L).size = L.vramSize := by
  have h1 := L.vram_pos
  have h2 := L.vram_le
  have h3 := L.pvram_lt
  unfold Kmap.size vramRow PCI_BAR_BASE PCI_VP_OFFSET DEVSPACE UINT at *
  simp only
  omega

theorem vramRow_page : (vramRow L).virt % PGSIZE = 0 ↔ L.vramSize % PGSIZE = 0 := by
  have h2 := L.vram_le
  unfold vramRow PCI_BAR_BASE PCI_VP_OFFSET DEVSPACE PGSIZE at *
  simp only
  omega

theorem kmap_page : ∀ k ∈ (kmap L).eraseIdx 3, k.virt % PGSIZE = 0 := by
  simp only [kmap, List.eraseIdx_cons_succ, List.eraseIdx_cons_zero, List.forall_mem_cons,
    List.not_mem_nil, false_implies, implies_true, and_true]
  exact ⟨by decide, by decide, L.data_page, by decide, by decide⟩

/-- **The frame buffer is mapped where the console draws** exactly if its size is a number of
pages; every other row of `kmap` translates as listed, and no page is mapped twice. -/
theorem framebuffer_translates_iff (ho : Own s fun _ => 0) (hlen : 513 ≤ s.freelist.length) :
    ∃ d s', Runs (setupkvm L) s (some d) s' ∧ (∀ k ∈ (kmap L).eraseIdx 3, k.Translates s'.mem d) ∧
      ((∀ k < L.vramSize, physOf s'.mem d (DEVSPACE - L.vramSize + k) =
          some ((L.pvramAddr + k) % UINT)) ↔ L.vramSize % PGSIZE = 0) := by
  obtain ⟨d, s', hrun, hb⟩ := setupkvm_runs (L := L) hlen ho
  have hlaid := hb.rows
  refine ⟨d, s', hrun, fun k hk => ?_, ?_⟩
  · have hmem := List.mem_of_mem_eraseIdx hk
    exact (translates_iff (kmap_ok k hmem) (hlaid k hmem)).2 (kmap_page k hk)
  · rw [← vramRow_page, ← translates_iff (kmap_ok _ vramRow_mem) (hlaid _ vramRow_mem),
      Kmap.Translates, vramRow_size]
    rfl

def freshKernel : Kernel :=
  { Kernel.blank (fun _ => fill 0) [] with freelist := List.range' 300 600 }

theorem freshKernel_own : Own freshKernel fun _ => 0 := by
  have hpool : ∀ f, pool freshKernel f = (List.range' 300 600).count f := fun f => rfl
  refine ⟨fun f => ?_, fun f hf => ?_⟩
  · rw [hpool, Nat.add_zero]
    exact List.nodup_iff_count_le_one.1 List.nodup_range' f
  · rw [hpool, Nat.add_zero, List.count_pos_iff, List.mem_range'_1] at hf
    omega

theorem freshKernel_length : 513 ≤ freshKernel.freelist.length := by
  rw [freshKernel, List.length_range']
  decide

theorem framebuffer_translates_small : ∃ d s', Runs (setupkvm smallLayout) freshKernel (some d) s' ∧
    (∀ k ∈ (kmap smallLayout).eraseIdx 3, k.Translates s'.mem d) ∧
    ∀ k < smallLayout.vramSize, physOf s'.mem d (DEVSPACE - smallLayout.vramSize + k) =
      some ((smallLayout.pvramAddr + k) % UINT) := by
  obtain ⟨d, s', hrun, hrows, hiff⟩ :=
    framebuffer_translates_iff (L := smallLayout) freshKernel_own freshKernel_length
  exact ⟨d, s', hrun, hrows, hiff.2 (by decide)⟩

def svgaLayout : Layout :=
  { smallLayout with
    vramSize := 1920000
    pvramAddr := 0xE0000000
    vram_pos := by decide
    vram_le := by decide
    pvram_page := by decide
    pvram_lt := by decide }

/-- The first pixel of such a screen is drawn at pixel 256 of its first line. -/
theorem framebuffer_svga_shifted : ∃ d s', Runs (setupkvm svgaLayout) freshKernel (some d) s' ∧
    physOf s'.mem d (DEVSPACE - svgaLayout.vramSize) = some (svgaLayout.pvramAddr + 256 * 4) := by
  obtain ⟨d, s', hrun, hb⟩ := setupkvm_runs (L := svgaLayout) freshKernel_length freshKernel_own
  have hrow := physOf_row (kmap_ok _ vramRow_mem) (hb.rows _ vramRow_mem) (kmap_ok _ vramRow_mem).size_pos
  have hpa : ((vramRow svgaLayout).physStart + (vramRow svgaLayout).virt % PGSIZE + 0) % UINT =
      svgaLayout.pvramAddr + 256 * 4 := by decide
  rw [hpa] at hrow
  exact ⟨d, s', hrun, hrow⟩

end Vm
