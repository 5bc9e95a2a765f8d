import Mathlib.Data.List.Basic
import Xv6.Boot.Loader

/-!
# What the loader writes, and what the kernel reads back

The range that `RelocateELF` allocates holds each segment's `p_memsz` bytes, but what it copies are the
`p_filesz` bytes. The writes are in the range iff these are (`relocate_inside`). The boot parameters are
read back as they were written, from a table that is outside of their page (`boot_param_handed`).
-/

namespace Boot

open Bytes

variable {file m : Store} {p q : Phdr} {hs : List Phdr} {x s e : Nat}

/-! ## Where the segments are placed -/

def loads (file : Store) : List Phdr := (phdrs file).filter fun p => p.p_type = PT_LOAD

def Phdr.rounded (p : Phdr) : Nat := (p.p_paddr + p.p_memsz + p.p_align - 1) / p.p_align * p.p_align

def Phdr.Covers (p : Phdr) (x : Nat) : Prop := p.p_paddr ≤ x ∧ x < p.p_paddr + max p.p_filesz p.p_memsz

def Apart (hs : List Phdr) : Prop := hs.Pairwise fun p q => ∀ x, p.Covers x → ¬ q.Covers x

/-- The segment's memory holds its bytes of the file, and then zeros. -/
def Loaded (file m : Store) (p : Phdr) : Prop :=
  (∀ i < p.p_filesz, m (p.p_paddr + i) = file (p.p_offset + i)) ∧
    ∀ i, p.p_filesz ≤ i → i < p.p_memsz → m (p.p_paddr + i) = 0

def Relocated.Inside (r : Relocated) : Prop :=
  ∀ w ∈ r.writes, ∀ x, w.1 ≤ x → x < w.1 + w.2 →
    r.alloc_start_address ≤ x ∧ x < r.alloc_start_address + 4096 * r.page_size

structure Spans (hs : List Phdr) (s e : Nat) : Prop where
  first : ∃ p ∈ hs, p.p_paddr = s
  le : ∀ p ∈ hs, s ≤ p.p_paddr
  last : ∃ p ∈ hs, p.rounded = e
  ge : ∀ p ∈ hs, p.rounded ≤ e

def FitsPages (hs : List Phdr) : Prop :=
  ∀ s e, Spans hs s e → ∀ p ∈ hs, 0 < p.p_filesz →
    p.p_paddr + p.p_filesz ≤ s + 4096 * ((e - s) / 4096 + 1)

structure Phdr.Valid (p : Phdr) : Prop where
  paddr : p.p_paddr < 2 ^ 32
  memsz : p.p_memsz < 2 ^ 32
  align : ∃ k < 32, p.p_align = 2 ^ k

theorem and_not_mask {a k : Nat} (ha : a < 2 ^ 64) (hk : k < 64) :
    a &&& (2 ^ 64 - 1 - (2 ^ k - 1)) = a / 2 ^ k * 2 ^ k := by
  have hpos := Nat.two_pow_pos k
  have hpow : (2 : Nat) ^ (64 - k) * 2 ^ k = 2 ^ 64 := by
    rw [← Nat.pow_add, Nat.sub_add_cancel (Nat.le_of_lt hk)]
  have hm : 2 ^ 64 - 1 - (2 ^ k - 1) = (2 ^ (64 - k) - 1) * 2 ^ k := by
    rw [Nat.sub_mul, hpow, Nat.one_mul]
    omega
  have hdiv : (a &&& (2 ^ (64 - k) - 1) * 2 ^ k) / 2 ^ k = a / 2 ^ k := by
    rw [Nat.and_div_two_pow, Nat.mul_div_cancel _ hpos, Nat.and_two_pow_sub_one_eq_mod]
    exact Nat.mod_eq_of_lt ((Nat.div_lt_iff_lt_mul hpos).2 (by rwa [hpow]))
  have hmod : (a &&& (2 ^ (64 - k) - 1) * 2 ^ k) % 2 ^ k = 0 := by
    rw [Nat.and_mod_two_pow, Nat.mul_mod_left, Nat.and_zero]
  rw [hm, ← Nat.div_add_mod' (a &&& (2 ^ (64 - k) - 1) * 2 ^ k) (2 ^ k), hdiv, hmod, Nat.add_zero]

theorem Phdr.Valid.endAddress (h : p.Valid) : p.endAddress = p.rounded := by
  obtain ⟨k, hk, hal⟩ := h.align
  have h1 := Nat.two_pow_pos k
  have h2 : 2 ^ k ≤ 2 ^ 31 := Nat.pow_le_pow_right (by decide) (by omega)
  have hmask : p.mask = 2 ^ k - 1 := by
    rw [Phdr.mask, hal]
    omega
  have hp := h.paddr
  have hs := h.memsz
  rw [Phdr.endAddress, hmask, Nat.mod_eq_of_lt (by omega), and_not_mask (by omega) (by omega),
    Phdr.rounded, hal, show p.p_paddr + p.p_memsz + (2 ^ k - 1) =
    p.p_paddr + p.p_memsz + 2 ^ k - 1 by omega]

theorem Phdr.Valid.rounded_bounds (h : p.Valid) :
    p.p_paddr + p.p_memsz ≤ p.rounded ∧ p.rounded < 2 ^ 34 := by
  obtain ⟨k, hk, hal⟩ := h.align
  have h1 := Nat.two_pow_pos k
  have h2 : 2 ^ k ≤ 2 ^ 31 := Nat.pow_le_pow_right (by decide) (by omega)
  have hp := h.paddr
  have hs := h.memsz
  have hdiv := Nat.div_add_mod' (p.p_paddr + p.p_memsz + 2 ^ k - 1) (2 ^ k)
  have hmod := Nat.mod_lt (p.p_paddr + p.p_memsz + 2 ^ k - 1) h1
  rw [Phdr.rounded, hal]
  omega

/-! ## The first pass -/

theorem Spans.unique {s' e' : Nat} (h : Spans hs s e) (h' : Spans hs s' e') : s = s' ∧ e = e' := by
  obtain ⟨p, hp, rfl⟩ := h.first
  obtain ⟨p', hp', rfl⟩ := h'.first
  obtain ⟨q, hq, rfl⟩ := h.last
  obtain ⟨q', hq', rfl⟩ := h'.last
  exact ⟨Nat.le_antisymm (h.le p' hp') (h'.le p hp), Nat.le_antisymm (h'.ge q hq) (h.ge q' hq')⟩

theorem foldl_skip {α β : Type} {f : α → β → α} {P : β → Bool} (hf : ∀ a b, P b = false → f a b = a)
    (l : List β) (a : α) : l.foldl f a = (l.filter P).foldl f a := by
  rw [List.foldl_filter]
  congr
  funext x y
  cases h : P y with
  | true => rfl
  | false => exact hf x y h

theorem place_loads (m : Store) :
    (phdrs file).foldl (place file) (m, []) = (loads file).foldl (place file) (m, []) :=
  foldl_skip (fun r p h => if_neg (by simpa using h)) _ _

theorem widen_spans {before : List Phdr} (hr : Spans before s e) (hl : ∀ p ∈ hs, p.p_type = PT_LOAD)
    (hv : ∀ p ∈ hs, p.Valid) :
    ∃ s' e', hs.foldl widen (some (s, e)) = some (s', e') ∧ Spans (before ++ hs) s' e' := by
  induction hs generalizing before s e with
  | nil => exact ⟨s, e, rfl, by rwa [List.append_nil]⟩
  | cons p hs ih =>
    have hp := hl p List.mem_cons_self
    obtain ⟨a, ha, has⟩ := hr.first
    obtain ⟨b, hb, hbe⟩ := hr.last
    have hnext : Spans (before ++ [p]) (if p.p_paddr < s then p.p_paddr else s)
        (if e < p.rounded then p.rounded else e) := by
      refine ⟨?_, fun q hq => ?_, ?_, fun q hq => ?_⟩
      · split
        · exact ⟨p, by simp, rfl⟩
        · exact ⟨a, by simp [ha], has⟩
      · rcases List.mem_append.1 hq with hq | hq
        · have := hr.le q hq
          split <;> omega
        · obtain rfl := List.mem_singleton.1 hq
          split <;> omega
      · split
        · exact ⟨p, by simp, rfl⟩
        · exact ⟨b, by simp [hb], hbe⟩
      · rcases List.mem_append.1 hq with hq | hq
        · have := hr.ge q hq
          split <;> omega
        · obtain rfl := List.mem_singleton.1 hq
          split <;> omega
    rw [List.foldl_cons, widen, if_pos hp, (hv p List.mem_cons_self).endAddress,
      show before ++ p :: hs = before ++ [p] ++ hs by simp]
    exact ih hnext (fun q hq => hl q (.tail _ hq)) fun q hq => hv q (.tail _ hq)

theorem loads_type (hp : p ∈ loads file) : p.p_type = PT_LOAD := by
  simpa using (List.mem_filter.1 hp).2

theorem widen_loads (hv : ∀ p ∈ loads file, p.Valid) (hne : loads file ≠ []) :
    ∃ s e, (phdrs file).foldl widen none = some (s, e) ∧ Spans (loads file) s e := by
  have hl : ∀ p ∈ loads file, p.p_type = PT_LOAD := fun p => loads_type
  rw [foldl_skip (f := widen) (P := fun p => p.p_type = PT_LOAD) fun r p h => if_neg (by simpa using h)]
  change ∃ s e, (loads file).foldl widen none = some (s, e) ∧ _
  obtain ⟨p, hs, he⟩ := List.exists_cons_of_ne_nil hne
  rw [he] at hl hv ⊢
  have hone : Spans [p] p.p_paddr p.rounded := by constructor <;> simp
  rw [List.foldl_cons, widen, if_pos (hl p List.mem_cons_self), (hv p List.mem_cons_self).endAddress]
  exact widen_spans hone (fun q hq => hl q (.tail _ hq)) fun q hq => hv q (.tail _ hq)

/-! ## The second pass -/

def Phdr.writes (p : Phdr) : List (Nat × Nat) :=
  (p.p_paddr, p.p_filesz) ::
    if p.p_filesz < p.p_memsz then [(p.p_paddr + p.p_filesz, p.p_memsz - p.p_filesz)] else []

theorem Phdr.covers_writes : p.Covers x ↔ ∃ w ∈ p.writes, w.1 ≤ x ∧ x < w.1 + w.2 := by
  unfold Phdr.Covers Phdr.writes
  split <;> simp <;> omega

theorem place_load (file : Store) (h : p.p_type = PT_LOAD) (r : Store × List (Nat × Nat)) :
    (place file r p).2 = r.2 ++ p.writes ∧ Loaded file (place file r p).1 p ∧
      ∀ x, ¬ p.Covers x → (place file r p).1 x = r.1 x := by
  unfold place Phdr.writes Loaded Phdr.Covers
  simp only [if_pos h]
  split
  · refine ⟨by simp, ⟨fun i hi => ?_, fun i h1 h2 => ?_⟩, fun x hx => ?_⟩ <;> simp only [copy]
    · rw [if_neg (by omega), if_pos (by omega), Nat.add_sub_cancel_left]
    · rw [if_pos (by omega)]
      rfl
    · rw [if_neg (by omega), if_neg (by omega)]
  · refine ⟨rfl, ⟨fun i hi => ?_, fun i h1 h2 => by omega⟩, fun x hx => if_neg (by omega)⟩
    simp only [copy]
    rw [if_pos (by omega), Nat.add_sub_cancel_left]

theorem place_writes (file : Store) (hl : ∀ p ∈ hs, p.p_type = PT_LOAD) (r : Store × List (Nat × Nat)) :
    (hs.foldl (place file) r).2 = r.2 ++ hs.flatMap Phdr.writes ∧
      ∀ x, (∀ p ∈ hs, ¬ p.Covers x) → (hs.foldl (place file) r).1 x = r.1 x := by
  induction hs generalizing r with
  | nil => exact ⟨(List.append_nil _).symm, fun _ _ => rfl⟩
  | cons p hs ih =>
    obtain ⟨hw, -, hx⟩ := place_load file (hl p List.mem_cons_self) r
    obtain ⟨hw', hx'⟩ := ih (fun q hq => hl q (.tail _ hq)) (place file r p)
    refine ⟨?_, fun x h => ?_⟩
    · rw [List.foldl_cons, hw', hw, List.flatMap_cons, List.append_assoc]
    · rw [List.foldl_cons, hx' x fun q hq => h q (.tail _ hq), hx x (h p List.mem_cons_self)]

theorem Loaded.congr {m' : Store} (h : Loaded file m p) (he : ∀ x, p.Covers x → m' x = m x) :
    Loaded file m' p := by
  refine ⟨fun i hi => ?_, fun i h1 h2 => ?_⟩
  · rw [he _ (by unfold Phdr.Covers; omega), h.1 i hi]
  · rw [he _ (by unfold Phdr.Covers; omega), h.2 i h1 h2]

theorem place_loaded (hl : ∀ p ∈ hs, p.p_type = PT_LOAD) (ha : Apart hs)
    (r : Store × List (Nat × Nat)) : ∀ p ∈ hs, Loaded file (hs.foldl (place file) r).1 p := by
  induction hs generalizing r with
  | nil => nofun
  | cons q hs ih =>
    obtain ⟨hq, ha⟩ := List.pairwise_cons.1 ha
    have hl' : ∀ p ∈ hs, p.p_type = PT_LOAD := fun p hp => hl p (.tail _ hp)
    intro p hp
    rcases List.mem_cons.1 hp with rfl | hp
    · obtain ⟨-, hload, -⟩ := place_load file (hl p List.mem_cons_self) r
      exact hload.congr fun x hx => (place_writes file hl' _).2 x fun q' hq' => hq q' hq' x hx
    · exact ih hl' ha _ p hp

/-! ## `RelocateELF` -/

theorem Phdr.Valid.contained (hv : ∀ p ∈ hs, p.Valid) (hspan : Spans hs s e) (hp : p ∈ hs) :
    s ≤ p.p_paddr ∧ p.p_paddr + p.p_memsz ≤ s + 4096 * ((e - s) / 4096 + 1) := by
  have h1 := hspan.le p hp
  have h2 := hspan.ge p hp
  have h3 := (hv p hp).rounded_bounds.1
  omega

theorem FitsPages.of_memsz (hv : ∀ p ∈ hs, p.Valid) (h : ∀ p ∈ hs, p.p_filesz ≤ p.p_memsz) :
    FitsPages hs := by
  intro s e hspan p hp _
  have h1 := (Phdr.Valid.contained hv hspan hp).2
  have h2 := h p hp
  omega

theorem inside_iff (hv : ∀ p ∈ hs, p.Valid) (hspan : Spans hs s e) :
    (∀ w ∈ hs.flatMap Phdr.writes, ∀ x, w.1 ≤ x → x < w.1 + w.2 →
      s ≤ x ∧ x < s + 4096 * ((e - s) / 4096 + 1)) ↔ FitsPages hs := by
  constructor
  · intro h s' e' hspan' p hp hpos
    obtain ⟨rfl, rfl⟩ := hspan.unique hspan'
    have := h (p.p_paddr, p.p_filesz) (List.mem_flatMap.2 ⟨p, hp, List.mem_cons_self⟩)
      (p.p_paddr + p.p_filesz - 1) (by simp only; omega) (by simp only; omega)
    omega
  · intro h w hw x h1 h2
    obtain ⟨p, hp, hw⟩ := List.mem_flatMap.1 hw
    obtain ⟨hx1, hx2⟩ := Phdr.covers_writes.2 ⟨w, hw, h1, h2⟩
    obtain ⟨hs1, hs2⟩ := Phdr.Valid.contained hv hspan hp
    have hfit := h s e hspan p hp
    omega

theorem loads_valid (halign : ∀ p ∈ loads file, ∃ k < 32, p.p_align = 2 ^ k) :
    ∀ p ∈ loads file, p.Valid := by
  intro p hp
  obtain ⟨i, -, rfl⟩ := List.mem_map.1 (List.mem_filter.1 hp).1
  exact ⟨get32_lt .., get32_lt .., halign _ hp⟩

theorem relocateELF_spec (m : Store) (hne : loads file ≠ []) (hv : ∀ p ∈ loads file, p.Valid) :
    ∃ r, relocateELF (fun _ _ => true) file m = some r ∧ (r.Inside ↔ FitsPages (loads file)) ∧
      (Apart (loads file) → ∀ p ∈ loads file, Loaded file r.mem p) := by
  have hl : ∀ p ∈ loads file, p.p_type = PT_LOAD := fun p => loads_type
  obtain ⟨s, e, hrange, hspan⟩ := widen_loads hv hne
  have hpages : (e + 2 ^ 64 - s) % 2 ^ 64 = e - s := by
    obtain ⟨p, hp, rfl⟩ := hspan.last
    have h1 := (hv p hp).rounded_bounds
    have h2 := hspan.le p hp
    omega
  obtain ⟨hwrites, -⟩ := place_writes file hl (m, [])
  refine ⟨_, by rw [relocateELF, hrange, place_loads]; rfl, ?_, fun ha => place_loaded hl ha (m, [])⟩
  rw [← inside_iff hv hspan, ← hpages, ← List.nil_append ((loads file).flatMap Phdr.writes), ← hwrites]
  rfl

/-- For an image with a segment, where `AllocatePages` succeeds: `RelocateELF` writes in the
allocated range only and loads segments that do not overlap, iff the file bytes of each segment end
in these pages. -/
theorem relocate_inside (file m : Store) (hne : loads file ≠ [])
    (halign : ∀ p ∈ loads file, ∃ k < 32, p.p_align = 2 ^ k) :
    ∃ r, relocateELF (fun _ _ => true) file m = some r ∧
      ((r.Inside ∧ (Apart (loads file) → ∀ p ∈ loads file, Loaded file r.mem p)) ↔
        FitsPages (loads file)) ∧
      ((∀ p ∈ loads file, p.p_filesz ≤ p.p_memsz) → FitsPages (loads file)) := by
  have hv := loads_valid halign
  obtain ⟨r, hr, hinside, hloaded⟩ := relocateELF_spec m hne hv
  exact ⟨r, hr, (and_iff_left hloaded).trans hinside, FitsPages.of_memsz hv⟩

/-! ## An image whose segment has more bytes in the file than in memory -/

def image (filesz : Nat) : Store :=
  let f := put16 (put32 (fill 0) 28 52) 44 1
  put32 (put32 (put32 (put32 (put32 f 52 PT_LOAD) 64 0x100000) 68 filesz) 72 0x1000) 80 0x1000

theorem loads_image (filesz : Nat) :
    loads (image filesz) = [⟨1, 0, 0x100000, filesz % 2 ^ 32, 0x1000, 0x1000⟩] := by
  have hnum : get16 (image filesz) 44 = 1 := rfl
  have hoff : get32 (image filesz) 28 = 52 := rfl
  have hzero : get32 (put16 (put32 (fill 0) 28 52) 44 1) 56 = 0 := rfl
  have hp : phdrAt (image filesz) 52 = ⟨1, 0, 0x100000, filesz % 2 ^ 32, 0x1000, 0x1000⟩ := by
    simp (disch := decide) [phdrAt, image, get32_put32_ne, hzero, PT_LOAD]
  rw [loads, phdrs, hnum, hoff, List.range_one, List.map_singleton, Nat.mul_zero, Nat.add_zero, hp]
  rfl

theorem spans_image (filesz : Nat) : Spans (loads (image filesz)) 0x100000 0x101000 := by
  have hr : ∀ filesz, (⟨1, 0, 0x100000, filesz, 0x1000, 0x1000⟩ : Phdr).rounded = 0x101000 :=
    fun _ => show (0x100000 + 0x1000 + 0x1000 - 1) / 0x1000 * 0x1000 = 0x101000 by decide
  rw [loads_image]
  exact ⟨⟨_, List.mem_cons_self, rfl⟩,
    fun p hp => Nat.le_of_eq (congrArg Phdr.p_paddr (List.mem_singleton.1 hp)).symm,
    ⟨_, List.mem_cons_self, hr _⟩,
    fun p hp => Nat.le_of_eq ((congrArg Phdr.rounded (List.mem_singleton.1 hp)).trans (hr _))⟩

theorem fitsPages_image (filesz : Nat) :
    FitsPages (loads (image filesz)) ↔ filesz % 2 ^ 32 ≤ 0x2000 := by
  constructor
  · intro h
    have hmem : (⟨1, 0, 0x100000, filesz % 2 ^ 32, 0x1000, 0x1000⟩ : Phdr) ∈ loads (image filesz) := by
      rw [loads_image]
      exact List.mem_cons_self
    by_contra hlt
    have := h _ _ (spans_image filesz) _ hmem (Nat.lt_of_le_of_lt (Nat.zero_le _) (Nat.lt_of_not_le hlt))
    exact hlt (Nat.le_of_add_le_add_left this)
  · intro h s e hspan p hp _
    obtain ⟨hs, he⟩ := (spans_image filesz).unique hspan
    rw [loads_image, List.mem_singleton] at hp
    rw [hp, ← hs, ← he]
    exact Nat.add_le_add_left h _

theorem image_aligned (filesz : Nat) : loads (image filesz) ≠ [] ∧
    ∀ p ∈ loads (image filesz), ∃ k < 32, p.p_align = 2 ^ k := by
  rw [loads_image]
  refine ⟨nofun, fun p hp => ⟨12, by decide, ?_⟩⟩
  obtain rfl := List.mem_singleton.1 hp
  exact rfl

theorem relocate_inside_page : ∃ r, relocateELF (fun _ _ => true) (image 0x1000) (fill 0) = some r ∧
    r.Inside := by
  obtain ⟨r, hr, h, -⟩ := relocate_inside (image 0x1000) (fill 0) (image_aligned _).1 (image_aligned _).2
  exact ⟨r, hr, (h.2 ((fitsPages_image _).2 (by decide))).1⟩

/-- With one byte more than two pages in the file, that byte is written behind the allocated range. -/
theorem relocate_outside : ∃ r, relocateELF (fun _ _ => true) (image 0x2001) (fill 0) = some r ∧
    ¬ r.Inside := by
  obtain ⟨r, hr, h, -⟩ := relocateELF_spec (fill 0) (image_aligned 0x2001).1
    (loads_valid (image_aligned 0x2001).2)
  exact ⟨r, hr, fun hi => absurd ((fitsPages_image _).1 (h.1 hi)) (by decide)⟩

/-! ## The boot parameters -/

/-- The loader's copy of the table is in the page at `BOOTPARAM`, behind `boot_param`. -/
def InPage (t : Store) : Prop :=
  ∀ i < madtLen t, BOOTPARAM + sizeofBootParam ≤ madtAddr + i ∧ madtAddr + i < BOOTPARAM + 4096

def ReadBack (g : GraphicConfig) (t m : Store) : Prop :=
  graphicInit m = ⟨g.frame_base, (DEVSPACE + 2 ^ 32 - g.frame_size) % 2 ^ 32, g.frame_size,
    g.horizontal_resolution, g.vertical_resolution, g.pixels_per_scan_line⟩ ∧
  ∀ i < madtLen t, kernelMadt m i = t i

structure GraphicConfig.Small (g : GraphicConfig) : Prop where
  frame_base : g.frame_base < 2 ^ 32
  frame_size : g.frame_size < 2 ^ 32
  horizontal_resolution : g.horizontal_resolution < 2 ^ 32
  vertical_resolution : g.vertical_resolution < 2 ^ 32
  pixels_per_scan_line : g.pixels_per_scan_line < 2 ^ 32

theorem put64_other (m : Store) {o i : Nat} (v : Nat) (h : i < o ∨ o + 8 ≤ i) : put64 m o v i = m i := by
  rw [put64, put32_other _ _ (by omega), put32_other _ _ (by omega)]

@[simp] theorem get32_put64 (m : Store) (o v : Nat) : get32 (put64 m o v) o = v % 2 ^ 32 := by
  rw [put64, get32_put32_ne _ _ (by omega), get32_put32]

theorem get32_put64_ne (m : Store) {o i : Nat} (v : Nat) (h : i + 4 ≤ o ∨ o + 8 ≤ i) :
    get32 (put64 m o v) i = get32 m i :=
  get32_congr fun j h1 h2 => put64_other m v (by omega)

theorem putGdt_other (m : Store) {o i : Nat} (limit base access flags : Nat) (h : i < o ∨ o + 8 ≤ i) :
    putGdt m o limit base access flags i = m i := by
  unfold putGdt
  rw [put8_other _ _ (by omega), put8_other _ _ (by omega), put8_other _ _ (by omega),
    put8_other _ _ (by omega), put16_other _ _ (by omega) (by omega),
    put16_other _ _ (by omega) (by omega)]

theorem copyMadt_tables {t : Store} {tables : List Store} (h : tables.filter isMadt = [t]) (m : Store) :
    tables.foldl copyMadt m =
      copy (put64 m (field loaderFields 1) madtAddr) madtAddr t 0 (madtLen t) := by
  have ht : isMadt t = true := (List.mem_filter.1 (h ▸ List.mem_cons_self : t ∈ tables.filter isMadt)).2
  rw [foldl_skip (f := copyMadt) (P := isMadt) (fun m u hu => if_neg (by rw [hu]; decide)), h]
  exact if_pos ht

/-- The boot parameters as the kernel finds them, up to the descriptor table. -/
theorem fillBootParam_eq {g : GraphicConfig} {t : Store} {tables : List Store} {kernel : Nat}
    (h : tables.filter isMadt = [t]) {x : Nat} (hx : x < field loaderFields 3 ∨ madtAddr ≤ x) :
    fillBootParam kernel g tables m x =
      copy (put64 (putGraphicConfig (put64 m BOOTPARAM kernel) (BOOTPARAM + 16) g) (BOOTPARAM + 8)
        madtAddr) madtAddr t 0 (madtLen t) x := by
  have h3 : field loaderFields 3 = BOOTPARAM + 56 := rfl
  have h4 : field loaderFields 4 = BOOTPARAM + 80 := rfl
  have h5 : field loaderFields 5 = BOOTPARAM + 90 := rfl
  have ha : BOOTPARAM + 98 ≤ madtAddr := by decide
  simp only [fillBootParam, setGdt, copyMadt_tables h, h3, h4, h5] at hx ⊢
  rw [putGdt_other _ _ _ _ _ (by omega), putGdt_other _ _ _ _ _ (by omega),
    putGdt_other _ _ _ _ _ (by omega), put64_other _ _ (by omega), put16_other _ _ (by omega) (by omega),
    put64_other _ _ (by omega)]
  rfl

section Fill

variable {g : GraphicConfig} {t : Store} {tables : List Store} (kernel : Nat)

theorem fillBootParam_get32 (h : tables.filter isMadt = [t]) {o : Nat} (ho : o + 4 ≤ 56) :
    get32 (fillBootParam kernel g tables m) (BOOTPARAM + o) =
      get32 (put64 (putGraphicConfig (put64 m BOOTPARAM kernel) (BOOTPARAM + 16) g) (BOOTPARAM + 8)
        madtAddr) (BOOTPARAM + o) := by
  have h3 : field loaderFields 3 = BOOTPARAM + 56 := rfl
  have ha : BOOTPARAM + 98 ≤ madtAddr := by decide
  refine get32_congr fun x h1 h2 => ?_
  rw [fillBootParam_eq h (by omega)]
  exact if_neg (by omega)

theorem fillBootParam_readBack (h : tables.filter isMadt = [t]) (hg : g.Small) :
    ReadBack g t (fillBootParam kernel g tables m) := by
  have hread : ∀ o, o + 4 ≤ 56 → _ := fun o => fillBootParam_get32 (m := m) (g := g) kernel h (o := o)
  have haddr : get32 (fillBootParam kernel g tables m) (field kernelFields 2) = madtAddr := by
    rw [show field kernelFields 2 = BOOTPARAM + 8 from rfl, hread 8 (by omega), get32_put64]
    rfl
  refine ⟨?_, fun i hi => ?_⟩
  · have h4 : field kernelFields 4 = BOOTPARAM + 16 := rfl
    simp only [graphicInit, h4, Nat.add_assoc, hread 16 (by omega), hread 24 (by omega),
      hread 32 (by omega), hread 40 (by omega), hread 48 (by omega)]
    simp (disch := omega) only [putGraphicConfig, get32_put64_ne, get32_put64,
      Nat.mod_eq_of_lt hg.frame_base, Nat.mod_eq_of_lt hg.frame_size,
      Nat.mod_eq_of_lt hg.horizontal_resolution, Nat.mod_eq_of_lt hg.vertical_resolution,
      Nat.mod_eq_of_lt hg.pixels_per_scan_line]
  · rw [kernelMadt, haddr, fillBootParam_eq h (by omega)]
    exact (if_pos (by omega)).trans (by simp)

end Fill

/-- The kernel reads back what the loader had, but the copy of the table is in the page of the boot
parameters iff there is nothing to copy. -/
theorem boot_param_handed (m t : Store) (tables : List Store) (kernel : Nat) (g : GraphicConfig)
    (hg : g.Small) (ht : tables.filter isMadt = [t]) :
    ReadBack g t (fillBootParam kernel g tables m) ∧
      ((InPage t ∧ ReadBack g t (fillBootParam kernel g tables m)) ↔ madtLen t = 0) := by
  have hread := fillBootParam_readBack (m := m) kernel ht hg
  refine ⟨hread, fun h => ?_, fun h => ⟨fun i hi => absurd hi (by omega), hread⟩⟩
  by_contra hpos
  exact absurd (h.1 0 (Nat.pos_of_ne_zero hpos)).2 (by decide)

def madtOf (len : Nat) : Store := put32 (putList (fill 0) 0 [0x41, 0x50, 0x49, 0x43]) 4 len

theorem boot_param_handed_one : ReadBack ⟨0xC0000000, 0x300000, 1024, 768, 1024⟩ (madtOf 44)
      (fillBootParam 0x100000 ⟨0xC0000000, 0x300000, 1024, 768, 1024⟩ [fill 0, madtOf 44] (fill 0)) :=
  (boot_param_handed (fill 0) (madtOf 44) [fill 0, madtOf 44] 0x100000
    ⟨0xC0000000, 0x300000, 1024, 768, 1024⟩ (by constructor <;> decide) rfl).1

/-- The header of a table, without entries, is copied behind the page. -/
theorem boot_param_outside : sizeofBootParam + madtLen (madtOf 44) ≤ 4096 ∧ ¬ InPage (madtOf 44) :=
  ⟨by decide, fun h => absurd (h 0 (by decide)).2 (by decide)⟩

end Boot
