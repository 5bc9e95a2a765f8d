import Mathlib.Tactic.Common
import Xv6.Console.Output

/-!
# What the console draws stays on the screen

`font_render` takes any character that is not a newline or `BACKSPACE` for the number of a glyph, and
`font_bin` has those of the printable characters only (`fontRender_iff`).
-/

namespace Console

def Access.InBounds (g : Gpu) : Access → Prop
  | .glyph index i => 0 ≤ index ∧ index < NGLYPH ∧ i < 30
  | .pixel x y _ => 0 ≤ x ∧ x < g.horizontal_resolution ∧ 0 ≤ y ∧ y < g.vertical_resolution
  | .bytes lo hi => 0 ≤ lo ∧ lo ≤ hi ∧ hi ≤ g.vram_size
  | .uart _ => True

def Screen.OnScreen (s : Screen) : Prop :=
  0 ≤ s.pos ∧ s.pos ≤ CONSOLE_HORIZONTAL_MAX * CONSOLE_VERTICAL_MAX

def Screen.InBounds (g : Gpu) (s : Screen) : Prop := s.OnScreen ∧ ∀ a ∈ s.log, a.InBounds g

def Safe (g : Gpu) (font : Int → Nat → Nat) (cs : List Int) : Prop :=
  ∀ pre, pre <+: cs → (Screen.start.puts g font pre).InBounds g

def Drawable (c : Int) : Prop :=
  c = NEWLINE.toNat ∨ c = BACKSPACE ∨ 0x20 ≤ c ∧ c < 0x20 + NGLYPH

instance {c : Int} : Decidable (Drawable c) := inferInstanceAs (Decidable (_ ∨ _ ∨ _ ∧ _))

section
variable {g : Gpu} {font : Int → Nat → Nat} {s : Screen} {c x y : Int}

theorem forall_append {l l' : List Access} : (∀ a ∈ l ++ l', a.InBounds g) ↔
    (∀ a ∈ l, a.InBounds g) ∧ ∀ a ∈ l', a.InBounds g := List.forall_mem_append

/-! ## Drawing -/

theorem mem_fontRender {a : Access} : a ∈ fontRender font x y c ↔ ∃ i < 30, ∃ k < 15,
    a = .glyph (c - 0x20) i ∨
      a = .pixel (x + (k : Nat)) (y + i) ((font (c - 0x20) i).testBit (14 - k)) := by
  simp only [fontRender, List.mem_flatMap, List.mem_range, List.mem_cons, List.not_mem_nil, or_false]

theorem fontRender_iff (hx : 0 ≤ x) (hy : 0 ≤ y) (hx' : x + 15 ≤ g.horizontal_resolution)
    (hy' : y + 30 ≤ g.vertical_resolution) : (∀ a ∈ fontRender font x y c, a.InBounds g) ↔
      0x20 ≤ c ∧ c < 0x20 + NGLYPH := by
  constructor
  · intro h
    obtain ⟨h1, h2, -⟩ := h (.glyph (c - 0x20) 0)
      (mem_fontRender.2 ⟨0, by decide, 0, by decide, .inl rfl⟩)
    exact ⟨by omega, by omega⟩
  · rintro ⟨h1, h2⟩ a ha
    obtain ⟨i, hi, k, hk, rfl | rfl⟩ := mem_fontRender.1 ha
    · exact ⟨by omega, by omega, hi⟩
    · exact ⟨by omega, by omega, by omega, by omega⟩

theorem graphicScrollUp_inBounds (hh : 600 ≤ g.vertical_resolution) :
    ∀ a ∈ graphicScrollUp g 30, a.InBounds g := by
  have hle : 4 * g.pixels_per_line * 30 ≤ g.vram_size :=
    Nat.le_trans (Nat.mul_le_mul_left _ (by omega)) g.frame
  have hle' : (4 * g.pixels_per_line * 30 : Int) ≤ g.vram_size := by exact_mod_cast hle
  intro a ha
  simp only [graphicScrollUp, List.mem_cons, List.not_mem_nil, or_false] at ha
  rcases ha with rfl | rfl
  · exact ⟨Int.le_refl 0, by omega, by omega⟩
  · exact ⟨by omega, by omega, Int.le_refl _⟩

/-! ## One character -/

theorem scroll_spec (hh : 600 ≤ g.vertical_resolution) (h0 : 0 ≤ s.pos)
    (h1 : s.pos ≤ CONSOLE_HORIZONTAL_MAX * CONSOLE_VERTICAL_MAX + CONSOLE_HORIZONTAL_MAX) :
    (s.scroll g).OnScreen ∧ (s.scroll g).panicked = s.panicked ∧
      ((∀ a ∈ (s.scroll g).log, a.InBounds g) ↔ ∀ a ∈ s.log, a.InBounds g) := by
  unfold CONSOLE_HORIZONTAL_MAX CONSOLE_VERTICAL_MAX at h1
  unfold Screen.scroll Screen.OnScreen CONSOLE_VERTICAL_MAX CONSOLE_HORIZONTAL_MAX
  split
  · refine ⟨⟨by simp only; omega, by simp only; omega⟩, rfl, ?_⟩
    rw [forall_append]
    exact and_iff_left (graphicScrollUp_inBounds hh)
  · exact ⟨⟨h0, by omega⟩, rfl, .rfl⟩

theorem scroll_pos (h : s.OnScreen) : 0 ≤ (s.scroll g).pos ∧
    (s.scroll g).pos < CONSOLE_HORIZONTAL_MAX * CONSOLE_VERTICAL_MAX := by
  obtain ⟨h0, h1⟩ := h
  unfold CONSOLE_HORIZONTAL_MAX CONSOLE_VERTICAL_MAX at h1
  unfold Screen.scroll CONSOLE_VERTICAL_MAX CONSOLE_HORIZONTAL_MAX
  split
  · exact ⟨by simp only; omega, by simp only; omega⟩
  · exact ⟨h0, by omega⟩

theorem draw_spec (hw : 800 ≤ g.horizontal_resolution) (hh : 600 ≤ g.vertical_resolution)
    (h0 : 0 ≤ s.pos) (h1 : s.pos < CONSOLE_HORIZONTAL_MAX * CONSOLE_VERTICAL_MAX) :
    (s.draw font c).OnScreen ∧ (s.draw font c).panicked = s.panicked ∧
      ((∀ a ∈ (s.draw font c).log, a.InBounds g) ↔
        (∀ a ∈ s.log, a.InBounds g) ∧ 0x20 ≤ c ∧ c < 0x20 + NGLYPH) := by
  unfold CONSOLE_HORIZONTAL_MAX CONSOLE_VERTICAL_MAX at h1
  have hrow : s.pos.tdiv 53 = s.pos / 53 := Int.tdiv_eq_ediv_of_nonneg h0
  have hcol : s.pos.tmod 53 = s.pos % 53 := Int.tmod_eq_emod_of_nonneg h0
  refine ⟨?_, rfl, ?_⟩
  · unfold Screen.draw Screen.OnScreen CONSOLE_VERTICAL_MAX CONSOLE_HORIZONTAL_MAX
    exact ⟨by simp only; omega, by simp only; omega⟩
  · unfold Screen.draw CONSOLE_HORIZONTAL_MAX FONT_WIDTH FONT_HEIGHT
    rw [forall_append, hrow, hcol, fontRender_iff (by omega) (by omega) (by omega) (by omega)]

theorem graphicPutc_spec (hw : 800 ≤ g.horizontal_resolution) (hh : 600 ≤ g.vertical_resolution)
    (hs : s.OnScreen) : (s.graphicPutc g font c).OnScreen ∧
      (s.graphicPutc g font c).panicked = s.panicked ∧
      ((∀ a ∈ (s.graphicPutc g font c).log, a.InBounds g) ↔
        (∀ a ∈ s.log, a.InBounds g) ∧ Drawable c) := by
  obtain ⟨h0, h1⟩ := hs
  have hcol : s.pos.tmod 53 = s.pos % 53 := Int.tmod_eq_emod_of_nonneg h0
  unfold Screen.graphicPutc
  by_cases hnl : c = NEWLINE.toNat
  · -- the cursor goes to the start of the next line, at most one line behind the screen
    rw [if_pos hnl, and_iff_left (show Drawable c from .inl hnl)]
    refine scroll_spec hh ?_ ?_
    · simp only [CONSOLE_HORIZONTAL_MAX, hcol]
      omega
    · simp only [CONSOLE_HORIZONTAL_MAX, CONSOLE_VERTICAL_MAX, hcol] at h1 ⊢
      omega
  rw [if_neg hnl]
  by_cases hbs : c = BACKSPACE
  · rw [if_pos hbs, and_iff_left (show Drawable c from .inr (.inl hbs))]
    split
    · exact ⟨⟨by simp only; omega, by simp only; omega⟩, rfl, .rfl⟩
    · exact ⟨⟨h0, h1⟩, rfl, .rfl⟩
  rw [if_neg hbs]
  obtain ⟨-, hpan, hlog⟩ := scroll_spec hh h0 (Int.le_trans h1 (by decide))
  obtain ⟨hpos0, hpos1⟩ := scroll_pos ⟨h0, h1⟩ (g := g)
  obtain ⟨hon, hpan', hlog'⟩ := @draw_spec g font _ c hw hh hpos0 hpos1
  refine ⟨hon, hpan'.trans hpan, hlog'.trans ?_⟩
  rw [hlog]
  refine and_congr_right fun _ => ⟨fun h => .inr (.inr h), fun h => ?_⟩
  exact (h.resolve_left hnl).resolve_left hbs

theorem uart_inBounds : ∀ a ∈ Screen.uart c, a.InBounds g := by
  intro a ha
  unfold Screen.uart at ha
  split at ha
  · simp only [List.mem_cons, List.not_mem_nil, or_false] at ha
    rcases ha with rfl | rfl | rfl <;> trivial
  · obtain rfl := List.mem_singleton.1 ha
    trivial

theorem consputc_keeps (hw : 800 ≤ g.horizontal_resolution) (hh : 600 ≤ g.vertical_resolution)
    (hs : s.OnScreen) (hp : s.panicked = false) :
    (s.consputc g font c).OnScreen ∧ (s.consputc g font c).panicked = false ∧
      ((∀ a ∈ (s.consputc g font c).log, a.InBounds g) ↔
        (∀ a ∈ s.log, a.InBounds g) ∧ Drawable c) := by
  have hrun : s.consputc g font c =
      { s with log := s.log ++ Screen.uart c }.graphicPutc g font c := by
    rw [Screen.consputc, if_neg (by rw [hp]; exact Bool.false_ne_true)]
  obtain ⟨hon, hpan, hlog⟩ :=
    @graphicPutc_spec g font { s with log := s.log ++ Screen.uart c } c hw hh hs
  rw [hrun]
  refine ⟨hon, hpan.trans hp, hlog.trans ?_⟩
  rw [forall_append, and_iff_left uart_inBounds]

/-! ## Sequences -/

theorem puts_keeps (hw : 800 ≤ g.horizontal_resolution) (hh : 600 ≤ g.vertical_resolution)
    (cs : List Int) (hs : s.OnScreen) (hp : s.panicked = false) :
    (s.puts g font cs).OnScreen ∧ ((∀ a ∈ (s.puts g font cs).log, a.InBounds g) ↔
      (∀ a ∈ s.log, a.InBounds g) ∧ ∀ c ∈ cs, Drawable c) := by
  induction cs generalizing s with
  | nil => exact ⟨hs, (and_iff_left fun _ h => absurd h List.not_mem_nil).symm⟩
  | cons c cs ih =>
    obtain ⟨hon, hpan, hiff⟩ := @consputc_keeps g font s c hw hh hs hp
    obtain ⟨hon', hiff'⟩ := ih hon hpan
    refine ⟨hon', hiff'.trans ?_⟩
    rw [hiff, List.forall_mem_cons, and_assoc]

theorem start_onScreen : Screen.start.OnScreen := ⟨by decide, by decide⟩

theorem puts_start (hw : 800 ≤ g.horizontal_resolution) (hh : 600 ≤ g.vertical_resolution)
    (cs : List Int) : (Screen.start.puts g font cs).InBounds g ↔ ∀ c ∈ cs, Drawable c := by
  obtain ⟨hon, hiff⟩ := @puts_keeps g font _ hw hh cs start_onScreen rfl
  rw [Screen.InBounds, and_iff_right hon, hiff]
  exact and_iff_right fun _ h => absurd h List.not_mem_nil

/-- **Console output stays in bounds** exactly for the characters that `font_bin` has glyphs for. -/
theorem output_in_bounds_iff {T : Type} (calls : List (Output T))
    (hw : 800 ≤ g.horizontal_resolution) (hh : 600 ≤ g.vertical_resolution) :
    Safe g font (calls.flatMap Output.chars) ↔ ∀ o ∈ calls, ∀ c ∈ o.chars, Drawable c := by
  have hall : (∀ c ∈ calls.flatMap Output.chars, Drawable c) ↔
      ∀ o ∈ calls, ∀ c ∈ o.chars, Drawable c := by
    simp only [List.mem_flatMap]
    exact ⟨fun h o ho c hc => h c ⟨o, ho, hc⟩, fun h c ⟨o, ho, hc⟩ => h o ho c hc⟩
  rw [← hall]
  constructor
  · exact fun h => (puts_start hw hh _).1 (h _ (List.prefix_refl _))
  · exact fun h pre hpre => (puts_start hw hh pre).2 fun c hc => h c (hpre.subset hc)

end

def Gpu.svga : Gpu := ⟨800, 600, 800, 1920000, by decide, by decide⟩

theorem output_in_bounds_line : Safe Gpu.svga (fun _ _ => 0)
    ([.consolewrite [72, 105, 10]].flatMap (Output.chars (T := Unit))) :=
  (output_in_bounds_iff _ (by decide) (by decide)).2 (by decide)

/-- A tab that a program writes is not in the font. -/
theorem tab_out_of_bounds : ¬ ∃ font, Safe Gpu.svga font
    ([.consolewrite [9]].flatMap (Output.chars (T := Unit))) := by
  rintro ⟨font, h⟩
  have := (puts_start (by decide) (by decide) _).1 (h _ (List.prefix_refl _)) 9 (by decide)
  exact absurd this (by decide)

end Console
