import Xv6.User.Grep

/-!
# What `grep` matches, and what it prints

`Lang` is the language of a sequence of items, of the strings `w` that `rest` follows in the text;
`match` finds one of them at the beginning of the text, or anywhere (`matchRe_iff`). The loop over the
input prints the lines that match if each read brings a newline, and the last one is at the end
(`grep_chunks`).
-/

namespace Grep

open Bytes User

/-! ## The language of a pattern -/

inductive Item where
  | star (c : UInt8)
  | eol
  | one (c : UInt8)
deriving DecidableEq

def items : List UInt8 → List Item
  | [] => []
  | [c] => if c = DOLLAR then [.eol] else [.one c]
  | c :: d :: re => if d = STAR then .star c :: items re else .one c :: items (d :: re)

def Fits (c x : UInt8) : Prop := c = DOT ∨ c = x

def Item.Matches : Item → List UInt8 → List UInt8 → Prop
  | .star c, w, _ => ∀ x ∈ w, Fits c x
  | .eol, w, rest => w = [] ∧ rest = []
  | .one c, w, _ => ∃ x, w = [x] ∧ Fits c x

/-- `w`, followed by `rest` in the text, is in the language of the items. -/
def Lang : List Item → List UInt8 → List UInt8 → Prop
  | [], w, _ => w = []
  | i :: l, w, rest => ∃ u v, w = u ++ v ∧ i.Matches u (v ++ rest) ∧ Lang l v rest

def Begins (re text : List UInt8) : Prop := ∃ w rest, text = w ++ rest ∧ Lang (items re) w rest

theorem matchstar_iff (here : List UInt8 → Bool) (c : UInt8) (text : List UInt8) :
    matchstar here c text ↔ ∃ u v, text = u ++ v ∧ (∀ x ∈ u, Fits c x) ∧ here v := by
  induction text with
  | nil =>
    simp only [matchstar]
    constructor
    · intro h
      exact ⟨[], [], rfl, by simp, h⟩
    · rintro ⟨u, v, he, -, h⟩
      obtain ⟨rfl, rfl⟩ := List.append_eq_nil_iff.mp he.symm
      exact h
  | cons x text ih =>
    simp only [matchstar, Bool.or_eq_true, Bool.and_eq_true, beq_iff_eq, ih]
    constructor
    · rintro (h | ⟨hx, u, v, rfl, hu, hv⟩)
      · exact ⟨[], _, rfl, by simp, h⟩
      · exact ⟨x :: u, v, rfl, List.forall_mem_cons.mpr ⟨hx.symm.imp id Eq.symm, hu⟩, hv⟩
    · rintro ⟨u, v, he, hu, hv⟩
      cases u with
      | nil => exact .inl (he ▸ hv)
      | cons y u =>
        obtain ⟨rfl, rfl⟩ := List.cons.inj he
        obtain ⟨hy, hu⟩ := List.forall_mem_cons.mp hu
        exact .inr ⟨hy.symm.imp Eq.symm id, u, v, rfl, hu, hv⟩

theorem begins_star {c : UInt8} {re l : List UInt8} (h : items l = .star c :: items re)
    (text : List UInt8) :
    Begins l text ↔ ∃ u v, text = u ++ v ∧ (∀ x ∈ u, Fits c x) ∧ Begins re v := by
  unfold Begins
  rw [h]
  constructor
  · rintro ⟨_, rest, rfl, u, v, rfl, hu, hv⟩
    exact ⟨u, v ++ rest, List.append_assoc .., hu, v, rest, rfl, hv⟩
  · rintro ⟨u, _, rfl, hu, v, rest, rfl, hv⟩
    exact ⟨u ++ v, rest, (List.append_assoc ..).symm, u, v, rfl, hu, hv⟩

theorem begins_one {c : UInt8} {re l : List UInt8} (h : items l = .one c :: items re)
    (text : List UInt8) : Begins l text ↔ ∃ x t, text = x :: t ∧ Fits c x ∧ Begins re t := by
  unfold Begins
  rw [h]
  constructor
  · rintro ⟨_, rest, rfl, _, v, rfl, ⟨x, rfl, hx⟩, hv⟩
    exact ⟨x, v ++ rest, rfl, hx, v, rest, rfl, hv⟩
  · rintro ⟨x, _, rfl, hx, v, rest, rfl, hv⟩
    exact ⟨x :: v, rest, rfl, [x], v, rfl, ⟨x, rfl, hx⟩, hv⟩

theorem begins_nil (text : List UInt8) : Begins [] text := ⟨[], text, rfl, rfl⟩

theorem begins_eol (text : List UInt8) : Begins [DOLLAR] text ↔ text = [] := by
  constructor
  · rintro ⟨_, rest, rfl, _, v, rfl, ⟨rfl, he⟩, hv⟩
    exact he
  · rintro rfl
    exact ⟨[], [], rfl, [], [], rfl, ⟨rfl, rfl⟩, rfl⟩

theorem matchhere_iff (re text : List UInt8) : matchhere re text ↔ Begins re text := by
  induction re using items.induct generalizing text with
  | case1 => simp [matchhere, begins_nil]
  | case2 => simp [matchhere, begins_eol]
  | case3 c hc =>
    rw [begins_one (show items [c] = .one c :: items [] by simp [items, hc])]
    cases text <;> simp [matchhere, hc, Fits, begins_nil]
  | case4 c re ih =>
    have hm : matchhere (c :: STAR :: re) text = matchstar (matchhere re) c text := by
      cases text <;> simp [matchhere]
    rw [begins_star (show items (c :: STAR :: re) = .star c :: items re by simp [items]), hm,
      matchstar_iff]
    simp only [ih]
  | case5 c d re hd ih =>
    rw [begins_one (show items (c :: d :: re) = .one c :: items (d :: re) by simp [items, hd])]
    cases text <;> simp [matchhere, hd, Fits, ih, and_assoc]

theorem matchAnywhere_iff (re text : List UInt8) :
    matchAnywhere re text ↔ ∃ pre t, text = pre ++ t ∧ Begins re t := by
  induction text with
  | nil =>
    rw [matchAnywhere, matchhere_iff]
    constructor
    · intro h
      exact ⟨[], [], rfl, h⟩
    · rintro ⟨pre, t, he, h⟩
      rwa [(List.append_eq_nil_iff.mp he.symm).2] at h
  | cons x text ih =>
    rw [matchAnywhere, Bool.or_eq_true, matchhere_iff, ih]
    constructor
    · rintro (h | ⟨pre, t, rfl, h⟩)
      · exact ⟨[], _, rfl, h⟩
      · exact ⟨x :: pre, t, rfl, h⟩
    · rintro ⟨pre, t, he, h⟩
      cases pre with
      | nil => exact .inl (he ▸ h)
      | cons y pre => exact .inr ⟨pre, t, (List.cons.inj he).2, h⟩

/-- `match` returns 1 iff the text has a substring in the language of the pattern, or, for a pattern
that begins with `^`, a prefix in the language of the rest. -/
theorem matchRe_iff (re text : List UInt8) : matchRe re text ↔ if re.head? = some CARET then
        ∃ w rest, text = w ++ rest ∧ Lang (items re.tail) w rest
      else ∃ pre w rest, text = pre ++ (w ++ rest) ∧ Lang (items re) w rest := by
  have hany : ∀ re, (∃ pre t, text = pre ++ t ∧ Begins re t) ↔
      ∃ pre w rest, text = pre ++ (w ++ rest) ∧ Lang (items re) w rest := by
    intro re
    constructor
    · rintro ⟨pre, _, rfl, w, rest, rfl, h⟩
      exact ⟨pre, w, rest, rfl, h⟩
    · rintro ⟨pre, w, rest, rfl, h⟩
      exact ⟨pre, _, rfl, w, rest, rfl, h⟩
  cases re with
  | nil => rw [matchRe, matchAnywhere_iff, hany]; rfl
  | cons c re =>
    by_cases hc : c = CARET
    · simp [matchRe, hc, matchhere_iff, Begins]
    · simp [matchRe, hc, matchAnywhere_iff, hany]

/-! ## The lines of the input -/

def lines : List UInt8 → List (List UInt8)
  | [] => []
  | x :: l =>
    if x = NL then [NL] :: lines l
    else match lines l with
      | [] => [[x]]
      | y :: ys => (x :: y) :: ys

def matching (pattern text : List UInt8) : List UInt8 :=
  ((lines text).filter fun l => matchRe pattern (l.takeWhile (· ≠ NL))).flatten

def Holds (buf : Store) (p : Nat) : List UInt8 → Prop
  | [] => buf p = 0
  | x :: l => buf p = x ∧ x ≠ 0 ∧ Holds buf (p + 1) l

section

variable {buf buf' : Store} {p fuel : Nat} {l u v : List UInt8}

theorem lines_line (h : NL ∉ u) (v : List UInt8) :
    lines (u ++ NL :: v) = (u ++ [NL]) :: lines v := by
  induction u with
  | nil => simp [lines]
  | cons x u ih =>
    rw [List.mem_cons, not_or] at h
    obtain ⟨hx, hu⟩ := h
    simp [lines, Ne.symm hx, ih hu]

theorem matching_line (pattern : List UInt8) (h : NL ∉ u) (v : List UInt8) :
    matching pattern (u ++ NL :: v) =
      (if matchRe pattern u then u ++ [NL] else []) ++ matching pattern v := by
  have hu : (u ++ [NL]).takeWhile (· ≠ NL) = u := by
    rw [List.takeWhile_append_of_pos (by simpa using fun x hx => ne_of_mem_of_not_mem hx h)]
    simp
  rw [matching, lines_line h, List.filter_cons, hu]
  split <;> simp [matching]

theorem Holds.congr (h : Holds buf p l) (he : ∀ a, p ≤ a → buf' a = buf a) : Holds buf' p l := by
  induction l generalizing p with
  | nil => exact (he p (Nat.le_refl p)).trans h
  | cons x l ih =>
    obtain ⟨hx, hn, hl⟩ := h
    exact ⟨(he p (Nat.le_refl p)).trans hx, hn, ih hl fun a ha => he a (by omega)⟩

theorem Holds.drop (h : Holds buf p (u ++ v)) : Holds buf (p + u.length) v := by
  induction u generalizing p with
  | nil => exact h
  | cons x u ih => simpa [Nat.add_assoc, Nat.add_comm 1] using ih h.2.2

theorem Holds.strchr_some (h : Holds buf p (u ++ NL :: v)) (hu : NL ∉ u) (hf : u.length < fuel) :
    strchr buf NL fuel p = some (p + u.length) := by
  induction u generalizing p fuel with
  | nil =>
    obtain ⟨fuel, rfl⟩ : ∃ k, fuel = k + 1 := ⟨fuel - 1, by simp at hf; omega⟩
    simp [strchr, h.1, NL]
  | cons x u ih =>
    obtain ⟨fuel, rfl⟩ : ∃ k, fuel = k + 1 := ⟨fuel - 1, by simp at hf; omega⟩
    rw [List.mem_cons, not_or] at hu
    obtain ⟨hx, hu⟩ := hu
    rw [strchr, if_neg (h.1 ▸ h.2.1), if_neg (h.1 ▸ Ne.symm hx), ih h.2.2 hu (by simpa using hf)]
    simp [Nat.add_assoc, Nat.add_comm 1]

theorem Holds.strchr_none (h : Holds buf p l) (hl : NL ∉ l) : strchr buf NL fuel p = none := by
  induction l generalizing p fuel with
  | nil => cases fuel <;> simp [strchr, show buf p = 0 from h]
  | cons x l ih =>
    rw [List.mem_cons, not_or] at hl
    obtain ⟨hx, hl⟩ := hl
    cases fuel with
    | zero => rfl
    | succ fuel => rw [strchr, if_neg (h.1 ▸ h.2.1), if_neg (h.1 ▸ Ne.symm hx), ih h.2.2 hl]

theorem Holds.cstr (h : Holds buf p l) (hf : l.length < fuel) : cstr buf fuel p = l := by
  induction l generalizing p fuel with
  | nil => cases fuel <;> simp [Grep.cstr, show buf p = 0 from h]
  | cons x l ih =>
    obtain ⟨fuel, rfl⟩ : ∃ k, fuel = k + 1 := ⟨fuel - 1, by simp at hf; omega⟩
    rw [Grep.cstr, if_neg (h.1 ▸ h.2.1), h.1, ih h.2.2 (by simpa using hf)]

theorem Holds.cut (h : Holds buf p (u ++ NL :: v)) : Holds (put8 buf (p + u.length) 0) p u := by
  induction u generalizing p with
  | nil => simp [Holds, put8]
  | cons x u ih =>
    refine ⟨?_, h.2.1, ?_⟩
    · rw [put8, if_neg (by simp), h.1]
    · have := ih h.2.2
      rwa [show p + 1 + u.length = p + (x :: u).length by simp; omega] at this

theorem Holds.slice (h : Holds buf p (u ++ v)) : Bytes.slice buf p u.length = u := by
  induction u generalizing p with
  | nil => rfl
  | cons x u ih =>
    rw [List.length_cons, Nat.add_comm, slice_add, ih h.2.2]
    exact congrArg (· :: u) h.1

theorem Holds.restore (h : Holds buf p (u ++ NL :: v)) :
    put8 (put8 buf (p + u.length) 0) (p + u.length) NL = buf := by
  funext a
  by_cases ha : a = p + u.length
  · rw [ha, put8_self, h.drop.1]
  · rw [put8_other _ _ ha, put8_other _ _ ha]

theorem Holds.lineLoop_line (h : Holds buf p (u ++ NL :: v)) (pattern out : List UInt8) (fuel : Nat)
    (hu : NL ∉ u) (hs : u.length < SIZE) : ∃ buf', Holds buf' (p + u.length + 1) v ∧
      lineLoop pattern (fuel + 1) buf p out = lineLoop pattern fuel buf' (p + u.length + 1)
        (out ++ if matchRe pattern u then u ++ [NL] else []) := by
  have hc : Grep.cstr (put8 buf (p + u.length) 0) SIZE p = u := h.cut.cstr hs
  have hv : Holds buf (p + u.length + 1) v := h.drop.2.2
  have hsl : Bytes.slice buf p (p + u.length + 1 - p) = u ++ [NL] := by
    rw [show p + u.length + 1 - p = (u ++ [NL]).length by simp; omega]
    exact Holds.slice (v := v) (by simpa using h)
  rw [lineLoop, h.strchr_some hu hs]
  simp only [hc, h.restore, hsl]
  by_cases hm : matchRe pattern u
  · exact ⟨buf, hv, by simp [hm]⟩
  · exact ⟨put8 buf (p + u.length) 0, hv.congr fun a ha => put8_other _ _ (by omega),
      by simp [hm]⟩

def Complete (u : List UInt8) : Prop := u = [] ∨ ∃ w, u = w ++ [NL]

theorem Complete.cons (h : Complete v) (u : List UInt8) : Complete (u ++ NL :: v) := by
  rcases h with rfl | ⟨w, rfl⟩
  · exact .inr ⟨u, rfl⟩
  · exact .inr ⟨u ++ NL :: w, by simp⟩

theorem Holds.lineLoop (h : Holds buf p l) (pattern out : List UInt8) (hf : l.length < fuel)
    (hs : l.length < SIZE) : ∃ buf' u v, l = u ++ v ∧ Complete u ∧ NL ∉ v ∧
      Grep.lineLoop pattern fuel buf p out = (buf', p + u.length, out ++ matching pattern u) ∧
      Holds buf' (p + u.length) v := by
  induction fuel generalizing buf p l out with
  | zero => omega
  | succ fuel ih =>
    by_cases hl : NL ∈ l
    · obtain ⟨u, v, rfl, hu⟩ := List.eq_append_cons_of_mem hl
      simp only [List.length_append, List.length_cons] at hf hs
      obtain ⟨b, hb, hr⟩ := h.lineLoop_line pattern out fuel hu (by omega)
      obtain ⟨buf', u', v', rfl, hc, hn, he, hh⟩ := ih hb _ (by omega) (by omega)
      have hlen : p + (u ++ NL :: u').length = p + u.length + 1 + u'.length := by simp; omega
      refine ⟨buf', u ++ NL :: u', v', by simp, hc.cons u, hn, ?_, hlen ▸ hh⟩
      rw [hr, he, matching_line pattern hu, hlen, List.append_assoc]
    · refine ⟨buf, [], l, rfl, .inl rfl, hl, ?_, h⟩
      simp [Grep.lineLoop, h.strchr_none hl, matching, lines]

end

/-! ## The loop over the reads -/

/-- What `read` may return: at least one byte, and no more than there is room for. -/
def Reads (pattern : List UInt8) : State → List (List UInt8) → Prop
  | _, [] => True
  | s, c :: cs => c ≠ [] ∧ s.m + c.length < SIZE ∧ Reads pattern (round pattern s c) cs

structure Carry (s : State) (r : List UInt8) : Prop where
  m : s.m = r.length
  buf : slice s.buf 0 r.length = r
  nul : 0 ∉ r
  nl : NL ∉ r

theorem holds_of_slice {buf : Store} {p : Nat} {l : List UInt8} (h : slice buf p l.length = l)
    (h0 : 0 ∉ l) (hz : buf (p + l.length) = 0) : Holds buf p l := by
  induction l generalizing p with
  | nil => exact hz
  | cons x l ih =>
    rw [List.length_cons, Nat.add_comm, slice_add] at h
    obtain ⟨hx, hl⟩ := List.cons.inj h
    rw [List.mem_cons, not_or] at h0
    exact ⟨hx, Ne.symm h0.1, ih hl h0.2 (by rwa [Nat.add_assoc, Nat.add_comm 1])⟩

section

variable {pattern r c : List UInt8} {s : State}

theorem Carry.holds (h : Carry s r) (h0 : 0 ∉ c) :
    Holds (put8 (putList s.buf s.m c) (s.m + c.length) 0) 0 (r ++ c) := by
  have hm := h.m
  refine holds_of_slice ?_ (by simp [h.nul, h0]) (by simp [hm])
  rw [List.length_append, slice_add]
  congr 1
  · refine Eq.trans (slice_congr fun i _ hi => ?_) h.buf
    rw [put8_other _ _ (by omega), putList_other _ _ (by omega)]
  · rw [Nat.zero_add, ← hm]
    refine Eq.trans (slice_congr fun i _ hi => ?_) (slice_putList s.buf s.m c)
    rw [put8_other _ _ (by omega)]

section
variable (h : Carry s r) (pattern) (h0 : 0 ∉ c) (hs : s.m + c.length < SIZE)
include h h0 hs

theorem Carry.round : ∃ u v buf, r ++ c = u ++ v ∧ Complete u ∧ NL ∉ v ∧ Holds buf u.length v ∧
      Grep.round pattern s c = if u = [] then ⟨buf, 0, s.out⟩ else
        ⟨userMemmove buf 0 u.length v.length, v.length, s.out ++ matching pattern u⟩ := by
  have hm := h.m
  obtain ⟨buf, u, v, he, hu, hv, hl, hb⟩ := (h.holds h0).lineLoop pattern s.out
    (show (r ++ c).length < SIZE by simp; omega) (by simp; omega)
  have hlen : s.m + c.length = u.length + v.length := by
    rw [hm, ← List.length_append, he, List.length_append]
  rw [Nat.zero_add] at hl hb
  refine ⟨u, v, buf, he, hu, hv, hb, ?_⟩
  simp only [Grep.round, hl]
  by_cases hn : u = []
  · simp [hn, matching, lines]
  · have hp : 0 < u.length := List.length_pos_iff.mpr hn
    rw [if_neg (show u.length ≠ 0 by omega), if_neg hn, if_pos (by omega), hlen,
      Nat.add_sub_cancel_left, show ((u.length + v.length : Nat) : Int) - u.length = v.length by omega]

theorem Carry.drops (hn : NL ∉ c) :
    Carry (Grep.round pattern s c) [] ∧ (Grep.round pattern s c).out = s.out := by
  obtain ⟨u, v, buf, he, hu, -, -, hr⟩ := h.round pattern h0 hs
  have hu : u = [] := hu.resolve_right fun ⟨w, hw⟩ => by
    have hm : NL ∈ r ++ c := by simp [he, hw]
    simp [h.nl, hn] at hm
  rw [hr, if_pos hu]
  exact ⟨⟨rfl, rfl, by simp, by simp⟩, rfl⟩

theorem Carry.keeps (hn : NL ∈ c) :
    ∃ w v, r ++ c = w ++ NL :: v ∧ Carry (Grep.round pattern s c) v ∧
      (Grep.round pattern s c).out = s.out ++ matching pattern (w ++ [NL]) := by
  obtain ⟨u, v, buf, he, hu, hv, hb, hr⟩ := h.round pattern h0 hs
  have h0 : 0 ∉ u ++ v := by simp [← he, h.nul, h0]
  obtain rfl | ⟨w, rfl⟩ := hu
  · have hm : NL ∈ r ++ c := List.mem_append_right r hn
    exact absurd (he.trans (List.nil_append v) ▸ hm) hv
  · have hne : w ++ [NL] ≠ [] := by simp
    rw [hr, if_neg hne, (userMemmove_eq_iff ..).mpr (.inl (Nat.zero_le _))]
    refine ⟨w, v, by simpa using he, ⟨rfl, ?_, fun h => h0 (List.mem_append_right _ h), hv⟩, rfl⟩
    have hb := Holds.slice (v := []) ((List.append_nil v).symm ▸ hb)
    refine Eq.trans (List.map_congr_left fun i hi => ?_) hb
    have hi := List.mem_range.mp hi
    simp only [copy]
    rw [if_pos (by omega), Nat.zero_add, Nat.sub_zero]

end

theorem lines_flatten (l : List UInt8) : (lines l).flatten = l := by
  induction l with
  | nil => rfl
  | cons x l ih =>
    rw [lines]
    split
    · simp [*]
    · split <;> simp_all

theorem matching_nil (l : List UInt8) : matching [] l = l := by
  have h : ∀ t, matchRe [] t = true := fun t => by cases t <;> rfl
  rw [matching, List.filter_eq_self.mpr fun l _ => h _, lines_flatten]

theorem lines_append (u v : List UInt8) : lines (u ++ NL :: v) = lines (u ++ [NL]) ++ lines v := by
  induction u with
  | nil => simp [lines]
  | cons x u ih =>
    by_cases hx : x = NL
    · simp [lines, hx, ih]
    · cases hl : lines (u ++ [NL]) with
      | nil =>
        have hf := lines_flatten (u ++ [NL])
        simp [hl] at hf
      | cons y ys => simp [lines, hx, ih, hl]

theorem matching_append (pattern u v : List UInt8) :
    matching pattern (u ++ NL :: v) = matching pattern (u ++ [NL]) ++ matching pattern v := by
  rw [matching, lines_append, List.filter_append, List.flatten_append]
  rfl

theorem Complete.of_append {u v : List UInt8} (h : Complete (u ++ v)) : Complete v := by
  rcases List.eq_nil_or_concat v with rfl | ⟨w, x, rfl⟩
  · exact .inl rfl
  · rcases h with h | ⟨w', h⟩
    · simp at h
    · rw [List.concat_eq_append, ← List.append_assoc] at h
      exact .inr ⟨w, by rw [List.concat_eq_append, (List.append_inj' h rfl).2]⟩

/-- If each read brings a newline, and the last one ends with one, the lines that match are printed. -/
theorem Carry.run {cs : List (List UInt8)} (h : Carry s r) (h0 : ∀ c ∈ cs, 0 ∉ c)
    (hr : Reads pattern s cs) (hn : ∀ c ∈ cs, NL ∈ c) (hc : Complete (r ++ cs.flatten)) :
    (cs.foldl (Grep.round pattern) s).out = s.out ++ matching pattern (r ++ cs.flatten) := by
  induction cs generalizing s r with
  | nil =>
    rw [List.flatten_nil, List.append_nil] at hc ⊢
    have hr : r = [] := hc.resolve_right fun ⟨w, hw⟩ => h.nl (by simp [hw])
    simp [hr, matching, lines]
  | cons c cs ih =>
    obtain ⟨h0, h0'⟩ := List.forall_mem_cons.mp h0
    obtain ⟨hn, hn'⟩ := List.forall_mem_cons.mp hn
    obtain ⟨w, v, he, hv, ho⟩ := h.keeps pattern h0 hr.2.1 hn
    have he : r ++ (c :: cs).flatten = w ++ NL :: (v ++ cs.flatten) := by
      rw [List.flatten_cons, ← List.append_assoc, he, List.append_assoc, List.cons_append]
    rw [he] at hc ⊢
    have hc : Complete (v ++ cs.flatten) :=
      Complete.of_append (u := w ++ [NL]) (by simpa using hc)
    rw [List.foldl_cons, ih hv h0' hr.2.2 hn' hc, ho, matching_append _ w (v ++ _),
      List.append_assoc]

theorem Carry.run_length {cs : List (List UInt8)} (h : Carry s r) (h0 : ∀ c ∈ cs, 0 ∉ c)
    (hr : Reads [] s cs) :
    (cs.foldl (Grep.round []) s).out.length ≤ s.out.length + (r ++ cs.flatten).length ∧
      ((cs.foldl (Grep.round []) s).out.length = s.out.length + (r ++ cs.flatten).length →
        (∀ c ∈ cs, NL ∈ c) ∧ Complete (r ++ cs.flatten)) := by
  induction cs generalizing s r with
  | nil =>
    simp only [List.foldl_nil, List.flatten_nil, List.append_nil]
    refine ⟨by omega, fun he => ⟨by simp, .inl (List.length_eq_zero_iff.mp (by omega))⟩⟩
  | cons c cs ih =>
    obtain ⟨h0, h0'⟩ := List.forall_mem_cons.mp h0
    obtain ⟨hne, hs, hr⟩ := hr
    rw [List.foldl_cons, List.flatten_cons, ← List.append_assoc]
    by_cases hn : NL ∈ c
    · obtain ⟨w, v, he, hv, ho⟩ := h.keeps [] h0 hs hn
      obtain ⟨hle, heq⟩ := ih hv h0' hr
      rw [matching_nil] at ho
      rw [he, List.append_assoc, List.cons_append]
      simp only [ho, List.length_append, List.length_cons, List.length_nil] at hle heq ⊢
      refine ⟨by omega, fun h => ?_⟩
      obtain ⟨ha, hc⟩ := heq (by omega)
      exact ⟨List.forall_mem_cons.mpr ⟨hn, ha⟩, hc.cons w⟩
    · obtain ⟨hv, ho⟩ := h.drops [] h0 hs hn
      have hle := (ih hv h0' hr).1
      have hpos := List.length_pos_iff.mpr hne
      simp only [ho, List.length_append, List.nil_append] at hle ⊢
      exact ⟨by omega, fun h => by omega⟩

theorem carry_start : Carry start [] := ⟨rfl, rfl, by simp, by simp⟩

end

def Greps (pattern : List UInt8) (chunks : List (List UInt8)) : Prop :=
  (grep pattern chunks).out = matching pattern chunks.flatten

def Newlines (chunks : List (List UInt8)) : Prop :=
  (∀ c ∈ chunks, NL ∈ c) ∧ Complete chunks.flatten

/-- The lines that match are printed if each read brings a newline and the text ends with one; and
for the empty pattern only then. -/
theorem grep_chunks (chunks : List (List UInt8)) (h0 : ∀ c ∈ chunks, 0 ∉ c) :
    (∀ pattern, Reads pattern start chunks → Newlines chunks → Greps pattern chunks) ∧
      (Reads [] start chunks → Greps [] chunks → Newlines chunks) := by
  constructor
  · rintro pattern hr ⟨hn, hc⟩
    exact carry_start.run h0 hr hn hc
  · intro hr hg
    refine (carry_start.run_length h0 hr).2 ?_
    have hg : (chunks.foldl (round []) start).out = chunks.flatten := hg.trans (matching_nil _)
    rw [hg]
    simp [start]

theorem grep_chunks_two : (grep [98] [[97, 10, 98, 10]]).out = [98, 10] :=
  (grep_chunks [[97, 10, 98, 10]] (by decide)).1 [98] ⟨by decide, by decide, trivial⟩
    ⟨by decide, .inr ⟨[97, 10, 98], rfl⟩⟩

/-- A line that is read in two parts is not found. -/
theorem grep_split : (grep [97, 98] [[97], [98, 10]]).out = [] ∧
    matching [97, 98] [97, 98, 10] = [97, 98, 10] := by
  decide

end Grep
