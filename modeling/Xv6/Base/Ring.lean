import Mathlib.Data.List.Nodup
import Mathlib.Logic.Function.Basic

/-!
# Circular lists through next and prev

A doubly linked list of nodes of a type `α` with a head that is no node. A link leads to a node or,
as `none`, to the head. `Rings L l` says that the links pass through the nodes of `l`, each once, and
back to the head, in either direction. Nodes that are moved to the front when they are used stay in
the order of their last use (`Recent.front`).
-/

namespace Ring

open Function

/-- The links of the nodes; `none` is the head. -/
structure Links (α : Type) where
  next : Option α → Option α
  prev : Option α → Option α

variable {α : Type}

namespace Links

def flip (L : Links α) : Links α := ⟨L.prev, L.next⟩

/-- Follow the links from `x` to a node with `p`, at most `n` nodes far. -/
def find (L : Links α) (p : α → Bool) : Nat → Option α → Option α
  | 0, _ => none
  | _ + 1, none => none
  | n + 1, some x => if p x then some x else L.find p n (L.next (some x))

section
variable [DecidableEq α]

/-- `b->next->prev = b->prev; b->prev->next = b->next`. -/
def unlink (L : Links α) (b : α) : Links α :=
  let prev := update L.prev (L.next (some b)) (L.prev (some b))
  ⟨update L.next (prev (some b)) (L.next (some b)), prev⟩

/-- `b->next = head.next; b->prev = &head; head.next->prev = b; head.next = b`. -/
def push (L : Links α) (b : α) : Links α :=
  let next := update L.next (some b) (L.next none)
  let prev := update L.prev (some b) none
  ⟨update next none (some b), update prev (next none) (some b)⟩

end

end Links

/-! ## Segments -/

/-- The links lead from `x` through `l` to `y`, and back. -/
def Seg (L : Links α) : Option α → List α → Option α → Prop
  | x, [], y => L.next x = y ∧ L.prev y = x
  | x, a :: l, y => (L.next x = some a ∧ L.prev (some a) = x) ∧ Seg L (some a) l y

variable {L M : Links α} {x y z : Option α} {l l' : List α} {a b : α}

theorem seg_append : Seg L x (l ++ b :: l') y ↔ Seg L x l (some b) ∧ Seg L (some b) l' y := by
  induction l generalizing x with
  | nil => rfl
  | cons a l ih =>
    rw [List.cons_append]
    simp only [Seg, ih, and_assoc]

theorem seg_reverse : Seg L x l y ↔ Seg L.flip y l.reverse x := by
  induction l generalizing x with
  | nil => exact and_comm
  | cons a l ih =>
    rw [List.reverse_cons, seg_append, ← ih]
    simp only [Seg, Links.flip]
    tauto

theorem Seg.congr (h : Seg L x l y) (hx : M.next x = L.next x)
    (hn : ∀ a ∈ l, M.next (some a) = L.next (some a))
    (hp : ∀ a ∈ l, M.prev (some a) = L.prev (some a)) (hy : M.prev y = L.prev y) : Seg M x l y := by
  induction l generalizing x with
  | nil => exact ⟨hx.trans h.1, hy.trans h.2⟩
  | cons a l ih =>
    obtain ⟨⟨h1, h2⟩, h3⟩ := h
    refine ⟨⟨hx.trans h1, (hp a List.mem_cons_self).trans h2⟩, ih h3 (hn a List.mem_cons_self) ?_ ?_⟩
    · exact fun c hc => hn c (List.mem_cons_of_mem _ hc)
    · exact fun c hc => hp c (List.mem_cons_of_mem _ hc)

theorem Seg.restart (h : Seg L x l y) (hl : l.Nodup) (hz : M.next z = L.next x)
    (hz' : M.prev (L.next x) = z) (hn : ∀ a ∈ l, M.next (some a) = L.next (some a))
    (hp : ∀ u, u ≠ L.next x → (u = y ∨ ∃ a ∈ l, u = some a) → M.prev u = L.prev u)
    (hy : ∀ a ∈ l, y ≠ some a) : Seg M z l y := by
  cases l with
  | nil =>
    obtain ⟨h1, -⟩ := h
    rw [h1] at hz hz'
    exact ⟨hz, hz'⟩
  | cons a l =>
    obtain ⟨⟨h1, -⟩, h3⟩ := h
    rw [h1] at hz hz' hp
    obtain ⟨ha, -⟩ := List.nodup_cons.1 hl
    refine ⟨⟨hz, hz'⟩, h3.congr (hn a List.mem_cons_self) ?_ ?_ ?_⟩
    · exact fun c hc => hn c (List.mem_cons_of_mem _ hc)
    · intro c hc
      refine hp _ ?_ (.inr ⟨c, List.mem_cons_of_mem _ hc, rfl⟩)
      intro he
      exact ha (Option.some.inj he ▸ hc)
    · exact hp y (hy a List.mem_cons_self) (.inl rfl)

theorem Seg.redirect (h : Seg L x l y) (hl : l.Nodup) (hz : M.prev z = L.prev y)
    (hz' : M.next (L.prev y) = z) (hp : ∀ a ∈ l, M.prev (some a) = L.prev (some a))
    (hn : ∀ u, u ≠ L.prev y → (u = x ∨ ∃ a ∈ l, u = some a) → M.next u = L.next u)
    (hx : ∀ a ∈ l, x ≠ some a) : Seg M x l z := by
  rw [seg_reverse] at h ⊢
  refine h.restart (M := M.flip) (List.nodup_reverse.2 hl) hz hz' ?_ ?_ ?_
  · exact fun a ha => hp a (List.mem_reverse.1 ha)
  · intro u hu hm
    refine hn u hu (hm.imp_right ?_)
    intro hm
    obtain ⟨a, ha, rfl⟩ := hm
    exact ⟨a, List.mem_reverse.1 ha, rfl⟩
  · exact fun a ha => hx a (List.mem_reverse.1 ha)

theorem Seg.prev_mem (h : Seg L x l y) : L.prev y = x ∨ ∃ a ∈ l, L.prev y = some a := by
  induction l generalizing x with
  | nil => exact .inl h.2
  | cons a l ih =>
    rcases ih h.2 with hp | ⟨c, hc, hp⟩
    · exact .inr ⟨a, List.mem_cons_self, hp⟩
    · exact .inr ⟨c, List.mem_cons_of_mem _ hc, hp⟩

theorem Seg.next_mem (h : Seg L x l y) : L.next x = y ∨ ∃ a ∈ l, L.next x = some a := by
  cases l with
  | nil => exact .inl h.1
  | cons a l => exact .inr ⟨a, List.mem_cons_self, h.1.1⟩

/-! ## Rings -/

/-- The links pass through `l` and back to the head. -/
structure Rings (L : Links α) (l : List α) : Prop where
  nodup : l.Nodup
  seg : Seg L none l none

theorem Rings.flip (h : Rings L l) : Rings L.flip l.reverse :=
  ⟨List.nodup_reverse.2 h.nodup, seg_reverse.1 h.seg⟩

theorem Seg.next_prev (h : Seg L x l y) : L.next (L.prev y) = y ∧ ∀ a ∈ l,
    L.next (L.prev (some a)) = some a := by
  induction l generalizing x with
  | nil =>
    refine ⟨?_, nofun⟩
    rw [h.2, h.1]
  | cons a l ih =>
    obtain ⟨⟨h1, h2⟩, h3⟩ := h
    refine ⟨(ih h3).1, fun c hc => ?_⟩
    rcases List.mem_cons.1 hc with rfl | hc
    · rw [h2, h1]
    · exact (ih h3).2 c hc

theorem Rings.inverse (h : Rings L l) (hl : ∀ a, a ∈ l) (x : Option α) :
    L.next (L.prev x) = x ∧ L.prev (L.next x) = x := by
  have h1 := h.seg.next_prev
  have h2 := h.flip.seg.next_prev
  cases x with
  | none => exact ⟨h1.1, h2.1⟩
  | some a => exact ⟨h1.2 a (hl a), h2.2 a (List.mem_reverse.2 (hl a))⟩

theorem Seg.find (h : Seg L x l none) (p : α → Bool) {n : Nat} (hn : l.length < n) :
    L.find p n (L.next x) = l.find? p := by
  induction l generalizing x n with
  | nil =>
    rw [h.1]
    cases n <;> rfl
  | cons a l ih =>
    obtain ⟨⟨h1, -⟩, h3⟩ := h
    obtain ⟨n, rfl⟩ : ∃ m, n = m + 1 := ⟨n - 1, by simp at hn; omega⟩
    rw [h1, List.find?_cons, Links.find, ih h3 (by simpa using hn)]
    cases p a <;> rfl

theorem Rings.find (h : Rings L l) (p : α → Bool) {n : Nat} (hn : l.length < n) :
    L.find p n (L.next none) = l.find? p :=
  h.seg.find p hn

theorem Rings.findBack (h : Rings L l) (p : α → Bool) {n : Nat} (hn : l.length < n) :
    L.flip.find p n (L.prev none) = l.reverse.find? p :=
  h.flip.seg.find p (by simpa using hn)

variable [DecidableEq α]

theorem Rings.push (h : Rings L l) (hb : b ∉ l) : Rings (L.push b) (b :: l) := by
  have hsome : ∀ a ∈ l, a ≠ b := fun a ha he => hb (he ▸ ha)
  have hne : L.next none ≠ some b := by
    intro hn
    cases l with
    | nil =>
      have := h.seg.1.symm.trans hn
      cases this
    | cons a l =>
      have := h.seg.1.1.symm.trans hn
      exact hsome a List.mem_cons_self (Option.some.inj this)
  refine ⟨List.nodup_cons.2 ⟨hb, h.nodup⟩, ⟨?_, ?_⟩, h.seg.restart h.nodup ?_ ?_ ?_ ?_ nofun⟩
  · simp [Links.push]
  · simp [Links.push, update_of_ne hne.symm]
  · simp [Links.push]
  · simp [Links.push]
  · intro a ha
    simp [Links.push, hsome a ha]
  · intro u hu hm
    have hub : u ≠ some b := by
      rcases hm with rfl | ⟨a, ha, rfl⟩
      · nofun
      · simpa using hsome a ha
    simp [Links.push, hu, hub]

theorem Rings.unlink (h : Rings L (l ++ b :: l')) : Rings (L.unlink b) (l ++ l') := by
  obtain ⟨h1, h2⟩ := seg_append.1 h.seg
  obtain ⟨hl, hl', hd⟩ := List.nodup_append.1 h.nodup
  obtain ⟨hb, hl'⟩ := List.nodup_cons.1 hl'
  have hbl : ∀ a ∈ l, a ≠ b := fun a ha => hd a ha b List.mem_cons_self
  have hll : ∀ a ∈ l, ∀ c ∈ l', a ≠ c := fun a ha c hc => hd a ha c (List.mem_cons_of_mem _ hc)
  -- the successor of `b` is behind it or the head, the predecessor before it or the head
  have hn : ∀ a, a = b ∨ a ∈ l → L.next (some b) ≠ some a := by
    intro a ha he
    rcases h2.next_mem with hn | ⟨c, hc, hn⟩ <;> rw [hn] at he
    · cases he
    · cases he
      rcases ha with rfl | ha
      · exact hb hc
      · exact hll _ ha _ hc rfl
  have hp : ∀ a ∈ l', L.prev (some b) ≠ some a := by
    intro a ha he
    rcases h1.prev_mem with hp | ⟨c, hc, hp⟩ <;> rw [hp] at he
    · cases he
    · cases he
      exact hll _ hc _ ha rfl
  have hprev : ∀ u, u ≠ L.next (some b) → (L.unlink b).prev u = L.prev u :=
    fun u hu => update_of_ne hu _ _
  have hpb : (L.unlink b).prev (some b) = L.prev (some b) := hprev _ (hn b (.inl rfl)).symm
  have hnext : ∀ u, u ≠ L.prev (some b) → (L.unlink b).next u = L.next u := by
    intro u hu
    exact update_of_ne (fun he => hu (he.trans hpb)) _ _
  have hnp : (L.unlink b).next (L.prev (some b)) = L.next (some b) := by
    rw [← hpb]
    exact update_self ..
  have hseg : Seg (L.unlink b) none l (L.next (some b)) := by
    refine h1.redirect hl (update_self ..) hnp ?_ (fun u hu _ => hnext u hu) nofun
    exact fun a ha => hprev _ (hn a (.inr ha)).symm
  refine ⟨List.nodup_append.2 ⟨hl, hl', hll⟩, ?_⟩
  cases l' with
  | nil =>
    rw [List.append_nil]
    exact h2.1 ▸ hseg
  | cons a l' =>
    rw [h2.1.1] at hseg hprev
    obtain ⟨ha, -⟩ := List.nodup_cons.1 hl'
    refine seg_append.2 ⟨hseg, h2.2.congr ?_ ?_ ?_ ?_⟩
    · exact hnext _ (hp a List.mem_cons_self).symm
    · exact fun c hc => hnext _ (hp c (List.mem_cons_of_mem _ hc)).symm
    · intro c hc
      refine hprev _ fun he => ?_
      exact ha (Option.some.inj he ▸ hc)
    · exact hprev _ nofun

theorem Rings.front (h : Rings L l) (hb : b ∈ l) : Rings ((L.unlink b).push b) (b :: l.erase b) := by
  obtain ⟨l1, l2, rfl⟩ := List.append_of_mem hb
  have hnd := h.nodup
  have hb1 : b ∉ l1 := by
    intro hm
    exact (List.nodup_append.1 hnd).2.2 b hm b List.mem_cons_self rfl
  have he : (l1 ++ b :: l2).erase b = l1 ++ l2 := by
    rw [List.erase_append_right _ hb1, List.erase_cons_head]
  rw [he]
  refine h.unlink.push ?_
  rw [← he]
  exact hnd.not_mem_erase

theorem Rings.pushAll (h : Rings L l) {bs : List α} (hbs : bs.Nodup) (hd : ∀ a ∈ bs, a ∉ l) :
    Rings (bs.foldl Links.push L) (bs.reverse ++ l) := by
  induction bs generalizing L l with
  | nil => exact h
  | cons b bs ih =>
    obtain ⟨hb, hbs⟩ := List.nodup_cons.1 hbs
    rw [List.foldl_cons, List.reverse_cons, List.append_assoc]
    refine ih (h.push (hd b List.mem_cons_self)) hbs ?_
    intro a ha hm
    rcases List.mem_cons.1 hm with rfl | hm
    · exact hb ha
    · exact hd a (List.mem_cons_of_mem _ ha) hm

/-! ## Order of the last use -/

/-- `l` is ordered by the last use of its nodes: `tr` has the uses, the latest first. -/
def Recent (tr l : List α) : Prop := l.Pairwise fun a b => tr.idxOf a ≤ tr.idxOf b

theorem Recent.front {tr : List α} (h : Recent tr l) (hl : l.Nodup) :
    Recent (b :: tr) (b :: l.erase b) := by
  refine List.pairwise_cons.2 ⟨fun a _ => ?_, ?_⟩
  · rw [List.idxOf_cons_self]
    exact Nat.zero_le _
  · refine (List.Pairwise.sublist List.erase_sublist h).imp_of_mem fun {a c} ha hc hle => ?_
    have hne : ∀ {x}, x ∈ l.erase b → b ≠ x := fun hx he => hl.not_mem_erase (he ▸ hx)
    rw [List.idxOf_cons_ne tr (hne ha), List.idxOf_cons_ne tr (hne hc)]
    exact Nat.succ_le_succ hle

theorem Recent.last {tr : List α} {p : α → Bool} (h : Recent tr l) {v : α}
    (hv : l.reverse.find? p = some v) {c : α} (hc : c ∈ l) (hp : p c = true) :
    tr.idxOf c ≤ tr.idxOf v := by
  obtain ⟨-, as, bs, he, has⟩ := List.find?_eq_some_iff_append.1 hv
  obtain rfl : l = bs.reverse ++ v :: as.reverse := by
    rw [← List.reverse_reverse l, he]
    simp
  obtain ⟨-, -, hcross⟩ := List.pairwise_append.1 h
  rcases List.mem_append.1 hc with hb | hb
  · exact hcross c hb v List.mem_cons_self
  · rcases List.mem_cons.1 hb with rfl | ha
    · exact Nat.le_refl _
    · have := has c (List.mem_reverse.1 ha)
      rw [hp] at this
      cases this

end Ring
