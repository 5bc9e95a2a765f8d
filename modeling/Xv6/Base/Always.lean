import Mathlib.Data.List.Induction

/-!
# Properties of every step of a run

A run is the list of its inputs. `Always P l`: `P` holds of every input of `l` with those before it.
-/

variable {α : Type} {P Q : List α → α → Prop} {l l1 : List α} {x : α}

/-- `P l1 x` for every input `x` of `l` and the inputs `l1` before it. -/
def Always (P : List α → α → Prop) (l : List α) : Prop := ∀ l1 x l2, l = l1 ++ x :: l2 → P l1 x

theorem always_nil : Always P [] := by
  intro l1 x l2 h
  simp at h

theorem always_concat : Always P (l ++ [x]) ↔ Always P l ∧ P l x := by
  constructor
  · intro h
    refine ⟨fun l1 y l2 hl => h l1 y (l2 ++ [x]) ?_, h l x [] rfl⟩
    rw [hl, List.append_assoc, List.cons_append]
  · rintro ⟨h, hx⟩ l1 y l2 hl
    rcases List.eq_nil_or_concat l2 with rfl | ⟨l2, z, rfl⟩
    · obtain ⟨rfl, hy⟩ := List.append_inj' hl rfl
      obtain rfl := List.singleton_inj.1 hy
      exact hx
    · rw [List.concat_eq_append, ← List.cons_append, ← List.append_assoc] at hl
      exact h l1 y l2 (List.append_inj' hl rfl).1

theorem forall_prefix_iff {S : List α → Prop} (h0 : S []) :
    (∀ a, a <+: l → S a) ↔ Always (fun l1 x => S (l1 ++ [x])) l := by
  constructor
  · intro h l1 x l2 hl
    refine h _ ⟨l2, ?_⟩
    rw [hl, List.append_assoc, List.singleton_append]
  · rintro h a ⟨b, hab⟩
    rcases List.eq_nil_or_concat a with rfl | ⟨a, x, rfl⟩
    · exact h0
    · rw [List.concat_eq_append] at hab ⊢
      refine h a x b ?_
      rw [← hab, List.append_assoc, List.singleton_append]

namespace Always

theorem iff {I : List α → Prop} {A : α → Prop} (h0 : I [])
    (hstep : ∀ l x, A x → I l → (P l x ↔ Q l x)) (hkeep : ∀ l x, A x → I l → P l x → I (l ++ [x]))
    (hl : ∀ x ∈ l, A x) : Always P l ↔ Always Q l := by
  -- the invariant holds after every run that meets either property
  suffices h : (Always P l ↔ Always Q l) ∧ (Always P l → I l) from h.1
  induction l using List.reverseRecOn with
  | nil => exact ⟨⟨fun _ => always_nil, fun _ => always_nil⟩, fun _ => h0⟩
  | append_singleton l x ih =>
    obtain ⟨hiff, hi⟩ := ih fun y hy => hl y (List.mem_append_left _ hy)
    have hx : A x := hl x (List.mem_append_right _ (List.mem_singleton_self x))
    rw [always_concat, always_concat]
    refine ⟨⟨fun h => ?_, fun h => ?_⟩, fun h => hkeep l x hx (hi h.1) h.2⟩
    · exact ⟨hiff.1 h.1, (hstep l x hx (hi h.1)).1 h.2⟩
    · exact ⟨hiff.2 h.1, (hstep l x hx (hi (hiff.2 h.1))).2 h.2⟩

end Always
