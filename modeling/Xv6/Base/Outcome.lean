import Xv6.Base.Panic

/-!
# Outcomes of programs that may panic

`Ends m s Q E`: run from `s`, the program `m` returns a value and a state in `Q`, or panics with a text
in `E`.
-/

namespace Panic

variable {σ α β : Type} {s s' : σ} {a : α} {m : M σ α} {f : α → M σ β}
  {Q Q' : α → σ → Prop} {R : β → σ → Prop} {E E' : String → Prop}

/-- The outcome of `m` from `s` is in `Q`, or a panic in `E`. -/
def Ends (m : M σ α) (s : σ) (Q : α → σ → Prop) (E : String → Prop) : Prop :=
  match m s with
  | .ok (a, s') => Q a s'
  | .error e => E e

namespace Ends

theorem of_ok (h : m s = .ok (a, s')) (hq : Q a s') : Ends m s Q E := by
  rw [Ends, h]
  exact hq

theorem of_error {e : String} (h : m s = .error e) (he : E e) : Ends m s Q E := by
  rw [Ends, h]
  exact he

theorem ok (h : Ends m s Q E) (hm : m s = .ok (a, s')) : Q a s' := by
  rw [Ends, hm] at h
  exact h

theorem error {e : String} (h : Ends m s Q E) (hm : m s = .error e) : E e := by
  rw [Ends, hm] at h
  exact h

theorem of_eq {m' : M σ α} {t : σ} (h : m s = m' t) (he : Ends m' t Q E) : Ends m s Q E := by
  rw [Ends, h]
  exact he

theorem mono (h : Ends m s Q E) (hq : ∀ a s', Q a s' → Q' a s') (he : ∀ e, E e → E' e) :
    Ends m s Q' E' := by
  unfold Ends at h ⊢
  split at h
  · exact hq _ _ h
  · exact he _ h

theorem weaken (h : Ends m s Q E) (he : ∀ e, E e → E' e) : Ends m s Q E' :=
  h.mono (fun _ _ => id) he

theorem bind (h : Ends m s Q E) (k : ∀ a s', Q a s' → Ends (f a) s' R E) :
    Ends (m >>= f) s R E := by
  cases hm : m s with
  | ok p =>
    have hk := k p.1 p.2 (h.ok hm)
    rw [Ends] at hk ⊢
    rw [bind_run hm]
    exact hk
  | error e =>
    refine of_error ?_ (h.error hm)
    show (m s >>= fun p => f p.1 p.2) = _
    rw [hm]
    rfl

theorem run (h : m s = .ok (a, s')) (k : Ends (f a) s' R E) : Ends (m >>= f) s R E := by
  rw [Ends, bind_run h]
  exact k

theorem of_pure (h : Q a s) : Ends (pure a : M σ α) s Q E := h

theorem of_get {Q : σ → σ → Prop} (h : Q s s) : Ends (get : M σ σ) s Q E := h

theorem of_modify {g : σ → σ} {Q : Unit → σ → Prop} (h : Q () (g s)) :
    Ends (modify g : M σ Unit) s Q E := h

theorem of_throw {e : String} (h : E e) : Ends (throw e : M σ α) s Q E := h

theorem of_set {t : σ} {Q : PUnit → σ → Prop} (h : Q ⟨⟩ t) : Ends (set t : M σ PUnit) s Q E := h

theorem throws {e : String} (h : E e) : Ends ((throw e : M σ α) >>= f) s R E := h

theorem ite {c : Prop} [Decidable c] {n : M σ α} (h : c → Ends m s Q E) (h' : ¬ c → Ends n s Q E) :
    Ends (if c then m else n) s Q E := by
  split
  · exact h ‹_›
  · exact h' ‹_›

theorem returns (h : Ends m s Q E) (he : ∀ e, ¬ E e) : ∃ a s', m s = .ok (a, s') ∧ Q a s' := by
  cases hm : m s with
  | ok p => exact ⟨p.1, p.2, rfl, h.ok hm⟩
  | error e => exact (he e (h.error hm)).elim

end Ends

-- programs are not run when a specification is applied
attribute [irreducible] Ends

end Panic
