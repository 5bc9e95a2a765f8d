/-!
# Programs that may panic

A kernel function is a program `M σ α` over a state `σ`: it returns a value and a new state, or
stops with the text of a panic. The lemmas invert a run that returned.
-/

namespace Panic

/-- A program over the state `σ` that may stop with a message. -/
abbrev M (σ : Type) := StateT σ (Except String)

variable {σ α β : Type} {s s' : σ} {a : α} {b : β}

theorem bind_ok {m : M σ α} {f : α → M σ β} :
    (m >>= f) s = .ok (b, s') ↔ ∃ a s1, m s = .ok (a, s1) ∧ f a s1 = .ok (b, s') := by
  show (m s >>= fun p => f p.1 p.2) = _ ↔ _
  cases m s with
  | error e => simp [bind, Except.bind]
  | ok p =>
    refine ⟨fun h => ⟨p.1, p.2, rfl, h⟩, fun ⟨a, s1, hp, h⟩ => ?_⟩
    cases hp
    exact h

theorem bind_run {m : M σ α} {f : α → M σ β} {s1 : σ} (h : m s = .ok (a, s1)) :
    (m >>= f) s = f a s1 := by
  show (m s >>= fun p => f p.1 p.2) = _
  rw [h]
  rfl

theorem bind_error {m : M σ α} {f : α → M σ β} {e : String} (h : m s = .error e) :
    (m >>= f) s = .error e := by
  show (m s >>= fun p => f p.1 p.2) = _
  rw [h]
  rfl

@[simp] theorem pure_run : (pure a : M σ α) s = .ok (a, s) := rfl

@[simp] theorem get_run : (get : M σ σ) s = .ok (s, s) := rfl

@[simp] theorem modify_run {g : σ → σ} : (modify g : M σ Unit) s = .ok ((), g s) := rfl

theorem pure_ok {a' : α} : (pure a : M σ α) s = .ok (a', s') ↔ a' = a ∧ s' = s := by
  simp [eq_comm]

theorem ite_ok {c : Prop} [Decidable c] {m n : M σ α} : (if c then m else n) s = .ok (a, s') ↔
      (c ∧ m s = .ok (a, s')) ∨ (¬ c ∧ n s = .ok (a, s')) := by
  by_cases h : c <;> simp [h]

end Panic
