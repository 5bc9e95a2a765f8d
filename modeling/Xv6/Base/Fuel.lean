/-!
# Loops with fuel

A loop that need not end is modelled with a bound on its rounds, `none` when the bound is reached.
`Returns f a`: with enough fuel, `f` returns `a`. What a call returns does not depend on the fuel
(`Returns.unique`), and the rules below follow the loop round by round.
-/

/-- With enough fuel, `f` returns `a`. -/
def Returns {α : Type} (f : Nat → Option α) (a : α) : Prop := ∃ N, ∀ n, N ≤ n → f n = some a

namespace Returns

variable {α β : Type} {f g : Nat → Option α} {a b : α}

theorem pure : Returns (fun _ => some a) a := ⟨0, fun _ _ => rfl⟩

theorem unique (h : Returns f a) (h' : Returns f b) : a = b := by
  obtain ⟨N, hN⟩ := h
  obtain ⟨M, hM⟩ := h'
  have := (hN (N + M) (by omega)).symm.trans (hM (N + M) (by omega))
  exact Option.some.inj this

theorem succ (h : Returns g a) (he : ∀ n, f (n + 1) = g n) : Returns f a := by
  obtain ⟨N, hN⟩ := h
  refine ⟨N + 1, fun n hn => ?_⟩
  obtain ⟨k, rfl⟩ : ∃ k, n = k + 1 := ⟨n - 1, by omega⟩
  rw [he k, hN k (by omega)]

theorem bind {k : α → Nat → Option β} {b : β} (h : Returns f a) (hk : Returns (k a) b) :
    Returns (fun n => (f n).bind fun a => k a n) b := by
  obtain ⟨N, hN⟩ := h
  obtain ⟨M, hM⟩ := hk
  refine ⟨N + M, fun n hn => ?_⟩
  show (f n).bind _ = some b
  rw [hN n (by omega), Option.bind_some, hM n (by omega)]

end Returns
