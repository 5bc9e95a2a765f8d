import Mathlib.Logic.Function.Basic

/-!
# Programs over a disk that may crash

`Prog A V α`: a program that reads and writes the addresses `A` of a disk `A → V`. Writes are atomic
and synchronous; a crash falls between two of them.

`Wpc C Q p n d` is the weakest precondition with a crash condition: started on the disk `d` after
`n` writes, every disk `p` can leave behind at a crash satisfies `C` (at its number of writes), and
the run ends with `Q`. `reboot_spec` is the rule for recovery that may crash itself.
-/

namespace Crash

open Function

inductive Prog (A V α : Type) : Type
  | ret (a : α)
  | read (b : A) (k : V → Prog A V α)
  | write (b : A) (v : V) (p : Prog A V α)

namespace Prog

variable {A V α β : Type}

def bind : Prog A V α → (α → Prog A V β) → Prog A V β
  | .ret a, f => f a
  | .read b k, f => .read b fun v => (k v).bind f
  | .write b v p, f => .write b v (p.bind f)

instance : Monad (Prog A V) where
  pure := .ret
  bind := bind

end Prog

section
variable {A V α β : Type} [DecidableEq A]

def exec : Prog A V α → (A → V) → α × (A → V)
  | .ret a, d => (a, d)
  | .read b k, d => exec (k (d b)) d
  | .write b v p, d => exec p (update d b v)

def writes : Prog A V α → (A → V) → Nat
  | .ret _, _ => 0
  | .read b k, d => writes (k (d b)) d
  | .write b v p, d => writes p (update d b v) + 1

/-- The disk left by a crash after `k` writes (by the complete run if it has fewer). -/
def crashAt : Nat → Prog A V α → (A → V) → A → V
  | _, .ret _, d => d
  | k, .read b f, d => crashAt k (f (d b)) d
  | 0, .write _ _ _, d => d
  | k + 1, .write b v p, d => crashAt k p (update d b v)

/-- The disk with the writes `l` made to it, in order. -/
def writeAll (d : A → V) (l : List (A × V)) : A → V :=
  l.foldl (fun d p => update d p.1 p.2) d

/-- `r` started again after each crash, the crashes coming after `ks` writes, then run to its
end. -/
def reboot (r : Prog A V α) (ks : List Nat) (d : A → V) : α × (A → V) :=
  exec r (ks.foldl (fun d k => crashAt k r d) d)

/-! ## Addresses touched -/

/-- Whatever is on the disk, `p` reads only at addresses in `R` and writes only at addresses in
`W`. -/
def Touches (R W : A → Prop) : Prog A V α → Prop
  | .ret _ => True
  | .read b k => R b ∧ ∀ v, Touches R W (k v)
  | .write b _ p => W b ∧ Touches R W p

omit [DecidableEq A] in
theorem Touches.bind {R W : A → Prop} {p : Prog A V α} {f : α → Prog A V β} (h : Touches R W p)
    (hf : ∀ a, Touches R W (f a)) : Touches R W (p >>= f) := by
  induction p with
  | ret a => exact hf a
  | read b k ih => exact ⟨h.1, fun v => ih v (h.2 v)⟩
  | write b v p ih => exact ⟨h.1, ih h.2⟩

/-! ## Lists of writes -/

theorem writeAll_notMem {l : List (A × V)} {d : A → V} {b : A} (h : b ∉ l.map Prod.fst) :
    writeAll d l b = d b := by
  induction l generalizing d with
  | nil => rfl
  | cons p l ih =>
    simp only [List.map_cons, List.mem_cons, not_or] at h
    show writeAll (update d p.1 p.2) l b = d b
    rw [ih h.2, update_of_ne h.1]

theorem writeAll_mem {l : List (A × V)} {d : A → V} {b : A} {v : V}
    (hn : (l.map Prod.fst).Nodup) (h : (b, v) ∈ l) : writeAll d l b = v := by
  induction l generalizing d with
  | nil => cases h
  | cons p l ih =>
    simp only [List.map_cons, List.nodup_cons] at hn
    show writeAll (update d p.1 p.2) l b = v
    rcases List.mem_cons.1 h with rfl | h
    · rw [writeAll_notMem hn.1, update_self]
    · exact ih hn.2 h

/-- The list `l`, with `v` for `b` in the place that `b` has in it, or at the end. -/
def absorb (l : List (A × V)) (b : A) (v : V) : List (A × V) :=
  if b ∈ l.map Prod.fst then l.map fun p => if p.1 = b then (b, v) else p else l ++ [(b, v)]

theorem map_fst_absorb {l : List (A × V)} {b : A} {v : V} : (absorb l b v).map Prod.fst =
    if b ∈ l.map Prod.fst then l.map Prod.fst else l.map Prod.fst ++ [b] := by
  unfold absorb
  split
  · rw [List.map_map]
    refine List.map_congr_left fun p _ => ?_
    by_cases hp : p.1 = b <;> simp [hp]
  · simp

theorem mem_absorb {l : List (A × V)} {b : A} {v : V} {p : A × V} :
    p ∈ absorb l b v ↔ p = (b, v) ∨ p.1 ≠ b ∧ p ∈ l := by
  unfold absorb
  split
  · rename_i hb
    obtain ⟨q, hq, rfl⟩ := List.mem_map.1 hb
    rw [List.mem_map]
    constructor
    · rintro ⟨r, hr, rfl⟩
      by_cases he : r.1 = q.1
      · exact .inl (if_pos he)
      · rw [if_neg he]
        exact .inr ⟨he, hr⟩
    · rintro (rfl | ⟨hne, hp⟩)
      · exact ⟨q, hq, if_pos rfl⟩
      · exact ⟨p, hp, if_neg hne⟩
  · rename_i hb
    rw [List.mem_append, List.mem_singleton, or_comm]
    refine or_congr_right ⟨fun hp => ⟨fun he => hb (List.mem_map.2 ⟨p, hp, he⟩), hp⟩, And.right⟩

theorem writeAll_absorb {l : List (A × V)} {d : A → V} {b : A} {v : V}
    (hn : (l.map Prod.fst).Nodup) : writeAll d (absorb l b v) = update (writeAll d l) b v := by
  have hn' : ((absorb l b v).map Prod.fst).Nodup := by
    rw [map_fst_absorb]
    split
    · exact hn
    · rename_i hb
      refine List.nodup_append.2 ⟨hn, List.pairwise_singleton .., fun x hx y hy he => hb ?_⟩
      rwa [← List.mem_singleton.1 hy, ← he]
  funext x
  by_cases hx : x = b
  · subst hx
    rw [update_self]
    exact writeAll_mem hn' (mem_absorb.2 (.inl rfl))
  · rw [update_of_ne hx]
    by_cases hm : x ∈ l.map Prod.fst
    · obtain ⟨p, hp, rfl⟩ := List.mem_map.1 hm
      rw [writeAll_mem hn hp, writeAll_mem hn' (mem_absorb.2 (.inr ⟨hx, hp⟩))]
    · rw [writeAll_notMem hm, writeAll_notMem]
      rintro hc
      obtain ⟨p, hp, rfl⟩ := List.mem_map.1 hc
      rcases mem_absorb.1 hp with rfl | ⟨-, hp⟩
      · exact hx rfl
      · exact hm (List.mem_map_of_mem hp)

/-! ## Weakest preconditions with a crash condition -/

def Wpc (C : Nat → (A → V) → Prop) (Q : Nat → α → (A → V) → Prop) :
    Prog A V α → Nat → (A → V) → Prop
  | .ret a, n, d => C n d ∧ Q n a d
  | .read b k, n, d => Wpc C Q (k (d b)) n d
  | .write b v p, n, d => C n d ∧ Wpc C Q p (n + 1) (update d b v)

variable {C C' : Nat → (A → V) → Prop} {Q Q' : Nat → α → (A → V) → Prop}

theorem Wpc.mono {p : Prog A V α} {n : Nat} {d : A → V} (h : Wpc C Q p n d)
    (hC : ∀ n d, C n d → C' n d) (hQ : ∀ n a d, Q n a d → Q' n a d) : Wpc C' Q' p n d := by
  induction p generalizing n d with
  | ret a => exact ⟨hC _ _ h.1, hQ _ _ _ h.2⟩
  | read b k ih => exact ih _ h
  | write b v p ih => exact ⟨hC _ _ h.1, ih h.2⟩

theorem Wpc.bind {Q : Nat → β → (A → V) → Prop} {p : Prog A V α} {f : α → Prog A V β} {n : Nat}
    {d : A → V} (h : Wpc C (fun n a d => Wpc C Q (f a) n d) p n d) : Wpc C Q (p >>= f) n d := by
  induction p generalizing n d with
  | ret a => exact h.2
  | read b k ih => exact ih _ h
  | write b v p ih => exact ⟨h.1, ih h.2⟩

theorem Wpc.shift {C : (A → V) → Prop} {Q : α → (A → V) → Prop} {p : Prog A V α} {n k : Nat}
    {d : A → V} (h : Wpc (fun _ => C) (fun _ => Q) p n d) : Wpc (fun _ => C) (fun _ => Q) p k d := by
  induction p generalizing n k d with
  | ret a => exact h
  | read b f ih => exact ih _ h
  | write b v p ih => exact ⟨h.1, ih h.2⟩

theorem Wpc.exec {p : Prog A V α} {n : Nat} {d : A → V} (h : Wpc C Q p n d) :
    Q (n + writes p d) (exec p d).1 (exec p d).2 := by
  induction p generalizing n d with
  | ret a => exact h.2
  | read b k ih => exact ih _ h
  | write b v p ih =>
    have := ih h.2
    simpa only [Crash.exec, writes, Nat.add_assoc, Nat.add_comm 1] using this

theorem Wpc.crashAt {p : Prog A V α} {n : Nat} {d : A → V} (h : Wpc C Q p n d) (k : Nat) :
    C (n + min k (writes p d)) (crashAt k p d) := by
  induction p generalizing n d k with
  | ret a => simpa [writes, Crash.crashAt] using h.1
  | read b f ih => simpa only [writes, Crash.crashAt] using ih _ h k
  | write b v p ih =>
    cases k with
    | zero => simpa [writes, Crash.crashAt] using h.1
    | succ k =>
      have := ih h.2 k
      simpa only [writes, Crash.crashAt, Nat.add_assoc, Nat.add_comm 1, Nat.add_min_add_right]
        using this

theorem crashAt_of_le {p : Prog A V α} {d : A → V} {k : Nat} (h : writes p d ≤ k) :
    crashAt k p d = (exec p d).2 := by
  induction p generalizing d k with
  | ret a => rw [crashAt, exec]
  | read b f ih =>
    rw [crashAt, exec]
    exact ih _ h
  | write b v p ih =>
    obtain ⟨k, rfl⟩ := Nat.exists_eq_add_of_le' (Nat.le_trans (Nat.le_add_left 1 _) h)
    exact ih (Nat.le_of_add_le_add_right h)

/-- **Recovery.** A condition that every crash of `r` keeps and from which a complete run of `r`
ends in `Q` gives `Q` after any number of crashes of `r`. -/
theorem reboot_spec {I : (A → V) → Prop} {Q : α → (A → V) → Prop} {r : Prog A V α}
    (h : ∀ d, I d → Wpc (fun _ => I) (fun _ => Q) r 0 d) {ks : List Nat} {d : A → V} (hd : I d) :
    Q (reboot r ks d).1 (reboot r ks d).2 := by
  have hI : I (ks.foldl (fun d k => Crash.crashAt k r d) d) := by
    induction ks generalizing d with
    | nil => exact hd
    | cons k ks ih => exact ih ((h d hd).crashAt k)
  exact (h _ hI).exec

end

end Crash
