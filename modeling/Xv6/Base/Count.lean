import Mathlib.Algebra.BigOperators.Group.Finset.Basic
import Mathlib.Algebra.Order.BigOperators.Group.Finset

/-!
# Counting by finite sums

Ownership arguments count in how many places a thing is: a sum of zeros and ones over the places.
Changing one place changes the sum by that place (`sum_change`), and a sum of at most one has at
most one place that counts (`eq_of_sum_le_one`).
-/

namespace Count

open Finset

variable {ι : Type} {S : Finset ι} {g h : ι → Nat} {i j k : ι}

theorem le_sum (hk : k ∈ S) : g k ≤ ∑ i ∈ S, g i :=
  single_le_sum (f := g) (fun _ _ => Nat.zero_le _) hk

theorem exists_of_sum_pos (hs : 0 < ∑ i ∈ S, g i) : ∃ i ∈ S, 0 < g i := by
  by_contra hno
  rw [sum_eq_zero fun i hi => Nat.eq_zero_of_not_pos fun hp => hno ⟨i, hi, hp⟩] at hs
  exact Nat.lt_irrefl 0 hs

variable [DecidableEq ι]

theorem sum_change (hk : k ∈ S) (hne : ∀ i ∈ S, i ≠ k → g i = h i) :
    ∑ i ∈ S, g i + h k = ∑ i ∈ S, h i + g k := by
  have he : ∑ i ∈ S.erase k, g i = ∑ i ∈ S.erase k, h i :=
    sum_congr rfl fun i hi => hne i (mem_of_mem_erase hi) (ne_of_mem_erase hi)
  rw [← add_sum_erase S g hk, ← add_sum_erase S h hk, he]
  omega

theorem add_le_sum (hi : i ∈ S) (hj : j ∈ S) (hne : i ≠ j) : g i + g j ≤ ∑ i ∈ S, g i := by
  rw [← add_sum_erase S g hi]
  exact Nat.add_le_add_left (le_sum (mem_erase.2 ⟨hne.symm, hj⟩)) _

theorem eq_of_sum_le_one (hs : ∑ i ∈ S, g i ≤ 1) (hi : i ∈ S) (hj : j ∈ S) (hgi : 0 < g i)
    (hgj : 0 < g j) : i = j := by
  by_contra hne
  have := add_le_sum (g := g) hi hj hne
  omega

end Count
