import Xv6.Base.Bytes

/-!
# Ones' complement sums

`words` is the sum of the 16-bit words of a string of bytes, in network order and with an odd last
byte padded with zero; `fold` adds the carries back in until none is left.
-/

namespace Checksum

open Bytes

def words : List UInt8 → Nat
  | [] => 0
  | [a] => a.toNat * 256
  | a :: b :: l => a.toNat * 256 + b.toNat + words l

def fold (s : Nat) : Nat :=
  if s < 65536 then s else fold (s % 65536 + s / 65536)
decreasing_by omega

def checksum (l : List UInt8) : Nat := 0xFFFF - fold (words l)

theorem fold_spec (s : Nat) : fold s < 65536 ∧ fold s % 65535 = s % 65535 ∧ (fold s = 0 ↔ s = 0) := by
  induction s using fold.induct with
  | case1 s hs =>
    rw [fold, if_pos hs]
    exact ⟨hs, rfl, Iff.rfl⟩
  | case2 s hs ih =>
    rw [fold, if_neg hs]
    omega

theorem fold_eq {s x : Nat} (hx : x < 65536) (hmod : x % 65535 = s % 65535) (h0 : x = 0 ↔ s = 0) :
    fold s = x := by
  have := fold_spec s
  omega

theorem fold_eq_ones {s : Nat} : fold s = 0xFFFF ↔ s % 65535 = 0 ∧ 0 < s := by
  have := fold_spec s
  omega

theorem fold_add {s w : Nat} (hw : w < 65536) :
    fold (s + w) = if fold s + w > 0xFFFF then fold s + w - 0xFFFF else fold s + w := by
  have := fold_spec s
  apply fold_eq
  · split <;> omega
  · split <;> omega
  · split <;> omega

theorem fold_add_complement (s : Nat) : fold (s + (0xFFFF - fold s)) = 0xFFFF := by
  have := fold_spec s
  rw [fold_eq_ones]
  omega

theorem words_append {l r : List UInt8} (hl : l.length % 2 = 0) : words (l ++ r) = words l + words r := by
  induction l using words.induct with
  | case1 => simp [words]
  | case2 a => simp at hl
  | case3 a b l ih =>
    simp only [List.length_cons] at hl
    rw [List.cons_append, List.cons_append, words, words, ih (by omega)]
    omega

theorem words_slice_odd (m : Store) (o n : Nat) :
    words (slice m o (n * 2 + 1)) = words (slice m o (n * 2)) + (m (o + n * 2)).toNat * 256 := by
  rw [slice_add, words_append (by rw [length_slice]; omega)]
  rfl

theorem words_slice_succ (m : Store) (o n : Nat) : words (slice m o ((n + 1) * 2)) =
    words (slice m o (n * 2)) + ((m (o + n * 2)).toNat * 256 + (m (o + n * 2 + 1)).toNat) := by
  have htwo : slice m (o + n * 2) 2 = [m (o + n * 2), m (o + n * 2 + 1)] := rfl
  rw [Nat.succ_mul, slice_add, words_append (by rw [length_slice]; omega), htwo, words, words,
    Nat.add_zero]

theorem words_le (l : List UInt8) : words l ≤ 65280 * l.length := by
  induction l using words.induct with
  | case1 => exact Nat.le_refl 0
  | case2 a =>
    have := a.toNat_lt
    rw [words, List.length_singleton]
    omega
  | case3 a b l ih =>
    have := a.toNat_lt
    have := b.toNat_lt
    rw [words, List.length_cons, List.length_cons]
    omega

end Checksum
