import Xv6.Base.Bytes

/-!
# The two `memmove`s

The kernel's (`string.c`) copies from the top when the destination begins inside of the source; the
library's (`ulib.c`) copies from the bottom always. The first is the copy of the source as it was
(`Bytes.copy`); the second is that too unless the ranges overlap in the wrong direction and the bytes
differ (`memmoves_agree`).
-/

namespace User

open Bytes

/-- `while(n-- > 0) *d++ = *s++`. -/
def copyUp (m : Store) (d s : Nat) : Nat → Store
  | 0 => m
  | n + 1 => copyUp (put8 m d (m s)) (d + 1) (s + 1) n

/-- `while(n-- > 0) *--d = *--s`, with `d` and `s` the beginnings of the ranges. -/
def copyDown (m : Store) (d s : Nat) : Nat → Store
  | 0 => m
  | n + 1 => copyDown (put8 m (d + n) (m (s + n))) d s n

def kernelMemmove (m : Store) (dst src n : Nat) : Store :=
  if src < dst ∧ (src + n) % 2 ^ 32 > dst then copyDown m dst src n else copyUp m dst src n

def userMemmove (m : Store) (dst src : Nat) (n : Int) : Store := copyUp m dst src n.toNat

theorem copy_zero (m : Store) (d : Nat) (m' : Store) (s : Nat) : copy m d m' s 0 = m := by
  funext a
  exact if_neg (by omega)

theorem copyDown_eq (m : Store) {d s : Nat} (h : s ≤ d) (n : Nat) :
    copyDown m d s n = copy m d m s n := by
  induction n generalizing m with
  | zero => exact (copy_zero m d m s).symm
  | succ n ih =>
    rw [copyDown, ih]
    funext a
    simp only [copy, put8]
    grind

theorem copyUp_eq (m : Store) {d s : Nat} (n : Nat) (h : d ≤ s ∨ s + n ≤ d) :
    copyUp m d s n = copy m d m s n := by
  induction n generalizing m d s with
  | zero => exact (copy_zero m d m s).symm
  | succ n ih =>
    rw [copyUp, ih _ (by omega)]
    funext a
    simp only [copy, put8]
    grind

/-- If the destination begins `k` bytes into the source, the first `k` bytes are repeated. -/
theorem copyUp_repeats (m : Store) (s : Nat) {k : Nat} (hk : 0 < k) (n a : Nat) :
    copyUp m (s + k) s n a =
      if s + k ≤ a ∧ a < s + k + n then m (s + (a - (s + k)) % k) else m a := by
  induction n generalizing m s with
  | zero => rw [copyUp, if_neg (by omega)]
  | succ n ih =>
    rw [copyUp, show s + k + 1 = s + 1 + k by omega, ih]
    by_cases hi : s + 1 + k ≤ a ∧ a < s + 1 + k + n
    · -- the byte read lies before the destination, or is the one just written
      have hr := Nat.mod_lt (a - (s + 1 + k)) hk
      rw [if_pos hi, if_pos (by omega), show a - (s + k) = a - (s + 1 + k) + 1 by omega,
        ← Nat.mod_add_mod]
      generalize (a - (s + 1 + k)) % k = r at hr ⊢
      by_cases hl : r + 1 = k
      · rw [hl, Nat.mod_self, put8, if_pos (by omega), Nat.add_zero]
      · rw [Nat.mod_eq_of_lt (by omega), put8, if_neg (by omega)]
        congr 1
        omega
    · rw [if_neg hi, put8]
      by_cases ha : a = s + k
      · rw [if_pos ha, if_pos (by omega), ha, Nat.sub_self, Nat.zero_mod, Nat.add_zero]
      · rw [if_neg ha, if_neg (by omega)]

theorem repeats_iff {m : Store} {s k n : Nat} (hk : 0 < k) :
    (∀ i < n, m (s + i % k) = m (s + i)) ↔ ∀ i, i + k < n → m (s + i) = m (s + (i + k)) := by
  constructor
  · intro h i hi
    rw [← h (i + k) hi, Nat.add_mod_right, h i (by omega)]
  · intro h i hi
    induction i using Nat.strongRecOn with
    | _ i ih =>
      by_cases hik : i < k
      · rw [Nat.mod_eq_of_lt hik]
      · obtain ⟨j, rfl⟩ : ∃ j, i = j + k := ⟨i - k, by omega⟩
        rw [Nat.add_mod_right, ih j (by omega) (by omega), h j hi]

theorem kernelMemmove_eq (m : Store) {dst src n : Nat} (hd : dst + n ≤ 2 ^ 32) :
    kernelMemmove m dst src n = copy m dst m src n := by
  unfold kernelMemmove
  split
  · exact copyDown_eq m (by omega) n
  · exact copyUp_eq m n (by omega)

theorem userMemmove_eq_iff (m : Store) (dst src n : Nat) :
    userMemmove m dst src n = copy m dst m src n ↔ dst ≤ src ∨ src + n ≤ dst ∨
        ∀ i, i + (dst - src) < n → m (src + i) = m (src + (i + (dst - src))) := by
  by_cases h : dst ≤ src ∨ src + n ≤ dst
  · have := copyUp_eq m n h
    exact iff_of_true this (h.imp id .inl)
  · obtain ⟨k, rfl⟩ : ∃ k, dst = src + k := ⟨dst - src, by omega⟩
    have hk : 0 < k := by omega
    rw [show src + k - src = k by omega, ← repeats_iff hk]
    constructor
    · intro he
      refine .inr (.inr fun i hi => ?_)
      have ha := congrFun he (src + k + i)
      rw [userMemmove, Int.toNat_natCast, copyUp_repeats m src hk, copy, if_pos (by omega),
        if_pos (by omega), Nat.add_sub_cancel_left] at ha
      exact ha
    · intro hr
      have hr := (hr.resolve_left (by omega)).resolve_left (by omega)
      funext a
      rw [userMemmove, Int.toNat_natCast, copyUp_repeats m src hk, copy]
      by_cases ha : src + k ≤ a ∧ a < src + k + n
      · rw [if_pos ha, if_pos ha, hr _ (by omega)]
      · rw [if_neg ha, if_neg ha]

/-- Both leave the `n` bytes at `dst` as the `n` bytes that were at `src` iff the destination does
not begin inside of the source, or the source repeats itself with that distance. -/
theorem memmoves_agree (m : Store) (dst src n : Nat) (hd : dst + n ≤ 2 ^ 32)
    (_hs : src + n ≤ 2 ^ 32) (_hn : n < 2 ^ 31) : (kernelMemmove m dst src n = copy m dst m src n ∧
        userMemmove m dst src n = copy m dst m src n) ↔
      dst ≤ src ∨ src + n ≤ dst ∨
        ∀ i, i + (dst - src) < n → m (src + i) = m (src + (i + (dst - src))) := by
  rw [← userMemmove_eq_iff m dst src n]
  exact and_iff_right (kernelMemmove_eq m hd)

/-- Three bytes moved down by one. -/
theorem memmoves_agree_down : kernelMemmove UInt8.ofNat 2 3 3 = userMemmove UInt8.ofNat 2 3 3 ∧
    slice (userMemmove UInt8.ofNat 2 3 3) 2 4 = [3, 4, 5, 5] := by
  have h := (memmoves_agree UInt8.ofNat 2 3 3 (by decide) (by decide) (by decide)).mpr (.inl (by decide))
  exact ⟨h.1.trans h.2.symm, by decide⟩

/-- Two bytes moved up by one: the library leaves the first of them twice. -/
theorem memmoves_differ : kernelMemmove (put8 (fill 0) 0 1) 1 0 2 2 = 0 ∧
    userMemmove (put8 (fill 0) 0 1) 1 0 2 2 = 1 := by
  decide

end User
