import Mathlib.Tactic.Tauto
import Xv6.User.Grammar

/-!
# The tokens of a command

`tokens s k` is what repeated calls of `gettoken` from `k` on return, up to the end. `At s k ts` says
that these are `ts`. The parser sees the command through `peek` and `gettoken` only, and both are
functions of `ts` (`At.peek`, `At.gettoken`).
-/

namespace Sh

section
variable {c : Nat → Char} {s : Str} {k : Nat}

/-! ## Scanning -/

theorem skip_le (c : Nat → Char) (k : Nat) : skip c k ≤ k := by
  induction k with
  | zero => exact Nat.le_refl _
  | succ k ih =>
    rw [skip]
    split
    · exact Nat.le_succ_of_le ih
    · exact Nat.le_refl _

theorem skip_end (h : c 0 = NUL) (k : Nat) : c (skip c k) ∉ whitespace := by
  induction k with
  | zero =>
    rw [skip, h]
    decide
  | succ k ih =>
    rw [skip]
    split
    · exact ih
    · assumption

theorem skip_of_not_mem (h : c k ∉ whitespace) : skip c k = k := by
  cases k with
  | zero => rfl
  | succ k => exact if_neg h

theorem word_le (c : Nat → Char) (k : Nat) : word c k ≤ k := by
  induction k with
  | zero => exact Nat.le_refl _
  | succ k ih =>
    rw [word]
    split
    · exact Nat.le_succ_of_le ih
    · exact Nat.le_refl _

def lead (ret : Char) : Char := if ret = '+' then '>' else ret

theorem scan_spec (h : c k ≠ NUL) (hk : k ≠ 0) (hw : c k ∉ whitespace) :
    (scan c k).1 ≠ NUL ∧ (scan c k).2 < k ∧
      (c k ∈ symbols ∧ (scan c k).1 ≠ 'a' ∧ lead (scan c k).1 = c k ∨
        c k ∉ symbols ∧ (scan c k).1 = 'a' ∧ (scan c k).2 = word c k) := by
  unfold scan
  rw [if_neg h]
  by_cases h1 : c k ∈ ['|', '(', ')', ';', '&', '<']
  · rw [if_pos h1]
    refine ⟨h, by show k - 1 < k; omega, .inl ?_⟩
    dsimp only
    simp only [List.mem_cons, List.not_mem_nil, or_false] at h1
    rcases h1 with h1 | h1 | h1 | h1 | h1 | h1 <;> rw [h1] <;> decide
  rw [if_neg h1]
  by_cases h2 : c k = '>'
  · rw [if_pos h2, h2]
    split
    · refine ⟨?_, by show k - 1 - 1 < k; omega, .inl ?_⟩ <;> dsimp only <;> decide
    · refine ⟨?_, by show k - 1 < k; omega, .inl ?_⟩ <;> dsimp only <;> decide
  · rw [if_neg h2]
    have hsym : c k ∉ symbols := by
      simp only [symbols, List.mem_cons, List.not_mem_nil, or_false] at h1 ⊢
      tauto
    refine ⟨show 'a' ≠ NUL by decide, ?_, .inr ⟨hsym, rfl, rfl⟩⟩
    obtain ⟨j, rfl⟩ := Nat.exists_eq_succ_of_ne_zero hk
    show word c (j + 1) < j + 1
    rw [word, if_pos ⟨hw, hsym⟩]
    exact Nat.lt_succ_of_le (word_le c j)

theorem ne_zero_of_ne_nul (h : s.chr k ≠ NUL) : k ≠ 0 := fun h0 => h (h0 ▸ s.nul)

theorem gettoken_lt (h : s.chr (skip s.chr k) ≠ NUL) : (gettoken s.chr k).2 < k := by
  have hs := (scan_spec h (ne_zero_of_ne_nul h) (skip_end s.nul k)).2.1
  have := skip_le s.chr k
  have := skip_le s.chr (scan s.chr (skip s.chr k)).2
  show skip s.chr (scan s.chr (skip s.chr k)).2 < k
  omega

end

def tokens (s : Str) (k : Nat) : List Token :=
  if s.chr (skip s.chr k) = NUL then []
  else (gettoken s.chr k).1 :: tokens s (gettoken s.chr k).2
termination_by k
decreasing_by exact gettoken_lt ‹_›

structure At (s : Str) (k : Nat) (ts : List Token) : Prop where
  le : k ≤ s.len
  eq : tokens s k = ts

def headIn (toks : List Char) : List Token → Bool
  | [] => false
  | t :: _ => lead t.ret ∈ toks

section
variable {s : Str} {k : Nat} {ts : List Token} {t : Token}

theorem tokens_skip (s : Str) (k : Nat) : tokens s (skip s.chr k) = tokens s k := by
  have hskip := skip_of_not_mem (skip_end s.nul k)
  have hget : gettoken s.chr (skip s.chr k) = gettoken s.chr k := by
    rw [gettoken, gettoken, hskip]
  rw [tokens, hskip, hget]
  exact (tokens.eq_def s k).symm

theorem At.skip (h : At s k ts) : At s (skip s.chr k) ts :=
  ⟨Nat.le_trans (skip_le s.chr k) h.le, (tokens_skip s k).trans h.eq⟩

theorem At.peek (h : At s k ts) (toks : List Char) (ht : toks.all symbols.contains = true) :
    ∃ k', peek s.chr k toks = (headIn toks ts, k') ∧ At s k' ts := by
  refine ⟨Sh.skip s.chr k, ?_, h.skip⟩
  have hsub : ∀ x ∈ toks, x ∈ symbols := fun x hx => List.contains_iff_mem.1 (List.all_eq_true.1 ht x hx)
  have he := h.eq
  rw [tokens] at he
  unfold Sh.peek
  split at he
  · next h0 =>
    subst he
    simp [h0, headIn]
  · next h0 =>
    subst he
    have hlead : s.chr (Sh.skip s.chr k) ∈ toks ↔ lead (gettoken s.chr k).1.ret ∈ toks := by
      have hspec := (scan_spec h0 (ne_zero_of_ne_nul h0) (skip_end s.nul k)).2.2
      show _ ↔ lead (scan s.chr (Sh.skip s.chr k)).1 ∈ toks
      rcases hspec with ⟨-, -, hl⟩ | ⟨hsym, ha, -⟩
      · rw [hl]
      · rw [ha]
        refine iff_of_false (fun hm => hsym (hsub _ hm)) fun hm => ?_
        exact absurd (hsub _ hm) (by decide)
    simp [h0, headIn, hlead]

theorem At.gettoken (h : At s k (t :: ts)) :
    ∃ k', gettoken s.chr k = (t, k') ∧ At s k' ts ∧ t.ret ≠ NUL := by
  have he := h.eq
  rw [tokens] at he
  split at he
  · exact absurd he (List.cons_ne_nil t ts).symm
  · next h0 =>
    obtain ⟨rfl, rfl⟩ := List.cons.inj he
    refine ⟨_, rfl, ⟨Nat.le_trans (Nat.le_of_lt (gettoken_lt h0)) h.le, rfl⟩, ?_⟩
    exact (scan_spec h0 (ne_zero_of_ne_nul h0) (skip_end s.nul k)).1

theorem At.skip_eq (h : At s k ts) : Sh.skip s.chr k = 0 ↔ ts = [] := by
  have he := h.eq
  rw [tokens] at he
  constructor
  · intro hz
    rw [hz, if_pos s.nul] at he
    exact he.symm
  · intro hnil
    split at he
    · next h0 =>
      by_contra hne
      exact s.ne_nul _ (Nat.pos_of_ne_zero hne) h.skip.le h0
    · exact absurd (he.trans hnil) (List.cons_ne_nil _ _)

theorem At.gettoken_nil (h : At s k []) :
    ∃ t k', Sh.gettoken s.chr k = (t, k') ∧ At s k' [] ∧ t.ret = NUL := by
  have hz := h.skip_eq.2 rfl
  have hk := h.skip
  have hscan : scan s.chr 0 = (NUL, 0) := if_pos s.nul
  rw [hz] at hk
  refine ⟨⟨NUL, 0, 0⟩, 0, ?_, hk, rfl⟩
  simp only [Sh.gettoken, hz, hscan]
  rfl

end

end Sh
