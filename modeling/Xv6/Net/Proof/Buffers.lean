import Xv6.Net.Ring

/-!
# The buffers of the rings

`i8254_init_recv` and `i8254_init_send` give the two halves of the page of turn `i` to the descriptors
`i` and `i + 1`, so the second half is lost in the next turn, and the descriptors from 129 on keep what
the page of the ring held.
-/

namespace I8254

open Bytes

variable {kalloc : Nat → Nat} {ring a i j n : Nat} {m : Store}

/-! ## One ring -/

theorem clearDesc_other {d : Nat} (h : a < d + 4 ∨ d + 16 ≤ a) : clearDesc m d a = m a := by
  unfold clearDesc
  rw [put16_other _ _ (by omega) (by omega), put16_other _ _ (by omega) (by omega),
    put16_other _ _ (by omega) (by omega), put16_other _ _ (by omega) (by omega),
    put32_other _ _ (by omega)]

theorem clearAll_other (h : ∀ i < n, a < ring + 16 * i + 4 ∨ ring + 16 * i + 16 ≤ a) :
    (List.range n).foldl (fun m i => clearDesc m (ring + 16 * i)) m a = m a := by
  induction n with
  | zero => rfl
  | succ n ih =>
    rw [List.range_succ, List.foldl_append, List.foldl_cons, List.foldl_nil,
      clearDesc_other (h n (Nat.lt_succ_self n)), ih fun i hi => h i (Nat.lt_succ_of_lt hi)]

theorem setBuffers_succ : setBuffers kalloc ring (n + 1) i m = if kalloc i = 0 then m
    else setBuffers kalloc ring n (i + 1)
      (put32 (put32 m (ring + 16 * i) (kalloc i)) (ring + 16 * (i + 1)) (kalloc i + 0x800)) := rfl

theorem setBuffers_below (h : a < ring + 16 * i) : setBuffers kalloc ring n i m a = m a :=
  setBuffers_other n i m h

theorem setBuffers_above (h : ring + 16 * (i + n + 1) ≤ a) :
    setBuffers kalloc ring n i m a = m a := by
  induction n generalizing i m with
  | zero => rfl
  | succ n ih =>
    rw [setBuffers_succ]
    split
    · rfl
    · rw [ih (by omega), put32_other _ _ (by omega), put32_other _ _ (by omega)]

theorem setBuffers_low (hk : ∀ j, i ≤ j → j < i + n → kalloc j ≠ 0) (hj : i ≤ j) (hj' : j < i + n) :
    get32 (setBuffers kalloc ring n i m) (ring + 16 * j) = kalloc j % 2 ^ 32 := by
  induction n generalizing i m with
  | zero => omega
  | succ n ih =>
    rw [setBuffers_succ, if_neg (hk i (Nat.le_refl i) (by omega))]
    by_cases he : i = j
    · subst he
      rw [get32_congr fun a _ h2 => setBuffers_below (by omega), get32_put32_ne _ _ (by omega),
        get32_put32]
    · exact ih (fun k h1 h2 => hk k (by omega) (by omega)) (by omega) (by omega)

theorem setBuffers_last (ring : Nat) (m : Store) (hk : ∀ j, i ≤ j → j < i + (n + 1) → kalloc j ≠ 0) :
    get32 (setBuffers kalloc ring (n + 1) i m) (ring + 16 * (i + n + 1)) =
      (kalloc (i + n) + 0x800) % 2 ^ 32 := by
  induction n generalizing i m with
  | zero =>
    rw [setBuffers_succ, if_neg (hk i (Nat.le_refl i) (by omega))]
    exact get32_put32 ..
  | succ n ih =>
    rw [setBuffers_succ, if_neg (hk i (Nat.le_refl i) (by omega)),
      show i + (n + 1) = i + 1 + n by omega]
    exact ih _ fun k h1 h2 => hk k (by omega) (by omega)

theorem get32_initRing_high (hi : 129 ≤ i) :
    get32 (initRing kalloc ring 256 m) (ring + 16 * i) = get32 m (ring + 16 * i) := by
  refine get32_congr fun a h1 h2 => ?_
  rw [initRing, setBuffers_above (by omega)]
  exact clearAll_other fun j _ => by omega

theorem get32_initRing_low (hk : ∀ j < 128, kalloc j ≠ 0) (hi : i < 128) :
    get32 (initRing kalloc ring 256 m) (ring + 16 * i) = kalloc i % 2 ^ 32 :=
  setBuffers_low (fun j _ h2 => hk j (by omega)) (Nat.zero_le i) (by omega)

theorem get32_initRing_last (hk : ∀ j < 128, kalloc j ≠ 0) :
    get32 (initRing kalloc ring 256 m) (ring + 16 * 128) = (kalloc 127 + 0x800) % 2 ^ 32 := by
  have h := setBuffers_last (i := 0) (n := 127) ring
    ((List.range 256).foldl (fun m i => clearDesc m (ring + 16 * i)) m) fun j _ h2 => hk j (by omega)
  exact h

theorem initRing_other (h : a < ring ∨ ring + 4096 ≤ a) : initRing kalloc ring 256 m a = m a := by
  rw [initRing]
  rcases h with h | h
  · rw [setBuffers_below (by omega)]
    exact clearAll_other fun j hj => by omega
  · rw [setBuffers_above (by omega)]
    exact clearAll_other fun j hj => by omega

/-! ## Both rings -/

/-- What `kalloc` returns for the receive ring (`false`) and the transmit ring (`true`): the page of
the descriptors, and that of each turn of the loop. 0 stands for no page. -/
structure Pages where
  ring : Bool → Nat
  buf : Bool → Nat → Nat
  ring_aligned : ∀ r, ring r % 4096 = 0
  buf_page : ∀ r i, buf r i % 4096 = 0 ∧ buf r i < 2 ^ 32
  ring_inj : ring false ≠ ring true
  ring_buf : ∀ r q i, buf q i ≠ 0 → ring r ≠ buf q i
  buf_inj : ∀ r i q j, buf r i ≠ 0 → buf r i = buf q j → r = q ∧ i = j

namespace Pages

variable (k : Pages)

def init (m : Store) : Store :=
  initRing (k.buf true) (k.ring true) I8254_SEND_DESC_NUM
    (initRing (k.buf false) (k.ring false) I8254_RECV_DESC_NUM m)

def addr (m : Store) (r : Bool) (i : Nat) : Nat := get32 m (k.ring r + DESCSIZE * i)

def Failed : Prop := ∃ r, k.ring r = 0 ∨ ∃ i < 128, k.buf r i = 0

/-- The buffers of all descriptors lie in pages of the loops, and no two overlap. -/
structure Disjoint (m : Store) : Prop where
  inside : ∀ r, ∀ i < 256, ∃ q, ∃ j < 128, k.buf q j ≤ k.addr m r i ∧
    k.addr m r i + 2048 ≤ k.buf q j + 4096
  apart : ∀ r, ∀ i < 256, ∀ q, ∀ j < 256, (r, i) ≠ (q, j) →
    k.addr m r i + 2048 ≤ k.addr m q j ∨ k.addr m q j + 2048 ≤ k.addr m r i

def Keeps (r : Bool) (i : Nat) : Prop := ∀ m, k.addr (k.init m) r i = k.addr m r i

/-- The rings are set up: with buffers of their own, or at least with no address left over. -/
def SetUp (m : Store) : Prop :=
  (¬ k.Failed → k.Disjoint (k.init m)) ∧ (k.Failed → ∀ r, ∀ i < 256, ¬ k.Keeps r i)

/-- The descriptors from 129 on happen to hold second halves of the pages before the last, each of
another page. -/
structure Lucky (m : Store) : Prop where
  half : ∀ r i, 129 ≤ i → i < 256 → ∃ q, ∃ j < 127, k.addr m r i = k.buf q j + 2048
  inj : ∀ r i q j, 129 ≤ i → i < 256 → 129 ≤ j → j < 256 → k.addr m r i = k.addr m q j →
    (r, i) = (q, j)

variable {k}

theorem addr_init (m : Store) (r : Bool) (hi : i < 256) : ∃ m',
    (∀ a, k.ring r ≤ a → a < k.ring r + 4096 → m' a = m a) ∧
      k.addr (k.init m) r i = get32 (initRing (k.buf r) (k.ring r) 256 m') (k.ring r + 16 * i) := by
  have h0 := k.ring_aligned false
  have h1 := k.ring_aligned true
  have hne := k.ring_inj
  cases r with
  | false =>
    refine ⟨m, fun _ _ _ => rfl, get32_congr fun a ha ha' => initRing_other ?_⟩
    have ha : k.ring false + 16 * i ≤ a := ha
    have ha' : a < k.ring false + 16 * i + 4 := ha'
    omega
  | true => exact ⟨_, fun a _ _ => initRing_other (by omega), rfl⟩

theorem addr_high (m : Store) (r : Bool) (hi : 129 ≤ i) (hi' : i < 256) :
    k.addr (k.init m) r i = k.addr m r i := by
  obtain ⟨m', hm, he⟩ := addr_init (k := k) m r hi'
  rw [he, get32_initRing_high hi]
  exact get32_congr fun a _ _ => hm a (by omega) (by omega)

theorem keeps_last (r : Bool) : k.Keeps r 255 := fun m => addr_high m r (by decide) (by decide)

section
variable (hf : ¬ k.Failed)
include hf

theorem buf_ne (r : Bool) (hi : i < 128) : k.buf r i ≠ 0 := fun h => hf ⟨r, .inr ⟨i, hi, h⟩⟩

theorem addr_low (r : Bool) (hi : i < 128) : k.addr (k.init m) r i = k.buf r i := by
  obtain ⟨m', -, he⟩ := addr_init (k := k) m r (show i < 256 by omega)
  rw [he, get32_initRing_low (fun j hj => buf_ne hf r hj) hi]
  exact Nat.mod_eq_of_lt (k.buf_page r i).2

theorem addr_last (r : Bool) : k.addr (k.init m) r 128 = k.buf r 127 + 2048 := by
  have := k.buf_page r 127
  obtain ⟨m', -, he⟩ := addr_init (k := k) m r (show 128 < 256 by decide)
  rw [he, get32_initRing_last fun j hj => buf_ne hf r hj]
  exact Nat.mod_eq_of_lt (by omega)

theorem Lucky.addr (h : k.Lucky m) (r : Bool) (hi : i < 256) : ∃ q, ∃ j < 128,
    (k.addr (k.init m) r i = k.buf q j ∧ (q, j) = (r, i)) ∨
      (k.addr (k.init m) r i = k.buf q j + 2048 ∧
      ((i = 128 ∧ (q, j) = (r, 127)) ∨ (129 ≤ i ∧ j < 127))) := by
  rcases (by omega : i < 128 ∨ i = 128 ∨ 129 ≤ i) with hlt | rfl | hge
  · exact ⟨r, i, hlt, .inl ⟨addr_low hf r hlt, rfl⟩⟩
  · exact ⟨r, 127, by decide, .inr ⟨addr_last hf r, .inl ⟨rfl, rfl⟩⟩⟩
  · obtain ⟨q, j, hj, he⟩ := h.half r i hge hi
    exact ⟨q, j, by omega, .inr ⟨by rw [addr_high m r hge hi, he], .inr ⟨hge, hj⟩⟩⟩

theorem Lucky.disjoint (h : k.Lucky m) : k.Disjoint (k.init m) where
  inside r i hi := by
    obtain ⟨q, j, hj, ⟨he, -⟩ | ⟨he, -⟩⟩ := h.addr hf r hi
    · exact ⟨q, j, hj, by omega, by omega⟩
    · exact ⟨q, j, hj, by omega, by omega⟩
  apart r i hi q j hj hne := by
    obtain ⟨q1, j1, hj1, h1⟩ := h.addr hf r hi
    obtain ⟨q2, j2, hj2, h2⟩ := h.addr hf q hj
    have hp1 := (k.buf_page q1 j1).1
    have hp2 := (k.buf_page q2 j2).1
    have hinj := k.buf_inj q1 j1 q2 j2 (buf_ne hf q1 hj1)
    rcases h1 with ⟨he1, ho1⟩ | ⟨he1, ho1⟩ <;> rcases h2 with ⟨he2, ho2⟩ | ⟨he2, ho2⟩
    · have : k.buf q1 j1 ≠ k.buf q2 j2 := fun he => by
        obtain ⟨rfl, rfl⟩ := hinj he
        exact hne (ho1.symm.trans ho2)
      omega
    · omega
    · omega
    · have : k.buf q1 j1 ≠ k.buf q2 j2 := fun he => by
        obtain ⟨rfl, rfl⟩ := hinj he
        rcases ho1 with ⟨rfl, ho1⟩ | ⟨hi1, ho1⟩ <;> rcases ho2 with ⟨rfl, ho2⟩ | ⟨hi2, ho2⟩
        · exact hne (by cases ho1; cases ho2; rfl)
        · cases ho1
          omega
        · cases ho2
          omega
        · refine hne (h.inj r i q j hi1 hi hi2 hj ?_)
          rw [← addr_high m r hi1 hi, ← addr_high m q hi2 hj, he1, he2]
      omega

theorem Disjoint.lucky (h : k.Disjoint (k.init m)) : k.Lucky m where
  half r i hi hi' := by
    obtain ⟨q, j, hj, hle, hlt⟩ := h.inside r i hi'
    have hown := h.apart r i hi' q j (by omega) (by rintro ⟨⟩; omega)
    have hlast := h.apart r i hi' q 128 (by decide) (by rintro ⟨⟩; omega)
    rw [addr_low hf q hj, addr_high m r hi hi'] at hown
    rw [addr_last hf q, addr_high m r hi hi'] at hlast
    rw [addr_high m r hi hi'] at hle hlt
    refine ⟨q, j, Nat.lt_of_not_le fun hj' => ?_, by omega⟩
    obtain rfl : j = 127 := by omega
    omega
  inj r i q j hi hi' hj hj' he := by
    refine Decidable.byContradiction fun hne => ?_
    have := h.apart r i hi' q j hj' hne
    rw [addr_high m r hi hi', addr_high m q hj hj'] at this
    omega

end

/-- **The rings are set up** only if no allocation fails and the pages of the descriptors hold the
right addresses beforehand. -/
theorem buffers_disjoint (k : Pages) (m : Store) : k.SetUp m ↔ ¬ k.Failed ∧ k.Lucky m := by
  by_cases hf : k.Failed
  · exact iff_of_false (fun h => h.2 hf false 255 (by decide) (keeps_last false)) fun h => h.1 hf
  · exact ⟨fun h => ⟨hf, (h.1 hf).lucky hf⟩, fun h => ⟨fun _ => h.2.disjoint hf, fun h' => absurd h' hf⟩⟩

def inOrder : Pages where
  ring r := 4096 * (1 + r.toNat)
  buf r i := if i < 128 then 4096 * (3 + 2 * i + r.toNat) else 0
  ring_aligned r := Nat.mul_mod_right ..
  buf_page r i := by
    have := r.toNat_le
    split <;> omega
  ring_inj := by decide
  ring_buf r q i _ := by
    have := r.toNat_le
    split <;> omega
  buf_inj r i q j h he := by
    have := r.toNat_le
    have := q.toNat_le
    split at he
    · split at he
      · exact ⟨by cases r <;> cases q <;> simp at he ⊢ <;> omega, by omega⟩
      · omega
    · rename_i hi
      exact absurd (if_neg hi) h

/-- Pages that `kfree` has filled with ones. -/
theorem buffers_disjoint_junk : ¬ inOrder.SetUp (fill 1) := by
  intro h
  have hf : ¬ inOrder.Failed := by
    rintro ⟨r, hr | ⟨i, hi, hr⟩⟩
    · exact absurd hr (by cases r <;> decide)
    · have hr : (if i < 128 then 4096 * (3 + 2 * i + r.toNat) else 0) = 0 := hr
      rw [if_pos hi] at hr
      omega
  obtain ⟨q, j, -, he⟩ := ((h.1 hf).lucky hf).half false 255 (by decide) (by decide)
  have hpage := (inOrder.buf_page q j).1
  have hjunk : inOrder.addr (fill 1) false 255 = 0x01010101 := by decide
  omega

end Pages

end I8254
