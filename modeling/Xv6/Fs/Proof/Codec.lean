import Mathlib.Tactic.IntervalCases
import Xv6.Fs.Format

/-!
# Reading back what was written

The lens laws of the structures on the disk.
-/

namespace Fs

open Bytes Function
open Log (Block Disk)

variable {b : Block} {i j k n : Nat} {d : Dinode}

theorem get16_put32_ne (m : Store) {o p : Nat} (x : Nat) (h : p + 2 ≤ o ∨ o + 4 ≤ p) :
    get16 (put32 m o x) p = get16 m p :=
  get16_congr fun i h1 h2 => put32_other m x (by omega)

structure Super.Fits (sb : Super) : Prop where
  size : sb.size < 2 ^ 32
  nblocks : sb.nblocks < 2 ^ 32
  ninodes : sb.ninodes < 2 ^ 32
  nlog : sb.nlog < 2 ^ 32
  logstart : sb.logstart < 2 ^ 32
  inodestart : sb.inodestart < 2 ^ 32
  bmapstart : sb.bmapstart < 2 ^ 32

theorem getSuper_putSuper {sb : Super} (h : sb.Fits) : getSuper (putSuper b sb) = sb := by
  obtain ⟨h1, h2, h3, h4, h5, h6, h7⟩ := h
  cases sb
  simp (disch := omega) [getSuper, putSuper, get32_put32_ne, Nat.mod_eq_of_lt, *] at *

/-! ## Inodes -/

structure Dinode.Fits (d : Dinode) : Prop where
  type : d.type < 2 ^ 16
  major : d.major < 2 ^ 16
  minor : d.minor < 2 ^ 16
  nlink : d.nlink < 2 ^ 16
  size : d.size < 2 ^ 32
  addrs : ∀ k, d.addrs k < 2 ^ 32
  last : ∀ k, NDIRECT < k → d.addrs k = 0

theorem fits_getDinode : (getDinode b i).Fits := by
  refine ⟨get16_lt .., get16_lt .., get16_lt .., get16_lt .., get32_lt .., fun k => ?_, fun k hk => ?_⟩
  · simp only [getDinode]
    split
    · exact get32_lt ..
    · decide
  · simp only [getDinode]
    rw [if_neg (Nat.not_le.2 hk)]

theorem putAddrs_other {addrs : Nat → Nat} {o : Nat}
    (h : o < addrOff i 0 ∨ addrOff i n ≤ o) : putAddrs b i addrs n o = b o := by
  induction n with
  | zero => rfl
  | succ n ih =>
    unfold addrOff at h ih
    rw [putAddrs, put32_other _ _ (by unfold addrOff; omega), ih (by omega)]

theorem get32_putAddrs {addrs : Nat → Nat} (hk : k < n) :
    get32 (putAddrs b i addrs n) (addrOff i k) = addrs k % 2 ^ 32 := by
  induction n with
  | zero => cases hk
  | succ n ih =>
    rw [putAddrs]
    by_cases hkn : k = n
    · rw [hkn, get32_put32]
    · rw [get32_put32_ne _ _ (by unfold addrOff; omega), ih (by omega)]

theorem putDinode_other {o : Nat} (h : o < DINODESIZE * i ∨ DINODESIZE * (i + 1) ≤ o) :
    putDinode b i d o = b o := by
  unfold DINODESIZE at h
  unfold putDinode
  rw [putAddrs_other (by unfold addrOff NDIRECT DINODESIZE; omega),
    put32_other _ _ (by unfold DINODESIZE; omega)]
  unfold DINODESIZE
  rw [put16_other _ _ (by omega) (by omega), put16_other _ _ (by omega) (by omega),
    put16_other _ _ (by omega) (by omega), put16_other _ _ (by omega) (by omega)]

theorem getDinode_congr {b' : Block}
    (h : ∀ o, DINODESIZE * i ≤ o → o < DINODESIZE * (i + 1) → b o = b' o) :
    getDinode b i = getDinode b' i := by
  unfold DINODESIZE at h
  have h16 : ∀ o, DINODESIZE * i ≤ o → o + 2 ≤ DINODESIZE * (i + 1) → get16 b o = get16 b' o :=
    fun o h1 h2 => get16_congr fun x hx1 hx2 => h x (by unfold DINODESIZE at *; omega)
      (by unfold DINODESIZE at *; omega)
  have h32 : ∀ o, DINODESIZE * i ≤ o → o + 4 ≤ DINODESIZE * (i + 1) → get32 b o = get32 b' o :=
    fun o h1 h2 => get32_congr fun x hx1 hx2 => h x (by unfold DINODESIZE at *; omega)
      (by unfold DINODESIZE at *; omega)
  unfold getDinode
  congr 1
  · exact h16 _ (by omega) (by unfold DINODESIZE; omega)
  · exact h16 _ (by omega) (by unfold DINODESIZE; omega)
  · exact h16 _ (by omega) (by unfold DINODESIZE; omega)
  · exact h16 _ (by omega) (by unfold DINODESIZE; omega)
  · exact h32 _ (by omega) (by unfold DINODESIZE; omega)
  · funext k
    split
    · rename_i hk
      unfold NDIRECT at hk
      exact h32 _ (by unfold addrOff; omega) (by unfold addrOff DINODESIZE; omega)
    · rfl

theorem getDinode_putDinode_ne (h : j ≠ i) : getDinode (putDinode b i d) j = getDinode b j :=
  getDinode_congr fun o h1 h2 => putDinode_other (by
    unfold DINODESIZE at *
    rcases Nat.lt_or_gt_of_ne h with h | h
    · left
      omega
    · right
      omega)

theorem getDinode_putDinode (h : d.Fits) : getDinode (putDinode b i d) i = d := by
  have hlow : ∀ {x : Block} {o : Nat}, o + 2 ≤ addrOff i 0 →
      get16 (putAddrs x i d.addrs (NDIRECT + 1)) o = get16 x o := fun ho =>
    get16_congr fun y h1 h2 => putAddrs_other (by omega)
  have hsize : ∀ {x : Block} {o : Nat}, o + 4 ≤ addrOff i 0 →
      get32 (putAddrs x i d.addrs (NDIRECT + 1)) o = get32 x o := fun ho =>
    get32_congr fun y h1 h2 => putAddrs_other (by omega)
  have ho : addrOff i 0 = 64 * i + 12 := rfl
  ext k
  · simp (disch := omega) only [getDinode, putDinode, DINODESIZE, hlow, get16_put32_ne,
      get16_put16_ne, get16_put16]
    exact Nat.mod_eq_of_lt h.type
  · simp (disch := omega) only [getDinode, putDinode, DINODESIZE, hlow, get16_put32_ne,
      get16_put16_ne, get16_put16]
    exact Nat.mod_eq_of_lt h.major
  · simp (disch := omega) only [getDinode, putDinode, DINODESIZE, hlow, get16_put32_ne,
      get16_put16_ne, get16_put16]
    exact Nat.mod_eq_of_lt h.minor
  · simp (disch := omega) only [getDinode, putDinode, DINODESIZE, hlow, get16_put32_ne,
      get16_put16_ne, get16_put16]
    exact Nat.mod_eq_of_lt h.nlink
  · simp (disch := omega) only [getDinode, putDinode, DINODESIZE, hsize, get32_put32]
    exact Nat.mod_eq_of_lt h.size
  · simp only [getDinode]
    split
    · rename_i hk
      rw [putDinode, get32_putAddrs (Nat.lt_succ_of_le hk)]
      exact Nat.mod_eq_of_lt (h.addrs k)
    · rename_i hk
      exact (h.last k (Nat.not_le.1 hk)).symm

/-! ## The free bit map -/

theorem toNat_one_shiftLeft (h : k < 8) : (1 <<< UInt8.ofNat k : UInt8).toNat = 2 ^ k := by
  interval_cases k <;> rfl

theorem testBit_or_one {x : UInt8} {m : Nat} (h : k < 8) :
    (x ||| 1 <<< UInt8.ofNat k).toNat.testBit m = (decide (k = m) || x.toNat.testBit m) := by
  rw [UInt8.toNat_or, Nat.testBit_or, toNat_one_shiftLeft h, Nat.testBit_two_pow, Bool.or_comm]

theorem bit_eq_iff (h : j / 8 = i / 8) : i = j ↔ i % 8 = j % 8 := by omega

theorem getBit_setBit : getBit (setBit b i) j = (decide (i = j) || getBit b j) := by
  unfold getBit setBit
  by_cases h : j / 8 = i / 8
  · rw [h, update_self, testBit_or_one (by omega)]
    simp only [bit_eq_iff h]
  · rw [update_of_ne h]
    have hij : i ≠ j := by
      rintro rfl
      exact h rfl
    simp [hij]

end Fs
