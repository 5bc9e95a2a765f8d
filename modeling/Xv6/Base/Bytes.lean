import Mathlib.Data.UInt

/-!
# Little-endian fields in a byte store

A page, a disk block or a C structure is a store of bytes `Nat → UInt8`. The lemmas are the usual
lens laws: a field reads back what was written (modulo its width), and a write leaves every disjoint
field alone. `copy` is `memmove` of `n` bytes between two stores.
-/

namespace Bytes

abbrev Store := Nat → UInt8

def fill (x : UInt8) : Store := fun _ => x

def get16 (m : Store) (o : Nat) : Nat := (m o).toNat + 256 * (m (o + 1)).toNat

def get32 (m : Store) (o : Nat) : Nat := get16 m o + 65536 * get16 m (o + 2)

def put16 (m : Store) (o x : Nat) : Store := fun i =>
  if i = o then UInt8.ofNat x else if i = o + 1 then UInt8.ofNat (x / 256) else m i

def put32 (m : Store) (o x : Nat) : Store := put16 (put16 m o x) (o + 2) (x / 65536)

/-- `dst` with its bytes `[o, o + n)` replaced by the bytes `[p, p + n)` of `src`. -/
def copy (dst : Store) (o : Nat) (src : Store) (p n : Nat) : Store := fun i =>
  if o ≤ i ∧ i < o + n then src (p + (i - o)) else dst i

abbrev Octets (n : Nat) := Fin n → UInt8

def getBytes (m : Store) (o n : Nat) : Octets n := fun i => m (o + i)

def putBytes {n : Nat} (m : Store) (o : Nat) (v : Octets n) : Store := fun i =>
  if h : o ≤ i ∧ i < o + n then v ⟨i - o, by omega⟩ else m i

def be32 (m : Store) (o : Nat) : Nat :=
  (m o).toNat * 2 ^ 24 + (m (o + 1)).toNat * 2 ^ 16 + (m (o + 2)).toNat * 2 ^ 8 + (m (o + 3)).toNat

def put8 (m : Store) (o : Nat) (x : UInt8) : Store := fun i => if i = o then x else m i

def putList (m : Store) (o : Nat) (l : List UInt8) : Store := fun i =>
  if o ≤ i ∧ i < o + l.length then l.getD (i - o) 0 else m i

def slice (m : Store) (o n : Nat) : List UInt8 := (List.range n).map fun i => m (o + i)

/-! ## Bounds -/

theorem get16_lt (m : Store) (o : Nat) : get16 m o < 65536 := by
  have h1 := (m o).toNat_lt
  have h2 := (m (o + 1)).toNat_lt
  unfold get16
  omega

theorem get32_lt (m : Store) (o : Nat) : get32 m o < 2 ^ 32 := by
  have h1 := get16_lt m o
  have h2 := get16_lt m (o + 2)
  unfold get32
  omega

/-! ## Reading back a write -/

theorem put16_other (m : Store) {o i : Nat} (x : Nat) (h : i ≠ o) (h' : i ≠ o + 1) :
    put16 m o x i = m i := by
  simp [put16, h, h']

theorem put32_other (m : Store) {o i : Nat} (x : Nat) (h : i < o ∨ o + 4 ≤ i) :
    put32 m o x i = m i := by
  unfold put32
  rw [put16_other _ _ (by omega) (by omega), put16_other _ _ (by omega) (by omega)]

@[simp] theorem get16_put16 (m : Store) (o x : Nat) : get16 (put16 m o x) o = x % 65536 := by
  simp only [get16, put16, if_true, Nat.add_eq_left, Nat.one_ne_zero, if_false, UInt8.toNat_ofNat']
  omega

theorem get16_congr {m m' : Store} {o : Nat} (h : ∀ i, o ≤ i → i < o + 2 → m i = m' i) :
    get16 m o = get16 m' o := by
  simp only [get16, h o (by omega) (by omega), h (o + 1) (by omega) (by omega)]

theorem get32_congr {m m' : Store} {o : Nat} (h : ∀ i, o ≤ i → i < o + 4 → m i = m' i) :
    get32 m o = get32 m' o := by
  simp only [get32]
  rw [get16_congr fun i h1 h2 => h i h1 (by omega),
    get16_congr fun i h1 h2 => h i (by omega) (by omega)]

theorem get16_put16_ne (m : Store) {o p : Nat} (x : Nat) (h : p + 2 ≤ o ∨ o + 2 ≤ p) :
    get16 (put16 m o x) p = get16 m p :=
  get16_congr fun i h1 h2 => put16_other m x (by omega) (by omega)

@[simp] theorem get32_put32 (m : Store) (o x : Nat) : get32 (put32 m o x) o = x % 2 ^ 32 := by
  have h1 : get16 (put32 m o x) o = x % 65536 := by
    unfold put32
    rw [get16_put16_ne _ _ (by omega), get16_put16]
  have h2 : get16 (put32 m o x) (o + 2) = x / 65536 % 65536 := get16_put16 _ _ _
  unfold get32
  rw [h1, h2]
  omega

theorem get32_put32_ne (m : Store) {o p : Nat} (x : Nat) (h : p + 4 ≤ o ∨ o + 4 ≤ p) :
    get32 (put32 m o x) p = get32 m p :=
  get32_congr fun i h1 h2 => put32_other m x (by omega)

theorem be32_congr {m m' : Store} {o : Nat} (h : ∀ i, o ≤ i → i < o + 4 → m i = m' i) :
    be32 m o = be32 m' o := by
  simp only [be32, h o (by omega) (by omega), h (o + 1) (by omega) (by omega),
    h (o + 2) (by omega) (by omega), h (o + 3) (by omega) (by omega)]

theorem put16_congr {m m' : Store} {o x i : Nat} (h1 : o ≤ i) (h2 : i < o + 2) :
    put16 m o x i = put16 m' o x i := by
  rcases (by omega : i = o ∨ i = o + 1) with rfl | rfl <;> simp [put16]

theorem get16_of_put16 {m : Store} {o x : Nat}
    (h : ∀ i, o ≤ i → i < o + 2 → m i = put16 (fill 0) o x i) : get16 m o = x % 65536 := by
  rw [get16_congr h, get16_put16]

theorem put32_congr {m m' : Store} {o x i : Nat} (h1 : o ≤ i) (h2 : i < o + 4) :
    put32 m o x i = put32 m' o x i := by
  by_cases h : i < o + 2
  · have hlow : ∀ m : Store, put32 m o x i = put16 m o x i :=
      fun m => put16_other _ _ (by omega) (by omega)
    rw [hlow, hlow]
    exact put16_congr h1 h
  · exact put16_congr (by omega) (by omega)

theorem be32_put32 (m : Store) (o x : Nat) : be32 (put32 m o x) o =
    x % 256 * 2 ^ 24 + x / 2 ^ 8 % 256 * 2 ^ 16 + x / 2 ^ 16 % 256 * 2 ^ 8 + x / 2 ^ 24 % 256 := by
  have h : o ≠ o + 2 + 1 := by omega
  simp [be32, put32, put16, h, UInt8.toNat_ofNat', Nat.div_div_eq_div_mul]

/-! ## Arrays of bytes -/

theorem put8_other (m : Store) {o i : Nat} (x : UInt8) (h : i ≠ o) : put8 m o x i = m i := if_neg h

@[simp] theorem put8_self (m : Store) (o : Nat) (x : UInt8) : put8 m o x o = x := if_pos rfl

theorem putBytes_other {n : Nat} (m : Store) {o i : Nat} (v : Octets n) (h : i < o ∨ o + n ≤ i) :
    putBytes m o v i = m i := dif_neg (by omega)

theorem getBytes_congr {m m' : Store} {o n : Nat} (h : ∀ i, o ≤ i → i < o + n → m i = m' i) :
    getBytes m o n = getBytes m' o n := by
  funext i
  exact h _ (by omega) (by omega)

@[simp] theorem putBytes_at {n : Nat} (m : Store) (o : Nat) (v : Octets n) (i : Fin n) :
    putBytes m o v (o + i) = v i := by
  refine (dif_pos ⟨by omega, by omega⟩).trans (congrArg v (Fin.ext ?_))
  simp only [Nat.add_sub_cancel_left]

@[simp] theorem getBytes_putBytes {n : Nat} (m : Store) (o : Nat) (v : Octets n) :
    getBytes (putBytes m o v) o n = v := funext (putBytes_at m o v)

theorem get16_put8_ne (m : Store) {o p : Nat} (x : UInt8) (h : p + 2 ≤ o ∨ o + 1 ≤ p) :
    get16 (put8 m o x) p = get16 m p :=
  get16_congr fun i h1 h2 => put8_other m x (by omega)

theorem get16_putBytes_ne {n : Nat} (m : Store) {o p : Nat} (v : Octets n)
    (h : p + 2 ≤ o ∨ o + n ≤ p) : get16 (putBytes m o v) p = get16 m p :=
  get16_congr fun i h1 h2 => putBytes_other m v (by omega)

theorem getBytes_putBytes_ne {k n : Nat} (m : Store) {o p : Nat} (v : Octets k)
    (h : p + n ≤ o ∨ o + k ≤ p) : getBytes (putBytes m o v) p n = getBytes m p n :=
  getBytes_congr fun i h1 h2 => putBytes_other m v (by omega)

theorem length_slice (m : Store) (o n : Nat) : (slice m o n).length = n := by
  rw [slice, List.length_map, List.length_range]

theorem slice_congr {m m' : Store} {o n : Nat} (h : ∀ i, o ≤ i → i < o + n → m i = m' i) :
    slice m o n = slice m' o n :=
  List.map_congr_left fun i hi => h _ (by omega) (by have := List.mem_range.1 hi; omega)

theorem slice_inj {m m' : Store} {o n : Nat} :
    slice m o n = slice m' o n ↔ ∀ i, o ≤ i → i < o + n → m i = m' i := by
  refine ⟨fun h i h1 h2 => ?_, slice_congr⟩
  have := congrArg (fun l => l[i - o]?) h
  simpa [slice, List.getElem?_range (show i - o < n by omega), Nat.add_sub_cancel' h1] using this

theorem putList_other (m : Store) {o i : Nat} (l : List UInt8) (h : i < o ∨ o + l.length ≤ i) :
    putList m o l i = m i := if_neg (by omega)

@[simp] theorem slice_putList (m : Store) (o : Nat) (l : List UInt8) :
    slice (putList m o l) o l.length = l := by
  refine List.ext_getElem (length_slice ..) fun i h1 h2 => ?_
  simp [slice, putList, h2]

theorem getD_slice (m : Store) {o n i : Nat} (x : UInt8) (h : i < n) :
    (slice m o n).getD i x = m (o + i) := by
  simp [slice, List.getD_eq_getElem?_getD, List.getElem?_range h]

theorem slice_add (m : Store) (o k n : Nat) :
    slice m o (k + n) = slice m o k ++ slice m (o + k) n := by
  rw [slice, List.range_add, List.map_append, List.map_map]
  simp only [slice, Function.comp_def, Nat.add_assoc]

theorem drop_slice (m : Store) (o k n : Nat) : (slice m o (k + n)).drop k = slice m (o + k) n := by
  rw [slice_add, List.drop_left' (length_slice ..)]

end Bytes
