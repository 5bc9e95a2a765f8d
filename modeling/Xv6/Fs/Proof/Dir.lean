import Xv6.Fs.Dir
import Xv6.Fs.Proof.Lock

/-!
# Reading directories

A directory is a list of entries; `dirlookup` returns the first one whose name matches
(`dirlookup_found`).
-/

namespace Fs

open Bytes
open Function (update)
open Log (Block Disk)
open Panic
/-! ## Bytes that are there -/

def Present (disk : Disk) (d : Dinode) (off n : Nat) : Prop :=
  ∀ o, off ≤ o → o < off + n → o / BSIZE < MAXFILE ∧ ptr disk d (slot (o / BSIZE)) ≠ 0

section
variable {s : State} {i off n m : Nat}

theorem Good.indirect {bn : Nat} (hs : Good s i) (hbn : bn < MAXFILE) (hd : ¬ bn < NDIRECT)
    (hp : ptr s.disk (s.node i) (slot bn) ≠ 0) :
    bn - NDIRECT < NINDIRECT ∧ (s.node i).addrs NDIRECT ≠ 0 ∧
      bread ((s.node i).addrs NDIRECT) s = .ok (s.disk ((s.node i).addrs NDIRECT), s) ∧
      get32 (s.disk ((s.node i).addrs NDIRECT)) (4 * (bn - NDIRECT)) =
        ptr s.disk (s.node i) (slot bn) := by
  obtain ⟨j, rfl⟩ := Nat.exists_eq_add_of_le (Nat.not_lt.1 hd)
  have hsl : slot (NDIRECT + j) = NDIRECT + 1 + j := by
    rw [slot, if_neg hd]
    omega
  have hj : j < NINDIRECT := by
    unfold MAXFILE at hbn
    omega
  rw [hsl] at hp ⊢
  have hind : (s.node i).addrs NDIRECT ≠ 0 := by
    intro h0
    rw [ptr, if_neg (by omega), if_pos h0] at hp
    exact hp rfl
  have hdata := (hs.data_of (by decide) (ptr_addrs (Nat.le_refl _)) hind).1
  rw [Nat.add_sub_cancel_left]
  exact ⟨hj, hind, bread_run (hs.geo.lt_FSSIZE hdata), (ptr_entry hind).symm⟩

theorem Good.missing_present (hs : Good s i) (hp : Present s.disk (s.node i) off n) :
    s.missing i (touched off n) = ∅ := by
  refine Finset.filter_eq_empty_iff.2 fun k hk => ?_
  obtain ⟨j, hj, hk⟩ := Finset.mem_biUnion.1 hk
  obtain ⟨hbn, hne⟩ := hp (off + j) (Nat.le_add_right ..) (by have := Finset.mem_range.1 hj; omega)
  unfold touch at hk
  split at hk
  · rename_i hd
    rw [Finset.mem_singleton.1 hk]
    rwa [slot, if_pos hd] at hne
  · rename_i hd
    obtain rfl | hk := Finset.mem_insert.1 hk
    · rw [ptr_addrs (Nat.le_refl _)]
      exact (hs.indirect hbn hd hne).2.1
    · rw [Finset.mem_singleton.1 hk]
      rwa [slot, if_neg hd] at hne

theorem bmap_present {bn : Nat} (hs : Good s i) (hbn : bn < MAXFILE)
    (hp : ptr s.disk (s.node i) (slot bn) ≠ 0) :
    bmap i bn s = .ok (ptr s.disk (s.node i) (slot bn), s) := by
  have haddr : ∀ k, (s.node i).addrs k ≠ 0 → bmapAddr i k s = .ok ((s.node i).addrs k, s) := by
    intro k hk
    rw [bmapAddr, bind_run get_run, if_neg hk]
    rfl
  by_cases hd : bn < NDIRECT
  · have hsl : slot bn = bn := if_pos hd
    rw [hsl, ptr_addrs hd.le] at hp ⊢
    rw [bmap, if_pos hd, haddr bn hp]
  · obtain ⟨hj, hind, hread, heq⟩ := hs.indirect hbn hd hp
    rw [bmap, if_neg hd, if_pos hj, bind_run (haddr _ hind), bind_run hread, heq, if_neg hp]
    rfl

theorem readLoop_present {fuel : Nat} (hs : Good s i) (hf : n ≤ fuel)
    (hp : Present s.disk (s.node i) off n) :
    readLoop i fuel off n s = .ok (bytes s.disk (s.node i) off n, s) := by
  induction fuel generalizing off n with
  | zero =>
    obtain rfl := Nat.le_zero.1 hf
    rfl
  | succ fuel ih =>
    rw [readLoop]
    by_cases h0 : n = 0
    · subst h0
      rfl
    rw [if_neg h0]
    generalize hmd : min n (BSIZE - off % BSIZE) = m
    have hmod : off % BSIZE < BSIZE := Nat.mod_lt _ (by decide)
    have hmn : m ≤ n := by omega
    obtain ⟨hbn, hne⟩ := hp off (Nat.le_refl _) (by omega)
    have hdata := (hs.data_of (slot_lt hbn) rfl hne).1
    have hrest : Present s.disk (s.node i) (off + m) (n - m) := fun o h1 h2 =>
      hp o (by omega) (by omega)
    rw [bind_run (bmap_present hs hbn hne), bind_run (bread_run (hs.geo.lt_FSSIZE hdata)),
      bind_run (ih (by omega) hrest), bytes_split _ hmn]
    refine congrArg (fun l => Except.ok (l ++ _, s)) (List.map_congr_left fun k hk => ?_)
    rw [List.mem_range] at hk
    rw [byte_block (by omega) rfl hne]

theorem readi_present (hs : Good s i) (hdev : (s.node i).type ≠ T_DEV) (ho : off ≤ (s.node i).size)
    (hn : off + n < 2 ^ 32) (hm : m = min n ((s.node i).size - off))
    (hp : Present s.disk (s.node i) off m) :
    readi i off n s = .ok (some (bytes s.disk (s.node i) off m), s) := by
  rw [readi, bind_run get_run, if_neg hdev, if_neg, ← hm,
    bind_run (readLoop_present hs (by omega) hp)]
  · rfl
  · rw [Nat.mod_eq_of_lt hn]
    omega

end

/-! ## Names -/

theorem strncmp_cons {n : Nat} {a b : UInt8} {p q : List UInt8} :
    strncmp (n + 1) (a :: p) (b :: q) = if a ≠ 0 ∧ a = b then strncmp n p q else a == b := rfl

theorem strncpy_cons {n : Nat} {b : UInt8} {q : List UInt8} :
    strncpy (b :: q) (n + 1) = b :: strncpy q n := by
  rw [strncpy, strncpy, List.take_succ_cons, List.length_cons, Nat.add_sub_add_right,
    List.cons_append]

theorem strncmp_strncpy {n : Nat} {p q : List UInt8} (hp : 0 ∉ p) (hq : 0 ∉ q) (hn : p.length ≤ n) :
    strncmp n p (strncpy q n) = decide (p = q.take n) := by
  induction n generalizing p q with
  | zero =>
    obtain rfl := List.length_eq_zero_iff.1 (Nat.le_zero.1 hn)
    rfl
  | succ n ih =>
    cases q with
    | nil =>
      cases p with
      | nil => rfl
      | cons a p =>
        have ha : a ≠ 0 := fun h => hp (h ▸ List.mem_cons_self ..)
        simp [strncmp, strncpy, List.replicate_succ, ha]
    | cons b q =>
      have hb : b ≠ 0 := fun h => hq (h ▸ List.mem_cons_self ..)
      rw [strncpy_cons]
      cases p with
      | nil => simp [strncmp, hb.symm]
      | cons a p =>
        have ha : a ≠ 0 := fun h => hp (h ▸ List.mem_cons_self ..)
        have hp' : 0 ∉ p := fun h => hp (List.mem_cons_of_mem _ h)
        have hq' : 0 ∉ q := fun h => hq (List.mem_cons_of_mem _ h)
        rw [strncmp_cons, List.take_succ_cons]
        by_cases hab : a = b
        · rw [if_pos ⟨ha, hab⟩, ih hp' hq' (Nat.le_of_succ_le_succ hn)]
          simp [hab]
        · rw [if_neg fun h => hab h.2]
          simp [hab]

theorem length_putDirent {inum : Nat} {name : List UInt8} :
    (putDirent inum name).length = DIRENTSIZE := by
  simp only [putDirent, strncpy, List.length_cons, List.length_append, List.length_take,
    List.length_replicate]
  unfold DIRSIZ DIRENTSIZE
  omega

theorem direntInum_putDirent {inum : Nat} {name : List UInt8} (h : inum < 65536) :
    direntInum (putDirent inum name) = inum := by
  rw [direntInum, putDirent, List.getD_cons_zero, List.getD_cons_succ, List.getD_cons_zero,
    UInt8.toNat_ofNat', UInt8.toNat_ofNat']
  omega

theorem direntName_putDirent {inum : Nat} {name : List UInt8} :
    direntName (putDirent inum name) = strncpy name DIRSIZ := rfl

theorem namecmp_dirent {inum : Nat} {name name' : List UInt8} (h : 0 ∉ name) (h' : 0 ∉ name')
    (hn : name.length ≤ DIRSIZ) :
    namecmp name (direntName (putDirent inum name')) = decide (name = name'.take DIRSIZ) :=
  strncmp_strncpy h h' hn

theorem readDirent_present {s : State} {dp : Nat} (off : Nat) {e : String} (hs : Good s dp)
    (hdev : (s.node dp).type ≠ T_DEV) (ho : off + DIRENTSIZE ≤ (s.node dp).size)
    (hp : Present s.disk (s.node dp) off DIRENTSIZE) :
    readDirent dp off e s = .ok (bytes s.disk (s.node dp) off DIRENTSIZE, s) := by
  have hsize := hs.fits.size
  have hread := readi_present (n := DIRENTSIZE) hs hdev (by omega) (by omega)
    (show DIRENTSIZE = min DIRENTSIZE ((s.node dp).size - off) by omega) hp
  rw [readDirent, bind_run hread]
  exact congrFun (if_pos (by rw [bytes, List.length_map, List.length_range])) s

theorem dirlookup_found {s s' : State} {dp k : Nat} {name : List UInt8} {entry : Nat → List UInt8}
    (hs : Good s dp) (hdir : (s.node dp).type = T_DIR)
    (hsize : DIRENTSIZE * (k + 1) ≤ (s.node dp).size)
    (hp : Present s.disk (s.node dp) 0 (DIRENTSIZE * (k + 1)))
    (hentry : ∀ j ≤ k, bytes s.disk (s.node dp) (DIRENTSIZE * j) DIRENTSIZE = entry j)
    (hbefore : ∀ j < k, ¬ (direntInum (entry j) ≠ 0 ∧ namecmp name (direntName (entry j)) = true))
    (hk : direntInum (entry k) ≠ 0 ∧ namecmp name (direntName (entry k)) = true)
    (hget : iget (direntInum (entry k)) s = .ok ((), s')) :
    dirlookup dp name s = .ok (some (direntInum (entry k), DIRENTSIZE * k), s') := by
  have hdev : (s.node dp).type ≠ T_DEV := by rw [hdir]; decide
  -- one turn of the loop, at the entry `j`
  have hturn : ∀ fuel j, j ≤ k → dirlookupFrom dp name (fuel + 1) (DIRENTSIZE * j) s =
      if direntInum (entry j) ≠ 0 ∧ namecmp name (direntName (entry j)) then
        (do
          iget (direntInum (entry j))
          return some (direntInum (entry j), DIRENTSIZE * j)) s
      else dirlookupFrom dp name fuel (DIRENTSIZE * (j + 1)) s := by
    intro fuel j hj
    have hle : DIRENTSIZE * (j + 1) ≤ DIRENTSIZE * (k + 1) := Nat.mul_le_mul_left _ (by omega)
    have hsucc : DIRENTSIZE * (j + 1) = DIRENTSIZE * j + DIRENTSIZE := Nat.mul_add_one ..
    have hpos : 0 < DIRENTSIZE := by decide
    have hread := readDirent_present (e := "dirlookup read") (DIRENTSIZE * j) hs hdev (by omega)
      fun o h1 h2 => hp o (Nat.zero_le _) (by omega)
    rw [dirlookupFrom, bind_run get_run, if_pos (by omega), bind_run hread, hentry j hj, ← hsucc]
    split <;> rfl
  have hloop : ∀ m j fuel, j + m = k → m < fuel →
      dirlookupFrom dp name fuel (DIRENTSIZE * j) s =
        .ok (some (direntInum (entry k), DIRENTSIZE * k), s') := by
    intro m
    induction m with
    | zero =>
      rintro j (_ | fuel) hj hfuel
      · cases hfuel
      · obtain rfl : j = k := hj
        rw [hturn fuel j (Nat.le_refl _), if_pos hk, bind_run hget]
        rfl
    | succ m ih =>
      rintro j (_ | fuel) hj hfuel
      · cases hfuel
      · rw [hturn fuel j (by omega), if_neg (hbefore j (by omega))]
        exact ih (j + 1) fuel (by omega) (by omega)
  have hfuel : k < (s.node dp).size / DIRENTSIZE + 1 := by
    have := Nat.div_le_div_right (c := DIRENTSIZE) hsize
    rw [Nat.mul_div_cancel_left _ (by decide)] at this
    omega
  rw [dirlookup, bind_run get_run]
  exact (congrFun (if_neg (not_not.2 hdir)) s).trans (hloop k 0 _ (Nat.zero_add k) hfuel)

end Fs
