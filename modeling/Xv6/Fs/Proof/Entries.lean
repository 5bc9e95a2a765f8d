import Mathlib.Data.List.GetD
import Mathlib.Data.List.TakeWhile
import Xv6.Fs.Proof.Dir

/-!
# Directories as lists of entries

The names are compared up to `DIRSIZ` bytes, and the name of an entry ends at its first zero.
-/

namespace Fs

open Log (Disk)
open Panic
/-! ## Entries -/

def entryName (de : List UInt8) : List UInt8 := (direntName de).takeWhile (· != 0)

def entryIs (name de : List UInt8) : Bool :=
  direntInum de != 0 && entryName de == name.take DIRSIZ

def dirents (disk : Disk) (d : Dinode) : List (List UInt8) :=
  (List.range (d.size / DIRENTSIZE)).map fun k => bytes disk d (DIRENTSIZE * k) DIRENTSIZE

def lookupIn (name : List UInt8) (des : List (List UInt8)) : Option (Nat × Nat) :=
  (des.findIdx? (entryIs name)).map fun k => (direntInum (des.getD k []), DIRENTSIZE * k)

structure Full (disk : Disk) (d : Dinode) : Prop where
  aligned : DIRENTSIZE ∣ d.size
  present : Present disk d 0 d.size

/-! ## Names -/

theorem strncmp_cut {n : Nat} {p q : List UInt8} :
    strncmp n p q = decide ((p.take n).takeWhile (· != 0) = (q.take n).takeWhile (· != 0)) := by
  induction n generalizing p q with
  | zero => rfl
  | succ n ih =>
    cases p with
    | nil =>
      cases q with
      | nil => rfl
      | cons b q =>
        by_cases hb : b = 0
        · subst hb
          rfl
        · simp [strncmp, hb, Ne.symm hb]
    | cons a p =>
      by_cases ha : a = 0
      · subst ha
        cases q with
        | nil => rfl
        | cons b q =>
          by_cases hb : b = 0
          · subst hb
            rfl
          · simp [strncmp, hb, Ne.symm hb]
      · cases q with
        | nil => simp [strncmp, ha]
        | cons b q =>
          rw [strncmp_cons, List.take_succ_cons, List.take_succ_cons]
          by_cases hab : a = b
          · subst hab
            rw [if_pos ⟨ha, rfl⟩, ih]
            simp [ha]
          · rw [if_neg fun h => hab h.2]
            by_cases hb : b = 0
            · subst hb
              simp [ha]
            · simp [ha, hb, hab]

theorem takeWhile_take {name : List UInt8} {n : Nat} (h0 : 0 ∉ name) :
    (name.take n).takeWhile (· != 0) = name.take n := by
  refine List.takeWhile_eq_self_iff.2 fun a ha => bne_iff_ne.2 ?_
  rintro rfl
  exact h0 (List.mem_of_mem_take ha)

theorem length_direntName {de : List UInt8} (h : de.length = DIRENTSIZE) :
    (direntName de).length = DIRSIZ := by
  rw [direntName, List.length_drop, h]
  rfl

theorem entryName_eq {de : List UInt8} (h : de.length = DIRENTSIZE) :
    ((direntName de).take DIRSIZ).takeWhile (· != 0) = entryName de := by
  rw [List.take_of_length_le (length_direntName h).le, entryName]

theorem namecmp_entryName {name de : List UInt8} (h0 : 0 ∉ name) (h : de.length = DIRENTSIZE) :
    namecmp name (direntName de) = (entryName de == name.take DIRSIZ) := by
  rw [namecmp, strncmp_cut, takeWhile_take h0, entryName_eq h, Bool.beq_eq_decide_eq]
  exact decide_eq_decide.2 eq_comm

theorem namecmp_entries {a b : List UInt8} (ha : a.length = DIRENTSIZE) (hb : b.length = DIRENTSIZE) :
    namecmp (direntName a) (direntName b) = (entryName a == entryName b) := by
  rw [namecmp, strncmp_cut, entryName_eq ha, entryName_eq hb, Bool.beq_eq_decide_eq]

/-! ## Lookup -/

section
variable {s : State} {dp : Nat} {name : List UInt8}

theorem length_bytes {disk : Disk} {d : Dinode} {off n : Nat} : (bytes disk d off n).length = n := by
  rw [bytes, List.length_map, List.length_range]

theorem length_dirents {disk : Disk} {d : Dinode} :
    (dirents disk d).length = d.size / DIRENTSIZE := by
  rw [dirents, List.length_map, List.length_range]

theorem mem_dirents_length {disk : Disk} {d : Dinode} {de : List UInt8} (h : de ∈ dirents disk d) :
    de.length = DIRENTSIZE := by
  obtain ⟨k, -, rfl⟩ := List.mem_map.1 h
  exact length_bytes

theorem lookupIn_some {des : List (List UInt8)} {q : Nat × Nat} (h : lookupIn name des = some q) :
    ∃ k de, des[k]? = some de ∧ entryIs name de = true ∧ q = (direntInum de, DIRENTSIZE * k) := by
  rw [lookupIn, Option.map_eq_some_iff] at h
  obtain ⟨k, hk, rfl⟩ := h
  obtain ⟨hlt, his, -⟩ := List.findIdx?_eq_some_iff_getElem.1 hk
  exact ⟨k, des[k], List.getElem?_eq_getElem hlt, his, by rw [List.getD_eq_getElem _ _ hlt]⟩

theorem entryIs_inum {de : List UInt8} (h : entryIs name de = true) : direntInum de ≠ 0 := by
  rw [entryIs, Bool.and_eq_true, bne_iff_ne] at h
  exact h.1

theorem getElem?_dirents {disk : Disk} {d : Dinode} {k : Nat} : (dirents disk d)[k]? =
    if k < d.size / DIRENTSIZE then some (bytes disk d (DIRENTSIZE * k) DIRENTSIZE) else none := by
  rw [dirents, List.getElem?_map]
  split
  · rw [List.getElem?_range ‹_›, Option.map_some]
  · rw [List.getElem?_eq_none (by rw [List.length_range]; omega), Option.map_none]

theorem dirents_end {k : Nat} (hf : Full s.disk (s.node dp))
    (h : (dirents s.disk (s.node dp)).drop k = []) : ¬ DIRENTSIZE * k < (s.node dp).size := by
  have hlen := List.drop_eq_nil_iff.1 h
  rw [length_dirents] at hlen
  rw [Nat.not_lt, ← Nat.mul_div_cancel' hf.aligned]
  exact Nat.mul_le_mul_left _ hlen

theorem dirents_next {k : Nat} {de : List UInt8} {des : List (List UInt8)} {e : String}
    (hs : Good s dp) (hdir : (s.node dp).type = T_DIR) (hf : Full s.disk (s.node dp))
    (h : (dirents s.disk (s.node dp)).drop k = de :: des) :
    DIRENTSIZE * k < (s.node dp).size ∧ readDirent dp (DIRENTSIZE * k) e s = .ok (de, s) ∧
      de.length = DIRENTSIZE ∧ (dirents s.disk (s.node dp)).drop (k + 1) = des := by
  have hk : k < (dirents s.disk (s.node dp)).length := by
    by_contra hge
    rw [List.drop_eq_nil_iff.2 (Nat.not_lt.1 hge)] at h
    cases h
  rw [List.drop_eq_getElem_cons hk] at h
  obtain ⟨hde, hdes⟩ := List.cons.inj h
  have hk' := hk
  rw [length_dirents] at hk'
  have hle : DIRENTSIZE * (k + 1) ≤ (s.node dp).size :=
    (Nat.mul_le_mul_left _ hk').trans (Nat.mul_div_le ..)
  rw [Nat.mul_add_one] at hle
  have hpos : 0 < DIRENTSIZE := by decide
  have hde' : bytes s.disk (s.node dp) (DIRENTSIZE * k) DIRENTSIZE = de := by
    rw [← hde]
    simp only [dirents, List.getElem_map, List.getElem_range]
  refine ⟨by omega, ?_, hde ▸ mem_dirents_length (List.getElem_mem hk), hdes⟩
  rw [← hde']
  exact readDirent_present _ hs (by rw [hdir]; decide) hle fun o _ ho =>
    hf.present o (Nat.zero_le _) (by omega)

theorem dirlookupFrom_run {des : List (List UInt8)} {k fuel : Nat} (hs : Good s dp)
    (hdir : (s.node dp).type = T_DIR) (hf : Full s.disk (s.node dp)) (h0 : 0 ∉ name)
    (hdes : (dirents s.disk (s.node dp)).drop k = des) (hfuel : des.length < fuel) :
    dirlookupFrom dp name fuel (DIRENTSIZE * k) s =
      (match des.findIdx? (entryIs name) with
        | none => pure none
        | some j => do
          iget (direntInum (des.getD j []))
          return some (direntInum (des.getD j []), DIRENTSIZE * (k + j)) : FsM _) s := by
  induction des generalizing k fuel with
  | nil =>
    cases fuel with
    | zero => cases hfuel
    | succ fuel =>
      rw [dirlookupFrom, bind_run get_run, if_neg (dirents_end hf hdes)]
      rfl
  | cons de des ih =>
    obtain ⟨hlt, hread, hlen, hrest⟩ := dirents_next (e := "dirlookup read") hs hdir hf hdes
    cases fuel with
    | zero => cases hfuel
    | succ fuel =>
      rw [dirlookupFrom, bind_run get_run, if_pos hlt, bind_run hread,
        namecmp_entryName h0 hlen, List.findIdx?_cons]
      by_cases hm : entryIs name de = true
      · have hm' := hm
        rw [entryIs, Bool.and_eq_true, bne_iff_ne] at hm'
        rw [if_pos hm', if_pos hm]
        rfl
      · have hm' := hm
        rw [entryIs, Bool.and_eq_true, bne_iff_ne] at hm'
        rw [if_neg hm', if_neg hm, ← Nat.mul_add_one, ih hrest (Nat.lt_of_succ_lt_succ hfuel)]
        cases des.findIdx? (entryIs name) with
        | none => rfl
        | some j =>
          simp only [Option.map_some, List.getD_cons_succ]
          rw [Nat.add_right_comm, Nat.add_assoc]

theorem dirlookup_run (name : List UInt8) (hs : Good s dp) (hdir : (s.node dp).type = T_DIR)
    (hf : Full s.disk (s.node dp)) (h0 : 0 ∉ name) :
    dirlookup dp name s = (match lookupIn name (dirents s.disk (s.node dp)) with
      | none => pure none
      | some q => do
        iget q.1
        return some q : FsM _) s := by
  have hloop : dirlookupFrom dp name ((s.node dp).size / DIRENTSIZE + 1) (DIRENTSIZE * 0) s = _ :=
    dirlookupFrom_run hs hdir hf h0 rfl (by
      rw [List.drop_zero, length_dirents]
      exact Nat.lt_succ_self _)
  rw [dirlookup, bind_run get_run]
  refine (congrFun (if_neg (not_not.2 hdir)) s).trans (hloop.trans ?_)
  rw [List.drop_zero, lookupIn]
  cases (dirents s.disk (s.node dp)).findIdx? (entryIs name) with
  | none => rfl
  | some j =>
    simp only [Option.map_some, Nat.zero_add]

end

end Fs
