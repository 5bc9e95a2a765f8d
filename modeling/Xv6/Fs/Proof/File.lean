import Mathlib.Data.Finset.Union
import Xv6.Fs.Proof.Bmap

/-!
# Files are byte arrays

The loops of `readi` and `writei` go through a range of a file block by block. Each turn allocates the
pointers of its block that are missing; what the file is read as does not change by that.
-/

namespace Fs

open Bytes Finset
open Function
open Log (Block Disk)
open Panic
open Param

variable {s s' s'' : State} {i b k off n m : Nat}

/-! ## Ranges -/

def touched (off n : Nat) : Finset Nat :=
  (range n).biUnion fun k => touch ((off + k) / BSIZE)

theorem touched_add : touched off (m + n) = touched off m ∪ touched (off + m) n := by
  ext k
  simp only [touched, mem_union, mem_biUnion, mem_range]
  constructor
  · rintro ⟨j, hj, hk⟩
    by_cases hjm : j < m
    · exact .inl ⟨j, hjm, hk⟩
    · exact .inr ⟨j - m, by omega, by rwa [show off + m + (j - m) = off + j by omega]⟩
  · rintro (⟨j, hj, hk⟩ | ⟨j, hj, hk⟩)
    · exact ⟨j, by omega, hk⟩
    · exact ⟨m + j, by omega, by rwa [← Nat.add_assoc]⟩

theorem touched_split (hm : 0 < m) (hmn : m ≤ n) (hb : m ≤ BSIZE - off % BSIZE) :
    touched off n = touch (off / BSIZE) ∪ touched (off + m) (n - m) := by
  have hsame : ∀ k < m, (off + k) / BSIZE = off / BSIZE := by
    intro k hk
    unfold BSIZE at hb ⊢
    omega
  ext x
  simp only [touched, mem_biUnion, mem_range, mem_union]
  constructor
  · rintro ⟨k, hk, hx⟩
    by_cases hkm : k < m
    · rw [hsame k hkm] at hx
      exact .inl hx
    · refine .inr ⟨k - m, by omega, ?_⟩
      rwa [Nat.add_assoc, Nat.add_sub_cancel' (Nat.not_lt.1 hkm)]
  · rintro (hx | ⟨k, hk, hx⟩)
    · exact ⟨0, by omega, by rwa [Nat.add_zero]⟩
    · exact ⟨m + k, by omega, by rwa [← Nat.add_assoc]⟩

theorem touch_lt {bn : Nat} (h : bn < MAXFILE) (hk : k ∈ touch bn) : k < NSLOT := by
  unfold MAXFILE at h
  unfold touch at hk
  unfold NSLOT
  split at hk
  · rw [mem_singleton] at hk
    omega
  · rw [mem_insert, mem_singleton] at hk
    omega

theorem touched_lt (h : off + n ≤ MAXFILE * BSIZE) (hk : k ∈ touched off n) : k < NSLOT := by
  obtain ⟨j, hj, hk⟩ := mem_biUnion.1 hk
  refine touch_lt ?_ hk
  rw [mem_range] at hj
  exact Nat.div_lt_of_lt_mul (by rw [Nat.mul_comm]; omega)

theorem State.missing_union {T R : Finset Nat}
    (hfresh : ∀ k ∈ s.missing i T, ptr s'.disk (s'.node i) k ≠ 0)
    (hkeep : ∀ k < NSLOT, k ∉ s.missing i T →
      ptr s'.disk (s'.node i) k = ptr s.disk (s.node i) k) (hR : ∀ k ∈ R, k < NSLOT) :
    Disjoint (s.missing i T) (s'.missing i R) ∧
      s.missing i T ∪ s'.missing i R = s.missing i (T ∪ R) := by
  refine ⟨?_, ?_⟩
  · rw [disjoint_left]
    intro k hk hk'
    exact hfresh k hk (mem_filter.1 hk').2
  ext k
  simp only [State.missing, mem_union, mem_filter]
  constructor
  · rintro (⟨hk, hz⟩ | ⟨hk, hz⟩)
    · exact ⟨.inl hk, hz⟩
    · refine ⟨.inr hk, ?_⟩
      by_cases hm : k ∈ s.missing i T
      · exact absurd hz (hfresh k hm)
      · rw [← hkeep k (hR k hk) hm]
        exact hz
  · rintro ⟨hk, hz⟩
    by_cases hm : k ∈ s.missing i T
    · exact .inl (mem_filter.1 hm)
    · have hkR := hk.resolve_left fun hT => hm (mem_filter.2 ⟨hT, hz⟩)
      refine .inr ⟨hkR, ?_⟩
      rw [hkeep k (hR k hkR) hm]
      exact hz

theorem Pointed.missing_union {T R : Finset Nat} (h : Pointed i (s.missing i T) s s')
    (hR : ∀ k ∈ R, k < NSLOT) : Disjoint (s.missing i T) (s'.missing i R) ∧
      s.missing i T ∪ s'.missing i R = s.missing i (T ∪ R) :=
  State.missing_union (fun k hk => (h.fresh k hk).2.2) h.keep hR

/-- Too few free blocks for the second part of a run. -/
theorem Pointed.free_lt {T R : Finset Nat} (h : Pointed i (s.missing i T) s s')
    (hR : ∀ k ∈ R, k < NSLOT) (hf : s'.free < (s'.missing i R).card) :
    s.free < (s.missing i (T ∪ R)).card := by
  obtain ⟨hd, hu⟩ := h.missing_union hR
  rw [← hu, card_union_of_disjoint hd, ← h.free]
  omega

/-! ## `readi` -/

theorem bytes_split (o : Nat) (hmn : m ≤ n) {disk : Disk} {d : Dinode} :
    bytes disk d o n = bytes disk d o m ++ bytes disk d (o + m) (n - m) := by
  obtain ⟨j, rfl⟩ := Nat.exists_eq_add_of_le hmn
  rw [Nat.add_sub_cancel_left, bytes, List.range_add, List.map_append, List.map_map]
  simp only [bytes, Function.comp_def, Nat.add_assoc]

theorem byte_block {disk : Disk} {d : Dinode} (hk : off % BSIZE + k < BSIZE)
    (hb : ptr disk d (slot (off / BSIZE)) = b) (hne : b ≠ 0) :
    byte disk d (off + k) = disk b (off % BSIZE + k) := by
  have h1 : (off + k) / BSIZE = off / BSIZE := by
    unfold BSIZE at *
    omega
  have h2 : (off + k) % BSIZE = off % BSIZE + k := by
    unfold BSIZE at *
    omega
  rw [byte, h1, h2, hb]
  simp only [if_neg hne]

theorem bytes_of_grown {K : Finset Nat} (h : Grown i K s s') (hs : Good s i) (hs' : Good s' i)
    (hn : off + n ≤ MAXFILE * BSIZE) :
    bytes s'.disk (s'.node i) off n = bytes s.disk (s.node i) off n := by
  refine List.map_congr_left fun k hk => ?_
  rw [← hs'.cur, ← hs.cur]
  refine h.bytes i hs.live _ (Nat.div_lt_of_lt_mul ?_)
  rw [List.mem_range] at hk
  rw [Nat.mul_comm]
  omega

theorem readLoop_spec {fuel : Nat} (hs : Good s i) (hf : n ≤ fuel) (hn : off + n ≤ MAXFILE * BSIZE) :
    Ends (readLoop i fuel off n) s
      (fun bs s' => Good s' i ∧ Grown i (s.missing i (touched off n)) s s' ∧
        bs = bytes s.disk (s.node i) off n)
      (fun e => e = "balloc: out of blocks" ∧ s.free < (s.missing i (touched off n)).card) := by
  induction fuel generalizing s off n with
  | zero =>
    obtain rfl := Nat.le_zero.1 hf
    exact .of_pure ⟨hs, .refl, rfl⟩
  | succ fuel ih =>
    rw [readLoop]
    refine .ite (fun h0 => ?_) fun h0 => ?_
    · subst h0
      exact .of_pure ⟨hs, .refl, rfl⟩
    -- one block, then the rest
    generalize hmd : min n (BSIZE - off % BSIZE) = m
    have hpos : 0 < m := by
      have : off % BSIZE < BSIZE := Nat.mod_lt _ (by decide)
      omega
    have hmn : m ≤ n := by omega
    have hbn : off / BSIZE < MAXFILE := Nat.div_lt_of_lt_mul (by rw [Nat.mul_comm]; omega)
    have hrest : off + m + (n - m) ≤ MAXFILE * BSIZE := by omega
    have hR : ∀ k ∈ touched (off + m) (n - m), k < NSLOT := fun k => touched_lt hrest
    rw [touched_split hpos hmn (by omega)]
    refine .bind ((bmap_spec hs hbn).weaken fun e he => ?_) ?_
    · exact ⟨he.1, Nat.lt_of_lt_of_le he.2
        (card_le_card (filter_subset_filter _ subset_union_left))⟩
    rintro b s1 ⟨hs1, hg1, hb, hne⟩
    have hdata : s1.sb.IsData b := (hs1.data_of (slot_lt hbn) hb hne).1
    refine .run (bread_run (hs1.geo.lt_FSSIZE hdata)) ?_
    refine .bind ((ih hs1 (by omega) hrest).weaken fun e he => ?_) ?_
    · exact ⟨he.1, hg1.free_lt hR he.2⟩
    rintro rest s2 ⟨hs2, hg2, rfl⟩
    refine .of_pure ⟨hs2, ?_, ?_⟩
    · have := hg1.trans hg2 hs hs1
      rwa [(hg1.missing_union hR).2] at this
    · have hfirst := bytes_of_grown hg1 hs hs1 (show off + m ≤ MAXFILE * BSIZE by omega)
      rw [bytes_split _ hmn, bytes_of_grown hg1 hs hs1 hrest, ← hfirst]
      congr 1
      refine List.map_congr_left fun k hk => ?_
      rw [List.mem_range] at hk
      rw [byte_block (by omega) hb hne]

theorem readLoop_range {fuel : Nat} (hs : Good s i) (hf : n ≤ fuel) (h0 : n ≠ 0)
    (hn : MAXFILE * BSIZE < off + n) :
    Ends (readLoop i fuel off n) s (fun _ _ => False) (fun _ => True) := by
  induction fuel generalizing s off n with
  | zero => exact absurd (Nat.le_zero.1 hf) h0
  | succ fuel ih =>
    rw [readLoop, if_neg h0]
    by_cases hbn : off / BSIZE < MAXFILE
    · refine .bind ((bmap_spec hs hbn).weaken fun _ _ => trivial) ?_
      rintro b s1 ⟨hs1, -, -, -⟩
      refine .bind (bread_spec.weaken fun _ _ => trivial) ?_
      rintro bp _ ⟨-, rfl⟩
      -- this block is not the last one
      have hblock : off % BSIZE + BSIZE * (off / BSIZE) = off := Nat.mod_add_div ..
      have hle : BSIZE * (off / BSIZE) + BSIZE ≤ MAXFILE * BSIZE := by
        rw [Nat.mul_comm MAXFILE, ← Nat.mul_succ]
        exact Nat.mul_le_mul_left _ hbn
      have hlt : off % BSIZE < BSIZE := Nat.mod_lt _ (by decide)
      exact .bind (ih hs1 (by omega) (by omega) (by omega)) fun _ _ h => h.elim
    · exact .of_error (bind_error (bmap_range (Nat.not_lt.1 hbn))) trivial

theorem wraps_iff (ho : off < 2 ^ 32) (hn : n < 2 ^ 32) :
    (off + n) % 2 ^ 32 < off ↔ 2 ^ 32 ≤ off + n := by
  omega

/-- **`readi`** refuses the read, or returns the bytes as long as there are free blocks for the ones
that are missing. -/
theorem readi_spec (hs : Good s i) (hdev : (s.node i).type ≠ T_DEV) (ho : off < 2 ^ 32)
    (hn : n < 2 ^ 32) (hm : m = min n ((s.node i).size - off)) : Ends (readi i off n) s
      (fun r s' => (((s.node i).size < off ∨ 2 ^ 32 ≤ off + n) ∧ r = none ∧ s' = s) ∨
        (¬ ((s.node i).size < off ∨ 2 ^ 32 ≤ off + n) ∧ (m = 0 ∨ off + m ≤ MAXFILE * BSIZE) ∧
          r = some (bytes s.disk (s.node i) off m) ∧ Good s' i ∧
          Grown i (s.missing i (touched off m)) s s'))
      (fun _ => ¬ ((s.node i).size < off ∨ 2 ^ 32 ≤ off + n) ∧
        (m ≠ 0 ∧ MAXFILE * BSIZE < off + m ∨ s.free < (s.missing i (touched off m)).card)) := by
  rw [readi]
  refine .run get_run (.ite (fun h => absurd h hdev) fun _ => ?_)
  refine .ite (fun hbad => .of_pure (.inl ⟨?_, rfl, rfl⟩)) fun hgood => ?_
  · rwa [wraps_iff ho hn] at hbad
  rw [wraps_iff ho hn] at hgood
  rw [← hm]
  have hmn : m ≤ n := hm ▸ Nat.min_le_left ..
  by_cases hr : m = 0 ∨ off + m ≤ MAXFILE * BSIZE
  · refine .bind (Q := fun bs s' => Good s' i ∧ Grown i (s.missing i (touched off m)) s s' ∧
      bs = bytes s.disk (s.node i) off m) ?_ ?_
    · rcases hr with rfl | hr
      · cases n with
        | zero => exact .of_pure ⟨hs, .refl, rfl⟩
        | succ n => exact .of_pure ⟨hs, .refl, rfl⟩
      · exact (readLoop_spec hs hmn hr).weaken fun e he => ⟨hgood, .inr he.2⟩
    · rintro bs s' ⟨hs', hg, rfl⟩
      exact .of_pure (.inr ⟨hgood, hr, rfl, hs', hg⟩)
  · rw [not_or, Nat.not_le] at hr
    exact .bind ((readLoop_range hs hmn hr.1 hr.2).weaken fun e _ =>
      ⟨hgood, .inl hr⟩) fun _ _ h => h.elim

/-! ## `writei` -/

def overlay (f : Nat → UInt8) (off : Nat) (data : List UInt8) (o : Nat) : UInt8 :=
  if off ≤ o ∧ o < off + data.length then data.getD (o - off) 0 else f o

theorem overlay_nil {f : Nat → UInt8} {o : Nat} : overlay f off [] o = f o :=
  if_neg fun h => by
    rw [List.length_nil] at h
    omega

theorem bytes_append {disk disk' : Disk} {d d' : Dinode} {data : List UInt8} {z : Nat}
    (hmax : z + data.length ≤ MAXFILE * BSIZE)
    (h : ∀ o, o / BSIZE < MAXFILE → byte disk' d' o = overlay (byte disk d) z data o) :
    bytes disk' d' 0 (z + data.length) = bytes disk d 0 z ++ data := by
  have hlt : ∀ o < z + data.length, o / BSIZE < MAXFILE := fun o ho =>
    Nat.div_lt_of_lt_mul (by rw [Nat.mul_comm]; omega)
  rw [bytes_split _ (Nat.le_add_right z _), Nat.add_sub_cancel_left]
  congr 1
  · refine List.map_congr_left fun o ho => ?_
    rw [List.mem_range] at ho
    rw [h _ (hlt _ (by omega)), overlay, if_neg (by omega)]
  · refine List.ext_getElem (by simp [bytes]) fun o ho ho' => ?_
    simp only [bytes, List.getElem_map, List.getElem_range]
    rw [h _ (hlt _ (by omega)), overlay, if_pos (by omega), Nat.zero_add,
      Nat.add_sub_cancel_left, List.getD_eq_getElem?_getD, List.getElem?_eq_getElem ho',
      Option.getD_some]

theorem overlay_split {f : Nat → UInt8} {data : List UInt8} {o : Nat} (hm : m ≤ data.length) :
    overlay (overlay f off (data.take m)) (off + m) (data.drop m) o = overlay f off data o := by
  unfold overlay
  rw [List.length_take, List.length_drop, Nat.min_eq_left hm]
  by_cases h1 : off + m ≤ o ∧ o < off + m + (data.length - m)
  · rw [if_pos h1, if_pos (by omega), List.getD_eq_getElem?_getD, List.getD_eq_getElem?_getD,
      List.getElem?_drop]
    congr 2
    omega
  · rw [if_neg h1]
    by_cases h2 : off ≤ o ∧ o < off + m
    · rw [if_pos h2, if_pos (by omega), List.getD_eq_getElem?_getD, List.getD_eq_getElem?_getD,
        List.getElem?_take_of_lt (by omega)]
    · rw [if_neg h2, if_neg (by omega)]

structure Wrote (i : Nat) (K : Finset Nat) (off : Nat) (data : List UInt8) (s s' : State) : Prop
    extends Pointed i K s s' where
  self_byte : ∀ o, o / BSIZE < MAXFILE →
    byte s'.disk (s'.node i) o = overlay (byte s.disk (s.node i)) off data o
  other_byte : ∀ j ≠ i, Live s.sb s.cur j → ∀ o, o / BSIZE < MAXFILE →
    byte s'.disk (s'.cur j) o = byte s.disk (s.cur j) o

section
variable {K L : Finset Nat} {data : List UInt8}

theorem Wrote.refl : Wrote i ∅ off [] s s where
  toPointed := .refl
  self_byte _ _ := overlay_nil.symm
  other_byte _ _ _ _ _ := rfl

theorem Wrote.after_grown (h : Grown i K s s') (h' : Wrote i L off data s' s'') (hs : Good s i)
    (hs' : Good s' i) : Wrote i (K ∪ L) off data s s'' where
  toPointed := h.toPointed.trans h'.toPointed hs hs'
  self_byte o ho := by
    have hself := h.bytes i hs.live o ho
    rw [hs.cur, hs'.cur] at hself
    rw [h'.self_byte o ho, overlay, overlay, hself]
  other_byte j hj hl o ho := by
    rw [h'.other_byte j hj ((h.live_iff hs hs' j).2 hl) o ho, h.bytes j hl o ho]

theorem Wrote.trans (h : Wrote i K off (data.take m) s s')
    (h' : Wrote i L (off + m) (data.drop m) s' s'') (hs : Good s i) (hs' : Good s' i)
    (hm : m ≤ data.length) : Wrote i (K ∪ L) off data s s'' where
  toPointed := h.toPointed.trans h'.toPointed hs hs'
  self_byte o ho := by
    rw [h'.self_byte o ho, ← overlay_split hm, overlay, h.self_byte o ho]
    rfl
  other_byte j hj hl o ho := by
    rw [h'.other_byte j hj ((h.live_iff hs hs' j).2 hl) o ho, h.other_byte j hj hl o ho]

end

theorem Good.write_block (hs : Good s i) (data : List UInt8)
    (hb : ptr s.disk (s.node i) (slot (off / BSIZE)) = b) (hne : b ≠ 0)
    (hbn : off / BSIZE < MAXFILE) (hm : m ≤ data.length) (hblock : off % BSIZE + m ≤ BSIZE) :
    let s' := s.setBlock b (copy (s.disk b) (off % BSIZE) (fun k => data.getD k 0) 0 m)
    Good s' i ∧ Wrote i ∅ off (data.take m) s s' := by
  intro s'
  have hsl := slot_lt hbn
  have hb' : ptr s.disk (s.cur i) (slot (off / BSIZE)) = b := by rw [hs.cur, hb]
  have hdata : s.sb.IsData b := (hs.data_of hsl hb hne).1
  have hself : s'.disk b = copy (s.disk b) (off % BSIZE) (fun k => data.getD k 0) 0 m :=
    update_self ..
  have hother : ∀ x, x ≠ b → s'.disk x = s.disk x := fun x hx => update_of_ne hx ..
  have hbm := hs.geo.bitmap
  have hlow : ∀ x < s.sb.bmapstart, s'.disk x = s.disk x := fun x hx =>
    hother x (by have := hdata.1; omega)
  have hcur : ∀ j < s.sb.ninodes, s'.cur j = s.cur j := by
    intro j hj
    change (if _ then _ else getDinode (s'.disk (s.sb.iblock j)) _) = _
    rw [hlow _ (hs.geo.inodes j hj)]
    rfl
  have hused : ∀ x < s.sb.size, used s.sb s'.disk x = used s.sb s.disk x := by
    intro x hx
    rw [hs.geo.used_eq hx, hs.geo.used_eq hx, hother _ (by have := hdata.1; omega)]
  -- the block of a pointer that is not the one written to
  have hkeep : ∀ j l, Live s.sb s.cur j → l < NSLOT → ptr s.disk (s.cur j) l ≠ 0 →
      ¬ (j = i ∧ l = slot (off / BSIZE)) → s'.disk (ptr s.disk (s.cur j) l) =
        s.disk (ptr s.disk (s.cur j) l) := by
    intro j l hj hl h0 hn
    refine hother _ fun he => hn ?_
    exact hs.owned.once j l i _ hj hs.live hl hsl h0 (by rw [he, hb'])
  have hptr : ∀ j l, Live s.sb s.cur j → ptr s'.disk (s'.cur j) l = ptr s.disk (s.cur j) l := by
    intro j l hj
    rw [hcur j hj.1]
    refine ptr_congr fun h => ?_
    have hp : ptr s.disk (s.cur j) NDIRECT = (s.cur j).addrs NDIRECT := ptr_addrs (Nat.le_refl _)
    rw [← hp] at h ⊢
    exact hkeep j _ hj (by decide) h fun he => slot_ne he.2.symm
  have hlive : ∀ j, Live s.sb s'.cur j ↔ Live s.sb s.cur j := fun j =>
    and_congr_right fun hj => by rw [hcur j hj]
  have hown : Owned s.sb s'.disk s'.cur :=
    hs.owned.congr hs.geo hlive (fun j l hj _ => hptr j l hj) hused
  have hgood : Good s' i := ⟨hs.log, hs.geo, hown, hs.valid, (hlive i).2 hs.live, hs.fits⟩
  refine ⟨hgood, ⟨⟨rfl, ⟨rfl, rfl⟩, hlow, fun _ _ => rfl, ⟨_, rfl⟩, fun k hk => ?_, fun k _ _ => ?_,
    fun j _ hj k _ => hptr j k hj, ?_⟩, fun o ho => ?_, fun j hji hj o ho => ?_⟩⟩
  · exact absurd hk (notMem_empty k)
  · have := hptr i k hs.live
    rwa [hs.cur, hgood.cur] at this
  · rw [card_empty, Nat.add_zero, State.free, State.free]
    congr 1
    refine filter_congr fun x hx => ?_
    rw [← hused x (mem_range.1 hx)]
    rfl
  · have hp := hptr i (slot (o / BSIZE)) hs.live
    rw [hgood.cur, hs.cur] at hp
    have hlen : (data.take m).length = m := by rw [List.length_take, Nat.min_eq_left hm]
    by_cases hsame : o / BSIZE = off / BSIZE
    · rw [byte, hp, hsame, hb, overlay, byte, hsame, hb, hlen]
      simp only [if_neg hne]
      rw [hself, copy]
      by_cases hin : off ≤ o ∧ o < off + m
      · rw [if_pos (by unfold BSIZE at *; omega), if_pos hin, List.getD_eq_getElem?_getD,
          List.getD_eq_getElem?_getD, List.getElem?_take_of_lt (by omega)]
        congr 2
        unfold BSIZE at *
        omega
      · rw [if_neg (by unfold BSIZE at *; omega), if_neg hin]
    · rw [overlay, hlen, if_neg (by unfold BSIZE at *; omega), byte, hp, byte]
      split
      · rfl
      · rename_i h0
        have := hkeep i _ hs.live (slot_lt ho) (by rw [hs.cur]; exact h0)
          fun he => hsame (slot_inj he.2)
        rw [hs.cur] at this
        rw [this]
  · simp only [byte, hptr j _ hj]
    split
    · rfl
    · rename_i h0
      rw [hkeep j _ hj (slot_lt ho) h0 fun he => hji he.1]

theorem writeLoop_spec {fuel : Nat} {data : List UInt8} (hs : Good s i) (hf : data.length ≤ fuel)
    (hn : off + data.length ≤ MAXFILE * BSIZE) : Ends (writeLoop i fuel off data) s
      (fun _ s' => Good s' i ∧ Wrote i (s.missing i (touched off data.length)) off data s s')
      (fun e => e = "balloc: out of blocks" ∧
        s.free < (s.missing i (touched off data.length)).card) := by
  induction fuel generalizing s off data with
  | zero =>
    obtain rfl := List.length_eq_zero_iff.1 (Nat.le_zero.1 hf)
    exact .of_pure ⟨hs, .refl⟩
  | succ fuel ih =>
    rw [writeLoop]
    refine .ite (fun h0 => ?_) fun h0 => ?_
    · subst h0
      exact .of_pure ⟨hs, .refl⟩
    have hlen := List.length_pos_iff.2 h0
    -- one block, then the rest
    generalize hmd : min data.length (BSIZE - off % BSIZE) = m
    have hmod : off % BSIZE < BSIZE := Nat.mod_lt _ (by decide)
    have hpos : 0 < m := by omega
    have hmn : m ≤ data.length := by omega
    have hbn : off / BSIZE < MAXFILE := Nat.div_lt_of_lt_mul (by rw [Nat.mul_comm]; omega)
    have hdrop : (data.drop m).length = data.length - m := List.length_drop
    have hrest : off + m + (data.drop m).length ≤ MAXFILE * BSIZE := by omega
    have hR : ∀ k ∈ touched (off + m) (data.drop m).length, k < NSLOT := fun k => touched_lt hrest
    rw [touched_split hpos hmn (by omega), ← hdrop]
    refine .bind ((bmap_spec hs hbn).weaken fun e he => ?_) ?_
    · exact ⟨he.1, Nat.lt_of_lt_of_le he.2
        (card_le_card (filter_subset_filter _ subset_union_left))⟩
    rintro b s1 ⟨hs1, hg1, hb, hne⟩
    have hdata : s1.sb.IsData b := (hs1.data_of (slot_lt hbn) hb hne).1
    obtain ⟨hs2, hw2⟩ := hs1.write_block data hb hne hbn hmn (show off % BSIZE + m ≤ BSIZE by omega)
    refine .run (bread_run (hs1.geo.lt_FSSIZE hdata)) (.run (logWrite_run hs1.log) ?_)
    have hw := Wrote.after_grown hg1 hw2 hs hs1
    rw [union_empty] at hw
    refine (ih hs2 (by omega) hrest).mono ?_ fun e he => ?_
    · rintro _ s3 ⟨hs3, hw3⟩
      refine ⟨hs3, ?_⟩
      have := hw.trans hw3 hs hs2 hmn
      rwa [(hw.missing_union hR).2] at this
    · exact ⟨he.1, hw.free_lt hR he.2⟩

/-! ## `iupdate` -/

def updateDisk (sb : Super) (disk : Disk) (i : Nat) (d : Dinode) : Disk :=
  update disk (sb.iblock i) (putDinode (disk (sb.iblock i)) (i % IPB) d)

section
variable {sb : Super} {disk : Disk} {d : Dinode} {x j : Nat}

theorem iblock_place_inj (h : sb.iblock i = sb.iblock j) (h' : i % IPB = j % IPB) : i = j := by
  unfold Super.iblock at h
  rw [← Nat.div_add_mod i IPB, ← Nat.div_add_mod j IPB, h', Nat.add_right_cancel h]

theorem updateDisk_other (h : x ≠ sb.iblock i) : updateDisk sb disk i d x = disk x :=
  update_of_ne h ..

theorem dinode_updateDisk (hd : d.Fits) :
    dinode sb (updateDisk sb disk i d) j = if j = i then d else dinode sb disk j := by
  rw [dinode, updateDisk]
  by_cases hb : sb.iblock j = sb.iblock i
  · rw [hb, update_self]
    by_cases hp : j % IPB = i % IPB
    · rw [hp, getDinode_putDinode hd, if_pos (iblock_place_inj hb hp)]
    · rw [getDinode_putDinode_ne hp, if_neg fun h => hp (by rw [h]), ← hb, ← dinode]
  · rw [update_of_ne hb, if_neg fun h => hb (by rw [h]), ← dinode]

theorem Super.Geometry.iblock_lt (hg : sb.Geometry) (hi : i < sb.ninodes) :
    sb.iblock i < FSSIZE := by
  have h1 := hg.inodes i hi
  have h2 := hg.bitmap
  have h3 := hg.data
  have h4 := hg.size
  omega

theorem used_updateDisk (hg : sb.Geometry) (hi : i < sb.ninodes) (hx : x < sb.size) :
    used sb (updateDisk sb disk i d) x = used sb disk x := by
  have := hg.inodes i hi
  rw [hg.used_eq hx, hg.used_eq hx, updateDisk_other (by omega)]

theorem updateDisk_data (hg : sb.Geometry) (hi : i < sb.ninodes) (hx : sb.IsData x) :
    updateDisk sb disk i d x = disk x :=
  updateDisk_other (Ne.symm (hg.iblock_ne hi hx))

end

theorem iupdate_run (hl : s.log = none) (hg : s.sb.Geometry) (hi : i < s.sb.ninodes) :
    iupdate i s = .ok ((), { s with disk := updateDisk s.sb s.disk i (s.node i) }) := by
  rw [iupdate, bind_run get_run, bind_run (bread_run (hg.iblock_lt hi)), bind_run get_run]
  exact logWrite_run hl

def State.updated (s : State) (i : Nat) (d : Dinode) : State :=
  { s.setNode i d with disk := updateDisk s.sb s.disk i d }

/-- No file has changed. -/
structure Same (i : Nat) (s s' : State) : Prop where
  sb : s'.sb = s.sb
  rest : s'.devsw = s.devsw ∧ s'.released = s.released
  low : ∀ x < s.sb.inodestart, s'.disk x = s.disk x
  ino : ∀ j ≠ i, s'.ino j = s.ino j
  type : (s'.node i).type = (s.node i).type
  ptr : ∀ j, Live s.sb s.cur j → ∀ k < NSLOT, ptr s'.disk (s'.cur j) k = ptr s.disk (s.cur j) k
  bytes : ∀ j, Live s.sb s.cur j → ∀ o, o / BSIZE < MAXFILE →
    byte s'.disk (s'.cur j) o = byte s.disk (s.cur j) o
  free : s'.free = s.free

theorem Good.update (hs : Good s i) {d : Dinode} (hd : d.Fits) (htype : d.type = (s.node i).type)
    (haddrs : d.addrs = (s.node i).addrs) :
    Good (s.updated i d) i ∧ Same i s (s.updated i d) ∧ (s.updated i d).node i = d := by
  let s' := s.updated i d
  change Good s' i ∧ Same i s s' ∧ s'.node i = d
  have hi := hs.live.1
  have hself : s'.ino i = { s.ino i with d := d } := update_self ..
  have hino : ∀ j ≠ i, s'.ino j = s.ino j := fun j hj => update_of_ne hj ..
  have hnode : s'.node i = d := by rw [State.node, hself]
  have hcur : s'.cur i = d := by
    rw [State.cur, if_pos (by rw [hself]; exact hs.valid), hself]
  have hother : ∀ j ≠ i, s'.cur j = s.cur j := by
    intro j hj
    rw [State.cur, State.cur, hino j hj]
    refine congrArg _ ((dinode_updateDisk hd).trans (if_neg hj))
  have hlive : ∀ j, Live s.sb s'.cur j ↔ Live s.sb s.cur j := by
    refine fun j => and_congr_right fun _ => ?_
    by_cases hj : j = i
    · rw [hj, hcur, hs.cur, htype]
    · rw [hother j hj]
  -- the inode has the same addresses, and no data block is changed
  have haddr : ∀ j, (s'.cur j).addrs = (s.cur j).addrs := by
    intro j
    by_cases hji : j = i
    · rw [hji, hcur, hs.cur, haddrs]
    · rw [hother j hji]
  have hdata : ∀ x, s.sb.IsData x → s'.disk x = s.disk x := fun x hx =>
    updateDisk_data hs.geo hi hx
  have hptr : ∀ j l, Live s.sb s.cur j → l < NSLOT →
      ptr s'.disk (s'.cur j) l = ptr s.disk (s.cur j) l := fun j l hj _ =>
    (ptr_of_addrs (haddr j)).trans (hs.owned.ptr_eq hj hdata)
  have hused : ∀ x < s.sb.size, used s.sb s'.disk x = used s.sb s.disk x := fun x hx =>
    used_updateDisk hs.geo hi hx
  refine ⟨⟨hs.log, hs.geo, hs.owned.congr hs.geo hlive hptr hused, by rw [hself]; exact hs.valid,
    (hlive i).2 hs.live, by rw [hnode]; exact hd⟩, ⟨rfl, ⟨rfl, rfl⟩, fun x hx => ?_, hino,
    by rw [hnode, htype], fun j hj k hk => hptr j k hj hk, fun j hj o ho => ?_, ?_⟩, hnode⟩
  · exact updateDisk_other (Nat.ne_of_lt (Nat.lt_of_lt_of_le hx (Nat.le_add_left ..)))
  · rw [← hs.owned.byte_eq hj hdata ho, byte, byte, ptr_of_addrs (haddr j)]
  · rw [State.free, State.free]
    congr 1
    refine filter_congr fun x hx => ?_
    rw [← hused x (mem_range.1 hx)]
    exact Iff.rfl

/-! ## The system's view -/

/-- `writei` returned: the inode `i` got the pointers `K`, and `data` was written to it at `off`. -/
structure WroteFile (i : Nat) (K : Finset Nat) (off : Nat) (data : List UInt8) (s s' : State) :
    Prop where
  sb : s'.sb = s.sb
  rest : s'.devsw = s.devsw ∧ s'.released = s.released
  low : ∀ x < s.sb.inodestart, s'.disk x = s.disk x
  ino : ∀ j ≠ i, s'.ino j = s.ino j
  self : ∃ addrs, s'.ino i = { s.ino i with
    d := { s.node i with addrs := addrs, size := max (s.node i).size (off + data.length) } }
  fresh : ∀ k ∈ K, k < NSLOT ∧ ptr s.disk (s.node i) k = 0 ∧ ptr s'.disk (s'.node i) k ≠ 0
  keep : ∀ k < NSLOT, k ∉ K → ptr s'.disk (s'.node i) k = ptr s.disk (s.node i) k
  other : ∀ j ≠ i, Live s.sb s.cur j → ∀ k < NSLOT,
    ptr s'.disk (s'.cur j) k = ptr s.disk (s.cur j) k
  free : s'.free + K.card = s.free
  self_byte : ∀ o, o / BSIZE < MAXFILE →
    byte s'.disk (s'.node i) o = overlay (byte s.disk (s.node i)) off data o
  other_byte : ∀ j ≠ i, Live s.sb s.cur j → ∀ o, o / BSIZE < MAXFILE →
    byte s'.disk (s'.cur j) o = byte s.disk (s.cur j) o
  dinode : ∀ j < s.sb.ninodes, dinode s'.sb s'.disk j =
    if j = i ∧ (s.node i).size < off + data.length then s'.node i else dinode s.sb s.disk j

section
variable {K : Finset Nat} {data : List UInt8}

theorem Pointed.dinode (h : Pointed i K s s') (hg : s.sb.Geometry) {j : Nat}
    (hj : j < s.sb.ninodes) : dinode s'.sb s'.disk j = dinode s.sb s.disk j := by
  rw [Fs.dinode, Fs.dinode, h.sb, h.low _ (hg.inodes j hj)]

theorem Super.Geometry.low (hg : s.sb.Geometry) (hi : i < s.sb.ninodes) {x : Nat}
    (hx : x < s.sb.inodestart) : x < s.sb.bmapstart :=
  hx.trans_le ((Nat.le_add_left ..).trans (hg.inodes i hi).le)

theorem Wrote.inside (h : Wrote i K off data s s') (hs : Good s i)
    (hsize : off + data.length ≤ (s.node i).size) : WroteFile i K off data s s' where
  sb := h.sb
  rest := h.rest
  low x hx := h.low x (hs.geo.low hs.live.1 hx)
  ino := h.ino
  self := by
    obtain ⟨addrs, ha⟩ := h.self
    exact ⟨addrs, by rw [ha, Nat.max_eq_left hsize]⟩
  fresh := h.fresh
  keep := h.keep
  other := h.other
  free := h.free
  self_byte := h.self_byte
  other_byte := h.other_byte
  dinode j hj := by
    rw [if_neg fun hc => Nat.not_lt.2 hsize hc.2]
    exact h.dinode hs.geo hj

theorem Wrote.longer (h : Wrote i K off data s s') (hs : Good s i) (hs' : Good s' i)
    (hsize : (s.node i).size < off + data.length) (hlt : off + data.length < 2 ^ 32) :
    let s'' := s'.updated i { s'.node i with size := off + data.length }
    Good s'' i ∧ WroteFile i K off data s s'' := by
  intro s''
  let d := { s'.node i with size := off + data.length }
  have hd : d.Fits := ⟨hs'.fits.type, hs'.fits.major, hs'.fits.minor, hs'.fits.nlink, hlt,
    hs'.fits.addrs, hs'.fits.last⟩
  obtain ⟨hgood, hsame, hnode⟩ := hs'.update hd rfl rfl
  have hlive := h.live_iff hs hs'
  have hself : s''.ino i = { s'.ino i with d := d } := update_self ..
  refine ⟨hgood, ?_⟩
  exact {
    sb := hsame.sb.trans h.sb
    rest := ⟨hsame.rest.1.trans h.rest.1, hsame.rest.2.trans h.rest.2⟩
    low := fun x hx => (hsame.low x (by rw [h.sb]; exact hx)).trans
      (h.low x (hs.geo.low hs.live.1 hx))
    ino := fun j hj => (hsame.ino j hj).trans (h.ino j hj)
    self := by
      obtain ⟨addrs, ha⟩ := h.self
      refine ⟨addrs, ?_⟩
      rw [hself, Nat.max_eq_right (Nat.le_of_lt hsize)]
      simp only [d, State.node, ha]
    fresh := fun k hk => by
      obtain ⟨h1, h2, h3⟩ := h.fresh k hk
      refine ⟨h1, h2, ?_⟩
      rw [← hgood.cur, hsame.ptr i hs'.live k h1, hs'.cur]
      exact h3
    keep := fun k hk hn => by
      rw [← hgood.cur, hsame.ptr i hs'.live k hk, hs'.cur, h.keep k hk hn]
    other := fun j hj hl k hk => by
      rw [hsame.ptr j ((hlive j).2 hl) k hk, h.other j hj hl k hk]
    free := by rw [hsame.free, h.free]
    self_byte := fun o ho => by
      rw [← hgood.cur, hsame.bytes i hs'.live o ho, hs'.cur, h.self_byte o ho]
    other_byte := fun j hj hl o ho => by
      rw [hsame.bytes j ((hlive j).2 hl) o ho, h.other_byte j hj hl o ho]
    dinode := fun j hj => by
      have hdj : Fs.dinode s''.sb s''.disk j =
          if j = i then d else Fs.dinode s'.sb s'.disk j := dinode_updateDisk hd
      rw [hdj, hnode, h.dinode hs.geo hj]
      simp only [hsize, and_true] }

def Refused (d : Dinode) (off n : Nat) : Prop :=
  d.size < off ∨ 2 ^ 32 ≤ off + n ∨ MAXFILE * BSIZE < off + n

/-- **`writei`** refuses the write, or writes the data as long as there are free blocks. -/
theorem writei_spec (hs : Good s i) (hdev : (s.node i).type ≠ T_DEV) (ho : off < 2 ^ 32)
    (hn : data.length < 2 ^ 32) : Ends (writei i off data) s
      (fun r s' => (Refused (s.node i) off data.length ∧ r = none ∧ s' = s) ∨
        (¬ Refused (s.node i) off data.length ∧ r = some data.length ∧ Good s' i ∧
          WroteFile i (s.missing i (touched off data.length)) off data s s'))
      (fun e => ¬ Refused (s.node i) off data.length ∧ e = "balloc: out of blocks" ∧
        s.free < (s.missing i (touched off data.length)).card) := by
  rw [writei]
  refine .run get_run (.ite (fun h => absurd h hdev) fun _ => .ite (fun hbad => ?_) fun hgood => ?_)
  · refine .of_pure (.inl ⟨?_, rfl, rfl⟩)
    rw [wraps_iff ho hn] at hbad
    exact hbad.imp_right .inl
  rw [wraps_iff ho hn, not_or, Nat.not_lt, Nat.not_le] at hgood
  rw [Nat.mod_eq_of_lt hgood.2]
  refine .ite (fun hbig => .of_pure (.inl ⟨.inr (.inr hbig), rfl, rfl⟩)) fun hfit => ?_
  have hok : ¬ Refused (s.node i) off data.length := by
    unfold Refused
    omega
  refine .bind ((writeLoop_spec hs (Nat.le_refl _) (Nat.not_lt.1 hfit)).weaken
    fun e he => ⟨hok, he⟩) ?_
  rintro _ s1 ⟨hs1, hw⟩
  refine .run get_run (.ite (fun hlong => ?_) fun hshort => ?_)
  · rw [hw.size] at hlong
    obtain ⟨hs2, hw2⟩ := hw.longer hs hs1 hlong.2 hgood.2
    refine .run modify_run (.run (iupdate_run hs1.log hs1.geo hs1.live.1) (.of_pure (.inr ?_)))
    rw [s1.setNode_node]
    exact ⟨hok, rfl, hs2, hw2⟩
  · refine .of_pure (.inr ⟨hok, rfl, hs1, hw.inside hs ?_⟩)
    rw [hw.size] at hshort
    unfold Refused at hok
    omega

end

end Fs
