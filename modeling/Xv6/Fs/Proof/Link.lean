import Xv6.Fs.Proof.Path

/-!
# Directories are maps from names

A directory whose entries in use have different names (`Distinct`) is a map. `dirlink` stores one entry
in the first place that is not in use, and an erasure one without an inode number. Both are `Stored` in
the list, and all that follows for lookups is proved of lists.

When the entry of the name is for the directory itself, `dirlink` waits for the lock that its caller
holds (`dirlink_deadlock`).
-/

namespace Fs

open Panic Param
open Log (Disk)

/-! ## Lists of entries -/

def Distinct (des : List (List UInt8)) : Prop :=
  ∀ (j k : Nat) a b, des[j]? = some a → des[k]? = some b → direntInum a ≠ 0 → direntInum b ≠ 0 →
    namecmp (direntName a) (direntName b) = true → j = k

def Sized (des : List (List UInt8)) : Prop := ∀ de ∈ des, de.length = DIRENTSIZE

structure Stored (des : List (List UInt8)) (k : Nat) (de : List UInt8) (des' : List (List UInt8)) :
    Prop where
  self : des'[k]? = some de
  other : ∀ j ≠ k, des'[j]? = des[j]?

section
variable {des des' : List (List UInt8)} {de name : List UInt8} {k inum : Nat}

theorem entryIs_iff : entryIs name de = true ↔ direntInum de ≠ 0 ∧ entryName de = name.take DIRSIZ := by
  rw [entryIs, Bool.and_eq_true, bne_iff_ne, beq_iff_eq]

theorem lookupIn_none : lookupIn name des = none ↔ ∀ de ∈ des, entryIs name de = false := by
  rw [lookupIn, Option.map_eq_none_iff, List.findIdx?_eq_none_iff]

theorem distinct_of_getD (h : ∀ j < des.length, ∀ k < des.length,
    namecmp (direntName (des.getD j [])) (direntName (des.getD k [])) = true → j = k) :
    Distinct des := by
  intro j k a b hj hk _ _ hab
  obtain ⟨hj', rfl⟩ := List.getElem?_eq_some_iff.1 hj
  obtain ⟨hk', rfl⟩ := List.getElem?_eq_some_iff.1 hk
  refine h j hj' k hk' ?_
  rwa [List.getD_eq_getElem _ _ hj', List.getD_eq_getElem _ _ hk']

theorem lookupIn_iff (hd : Distinct des) (hl : Sized des) {q : Nat × Nat} :
    lookupIn name des = some q ↔
      ∃ k de, des[k]? = some de ∧ entryIs name de = true ∧ q = (direntInum de, DIRENTSIZE * k) := by
  refine ⟨lookupIn_some, fun ⟨k, de, hk, his, hq⟩ => ?_⟩
  cases hlook : lookupIn name des with
  | none =>
    rw [lookupIn_none.1 hlook de (List.mem_of_getElem? hk)] at his
    cases his
  | some q' =>
    obtain ⟨k', de', hk', his', hq'⟩ := lookupIn_some hlook
    have h1 := entryIs_iff.1 his
    have h2 := entryIs_iff.1 his'
    have hkk : k' = k := by
      refine hd k' k de' de hk' hk h2.1 h1.1 ?_
      rw [namecmp_entries (hl _ (List.mem_of_getElem? hk')) (hl _ (List.mem_of_getElem? hk)), h1.2, h2.2]
      exact beq_self_eq_true _
    subst hkk
    rw [hk] at hk'
    obtain rfl := Option.some.inj hk'
    rw [hq, hq']

theorem entryName_putDirent (h0 : 0 ∉ name) : entryName (putDirent inum name) = name.take DIRSIZ := by
  have hall : ∀ a ∈ name.take DIRSIZ, (a != 0) = true := fun a ha => bne_iff_ne.2 fun h => by
    subst h
    exact h0 (List.mem_of_mem_take ha)
  rw [entryName, direntName_putDirent, strncpy, List.takeWhile_append_of_pos hall]
  cases DIRSIZ - name.length with
  | zero => exact List.append_nil _
  | succ n => exact List.append_nil _

theorem entryIs_putDirent {name' : List UInt8} (h0 : 0 ∉ name) (hi : 0 < inum) (hi' : inum < 65536) :
    entryIs name' (putDirent inum name) = true ↔ name.take DIRSIZ = name'.take DIRSIZ := by
  rw [entryIs_iff, entryName_putDirent h0, direntInum_putDirent hi']
  exact and_iff_right (Nat.pos_iff_ne_zero.1 hi)

theorem direntInum_zeros : direntInum (List.replicate DIRENTSIZE 0) = 0 := by decide

namespace Stored

theorem sized (h : Stored des k de des') (hl : Sized des) (hde : de.length = DIRENTSIZE) :
    Sized des' := by
  intro e he
  obtain ⟨j, hj⟩ := List.mem_iff_getElem?.1 he
  by_cases hjk : j = k
  · rw [hjk, h.self] at hj
    rw [← Option.some.inj hj, hde]
  · rw [h.other j hjk] at hj
    exact hl e (List.mem_of_getElem? hj)

theorem distinct_link (h : Stored des k (putDirent inum name) des') (hd : Distinct des)
    (hl : Sized des) (h0 : 0 ∉ name) (hnew : lookupIn name des = none) : Distinct des' := by
  -- another entry with the name would have been found
  have hnone : ∀ {j : Nat} {e : List UInt8}, j ≠ k → des'[j]? = some e → direntInum e ≠ 0 →
      entryName e = name.take DIRSIZ → False := by
    intro j e hj he hne hname
    rw [h.other j hj] at he
    have := lookupIn_none.1 hnew e (List.mem_of_getElem? he)
    rw [entryIs_iff.2 ⟨hne, hname⟩] at this
    cases this
  have hl' := h.sized hl length_putDirent
  intro j l a b hj hk ha hb hab
  rw [namecmp_entries (hl' _ (List.mem_of_getElem? hj)) (hl' _ (List.mem_of_getElem? hk)),
    beq_iff_eq] at hab
  by_cases hjk : j = k
  · by_cases hlk : l = k
    · rw [hjk, hlk]
    · rw [hjk, h.self] at hj
      rw [← Option.some.inj hj, entryName_putDirent h0] at hab
      exact (hnone hlk hk hb hab.symm).elim
  · by_cases hlk : l = k
    · rw [hlk, h.self] at hk
      rw [← Option.some.inj hk, entryName_putDirent h0] at hab
      exact (hnone hjk hj ha hab).elim
    · refine hd j l a b (by rw [← h.other j hjk, hj]) (by rw [← h.other l hlk, hk]) ha hb ?_
      rw [namecmp_entries (hl' _ (List.mem_of_getElem? hj)) (hl' _ (List.mem_of_getElem? hk)),
        hab]
      exact beq_self_eq_true _

theorem distinct_erase (h : Stored des k de des') (hd : Distinct des) (h0 : direntInum de = 0) :
    Distinct des' := by
  have hne : ∀ {j : Nat} {e : List UInt8}, des'[j]? = some e → direntInum e ≠ 0 → j ≠ k := by
    rintro j e he hne rfl
    rw [h.self] at he
    exact hne (Option.some.inj he ▸ h0)
  intro j l a b hj hk ha hb hab
  exact hd j l a b (by rw [← h.other j (hne hj ha), hj]) (by rw [← h.other l (hne hk hb), hk]) ha hb hab

theorem lookup_self (h : Stored des k de des') (hd : Distinct des') (hl : Sized des')
    (his : entryIs name de = true) : lookupIn name des' = some (direntInum de, DIRENTSIZE * k) :=
  (lookupIn_iff hd hl).2 ⟨k, de, h.self, his, rfl⟩

theorem lookup_other (h : Stored des k de des') (hd : Distinct des) (hd' : Distinct des')
    (hl : Sized des) (hl' : Sized des') (hnew : entryIs name de = false)
    (hold : ∀ e, des[k]? = some e → entryIs name e = false) :
    lookupIn name des' = lookupIn name des := by
  refine Option.ext fun q => ?_
  rw [lookupIn_iff hd' hl', lookupIn_iff hd hl]
  refine exists_congr fun j => exists_congr fun e => and_congr_left fun ⟨his, _⟩ => ?_
  by_cases hj : j = k
  · subst hj
    refine iff_of_false (fun he => ?_) fun he => ?_
    · rw [h.self] at he
      rw [Option.some.inj he, his] at hnew
      cases hnew
    · rw [hold e he] at his
      cases his
  · rw [h.other j hj]

end Stored

end

/-! ## Entries in the file -/

section
variable {s t : State} {dp k : Nat} {de : List UInt8}

theorem WroteFile.stored {K : Finset Nat} (h : WroteFile dp K (DIRENTSIZE * k) de s t)
    (hde : de.length = DIRENTSIZE) (hf : Full s.disk (s.node dp))
    (hk : k ≤ (s.node dp).size / DIRENTSIZE)
    (hmax : DIRENTSIZE * k + DIRENTSIZE ≤ MAXFILE * BSIZE) :
    (t.node dp).size = max (s.node dp).size (DIRENTSIZE * k + DIRENTSIZE) ∧
      Stored (dirents s.disk (s.node dp)) k de (dirents t.disk (t.node dp)) := by
  have hsize : (t.node dp).size = max (s.node dp).size (DIRENTSIZE * k + DIRENTSIZE) := by
    obtain ⟨addrs, hself⟩ := h.self
    rw [State.node, hself, hde]
  obtain ⟨m, hm⟩ := hf.aligned
  have hcount : (s.node dp).size / DIRENTSIZE = m := by
    rw [hm]
    exact Nat.mul_div_cancel_left m (by decide)
  have hcount' : (t.node dp).size / DIRENTSIZE = max m (k + 1) := by
    rw [hsize, hm, ← Nat.mul_add_one, Nat.mul_max_mul_left]
    exact Nat.mul_div_cancel_left _ (by decide)
  rw [hcount] at hk
  refine ⟨hsize, ?_, fun j hj => ?_⟩
  · rw [getElem?_dirents, hcount', if_pos (by omega)]
    refine congrArg some (List.ext_getElem (by rw [length_bytes, hde]) fun i h1 h2 => ?_)
    rw [hde] at h2
    simp only [bytes, List.getElem_map, List.getElem_range]
    rw [h.self_byte _ ((Nat.div_lt_iff_lt_mul (by decide)).2 (by omega)), overlay,
      if_pos (by omega), Nat.add_sub_cancel_left, List.getD_eq_getElem]
  · rw [getElem?_dirents, getElem?_dirents, hcount, hcount']
    by_cases hjm : j < m
    · rw [if_pos hjm, if_pos (by omega)]
      refine congrArg some (List.map_congr_left fun i hi => ?_)
      rw [List.mem_range] at hi
      have hlt : DIRENTSIZE * j + i < (s.node dp).size := by
        have := Nat.mul_le_mul_left DIRENTSIZE (Nat.succ_le_of_lt hjm)
        rw [hm]
        rw [Nat.mul_succ] at this
        omega
      have hout : ¬ (DIRENTSIZE * k ≤ DIRENTSIZE * j + i ∧
          DIRENTSIZE * j + i < DIRENTSIZE * k + DIRENTSIZE) := by
        unfold DIRENTSIZE at *
        omega
      rw [h.self_byte _ (hf.present _ (Nat.zero_le _) (by omega)).1, overlay, hde, if_neg hout]
    · rw [if_neg hjm, if_neg (by omega)]

theorem WroteFile.full (h : WroteFile dp (s.missing dp (touched (DIRENTSIZE * k) DIRENTSIZE))
      (DIRENTSIZE * k) de s t)
    (hde : de.length = DIRENTSIZE) (hf : Full s.disk (s.node dp))
    (hk : k ≤ (s.node dp).size / DIRENTSIZE)
    (hmax : DIRENTSIZE * k + DIRENTSIZE ≤ MAXFILE * BSIZE) : Full t.disk (t.node dp) := by
  obtain ⟨hsize, -⟩ := h.stored hde hf hk hmax
  have hptr : ∀ l < NSLOT, ptr s.disk (s.node dp) l ≠ 0 ∨ l ∈ touched (DIRENTSIZE * k) DIRENTSIZE →
      ptr t.disk (t.node dp) l ≠ 0 := by
    intro l hl hor
    by_cases hz : ptr s.disk (s.node dp) l = 0
    · exact (h.fresh l (Finset.mem_filter.2 ⟨hor.resolve_left (not_not.2 hz), hz⟩)).2.2
    · rw [h.keep l hl fun hm => hz (Finset.mem_filter.1 hm).2]
      exact hz
  refine ⟨?_, fun o _ ho => ?_⟩
  · rw [hsize]
    rcases Nat.le_total (s.node dp).size (DIRENTSIZE * k + DIRENTSIZE) with hle | hle
    · rw [Nat.max_eq_right hle, ← Nat.mul_add_one]
      exact Nat.dvd_mul_right ..
    · rw [Nat.max_eq_left hle]
      exact hf.aligned
  · by_cases hold : o < (s.node dp).size
    · obtain ⟨h1, h2⟩ := hf.present o (Nat.zero_le _) (by omega)
      exact ⟨h1, hptr _ (slot_lt h1) (.inl h2)⟩
    · have hle : DIRENTSIZE * k ≤ (s.node dp).size :=
        (Nat.mul_le_mul_left _ hk).trans (Nat.mul_div_le ..)
      have hin : DIRENTSIZE * k ≤ o ∧ o < DIRENTSIZE * k + DIRENTSIZE := by
        rw [hsize] at ho
        omega
      have hbn : o / BSIZE < MAXFILE := (Nat.div_lt_iff_lt_mul (by decide)).2 (by omega)
      refine ⟨hbn, hptr _ (slot_lt hbn) (.inr ?_)⟩
      refine Finset.mem_biUnion.2 ⟨o - DIRENTSIZE * k, Finset.mem_range.2 (by omega), ?_⟩
      rw [Nat.add_sub_cancel' hin.1]
      exact slot_mem_touch

theorem emptyDirent_run {des : List (List UInt8)} {fuel : Nat} (hs : Good s dp)
    (hdir : (s.node dp).type = T_DIR) (hf : Full s.disk (s.node dp))
    (hdes : (dirents s.disk (s.node dp)).drop k = des) (hfuel : des.length < fuel) :
    emptyDirent dp fuel (DIRENTSIZE * k) s =
      .ok (DIRENTSIZE * (k + des.findIdx (direntInum · == 0)), s) := by
  induction des generalizing k fuel with
  | nil =>
    cases fuel with
    | zero => cases hfuel
    | succ fuel =>
      rw [emptyDirent, bind_run get_run, if_neg (dirents_end hf hdes)]
      rfl
  | cons de des ih =>
    obtain ⟨hlt, hread, hlen, hrest⟩ := dirents_next (e := "dirlink read") hs hdir hf hdes
    cases fuel with
    | zero => cases hfuel
    | succ fuel =>
      rw [emptyDirent, bind_run get_run, if_pos hlt, bind_run hread, List.findIdx_cons]
      by_cases h0 : direntInum de = 0
      · rw [if_pos h0, h0]
        rfl
      · rw [if_neg h0, ← Nat.mul_add_one, ih hrest (Nat.lt_of_succ_lt_succ hfuel),
          beq_false_of_ne h0, cond_false, Nat.add_right_comm, Nat.add_assoc]

theorem emptyDirent_start (hs : Good s dp) (hdir : (s.node dp).type = T_DIR)
    (hf : Full s.disk (s.node dp)) : emptyDirent dp ((s.node dp).size / DIRENTSIZE + 1) 0 s =
      .ok (DIRENTSIZE * (dirents s.disk (s.node dp)).findIdx (direntInum · == 0), s) := by
  have hrun : emptyDirent dp ((s.node dp).size / DIRENTSIZE + 1) (DIRENTSIZE * 0) s = _ :=
    emptyDirent_run hs hdir hf rfl (by
      rw [List.drop_zero, length_dirents]
      exact Nat.lt_succ_self _)
  rwa [List.drop_zero, Nat.zero_add, Nat.mul_zero] at hrun

end

/-! ## The invariant -/

/-- A directory that the caller has locked, alone. -/
structure Directory (s : State) (dp : Nat) : Prop extends Good s dp where
  dir : (s.node dp).type = T_DIR
  full : Full s.disk (s.node dp)
  distinct : Distinct (dirents s.disk (s.node dp))
  ref : 0 < (s.ino dp).ref
  locked : (s.ino dp).locked = true
  idle : ∀ j ≠ dp, (s.ino j).locked = false
  synced : ∀ j < s.sb.ninodes, j ≠ dp → s.cur j = dinode s.sb s.disk j

structure Unchanged (s t : State) (dp : Nat) : Prop where
  log : t.log = s.log
  disk : t.disk = s.disk
  sb : t.sb = s.sb
  self : t.ino dp = s.ino dp
  cur : ∀ j < s.sb.ninodes, t.cur j = s.cur j
  refs : SameRefs s t

structure Linked (s t : State) (dp : Nat) (name : List UInt8) (inum : Nat) : Prop where
  /-- Strings with the same first `DIRSIZ` bytes find it, at the offset where it is. -/
  found : ∃ off, bytes t.disk (t.cur dp) off DIRENTSIZE = putDirent inum name ∧
    ∀ name', 0 ∉ name' → name'.take DIRSIZ = name.take DIRSIZ → t.lookup dp name' = some (inum, off)
  other : ∀ name', name'.take DIRSIZ ≠ name.take DIRSIZ → t.lookup dp name' = s.lookup dp name'
  /-- The directory grows only when all entries are in use. -/
  reuse : (∃ de ∈ dirents s.disk (s.cur dp), direntInum de = 0) → (t.cur dp).size = (s.cur dp).size

section
variable {s t : State} {dp k ip inum off : Nat} {name de : List UInt8}

theorem Directory.lookup (h : Directory s dp) :
    s.lookup dp name = lookupIn name (dirents s.disk (s.node dp)) := by
  rw [State.lookup, h.cur]

theorem sized_dirents {disk : Disk} {d : Dinode} : Sized (dirents disk d) :=
  fun _ => mem_dirents_length

section
variable (h : Directory s dp)
include h

theorem Directory.unchanged (hu : Unchanged s t dp) : Directory t dp where
  log := hu.log.trans h.log
  geo := hu.sb ▸ h.geo
  owned := by
    rw [hu.sb, hu.disk]
    exact h.owned.of_nodes h.geo hu.cur
  valid := by rw [hu.self, h.valid]
  live := by
    rw [hu.sb, Live, hu.cur dp h.live.1]
    exact h.live
  fits := by
    rw [State.node, hu.self]
    exact h.fits
  dir := by
    rw [State.node, hu.self]
    exact h.dir
  full := by
    rw [State.node, hu.self, hu.disk]
    exact h.full
  distinct := by
    rw [State.node, hu.self, hu.disk]
    exact h.distinct
  ref := by rw [hu.self]; exact h.ref
  locked := by rw [hu.self, h.locked]
  idle j hj := (hu.refs.locked j).trans (h.idle j hj)
  synced j hj hne := by
    rw [hu.sb] at hj
    rw [hu.cur j hj, hu.sb, hu.disk, h.synced j hj hne]

theorem Directory.get_put (hip : ip ≠ dp) :
    Ends (iget ip) s (fun _ s1 => ∃ t, iput ip s1 = .ok ((), t) ∧ Unchanged s t dp)
      fun e => e = "iget: no inodes" ∧ (s.ino ip).ref = 0 ∧ NINODE ≤ s.cached.length := by
  have hl := h.idle ip hip
  -- the state after `iput`, for one after `iget`
  have hput : ∀ v : Inode, v.locked = false → v.ref = (s.ino ip).ref + 1 → (v.valid = true → 1 < v.ref) →
      (∀ j < s.sb.ninodes, (s.setInode ip v).cur j = s.cur j) →
      ∃ t, iput ip (s.setInode ip v) = .ok ((), t) ∧ Unchanged s t dp := by
    intro v hvl hvr hvv hcur
    have hself := s.setInode_self ip v
    have hrun : iput ip (s.setInode ip v) = .ok ((), (s.setInode ip v).put ip) := by
      refine iput_keep (by rw [hself]; exact hvl) fun hlast => ?_
      obtain ⟨h1, -, h3⟩ := hlast
      rw [hself] at h1 h3
      have := hvv h1
      omega
    refine ⟨_, hrun, State.unlock_log .., State.put_disk .., State.put_sb .., ?_, fun j hj => ?_,
      ⟨fun j => ?_, fun j => ?_⟩⟩
    · rw [State.put_other hip.symm, State.setInode_other hip.symm]
    · rw [State.put_cur, hcur j hj]
    · by_cases hj : j = ip
      · subst hj
        rw [State.put_self, hself]
        show v.ref - 1 = _
        omega
      · rw [State.put_other hj, State.setInode_other hj]
    · by_cases hj : j = ip
      · subst hj
        rw [State.put_self, hl]
      · rw [State.put_other hj, State.setInode_other hj]
  by_cases hr : 0 < (s.ino ip).ref
  · refine .of_ok (iget_dup hr) (hput _ hl rfl (fun _ => ?_) fun j _ => ?_)
    · show 1 < (s.ino ip).ref + 1
      omega
    · exact congrFun (s.dup_cur ip) j
  · have hz := Nat.eq_zero_of_not_pos hr
    by_cases hroom : s.cached.length < NINODE
    · refine .of_ok (iget_new hz hroom) (hput _ hl (by rw [hz]) (fun hv => by cases hv) fun j hj => ?_)
      by_cases hji : j = ip
      · subst hji
        rw [h.synced j hj hip, State.cur, s.setInode_self]
        rfl
      · rw [State.cur, State.setInode_other hji]
        rfl
    · exact .of_error (iget_full hz (Nat.not_lt.1 hroom)) ⟨rfl, hz, Nat.not_lt.1 hroom⟩

theorem Directory.wrote (hg : Good t dp)
    (hw : WroteFile dp (s.missing dp (touched (DIRENTSIZE * k) DIRENTSIZE)) (DIRENTSIZE * k) de s t)
    (hde : de.length = DIRENTSIZE) (hk : k ≤ (s.node dp).size / DIRENTSIZE)
    (hmax : DIRENTSIZE * k + DIRENTSIZE ≤ MAXFILE * BSIZE)
    (hd : Distinct (dirents t.disk (t.node dp))) : Directory t dp := by
  obtain ⟨addrs, hself⟩ := hw.self
  refine ⟨hg, ?_, hw.full hde h.full hk hmax, hd, ?_, ?_, fun j hj => ?_, fun j hj hne => ?_⟩
  · rw [State.node, hself]
    exact h.dir
  · rw [hself]
    exact h.ref
  · rw [hself]
    exact h.locked
  · rw [hw.ino j hj]
    exact h.idle j hj
  · rw [hw.sb] at hj
    have hnode := hw.dinode j hj
    rw [if_neg fun hc => hne hc.1] at hnode
    have hsync := h.synced j hj hne
    rw [State.cur] at hsync ⊢
    rw [hw.ino j hne, hnode]
    split
    · rename_i hv
      rwa [if_pos hv] at hsync
    · rfl

theorem Directory.place_lt (hk : k ≤ (s.node dp).size / DIRENTSIZE) :
    DIRENTSIZE * k ≤ (s.node dp).size ∧ DIRENTSIZE * k < 2 ^ 32 := by
  have hle := (Nat.mul_le_mul_left DIRENTSIZE hk).trans (Nat.mul_div_le (s.node dp).size DIRENTSIZE)
  exact ⟨hle, hle.trans_lt h.fits.size⟩

theorem Directory.writei (hde : de.length = DIRENTSIZE) (hk : k ≤ (s.node dp).size / DIRENTSIZE) :
    Ends (Fs.writei dp (DIRENTSIZE * k) de) s
      (fun r t => (r = none ∧ (s.node dp).size < DIRENTSIZE * k + DIRENTSIZE) ∨
        r = some DIRENTSIZE ∧ DIRENTSIZE * k + DIRENTSIZE ≤ MAXFILE * BSIZE ∧ Good t dp ∧
          WroteFile dp (s.missing dp (touched (DIRENTSIZE * k) DIRENTSIZE)) (DIRENTSIZE * k) de s t)
      fun e => e = "balloc: out of blocks" ∧ (s.node dp).size < DIRENTSIZE * k + DIRENTSIZE := by
  obtain ⟨hle, hlt⟩ := h.place_lt hk
  have hspec := writei_spec h.toGood (by rw [h.dir]; decide) hlt
    (show de.length < 2 ^ 32 by rw [hde]; decide)
  rw [hde] at hspec
  refine hspec.mono ?_ fun e he => ⟨he.2.1, Nat.lt_of_not_le fun hin => ?_⟩
  rotate_left
  · -- an entry inside the directory has its block
    have hnone := he.2.2
    rw [h.toGood.missing_present fun o _ ho => h.full.present o (Nat.zero_le _) (by omega)] at hnone
    exact Nat.not_lt_zero _ hnone
  rintro r t (⟨hbad, hr, -⟩ | ⟨hok, hr, hg, hw⟩)
  · refine .inl ⟨hr, ?_⟩
    -- an entry inside the directory is not refused
    by_contra hin
    have hmax : (s.node dp).size ≤ MAXFILE * BSIZE := by
      by_contra hbig
      obtain ⟨h1, -⟩ := h.full.present ((s.node dp).size - 1) (Nat.zero_le _) (by omega)
      rw [Nat.div_lt_iff_lt_mul (by decide)] at h1
      omega
    have : MAXFILE * BSIZE < 2 ^ 32 := by decide
    unfold Refused at hbad
    omega
  · refine .inr ⟨hr, ?_, hg, hw⟩
    unfold Refused at hok
    omega

theorem Directory.link (h0 : 0 ∉ name) (hi : 0 < inum) (hi' : inum < 65536)
    (hnew : s.lookup dp name = none) :
    Ends (dirlink dp name inum) s (fun r t => r = true ∧ Directory t dp ∧ Linked s t dp name inum)
      fun e => (∀ de ∈ dirents s.disk (s.cur dp), direntInum de ≠ 0) ∧
        (e = "balloc: out of blocks" ∨ e = "dirlink") := by
  rw [h.lookup] at hnew
  have hlook := dirlookup_run name h.toGood h.dir h.full h0
  rw [hnew] at hlook
  obtain ⟨k, hk⟩ : ∃ k, k = (dirents s.disk (s.node dp)).findIdx (direntInum · == 0) := ⟨_, rfl⟩
  have hempty := emptyDirent_start h.toGood h.dir h.full
  rw [← hk] at hempty
  have hkle : k ≤ (s.node dp).size / DIRENTSIZE := by
    have hlen : (dirents s.disk (s.node dp)).length = _ := length_dirents
    rw [← hlen, hk]
    exact List.findIdx_le_length
  -- the place is not in use
  have hfree : ∀ e, (dirents s.disk (s.node dp))[k]? = some e → direntInum e = 0 := by
    intro e he
    obtain ⟨hlt, rfl⟩ := List.getElem?_eq_some_iff.1 he
    subst hk
    exact beq_iff_eq.1 (List.findIdx_getElem (w := hlt))
  -- a free entry is inside the directory
  have hin : (∃ de ∈ dirents s.disk (s.cur dp), direntInum de = 0) →
      DIRENTSIZE * k + DIRENTSIZE ≤ (s.node dp).size := by
    rintro ⟨e, he, hz⟩
    rw [h.cur] at he
    have hlt : k < (dirents s.disk (s.node dp)).length := by
      rw [hk]
      exact List.findIdx_lt_length_of_exists ⟨e, he, beq_iff_eq.2 hz⟩
    rw [length_dirents] at hlt
    exact (Nat.mul_le_mul_left DIRENTSIZE hlt).trans (Nat.mul_div_le ..)
  have hused : (s.node dp).size < DIRENTSIZE * k + DIRENTSIZE →
      ∀ de ∈ dirents s.disk (s.cur dp), direntInum de ≠ 0 :=
    fun hbig de hde hz => absurd (hin ⟨de, hde, hz⟩) (Nat.not_le.2 hbig)
  rw [dirlink]
  refine .run hlook (.run get_run (.run hempty ?_))
  refine .bind ((h.writei length_putDirent hkle).weaken
    fun _ he => ⟨hused he.2, .inl he.1⟩) ?_
  rintro r t (⟨rfl, hbig⟩ | ⟨rfl, hmax, hg, hw⟩)
  · exact .ite (fun _ => .throws ⟨hused hbig, .inr rfl⟩) fun hc => (hc nofun).elim
  refine .ite (fun hc => absurd rfl hc) fun _ => .of_pure ⟨rfl, ?_⟩
  obtain ⟨hsize, hst⟩ := hw.stored length_putDirent h.full hkle hmax
  have hd := hst.distinct_link h.distinct sized_dirents h0 hnew
  have ht := h.wrote hg hw length_putDirent hkle hmax hd
  refine ⟨ht, ⟨DIRENTSIZE * k, ?_, fun name' _ hname => ?_⟩, fun name' hname => ?_, fun hex => ?_⟩
  · have hself := hst.self
    rw [getElem?_dirents] at hself
    split at hself
    · rw [ht.cur]
      exact Option.some.inj hself
    · cases hself
  · have := hst.lookup_self hd sized_dirents ((entryIs_putDirent h0 hi hi').2 hname.symm)
    rw [ht.lookup, this, direntInum_putDirent hi']
  · rw [ht.lookup, h.lookup]
    refine hst.lookup_other h.distinct hd sized_dirents sized_dirents ?_ fun e he => ?_
    · exact Bool.eq_false_iff.2 fun hc => hname ((entryIs_putDirent h0 hi hi').1 hc).symm
    · exact Bool.eq_false_iff.2 fun hc => entryIs_inum hc (hfree e he)
  · rw [ht.cur, h.cur, hsize, Nat.max_eq_left (hin hex)]

theorem Directory.link_live (h0 : 0 ∉ name)
    (hlive : s.lookup dp name = some (ip, off)) (hip : ip ≠ dp) :
    Ends (dirlink dp name inum) s (fun r t => r = false ∧ Directory t dp ∧ Unchanged s t dp)
      fun e => e = "iget: no inodes" ∧ (s.ino ip).ref = 0 ∧ NINODE ≤ s.cached.length := by
  rw [h.lookup] at hlive
  have hlook := dirlookup_run name h.toGood h.dir h.full h0
  rw [hlive] at hlook
  have hget : Ends (dirlookup dp name) s
      (fun r s1 => r = some (ip, off) ∧ ∃ t, iput ip s1 = .ok ((), t) ∧ Unchanged s t dp)
      fun e => e = "iget: no inodes" ∧ (s.ino ip).ref = 0 ∧ NINODE ≤ s.cached.length :=
    .of_eq hlook ((h.get_put hip).bind fun _ s1 h1 => .of_pure ⟨rfl, h1⟩)
  rw [dirlink]
  refine hget.bind ?_
  rintro _ s1 ⟨rfl, t, hput, hu⟩
  exact .run hput (.of_pure ⟨rfl, h.unchanged hu, hu⟩)

theorem Directory.link_self (h0 : 0 ∉ name)
    (hlive : s.lookup dp name = some (dp, off)) : dirlink dp name inum s = .error deadlock := by
  rw [h.lookup] at hlive
  have hlook := dirlookup_run name h.toGood h.dir h.full h0
  rw [hlive] at hlook
  have hfound : dirlookup dp name s = .ok (some (dp, off), s.dup dp) :=
    hlook.trans (bind_run (iget_dup h.ref))
  have hput : iput dp (s.dup dp) = .error deadlock := by
    have hl : ((s.dup dp).ino dp).locked = true := by
      rw [State.dup, s.setInode_self]
      exact h.locked
    rw [iput]
    refine bind_error ?_
    rw [acquiresleep, bind_run get_run, if_pos hl]
    rfl
  rw [dirlink, bind_run hfound]
  exact bind_error hput

theorem Directory.erase (hlive : s.lookup dp name = some (ip, off)) : Ends (eraseDirent dp off) s
      (fun _ t => Directory t dp ∧ t.lookup dp name = none ∧
        (∀ name', name'.take DIRSIZ ≠ name.take DIRSIZ → t.lookup dp name' = s.lookup dp name') ∧
        ∃ de ∈ dirents t.disk (t.cur dp), direntInum de = 0)
      fun _ => False := by
  rw [h.lookup] at hlive
  obtain ⟨k, de, hk, his, hq⟩ := lookupIn_some hlive
  obtain ⟨-, rfl⟩ := Prod.mk.inj hq
  have hlt := (List.getElem?_eq_some_iff.1 hk).1
  rw [length_dirents] at hlt
  have hlen : (List.replicate DIRENTSIZE (0 : UInt8)).length = DIRENTSIZE := List.length_replicate
  have hin : DIRENTSIZE * k + DIRENTSIZE ≤ (s.node dp).size :=
    (Nat.mul_le_mul_left DIRENTSIZE hlt).trans (Nat.mul_div_le ..)
  rw [eraseDirent]
  refine .bind ((h.writei hlen hlt.le).weaken fun _ he => absurd he.2 (Nat.not_lt.2 hin)) ?_
  rintro r t (⟨rfl, hbig⟩ | ⟨rfl, hmax, hg, hw⟩)
  · exact absurd hbig (Nat.not_lt.2 hin)
  refine .ite (fun hc => absurd rfl hc) fun _ => .of_pure ?_
  obtain ⟨-, hst⟩ := hw.stored hlen h.full hlt.le hmax
  have hd := hst.distinct_erase h.distinct direntInum_zeros
  have ht := h.wrote hg hw hlen hlt.le hmax hd
  have hzero : ∀ name' : List UInt8, entryIs name' (List.replicate DIRENTSIZE 0) = false := fun name' =>
    Bool.eq_false_iff.2 fun hc => entryIs_inum hc direntInum_zeros
  refine ⟨ht, ?_, fun name' hname => ?_, _, ?_, direntInum_zeros⟩
  · rw [ht.lookup, lookupIn_none]
    intro e he
    obtain ⟨j, hj⟩ := List.mem_iff_getElem?.1 he
    by_cases hjk : j = k
    · rw [hjk, hst.self] at hj
      rw [← Option.some.inj hj, hzero]
    · refine Bool.eq_false_iff.2 fun hc => hjk ?_
      rw [hst.other j hjk] at hj
      have h1 := (lookupIn_iff h.distinct sized_dirents).2 ⟨j, e, hj, hc, rfl⟩
      rw [hlive] at h1
      exact (Nat.eq_of_mul_eq_mul_left (by decide) (Prod.mk.inj (Option.some.inj h1)).2).symm
  · rw [ht.lookup, h.lookup]
    refine hst.lookup_other h.distinct hd sized_dirents sized_dirents (hzero name') fun e he => ?_
    rw [hk] at he
    rw [← Option.some.inj he]
    refine Bool.eq_false_iff.2 fun hc => hname ?_
    rw [← (entryIs_iff.1 hc).2, (entryIs_iff.1 his).2]
  · rw [ht.cur]
    exact List.mem_of_getElem? hst.self

end

end

/-! ## Sequences -/

/-- An entry of the name is not for the directory itself, and its inode is cached or finds a free place
in the inode cache. -/
def LinkOk (s : State) (dp : Nat) (name : List UInt8) : Prop :=
  ∀ ip off, s.lookup dp name = some (ip, off) →
    ip ≠ dp ∧ (0 < (s.ino ip).ref ∨ s.cached.length < NINODE)

/-- Calls of `dirlink`, and erasures of entries that `dirlookup` found. -/
inductive DirRun (dp : Nat) (s : State) : State → Prop
  | refl : DirRun dp s s
  | link {t t' : State} {name : List UInt8} {inum : Nat} {r : Bool} : DirRun dp s t → 0 ∉ name →
      0 < inum → inum < 65536 → LinkOk t dp name → dirlink dp name inum t = .ok (r, t') → DirRun dp s t'
  | erase {t t' : State} {name : List UInt8} {ip off : Nat} : DirRun dp s t →
      t.lookup dp name = some (ip, off) → eraseDirent dp off t = .ok ((), t') → DirRun dp s t'

section
variable {s t : State} {dp : Nat}

theorem Directory.link_ok {name : List UInt8} {inum : Nat} (h : Directory s dp) (h0 : 0 ∉ name)
    (hi : 0 < inum) (hi' : inum < 65536) (hok : LinkOk s dp name) : Ends (dirlink dp name inum) s
      (fun r t => Directory t dp ∧ (r = false ↔ (s.lookup dp name).isSome = true) ∧
        (r = false → Unchanged s t dp) ∧ (r = true → Linked s t dp name inum))
      fun e => s.lookup dp name = none ∧ (∀ de ∈ dirents s.disk (s.cur dp), direntInum de ≠ 0) ∧
        (e = "balloc: out of blocks" ∨ e = "dirlink") := by
  cases hq : s.lookup dp name with
  | none =>
    refine (h.link h0 hi hi' hq).mono (fun r t ht => ?_) fun e he => ⟨rfl, he⟩
    obtain ⟨rfl, hdir, hlinked⟩ := ht
    exact ⟨hdir, by simp, nofun, fun _ => hlinked⟩
  | some q =>
    obtain ⟨ip, off⟩ := q
    obtain ⟨hne, hroom⟩ := hok ip off hq
    refine (h.link_live h0 hq hne).mono (fun r t ht => ?_) fun e he => absurd he.2 (by omega)
    obtain ⟨rfl, hdir, hu⟩ := ht
    exact ⟨hdir, by simp, fun _ => hu, nofun⟩

theorem DirRun.directory (h : DirRun dp s t) (hs : Directory s dp) : Directory t dp := by
  induction h with
  | refl => exact hs
  | link _ h0 hi hi' hok hrun ih => exact ((ih.link_ok h0 hi hi' hok).ok hrun).1
  | erase _ hlive hrun ih => exact ((ih.erase hlive).ok hrun).1

/-- **Directories are maps from names.** -/
theorem directories_are_maps (h : DirRun dp s t) (hs : Directory s dp) :
    Distinct (dirents t.disk (t.cur dp)) ∧ DIRENTSIZE ∣ (t.cur dp).size ∧
    (∀ name, 0 ∉ name → Ends (dirlookup dp name) t (fun r _ => r = t.lookup dp name)
      fun e => e = "iget: no inodes" ∧ NINODE ≤ t.cached.length) ∧
    ∀ name inum, 0 ∉ name → 0 < inum → inum < 65536 → LinkOk t dp name →
      Ends (dirlink dp name inum) t (fun r t' => (r = false ↔ (t.lookup dp name).isSome = true) ∧
          (r = false → Unchanged t t' dp) ∧ (r = true → Linked t t' dp name inum))
        fun e => t.lookup dp name = none ∧ (∀ de ∈ dirents t.disk (t.cur dp), direntInum de ≠ 0) ∧
          (e = "balloc: out of blocks" ∨ e = "dirlink") := by
  have ht := h.directory hs
  refine ⟨?_, ?_, fun name h0 => ?_, fun name inum h0 hi hi' hok => ?_⟩
  · rw [ht.cur]
    exact ht.distinct
  · rw [ht.cur]
    exact ht.full.aligned
  · refine .of_eq (dirlookup_run name ht.toGood ht.dir ht.full h0) ?_
    rw [ht.lookup]
    cases lookupIn name (dirents t.disk (t.node dp)) with
    | none => exact .of_pure rfl
    | some q =>
      by_cases hr : 0 < (t.ino q.1).ref
      · exact .run (iget_dup hr) (.of_pure rfl)
      · have hz := Nat.eq_zero_of_not_pos hr
        by_cases hroom : t.cached.length < NINODE
        · exact .run (iget_new hz hroom) (.of_pure rfl)
        · exact .of_error (bind_error (iget_full hz (Nat.not_lt.1 hroom))) ⟨rfl, Nat.not_lt.1 hroom⟩
  · exact (ht.link_ok h0 hi hi' hok).mono (fun _ _ h => h.2) fun _ => id

end

/-! ## The root of a small file system -/

theorem tree_distinct : Distinct (dirents treeDisk (dinode .tree treeDisk 1)) := by
  rw [tree_dirents]
  refine distinct_of_getD ?_
  decide +kernel

theorem tree_directory : Directory ((State.tree 1).lock 1) 1 := by
  have hcur : (State.tree 1).cur 1 = dinode .tree treeDisk 1 := rfl
  have hwf : WellFormed (State.tree 1) := tree_wellFormed
  have hroot : (State.tree 1).Held 1 := tree_held (.inl rfl)
  have hdir : ((State.tree 1).cur 1).type = T_DIR := by
    rw [hcur]
    exact tree_root_type
  have hnode : ((State.tree 1).lock 1).node 1 = (State.tree 1).cur 1 := State.lock_node ..
  refine ⟨.of_lock hwf.log hwf.geo hwf.owned hroot.1 fits_getDinode, ?_, ?_, ?_, ?_, ?_, fun j hj => ?_,
    fun j _ _ => ?_⟩
  · rw [hnode, hdir]
  · rw [hnode]
    exact hwf.full 1 hroot.1 hdir
  · rw [hnode]
    exact tree_distinct
  · rw [State.lock_self]
    exact Nat.one_pos
  · rw [State.lock_self]
  · rw [State.lock_other hj]
    exact hwf.idle j
  · rw [State.lock_cur]
    rfl

theorem tree_root_lookup (name : List UInt8) : ((State.tree 1).lock 1).lookup 1 name =
    lookupIn name (dirents treeDisk (dinode .tree treeDisk 1)) := by
  rw [tree_directory.lookup, State.lock_node]
  rfl

/-- The name `.` in the root is in use, and `dirlink` of it waits for ever. -/
theorem dirlink_dot_deadlocks : Directory ((State.tree 1).lock 1) 1 ∧
    ((State.tree 1).lock 1).lookup 1 [DOT] = some (1, 0) ∧
    dirlink 1 [DOT] 51 ((State.tree 1).lock 1) = .error deadlock := by
  have hlook : ((State.tree 1).lock 1).lookup 1 [DOT] = some (1, 0) := by
    rw [tree_root_lookup, tree_dirents]
    exact tree_lookups.2.1
  exact ⟨tree_directory, hlook, tree_directory.link_self (by decide) hlook⟩

/-- The file of the root is erased, and a link with another name takes its entry. -/
theorem directories_are_maps_tree :
    ∃ t t', eraseDirent 1 32 ((State.tree 1).lock 1) = .ok ((), t) ∧ t.lookup 1 [102] = none ∧
      dirlink 1 [103] 51 t = .ok (true, t') ∧ Linked t t' 1 [103] 51 := by
  have hf : ((State.tree 1).lock 1).lookup 1 [102] = some (51, 32) := by
    rw [tree_root_lookup, tree_dirents]
    exact tree_lookups.1
  obtain ⟨_, t, herase, -, hgone, hother, e, he, hz⟩ := (tree_directory.erase hf).returns fun _ => id
  have hnone : t.lookup 1 [103] = none := by
    rw [hother _ (by decide), tree_root_lookup, tree_dirents]
    exact tree_lookups.2.2
  have hlink := (directories_are_maps (.erase .refl hf herase) tree_directory).2.2.2 [103] 51 (by decide)
    (by decide) (by decide) fun ip off h => by
      rw [hnone] at h
      cases h
  obtain ⟨r, t', hrun, hlive, -, hlinked⟩ :=
    hlink.returns fun _ h => h.2.1 e he hz
  have hr : r = true := by
    rw [hnone] at hlive
    simpa using hlive
  subst hr
  exact ⟨t, t', herase, hgone, hrun, hlinked rfl⟩

end Fs
