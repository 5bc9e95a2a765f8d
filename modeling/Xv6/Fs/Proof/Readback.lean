import Mathlib.Data.List.TakeWhile
import Xv6.Fs.Proof.Image

/-!
# The kernel reads back what `mkfs` wrote

A lookup goes through the entries of the root up to the one it looks for, which are all there even when
the root has a hole behind them.
-/

namespace Fs.Mkfs

open Function (update)
open Log (Disk)
open Panic
open Param

def boot (disk : Disk) (devsw : Devsw) : Fs.State where
  disk := disk
  sb := getSuper (disk 1)
  ino i := ⟨if i = ROOTINO then 1 else 0, false, false, Dinode.zero⟩
  devsw := devsw
  released := []
  log := none

def Input.stored (f : Input) : List UInt8 := f.file.take DIRSIZ

/-! ## Paths of one element -/

section
variable {name : List UInt8}

theorem dropWhile_slash (hs : SLASH ∉ name) : name.dropWhile (· == SLASH) = name := by
  cases name with
  | nil => rfl
  | cons a l =>
    have : a ≠ SLASH := fun h => hs (h ▸ List.mem_cons_self ..)
    simp [this]

theorem skipelem_name (hs : SLASH ∉ name) (hne : name ≠ []) (hlen : name.length ≤ DIRSIZ) :
    skipelem name = some (name, []) := by
  have hall : ∀ a ∈ name, (a != SLASH) = true := fun a ha =>
    bne_iff_ne.2 fun h => hs (h ▸ ha)
  rw [skipelem, dropWhile_slash hs, if_neg hne, List.takeWhile_eq_self_iff.2 hall,
    List.dropWhile_eq_nil_iff.2 hall, List.take_of_length_le hlen]
  rfl

theorem skipelem_slash (hs : SLASH ∉ name) (hne : name ≠ []) (hlen : name.length ≤ DIRSIZ) :
    skipelem (SLASH :: name) = some (name, []) := by
  have : skipelem (SLASH :: name) = skipelem name := by
    simp only [skipelem, List.dropWhile_cons, beq_self_eq_true, if_true]
  rw [this, skipelem_name hs hne hlen]

end

/-! ## Lookup in the root -/

section
variable {s : State} {st : Fs.State} {files : List Input} {devsw : Devsw} {k : Nat} {f : Input}

theorem boot_cur (h : Image s files) : (boot s.disk devsw).cur = s.nodes := by
  funext j
  rw [Fs.State.cur, boot, h.super]
  rfl

structure On (s : State) (st : Fs.State) : Prop where
  disk : st.disk = s.disk
  sb : st.sb = sb
  cur : st.cur = s.nodes
  log : st.log = none

theorem On.dup (h : On s st) (i : Nat) : On s (st.dup i) :=
  ⟨h.disk, h.sb, (st.dup_cur i).trans h.cur, h.log⟩

theorem On.lock (h : On s st) (i : Nat) : On s (st.lock i) :=
  ⟨h.disk, h.sb, (st.lock_cur i).trans h.cur, h.log⟩

theorem On.unlock (h : On s st) (i : Nat) : On s (st.unlock i) :=
  ⟨(st.unlock_disk i).trans h.disk, (st.unlock_sb i).trans h.sb, (st.unlock_cur i).trans h.cur,
    (st.unlock_log i).trans h.log⟩

theorem On.put (h : On s st) (i : Nat) : On s (st.put i) :=
  ⟨(st.put_disk i).trans h.disk, (st.put_sb i).trans h.sb, (st.put_cur i).trans h.cur,
    (st.unlock_log i).trans h.log⟩

theorem On.new (h : On s st) (i : Nat) {v : Inode} (hv : v.valid = false) : On s (st.setInode i v) := by
  refine ⟨h.disk, h.sb, funext fun j => ?_, h.log⟩
  by_cases hj : j = i
  · subst hj
    rw [Fs.State.cur, st.setInode_self, hv]
    show dinode st.sb st.disk j = _
    rw [h.sb, h.disk]
    rfl
  · rw [← h.cur, Fs.State.cur, Fs.State.setInode_other hj]
    rfl

theorem take_drop_flatMap {α β : Type} {g : α → List β} {m : Nat} {l : List α} {j : Nat} {a : α}
    (hg : ∀ a, (g a).length = m) (hj : l[j]? = some a) :
    ((l.flatMap g).drop (m * j)).take m = g a := by
  induction l generalizing j with
  | nil => cases hj
  | cons b l ih =>
    cases j with
    | zero =>
      obtain rfl : b = a := Option.some.inj hj
      rw [List.flatMap_cons, Nat.mul_zero, List.drop_zero, ← hg b, List.take_left']
      rfl
    | succ j =>
      have := ih (j := j) hj
      rw [List.flatMap_cons, Nat.mul_add_one, Nat.add_comm, ← List.drop_drop, List.drop_left' (hg b)]
      exact this

theorem bytes_take_drop {disk : Disk} {d : Dinode} {off n N : Nat} (h : off + n ≤ N) :
    bytes disk d off n = ((bytes disk d 0 N).drop off).take n := by
  obtain ⟨r, rfl⟩ := Nat.exists_eq_add_of_le h
  rw [bytes_split 0 (m := off) (by omega), List.drop_left' (by simp [bytes]),
    bytes_split (0 + off) (m := n) (by omega), List.take_left' (by simp [bytes]), Nat.zero_add]

theorem Image.entry (h : Image s files) {j : Nat} {e : Nat × List UInt8}
    (hj : (entries files)[j]? = some e) :
    bytes s.disk (s.nodes ROOTINO) (DIRENTSIZE * j) DIRENTSIZE = putDirent e.1 e.2 := by
  have hlen : (entries files).length = files.length + 2 := by
    simp [entries]
  have hlt := (List.getElem?_eq_some_iff.1 hj).1
  have hle : DIRENTSIZE * j + DIRENTSIZE ≤ DIRENTSIZE * (files.length + 2) := by
    rw [← Nat.mul_add_one]
    exact Nat.mul_le_mul_left _ (by omega)
  rw [bytes_take_drop hle, h.rootBytes, rootData]
  exact take_drop_flatMap (fun _ => length_putDirent) hj

theorem entries_file (hk : files[k]? = some f) : (entries files)[k + 2]? = some (k + 2, f.file) := by
  simp [entries, hk, Nat.add_comm]

structure Names (files : List Input) : Prop where
  name : ∀ f ∈ files, f.stored ≠ [] ∧ f.stored ≠ [DOT] ∧ f.stored ≠ [DOT, DOT]
  distinct : (files.map Input.stored).Nodup

theorem mem_file {a : UInt8} (h : a ∈ f.file) : a ∈ f.name := by
  rw [Input.file] at h
  split at h
  · exact List.mem_of_mem_tail h
  · exact h

theorem mem_stored {a : UInt8} (h : a ∈ f.stored) : a ∈ f.name := mem_file (List.mem_of_mem_take h)

theorem entries_nul {e : Nat × List UInt8} (h : e ∈ entries files) : 0 ∉ e.2 := by
  rw [entries, List.mem_cons, List.mem_cons, List.mem_map] at h
  rcases h with rfl | rfl | ⟨x, -, rfl⟩
  · decide
  · decide
  · exact fun hm => x.1.nul (mem_file hm)

theorem Names.first (h : Names files) (hk : files[k]? = some f) {j : Nat} {e : Nat × List UInt8}
    (hj : (entries files)[j]? = some e) (hlt : j < k + 2) : f.stored ≠ e.2.take DIRSIZ := by
  have hf := h.name f (List.mem_of_getElem? hk)
  match j with
  | 0 =>
    obtain rfl : (ROOTINO, [DOT]) = e := Option.some.inj hj
    exact hf.2.1
  | 1 =>
    obtain rfl : (ROOTINO, [DOT, DOT]) = e := Option.some.inj hj
    exact hf.2.2
  | j + 2 =>
    have hjlt : j < files.length := by
      have := (List.getElem?_eq_some_iff.1 hk).1
      omega
    rw [entries_file (List.getElem?_eq_getElem hjlt)] at hj
    obtain rfl := Option.some.inj hj
    intro heq
    have hne := List.nodup_iff_getElem?_ne_getElem?.1 h.distinct j k (by omega)
      (by rw [List.length_map]; exact (List.getElem?_eq_some_iff.1 hk).1)
    rw [List.getElem?_map, List.getElem?_map, hk, List.getElem?_eq_getElem hjlt] at hne
    exact hne (congrArg some heq.symm)

theorem Image.good (h : Image s files) (hon : On s st) (i : Nat) (hl : Live sb s.nodes i) :
    Good (st.lock i) i := by
  refine .of_lock hon.log (hon.sb ▸ geometry) ?_ ?_ ?_
  · rw [hon.sb, hon.disk, hon.cur]
    exact h.owned
  · rw [hon.sb, hon.cur]
    exact hl
  · rw [hon.cur]
    exact fits_getDinode

theorem Image.root_present (h : Image s files) (hlt : files.length + 2 ≤ NINODES) {n : Nat}
    (hn : n ≤ DIRENTSIZE * (files.length + 2)) : Present s.disk (s.nodes ROOTINO) 0 n := by
  intro o _ ho
  have hN : NINODES = 200 := rfl
  have hbn : o / BSIZE < MAXFILE := by
    unfold DIRENTSIZE at hn
    unfold MAXFILE NDIRECT NINDIRECT BSIZE
    omega
  refine ⟨hbn, (h.rootPtr _ (slot_lt hbn)).2 (slot_lt_slots.2 ?_)⟩
  have := Nat.div_mul_le_self o BSIZE
  omega

theorem Image.dirlookup (h : Image s files) (hlt : files.length + 2 ≤ NINODES) (hn : Names files)
    (hon : On s st) (hk : files[k]? = some f) {st' : Fs.State}
    (hget : iget (k + 2) (st.lock ROOTINO) = .ok ((), st')) :
    Fs.dirlookup ROOTINO f.stored (st.lock ROOTINO) =
      .ok (some (k + 2, DIRENTSIZE * (k + 2)), st') := by
  have hklt := (List.getElem?_eq_some_iff.1 hk).1
  have hlive : Live sb s.nodes ROOTINO := ⟨by decide, by rw [h.rootType]; decide⟩
  have hnode : (st.lock ROOTINO).node ROOTINO = s.nodes ROOTINO := by
    rw [st.lock_node, hon.cur]
  have hdisk : (st.lock ROOTINO).disk = s.disk := hon.disk
  have hN : NINODES = 200 := rfl
  have hle : DIRENTSIZE * (k + 2 + 1) ≤ DIRENTSIZE * (files.length + 2) :=
    Nat.mul_le_mul_left _ (by omega)
  have hlen : (entries files).length = files.length + 2 := by simp [entries]
  let entry (j : Nat) : List UInt8 :=
    if hj : j < (entries files).length then putDirent (entries files)[j].1 (entries files)[j].2 else []
  have hentry : ∀ j e, (entries files)[j]? = some e → entry j = putDirent e.1 e.2 := by
    intro j e hj
    obtain ⟨hlt, rfl⟩ := List.getElem?_eq_some_iff.1 hj
    exact dif_pos hlt
  have hself : entry (k + 2) = putDirent (k + 2) f.file := hentry _ _ (entries_file hk)
  have hinum : direntInum (entry (k + 2)) = k + 2 := by
    rw [hself, direntInum_putDirent (by omega)]
  have h0 : 0 ∉ f.stored := fun hm => f.nul (mem_stored hm)
  have hlen14 : f.stored.length ≤ DIRSIZ := List.length_take_le ..
  have hfound := @dirlookup_found _ st' _ (k + 2) f.stored entry
    (h.good hon ROOTINO hlive) (by rw [hnode, h.rootType]) ?_ ?_ ?_ ?_ ?_ (by rw [hinum]; exact hget)
  · rwa [hinum] at hfound
  · rw [hnode, h.rootSize]
    have := Nat.lt_div_mul_add (a := DIRENTSIZE * (files.length + 2)) (b := BSIZE) (by decide)
    rw [Nat.add_mul, Nat.one_mul]
    omega
  · rw [hnode, hdisk]
    exact h.root_present hlt hle
  · intro j hj
    rw [hnode, hdisk, h.entry (List.getElem?_eq_getElem (by omega)), hentry j _
      (List.getElem?_eq_getElem (by omega))]
  · rintro j hj ⟨-, hc⟩
    have he := List.getElem?_eq_getElem (l := entries files) (i := j) (by omega)
    rw [hentry j _ he, namecmp_dirent h0 (entries_nul (List.mem_of_getElem? he)) hlen14] at hc
    exact hn.first hk he hj (of_decide_eq_true hc)
  · refine ⟨by omega, ?_⟩
    rw [hself, namecmp_dirent h0 (fun hm => f.nul (mem_file hm)) hlen14]
    exact decide_eq_true rfl

/-! ## Paths -/

theorem cached_root (h : ∀ j, j ≠ ROOTINO → (st.ino j).ref = 0) : st.cached.length < NINODE := by
  have hsub : st.cached ⊆ [ROOTINO] := by
    intro j hj
    rw [Fs.State.cached, List.mem_filter] at hj
    rw [List.mem_singleton]
    by_contra hne
    rw [h j hne] at hj
    exact absurd hj.2 (by decide)
  have hnodup : st.cached.Nodup := List.nodup_range.filter _
  have := (List.subperm_of_subset hnodup hsub).length_le
  exact Nat.lt_of_le_of_lt this (by decide)

theorem Image.namexFrom (h : Image s files) (hlt : files.length + 2 ≤ NINODES) (hn : Names files)
    (hk : files[k]? = some f) {path : List UInt8} (hp : skipelem path = some (f.stored, [])) (fuel : Nat)
    (hon : On s st) (hroot : st.ino ROOTINO = ⟨2, false, false, Dinode.zero⟩)
    (hother : ∀ j, j ≠ ROOTINO → st.ino j = ⟨0, false, false, Dinode.zero⟩) :
    ∃ st', Fs.namexFrom false (fuel + 2) ROOTINO path st = .ok (some (k + 2, []), st') ∧ On s st' ∧
      (st'.ino (k + 2)).ref = 1 ∧ (st'.ino (k + 2)).locked = false := by
  have hne : k + 2 ≠ ROOTINO := add_two_ne_root
  have hcur : st.cur ROOTINO = s.nodes ROOTINO := by rw [hon.cur]
  have hlock : ilock ROOTINO st = .ok ((), st.lock ROOTINO) := by
    refine ilock_run (by rw [hroot]; decide) (by rw [hroot]) ?_ ?_
    · rw [hon.sb]
      decide
    · rw [hcur, h.rootType]
      decide
  have hget : iget (k + 2) (st.lock ROOTINO) =
      .ok ((), (st.lock ROOTINO).setInode (k + 2) ⟨1, false, false, Dinode.zero⟩) := by
    have hino : (st.lock ROOTINO).ino (k + 2) = ⟨0, false, false, Dinode.zero⟩ := by
      rw [Fs.State.lock_other hne, hother _ hne]
    rw [iget_new (by rw [hino]) (cached_root fun j hj => by
      rw [Fs.State.lock_other hj, hother j hj]), hino]
  have hrun := h.dirlookup hlt hn hon hk hget
  generalize hst' : (st.lock ROOTINO).setInode (k + 2) ⟨1, false, false, Dinode.zero⟩ = st' at hrun
  have hon' : On s st' := hst' ▸ (hon.lock ROOTINO).new (k + 2) rfl
  have hroot' : st'.ino ROOTINO = ⟨2, true, true, s.nodes ROOTINO⟩ := by
    rw [← hst', Fs.State.setInode_other hne.symm, st.lock_self, hroot, hcur]
  have hself' : st'.ino (k + 2) = ⟨1, false, false, Dinode.zero⟩ := by
    rw [← hst', Fs.State.setInode_self]
  have hput : iunlockput ROOTINO st' = .ok ((), (st'.unlock ROOTINO).put ROOTINO) := by
    refine iunlockput_keep (by rw [hroot']) (by rw [hroot']; exact Nat.two_pos) fun hl => ?_
    have := hl.2.2
    rw [hroot'] at this
    cases this
  have hends : Ends (Fs.namexFrom false (fuel + 2) ROOTINO path) st
      (fun r t => r = some (k + 2, []) ∧ t = (st'.unlock ROOTINO).put ROOTINO) fun _ => False := by
    rw [Fs.namexFrom, hp]
    refine .run hlock (.run get_run (.ite (fun hd => ?_) fun _ => .ite (fun hc => ?_) fun _ => ?_))
    · rw [st.lock_node, hcur, h.rootType] at hd
      exact absurd rfl hd
    · cases hc.1
    · exact .run hrun (.run hput (.of_pure ⟨rfl, rfl⟩))
  obtain ⟨_, t, hrun, rfl, rfl⟩ := hends.returns fun _ => id
  refine ⟨_, hrun, (hon'.unlock _).put _, ?_, ?_⟩
  · rw [Fs.State.put_other hne, Fs.State.unlock_other hne, hself']
  · rw [Fs.State.put_other hne, Fs.State.unlock_other hne, hself']

theorem Image.namei (h : Image s files) (devsw : Devsw) (hlt : files.length + 2 ≤ NINODES)
    (hn : Names files) (hk : files[k]? = some f) {path : List UInt8}
    (hp : path = f.stored ∨ path = SLASH :: f.stored) :
    ∃ st, Fs.namei ROOTINO path (boot s.disk devsw) = .ok (some (k + 2), st) ∧ On s st ∧
      (st.ino (k + 2)).ref = 1 ∧ (st.ino (k + 2)).locked = false := by
  have hf := List.mem_of_getElem? hk
  have hs : SLASH ∉ f.stored := fun hm => h.slash f hf (mem_stored hm)
  have hne := (hn.name f hf).1
  have hlen14 : f.stored.length ≤ DIRSIZ := List.length_take_le ..
  have hon : On s (boot s.disk devsw) := ⟨rfl, h.super, boot_cur h, rfl⟩
  have hroot : ((boot s.disk devsw).dup ROOTINO).ino ROOTINO = ⟨2, false, false, Dinode.zero⟩ :=
    Fs.State.setInode_self ..
  have hother : ∀ j, j ≠ ROOTINO →
      ((boot s.disk devsw).dup ROOTINO).ino j = ⟨0, false, false, Dinode.zero⟩ := by
    intro j hj
    rw [Fs.State.dup, Fs.State.setInode_other hj]
    simp only [boot, if_neg hj]
  have hskip : skipelem path = some (f.stored, []) := by
    rcases hp with rfl | rfl
    · exact skipelem_name hs hne hlen14
    · exact skipelem_slash hs hne hlen14
  obtain ⟨m, hm⟩ : ∃ m, path.length + 1 = m + 2 := by
    have := List.length_pos_iff.2 hne
    rcases hp with rfl | rfl
    · exact ⟨f.stored.length - 1, by omega⟩
    · exact ⟨f.stored.length, rfl⟩
  obtain ⟨st, hrun, hst⟩ := h.namexFrom hlt hn hk hskip m (hon.dup ROOTINO) hroot hother
  refine ⟨st, ?_, hst⟩
  have hnamex : namex ROOTINO path false (boot s.disk devsw) = .ok (some (k + 2, []), st) := by
    rw [namex, hm]
    split
    · rw [bind_run (iget_dup Nat.one_pos), hrun]
    · exact hrun
  rw [Fs.namei, bind_run hnamex]
  rfl

/-- **The kernel reads back what `mkfs` wrote.** -/
theorem mkfs_readback (hlt : files.length ≤ NINODES - 2) (hn : Names files)
    (hlen : ∀ f ∈ files, f.data.length ≤ MAXFILE * BSIZE) (hfit : imageBlocks files ≤ FSSIZE) :
    ((∀ f ∈ files, SLASH ∉ f.name) → ∃ s, main files start = .ok ((), s)) ∧
    ∀ s, main files start = .ok ((), s) → ∀ f ∈ files, ∀ path,
      path = f.stored ∨ path = SLASH :: f.stored →
      ∃ i st, namei ROOTINO path (boot s.disk devsw) = .ok (some i, st) ∧
        ilock i st = .ok ((), st.lock i) ∧ ((st.lock i).node i).size = f.data.length ∧
        ∀ off n, off ≤ f.data.length → off + n < 2 ^ 32 →
          readi i off n (st.lock i) = .ok (some ((f.data.drop off).take n), st.lock i) := by
  have hlt' : files.length + 2 ≤ NINODES := by
    have : NINODES = 200 := rfl
    omega
  refine ⟨fun hs => ?_, fun s hrun f hf path hp => ?_⟩
  · obtain ⟨s, hrun, -⟩ := main_returns hlt' (by
      rintro (⟨f, hf, hbad | hbad⟩ | hbad)
      · exact hs f hf hbad
      · exact Nat.not_lt.2 (hlen f hf) hbad
      · exact Nat.not_lt.2 hfit hbad)
    exact ⟨s, hrun⟩
  · have h := (main_image hlt').ok hrun
    obtain ⟨k, hk⟩ := List.mem_iff_getElem?.1 hf
    obtain ⟨st, hnamei, hon, href, hlock⟩ := h.namei devsw hlt' hn hk hp
    have hh := h.file k f hk
    have hnode : (st.lock (k + 2)).node (k + 2) = s.nodes (k + 2) := by rw [st.lock_node, hon.cur]
    refine ⟨k + 2, st, hnamei, ?_, by rw [hnode, hh.size], fun off n ho hn => ?_⟩
    · refine ilock_run (by rw [href]; exact Nat.one_pos) hlock ?_ ?_
      · rw [hon.sb]
        exact (iblock_lt_nmeta hh.inum).trans (by decide)
      · rw [hon.cur]
        exact hh.live.2
    · have hdisk : (st.lock (k + 2)).disk = s.disk := hon.disk
      have hbytes := hh.bytes
      rw [h.disk] at hbytes
      have hread := readi_present (h.good hon (k + 2) hh.live) (by rw [hnode, hh.type]; decide)
        (by rw [hnode, hh.size]; exact ho) hn rfl ?_
      · have htake : (f.data.drop off).take (min n (f.data.length - off)) =
            (f.data.drop off).take n := by
          rw [List.take_eq_take_iff, List.length_drop]
          omega
        rw [hread, hnode, hdisk, hh.size, bytes_take_drop (N := f.data.length) (by omega), hbytes,
          htake]
      · rw [hnode, hdisk, hh.size]
        intro o _ hlt
        have hlt : o / BSIZE * BSIZE < f.data.length := by
          have := Nat.div_mul_le_self o BSIZE
          omega
        have hslot := slot_lt_slots.2 hlt
        have hbn : o / BSIZE < MAXFILE := by
          have := hh.max
          refine Nat.div_lt_of_lt_mul ?_
          rw [Nat.mul_comm]
          omega
        refine ⟨hbn, ?_⟩
        have := (hh.exact _ (slot_lt hbn)).2 hslot
        rwa [h.disk] at this

end

theorem mkfs_readback_three : ∃ s, main [.letters 0 [[1, 2], [3]]] start = .ok ((), s) ∧
    ∃ i st, namei ROOTINO [SLASH, letter 0, letter 0] (boot s.disk ⟨fun _ => none, fun _ => none⟩) =
      .ok (some i, st) ∧ readi i 0 10 (st.lock i) = .ok (some [1, 2, 3], st.lock i) := by
  have hn : Names [.letters 0 [[1, 2], [3]]] := ⟨by decide, by decide⟩
  obtain ⟨hok, hread⟩ := @mkfs_readback _ ⟨fun _ => none, fun _ => none⟩ (by decide) hn
    (by decide) (by decide)
  obtain ⟨s, hrun⟩ := hok (by decide)
  obtain ⟨i, st, hnamei, -, -, hr⟩ := hread s hrun _ (List.mem_singleton.2 rfl) _ (.inr rfl)
  exact ⟨s, hrun, i, st, hnamei, hr 0 10 (Nat.zero_le _) (by decide)⟩

end Fs.Mkfs
