import Xv6.Fs.Proof.Own

/-!
# Allocating the blocks of a file

`bmap` grows the inode by the pointers that it needs and that are missing (`bmap_spec`). No file
changes by that, since a block that a file does not have reads as zero, and a new one is zero.
-/

namespace Fs

open Bytes Finset
open Function
open Log (Block Disk)
open Panic

/-- A consistent disk, with a valid copy of the inode. -/
structure Good (s : State) (i : Nat) : Prop where
  log : s.log = none
  geo : s.sb.Geometry
  owned : Owned s.sb s.disk s.cur
  valid : (s.ino i).valid = true
  live : Live s.sb s.cur i
  fits : (s.node i).Fits

theorem Good.cur {s : State} {i : Nat} (h : Good s i) : s.cur i = s.node i := by
  rw [State.cur, if_pos h.valid, State.node]

/-- The inode `i` got the pointers `K`, and no pointer of another inode changed. -/
structure Pointed (i : Nat) (K : Finset Nat) (s s' : State) : Prop where
  sb : s'.sb = s.sb
  rest : s'.devsw = s.devsw ∧ s'.released = s.released
  low : ∀ x < s.sb.bmapstart, s'.disk x = s.disk x
  ino : ∀ j ≠ i, s'.ino j = s.ino j
  self : ∃ addrs, s'.ino i = { s.ino i with d := { s.node i with addrs := addrs } }
  fresh : ∀ k ∈ K, k < NSLOT ∧ ptr s.disk (s.node i) k = 0 ∧ ptr s'.disk (s'.node i) k ≠ 0
  keep : ∀ k < NSLOT, k ∉ K → ptr s'.disk (s'.node i) k = ptr s.disk (s.node i) k
  other : ∀ j ≠ i, Live s.sb s.cur j → ∀ k < NSLOT,
    ptr s'.disk (s'.cur j) k = ptr s.disk (s.cur j) k
  free : s'.free + K.card = s.free

/-- The inode `i` got the pointers `K`, and no file changed. -/
structure Grown (i : Nat) (K : Finset Nat) (s s' : State) : Prop extends Pointed i K s s' where
  bytes : ∀ j, Live s.sb s.cur j → ∀ off, off / BSIZE < MAXFILE →
    byte s'.disk (s'.cur j) off = byte s.disk (s.cur j) off

section
variable {s s' s'' : State} {i b k : Nat} {K L : Finset Nat}

theorem slot_lt {bn : Nat} (h : bn < MAXFILE) : slot bn < NSLOT := by
  unfold MAXFILE at h
  unfold slot NSLOT
  split <;> omega

theorem slot_ne {bn : Nat} : slot bn ≠ NDIRECT := by
  unfold slot
  split <;> omega

theorem slot_inj {bn bn' : Nat} (h : slot bn = slot bn') : bn = bn' := by
  unfold slot at h
  split at h <;> split at h <;> omega

namespace Pointed

theorem refl : Pointed i ∅ s s where
  sb := rfl
  rest := ⟨rfl, rfl⟩
  low _ _ := rfl
  ino _ _ := rfl
  self := ⟨_, rfl⟩
  fresh k hk := absurd hk (notMem_empty k)
  keep _ _ _ := rfl
  other _ _ _ _ _ := rfl
  free := rfl

section
variable (h : Pointed i K s s')
include h

theorem cur_other (hg : s.sb.Geometry) {j : Nat} (hj : j ≠ i)
    (hlt : j < s.sb.ninodes) : s'.cur j = s.cur j := by
  rw [State.cur, State.cur, h.ino j hj, h.sb, dinode, h.low _ (hg.inodes j hlt), ← dinode]

theorem type : (s'.node i).type = (s.node i).type := by
  obtain ⟨addrs, ha⟩ := h.self
  rw [State.node, ha]

theorem size : (s'.node i).size = (s.node i).size := by
  obtain ⟨addrs, ha⟩ := h.self
  rw [State.node, ha]

theorem live_iff (hs : Good s i) (hs' : Good s' i) (j : Nat) :
    Live s'.sb s'.cur j ↔ Live s.sb s.cur j := by
  unfold Live
  rw [h.sb]
  refine and_congr_right fun hlt => ?_
  by_cases hj : j = i
  · subst hj
    rw [hs'.cur, hs.cur, h.type]
  · rw [h.cur_other hs.geo hj hlt]

theorem disjoint (h' : Pointed i L s' s'') : Disjoint K L := by
  rw [disjoint_left]
  intro k hkK hkL
  exact (h.fresh k hkK).2.2 (h'.fresh k hkL).2.1

theorem trans (h' : Pointed i L s' s'') (hs : Good s i) (hs' : Good s' i) :
    Pointed i (K ∪ L) s s'' where
  sb := h'.sb.trans h.sb
  rest := ⟨h'.rest.1.trans h.rest.1, h'.rest.2.trans h.rest.2⟩
  low x hx := (h'.low x (by rw [h.sb]; exact hx)).trans (h.low x hx)
  ino j hj := (h'.ino j hj).trans (h.ino j hj)
  self := by
    obtain ⟨addrs, ha⟩ := h.self
    obtain ⟨addrs', ha'⟩ := h'.self
    exact ⟨addrs', by rw [ha', State.node, ha]⟩
  fresh k hk := by
    by_cases hkK : k ∈ K
    · obtain ⟨h1, h2, h3⟩ := h.fresh k hkK
      refine ⟨h1, h2, ?_⟩
      by_cases hkL : k ∈ L
      · exact (h'.fresh k hkL).2.2
      · rw [h'.keep k h1 hkL]
        exact h3
    · have hkL : k ∈ L := (mem_union.1 hk).resolve_left hkK
      obtain ⟨h1, h2, h3⟩ := h'.fresh k hkL
      exact ⟨h1, by rw [← h.keep k h1 hkK]; exact h2, h3⟩
  keep k hk hn := by
    rw [mem_union, not_or] at hn
    rw [h'.keep k hk hn.2, h.keep k hk hn.1]
  other j hj hl k hk := by
    rw [h'.other j hj ((h.live_iff hs hs' j).2 hl) k hk, h.other j hj hl k hk]
  free := by
    rw [card_union_of_disjoint (h.disjoint h'), ← h.free, ← h'.free]
    omega

end

end Pointed

namespace Grown

theorem refl : Grown i ∅ s s := ⟨.refl, fun _ _ _ _ => rfl⟩

theorem trans (h : Grown i K s s') (h' : Grown i L s' s'') (hs : Good s i) (hs' : Good s' i) :
    Grown i (K ∪ L) s s'' where
  toPointed := h.toPointed.trans h'.toPointed hs hs'
  bytes j hl off ho := by
    rw [h'.bytes j ((h.live_iff hs hs' j).2 hl) off ho, h.bytes j hl off ho]

theorem one (hs : Good s i) (hb : s.sb.IsData b) (hu : used s.sb s.disk b = false) (hk : k < NSLOT)
    (h0 : ptr s.disk (s.node i) k = 0) (hsb : s'.sb = s.sb)
    (hrest : s'.devsw = s.devsw ∧ s'.released = s.released) (hlog : s'.log = s.log)
    (hlow : ∀ x < s.sb.bmapstart, s'.disk x = s.disk x) (hino : ∀ j ≠ i, s'.ino j = s.ino j)
    (hself : ∃ addrs, s'.ino i = { s.ino i with d := { s.node i with addrs := addrs } })
    (hfits : (s'.node i).Fits)
    (hptr : ∀ j l, Live s.sb s.cur j → l < NSLOT →
      ptr s'.disk (s'.cur j) l = if j = i ∧ l = k then b else ptr s.disk (s.cur j) l)
    (hused : ∀ x < s.sb.size, used s.sb s'.disk x = (decide (x = b) || used s.sb s.disk x))
    (hzero : k ≠ NDIRECT → s'.disk b = fill 0)
    (hdata : ∀ j l, Live s.sb s.cur j → l < NSLOT → l ≠ NDIRECT → ptr s.disk (s.cur j) l ≠ 0 →
      s'.disk (ptr s.disk (s.cur j) l) = s.disk (ptr s.disk (s.cur j) l)) :
    Good s' i ∧ Grown i {k} s s' := by
  have hb0 : b ≠ 0 := hs.geo.pos hb
  obtain ⟨addrs, ha⟩ := hself
  have hvalid : (s'.ino i).valid = true := by
    rw [ha]
    exact hs.valid
  have hcur : s'.cur i = s'.node i := by rw [State.cur, if_pos hvalid, State.node]
  have hother : ∀ j ≠ i, j < s.sb.ninodes → s'.cur j = s.cur j := by
    intro j hj hlt
    rw [State.cur, State.cur, hino j hj, hsb, dinode, hlow _ (hs.geo.inodes j hlt), ← dinode]
  have htype : (s'.node i).type = (s.node i).type := by rw [State.node, ha]
  have hlive : ∀ j, Live s.sb s'.cur j ↔ Live s.sb s.cur j := by
    intro j
    refine and_congr_right fun hlt => ?_
    by_cases hj : j = i
    · subst hj
      rw [hcur, hs.cur, htype]
    · rw [hother j hj hlt]
  have hown : Owned s.sb s'.disk s'.cur :=
    hs.owned.grow hs.geo hs.live hk (by rw [hs.cur]; exact h0) hb hu hlive hptr hused
  refine ⟨⟨hlog.trans hs.log, by rw [hsb]; exact hs.geo, by rw [hsb]; exact hown, hvalid,
    by rw [hsb]; exact (hlive i).2 hs.live, hfits⟩, ?_⟩
  refine ⟨⟨hsb, hrest, hlow, hino, ⟨addrs, ha⟩, fun l hl => ?_, fun l hl hlk => ?_,
    fun j hj hlj l hl => ?_, ?_⟩, fun j hlj off ho => ?_⟩
  · obtain rfl := mem_singleton.1 hl
    refine ⟨hk, h0, ?_⟩
    rw [← hcur, hptr i _ hs.live hk, if_pos ⟨rfl, rfl⟩]
    exact hb0
  · rw [← hcur, hptr i l hs.live hl, if_neg fun h => hlk (mem_singleton.2 h.2), hs.cur]
  · rw [hptr j l hlj hl, if_neg fun h => hj h.1]
  · rw [card_singleton, State.free, State.free, hsb]
    refine card_filter_erase hb.2 hu fun x hx => ?_
    rw [hused x hx]
    simp [and_comm]
  · simp only [byte]
    rw [hptr j _ hlj (slot_lt ho)]
    by_cases hji : j = i ∧ slot (off / BSIZE) = k
    · rw [if_pos hji, if_neg hb0, hji.1, hji.2, hs.cur, h0, if_pos rfl,
        hzero (by rw [← hji.2]; exact slot_ne)]
      rfl
    · rw [if_neg hji]
      by_cases hz : ptr s.disk (s.cur j) (slot (off / BSIZE)) = 0
      · rw [if_pos hz, if_pos hz]
      · rw [if_neg hz, if_neg hz, hdata j _ hlj (slot_lt ho) slot_ne hz]

end Grown

/-! ## Pointers on the disk -/

theorem ptr_addrs {disk : Disk} {d : Dinode} (hk : k ≤ NDIRECT) : ptr disk d k = d.addrs k :=
  if_pos hk

theorem ptr_entry {disk : Disk} {d : Dinode} {j : Nat} (h : d.addrs NDIRECT ≠ 0) :
    ptr disk d (NDIRECT + 1 + j) = get32 (disk (d.addrs NDIRECT)) (4 * j) := by
  rw [ptr, if_neg (by omega), if_neg h, Nat.add_sub_cancel_left]

theorem ptr_congr {disk disk' : Disk} {d : Dinode}
    (h : d.addrs NDIRECT ≠ 0 → disk' (d.addrs NDIRECT) = disk (d.addrs NDIRECT)) :
    ptr disk' d k = ptr disk d k := by
  unfold ptr
  split
  · rfl
  · split
    · rfl
    · rw [h ‹_›]

theorem ptr_of_addrs {disk : Disk} {d d' : Dinode} (h : d'.addrs = d.addrs) :
    ptr disk d' k = ptr disk d k := by
  rw [ptr, ptr, h]

theorem Owned.ptr_eq {sb : Super} {disk disk' : Disk} {nodes : Nat → Dinode} {j : Nat}
    (h : Owned sb disk nodes) (hj : Live sb nodes j) (hdata : ∀ x, sb.IsData x → disk' x = disk x) :
    ptr disk' (nodes j) k = ptr disk (nodes j) k := by
  refine ptr_congr fun h0 => hdata _ ?_
  have hp : ptr disk (nodes j) NDIRECT = (nodes j).addrs NDIRECT := ptr_addrs (Nat.le_refl _)
  rw [← hp] at h0 ⊢
  exact h.range j _ hj (by decide) h0

theorem Owned.byte_eq {sb : Super} {disk disk' : Disk} {nodes : Nat → Dinode} {j o : Nat}
    (h : Owned sb disk nodes) (hj : Live sb nodes j) (hdata : ∀ x, sb.IsData x → disk' x = disk x)
    (ho : o / BSIZE < MAXFILE) : byte disk' (nodes j) o = byte disk (nodes j) o := by
  simp only [byte, h.ptr_eq hj hdata]
  split
  · rfl
  · rw [hdata _ (h.range j _ hj (slot_lt ho) ‹_›)]

theorem Good.owned_ptr (hs : Good s i) {j l : Nat} (hj : Live s.sb s.cur j) (hl : l < NSLOT)
    (h : ptr s.disk (s.cur j) l ≠ 0) :
    s.sb.IsData (ptr s.disk (s.cur j) l) ∧ used s.sb s.disk (ptr s.disk (s.cur j) l) = true := by
  have hd := hs.owned.range j l hj hl h
  exact ⟨hd, (hs.owned.bits _ hd).2 ⟨j, l, hj, hl, rfl⟩⟩

theorem Good.data_of (hs : Good s i) (hk : k < NSLOT) (hb : ptr s.disk (s.node i) k = b)
    (hne : b ≠ 0) : s.sb.IsData b ∧ used s.sb s.disk b = true := by
  have hp : ptr s.disk (s.cur i) k = b := by rw [hs.cur, hb]
  have := hs.owned_ptr hs.live hk (by rw [hp]; exact hne)
  rwa [hp] at this

theorem Good.ptr_ne (hs : Good s i) (hu : used s.sb s.disk b = false) {j l : Nat}
    (hj : Live s.sb s.cur j) (hl : l < NSLOT) (h : ptr s.disk (s.cur j) l ≠ 0) :
    ptr s.disk (s.cur j) l ≠ b := by
  rintro rfl
  rw [(hs.owned_ptr hj hl h).2] at hu
  cases hu

theorem Good.alloc_indirect (hs : Good s i) (hb : s.sb.IsData b) (hu : used s.sb s.disk b = false)
    {j : Nat} (hj : Live s.sb s.cur j) (h : (s.cur j).addrs NDIRECT ≠ 0) :
    allocDisk s.sb s.disk b ((s.cur j).addrs NDIRECT) = s.disk ((s.cur j).addrs NDIRECT) := by
  have hl : NDIRECT < NSLOT := by decide
  have hp : ptr s.disk (s.cur j) NDIRECT = (s.cur j).addrs NDIRECT := ptr_addrs (Nat.le_refl _)
  rw [← hp] at h ⊢
  exact allocDisk_data hs.geo hb (hs.owned_ptr hj hl h).1 (hs.ptr_ne hu hj hl h)

/-! ## The three places -/

theorem Dinode.Fits.setAddr {d : Dinode} (h : d.Fits) (hk : k ≤ NDIRECT) (hb : b < 2 ^ 32) :
    (d.setAddr k b).Fits := by
  refine ⟨h.type, h.major, h.minor, h.nlink, h.size, fun l => ?_, fun l hl => ?_⟩
  · change update d.addrs k b l < _
    rw [update_apply]
    split
    · exact hb
    · exact h.addrs l
  · change update d.addrs k b l = 0
    rw [update_of_ne (by omega)]
    exact h.last l hl

theorem Good.grow_addr (hs : Good s i) (hb : s.sb.IsData b) (hu : used s.sb s.disk b = false)
    (hk : k ≤ NDIRECT) (h0 : (s.node i).addrs k = 0) :
    let s' := { s with disk := allocDisk s.sb s.disk b }.setNode i ((s.node i).setAddr k b)
    Good s' i ∧ Grown i {k} s s' ∧ (s'.node i).addrs k = b := by
  intro s'
  have hklt : k < NSLOT := Nat.lt_of_le_of_lt hk (by decide)
  have hino : ∀ j ≠ i, s'.ino j = s.ino j := fun j hj => update_of_ne hj ..
  have hself : s'.ino i = { s.ino i with d := (s.node i).setAddr k b } := update_self ..
  have hnode : s'.node i = (s.node i).setAddr k b := by rw [State.node, hself]
  have haddrs : (s'.node i).addrs = update (s.node i).addrs k b := by rw [hnode]; rfl
  have hcur : s'.cur i = s'.node i := by
    rw [State.cur, if_pos (by rw [hself]; exact hs.valid), State.node]
  have hb32 : b < 2 ^ 32 := Nat.lt_of_lt_of_le (hs.geo.lt_FSSIZE hb) (by decide)
  have hone : Good s' i ∧ Grown i {k} s s' :=
    Grown.one hs hb hu hklt (by rw [ptr_addrs hk]; exact h0) rfl ⟨rfl, rfl⟩
    rfl (fun x hx => allocDisk_low hs.geo hb hx) hino ⟨_, hself⟩ ?_ ?_
    (fun x hx => allocDisk_used hs.geo hb hx) (fun _ => allocDisk_self)
    fun j l hj hl _ h => allocDisk_data hs.geo hb (hs.owned_ptr hj hl h).1 (hs.ptr_ne hu hj hl h)
  · exact ⟨hone.1, hone.2, by rw [haddrs, update_self]⟩
  · rw [hnode]
    exact hs.fits.setAddr hk hb32
  · intro j l hj hl
    by_cases hji : j = i
    · subst hji
      rw [hcur]
      by_cases hl12 : l ≤ NDIRECT
      · rw [ptr_addrs hl12, haddrs, hs.cur, ptr_addrs hl12, update_apply]
        simp
      · rw [if_neg (by omega)]
        by_cases hk12 : k = NDIRECT
        · -- the new indirect block has no pointers
          subst hk12
          have hind : (s'.node j).addrs NDIRECT = b := by rw [haddrs, update_self]
          rw [ptr, if_neg hl12, hind, if_neg (hs.geo.pos hb), ptr, if_neg hl12, hs.cur, if_pos h0]
          exact congrArg (fun x => get32 x _) allocDisk_self
        · have hind : (s'.node j).addrs NDIRECT = (s.node j).addrs NDIRECT := by
            rw [haddrs, update_of_ne (Ne.symm hk12)]
          rw [ptr, ptr, if_neg hl12, if_neg hl12, hind, hs.cur]
          split
          · rfl
          · have := hs.alloc_indirect hb hu hj (by rw [hs.cur]; assumption)
            rw [hs.cur] at this
            exact congrArg (fun x => get32 x _) this
    · rw [if_neg fun h => hji h.1]
      have hc : s'.cur j = s.cur j := by
        rw [State.cur, State.cur, hino j hji]
        exact congrArg _ (allocDisk_dinode hs.geo hb hj.1)
      rw [hc]
      exact ptr_congr fun h => hs.alloc_indirect hb hu hj h

theorem Good.grow_entry (hs : Good s i) (hb : s.sb.IsData b) (hu : used s.sb s.disk b = false)
    {j x : Nat} (hj : j < NINDIRECT) (hx : (s.node i).addrs NDIRECT = x) (hind : x ≠ 0)
    (h0 : get32 (s.disk x) (4 * j) = 0) :
    let s' := { s with disk := allocDisk s.sb s.disk b }.setBlock x (put32 (s.disk x) (4 * j) b)
    Good s' i ∧ Grown i {NDIRECT + 1 + j} s s' ∧
      ptr s'.disk (s'.node i) (NDIRECT + 1 + j) = b := by
  intro s'
  have hl12 : NDIRECT < NSLOT := by decide
  have hxp : ptr s.disk (s.cur i) NDIRECT = x := by rw [ptr_addrs (Nat.le_refl _), hs.cur, hx]
  have hxd := (hs.owned_ptr hs.live hl12 (by rw [hxp]; exact hind)).1
  have hxb := hs.ptr_ne hu hs.live hl12 (by rw [hxp]; exact hind)
  rw [hxp] at hxd hxb
  have hk : NDIRECT + 1 + j < NSLOT := Nat.add_lt_add_left hj _
  have hb32 : b % 2 ^ 32 = b :=
    Nat.mod_eq_of_lt (Nat.lt_of_lt_of_le (hs.geo.lt_FSSIZE hb) (by decide))
  have hdx : s'.disk x = put32 (s.disk x) (4 * j) b := update_self ..
  have hd : ∀ y, y ≠ x → s'.disk y = allocDisk s.sb s.disk b y := fun y hy =>
    update_of_ne hy ..
  have hlow : ∀ y < s.sb.bmapstart, s'.disk y = s.disk y := by
    intro y hy
    have h1 := hs.geo.bitmap
    have h2 := hxd.1
    rw [hd y (by omega), allocDisk_low hs.geo hb hy]
  have hdata : ∀ j' l, Live s.sb s.cur j' → l < NSLOT → ptr s.disk (s.cur j') l ≠ 0 →
      ptr s.disk (s.cur j') l ≠ x →
      s'.disk (ptr s.disk (s.cur j') l) = s.disk (ptr s.disk (s.cur j') l) := by
    intro j' l hj' hl h hne
    rw [hd _ hne]
    exact allocDisk_data hs.geo hb (hs.owned_ptr hj' hl h).1 (hs.ptr_ne hu hj' hl h)
  have hself : ptr s'.disk (s.node i) (NDIRECT + 1 + j) = b := by
    rw [ptr_entry (by rw [hx]; exact hind), hx, hdx, get32_put32, hb32]
  have hone : Good s' i ∧ Grown i {NDIRECT + 1 + j} s s' := Grown.one hs hb hu hk
    (by rw [ptr_entry (by rw [hx]; exact hind), hx]; exact h0) rfl ⟨rfl, rfl⟩ rfl hlow
    (fun _ _ => rfl) ⟨(s.node i).addrs, rfl⟩ hs.fits ?_ ?_
    (fun _ => by rw [hd b (Ne.symm hxb), allocDisk_self]) ?_
  · exact ⟨hone.1, hone.2, hself⟩
  · intro j' l hj' hl
    have hc : s'.cur j' = s.cur j' := by
      change (if _ then _ else getDinode (s'.disk (s.sb.iblock j')) _) = _
      rw [hlow _ (hs.geo.inodes j' hj'.1)]
      rfl
    rw [hc]
    by_cases hji : j' = i
    · subst hji
      rw [hs.cur]
      by_cases hlk : l = NDIRECT + 1 + j
      · rw [if_pos ⟨rfl, hlk⟩, hlk, hself]
      · rw [if_neg fun h => hlk h.2, ptr, ptr]
        split
        · rfl
        · rename_i hl'
          rw [hx, if_neg hind, if_neg hind, hdx, get32_put32_ne]
          omega
    · rw [if_neg fun h => hji h.1]
      refine ptr_congr fun h => ?_
      have hp : ptr s.disk (s.cur j') NDIRECT = (s.cur j').addrs NDIRECT :=
        ptr_addrs (Nat.le_refl _)
      rw [← hp] at h ⊢
      refine hdata j' _ hj' hl12 h fun he => hji ?_
      exact (hs.owned.once j' _ i _ hj' hs.live hl12 hl12 h (by rw [he, hxp])).1
  · intro y hy
    have hbm : s.sb.bmapstart ≠ x := by
      have h1 := hs.geo.bitmap
      have h2 := hxd.1
      omega
    rw [hs.geo.used_eq hy, hd _ hbm, ← hs.geo.used_eq hy]
    exact allocDisk_used hs.geo hb hy
  · intro j' l hj' hl hne h
    refine hdata j' l hj' hl h fun he => hne ?_
    exact (hs.owned.once j' _ i _ hj' hs.live hl hl12 h (by rw [he, hxp])).2

/-! ## `bmap` -/

def touch (bn : Nat) : Finset Nat := if bn < NDIRECT then {bn} else {NDIRECT, bn + 1}

def State.missing (s : State) (i : Nat) (T : Finset Nat) : Finset Nat :=
  T.filter fun k => ptr s.disk (s.node i) k = 0

theorem slot_mem_touch {bn : Nat} : slot bn ∈ touch bn := by
  unfold slot touch
  split <;> simp

theorem bmapAddr_spec (hs : Good s i) (hk : k ≤ NDIRECT) : Ends (bmapAddr i k) s
      (fun a s' => Good s' i ∧ Grown i (s.missing i {k}) s s' ∧ (s'.node i).addrs k = a ∧ a ≠ 0)
      (fun e => e = "balloc: out of blocks" ∧ s.free < (s.missing i {k}).card) := by
  have hp : ptr s.disk (s.node i) k = (s.node i).addrs k := ptr_addrs hk
  rw [bmapAddr]
  refine .run get_run (.ite (fun h0 => ?_) fun h0 => .of_pure ?_)
  · have hm : s.missing i {k} = {k} := by
      rw [State.missing, filter_singleton, if_pos (hp.trans h0)]
    rw [hm]
    refine .bind ((balloc_spec hs.log hs.geo hs.owned.system).weaken fun e he => ?_) ?_
    · exact ⟨he.1, by rw [he.2]; exact Nat.one_pos⟩
    · rintro b _ ⟨hb, hu, -, rfl⟩
      obtain ⟨h1, h2, h3⟩ := hs.grow_addr hb hu hk h0
      exact .run rfl (.of_pure ⟨h1, h2, h3, hs.geo.pos hb⟩)
  · have hm : s.missing i {k} = ∅ := by
      rw [State.missing, filter_singleton, if_neg (by rw [hp]; exact h0)]
    rw [hm]
    exact ⟨hs, .refl, rfl, h0⟩

theorem bmap_range {bn : Nat} (h : MAXFILE ≤ bn) : bmap i bn s = .error "bmap: out of range" := by
  unfold MAXFILE at h
  rw [bmap, if_neg (by omega), if_neg (by omega)]
  rfl

theorem bmap_spec {bn : Nat} (hs : Good s i) (hbn : bn < MAXFILE) : Ends (bmap i bn) s
      (fun a s' => Good s' i ∧ Grown i (s.missing i (touch bn)) s s' ∧
        ptr s'.disk (s'.node i) (slot bn) = a ∧ a ≠ 0)
      (fun e => e = "balloc: out of blocks" ∧ s.free < (s.missing i (touch bn)).card) := by
  rw [bmap]
  refine .ite (fun hlt => ?_) fun hge => .ite (fun hlt => ?_) fun hge' => ?_
  · have ht : touch bn = {bn} := if_pos hlt
    have hsl : slot bn = bn := if_pos hlt
    rw [ht, hsl]
    refine (bmapAddr_spec hs (Nat.le_of_lt hlt)).mono ?_ fun _ => id
    rintro a s' ⟨h1, h2, h3, h4⟩
    exact ⟨h1, h2, by rw [ptr_addrs (Nat.le_of_lt hlt), h3], h4⟩
  · obtain ⟨j, rfl⟩ := Nat.exists_eq_add_of_le (Nat.not_lt.1 hge)
    rw [Nat.add_sub_cancel_left] at hlt ⊢
    have hsl : slot (NDIRECT + j) = NDIRECT + 1 + j := by
      rw [slot, if_neg hge]
      omega
    have hk : NDIRECT + 1 + j < NSLOT := Nat.add_lt_add_left hlt _
    have ht : touch (NDIRECT + j) = {NDIRECT} ∪ {NDIRECT + 1 + j} := by
      rw [touch, if_neg hge, Nat.add_right_comm]
      rfl
    have hm : s.missing i (touch (NDIRECT + j)) =
        s.missing i {NDIRECT} ∪ s.missing i {NDIRECT + 1 + j} := by
      rw [ht, State.missing, filter_union]
      rfl
    have hnot : NDIRECT + 1 + j ∉ s.missing i {NDIRECT} := by
      intro h
      have := mem_singleton.1 (mem_filter.1 h).1
      omega
    rw [hm, hsl]
    refine .bind ((bmapAddr_spec hs (Nat.le_refl _)).weaken fun e he => ?_) ?_
    · exact ⟨he.1, Nat.lt_of_lt_of_le he.2 (card_le_card subset_union_left)⟩
    rintro ind s1 ⟨hs1, hg1, hind, hne⟩
    have hp1 : ptr s1.disk (s1.node i) (NDIRECT + 1 + j) = get32 (s1.disk ind) (4 * j) := by
      rw [ptr_entry (by rw [hind]; exact hne), hind]
    have hp : ptr s.disk (s.node i) (NDIRECT + 1 + j) = get32 (s1.disk ind) (4 * j) := by
      rw [← hg1.keep _ hk hnot, hp1]
    have hdata : s1.sb.IsData ind :=
      (hs1.data_of (by decide) ((ptr_addrs (Nat.le_refl _)).trans hind) hne).1
    refine .run (bread_run (hs1.geo.lt_FSSIZE hdata)) (.ite (fun h0 => ?_) fun h0 => .of_pure ?_)
    · have hm2 : s.missing i {NDIRECT + 1 + j} = {NDIRECT + 1 + j} := by
        rw [State.missing, filter_singleton, if_pos (hp.trans h0)]
      rw [hm2]
      refine .bind ((balloc_spec hs1.log hs1.geo hs1.owned.system).weaken fun e he => ?_) ?_
      · refine ⟨he.1, ?_⟩
        rw [card_union_of_disjoint (disjoint_singleton_right.2 hnot), ← hg1.free,
          he.2]
        simp
      · rintro b _ ⟨hb, hu, -, rfl⟩
        obtain ⟨h1, h2, h3⟩ := hs1.grow_entry hb hu hlt hind hne h0
        exact .run (logWrite_run hs1.log) (.of_pure ⟨h1, hg1.trans h2 hs hs1, h3, hs1.geo.pos hb⟩)
    · have hm2 : s.missing i {NDIRECT + 1 + j} = ∅ := by
        rw [State.missing, filter_singleton, if_neg (by rw [hp]; exact h0)]
      rw [hm2, union_empty]
      exact ⟨hs1, hg1, hp1, h0⟩
  · unfold MAXFILE at hbn
    omega

end

end Fs
