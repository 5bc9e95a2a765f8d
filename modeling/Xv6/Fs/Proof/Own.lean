import Mathlib.Data.Finset.Card
import Mathlib.Tactic.Ring
import Xv6.Base.Outcome
import Xv6.Fs.Inode
import Xv6.Fs.Proof.Codec

/-!
# Block ownership

A file system is a super block, a disk and the current inodes, those in memory where the copy is
valid. `Owned` is the ownership of blocks: each data block has at most one pointer to it, and its bit
is set exactly if it has one. A block that is free joins an inode by one pointer (`Owned.grow`).
-/

namespace Fs

open Bytes Finset
open Function
open Log (Block Disk)
open Panic
open Param

/-! ## File systems -/

/-- The areas of the disk follow each other; the bit map is one block. -/
structure Super.Geometry (sb : Super) : Prop where
  super : 1 < sb.inodestart
  inodes : ∀ i < sb.ninodes, sb.iblock i < sb.bmapstart
  bitmap : sb.bmapstart < sb.data
  data : sb.data ≤ sb.size
  size : sb.size ≤ FSSIZE
  fits : sb.Fits

def Super.IsData (sb : Super) (b : Nat) : Prop := sb.data ≤ b ∧ b < sb.size

def Live (sb : Super) (nodes : Nat → Dinode) (i : Nat) : Prop :=
  i < sb.ninodes ∧ (nodes i).type ≠ 0

/-- **Block ownership.** -/
structure Owned (sb : Super) (disk : Disk) (nodes : Nat → Dinode) : Prop where
  range : ∀ i k, Live sb nodes i → k < NSLOT → ptr disk (nodes i) k ≠ 0 →
    sb.IsData (ptr disk (nodes i) k)
  once : ∀ i k j l, Live sb nodes i → Live sb nodes j → k < NSLOT → l < NSLOT →
    ptr disk (nodes i) k ≠ 0 → ptr disk (nodes i) k = ptr disk (nodes j) l → i = j ∧ k = l
  bits : ∀ b, sb.IsData b → (used sb disk b = true ↔
    ∃ i k, Live sb nodes i ∧ k < NSLOT ∧ ptr disk (nodes i) k = b)
  system : ∀ b < sb.data, used sb disk b = true

section
variable {sb : Super} {disk disk' : Disk} {nodes nodes' : Nat → Dinode} {b i k x : Nat}

namespace Super.Geometry

theorem bblock_eq (h : sb.Geometry) (hx : x < sb.size) : sb.bblock x = sb.bmapstart := by
  have := h.size
  unfold FSSIZE at this
  unfold Super.bblock BPB BSIZE
  omega

theorem used_eq (h : sb.Geometry) (hx : x < sb.size) :
    used sb disk x = getBit (disk sb.bmapstart) x := by
  have := h.size
  unfold FSSIZE at this
  rw [used, h.bblock_eq hx, Nat.mod_eq_of_lt (by unfold BPB BSIZE; omega)]

theorem pos (h : sb.Geometry) (hb : sb.IsData b) : b ≠ 0 := by
  have h1 := h.bitmap
  have h2 := hb.1
  omega

theorem lt_FSSIZE (h : sb.Geometry) (hb : sb.IsData b) : b < FSSIZE :=
  Nat.lt_of_lt_of_le hb.2 h.size

theorem iblock_ne (h : sb.Geometry) (hi : i < sb.ninodes) (hb : sb.IsData b) : sb.iblock i ≠ b := by
  have h1 := h.bitmap
  have h2 := h.inodes i hi
  have h3 := hb.1
  omega

end Super.Geometry

section
variable (h : Owned sb disk nodes) (hg : sb.Geometry)
include h hg

/-- The pointers that are not zero are those that were there. -/
theorem Owned.of_ptrs (hnew : ∀ j l, Live sb nodes' j → l < NSLOT → ptr disk' (nodes' j) l ≠ 0 →
      Live sb nodes j ∧ ptr disk' (nodes' j) l = ptr disk (nodes j) l)
    (hold : ∀ j l, Live sb nodes j → l < NSLOT →
      Live sb nodes' j ∧ ptr disk' (nodes' j) l = ptr disk (nodes j) l)
    (hused : ∀ x < sb.size, used sb disk' x = used sb disk x) : Owned sb disk' nodes' := by
  refine ⟨fun j l hj hl h0 => ?_, fun j l j' l' hj hj' hl hl' h0 he => ?_, fun x hx => ?_,
    fun x hx => ?_⟩
  · obtain ⟨hj, hp⟩ := hnew j l hj hl h0
    rw [hp] at h0 ⊢
    exact h.range j l hj hl h0
  · obtain ⟨hj, hp⟩ := hnew j l hj hl h0
    obtain ⟨hj', hp'⟩ := hnew j' l' hj' hl' (he ▸ h0)
    rw [hp] at h0 he
    rw [hp'] at he
    exact h.once j l j' l' hj hj' hl hl' h0 he
  · rw [hused x hx.2, h.bits x hx]
    constructor
    · rintro ⟨j, l, hj, hl, hp⟩
      obtain ⟨hj', hp'⟩ := hold j l hj hl
      exact ⟨j, l, hj', hl, by rw [hp', hp]⟩
    · rintro ⟨j, l, hj, hl, hp⟩
      obtain ⟨hj, hp'⟩ := hnew j l hj hl (by rw [hp]; exact hg.pos hx)
      exact ⟨j, l, hj, hl, by rw [← hp', hp]⟩
  · rw [hused x (Nat.lt_of_lt_of_le hx hg.data)]
    exact h.system x hx

theorem Owned.congr (hlive : ∀ j, Live sb nodes' j ↔ Live sb nodes j)
    (hptr : ∀ j l, Live sb nodes j → l < NSLOT → ptr disk' (nodes' j) l = ptr disk (nodes j) l)
    (hused : ∀ x < sb.size, used sb disk' x = used sb disk x) : Owned sb disk' nodes' := by
  refine h.of_ptrs hg (fun j l hj hl _ => ?_) (fun j l hj hl => ⟨(hlive j).2 hj, hptr j l hj hl⟩) hused
  rw [hlive] at hj
  exact ⟨hj, hptr j l hj hl⟩

theorem Owned.of_nodes (heq : ∀ j < sb.ninodes, nodes' j = nodes j) : Owned sb disk nodes' := by
  refine h.congr hg (fun j => and_congr_right fun hj => ?_) (fun j l hj _ => ?_) fun _ _ => rfl
  · rw [heq j hj]
  · rw [heq j hj.1]

theorem Owned.add (hlive : ∀ j, Live sb nodes' j → j = i ∨ Live sb nodes j)
    (hold : ∀ j, Live sb nodes j → Live sb nodes' j)
    (hzero : ∀ l < NSLOT, ptr disk' (nodes' i) l = 0)
    (hptr : ∀ j l, j ≠ i → Live sb nodes j → l < NSLOT →
      ptr disk' (nodes' j) l = ptr disk (nodes j) l) (hdead : ¬ Live sb nodes i)
    (hused : ∀ x < sb.size, used sb disk' x = used sb disk x) : Owned sb disk' nodes' := by
  refine h.of_ptrs hg (fun j l hj hl hne => ?_) (fun j l hj hl => ⟨hold j hj, hptr j l ?_ hj hl⟩) hused
  · have hji : j ≠ i := by
      rintro rfl
      exact hne (hzero l hl)
    have hj' := (hlive j hj).resolve_left hji
    exact ⟨hj', hptr j l hji hj' hl⟩
  · rintro rfl
    exact hdead hj

theorem Owned.grow (hi : Live sb nodes i)
    (hk : k < NSLOT) (h0 : ptr disk (nodes i) k = 0) (hb : sb.IsData b)
    (hu : used sb disk b = false) (hlive : ∀ j, Live sb nodes' j ↔ Live sb nodes j)
    (hptr : ∀ j l, Live sb nodes j → l < NSLOT →
      ptr disk' (nodes' j) l = if j = i ∧ l = k then b else ptr disk (nodes j) l)
    (hused : ∀ x < sb.size, used sb disk' x = (decide (x = b) || used sb disk x)) :
    Owned sb disk' nodes' := by
  have hfresh : ∀ j l, Live sb nodes j → l < NSLOT → ptr disk (nodes j) l ≠ b := by
    intro j l hj hl he
    have := (h.bits b hb).2 ⟨j, l, hj, hl, he⟩
    rw [hu] at this
    cases this
  refine ⟨fun j l hj hl hne => ?_, fun j l j' l' hj hj' hl hl' hne he => ?_, fun x hx => ?_,
    fun x hx => ?_⟩
  · rw [hlive] at hj
    rw [hptr j l hj hl] at hne ⊢
    split at hne
    · rw [if_pos ‹_›]
      exact hb
    · rw [if_neg ‹_›]
      exact h.range j l hj hl hne
  · rw [hlive] at hj hj'
    rw [hptr j l hj hl] at hne he
    rw [hptr j' l' hj' hl'] at he
    split at he
    · rename_i hjl
      split at he
      · rename_i hjl'
        exact ⟨hjl.1.trans hjl'.1.symm, hjl.2.trans hjl'.2.symm⟩
      · exact absurd he.symm (hfresh j' l' hj' hl')
    · rename_i hjl
      rw [if_neg hjl] at hne
      split at he
      · exact absurd he (hfresh j l hj hl)
      · exact h.once j l j' l' hj hj' hl hl' hne he
  · rw [hused x hx.2, Bool.or_eq_true, decide_eq_true_eq]
    constructor
    · rintro (rfl | hx')
      · refine ⟨i, k, (hlive i).2 hi, hk, ?_⟩
        rw [hptr i k hi hk, if_pos ⟨rfl, rfl⟩]
      · obtain ⟨j, l, hj, hl, rfl⟩ := (h.bits x hx).1 hx'
        refine ⟨j, l, (hlive j).2 hj, hl, ?_⟩
        rw [hptr j l hj hl, if_neg]
        rintro ⟨rfl, rfl⟩
        exact hg.pos hx h0
    · rintro ⟨j, l, hj, hl, hp⟩
      rw [hlive] at hj
      rw [hptr j l hj hl] at hp
      split at hp
      · exact .inl hp.symm
      · exact .inr ((h.bits x hx).2 ⟨j, l, hj, hl, hp⟩)
  · rw [hused x (Nat.lt_of_lt_of_le hx hg.data), h.system x hx, Bool.or_true]

end

end

/-! ## The state -/

/-- The inode `i`: its copy in memory if it is valid, else the one on the disk. -/
def State.cur (s : State) (i : Nat) : Dinode :=
  if (s.ino i).valid then (s.ino i).d else dinode s.sb s.disk i

def State.free (s : State) : Nat :=
  ((range s.sb.size).filter fun b => used s.sb s.disk b = false).card

theorem State.setNode_node (s : State) (i : Nat) (d : Dinode) : (s.setNode i d).node i = d :=
  congrArg Inode.d (update_self i _ s.ino)

def allocDisk (sb : Super) (disk : Disk) (b : Nat) : Disk :=
  update (update disk (sb.bblock b) (setBit (disk (sb.bblock b)) (b % BPB))) b (fill 0)

section
variable {sb : Super} {disk : Disk} {b x i : Nat}

theorem allocDisk_self : allocDisk sb disk b b = fill 0 := update_self ..

section
variable (hg : sb.Geometry) (hb : sb.IsData b)
include hg hb

theorem allocDisk_data (hx : sb.IsData x) (hne : x ≠ b) : allocDisk sb disk b x = disk x := by
  rw [allocDisk, update_of_ne hne, update_of_ne]
  rw [hg.bblock_eq hb.2]
  have h1 := hg.bitmap
  have h2 := hx.1
  omega

theorem allocDisk_low (hx : x < sb.bmapstart) : allocDisk sb disk b x = disk x := by
  have h1 := hg.bitmap
  have h2 := hb.1
  rw [allocDisk, update_of_ne (by omega), update_of_ne]
  rw [hg.bblock_eq hb.2]
  omega

theorem allocDisk_dinode (hi : i < sb.ninodes) :
    dinode sb (allocDisk sb disk b) i = dinode sb disk i := by
  rw [dinode, allocDisk_low hg hb (hg.inodes i hi), ← dinode]

theorem allocDisk_used (hx : x < sb.size) :
    used sb (allocDisk sb disk b) x = (decide (x = b) || used sb disk x) := by
  have hmb : sb.bmapstart ≠ b := by
    have h1 := hg.bitmap
    have h2 := hb.1
    omega
  have hlt : b < BPB := Nat.lt_of_lt_of_le (hg.lt_FSSIZE hb) (by decide)
  rw [hg.used_eq hx, hg.used_eq hx, allocDisk, update_of_ne hmb, hg.bblock_eq hb.2,
    update_self, Nat.mod_eq_of_lt hlt, getBit_setBit]
  congr 1
  simp only [eq_comm]

end

end

theorem card_filter_erase {n b : Nat} {p q : Nat → Prop} [DecidablePred p] [DecidablePred q]
    (hb : b < n) (hp : p b) (hq : ∀ x < n, q x ↔ p x ∧ x ≠ b) :
    ((range n).filter q).card + 1 = ((range n).filter p).card := by
  have he : (range n).filter q = ((range n).filter p).erase b := by
    ext x
    simp only [mem_filter, mem_range, mem_erase]
    constructor
    · rintro ⟨hx, hqx⟩
      have := (hq x hx).1 hqx
      exact ⟨this.2, hx, this.1⟩
    · rintro ⟨hne, hx, hpx⟩
      exact ⟨hx, (hq x hx).2 ⟨hpx, hne⟩⟩
  rw [he]
  exact card_erase_add_one (mem_filter.2 ⟨Finset.mem_range.2 hb, hp⟩)

/-! ## `balloc` -/

section
variable {s : State} {b : Nat} {v : Block}

theorem bread_run (h : b < FSSIZE) : bread b s = .ok (s.disk b, s) := by
  rw [bread, if_neg (Nat.not_le.2 h)]
  rfl

theorem bread_spec : Ends (bread b) s (fun v s' => v = s.disk b ∧ s' = s) (fun _ => FSSIZE ≤ b) := by
  by_cases h : b < FSSIZE
  · exact .of_ok (bread_run h) ⟨rfl, rfl⟩
  · refine .of_error (e := "incorrect blockno") ?_ (Nat.not_lt.1 h)
    rw [bread, if_pos (Nat.not_lt.1 h)]
    rfl

theorem logWrite_run (hl : s.log = none) : logWrite b v s = .ok ((), s.setBlock b v) := by
  rw [logWrite, bind_run get_run, hl]
  rfl

theorem bzero_run (hl : s.log = none) (h : b < FSSIZE) : bzero b s = .ok ((), s.setBlock b (fill 0)) := by
  rw [bzero, bind_run (bread_run h)]
  exact logWrite_run hl

theorem balloc_spec (hl : s.log = none) (hg : s.sb.Geometry)
    (hs : ∀ b < s.sb.data, used s.sb s.disk b = true) :
    Ends balloc s (fun b s' => s.sb.IsData b ∧ used s.sb s.disk b = false ∧
        (∀ x < b, used s.sb s.disk x = true) ∧ s' = { s with disk := allocDisk s.sb s.disk b })
      (fun e => e = "balloc: out of blocks" ∧ s.free = 0) := by
  have hfuel : s.sb.size / BPB + 1 = 1 := by
    have := hg.size
    unfold FSSIZE at this
    unfold BPB BSIZE
    omega
  have hrun : balloc s = ballocFrom 1 0 s := by
    rw [balloc, bind_run get_run, hfuel]
  rw [Ends, hrun, ← Ends, ballocFrom]
  refine .run get_run (.ite (fun hpos => ?_) fun hpos => .of_throw ⟨rfl, ?_⟩)
  · have hbm : s.sb.bblock 0 < FSSIZE :=
      hg.bblock_eq hpos ▸ Nat.lt_of_lt_of_le hg.bitmap (Nat.le_trans hg.data hg.size)
    have hbit : ∀ x < s.sb.size, used s.sb s.disk x = getBit (s.disk (s.sb.bblock 0)) x := by
      intro x hx
      rw [hg.used_eq hx, hg.bblock_eq hpos]
    have hmin : min BPB (s.sb.size - 0) = s.sb.size := by
      have := hg.size
      unfold FSSIZE at this
      unfold BPB BSIZE
      omega
    refine .run (bread_run hbm) ?_
    cases hf : firstFree (s.disk (s.sb.bblock 0)) 0 s.sb.size with
    | some bi =>
      rw [firstFree, hmin] at hf
      have hlt : bi < s.sb.size := List.mem_range.1 (List.mem_of_find?_eq_some hf)
      have hfree : used s.sb s.disk bi = false := by
        have := List.find?_some hf
        rw [hbit bi hlt]
        simpa using this
      have hdata : s.sb.IsData bi := by
        refine ⟨Nat.not_lt.1 fun hlow => ?_, hlt⟩
        rw [hs bi hlow] at hfree
        cases hfree
      refine .run (logWrite_run hl) ?_
      rw [Nat.zero_add]
      refine .run (bzero_run (s := s.setBlock ..) hl (hg.lt_FSSIZE hdata))
        (.of_pure ⟨hdata, hfree, ?_, ?_⟩)
      · intro x hx
        have := (List.find?_range_eq_some.1 hf).2.2 x hx
        rw [hbit x (hx.trans hlt)]
        simpa using this
      simp only [State.setBlock, allocDisk, hg.bblock_eq hlt, hg.bblock_eq hpos,
        Nat.mod_eq_of_lt (Nat.lt_of_lt_of_le (hg.lt_FSSIZE hdata) (by decide : FSSIZE ≤ BPB))]
    | none =>
      refine .of_throw ⟨rfl, ?_⟩
      rw [firstFree, hmin, List.find?_eq_none] at hf
      rw [State.free, card_eq_zero, filter_eq_empty_iff]
      intro x hx
      have := hf x (List.mem_range.2 (mem_range.1 hx))
      rw [hbit x (mem_range.1 hx)]
      simpa using this
  · rw [State.free, Nat.eq_zero_of_not_pos hpos]
    rfl

end

end Fs
