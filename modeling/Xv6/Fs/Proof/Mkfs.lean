import Xv6.Fs.Mkfs
import Xv6.Fs.Proof.Lock

/-!
# `mkfs` writes as the kernel does

`view` is the image as the kernel would have it with the bit map written already and one inode in
memory. There `balloc` returns the same blocks, since the first free block is the next one, so a turn
of the loop of `iappend` is a turn of the loop of `writei` (`iappendLoop_spec`).
-/

namespace Fs.Mkfs

open Bytes
open Function
open Log (Block Disk)
open Panic
open Param

/-! ## The image with its bit map -/

def State.vdisk (s : State) : Disk := update s.disk sb.bmapstart (bitmap s.freeblock)

def State.view (s : State) (i : Nat) (d : Dinode) : Fs.State where
  disk := s.vdisk
  sb := sb
  ino := update (fun _ => ⟨0, false, false, Dinode.zero⟩) i ⟨1, true, true, d⟩
  devsw := ⟨fun _ => none, fun _ => none⟩
  released := []
  log := none

theorem geometry : sb.Geometry where
  super := by decide
  inodes i hi := by
    have : i < 200 := hi
    show i / 8 + 32 < 58
    omega
  bitmap := by decide
  data := by decide
  size := by decide
  fits := ⟨by decide, by decide, by decide, by decide, by decide, by decide, by decide⟩

theorem getBit_bitmap {n b : Nat} : getBit (bitmap n) b = decide (b < n) := by
  induction n with
  | zero => simp [bitmap, getBit, fill]
  | succ n ih =>
    rw [bitmap, getBit_setBit, ih, ← Bool.decide_or]
    exact decide_eq_decide.2 (by omega)

structure Base (s : State) : Prop where
  nsect : s.nsect = FSSIZE
  low : nmeta ≤ s.freeblock
  high : s.freeblock ≤ FSSIZE
  zero : ∀ b, s.freeblock ≤ b → s.disk b = fill 0

section
variable {s s' : State} {i k b : Nat} {d : Dinode}

theorem State.vdisk_other (h : b ≠ sb.bmapstart) : s.vdisk b = s.disk b := update_of_ne h ..

theorem ne_bmapstart (h : sb.IsData b) : b ≠ sb.bmapstart := Nat.ne_of_gt (geometry.bitmap.trans_le h.1)

theorem State.used_vdisk (s : State) (hb : b < sb.size) :
    used sb s.vdisk b = decide (b < s.freeblock) := by
  rw [geometry.used_eq hb, vdisk, update_self, getBit_bitmap]

theorem State.view_ino (s : State) : (s.view i d).ino i = ⟨1, true, true, d⟩ := by
  simp only [view, update_self]

theorem State.view_node (s : State) : (s.view i d).node i = d := congrArg Inode.d s.view_ino

theorem State.view_setNode (s : State) {d' : Dinode} : (s.view i d).setNode i d' = s.view i d' := by
  rw [Fs.State.setNode, Fs.State.setInode, s.view_ino]
  simp only [view, update_idem]

theorem Base.free (h : Base s) : (s.view i d).free + s.freeblock = FSSIZE := by
  have hset : (Finset.range sb.size).filter (fun b => used sb s.vdisk b = false) =
      Finset.Ico s.freeblock FSSIZE := by
    ext b
    rw [Finset.mem_filter, Finset.mem_range, Finset.mem_Ico]
    constructor
    · rintro ⟨hb, hu⟩
      rw [s.used_vdisk hb, decide_eq_false_iff_not, Nat.not_lt] at hu
      exact ⟨hu, hb⟩
    · rintro ⟨hf, hb⟩
      refine ⟨hb, ?_⟩
      rw [s.used_vdisk hb, decide_eq_false_iff_not, Nat.not_lt]
      exact hf
  have hcard : (s.view i d).free = (Finset.Ico s.freeblock FSSIZE).card := congrArg _ hset
  rw [hcard, Nat.card_Ico]
  exact Nat.sub_add_cancel h.high

def State.next (s : State) : State := { s with freeblock := s.freeblock + 1 }

theorem Base.next (h : Base s) (hlt : s.freeblock < FSSIZE) : Base s.next :=
  ⟨h.nsect, Nat.le_succ_of_le h.low, hlt, fun b hb => h.zero b (Nat.le_of_succ_le hb)⟩

theorem Base.system (h : Base s) : ∀ b < sb.data, used sb s.vdisk b = true := by
  intro b hb
  rw [s.used_vdisk (hb.trans_le geometry.data), decide_eq_true_eq]
  exact hb.trans_le h.low

theorem Base.balloc (h : Base s) (hlt : s.freeblock < FSSIZE) :
    Fs.balloc (s.view i d) = .ok (s.freeblock, s.next.view i d) := by
  have hpos := h.free (i := i) (d := d)
  obtain ⟨b, s', hrun, hdata, hfree, hfirst, rfl⟩ :=
    (balloc_spec (s := s.view i d) rfl geometry h.system).returns fun e he => by
      rw [he.2] at hpos
      omega
  have hb : b = s.freeblock := by
    have hle : s.freeblock ≤ b := by
      have : decide (b < s.freeblock) = false := (s.used_vdisk hdata.2).symm.trans hfree
      exact Nat.not_lt.1 (of_decide_eq_false this)
    refine Nat.le_antisymm (Nat.not_lt.1 fun hlt' => ?_) hle
    have : decide (s.freeblock < s.freeblock) = true :=
      (s.used_vdisk hlt).symm.trans (hfirst s.freeblock hlt')
    exact Nat.lt_irrefl _ (of_decide_eq_true this)
  subst hb
  rw [hrun]
  have hdisk : allocDisk sb s.vdisk s.freeblock = s.next.vdisk := by
    have hbit : s.vdisk sb.bmapstart = bitmap s.freeblock := update_self ..
    rw [allocDisk, geometry.bblock_eq hdata.2, hbit,
      Nat.mod_eq_of_lt (hlt.trans (by decide : FSSIZE < BPB))]
    funext x
    by_cases hx : x = s.freeblock
    · rw [hx, update_self, State.vdisk_other (ne_bmapstart hdata)]
      exact (h.zero _ (Nat.le_refl _)).symm
    · rw [update_of_ne hx, State.vdisk, update_idem]
      rfl
  exact congrArg (fun disk => Except.ok (s.freeblock, ({ s.view i d with disk := disk } : Fs.State)))
    hdisk

theorem Base.balloc_full (h : Base s) (hfull : ¬ s.freeblock < FSSIZE) :
    ∃ e, Fs.balloc (s.view i d) = .error e := by
  cases hr : Fs.balloc (s.view i d) with
  | error e => exact ⟨e, rfl⟩
  | ok r =>
    obtain ⟨hdata, hfree, -⟩ := (balloc_spec (s := s.view i d) rfl geometry h.system).ok hr
    have : decide (r.1 < s.freeblock) = false := (s.used_vdisk hdata.2).symm.trans hfree
    exact absurd (hdata.2.trans_le (Nat.not_lt.1 hfull)) (of_decide_eq_false this)

/-! ## Blocks of a file -/

theorem nextBlock_run : nextBlock s = .ok (s.freeblock, s.next) := rfl

def State.setBlock (s : State) (b : Nat) (v : Block) : State := { s with disk := update s.disk b v }

theorem wsect_run (h : s.nsect = FSSIZE) (hb : b < FSSIZE) {v : Block} :
    wsect b v s = .ok ((), s.setBlock b v) := by
  have : max s.nsect (b + 1) = s.nsect := by omega
  rw [wsect, modify_run, this]
  rfl

theorem rsect_run (h : s.nsect = FSSIZE) (hb : b < FSSIZE) : rsect b s = .ok (s.disk b, s) := by
  rw [rsect, bind_run get_run, h]
  simp only [if_neg (Nat.not_le.2 hb)]
  rfl

theorem rsect_end (h : s.nsect = FSSIZE) (hb : FSSIZE ≤ b) : rsect b s = .error "read" := by
  rw [rsect, bind_run get_run, h]
  simp only [if_pos hb]
  rfl

theorem Base.setBlock (h : Base s) (hb : b < s.freeblock) {v : Block} : Base (s.setBlock b v) :=
  ⟨h.nsect, h.low, h.high, fun x hx =>
    (update_of_ne (Nat.ne_of_gt (hb.trans_le hx)) ..).trans (h.zero x hx)⟩

theorem State.setBlock_view (s : State) {v : Block} (hb : sb.IsData b) :
    (s.setBlock b v).view i d = (s.view i d).setBlock b v := by
  rw [view, view, Fs.State.setBlock, vdisk, vdisk, setBlock,
    update_comm (ne_bmapstart hb)]

/-- `mkfs` returned the inode `r.1` and the block `r.2`, as the kernel's run did, or a block behind
the end of the disk, and the kernel panicked. -/
def Matches (i : Nat) (r : Dinode × Nat) (s' : State) (run : Except String (Nat × Fs.State)) : Prop :=
  (r.2 < FSSIZE ∧ Base s' ∧ run = .ok (r.2, s'.view i r.1)) ∨
    (FSSIZE ≤ r.2 ∧ s'.nsect = FSSIZE ∧ ∃ e, run = .error e)

theorem Matches.of_next (h : Base s) {d' : Dinode} {run : Except String (Nat × Fs.State)}
    (hok : s.freeblock < FSSIZE → run = .ok (s.freeblock, s.next.view i d'))
    (hfull : ¬ s.freeblock < FSSIZE → ∃ e, run = .error e) :
    Matches i (d', s.freeblock) s.next run := by
  by_cases hlt : s.freeblock < FSSIZE
  · exact .inl ⟨hlt, h.next hlt, hok hlt⟩
  · exact .inr ⟨Nat.not_lt.1 hlt, h.nsect, hfull hlt⟩

theorem addrOf_spec (h : Base s) (hg : Good (s.view i d) i) (hk : k ≤ NDIRECT) : Ends (addrOf d k) s
      (fun r s' => s'.freeinode = s.freeinode ∧ Matches i r s' (bmapAddr i k (s.view i d)))
      (fun _ => False) := by
  have hnode : (s.view i d).node i = d := s.view_node
  rw [addrOf, bmapAddr, bind_run get_run, hnode]
  refine .ite (fun h0 => .run nextBlock_run (.of_pure ⟨rfl, ?_⟩)) fun h0 => .of_pure ⟨rfl, .inl ?_⟩
  · rw [if_pos h0]
    refine .of_next h (fun hlt => ?_) fun hfull => ?_
    · rw [bind_run (h.balloc hlt)]
      show Except.ok (_, (s.next.view i d).setNode i (((s.next.view i d).node i).setAddr k _)) = _
      rw [s.next.view_node, s.next.view_setNode]
    · obtain ⟨e, he⟩ := h.balloc_full hfull
      exact ⟨e, bind_error he⟩
  · rw [if_neg h0]
    have hp : ptr (s.view i d).disk ((s.view i d).node i) k = d.addrs k := by
      rw [hnode, ptr_addrs hk]
    have hd := (hg.data_of (hk.trans_lt (by decide)) hp h0).1
    exact ⟨geometry.lt_FSSIZE hd, h, rfl⟩

theorem blockOf_spec {fbn : Nat} (h : Base s) (hg : Good (s.view i d) i) (hfbn : fbn < MAXFILE) :
    Ends (blockOf d fbn) s
      (fun r s' => s'.freeinode = s.freeinode ∧ Matches i r s' (bmap i fbn (s.view i d)))
      (fun _ => ∃ e, bmap i fbn (s.view i d) = .error e) := by
  rw [blockOf, bmap]
  by_cases hd : fbn < NDIRECT
  · rw [if_pos hd, if_pos hd]
    exact (addrOf_spec h hg hd.le).weaken fun _ => False.elim
  rw [if_neg hd, if_neg hd, if_pos (by unfold MAXFILE at hfbn; omega)]
  refine .bind ((addrOf_spec h hg (Nat.le_refl _)).weaken fun _ => False.elim) ?_
  rintro ⟨d1, ind⟩ s1 ⟨hi1, ⟨hlt, h1, hrun⟩ | ⟨hge, hn, e, he⟩⟩
  · obtain ⟨hg1, -, hind, hne⟩ := (bmapAddr_spec hg (Nat.le_refl _)).ok hrun
    obtain ⟨hdata, hused⟩ := hg1.data_of (by decide) ((ptr_addrs (Nat.le_refl _)).trans hind) hne
    have hfree : ind < s1.freeblock :=
      of_decide_eq_true ((s1.used_vdisk hdata.2).symm.trans hused)
    have hdisk : (s1.view i d1).disk ind = s1.disk ind := State.vdisk_other (ne_bmapstart hdata)
    refine .run (rsect_run h1.nsect hlt) ?_
    rw [bind_run hrun, bind_run (bread_run (geometry.lt_FSSIZE hdata)), hdisk]
    refine .ite (fun h0 => .run nextBlock_run ?_) fun h0 => .of_pure ⟨hi1, .inl ?_⟩
    · rw [if_pos h0]
      refine .run (wsect_run (s := s1.next) h1.nsect hlt) (.of_pure ⟨hi1, ?_⟩)
      by_cases hnext : s1.freeblock < FSSIZE
      · refine .inl ⟨hnext, (h1.next hnext).setBlock (Nat.lt_succ_of_lt hfree), ?_⟩
        rw [bind_run (h1.balloc hnext), bind_run (logWrite_run rfl), State.setBlock_view _ hdata]
        rfl
      · obtain ⟨e, he⟩ := h1.balloc_full (i := i) (d := d1) hnext
        exact .inr ⟨Nat.not_lt.1 hnext, h1.nsect, e, bind_error he⟩
    · rw [if_neg h0]
      refine ⟨?_, h1, rfl⟩
      obtain ⟨j, rfl⟩ := Nat.exists_eq_add_of_le (Nat.not_lt.1 hd)
      have hp : ptr (s1.view i d1).disk ((s1.view i d1).node i) (NDIRECT + 1 + j) =
          get32 (s1.disk ind) (4 * j) := by
        rw [ptr_entry (by rw [hind]; exact hne), hind, hdisk]
      rw [Nat.add_sub_cancel_left] at h0 ⊢
      have hlt : NDIRECT + 1 + j < NSLOT := by
        unfold MAXFILE at hfbn
        unfold NSLOT
        omega
      exact geometry.lt_FSSIZE (hg1.data_of hlt hp h0).1
  · rw [bind_error he]
    exact .of_error (bind_error (rsect_end hn hge)) ⟨e, rfl⟩

theorem iappendLoop_spec {fuel off : Nat} {p : List UInt8} (h : Base s) (hg : Good (s.view i d) i)
    (hf : p.length ≤ fuel) : Ends (iappendLoop fuel d off p) s
      (fun r s' => s'.freeinode = s.freeinode ∧ Base s' ∧ r.2 = off + p.length ∧
        (p ≠ [] → off + p.length ≤ MAXFILE * BSIZE) ∧
        writeLoop i fuel off p (s.view i d) = .ok ((), s'.view i r.1))
      (fun _ => ∃ e, writeLoop i fuel off p (s.view i d) = .error e) := by
  induction fuel generalizing s d off p with
  | zero =>
    obtain rfl := List.length_eq_zero_iff.1 (Nat.le_zero.1 hf)
    exact .of_pure ⟨rfl, h, rfl, fun h => absurd rfl h, rfl⟩
  | succ fuel ih =>
    rw [iappendLoop, writeLoop]
    refine .ite (fun h0 => ?_) fun h0 => ?_
    · subst h0
      exact .of_pure ⟨rfl, h, rfl, fun h => absurd rfl h, rfl⟩
    rw [if_neg h0]
    refine .ite (fun hbig => .throws ?_) fun hfbn => ?_
    · exact ⟨_, bind_error (bmap_range (Nat.not_lt.1 hbig))⟩
    rw [not_not] at hfbn
    refine .bind ((blockOf_spec h hg hfbn).weaken fun _ he => ?_) ?_
    · exact he.imp fun _ => bind_error
    rintro ⟨d1, x⟩ s1 ⟨hi1, ⟨hlt, h1, hrun⟩ | ⟨hge, hn, e, he⟩⟩
    · obtain ⟨hg1, -, hp, hne⟩ := (bmap_spec hg hfbn).ok hrun
      obtain ⟨hdata, hused⟩ := hg1.data_of (slot_lt hfbn) hp hne
      have hfree : x < s1.freeblock := of_decide_eq_true ((s1.used_vdisk hdata.2).symm.trans hused)
      have hdisk : (s1.view i d1).disk x = s1.disk x := State.vdisk_other (ne_bmapstart hdata)
      -- the range of this block
      have hlen := List.length_pos_iff.2 h0
      have hmod : off % BSIZE < BSIZE := Nat.mod_lt _ (by decide)
      have hdiv : off % BSIZE + BSIZE * (off / BSIZE) = off := Nat.mod_add_div ..
      have hle : BSIZE * (off / BSIZE) + BSIZE ≤ MAXFILE * BSIZE := by
        rw [Nat.mul_comm MAXFILE, ← Nat.mul_succ]
        exact Nat.mul_le_mul_left _ hfbn
      have hoff : off - off / BSIZE * BSIZE = off % BSIZE := by
        rw [Nat.mul_comm]
        omega
      have hm : min p.length ((off / BSIZE + 1) * BSIZE - off) =
          min p.length (BSIZE - off % BSIZE) := by
        rw [Nat.add_mul, Nat.mul_comm, Nat.one_mul]
        omega
      refine .run (rsect_run h1.nsect hlt) ?_
      rw [hoff, hm, bind_run hrun, bind_run (bread_run hlt), hdisk]
      generalize hmd : min p.length (BSIZE - off % BSIZE) = m
      have hdrop : (p.drop m).length = p.length - m := List.length_drop
      refine .run (wsect_run h1.nsect hlt) ?_
      rw [bind_run (logWrite_run rfl)]
      obtain ⟨hg2, -⟩ := hg1.write_block p (m := m) hp hne hfbn (by omega) (by omega)
      rw [hdisk, ← State.setBlock_view _ hdata] at hg2
      rw [← State.setBlock_view _ hdata]
      refine (ih (h1.setBlock hfree) hg2 (by omega)).mono ?_ fun _ => id
      rintro r s2 ⟨hi2, h2, hr, hmax, hrun2⟩
      refine ⟨hi2.trans hi1, h2, by omega, fun _ => ?_, hrun2⟩
      by_cases hz : p.drop m = []
      · have : (p.drop m).length = 0 := by rw [hz]; rfl
        omega
      · have := hmax hz
        omega
    · exact .of_error (bind_error (rsect_end hn hge)) ⟨e, bind_error he⟩

/-! ## `iappend` -/

def State.nodes (s : State) (j : Nat) : Dinode := dinode sb s.disk j

theorem iblock_ne_bmapstart (hi : i < sb.ninodes) : sb.iblock i ≠ sb.bmapstart :=
  Nat.ne_of_lt (geometry.inodes i hi)

theorem iblock_lt_nmeta (hi : i < sb.ninodes) : sb.iblock i < nmeta :=
  (geometry.inodes i hi).trans (by decide)

theorem State.nodes_vdisk (s : State) (hi : i < sb.ninodes) : dinode sb s.vdisk i = s.nodes i := by
  rw [dinode, vdisk_other (iblock_ne_bmapstart hi)]
  rfl

theorem State.view_cur (s : State) {j : Nat} (hj : j < sb.ninodes) :
    (s.view i (s.nodes i)).cur j = s.nodes j := by
  by_cases h : j = i
  · subst h
    rw [Fs.State.cur, s.view_ino]
    rfl
  · have : (s.view i (s.nodes i)).ino j = ⟨0, false, false, Dinode.zero⟩ := by
      simp only [view, update_of_ne h]
    rw [Fs.State.cur, this]
    exact s.nodes_vdisk hj

theorem rinode_run (h : s.nsect = FSSIZE) (hi : i < sb.ninodes) :
    rinode i s = .ok (s.nodes i, s) := by
  rw [rinode, bind_run (rsect_run h ((iblock_lt_nmeta hi).trans (by decide)))]
  rfl

def State.setNode (s : State) (i : Nat) (d : Dinode) : State :=
  s.setBlock (sb.iblock i) (putDinode (s.disk (sb.iblock i)) (i % IPB) d)

theorem winode_run (h : s.nsect = FSSIZE) (hi : i < sb.ninodes) :
    winode i d s = .ok ((), s.setNode i d) := by
  have hlt := (iblock_lt_nmeta hi).trans (by decide : nmeta < FSSIZE)
  rw [winode, bind_run (rsect_run h hlt), wsect_run h hlt]
  rfl

theorem State.setNode_low (s : State) {x : Nat} (hx : x < sb.inodestart) :
    (s.setNode i d).disk x = s.disk x := by
  have hle : sb.inodestart ≤ sb.iblock i := Nat.le_add_left ..
  exact updateDisk_other (Nat.ne_of_lt (hx.trans_le hle))

theorem State.setNode_nodes (s : State) (hd : d.Fits) {j : Nat} :
    (s.setNode i d).nodes j = if j = i then d else s.nodes j := dinode_updateDisk hd

theorem Base.setNode (h : Base s) (hi : i < sb.ninodes) : Base (s.setNode i d) :=
  h.setBlock ((iblock_lt_nmeta hi).trans_le h.low)

theorem State.setNode_vdisk (s : State) (hi : i < sb.ninodes) :
    (s.setNode i d).vdisk = updateDisk sb s.vdisk i d := by
  rw [vdisk, setNode, setBlock, update_comm (iblock_ne_bmapstart hi), updateDisk,
    vdisk_other (iblock_ne_bmapstart hi)]
  rfl

theorem iappend_spec {p : List UInt8} (h : Base s) (hg : Good (s.view i (s.nodes i)) i)
    (hp : p ≠ []) : Ends (iappend i p) s
      (fun _ s' => s'.freeinode = s.freeinode ∧ Base s' ∧ Good (s'.view i (s'.nodes i)) i ∧
        (s.nodes i).size + p.length ≤ MAXFILE * BSIZE ∧
        WroteFile i ((s.view i (s.nodes i)).missing i (touched (s.nodes i).size p.length))
          (s.nodes i).size p (s.view i (s.nodes i)) (s'.view i (s'.nodes i)))
      (fun _ => MAXFILE * BSIZE < (s.nodes i).size + p.length ∨ (s.view i (s.nodes i)).free <
        ((s.view i (s.nodes i)).missing i (touched (s.nodes i).size p.length)).card) := by
  have hi : i < sb.ninodes := hg.live.1
  have hnode : (s.view i (s.nodes i)).node i = s.nodes i := s.view_node
  rw [iappend]
  refine .run (rinode_run h.nsect hi) ?_
  refine .bind ((iappendLoop_spec h hg (Nat.le_refl _)).mono (fun _ _ => id) ?_) ?_
  · rintro - ⟨e, he⟩
    by_cases hmax : (s.nodes i).size + p.length ≤ MAXFILE * BSIZE
    · exact .inr ((writeLoop_spec hg (Nat.le_refl _) hmax).error he).2
    · exact .inl (Nat.not_le.1 hmax)
  rintro ⟨d1, off⟩ s1 ⟨hi1, h1, hoff, hmax, hrun⟩
  obtain rfl : off = (s.nodes i).size + p.length := hoff
  replace hmax := hmax hp
  obtain ⟨hg1, hw⟩ := (writeLoop_spec hg (Nat.le_refl _) hmax).ok hrun
  have hlt : (s.nodes i).size + p.length < 2 ^ 32 := Nat.lt_of_le_of_lt hmax (by decide)
  have hpos := List.length_pos_iff.2 hp
  obtain ⟨hg2, hw2⟩ := hw.longer hg hg1 (by rw [hnode]; omega) hlt
  -- the state of the kernel is the view of the image
  generalize hd2 : ({ d1 with size := (s.nodes i).size + p.length } : Dinode) = d2
  have hs2 : (s1.view i d1).updated i { (s1.view i d1).node i with
      size := (s.nodes i).size + p.length } = (s1.setNode i d2).view i d2 := by
    rw [s1.view_node, hd2, Fs.State.updated, s1.view_setNode]
    simp only [State.view, s1.setNode_vdisk hi]
  rw [hs2] at hg2 hw2
  have hfits : d2.Fits := by
    have := hg2.fits
    rwa [State.view_node] at this
  have hnode2 : (s1.setNode i d2).nodes i = d2 := by rw [s1.setNode_nodes hfits, if_pos rfl]
  refine .of_ok (winode_run h1.nsect hi) ?_
  rw [hd2, hnode2]
  exact ⟨hi1, h1.setNode hi, hg2, hmax, hw2⟩

end

end Fs.Mkfs
