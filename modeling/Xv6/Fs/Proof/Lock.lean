import Mathlib.Order.Interval.Finset.Nat
import Xv6.Fs.Proof.File

/-!
# The inode cache

`ilock` brings the inode into memory and changes no inode (`State.cur`).
-/

namespace Fs

open Function
open Panic
open Param

def State.lock (s : State) (i : Nat) : State :=
  s.setInode i { s.ino i with locked := true, valid := true, d := s.cur i }

def State.unlock (s : State) (i : Nat) : State :=
  let s' := s.setInode i { s.ino i with locked := false }
  if (s.ino i).valid then { s' with released := ⟨i, s.node i, s.disk⟩ :: s.released } else s'

section
variable {s s' : State} {i j : Nat}

namespace State

theorem setInode_self (s : State) (i : Nat) (v : Inode) : (s.setInode i v).ino i = v :=
  update_self ..

theorem setInode_other {v : Inode} (hj : j ≠ i) : (s.setInode i v).ino j = s.ino j :=
  update_of_ne hj ..

theorem setInode_setInode (s : State) (i : Nat) (v w : Inode) :
    (s.setInode i v).setInode i w = s.setInode i w := by
  rw [setInode, setInode, setInode, update_idem]

theorem lock_self (s : State) (i : Nat) :
    (s.lock i).ino i = { s.ino i with locked := true, valid := true, d := s.cur i } :=
  update_self ..

theorem lock_other (hj : j ≠ i) : (s.lock i).ino j = s.ino j := update_of_ne hj ..

section
variable (s i)

theorem lock_node : (s.lock i).node i = s.cur i :=
  congrArg Inode.d (s.lock_self i)

theorem lock_cur : (s.lock i).cur = s.cur := by
  funext j
  by_cases hj : j = i
  · subst hj
    rw [cur, lock_self]
    rfl
  · rw [cur, lock_other hj]
    rfl

theorem unlock_disk : (s.unlock i).disk = s.disk := by
  unfold unlock
  split <;> rfl

theorem unlock_sb : (s.unlock i).sb = s.sb := by
  unfold unlock
  split <;> rfl

theorem unlock_devsw : (s.unlock i).devsw = s.devsw := by
  unfold unlock
  split <;> rfl

theorem unlock_log : (s.unlock i).log = s.log := by
  unfold unlock
  split <;> rfl

theorem unlock_free : (s.unlock i).free = s.free := by
  rw [free, unlock_sb, unlock_disk]
  rfl

theorem unlock_ino : (s.unlock i).ino = update s.ino i { s.ino i with locked := false } := by
  unfold unlock
  split <;> rfl

theorem unlock_self : (s.unlock i).ino i = { s.ino i with locked := false } := by
  rw [unlock_ino, update_self]

end

theorem unlock_other (hj : j ≠ i) : (s.unlock i).ino j = s.ino j := by
  rw [unlock_ino, update_of_ne hj]

theorem unlock_cur (s : State) (i : Nat) : (s.unlock i).cur = s.cur := by
  funext j
  by_cases hj : j = i
  · subst hj
    rw [cur, unlock_self, unlock_sb, unlock_disk]
    rfl
  · rw [cur, unlock_other hj, unlock_sb, unlock_disk]
    rfl

theorem cur_of_valid (h : (s.ino i).valid = true) : s.cur i = s.node i := if_pos h

end State

theorem acquiresleep_spec : Ends (acquiresleep i) s
    (fun _ s' => s' = s.setInode i { s.ino i with locked := true } ∧ (s.ino i).locked = false)
    (fun e => (s.ino i).locked = true ∧ e = deadlock) :=
  .run get_run (.ite (fun h => .throws ⟨h, rfl⟩) fun h =>
    .of_set ⟨rfl, Bool.eq_false_iff.2 h⟩)

theorem releasesleep_run : releasesleep i s = .ok ((), s.unlock i) := rfl

theorem ilock_spec : Ends (ilock i) s (fun _ s' => s' = s.lock i ∧ (s.ino i).locked = false ∧
      ((s.ino i).valid = false → (s.cur i).type ≠ 0))
    (fun _ => (s.ino i).ref < 1 ∨ (s.ino i).locked = true ∨
      (s.ino i).valid = false ∧ (FSSIZE ≤ s.sb.iblock i ∨ (s.cur i).type = 0)) := by
  rw [ilock]
  refine .run get_run (.ite (fun h => .throws (.inl h)) fun h => ?_)
  refine .bind (acquiresleep_spec.weaken fun _ h => .inr (.inl h.1)) ?_
  rintro _ _ ⟨rfl, hl⟩
  refine .run get_run (.ite (fun hv => ?_) fun hv => .of_pure ⟨?_, hl, fun hf => ?_⟩)
  · rw [s.setInode_self] at hv
    have hcur : s.cur i = dinode s.sb s.disk i := if_neg (by rw [hv]; decide)
    refine .run get_run (.bind (bread_spec.weaken fun _ hb => ?_) ?_)
    · exact .inr (.inr ⟨hv, .inl hb⟩)
    rintro _ _ ⟨rfl, rfl⟩
    refine .run modify_run (.run get_run ?_)
    have hs : (s.setInode i { s.ino i with locked := true }).setInode i
        { (s.setInode i { s.ino i with locked := true }).ino i with
          d := dinode s.sb s.disk i, valid := true } = s.lock i := by
      rw [s.setInode_setInode, s.setInode_self, State.lock, hcur]
    have ht : (State.node _ i).type = (s.cur i).type :=
      (congrArg (fun s => (State.node s i).type) hs).trans (congrArg Dinode.type (s.lock_node i))
    refine .ite (fun h0 => .of_throw ?_) fun h0 => .of_pure ⟨hs, hl, fun _ hz => ?_⟩
    · exact .inr (.inr ⟨hv, .inr (ht.symm.trans h0)⟩)
    · exact h0 (ht.trans hz)
  · rw [s.setInode_self] at hv
    have hcur : s.cur i = (s.ino i).d := if_pos (Bool.eq_true_of_not_eq_false hv)
    rw [State.lock, hcur]
    have : (s.ino i).valid = true := Bool.eq_true_of_not_eq_false hv
    rw [← this]
  · rw [s.setInode_self] at hv
    exact absurd hf hv

theorem ilock_run (hr : 0 < (s.ino i).ref) (hl : (s.ino i).locked = false)
    (hb : s.sb.iblock i < FSSIZE) (ht : (s.cur i).type ≠ 0) : ilock i s = .ok ((), s.lock i) := by
  obtain ⟨_, s', hrun, rfl, -⟩ := ilock_spec.returns fun _ h => by
    rw [hl] at h
    rcases h with h | h | ⟨-, h | h⟩
    · omega
    · cases h
    · omega
    · exact ht h
  exact hrun

theorem iunlock_spec : Ends (iunlock i) s (fun _ s' => s' = s.unlock i ∧ (s.ino i).locked = true)
    (fun _ => (s.ino i).locked = false ∨ (s.ino i).ref < 1) := by
  rw [iunlock]
  refine .run get_run (.ite (fun h => .throws h) fun h => .of_modify ⟨rfl, ?_⟩)
  exact Bool.eq_true_of_not_eq_false fun hf => h (.inl hf)

theorem iunlock_run (hl : (s.ino i).locked = true) (hr : 0 < (s.ino i).ref) :
    iunlock i s = .ok ((), s.unlock i) := by
  obtain ⟨_, s', hrun, rfl, -⟩ := iunlock_spec.returns fun _ (h : _ ∨ _) => by
    rw [hl] at h
    rcases h with h | h
    · cases h
    · omega
  exact hrun

/-! ## References -/

def State.dup (s : State) (i : Nat) : State := s.setInode i { s.ino i with ref := (s.ino i).ref + 1 }

def State.put (s : State) (i : Nat) : State :=
  (s.unlock i).setInode i { (s.unlock i).ino i with ref := ((s.unlock i).ino i).ref - 1 }

def State.Last (s : State) (i : Nat) : Prop :=
  (s.ino i).valid = true ∧ (s.node i).nlink = 0 ∧ (s.ino i).ref = 1

namespace State

theorem cur_setInode {v : Inode} (hv : v.valid = (s.ino i).valid) (hd : v.d = (s.ino i).d) :
    (s.setInode i v).cur = s.cur := by
  funext j
  by_cases hj : j = i
  · subst hj
    rw [cur, setInode_self, cur, hv, hd]
    rfl
  · rw [cur, setInode_other hj]
    rfl

theorem dup_cur (s : State) (i : Nat) : (s.dup i).cur = s.cur := cur_setInode rfl rfl

theorem put_cur (s : State) (i : Nat) : (s.put i).cur = s.cur := by
  have : (s.put i).cur = (s.unlock i).cur := cur_setInode rfl rfl
  rw [this, unlock_cur]

theorem unlock_setInode (s : State) (i : Nat) (b : Bool) :
    (s.setInode i { s.ino i with locked := b }).unlock i = s.unlock i := by
  rw [unlock, unlock, setInode_setInode, setInode_self, node, setInode_self]
  rfl

theorem put_disk (s : State) (i : Nat) : (s.put i).disk = s.disk := s.unlock_disk i

theorem put_sb (s : State) (i : Nat) : (s.put i).sb = s.sb := s.unlock_sb i

theorem put_self (s : State) (i : Nat) :
    (s.put i).ino i = { s.ino i with locked := false, ref := (s.ino i).ref - 1 } := by
  rw [put, setInode_self, unlock_self]

theorem put_other (hj : j ≠ i) : (s.put i).ino j = s.ino j := by
  rw [put, setInode_other hj, unlock_other hj]

end State

theorem iget_dup (h : 0 < (s.ino i).ref) : iget i s = .ok ((), s.dup i) := by
  rw [iget, bind_run get_run, if_pos h]
  rfl

theorem iget_new (h : (s.ino i).ref = 0) (hroom : s.cached.length < NINODE) :
    iget i s = .ok ((), s.setInode i { s.ino i with ref := 1, valid := false }) := by
  rw [iget, bind_run get_run, if_neg (by omega), if_neg (by omega)]
  rfl

theorem iget_full (h : (s.ino i).ref = 0) (hfull : NINODE ≤ s.cached.length) :
    iget i s = .error "iget: no inodes" := by
  rw [iget, bind_run get_run, if_neg (by omega), if_pos hfull]
  rfl

theorem iput_keep (hl : (s.ino i).locked = false) (hk : ¬ s.Last i) : iput i s = .ok ((), s.put i) := by
  have hends : Ends (iput i) s (fun _ s' => s' = s.put i) fun _ => False := by
    rw [iput]
    refine .bind (acquiresleep_spec.weaken fun _ h => ?_) ?_
    · rw [hl] at h
      cases h.1
    rintro _ _ ⟨rfl, -⟩
    refine .run get_run (.ite (fun h => ?_) fun _ => .run releasesleep_run (.of_modify ?_))
    · rw [s.setInode_self] at h
      exact absurd h hk
    · rw [s.unlock_setInode]
      rfl
  obtain ⟨_, s', hrun, rfl⟩ := hends.returns fun _ => id
  exact hrun

theorem iunlockput_keep (hl : (s.ino i).locked = true) (hr : 0 < (s.ino i).ref) (hk : ¬ s.Last i) :
    iunlockput i s = .ok ((), (s.unlock i).put i) := by
  rw [iunlockput, bind_run (iunlock_run hl hr)]
  refine iput_keep ?_ fun h => hk ?_
  · rw [s.unlock_self]
  · rw [State.Last, State.node, s.unlock_self] at h
    exact h

theorem Good.of_lock (hlog : s.log = none) (hg : s.sb.Geometry) (ho : Owned s.sb s.disk s.cur)
    (hl : Live s.sb s.cur i)
    (hf : (s.cur i).Fits) : Good (s.lock i) i where
  log := hlog
  geo := hg
  owned := by
    rw [s.lock_cur]
    exact ho
  valid := by rw [s.lock_self]
  live := by
    rw [s.lock_cur]
    exact hl
  fits := by
    rw [s.lock_node]
    exact hf

end

/-! ## A file system with one file -/

def Super.sample : Super where
  size := 200
  nblocks := 196
  ninodes := 8
  nlog := 0
  logstart := 2
  inodestart := 2
  bmapstart := 3

def State.sample : State where
  disk b k := if b = 3 ∧ k = 0 then 15 else 0
  sb := .sample
  ino i := if i = 1 then ⟨1, true, false, { Dinode.zero with type := T_FILE, nlink := 1 }⟩
    else ⟨0, false, false, Dinode.zero⟩
  devsw := ⟨fun _ => none, fun _ => none⟩
  released := []
  log := none

theorem Super.sample_geometry : Super.sample.Geometry where
  super := by decide
  inodes := by decide
  bitmap := by decide
  data := by decide
  size := by decide
  fits := ⟨by decide, by decide, by decide, by decide, by decide, by decide, by decide⟩

theorem State.sample_live {i : Nat} : Live Super.sample State.sample.cur i ↔ i = 1 := by
  have hall : ∀ i < 8, (State.sample.cur i).type ≠ 0 → i = 1 := by decide
  constructor
  · exact fun h => hall i h.1 h.2
  · rintro rfl
    exact ⟨by decide, by decide⟩

theorem State.sample_fits : (State.sample.cur 1).Fits :=
  ⟨by decide, by decide, by decide, by decide, by decide, fun _ => Nat.two_pow_pos _, fun _ _ => rfl⟩

theorem State.sample_ptr {k : Nat} : ptr State.sample.disk (State.sample.cur 1) k = 0 := by
  rw [ptr]
  split <;> rfl

theorem State.sample_used {b : Nat} (h : b < 200) :
    used Super.sample State.sample.disk b = decide (b < 4) := by
  have hall : ∀ b < 200, used Super.sample State.sample.disk b = decide (b < 4) := by
    decide +kernel
  exact hall b h

theorem State.sample_owned : Owned Super.sample State.sample.disk State.sample.cur where
  range i k hi _ hp := by
    obtain rfl := sample_live.1 hi
    exact absurd sample_ptr hp
  once i k j l hi _ _ _ hp := by
    obtain rfl := sample_live.1 hi
    exact absurd sample_ptr hp
  bits b hb := by
    rw [sample_used hb.2, decide_eq_true_eq]
    refine ⟨fun h => absurd hb.1 (Nat.not_le.2 h), fun ⟨i, k, hi, _, hp⟩ => ?_⟩
    obtain rfl := sample_live.1 hi
    have h0 : (0 : Nat) = b := sample_ptr.symm.trans hp
    exact absurd h0.symm (Super.sample_geometry.pos hb)
  system b hb := by
    rw [sample_used (Nat.lt_trans hb (by decide))]
    exact decide_eq_true hb

theorem State.sample_free : 196 ≤ State.sample.free := by
  have hsub : Finset.Ico 4 200 ⊆ (Finset.range 200).filter fun b =>
      used Super.sample State.sample.disk b = false := by
    intro b hb
    rw [Finset.mem_Ico] at hb
    rw [Finset.mem_filter, Finset.mem_range, sample_used hb.2]
    exact ⟨hb.2, decide_eq_false (Nat.not_lt.2 hb.1)⟩
  exact (Nat.card_Ico 4 200).symm.le.trans (Finset.card_le_card hsub)

end Fs
