import Xv6.Fs.Dir
import Xv6.Fs.Proof.Lock

/-!
# References and locks

What every run that returns does to references and locks, whatever is on the disk.
-/

namespace Fs

open Panic
open Log (Block)

variable {s s' s'' : State} {i j k n off b : Nat} {α β : Type}

structure SameRefs (s s' : State) : Prop where
  ref : ∀ j, (s'.ino j).ref = (s.ino j).ref
  locked : ∀ j, (s'.ino j).locked = (s.ino j).locked

theorem SameRefs.refl : SameRefs s s := ⟨fun _ => rfl, fun _ => rfl⟩

theorem SameRefs.trans (h : SameRefs s s') (h' : SameRefs s' s'') : SameRefs s s'' :=
  ⟨fun j => (h'.ref j).trans (h.ref j), fun j => (h'.locked j).trans (h.locked j)⟩

theorem sameRefs_setInode {v : Inode} (hr : v.ref = (s.ino i).ref)
    (hl : v.locked = (s.ino i).locked) : SameRefs s (s.setInode i v) := by
  refine ⟨fun j => ?_, fun j => ?_⟩
  all_goals
    by_cases hj : j = i
    · subst hj
      rw [s.setInode_self]
      assumption
    · rw [State.setInode_other hj]

/-! ## Programs that keep them -/

def Keeps (m : FsM α) : Prop := ∀ s, Ends m s (fun _ s' => SameRefs s s') fun _ => True

theorem Keeps.bind {m : FsM α} {f : α → FsM β} (h : Keeps m) (k : ∀ a, Keeps (f a)) :
    Keeps (m >>= f) := fun s =>
  (h s).bind fun a s1 h1 => (k a s1).mono (fun _ _ h2 => h1.trans h2) fun _ => id

theorem Keeps.ite {c : Prop} [Decidable c] {m m' : FsM α} (h : Keeps m) (h' : Keeps m') :
    Keeps (if c then m else m') := fun s => .ite (fun _ => h s) fun _ => h' s

theorem keeps_pure {a : α} : Keeps (pure a : FsM α) := fun _ => .of_pure .refl

theorem keeps_get : Keeps (get : FsM State) := fun _ => .of_get .refl

theorem keeps_throw {e : String} : Keeps (throw e : FsM α) := fun _ => .of_throw trivial

theorem keeps_modify {g : State → State} (h : ∀ s, SameRefs s (g s)) : Keeps (modify g : FsM Unit) :=
  fun s => .of_modify (h s)

theorem keeps_setNode {g : State → Dinode} : Keeps (modify fun s => s.setNode i (g s) : FsM Unit) :=
  keeps_modify fun _ => sameRefs_setInode rfl rfl

theorem keeps_bread : Keeps (bread b) :=
  .ite (keeps_throw.bind fun _ => keeps_get.bind fun _ => keeps_pure)
    (keeps_get.bind fun _ => keeps_pure)

theorem keeps_logWrite {v : Block} : Keeps (logWrite b v) := by
  refine keeps_get.bind fun s => ?_
  split
  · exact keeps_modify fun _ => ⟨fun _ => rfl, fun _ => rfl⟩
  · exact .ite keeps_throw (.ite keeps_throw (keeps_modify fun _ => ⟨fun _ => rfl, fun _ => rfl⟩))

theorem keeps_readsb : Keeps readsb :=
  keeps_bread.bind fun _ => keeps_modify fun _ => ⟨fun _ => rfl, fun _ => rfl⟩

theorem keeps_bzero : Keeps (bzero b) := keeps_bread.bind fun _ => keeps_logWrite

theorem keeps_ballocFrom : Keeps (ballocFrom n b) := by
  induction n generalizing b with
  | zero => exact keeps_throw
  | succ n ih =>
    refine keeps_get.bind fun s => .ite (keeps_bread.bind fun bp => ?_) keeps_throw
    split
    · exact keeps_logWrite.bind fun _ => keeps_bzero.bind fun _ => keeps_pure
    · exact ih

theorem keeps_balloc : Keeps balloc := keeps_get.bind fun _ => keeps_ballocFrom

theorem keeps_bfree : Keeps (bfree b) := by
  refine keeps_readsb.bind fun _ => keeps_get.bind fun s => keeps_bread.bind fun bp => ?_
  exact Keeps.ite (keeps_throw.bind fun _ => keeps_logWrite) keeps_logWrite

theorem keeps_iupdate : Keeps (iupdate i) :=
  keeps_get.bind fun _ => keeps_bread.bind fun _ => keeps_get.bind fun _ => keeps_logWrite

theorem keeps_setAddr {addr : Nat} : Keeps (setAddr i k addr) :=
  keeps_setNode (g := fun s => (s.node i).setAddr k addr)

theorem keeps_bmapAddr : Keeps (bmapAddr i k) := by
  refine keeps_get.bind fun s => ?_
  exact Keeps.ite (keeps_balloc.bind fun _ => keeps_setAddr.bind fun _ => keeps_pure) keeps_pure

theorem keeps_bmap : Keeps (bmap i b) := by
  refine .ite keeps_bmapAddr (.ite (keeps_bmapAddr.bind fun ind => keeps_bread.bind fun bp => ?_)
    keeps_throw)
  exact Keeps.ite (keeps_balloc.bind fun _ => keeps_logWrite.bind fun _ => keeps_pure) keeps_pure

theorem keeps_freeDirect : Keeps (freeDirect i n) := by
  induction n with
  | zero => exact keeps_pure
  | succ n ih =>
    refine ih.bind fun _ => keeps_get.bind fun s => ?_
    exact Keeps.ite (keeps_bfree.bind fun _ => keeps_setAddr) keeps_pure

theorem keeps_freeIndirect {bp : Block} : Keeps (freeIndirect bp n) := by
  induction n with
  | zero => exact keeps_pure
  | succ n ih => exact ih.bind fun _ => .ite keeps_bfree keeps_pure

theorem keeps_itrunc : Keeps (itrunc i) := by
  have hend : Keeps (do
      modify fun s => s.setNode i { s.node i with size := 0 }
      iupdate i) :=
    (keeps_setNode (g := fun s => { s.node i with size := 0 })).bind fun _ => keeps_iupdate
  refine keeps_freeDirect.bind fun _ => keeps_get.bind fun s => ?_
  refine Keeps.ite (keeps_bread.bind fun bp => keeps_freeIndirect.bind fun _ => ?_) hend
  exact keeps_bfree.bind fun _ => keeps_setAddr.bind fun _ => hend

theorem keeps_readLoop {fuel : Nat} : Keeps (readLoop i fuel off n) := by
  induction fuel generalizing off n with
  | zero => exact keeps_pure
  | succ fuel ih =>
    refine .ite keeps_pure ?_
    exact keeps_bmap.bind fun _ => keeps_bread.bind fun _ => ih.bind fun _ => keeps_pure

theorem keeps_readi : Keeps (readi i off n) := by
  refine keeps_get.bind fun s => .ite ?_ (.ite keeps_pure (keeps_readLoop.bind fun _ => keeps_pure))
  split <;> exact keeps_pure

/-! ## References -/

def single (i j : Nat) : Nat := if j = i then 1 else 0

theorem single_self : single i i = 1 := if_pos rfl

structure Refs (s : State) (drop : Nat → Nat) (s' : State) (take : Nat → Nat) : Prop where
  ref : ∀ j, (s'.ino j).ref + drop j = (s.ino j).ref + take j
  locked : ∀ j, (s'.ino j).locked = (s.ino j).locked

theorem iget_refs : Ends (iget i) s (fun _ s' => Refs s (fun _ => 0) s' (single i)) fun _ => True := by
  have hset : ∀ v : Inode, v.ref = (s.ino i).ref + 1 → v.locked = (s.ino i).locked →
      Refs s (fun _ => 0) (s.setInode i v) (single i) := by
    intro v hr hl
    refine ⟨fun j => ?_, fun j => ?_⟩
    · by_cases hj : j = i
      · subst hj
        rw [s.setInode_self, hr, single_self]
      · rw [State.setInode_other hj, single, if_neg hj]
    · by_cases hj : j = i
      · subst hj
        rw [s.setInode_self, hl]
      · rw [State.setInode_other hj]
  refine .run get_run (.ite (fun _ => .of_set (hset _ rfl rfl)) fun h => .ite (fun _ => .of_throw trivial)
    fun _ => .of_set (hset _ ?_ rfl))
  show 1 = _
  omega

theorem dup_refs : Refs s (fun _ => 0) (s.dup i) (single i) := by
  refine ⟨fun j => ?_, fun j => ?_⟩
  all_goals
    by_cases hj : j = i
    · subst hj
      simp [State.dup, s.setInode_self, single]
    · simp [State.dup, State.setInode_other hj, single, hj]

theorem iput_refs (h : 0 < (s.ino i).ref) :
    Ends (iput i) s (fun _ s' => Refs s (single i) s' fun _ => 0) fun _ => True := by
  -- the end of `iput`, after the inode may have been freed
  have hend : ∀ s1 : State, SameRefs (s.setInode i { s.ino i with locked := true }) s1 →
      (s.ino i).locked = false →
      Ends (do
        releasesleep i
        modify fun s => s.setInode i { s.ino i with ref := (s.ino i).ref - 1 }) s1
        (fun _ s' => Refs s (single i) s' fun _ => 0) fun _ => True := by
    intro s1 h1 hl
    refine .run releasesleep_run (.of_modify ⟨fun j => ?_, fun j => ?_⟩)
    all_goals
      have hr := h1.ref j
      have hk := h1.locked j
      by_cases hj : j = i
      · subst hj
        rw [s.setInode_self] at hr hk
        rw [State.setInode_self, s1.unlock_self]
        simp only [single_self, hr, hl]
        try omega
      · rw [State.setInode_other hj] at hr hk
        rw [State.setInode_other hj, State.unlock_other hj]
        simp only [single, if_neg hj, hr, hk]
  refine .bind (acquiresleep_spec.weaken fun _ _ => trivial) ?_
  rintro _ _ ⟨rfl, hl⟩
  refine .run get_run (.ite (fun _ => ?_) fun _ => hend _ .refl hl)
  have hfree : Keeps (do
      itrunc i
      modify fun s => s.setNode i { s.node i with type := 0 }
      iupdate i
      modify fun s => s.setInode i { s.ino i with valid := false } : FsM Unit) :=
    keeps_itrunc.bind fun _ => (keeps_setNode (g := fun s => { s.node i with type := 0 })).bind
      fun _ => keeps_iupdate.bind fun _ => keeps_modify fun _ => sameRefs_setInode rfl rfl
  have := (hfree (s.setInode i { s.ino i with locked := true })).bind (f := fun _ => do
    releasesleep i
    modify fun s => s.setInode i { s.ino i with ref := (s.ino i).ref - 1 })
    fun _ s1 h1 => hend s1 h1 hl
  simpa only [bind_assoc] using this

theorem Refs.trans {A B C D : Nat → Nat} (h : Refs s A s' B) (h' : Refs s' C s'' D) :
    Refs s (fun j => A j + C j) s'' fun j => B j + D j :=
  ⟨fun j => by have := h.ref j; have := h'.ref j; omega,
    fun j => (h'.locked j).trans (h.locked j)⟩

theorem Refs.congr {A B C D : Nat → Nat} (h : Refs s A s' B) (hA : ∀ j, C j + B j = D j + A j) :
    Refs s C s' D :=
  ⟨fun j => by have := h.ref j; have := hA j; omega, h.locked⟩

def taken {α : Type} : Option (Nat × α) → Nat → Nat
  | some (i, _) => single i
  | none => fun _ => 0

theorem unlock_refs {A : Nat → Nat} (hl : (s.ino i).locked = false)
    (h : Refs (s.lock i) (fun _ => 0) s' A) : Refs s (fun _ => 0) (s'.unlock i) A := by
  refine ⟨fun j => ?_, fun j => ?_⟩
  all_goals
    have hr := h.ref j
    have hk := h.locked j
    by_cases hj : j = i
    · subst hj
      rw [s.lock_self] at hr hk
      rw [s'.unlock_self]
      first | exact hr | exact hl.symm
    · rw [State.lock_other hj] at hr hk
      rw [State.unlock_other hj]
      assumption

theorem iunlockput_refs {A : Nat → Nat} (hl : (s.ino i).locked = false) (hr : 0 < (s.ino i).ref)
    (h : Refs (s.lock i) (fun _ => 0) s' A) :
    Ends (iunlockput i) s' (fun _ s1 => Refs s (single i) s1 A) fun _ => True := by
  refine (iunlock_spec.weaken fun _ _ => trivial).bind ?_
  rintro _ _ ⟨rfl, -⟩
  have h1 := unlock_refs hl h
  refine (iput_refs ?_).mono (fun _ s2 h2 => ⟨fun j => ?_, fun j => ?_⟩) fun _ => id
  · have := h1.ref i
    omega
  · have h3 := h1.ref j
    have h4 := h2.ref j
    omega
  · rw [h2.locked j, h1.locked j]

theorem length_dropWhile {p : UInt8 → Bool} {l : List UInt8} : (l.dropWhile p).length ≤ l.length :=
  (List.dropWhile_sublist p).length_le

theorem skipelem_length {path name rest : List UInt8} (h : skipelem path = some (name, rest)) :
    rest.length < path.length := by
  unfold skipelem at h
  simp only at h
  split at h
  · cases h
  · rename_i hne
    simp only [Option.some.injEq, Prod.mk.injEq] at h
    obtain ⟨-, rfl⟩ := h
    obtain ⟨c, l, hcl⟩ := List.exists_cons_of_ne_nil hne
    have hc : (c == SLASH) = false := by
      have := List.head?_dropWhile_not (· == SLASH) path
      rw [hcl] at this
      simpa using this
    have h1 := length_dropWhile (p := (· == SLASH)) (l := path)
    rw [hcl, List.length_cons] at h1
    rw [hcl, List.dropWhile_cons, if_pos (by simpa [bne] using hc)]
    have h2 := length_dropWhile (p := (· == SLASH)) (l := l.dropWhile (· != SLASH))
    have h3 := length_dropWhile (p := (· != SLASH)) (l := l)
    omega

end Fs
