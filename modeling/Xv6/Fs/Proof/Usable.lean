import Xv6.Fs.Proof.Image

/-!
# When the image is usable

`Usable` is what `fs.c` relies on. `mkfs` does not check the number of inodes, and it rounds the size of
the root directory up past the end of its last block when the entries fill it: the image is usable
exactly if neither happens.
-/

namespace Fs.Mkfs

open Log (Block)
open Panic
open Param

def State.Taken (s : State) (i : Nat) : Prop := 0 < i ∧ i < s.freeinode

/-- **What the kernel relies on.** -/
structure Usable (s : State) : Prop where
  super : getSuper (s.disk 1) = sb
  inodes : ∀ i, s.Taken i → i < sb.ninodes
  blocks : ∀ i k, s.Taken i → k < NSLOT → ptr s.disk (s.nodes i) k ≠ 0 →
    sb.IsData (ptr s.disk (s.nodes i) k) ∧ used sb s.disk (ptr s.disk (s.nodes i) k) = true
  once : ∀ i k j l, s.Taken i → s.Taken j → k < NSLOT → l < NSLOT → ptr s.disk (s.nodes i) k ≠ 0 →
    ptr s.disk (s.nodes i) k = ptr s.disk (s.nodes j) l → i = j ∧ k = l
  holes : ∀ i bn, s.Taken i → bn * BSIZE < (s.nodes i).size →
    ptr s.disk (s.nodes i) (slot bn) ≠ 0
  root : (s.nodes ROOTINO).size % DIRENTSIZE = 0

/-! ## The number of inodes -/

def Keeps {α : Type} (m : MkM α) : Prop :=
  ∀ s, Ends m s (fun _ s' => s'.freeinode = s.freeinode) fun _ => True

section
variable {α β : Type} {m n : MkM α} {f : α → MkM β} {c : Prop} [Decidable c]

theorem Keeps.bind (hm : Keeps m) (hf : ∀ a, Keeps (f a)) : Keeps (m >>= f) := fun s =>
  .bind (hm s) fun a s' hs => (hf a s').mono (fun _ _ h => h.trans hs) fun _ => id

theorem Keeps.ite (hm : Keeps m) (hn : Keeps n) : Keeps (if c then m else n) := fun s =>
  .ite (fun _ => hm s) fun _ => hn s

theorem Keeps.pure {a : α} : Keeps (pure a) := fun _ => .of_pure rfl

theorem Keeps.throw {e : String} : Keeps (throw e : MkM α) := fun _ => .of_throw trivial

theorem Keeps.get : Keeps (get : MkM State) := fun _ => .of_get rfl

end

section
variable {i : Nat} {d : Dinode}

theorem keeps_wsect {sec : Nat} {buf : Block} : Keeps (wsect sec buf) := fun _ => .of_modify rfl

theorem keeps_rsect {sec : Nat} : Keeps (rsect sec) :=
  Keeps.get.bind fun _ => .ite (.bind .throw fun _ => .pure) .pure

theorem keeps_winode : Keeps (winode i d) := keeps_rsect.bind fun _ => keeps_wsect

theorem keeps_rinode : Keeps (rinode i) := keeps_rsect.bind fun _ => .pure

theorem keeps_nextBlock : Keeps nextBlock := fun _ => .of_ok rfl rfl

theorem keeps_addrOf {k : Nat} : Keeps (addrOf d k) :=
  .ite (keeps_nextBlock.bind fun _ => .pure) .pure

theorem keeps_blockOf {fbn : Nat} : Keeps (blockOf d fbn) :=
  .ite keeps_addrOf (keeps_addrOf.bind fun _ => keeps_rsect.bind fun _ =>
    .ite (keeps_nextBlock.bind fun _ => keeps_wsect.bind fun _ => .pure) .pure)

theorem keeps_iappendLoop {fuel off : Nat} {p : List UInt8} : Keeps (iappendLoop fuel d off p) := by
  induction fuel generalizing d off p with
  | zero => exact .pure
  | succ fuel ih =>
    rw [iappendLoop]
    exact .ite .pure (.ite (.bind .throw fun _ => keeps_blockOf.bind fun _ => keeps_rsect.bind
      fun _ => keeps_wsect.bind fun _ => ih)
      (keeps_blockOf.bind fun _ => keeps_rsect.bind fun _ => keeps_wsect.bind fun _ => ih))

theorem keeps_iappend {p : List UInt8} : Keeps (iappend i p) :=
  keeps_rinode.bind fun _ => keeps_iappendLoop.bind fun _ => keeps_winode

theorem keeps_copyIn {reads : List (List UInt8)} : Keeps (copyIn i reads) := by
  induction reads with
  | nil => exact .pure
  | cons buf reads ih =>
    rw [copyIn]
    exact .ite .pure (keeps_iappend.bind fun _ => ih)

theorem ialloc_freeinode {s : State} {t : Nat} :
    Ends (ialloc t) s (fun _ s' => s'.freeinode = s.freeinode + 1) fun _ => True :=
  .run get_run (.run modify_run ((keeps_winode.bind fun _ => .pure) _))

theorem addFiles_freeinode {s : State} {files : List Input} :
    Ends (addFiles i files) s (fun _ s' => s'.freeinode = s.freeinode + files.length)
      fun _ => True := by
  induction files generalizing s with
  | nil => exact .of_pure rfl
  | cons f files ih =>
    rw [addFiles]
    refine .bind (Q := fun _ s' => s'.freeinode = s.freeinode + 1) ?_ fun _ s1 h1 => ?_
    · rw [addFile]
      refine .ite (fun _ => .throws trivial) fun _ => .bind ialloc_freeinode fun _ s1 h1 => ?_
      exact ((keeps_iappend.bind fun _ => keeps_copyIn) s1).mono (fun _ _ h => h.trans h1) fun _ => id
    · refine ih.mono (fun _ _ h => ?_) fun _ => id
      rw [h, h1, List.length_cons]
      omega

theorem main_freeinode {files : List Input} :
    Ends (main files) start (fun _ s => s.freeinode = files.length + 2) fun _ => True := by
  rw [main]
  refine .run zeroes_run (.bind (keeps_wsect _) fun _ s1 h1 => .bind ialloc_freeinode fun r s2 h2 => ?_)
  refine .ite (fun _ => .throws trivial) fun _ => ?_
  refine .bind (keeps_iappend _) fun _ s3 h3 => .bind (keeps_iappend _) fun _ s4 h4 => ?_
  refine .bind addFiles_freeinode fun _ s5 h5 => ?_
  have hend : Keeps (do
      fixRoot r
      balloc (← get).freeblock) :=
    .bind (keeps_rinode.bind fun _ => keeps_winode) fun _ => Keeps.get.bind fun _ =>
      .ite (.bind .throw fun _ => keeps_wsect) keeps_wsect
  refine (hend s5).mono (fun _ _ h => ?_) fun _ => id
  have hs : ({ start with nsect := FSSIZE } : State).freeinode = 1 := rfl
  omega

end

/-! ## The root directory -/

section
variable {s : State} {files : List Input} {i : Nat}

section
variable (h : Image s files) (hlt : files.length + 2 ≤ NINODES)
include h hlt

theorem Image.live (hi : s.Taken i) : Live sb s.nodes i := by
  have hi' := hi.2
  rw [h.freeinode] at hi'
  refine ⟨hi'.trans_le hlt, ?_⟩
  by_cases hr : i = ROOTINO
  · rw [hr, h.rootType]
    decide
  · have : ROOTINO = 1 := rfl
    obtain ⟨k, rfl⟩ : ∃ k, i = k + 2 := ⟨i - 2, by have := hi.1; omega⟩
    rw [(h.file k _ (List.getElem?_eq_getElem (by omega))).type]
    decide

theorem Image.root_ptr {bn : Nat} (hbn : bn * BSIZE < (s.nodes ROOTINO).size) :
    ptr s.disk (s.nodes ROOTINO) (slot bn) ≠ 0 ↔ bn * BSIZE < DIRENTSIZE * (files.length + 2) := by
  have hN : NINODES = 200 := rfl
  have hslot : slot bn < NSLOT := by
    rw [h.rootSize] at hbn
    refine slot_lt ?_
    unfold MAXFILE NDIRECT NINDIRECT
    unfold DIRENTSIZE BSIZE at *
    omega
  rw [h.rootPtr _ hslot, slot_lt_slots]

theorem Image.usable_iff : Usable s ↔ DIRENTSIZE * (files.length + 2) % BSIZE ≠ 0 := by
  constructor
  · intro hu hz
    have hroot : s.Taken ROOTINO :=
      ⟨by decide, by rw [h.freeinode]; exact Nat.succ_lt_succ (Nat.succ_pos _)⟩
    have hlast : DIRENTSIZE * (files.length + 2) / BSIZE * BSIZE = DIRENTSIZE * (files.length + 2) :=
      Nat.div_mul_cancel (Nat.dvd_of_mod_eq_zero hz)
    have hbn : DIRENTSIZE * (files.length + 2) / BSIZE * BSIZE < (s.nodes ROOTINO).size := by
      rw [h.rootSize, Nat.add_mul, Nat.one_mul]
      exact Nat.lt_add_of_pos_right (by decide)
    have := (h.root_ptr hlt hbn).1 (hu.holes ROOTINO _ hroot hbn)
    omega
  · intro hz
    refine ⟨h.super, fun i hi => (h.live hlt hi).1, fun i k hi hk hp => ?_,
      fun i k j l hi hj => h.owned.once i k j l (h.live hlt hi) (h.live hlt hj), fun i bn hi hbn =>
        ?_, ?_⟩
    · have hd := h.owned.range i k (h.live hlt hi) hk hp
      exact ⟨hd, (h.owned.bits _ hd).2 ⟨i, k, h.live hlt hi, hk, rfl⟩⟩
    · by_cases hr : i = ROOTINO
      · subst hr
        rw [h.root_ptr hlt hbn]
        rw [h.rootSize] at hbn
        unfold DIRENTSIZE BSIZE at *
        omega
      · have hi' := hi.2
        rw [h.freeinode] at hi'
        have : ROOTINO = 1 := rfl
        obtain ⟨k, rfl⟩ : ∃ k, i = k + 2 := ⟨i - 2, by have := hi.1; omega⟩
        have hf := h.file k _ (List.getElem?_eq_getElem (by omega))
        rw [hf.size] at hbn
        have := hf.exact (slot bn) ((slot_lt_slots.2 hbn).trans_le (slots_lt hf.max))
        rw [h.disk] at this
        exact this.2 (slot_lt_slots.2 hbn)
    · rw [h.rootSize]
      unfold DIRENTSIZE BSIZE
      omega

end

/-- **`mkfs` makes a usable image exactly if** there is an inode for each file and the entries do not
fill the last block of the root directory. -/
theorem mkfs_usable (h : main files start = .ok ((), s)) :
    Usable s ↔ files.length + 2 ≤ NINODES ∧ DIRENTSIZE * (files.length + 2) % BSIZE ≠ 0 := by
  by_cases hlt : files.length + 2 ≤ NINODES
  · rw [((main_image hlt).ok h).usable_iff hlt, and_iff_right hlt]
  · refine iff_of_false (fun hu => ?_) fun hc => hlt hc.1
    have hfree := main_freeinode.ok h
    have hN : NINODES = 200 := rfl
    exact Nat.lt_irrefl _ (hu.inodes NINODES ⟨by decide, by omega⟩)

def empties (n : Nat) : List Input := (List.range n).map fun k => .letters k []

/-- The entries of 30 files fill a block. -/
theorem mkfs_thirty : ∃ s, main (empties 30) start = .ok ((), s) ∧ ¬ Usable s := by
  have hgood : ¬ Bad (empties 30) := by
    unfold Bad
    decide
  obtain ⟨s, hrun, himage⟩ := main_returns (by decide) hgood
  exact ⟨s, hrun, fun hu => (himage.usable_iff (by decide)).1 hu (by decide)⟩

theorem mkfs_usable_one : ∃ s, main (empties 1) start = .ok ((), s) ∧ Usable s := by
  have hgood : ¬ Bad (empties 1) := by
    unfold Bad
    decide
  obtain ⟨s, hrun, -⟩ := main_returns (by decide) hgood
  exact ⟨s, hrun, (mkfs_usable hrun).2 (by decide)⟩

end

end Fs.Mkfs
