import Xv6.Bio.Cache

/-!
# The buffer cache on a drive that fails

The drive reports a status when it has carried out a command. For a read `ideintr` looks at it
(`idewait(1)`) and leaves the data of the buffer as they are if the drive reports an error, but sets
`B_VALID` in any case; for a write it does not look at it, and a write that failed leaves any data in
the block. All other steps are those of the machine of `bio.c`.

`written` is a history variable: what was put into a buffer of a block, or written to it.
-/

namespace Bio

open Function (update)
open Log (Block)

def IDE_DF : Nat := 0x20
def IDE_ERR : Nat := 0x01

def idewait (checkerr : Bool) (r : Nat) : Int :=
  if checkerr ∧ r &&& (IDE_DF ||| IDE_ERR) ≠ 0 then -1 else 0

structure Faulty (T : Type) where
  core : State T
  written : Nat → Nat → Block → Prop

namespace State

variable {T : Type}

/-- `ideintr` for a read that ends with the status `r`. -/
def readDone (s : State T) (b : Buf) (r : Nat) : State T :=
  if idewait true r ≥ 0 then s.fetch b else { s with valid := update s.valid b true }

/-- `ideintr` for a write that leaves `v` in the block. -/
def writeDone (s : State T) (b : Buf) (v : Block) : State T :=
  { s.flush b with disk := update s.disk (s.dev b) (update (s.disk (s.dev b)) (s.blockno b) v) }

end State

namespace Faulty

variable {T : Type} [DecidableEq T] (start : Nat) (reads : Nat → Prop)

/-- What the buffers that were changed and not yet logged hold has been written to their blocks. -/
def record (s : State T) (w : Nat → Nat → Block → Prop) : Nat → Nat → Block → Prop := fun d n x =>
  w d n x ∨ ∃ b, s.fresh b = true ∧ s.dev b = d ∧ s.blockno b = n ∧ s.data b = x

/-- The steps, if the drive reports only statuses in `reads` for reads. -/
inductive Step : Faulty T → Faulty T → Prop
  | kernel {s s' w} (hs : Bio.Step start s s') : Step ⟨s, w⟩ ⟨s', record s' w⟩
  | read {s w t b k r} (hp : s.pc t = .read b k) (hv : s.valid b = false) (hd : s.dirty b = false)
      (hr : reads r) : Step ⟨s, w⟩ ⟨s.readDone b r, w⟩
  | write {s w t b x q} (v : Block) (hw : Writes x b (s.pc t) q) :
      Step ⟨s, w⟩ ⟨(s.writeDone b v).goto t q,
        fun d n x => w d n x ∨ (s.dev b = d ∧ s.blockno b = n ∧ s.data b = x)⟩

inductive Reach : Faulty T → Prop
  | init {disk junk} : Reach ⟨init disk junk, fun _ _ _ => False⟩
  | step {m m'} (h : Reach m) (hs : Step start reads m m') : Reach m'

/-- What is valid is what the block holds or what was written to it. -/
def Sound (m : Faulty T) : Prop := ∀ b, m.core.valid b = true →
  m.core.data b = m.core.disk (m.core.dev b) (m.core.blockno b) ∨
    m.written (m.core.dev b) (m.core.blockno b) (m.core.data b)

end Faulty

end Bio
