import Xv6.Bio.Proof.Commit

/-!
# What a commit has done

`Pc.stage` says how far the committing process is. A block of the log that is not installed yet has a
dirty buffer, which is therefore not recycled (`Pins`); what was last passed to `log_write` for a
block is on the disk or in such a buffer (`Logged`), and so a buffer that is valid, and not being
changed, has it (`Value`).
-/

namespace Bio

open Function
open Log (Block)
open Param

/-! ## The stages of `commit` -/

structure Stage where
  /-- Blocks in the log on the disk. -/
  copied : Nat
  /-- Blocks that are also in their place. -/
  installed : Nat
  /-- The place in the log and the buffer, from `memmove` to the end of `bwrite`. -/
  copies : Option (Nat × Buf)
  /-- The buffer that is changed and not yet on the disk. -/
  writes : Option Buf
  /-- A buffer for a block of the log was found. -/
  room : Bool

def Stage.out : Stage := ⟨0, 0, none, none, false⟩

def Dir.stage (n i : Nat) : Dir → Stage
  | .toLog => ⟨i, 0, none, none, true⟩
  | .install => ⟨n, i, none, none, true⟩

def headStage (n : Nat) : Bool → Stage
  | false => ⟨n, 0, none, none, true⟩
  | true => ⟨0, 0, none, none, true⟩

def Cont.stage (n : Nat) : Cont → Stage
  | .client _ _ => .out
  | .log d i | .home d i _ => d.stage n i
  | .head again => headStage n again

def Rel.stage (n : Nat) : Rel → Stage
  | .client => .out
  | .src d i _ | .dst d i => d.stage n (i + 1)
  | .head again => headStage n again

def Pc.stage (n : Nat) : Pc → Stage
  | .idle | .append _ | .loop .toLog 0 => .out
  | .want _ k | .read _ k => k.stage n
  | .unlocked _ r => r.stage n
  | .loop d i | .gotLog d i _ | .gotBoth d i _ _ => d.stage n i
  | .moved d i lg hm | .writing d i lg hm =>
    { d.stage n i with copies := some (i, d.dst lg hm), writes := some (d.dst lg hm) }
  | .written d i _ _ | .half d i _ => d.stage n (i + 1)
  | .head again | .gotHead again _ | .writtenHead again _ => headStage n again
  | .filled again h | .writingHead again h => { headStage n again with writes := some h }
  | .clear => ⟨n, n, none, none, true⟩
  | .done => headStage n true

theorem Pc.stage_out {x : Pc} (h : x.commits = false) (n : Nat) : x.stage n = .out := by
  cases x with
  | want b k | read b k =>
    cases k with
    | client => rfl
    | _ => cases h
  | unlocked b r =>
    cases r with
    | client => rfl
    | _ => cases h
  | idle | append => rfl
  | _ => cases h

variable {T : Type} {start dev blockno : Nat} {t : T} {b : Buf} {x : Pc} {k : Cont}

theorem Asks.stage {lh : List Nat} (h : Asks start lh x dev blockno k) :
    (∀ n, (Pc.want b k).stage n = x.stage n) ∨
      x = .loop .toLog 0 ∧ k = .log .toLog 0 ∧ dev = ROOTDEV ∧ blockno = start + 1 := by
  cases h with
  | @log d i hi =>
    cases d with
    | toLog =>
      cases i with
      | zero => exact .inr ⟨rfl, rfl, rfl, rfl⟩
      | succ i => exact .inl fun _ => rfl
    | install => exact .inl fun _ => by cases i <;> rfl
  | _ => exact .inl fun _ => rfl

theorem Drops.stage {r : Rel} (h : Drops x b r) (n : Nat) :
    (Pc.unlocked b r).stage n = x.stage n ∧ (x.stage n).writes = none := by
  cases h with
  | @src d => cases d <;> exact ⟨rfl, rfl⟩
  | @dst d => cases d <;> exact ⟨rfl, rfl⟩
  | @head again => cases again <;> exact ⟨rfl, rfl⟩

theorem Cont.next_stage (b : Buf) (k : Cont) (n : Nat) : (k.next b).stage n = k.stage n := by
  cases k <;> rfl

theorem Rel.next_stage (r : Rel) (n : Nat) : r.next.stage n = r.stage n := by
  cases r with
  | dst d => cases d <;> rfl
  | head again => cases again <;> rfl
  | _ => rfl

theorem Pc.stage_busy (x : Pc) (n : Nat) : (x.stage n).copies = none ∧ (x.stage n).writes = none ∨
      ∃ b ∈ x.holds, x.reads = none ∧ (x.stage n).writes = some b ∧
        ∀ i c, (x.stage n).copies = some (i, c) → c = b := by
  have hd : ∀ (d : Dir) i, (d.stage n i).copies = none ∧ (d.stage n i).writes = none := by
    intro d i
    cases d <;> exact ⟨rfl, rfl⟩
  have hh : ∀ again, (headStage n again).copies = none ∧ (headStage n again).writes = none := by
    intro again
    cases again <;> exact ⟨rfl, rfl⟩
  cases x with
  | moved d i lg hm | writing d i lg hm =>
    refine .inr ⟨d.dst lg hm, ?_, rfl, rfl, fun _ _ hc => ?_⟩
    · cases d <;> simp [Pc.holds, Dir.dst]
    · cases hc
      rfl
  | filled again h | writingHead again h =>
    refine .inr ⟨h, List.mem_cons_self, rfl, rfl, fun i c hc => ?_⟩
    cases (hh again).1.symm.trans hc
  | want c k | read c k =>
    cases k with
    | client => exact .inl ⟨rfl, rfl⟩
    | log d i | home d i => exact .inl (hd d i)
    | head again => exact .inl (hh again)
  | unlocked c r =>
    cases r with
    | client => exact .inl ⟨rfl, rfl⟩
    | src d i | dst d i => exact .inl (hd d (i + 1))
    | head again => exact .inl (hh again)
  | loop d i => exact .inl (by cases d <;> cases i <;> exact ⟨rfl, rfl⟩)
  | gotLog d i | gotBoth d i => exact .inl (hd d i)
  | written d i | half d i => exact .inl (hd d (i + 1))
  | head again | gotHead again | writtenHead again => exact .inl (hh again)
  | idle | append | clear | done => exact .inl ⟨rfl, rfl⟩

theorem Pc.holds_of_writes {n : Nat} (h : (x.stage n).writes = some b) : b ∈ x.holds := by
  rcases x.stage_busy n with ⟨-, hw⟩ | ⟨c, hc, -, hw, -⟩
  · exact absurd (hw.symm.trans h) nofun
  · exact Option.some.inj (hw.symm.trans h) ▸ hc

theorem Pc.holds_of_copies {i n : Nat} (h : (x.stage n).copies = some (i, b)) :
    b ∈ x.holds ∧ x.reads = none := by
  rcases x.stage_busy n with ⟨hc, -⟩ | ⟨c, hc, hr, -, he⟩
  · exact absurd (hc.symm.trans h) nofun
  · exact ⟨he i b h ▸ hc, hr⟩

theorem Writes.stage {y z : Pc} (h : Writes x b y z) (n : Nat) :
    y.stage n = x.stage n ∧ (x.stage n).writes = some b := by
  cases h <;> exact ⟨rfl, rfl⟩

/-! ## Buffers that are being changed -/

/-- A buffer that is being changed is locked, by an operation or for the commit. -/
def Fresh (lock : Buf → Option T) (ops : List T) (n : Nat) (pc : T → Pc) (fresh : Buf → Bool) :
    Prop :=
  ∀ b, fresh b = true → ∃ t, lock b = some t ∧ (t ∈ ops ∨ ((pc t).stage n).writes = some b)

namespace Fresh

variable {lock : Buf → Option T} {ops : List T} {n m : Nat} {pc : T → Pc} {fresh : Buf → Bool}

section
variable (h : Fresh lock ops n pc fresh)
include h

theorem goto [DecidableEq T]
    (hx : ∀ b, ((pc t).stage n).writes = some b → fresh b = true → (x.stage n).writes = some b) :
    Fresh lock ops n (update pc t x) fresh := by
  unfold Fresh at *
  grind [update_apply]

theorem acquire (hl : lock b = none) : Fresh (update lock b (some t)) ops n pc fresh := by
  unfold Fresh at *
  grind [update_apply]

theorem unlock (hb : fresh b = false) : Fresh (update lock b none) ops n pc fresh := by
  unfold Fresh at *
  grind [update_apply]

theorem change (hl : lock b = some t) (ht : t ∈ ops ∨ ((pc t).stage n).writes = some b) :
    Fresh lock ops n pc (update fresh b true) := by
  unfold Fresh at *
  grind [update_apply]

theorem clean : Fresh lock ops n pc (update fresh b false) := by
  unfold Fresh at *
  grind [update_apply]

theorem resize (hm : ∀ u, (pc u).stage m = (pc u).stage n) : Fresh lock ops m pc fresh := by
  intro b hb
  obtain ⟨t, hl, ht⟩ := h b hb
  exact ⟨t, hl, (hm t).symm ▸ ht⟩

theorem erase [DecidableEq T] (ht : ∀ b, lock b ≠ some t) :
    Fresh lock (ops.erase t) n pc fresh := by
  unfold Fresh at *
  grind

end

end Fresh

/-- A buffer is not being changed while a `bread` of it is in progress. -/
def Unread (pc : T → Pc) (fresh : Buf → Bool) : Prop :=
  ∀ t b, (pc t).reads = some b → fresh b = false

namespace Unread

variable {pc : T → Pc} {fresh : Buf → Bool}

theorem change (h : Unread pc fresh) (hb : ∀ t, (pc t).reads ≠ some b) :
    Unread pc (update fresh b true) := by
  unfold Unread at *
  grind [update_apply]

theorem clean (h : Unread pc fresh) : Unread pc (update fresh b false) := by
  unfold Unread at *
  grind [update_apply]

theorem goto [DecidableEq T] (h : Unread pc fresh) (hx : ∀ b, x.reads = some b → fresh b = false) :
    Unread (update pc t x) fresh := by
  unfold Unread at *
  grind [update_apply]

end Unread

/-! ## The data of valid buffers -/

theorem disk_update (disk : Nat → Nat → Block) (d n d' n' : Nat) (v : Block) :
    update disk d (update (disk d) n v) d' n' = if d' = d ∧ n' = n then v else disk d' n' := by
  by_cases hd : d' = d
  · subst hd
    simp [update_apply]
  · simp [hd]

/-- What a buffer for a block is to have: the data last passed to `log_write`, or that on the
disk. -/
def expect (last : Nat → Option Block) (disk : Nat → Nat → Block) (dev blockno : Nat) : Block :=
  if dev = ROOTDEV then (last blockno).getD (disk dev blockno) else disk dev blockno

def Value (dev blockno : Buf → Nat) (valid : Buf → Bool) (data : Buf → Block)
    (disk : Nat → Nat → Block) (last : Nat → Option Block) (fresh : Buf → Bool) : Prop :=
  ∀ b, valid b = true → fresh b = false → data b = expect last disk (dev b) (blockno b)

namespace Value

variable {dev blockno : Buf → Nat} {valid : Buf → Bool} {data : Buf → Block}
  {disk : Nat → Nat → Block} {last : Nat → Option Block} {fresh : Buf → Bool}

section
variable (h : Value dev blockno valid data disk last fresh)
include h

theorem recycle (d n : Nat) :
    Value (update dev b d) (update blockno b n) (update valid b false) data disk last fresh := by
  unfold Value at *
  grind [update_apply]

theorem fetch (hb : expect last disk (dev b) (blockno b) = disk (dev b) (blockno b)) :
    Value dev blockno (update valid b true) (update data b (disk (dev b) (blockno b))) disk last
      fresh := by
  unfold Value at *
  grind [update_apply]

theorem change (v : Block) :
    Value dev blockno valid (update data b v) disk last (update fresh b true) := by
  unfold Value at *
  grind [update_apply]

theorem logWrite (hd : dev b = ROOTDEV)
    (hi : ∀ c, valid c = true → dev c = dev b → blockno c = blockno b → c = b) :
    Value dev blockno valid data disk (update last (blockno b) (some (data b)))
      (update fresh b false) := by
  unfold Value expect at *
  grind [update_apply]

theorem flush (hd : dev b = ROOTDEV)
    (hl : last (blockno b) = none ∨ last (blockno b) = some (data b))
    (hi : ∀ c, valid c = true → dev c = dev b → blockno c = blockno b → c = b) :
    Value dev blockno (update valid b true) data
      (update disk (dev b) (update (disk (dev b)) (blockno b) (data b))) last
      (update fresh b false) := by
  intro c hv hf
  have hc : c ≠ b → data c = expect last disk (dev c) (blockno c) ∧
      ¬ (dev c = dev b ∧ blockno c = blockno b) := by
    intro hcb
    rw [update_of_ne hcb] at hv hf
    exact ⟨h c hv hf, fun he => hcb (hi c hv he.1 he.2)⟩
  simp only [expect, disk_update] at hc ⊢
  grind

end

end Value

/-! ## The blocks that were passed to `log_write` -/

abbrev Pinned (dev blockno : Buf → Nat) (valid dirty : Buf → Bool) (n : Nat) : Prop :=
  ∃ b, dev b = ROOTDEV ∧ blockno b = n ∧ valid b = true ∧ dirty b = true

/-- Blocks passed to `log_write` are on the disk or pinned. -/
structure Logged (start : Nat) (last : Nat → Option Block) (disk : Nat → Nat → Block)
    (lh : List Nat) (dev blockno : Buf → Nat) (valid dirty : Buf → Bool) : Prop where
  stored : ∀ n v, last n = some v → disk ROOTDEV n = v ∨ Pinned dev blockno valid dirty n
  home : ∀ n v, last n = some v → Home start ROOTDEV n
  logged : ∀ n, n ∈ lh → last n ≠ none
  nodup : lh.Nodup

section

variable {dev blockno : Buf → Nat} {valid dirty : Buf → Bool} {n : Nat}

section
variable (h : Pinned dev blockno valid dirty n)
include h

theorem Pinned.recycle (hb : dirty b = false) (d m : Nat) :
    Pinned (update dev b d) (update blockno b m) (update valid b false) (update dirty b false) n := by
  obtain ⟨c, h1, h2, h3, h4⟩ := h
  have hcb : c ≠ b := by
    rintro rfl
    exact absurd (h4.symm.trans hb) nofun
  exact ⟨c, by simp [*]⟩

theorem Pinned.fetch : Pinned dev blockno (update valid b true) dirty n := by
  obtain ⟨c, h1, h2, h3, h4⟩ := h
  exact ⟨c, h1, h2, by grind [update_apply], h4⟩

theorem Pinned.pin : Pinned dev blockno valid (update dirty b true) n := by
  obtain ⟨c, h1, h2, h3, h4⟩ := h
  exact ⟨c, h1, h2, h3, by grind [update_apply]⟩

theorem Pinned.flush (hn : n ≠ blockno b) :
    Pinned dev blockno (update valid b true) (update dirty b false) n := by
  obtain ⟨c, h1, h2, h3, h4⟩ := h
  have hcb : c ≠ b := by
    rintro rfl
    exact hn h2.symm
  exact ⟨c, by simp [*]⟩

end

end

namespace Logged

variable {last : Nat → Option Block} {disk : Nat → Nat → Block} {lh : List Nat}
  {dev blockno : Buf → Nat} {valid dirty : Buf → Bool} {data : Buf → Block}

section
variable (h : Logged start last disk lh dev blockno valid dirty)
include h

theorem recycle (hb : dirty b = false)
    (d n : Nat) : Logged start last disk lh (update dev b d) (update blockno b n)
      (update valid b false) (update dirty b false) :=
  ⟨fun m v hl => (h.stored m v hl).imp_right fun hp => hp.recycle hb d n, h.home, h.logged, h.nodup⟩

theorem fetch : Logged start last disk lh dev blockno (update valid b true) dirty :=
  ⟨fun m v hl => (h.stored m v hl).imp_right .fetch, h.home, h.logged, h.nodup⟩

theorem pin : Logged start last disk lh dev blockno valid (update dirty b true) :=
  ⟨fun m v hl => (h.stored m v hl).imp_right .pin, h.home, h.logged, h.nodup⟩

theorem logWrite (hh : Home start (dev b) (blockno b)) (hv : valid b = true) (v : Block) :
    Logged start (update last (blockno b) (some v)) disk
      (if blockno b ∈ lh then lh else lh ++ [blockno b]) dev blockno valid
      (update dirty b true) := by
  obtain ⟨stored, home, logged, nodup⟩ := h
  have hd : dev b = ROOTDEV := hh.1
  rw [hd] at hh
  refine ⟨?_, ?_, ?_, ?_⟩
  · grind [update_apply]
  · grind [update_apply]
  · grind [update_apply]
  · split_ifs with hm
    · exact nodup
    · exact List.nodup_append.2 ⟨nodup, List.nodup_singleton _, by grind⟩

theorem flush (hd : dev b = ROOTDEV)
    (hl : last (blockno b) = none ∨ last (blockno b) = some (data b)) :
    Logged start last (update disk (dev b) (update (disk (dev b)) (blockno b) (data b))) lh dev
      blockno (update valid b true) (update dirty b false) := by
  refine ⟨fun n v hv => ?_, h.home, h.logged, h.nodup⟩
  rw [disk_update]
  by_cases hn : n = blockno b
  · subst hn
    rw [hv] at hl
    rw [if_pos ⟨hd.symm, rfl⟩]
    exact .inl (Option.some.inj (hl.resolve_left nofun)).symm
  · rw [if_neg fun he => hn he.2]
    exact (h.stored n v hv).imp_right fun hp => hp.flush hn

theorem clear : Logged start last disk [] dev blockno valid dirty :=
  ⟨h.stored, h.home, nofun, List.nodup_nil⟩

theorem expect_eq {d n : Nat}
    (hn : ∀ c, dirty c = true → valid c = true → ¬ (dev c = d ∧ blockno c = n)) :
    expect last disk d n = disk d n := by
  obtain ⟨stored, home, logged, nodup⟩ := h
  unfold expect
  split_ifs with hd
  · subst hd
    cases hl : last n with
    | none => rfl
    | some v =>
      rcases stored n v hl with hv | ⟨c, h1, h2, h3, h4⟩
      · exact hv.symm
      · exact absurd ⟨h1, h2⟩ (hn c h4 h3)
  · rfl

end

end Logged

/-! ## The dirty buffers -/

structure Pins (lh : List Nat) (dev blockno : Buf → Nat) (valid dirty : Buf → Bool) (pc : T → Pc) :
    Prop where
  /-- A block of the log is installed or has a dirty buffer. -/
  pinned : ∀ (j n : Nat), lh[j]? = some n →
    (∃ t, j < ((pc t).stage lh.length).installed) ∨ Pinned dev blockno valid dirty n
  /-- A dirty buffer has a block of the log that is not installed, or is being written. -/
  dirty : ∀ b, dirty b = true →
    (dev b = ROOTDEV ∧ ∃ j : Nat, lh[j]? = some (blockno b) ∧
      ∀ t, ((pc t).stage lh.length).installed ≤ j) ∨
    ∃ t, ((pc t).stage lh.length).writes = some b

theorem exists_update [DecidableEq T] {pc : T → Pc} {P : Pc → Prop} (h : ∃ u, P (pc u))
    (hx : P (pc t) → P x) :
    ∃ u, P (update pc t x u) := by
  obtain ⟨u, hu⟩ := h
  by_cases hut : u = t
  · subst hut
    exact ⟨u, (update_self (f := pc) ..).symm ▸ hx hu⟩
  · exact ⟨u, (update_of_ne (f := pc) hut ..).symm ▸ hu⟩

namespace Pins

variable {lh : List Nat} {dev blockno : Buf → Nat} {valid dirty : Buf → Bool} {pc : T → Pc}

theorem goto [DecidableEq T] (h : Pins lh dev blockno valid dirty pc) (hi : ∀ j < lh.length,
      j < (x.stage lh.length).installed ↔ j < ((pc t).stage lh.length).installed)
    (hw : ∀ b, ((pc t).stage lh.length).writes = some b → (x.stage lh.length).writes = some b) :
    Pins lh dev blockno valid dirty (update pc t x) := by
  refine ⟨fun j n hj => ?_, fun b hb => ?_⟩
  · have hlt : j < lh.length := (List.getElem?_eq_some_iff.1 hj).1
    exact (h.pinned j n hj).imp_left fun hu =>
      exists_update (P := fun y => j < (y.stage lh.length).installed) hu (hi j hlt).2
  · rcases h.dirty b hb with ⟨hd, j, hj, hu⟩ | hu
    · have hlt : j < lh.length := (List.getElem?_eq_some_iff.1 hj).1
      have hx := hi j hlt
      exact .inl ⟨hd, j, hj, forall_update (P := fun y => (y.stage lh.length).installed ≤ j)
        (fun u _ => hu u) (by have := hu t; omega)⟩
    · exact .inr (exists_update (P := fun y => (y.stage lh.length).writes = some b) hu (hw b))

theorem recycle (h : Pins lh dev blockno valid dirty pc) (hb : dirty b = false) (d n : Nat) :
    Pins lh (update dev b d) (update blockno b n) (update valid b false) (update dirty b false)
      pc := by
  refine ⟨fun j m hj => (h.pinned j m hj).imp_right fun hp => hp.recycle hb d n, fun c hc => ?_⟩
  have hcb : c ≠ b := by
    rintro rfl
    simp at hc
  simpa [hcb] using h.dirty c (by simpa [hcb] using hc)

theorem fetch (h : Pins lh dev blockno valid dirty pc) :
    Pins lh dev blockno (update valid b true) dirty pc :=
  ⟨fun j n hj => (h.pinned j n hj).imp_right .fetch, h.dirty⟩

theorem iff_of_out (hn : ∀ u n, (pc u).stage n = .out) :
    Pins lh dev blockno valid dirty pc ↔ (∀ n ∈ lh, Pinned dev blockno valid dirty n) ∧
      ∀ b, dirty b = true → dev b = ROOTDEV ∧ blockno b ∈ lh := by
  refine ⟨fun ⟨pinned, dirty⟩ => ⟨fun n hm => ?_, fun b hb => ?_⟩,
    fun ⟨pinned, dirty⟩ => ⟨fun j n hj => ?_, fun b hb => ?_⟩⟩
  · obtain ⟨j, hj⟩ := List.mem_iff_getElem?.1 hm
    simpa [hn, Stage.out] using pinned j n hj
  · simpa [hn, Stage.out, List.mem_iff_getElem?] using dirty b hb
  · exact .inr (pinned n (List.mem_of_getElem? hj))
  · obtain ⟨j, hj⟩ := List.mem_iff_getElem?.1 (dirty b hb).2
    exact .inl ⟨(dirty b hb).1, j, hj, fun u => by simp [hn, Stage.out]⟩

section
variable (h : Pins lh dev blockno valid dirty pc)
include h

theorem logWrite (hd : dev b = ROOTDEV) (hv : valid b = true) (hn : ∀ u n, (pc u).stage n = .out) :
    Pins (if blockno b ∈ lh then lh else lh ++ [blockno b]) dev blockno valid (update dirty b true)
      pc := by
  obtain ⟨pinned, dirty⟩ := (iff_of_out hn).1 h
  have hm : ∀ n, n ∈ (if blockno b ∈ lh then lh else lh ++ [blockno b]) ↔
      n = blockno b ∨ n ∈ lh := by
    grind
  refine (iff_of_out hn).2 ⟨fun n hn => ?_, fun c hc => ?_⟩
  · rcases (hm n).1 hn with rfl | hn
    · exact ⟨b, hd, rfl, hv, update_self ..⟩
    · exact (pinned n hn).pin
  · rw [hm]
    by_cases hcb : c = b
    · subst hcb
      exact ⟨hd, .inl rfl⟩
    · rw [update_of_ne hcb] at hc
      exact (dirty c hc).imp_right .inr

theorem bwrite (hw : ((pc t).stage lh.length).writes = some b) :
    Pins lh dev blockno valid (update dirty b true) pc := by
  refine ⟨fun j n hj => (h.pinned j n hj).imp_right .pin, fun c hc => ?_⟩
  by_cases hcb : c = b
  · exact .inr ⟨t, hcb ▸ hw⟩
  · exact h.dirty c (by simpa [hcb] using hc)

theorem flush [DecidableEq T] (hd : dev b = ROOTDEV) (hw : ((pc t).stage lh.length).writes = some b)
    (hi : ∀ c, dirty c = true → dev c = dev b → blockno c = blockno b → c = b)
    (hx : ∀ (j n : Nat), lh[j]? = some n → (j < (x.stage lh.length).installed ↔
      j < ((pc t).stage lh.length).installed ∨ n = blockno b)) :
    Pins lh dev blockno (update valid b true) (update dirty b false) (update pc t x) := by
  refine ⟨fun j n hj => ?_, fun c hc => ?_⟩
  · by_cases hn : n = blockno b
    · exact .inl ⟨t, (update_self (f := pc) ..).symm ▸ (hx j n hj).2 (.inr hn)⟩
    · refine (h.pinned j n hj).imp (fun hu => ?_) fun hp => hp.flush hn
      exact exists_update (P := fun y => j < (y.stage lh.length).installed) hu
        fun ht => (hx j n hj).2 (.inl ht)
  · have hcb : c ≠ b := by
      rintro rfl
      simp at hc
    rw [update_of_ne hcb] at hc
    rcases h.dirty c hc with ⟨hdc, j, hj, hu⟩ | hu
    · refine .inl ⟨hdc, j, hj, forall_update (P := fun y => (y.stage lh.length).installed ≤ j)
        (fun u _ => hu u) (Nat.le_of_not_lt fun hlt => ?_)⟩
      rcases (hx j _ hj).1 hlt with hlt | heq
      · exact absurd (hu t) (Nat.not_le_of_lt hlt)
      · exact hcb (hi c hc (hdc.trans hd.symm) heq)
    · refine .inr (exists_update (P := fun y => (y.stage lh.length).writes = some c) hu fun ht => ?_)
      rw [hw] at ht
      exact absurd (Option.some.inj ht).symm hcb

theorem clear [DecidableEq T] (ht : lh.length ≤ ((pc t).stage lh.length).installed)
    (hw : ((pc t).stage lh.length).writes = none) (hn : ∀ u, u ≠ t → ∀ n, (pc u).stage n = .out) :
    Pins [] dev blockno valid dirty (update pc t x) := by
  refine ⟨nofun, fun b hb => ?_⟩
  rcases h.dirty b hb with ⟨-, j, hj, hu⟩ | ⟨u, hu⟩
  · have hlt : j < lh.length := (List.getElem?_eq_some_iff.1 hj).1
    exact absurd (hu t) (by omega)
  · by_cases hut : u = t
    · rw [hut, hw] at hu
      cases hu
    · rw [hn u hut] at hu
      cases hu

end

end Pins

/-! ## The copies -/

structure Copy (start : Nat) (lh : List Nat) (last : Nat → Option Block) (disk : Nat → Nat → Block)
    (data : Buf → Block) (pc : T → Pc) : Prop where
  /-- The log on the disk has the data of the blocks that are copied. -/
  copied : ∀ t (j n : Nat), j < ((pc t).stage lh.length).copied → lh[j]? = some n →
    last n = some (disk ROOTDEV (start + j + 1))
  /-- The buffer that is being written has the data of the block. -/
  copies : ∀ t (i n : Nat) b, ((pc t).stage lh.length).copies = some (i, b) → lh[i]? = some n →
    last n = some (data b)

namespace Copy

variable {lh : List Nat} {last : Nat → Option Block} {disk : Nat → Nat → Block}
  {data : Buf → Block} {pc : T → Pc}

theorem goto [DecidableEq T] (h : Copy start lh last disk data pc) (hc : ∀ j < lh.length,
      j < (x.stage lh.length).copied → j < ((pc t).stage lh.length).copied)
    (hx : ∀ p, (x.stage lh.length).copies = some p → ((pc t).stage lh.length).copies = some p) :
    Copy start lh last disk data (update pc t x) := by
  obtain ⟨copied, copies⟩ := h
  refine ⟨?_, ?_⟩ <;> grind [update_apply]

theorem change (h : Copy start lh last disk data pc)
    (hb : ∀ u i, ((pc u).stage lh.length).copies ≠ some (i, b)) (v : Block) :
    Copy start lh last disk (update data b v) pc := by
  obtain ⟨copied, copies⟩ := h
  refine ⟨copied, ?_⟩
  grind [update_apply]

theorem move [DecidableEq T] {v : Block} (h : Copy start lh last disk data pc)
    (hn : ∀ u, u ≠ t → ∀ n, (pc u).stage n = .out)
    (hc : (x.stage lh.length).copied = ((pc t).stage lh.length).copied)
    (hx : ∀ i c n, (x.stage lh.length).copies = some (i, c) → lh[i]? = some n →
      c = b ∧ last n = some v) :
    Copy start lh last disk (update data b v) (update pc t x) := by
  obtain ⟨copied, copies⟩ := h
  have hout : Stage.out.copies = none := rfl
  refine ⟨?_, ?_⟩ <;> grind [update_apply]

theorem out (hn : ∀ u n, (pc u).stage n = .out) : Copy start lh last disk data pc := by
  refine ⟨?_, ?_⟩ <;> simp [hn, Stage.out]

theorem flush [DecidableEq T] (h : Copy start lh last disk data pc) {d m : Nat} {v : Block}
    (hd : d = ROOTDEV)
    (hn : ∀ u, u ≠ t → ∀ n, (pc u).stage n = .out) (hx : (x.stage lh.length).copies = none)
    (hc : ∀ (j n : Nat), lh[j]? = some n → j < (x.stage lh.length).copied →
      start + j + 1 = m ∧ last n = some v ∨
        start + j + 1 ≠ m ∧ j < ((pc t).stage lh.length).copied) :
    Copy start lh last (update disk d (update (disk d) m v)) data (update pc t x) := by
  refine ⟨fun u j n => ?_, fun u i n b => ?_⟩ <;> by_cases hut : u = t
  · rw [hut, update_self, disk_update]
    intro hj hl
    rcases hc j n hl hj with ⟨he, hv⟩ | ⟨he, hj⟩
    · rw [if_pos ⟨hd.symm, he⟩]
      exact hv
    · rw [if_neg fun h => he h.2]
      exact h.copied t j n hj hl
  · rw [update_of_ne hut, hn u hut]
    nofun
  · rw [hut, update_self, hx]
    nofun
  · rw [update_of_ne hut, hn u hut]
    nofun

theorem clear : Copy start [] last disk data pc := ⟨nofun, nofun⟩

end Copy

end Bio
