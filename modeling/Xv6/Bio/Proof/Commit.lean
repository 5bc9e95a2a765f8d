import Xv6.Bio.Proof.Users

/-!
# One commit, and the blocks of the buffers

One process at a time executes `commit`, and none is between `begin_op` and `end_op` then (`Excl`). A
buffer that a process asked for still has the block that it was asked for, since a buffer with a
reference is not recycled (`Keys`).
-/

namespace Bio

open Function
open Param
open Ring

variable {T : Type} {start : Nat} {s s' : State T} {t : T} {b : Buf}
  {dev blockno : Nat} {k : Cont}

/-! ## The committing process -/

/-- The buffer is asked for by `commit`. -/
def Cont.commits : Cont → Bool
  | .client _ _ => false
  | _ => true

/-- The buffer is given back by `commit`. -/
def Rel.commits : Rel → Bool
  | .client => false
  | _ => true

/-- The process executes `commit`. -/
def Pc.commits : Pc → Bool
  | .idle | .append _ => false
  | .want _ k | .read _ k => k.commits
  | .unlocked _ r => r.commits
  | _ => true

/-- The buffer that `log_write` appends. -/
def Pc.appends : Pc → Option Buf
  | .append b => some b
  | _ => none

/-- One process commits, and then no operation is under way. -/
structure Excl (outstanding : Nat) (ops : List T) (committing : Bool) (pc : T → Pc) : Prop where
  count : outstanding = ops.length
  nodup : ops.Nodup
  busy : ∀ t, (pc t).commits = true → committing = true
  one : ∀ t u, (pc t).commits = true → (pc u).commits = true → t = u
  quiet : committing = true → ops = []
  inOp : ∀ t, (pc t).appends ≠ none → t ∈ ops

namespace Excl

variable {outstanding : Nat} {ops : List T} {committing : Bool} {pc : T → Pc} {t : T} {x : Pc}

/-- Nobody commits while a process is in an operation. -/
theorem no_commit (h : Excl outstanding ops committing pc) (ht : t ∈ ops) (u : T) :
    (pc u).commits = false := by
  rw [← Bool.not_eq_true]
  intro hu
  rw [h.quiet (h.busy u hu)] at ht
  exact absurd ht List.not_mem_nil

variable [DecidableEq T]

theorem goto (h : Excl outstanding ops committing pc) (hx : x.commits = (pc t).commits)
    (ha : x.appends ≠ none → t ∈ ops) : Excl outstanding ops committing (update pc t x) := by
  obtain ⟨count, nodup, busy, one, quiet, inOp⟩ := h
  refine ⟨count, nodup, ?_, ?_, quiet, ?_⟩ <;> grind [update_apply]

/-- The last process of the operations becomes the one that commits. -/
theorem last (h : Excl outstanding ops committing pc) (ho : t ∈ ops) (hc : committing = false)
    (hn : outstanding - 1 = 0) (ha : x.appends = none) :
    Excl (outstanding - 1) (ops.erase t) true (update pc t x) := by
  obtain ⟨count, nodup, busy, one, quiet, inOp⟩ := h
  have hops : ops = [t] := by
    match ops, count with
    | [u], _ => rw [List.mem_singleton.1 ho]
    | _ :: _ :: _, count => simp at count; omega
  subst hops
  refine ⟨by simp [hn], by simp, fun _ _ => rfl, ?_, by simp, ?_⟩ <;> grind [update_apply]

theorem done (h : Excl outstanding ops committing pc) (hp : pc t = .done) :
    Excl outstanding ops false (update pc t .idle) := by
  obtain ⟨count, nodup, busy, one, quiet, inOp⟩ := h
  have ht : (pc t).commits = true := hp ▸ rfl
  have hi : Pc.idle.commits = false := rfl
  have ha : Pc.idle.appends = none := rfl
  refine ⟨count, nodup, ?_, ?_, nofun, ?_⟩ <;> grind [update_apply]

end Excl

namespace State

abbrev Excl (s : State T) : Prop := Bio.Excl s.outstanding s.ops s.committing s.pc

end State

theorem Asks.commits {pc : Pc} {lh : List Nat} (h : Asks start lh pc dev blockno k) :
    k.commits = pc.commits := by
  cases h <;> rfl

theorem Drops.commits {pc : Pc} {r : Rel} (h : Drops pc b r) :
    pc.commits = true ∧ r.commits = true := by
  cases h <;> exact ⟨rfl, rfl⟩

theorem Writes.commits {x y z : Pc} (h : Writes x b y z) :
    x.commits = true ∧ y.commits = true ∧ z.commits = true ∧ y.appends = none ∧ z.appends = none := by
  cases h <;> exact ⟨rfl, rfl, rfl, rfl, rfl⟩

theorem Cont.next_commits (b : Buf) (k : Cont) :
    (k.next b).commits = k.commits ∧ (k.next b).appends = none := by
  cases k <;> exact ⟨rfl, rfl⟩

theorem Rel.next_commits (r : Rel) : r.next.commits = r.commits ∧ r.next.appends = none := by
  cases r with
  | head again => cases again <;> exact ⟨rfl, rfl⟩
  | _ => exact ⟨rfl, rfl⟩

theorem Dir.next_commits (d : Dir) : d.next.commits = true ∧ d.next.appends = none := by
  cases d <;> exact ⟨rfl, rfl⟩

/-! ## The blocks -/

section Keys

variable (start : Nat) (dev blockno : Buf → Nat) (lh : List Nat)

/-- The buffer has the log block for the `i`-th block of the header. -/
def IsLog (i : Nat) (b : Buf) : Prop := dev b = ROOTDEV ∧ blockno b = start + i + 1

/-- The buffer has the `i`-th block of the header. -/
def IsHome (i : Nat) (b : Buf) : Prop := dev b = ROOTDEV ∧ lh[i]? = some (blockno b)

/-- The buffer has the block of the header. -/
def IsHead (b : Buf) : Prop := dev b = ROOTDEV ∧ blockno b = start

/-- The buffer has the block that it was asked for. -/
def Cont.Key (b : Buf) : Cont → Prop
  | .client d n => dev b = d ∧ blockno b = n
  | .log _ i => IsLog start dev blockno i b
  | .home _ i lg => IsLog start dev blockno i lg ∧ IsHome dev blockno lh i b
  | .head _ => IsHead start dev blockno b

/-- The buffers that the process uses have their blocks. -/
def Pc.Key : Pc → Prop
  | .want b k | .read b k => k.Key start dev blockno lh b
  | .append b => Home start (dev b) (blockno b)
  | .gotLog _ i lg => IsLog start dev blockno i lg
  | .gotBoth _ i lg hm | .moved _ i lg hm | .writing _ i lg hm =>
    IsLog start dev blockno i lg ∧ IsHome dev blockno lh i hm
  | .gotHead _ h | .filled _ h | .writingHead _ h => IsHead start dev blockno h
  | _ => True

end Keys

section

variable {dev blockno dev' blockno' : Buf → Nat} {lh lh' : List Nat} {x : Pc}

theorem Pc.Key.congr (h : x.Key start dev blockno lh)
    (hb : ∀ b, x.ref = some b ∨ b ∈ x.holds → dev' b = dev b ∧ blockno' b = blockno b) :
    x.Key start dev' blockno' lh := by
  have heq : ∀ b, x.ref = some b ∨ b ∈ x.holds → dev' b = dev b := fun b h => (hb b h).1
  have heq' : ∀ b, x.ref = some b ∨ b ∈ x.holds → blockno' b = blockno b := fun b h => (hb b h).2
  cases x with
  | want b k => cases k <;> simp_all [Pc.Key, Cont.Key, Pc.ref, Pc.holds, Cont.holds, IsLog, IsHome,
    IsHead]
  | read b k => cases k <;> simp_all [Pc.Key, Cont.Key, Pc.ref, Pc.holds, Cont.holds, IsLog, IsHome,
    IsHead]
  | _ => simp_all [Pc.Key, Pc.ref, Pc.holds, IsLog, IsHome, IsHead]

theorem Pc.Key.client (h : x.Key start dev blockno lh) (hx : x.commits = false) :
    x.Key start dev blockno lh' := by
  cases x with
  | want b k | read b k =>
    cases k with
    | client => exact h
    | _ => cases hx
  | append | idle | unlocked => exact h
  | _ => cases hx

theorem Cont.Key.next (h : k.Key start dev blockno lh b) : (k.next b).Key start dev blockno lh := by
  cases k with
  | client => trivial
  | _ => exact h

theorem Rel.next_key (r : Rel) : r.next.Key start dev blockno lh := by
  cases r with
  | head again => cases again <;> trivial
  | _ => trivial

theorem Asks.key {d n : Nat} (h : Asks start lh x d n k) (hx : x.Key start dev blockno lh)
    (hd : dev b = d) (hn : blockno b = n) : (Pc.want b k).Key start dev blockno lh := by
  cases h with
  | home => exact ⟨hx, hd, by simp [hn]⟩
  | _ => exact ⟨hd, hn⟩

theorem Writes.key {y z : Pc} (h : Writes x b y z) :
    (y.Key start dev blockno lh ↔ x.Key start dev blockno lh) ∧ z.Key start dev blockno lh := by
  cases h <;> exact ⟨Iff.rfl, trivial⟩

end

namespace State

/-- Every process has the blocks that it asked for. -/
def Keys (start : Nat) (s : State T) : Prop := ∀ t, (s.pc t).Key start s.dev s.blockno s.lh

end State

/-! ## The flags -/

/-- The locked buffer that `bread` may still have to read. -/
def Pc.reads : Pc → Option Buf
  | .read b _ => some b
  | _ => none

/-- A pinned buffer is valid, and so is a locked one unless `bread` may still have to read it. -/
structure Flags (valid dirty : Buf → Bool) (lock : Buf → Option T) (pc : T → Pc) : Prop where
  dirty : ∀ b, dirty b = true → valid b = true
  locked : ∀ t b, lock b = some t → valid b = true ∨ (pc t).reads = some b

namespace Flags

variable {valid dirty : Buf → Bool} {lock : Buf → Option T} {pc : T → Pc} {x : Pc}

section
variable (h : Flags valid dirty lock pc)
include h

theorem recycle (hl : lock b = none) :
    Flags (update valid b false) (update dirty b false) lock pc := by
  obtain ⟨dirty, locked⟩ := h
  refine ⟨?_, ?_⟩ <;> grind [update_apply]

theorem fetch : Flags (update valid b true) dirty lock pc := by
  obtain ⟨dirty, locked⟩ := h
  refine ⟨?_, ?_⟩ <;> grind [update_apply]

theorem clean : Flags valid (update dirty b false) lock pc := by
  obtain ⟨dirty, locked⟩ := h
  refine ⟨?_, locked⟩
  grind [update_apply]

theorem pin (hb : valid b = true) : Flags valid (update dirty b true) lock pc := by
  obtain ⟨dirty, locked⟩ := h
  refine ⟨?_, locked⟩
  grind [update_apply]

theorem unlock : Flags valid dirty (update lock b none) pc := by
  obtain ⟨dirty, locked⟩ := h
  refine ⟨dirty, ?_⟩
  grind [update_apply]

end

variable [DecidableEq T]

theorem goto (h : Flags valid dirty lock pc) (hx : ∀ b, (pc t).reads = some b → valid b = true) :
    Flags valid dirty lock (update pc t x) := by
  obtain ⟨dirty, locked⟩ := h
  refine ⟨dirty, ?_⟩
  grind [update_apply]

theorem acquire (h : Flags valid dirty lock pc) (hp : (pc t).reads = none) (hx : x.reads = some b) :
    Flags valid dirty (update lock b (some t)) (update pc t x) := by
  obtain ⟨dirty, locked⟩ := h
  refine ⟨dirty, ?_⟩
  grind [update_apply]

end Flags

namespace State

abbrev Flags (s : State T) : Prop := Bio.Flags s.valid s.dirty s.lock s.pc

end State

/-- The buffer that is not locked any more, but still referenced. -/
def Pc.frees : Pc → Option Buf
  | .unlocked b _ => some b
  | _ => none

/-- A buffer without references is valid unless it was never used; one that is given back is valid. -/
structure Spare (dev : Buf → Nat) (refcnt : Buf → Nat) (valid : Buf → Bool) (pc : T → Pc) :
    Prop where
  spare : ∀ b, refcnt b = 0 → valid b = true ∨ dev b ≠ ROOTDEV
  frees : ∀ t b, (pc t).frees = some b → valid b = true

namespace Spare

variable {dev : Buf → Nat} {refcnt : Buf → Nat} {valid : Buf → Bool} {pc : T → Pc} {x : Pc}

section
variable (h : Spare dev refcnt valid pc)
include h

theorem fetch : Spare dev refcnt (update valid b true) pc := by
  obtain ⟨spare, frees⟩ := h
  refine ⟨?_, ?_⟩ <;> grind [update_apply]

theorem ask (n : Nat) : Spare dev (update refcnt b (n + 1)) valid pc := by
  obtain ⟨spare, frees⟩ := h
  refine ⟨?_, frees⟩
  grind [update_apply]

theorem recycle (hp : ∀ t, (pc t).frees ≠ some b) (d : Nat) :
    Spare (update dev b d) (update refcnt b 1) (update valid b false) pc := by
  obtain ⟨spare, frees⟩ := h
  refine ⟨?_, ?_⟩ <;> grind [update_apply]

theorem unref (hb : valid b = true) (n : Nat) : Spare dev (update refcnt b n) valid pc := by
  obtain ⟨spare, frees⟩ := h
  refine ⟨?_, frees⟩
  grind [update_apply]

theorem goto [DecidableEq T]
    (hx : ∀ b, x.frees = some b → valid b = true) : Spare dev refcnt valid (update pc t x) := by
  obtain ⟨spare, frees⟩ := h
  refine ⟨spare, ?_⟩
  grind [update_apply]

end

end Spare

namespace State

abbrev Spare (s : State T) : Prop := Bio.Spare s.dev s.refcnt s.valid s.pc

end State

theorem Pc.frees_ref {x : Pc} (h : x.frees = some b) : x.ref = some b := by
  cases x with
  | unlocked => exact h
  | _ => cases h

theorem Writes.frees {x y z : Pc} (h : Writes x b y z) : y.frees = none ∧ z.frees = none := by
  cases h <;> exact ⟨rfl, rfl⟩

theorem Cont.next_frees (b : Buf) (k : Cont) : (k.next b).frees = none := by
  cases k <;> rfl

theorem Rel.next_frees (r : Rel) : r.next.frees = none := by
  cases r with
  | head again => cases again <;> rfl
  | _ => rfl

theorem Asks.reads {pc : Pc} {lh : List Nat} (h : Asks start lh pc dev blockno k) :
    pc.reads = none := by
  cases h <;> rfl

theorem Drops.reads {pc : Pc} {r : Rel} (h : Drops pc b r) : pc.reads = none := by
  cases h <;> rfl

theorem Writes.reads {x y z : Pc} (h : Writes x b y z) :
    x.reads = none ∧ y.reads = none ∧ z.reads = none := by
  cases h <;> exact ⟨rfl, rfl, rfl⟩

theorem Cont.next_reads (b : Buf) (k : Cont) : (k.next b).reads = none := by
  cases k <;> rfl

theorem Rel.next_reads (r : Rel) : r.next.reads = none := by
  cases r with
  | head again => cases again <;> rfl
  | _ => rfl

/-! ## Steps -/

variable [DecidableEq T]

/-- A step keeps the exclusion. -/
theorem Excl.step (h : s.Excl) (hs : Step start s s') : s'.Excl := by
  cases hs with
  | @beginOp t hp ho hc hr =>
    obtain ⟨count, nodup, busy, one, quiet, inOp⟩ := h
    refine ⟨by simp [count], List.nodup_cons.2 ⟨ho, nodup⟩, busy, one, ?_, ?_⟩
    · exact fun hc' => absurd (hc.symm.trans hc') nofun
    · exact fun u hu => List.mem_cons_of_mem _ (inOp u hu)
  | @endOp t hp ho hh hc hn =>
    obtain ⟨count, nodup, busy, one, quiet, inOp⟩ := h
    refine ⟨?_, nodup.erase t, busy, one, ?_, fun u hu => ?_⟩
    · rw [List.length_erase_of_mem ho, count]
    · exact fun hc' => absurd (hc.symm.trans hc') nofun
    · have hut : u ≠ t := by
        rintro rfl
        exact hu (hp ▸ rfl)
      exact (List.mem_erase_of_ne hut).2 (inOp u hu)
  | lastOp hp ho hh hc hn =>
    refine h.last ho hc hn ?_
    split_ifs <;> rfl
  | change | fetch | flushed => exact h
  | test hp hl ho => exact h.goto (hp ▸ rfl) fun _ => ho
  | append hp => exact h.goto (hp ▸ rfl) nofun
  | @bget s1 t b dev blockno k ha hb =>
    rcases bget_cases hb with ⟨-, rfl⟩ | ⟨-, -, rfl⟩
    · exact h.goto ha.commits nofun
    · exact h.goto ha.commits nofun
  | acquire hp => exact h.goto (hp ▸ rfl) nofun
  | @got t b k hp =>
    exact h.goto ((k.next_commits b).1.trans (hp ▸ rfl)) (absurd (k.next_commits b).2)
  | unlock hp => exact h.goto (hp ▸ rfl) nofun
  | drop hd => exact h.goto (hd.commits.2.trans hd.commits.1.symm) nofun
  | @unref t b r hp => exact h.goto (r.next_commits.1.trans (hp ▸ rfl)) (absurd r.next_commits.2)
  | @exit t d i hp => exact h.goto (d.next_commits.1.trans (hp ▸ rfl)) (absurd d.next_commits.2)
  | move hp => exact h.goto (hp ▸ rfl) nofun
  | fill hp => exact h.goto (hp ▸ rfl) nofun
  | bwrite hw =>
    obtain ⟨hx, hy, -, hn, -⟩ := hw.commits
    exact h.goto (hy.trans hx.symm) (absurd hn)
  | wrote hw =>
    obtain ⟨-, hy, hz, -, hn⟩ := hw.commits
    exact h.goto (hz.trans hy.symm) (absurd hn)
  | clear hp => exact h.goto (hp ▸ rfl) nofun
  | done hp => exact h.done hp

theorem forall_update {pc : T → Pc} {P : Pc → Prop} {x : Pc} (h : ∀ u, u ≠ t → P (pc u))
    (hx : P x) (u : T) : P (update pc t x u) := by
  by_cases hu : u = t
  · rw [hu, update_self]
    exact hx
  · rw [update_of_ne hu]
    exact h u hu

theorem State.Keys.step (h : s.Keys start) (hi : s.Ident) (hu : s.Users) (he : s.Excl)
    (hs : Step start s s') : s'.Keys start := by
  have hgo : ∀ {t x}, x.Key start s.dev s.blockno s.lh →
      ∀ u, (update s.pc t x u).Key start s.dev s.blockno s.lh :=
    forall_update fun u _ => h u
  have hkey : ∀ {t x}, s.pc t = x → x.Key start s.dev s.blockno s.lh := fun hp => hp ▸ h _
  cases hs with
  | beginOp | endOp | change | fetch | flushed => exact h
  | lastOp =>
    refine hgo ?_
    split_ifs <;> trivial
  | test hp hl ho hh => exact hgo hh
  | @append t b hp =>
    refine forall_update (fun u _ => (h u).client (he.no_commit (he.inOp t ?_) u)) trivial
    rw [hp]
    nofun
  | @bget s1 t b dev blockno k ha hb =>
    rcases bget_cases hb with ⟨hc, rfl⟩ | ⟨hc, hv, rfl⟩
    · obtain ⟨hd, hn⟩ := hi.cached_some hc
      exact hgo (ha.key (h t) hd hn)
    · have hnew : ∀ u, (s.pc u).Key start (update s.dev b dev) (update s.blockno b blockno) s.lh := by
        refine fun u => (h u).congr fun c hc => ?_
        have hcb : c ≠ b := by
          rintro rfl
          have hpos : 0 < s.refcnt c :=
            hc.elim hu.pos_of_ref fun hm => hu.pos_of_lock (hu.held u c hm)
          rw [(hi.victim_some hv).1] at hpos
          exact absurd hpos (Nat.lt_irrefl 0)
        exact ⟨update_of_ne hcb .., update_of_ne hcb ..⟩
      exact forall_update (fun u _ => hnew u) (ha.key (hnew t) (update_self ..) (update_self ..))
  | @acquire t b k hp hl =>
    have hk := hkey hp
    exact hgo hk
  | @got t b k hp =>
    exact hgo (Cont.Key.next (hkey hp))
  | unlock => exact hgo trivial
  | drop => exact hgo trivial
  | unref => exact hgo (Rel.next_key _)
  | @exit t d => exact hgo (by cases d <;> trivial)
  | @move t d i lg hm hp =>
    have hk := hkey hp
    exact hgo hk
  | @fill t again b hp =>
    have hk := hkey hp
    exact hgo hk
  | @bwrite t b p q hw => exact hgo (hw.key.1.2 (h t))
  | wrote hw => exact hgo hw.key.2
  | @clear t hp =>
    refine forall_update (fun u hut => (h u).client ?_) trivial
    rw [← Bool.not_eq_true]
    exact fun hc => hut (he.one u t hc (hp ▸ rfl))
  | done => exact hgo trivial

theorem Flags.valid_of_holds (h : s.Flags) (hu : s.Users) (hb : b ∈ (s.pc t).holds)
    (hr : (s.pc t).reads = none) : s.valid b = true := by
  rcases h.locked t b (hu.held t b hb) with hv | hv
  · exact hv
  · rw [hr] at hv
    cases hv

/-- A step keeps the flags. -/
theorem Flags.step (h : s.Flags) (hi : s.Ident) (hu : s.Users) (hs : Step start s s') :
    s'.Flags := by
  -- a process that is not in `bread` goes on
  have hgo : ∀ {t x y}, s.pc t = x → x.reads = none →
      Bio.Flags s.valid s.dirty s.lock (update s.pc t y) := by
    intro t x y hp hx
    refine h.goto fun b hb => ?_
    rw [hp, hx] at hb
    cases hb
  cases hs with
  | beginOp | endOp | change => exact h
  | lastOp hp => exact hgo hp rfl
  | test hp => exact hgo hp rfl
  | @append t b hp =>
    refine (hgo hp rfl).pin (h.valid_of_holds hu (t := t) ?_ ?_) <;> rw [hp]
    · exact List.mem_cons_self
    · rfl
  | @bget s1 t b dev blockno k ha hb =>
    rcases bget_cases hb with ⟨-, rfl⟩ | ⟨-, hv, rfl⟩
    · exact hgo rfl ha.reads
    · refine (hgo rfl ha.reads).recycle (Option.eq_none_iff_forall_ne_some.2 fun u hl => ?_)
      have hpos := hu.pos_of_lock hl
      rw [(hi.victim_some hv).1] at hpos
      exact absurd hpos (Nat.lt_irrefl 0)
  | acquire hp => exact h.acquire (hp ▸ rfl) rfl
  | fetch => exact h.fetch
  | flushed => exact h.fetch.clean
  | @got t b k hp hv =>
    refine h.goto fun c hc => ?_
    rw [hp] at hc
    cases hc
    exact hv
  | unlock hp => exact (hgo hp rfl).unlock
  | drop hd => exact (hgo rfl hd.reads).unlock
  | unref hp => exact hgo hp rfl
  | exit hp => exact hgo hp rfl
  | move hp => exact hgo hp rfl
  | fill hp => exact hgo hp rfl
  | bwrite hw =>
    exact (hgo rfl hw.reads.1).pin (h.valid_of_holds hu hw.ref.2.2.2.2.2 hw.reads.1)
  | wrote hw => exact (hgo rfl hw.reads.2.1).fetch.clean
  | clear hp => exact hgo hp rfl
  | done hp => exact hgo hp rfl

theorem Spare.step (h : s.Spare) (hi : s.Ident) (hu : s.Users) (hf : s.Flags)
    (hs : Step start s s') : s'.Spare := by
  -- a process goes on, not to the end of `brelse`
  have hgo : ∀ {t x}, x.frees = none → Bio.Spare s.dev s.refcnt s.valid (update s.pc t x) :=
    fun hx => h.goto fun b hb => absurd (hx.symm.trans hb) nofun
  cases hs with
  | beginOp | endOp | change => exact h
  | lastOp => exact hgo (by split_ifs <;> rfl)
  | @bget s1 t b dev blockno k ha hb =>
    rcases bget_cases hb with ⟨-, rfl⟩ | ⟨-, hv, rfl⟩
    · exact (hgo rfl).ask _
    · refine (h.recycle (fun u hu' => ?_) dev).goto nofun
      have hpos := hu.pos_of_ref (Pc.frees_ref hu')
      rw [(hi.victim_some hv).1] at hpos
      exact absurd hpos (Nat.lt_irrefl 0)
  | fetch => exact h.fetch
  | flushed => exact h.fetch
  | got => exact hgo (Cont.next_frees ..)
  | @unlock t b hp hl =>
    refine h.goto fun c hc => ?_
    cases hc
    rcases hf.locked t b hl with hv | hv
    · exact hv
    · rw [hp] at hv
      cases hv
  | @drop t b r hd =>
    refine h.goto fun c hc => ?_
    cases hc
    exact hf.valid_of_holds hu (hd.ref (hu.nodup t)).2.1 hd.reads
  | @unref t b r hp => exact (hgo r.next_frees).unref (h.frees t b (hp ▸ rfl)) _
  | @exit t d => exact hgo (by cases d <;> rfl)
  | bwrite hw => exact hgo hw.frees.1
  | wrote hw => exact (hgo hw.frees.2).fetch
  | _ => exact hgo rfl

/-- The invariants of this module together. -/
structure Base (start : Nat) (s : State T) : Prop where
  users : s.Users
  ident : s.Ident
  excl : s.Excl
  keys : s.Keys start
  flags : s.Flags
  spare : s.Spare

theorem Base.init (disk : Nat → Nat → Log.Block) (junk : Log.Block) :
    Base start (init disk junk : State T) where
  users := .init disk junk
  ident := .init disk junk
  excl := ⟨rfl, List.nodup_nil, nofun, nofun, nofun, fun _ h => absurd rfl h⟩
  keys _ := trivial
  flags := ⟨nofun, nofun⟩
  spare := ⟨fun _ _ => .inr (by decide : 0 ≠ ROOTDEV), nofun⟩

/-- **One step** keeps them. -/
theorem Base.step (h : Base start s) (hs : Step start s s') : Base start s' where
  users := h.users.step (fun _ hv => (h.ident.victim_some hv).1) hs
  ident := h.ident.step h.users hs
  excl := h.excl.step hs
  keys := h.keys.step h.ident h.users h.excl hs
  flags := h.flags.step h.ident h.users hs
  spare := h.spare.step h.ident h.users h.flags hs

end Bio
