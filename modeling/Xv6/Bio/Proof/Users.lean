import Mathlib.Data.Fintype.Card
import Xv6.Bio.Cache

/-!
# References, locks and the list

`Users` accounts for `refcnt`: a process counts once while it is between `bget` and `acquiresleep`
or between `releasesleep` and the end of `brelse`, and once for each sleep-lock it holds.
-/

namespace Bio

open Function
open Param
open Ring

variable {T : Type} {s s' : State T} {t : T} {b : Buf} {dev blockno : Nat}

/-! ## The list -/

def Live (refcnt : Buf → Nat) (valid : Buf → Bool) (b : Buf) : Prop :=
  0 < refcnt b ∨ valid b = true

/-- The list is a ring of all buffers, and a buffer in use is the first with its block. -/
def Ident (links : Links Buf) (dev blockno : Buf → Nat) (refcnt : Buf → Nat) (valid : Buf → Bool) :
    Prop :=
  ∃ l, Rings links l ∧ (∀ b, b ∈ l) ∧ ∀ b, Live refcnt valid b →
    l.find? (fun c => dev c = dev b ∧ blockno c = blockno b) = some b

theorem length_lt {l : List Buf} (h : l.Nodup) : l.length < NBUF + 1 :=
  Nat.lt_succ_of_le (h.length_le_card.trans_eq (Fintype.card_fin NBUF))

theorem find_of_imp {p q : Buf → Bool} {l : List Buf} (h : l.find? p = some b)
    (hpq : ∀ c, q c = true → p c = true) (hb : q b = true) : l.find? q = some b := by
  obtain ⟨-, l1, l2, rfl, hl⟩ := List.find?_eq_some_iff_append.1 h
  refine List.find?_eq_some_iff_append.2 ⟨hb, l1, l2, rfl, fun c hc => ?_⟩
  grind

namespace Ident

variable {links : Links Buf} {dev blockno : Buf → Nat} {refcnt : Buf → Nat} {valid : Buf → Bool}
  {b c : Buf} {d n : Nat}

section
variable (h : Ident links dev blockno refcnt valid)
include h

theorem inj (hb : Live refcnt valid b)
    (hc : Live refcnt valid c) (hd : dev b = dev c) (hn : blockno b = blockno c) : b = c := by
  obtain ⟨l, -, -, hl⟩ := h
  have hb := hl b hb
  rw [hd, hn, hl c hc] at hb
  exact (Option.some.inj hb).symm

theorem find {p : Buf → Bool} {x : Option Buf}
    (hx : links.find p (NBUF + 1) (links.next none) = x) :
    (∀ b, x = some b → p b = true) ∧ (x = none → ∀ b, p b = false) := by
  obtain ⟨l, hr, hm, -⟩ := h
  rw [hr.find _ (length_lt hr.nodup)] at hx
  subst hx
  refine ⟨fun b => List.find?_some, fun hn b => ?_⟩
  simpa using List.find?_eq_none.1 hn b (hm b)

theorem findBack {p : Buf → Bool} {x : Option Buf}
    (hx : links.flip.find p (NBUF + 1) (links.prev none) = x) :
    (∀ b, x = some b → p b = true) ∧ (x = none → ∀ b, p b = false) := by
  obtain ⟨l, hr, hm, -⟩ := h
  rw [hr.findBack _ (length_lt hr.nodup)] at hx
  subst hx
  refine ⟨fun b => List.find?_some, fun hn b => ?_⟩
  simpa using List.find?_eq_none.1 hn b (List.mem_reverse.2 (hm b))

theorem hit
    (hb : links.find (fun c => dev c = dev b ∧ blockno c = blockno b) (NBUF + 1) (links.next none) =
      some b) (k : Nat) : Ident links dev blockno (update refcnt b k) valid := by
  obtain ⟨l, hr, hm, hf⟩ := h
  rw [hr.find _ (length_lt hr.nodup)] at hb
  refine ⟨l, hr, hm, fun c hc => ?_⟩
  by_cases hcb : c = b
  · exact hcb ▸ hb
  · exact hf c (by simpa [Live, hcb] using hc)

theorem mono {r : Buf → Nat} {v : Buf → Bool}
    (hl : ∀ b, Live r v b → Live refcnt valid b) : Ident links dev blockno r v := by
  obtain ⟨l, hr, hm, hf⟩ := h
  exact ⟨l, hr, hm, fun b hb => hf b (hl b hb)⟩

theorem fetch (hb : 0 < refcnt b) : Ident links dev blockno refcnt (update valid b true) := by
  refine h.mono fun c hc => ?_
  by_cases hcb : c = b
  · exact hcb ▸ .inl hb
  · simpa [Live, hcb] using hc

theorem unref (hb : 0 < refcnt b) (k : Nat) :
    Ident links dev blockno (update refcnt b k) valid := by
  refine h.mono fun c hc => ?_
  by_cases hcb : c = b
  · exact hcb ▸ .inl hb
  · simpa [Live, hcb] using hc

theorem recycle (hn : ∀ c, ¬ (dev c = d ∧ blockno c = n)) (k : Nat) :
    Ident links (update dev b d) (update blockno b n) (update refcnt b k) (update valid b false) := by
  obtain ⟨l, hr, hm, hf⟩ := h
  refine ⟨l, hr, hm, fun c hc => ?_⟩
  by_cases hcb : c = b
  · subst hcb
    obtain ⟨l1, l2, rfl⟩ := List.append_of_mem (hm c)
    refine List.find?_eq_some_iff_append.2 ⟨by simp, l1, l2, rfl, fun a ha => ?_⟩
    have hac : a ≠ c := fun he => (List.nodup_append.1 hr.nodup).2.2 a ha c List.mem_cons_self he
    simpa [hac, ← not_and_or] using hn a
  · have hcl : Live refcnt valid c := by
      simpa [Live, hcb] using hc
    refine find_of_imp (hf c hcl) ?_ (by simp)
    intro a ha
    by_cases hab : a = b
    · subst hab
      simp only [update_self, update_of_ne hcb, decide_eq_true_eq] at ha
      exact absurd ⟨ha.1.symm, ha.2.symm⟩ (hn c)
    · simpa [hcb, hab] using ha

theorem front (hb : 0 < refcnt b) (k : Nat) :
    Ident ((links.unlink b).push b) dev blockno (update refcnt b k) valid := by
  have hinj := fun c hc => h.inj (b := b) (c := c) (.inl hb) hc
  obtain ⟨l, hr, hm, hf⟩ := h
  refine ⟨b :: l.erase b, hr.front (hm b), fun c => ?_, fun c hc => ?_⟩
  · by_cases hcb : c = b
    · exact hcb ▸ List.mem_cons_self
    · exact List.mem_cons_of_mem _ ((List.mem_erase_of_ne hcb).2 (hm c))
  · by_cases hcb : c = b
    · rw [hcb, List.find?_cons_of_pos (by simp)]
    · have hcl : Live refcnt valid c := by simpa [Live, hcb] using hc
      have hne : ¬ (dev b = dev c ∧ blockno b = blockno c) := by
        intro he
        exact hcb (hinj c hcl he.1 he.2).symm
      rw [List.find?_cons_of_neg (by simpa using hne), hr.nodup.erase_eq_filter, List.find?_filter]
      refine find_of_imp (hf c hcl) ?_ (by simp [hcb])
      intro a ha
      exact (of_decide_eq_true ha).2

end

end Ident

theorem bget_cases (h : s.bget t dev blockno = some (b, s')) :
    s.cached dev blockno = some b ∧ s' = s.hit t b ∨
      s.cached dev blockno = none ∧ s.victim = some b ∧ s' = s.recycle t dev blockno b := by
  unfold State.bget at h
  cases hc : s.cached dev blockno with
  | some c =>
    rw [hc] at h
    cases h
    exact .inl ⟨rfl, rfl⟩
  | none =>
    rw [hc] at h
    cases hv : s.victim with
    | some c =>
      rw [hv] at h
      cases h
      exact .inr ⟨rfl, rfl, rfl⟩
    | none =>
      rw [hv] at h
      cases h

namespace State

abbrev Ident (s : State T) : Prop := Bio.Ident s.links s.dev s.blockno s.refcnt s.valid

end State

theorem Ident.cached_some (h : s.Ident) (hc : s.cached dev blockno = some b) :
    s.dev b = dev ∧ s.blockno b = blockno :=
  of_decide_eq_true ((h.find hc).1 b rfl)

theorem Ident.cached_none (h : s.Ident) (hc : s.cached dev blockno = none) (b : Buf) :
    ¬ (s.dev b = dev ∧ s.blockno b = blockno) :=
  of_decide_eq_false ((h.find hc).2 rfl b)

theorem Ident.victim_some (h : s.Ident) (hv : s.victim = some b) :
    s.refcnt b = 0 ∧ s.dirty b = false :=
  of_decide_eq_true ((h.findBack hv).1 b rfl)

theorem Ident.victim_none (h : s.Ident) (hv : s.victim = none) (b : Buf) :
    ¬ (s.refcnt b = 0 ∧ s.dirty b = false) :=
  of_decide_eq_false ((h.findBack hv).2 rfl b)

theorem Ident.init (disk : Nat → Nat → Log.Block) (junk : Log.Block) :
    (init disk junk : State T).Ident := by
  have hr : Rings (⟨fun _ => none, fun _ => none⟩ : Links Buf) [] := ⟨List.nodup_nil, rfl, rfl⟩
  refine ⟨_, hr.pushAll (List.nodup_finRange NBUF) nofun, fun b => by simp, fun b hb => ?_⟩
  exact absurd hb (by simp [Live, Bio.init])

/-! ## References and sleep-locks -/

def Pc.ref : Pc → Option Buf
  | .want b _ | .unlocked b _ => some b
  | _ => none

def Cont.holds : Cont → List Buf
  | .home _ _ lg => [lg]
  | _ => []

def Rel.holds : Rel → List Buf
  | .src _ _ b => [b]
  | _ => []

def Pc.holds : Pc → List Buf
  | .want _ k => k.holds
  | .read b k => b :: k.holds
  | .append b => [b]
  | .unlocked _ r => r.holds
  | .gotLog _ _ lg => [lg]
  | .gotBoth _ _ lg hm | .moved _ _ lg hm | .writing _ _ lg hm | .written _ _ lg hm => [lg, hm]
  | .half _ _ b => [b]
  | .gotHead _ h | .filled _ h | .writingHead _ h | .writtenHead _ h => [h]
  | _ => []

variable [DecidableEq T]

/-- `refcnt` counts the processes that use a buffer. -/
structure Users (refcnt : Buf → Nat) (users : Buf → List T) (lock : Buf → Option T) (pc : T → Pc) :
    Prop where
  len : ∀ b, refcnt b = (users b).length
  cnt : ∀ t b, (users b).count t =
    (if (pc t).ref = some b then 1 else 0) + if lock b = some t then 1 else 0
  held : ∀ t b, b ∈ (pc t).holds → lock b = some t
  nodup : ∀ t, (pc t).holds.Nodup

namespace Users

variable {refcnt : Buf → Nat} {users : Buf → List T} {lock : Buf → Option T} {pc : T → Pc}
  {t : T} {b : Buf} {x : Pc}

section
variable (h : Users refcnt users lock pc)
include h

theorem pos_of_lock (hl : lock b = some t) : 0 < refcnt b := by
  have hc := h.cnt t b
  rw [if_pos hl] at hc
  rw [h.len]
  exact List.length_pos_of_mem (List.count_pos_iff.1 (by omega) : t ∈ users b)

theorem pos_of_ref (hl : (pc t).ref = some b) : 0 < refcnt b := by
  have hc := h.cnt t b
  rw [if_pos hl] at hc
  rw [h.len]
  exact List.length_pos_of_mem (List.count_pos_iff.1 (by omega) : t ∈ users b)

theorem lock_of_read {k : Cont} (hp : pc t = .read b k) : lock b = some t :=
  h.held t b (hp ▸ List.mem_cons_self)

theorem goto (hr : x.ref = (pc t).ref) (hh : ∀ b ∈ x.holds, lock b = some t) (hn : x.holds.Nodup) :
    Users refcnt users lock (update pc t x) := by
  obtain ⟨len, cnt, held, nodup⟩ := h
  refine ⟨len, ?_, ?_, ?_⟩ <;> grind [update_apply]

theorem goto_perm (hr : x.ref = (pc t).ref)
    (hh : x.holds.Perm (pc t).holds) : Users refcnt users lock (update pc t x) :=
  h.goto hr (fun b hb => h.held t b (hh.mem_iff.1 hb)) (hh.nodup_iff.2 (h.nodup t))

theorem ask {n : Nat} {us : List T} (hp : (pc t).ref = none)
    (hx : x.ref = some b) (hh : ∀ c ∈ x.holds, c ∈ (pc t).holds) (hnd : x.holds.Nodup)
    (hus : us = t :: users b) (hn : n = us.length) :
    Users (update refcnt b n) (update users b us) lock (update pc t x) := by
  obtain ⟨len, cnt, held, nodup⟩ := h
  refine ⟨?_, ?_, ?_, ?_⟩ <;> grind [update_apply]

theorem acquire (hp : (pc t).ref = some b) (hl : lock b = none)
    (hx : x.ref = none) (hh : x.holds = b :: (pc t).holds) :
    Users refcnt users (update lock b (some t)) (update pc t x) := by
  obtain ⟨len, cnt, held, nodup⟩ := h
  have hb : b ∉ (pc t).holds := by
    intro hb
    rw [held t b hb] at hl
    cases hl
  have hnd := nodup t
  refine ⟨len, ?_, ?_, ?_⟩ <;> grind [update_apply]

theorem unlock (hp : (pc t).ref = none) (hl : lock b = some t)
    (hx : x.ref = some b) (hh : ∀ c ∈ x.holds, c ∈ (pc t).holds ∧ c ≠ b) (hnd : x.holds.Nodup) :
    Users refcnt users (update lock b none) (update pc t x) := by
  obtain ⟨len, cnt, held, nodup⟩ := h
  refine ⟨len, ?_, ?_, ?_⟩ <;> grind [update_apply]

theorem unref (hp : (pc t).ref = some b) (hx : x.ref = none) (hh : x.holds = (pc t).holds) :
    Users (update refcnt b (refcnt b - 1)) (update users b ((users b).erase t)) lock
      (update pc t x) := by
  obtain ⟨len, cnt, held, nodup⟩ := h
  have hm : t ∈ users b := by
    have hc := cnt t b
    rw [if_pos hp] at hc
    exact List.count_pos_iff.1 (by omega)
  refine ⟨?_, ?_, ?_, ?_⟩ <;>
    grind [update_apply, List.length_erase_of_mem]

end

end Users

variable {start : Nat} {k : Cont}

namespace State

abbrev Users (s : State T) : Prop := Bio.Users s.refcnt s.users s.lock s.pc

end State

theorem Asks.ref {pc : Pc} {lh : List Nat} (h : Asks start lh pc dev blockno k) :
    pc.ref = none ∧ pc.holds = k.holds := by
  cases h <;> exact ⟨rfl, rfl⟩

theorem Drops.ref {pc : Pc} {r : Rel} (h : Drops pc b r) (hn : pc.holds.Nodup) :
    pc.ref = none ∧ b ∈ pc.holds ∧ (∀ c ∈ r.holds, c ∈ pc.holds ∧ c ≠ b) ∧ r.holds.Nodup := by
  cases h with
  | @src d i lg hm => cases d <;> simp_all [Pc.ref, Pc.holds, Rel.holds, Dir.src, Dir.dst, eq_comm]
  | dst => simp [Pc.ref, Pc.holds, Rel.holds]
  | head => simp [Pc.ref, Pc.holds, Rel.holds]

theorem Writes.ref {x y z : Pc} (h : Writes x b y z) :
    x.ref = none ∧ y.ref = none ∧ z.ref = none ∧ y.holds = x.holds ∧ z.holds = x.holds ∧
      b ∈ x.holds := by
  cases h with
  | @copy d => cases d <;> simp [Pc.ref, Pc.holds, Dir.dst]
  | head => simp [Pc.ref, Pc.holds]

theorem Cont.next_ref (b : Buf) (k : Cont) : (k.next b).ref = none ∧
    ((k.next b).holds = [] ∨ (k.next b).holds.Perm (b :: k.holds)) := by
  cases k with
  | client => exact ⟨rfl, .inl rfl⟩
  | home d i lg => exact ⟨rfl, .inr (.swap ..)⟩
  | log | head => exact ⟨rfl, .inr (.refl _)⟩

theorem Rel.next_ref (r : Rel) : r.next.ref = none ∧ r.next.holds = r.holds := by
  cases r with
  | head again => cases again <;> exact ⟨rfl, rfl⟩
  | _ => exact ⟨rfl, rfl⟩

/-! ## Steps -/

theorem Users.step (h : s.Users) (hv : ∀ b, s.victim = some b → s.refcnt b = 0)
    (hs : Step start s s') : s'.Users := by
  cases hs with
  | beginOp | endOp | change | fetch | flushed => exact h
  | lastOp hp ho hh hc hn =>
    refine h.goto_perm ?_ ?_ <;> rw [hp] <;> split_ifs <;> rfl
  | test hp hl ho hh hn hs =>
    refine h.goto (hp ▸ rfl) (fun c hc => ?_) (List.nodup_singleton _)
    rw [List.mem_singleton.1 hc]
    exact hl
  | append hp => exact h.goto (hp ▸ rfl) nofun List.nodup_nil
  | @bget s1 t b dev blockno k ha hb =>
    obtain ⟨hr, hh⟩ := ha.ref
    rcases bget_cases hb with ⟨-, rfl⟩ | ⟨-, hvb, rfl⟩
    · exact h.ask hr rfl (fun c hc => hh ▸ hc) (hh.subst (h.nodup t)) rfl (by simp [h.len b])
    · have hnil : s.users b = [] := List.length_eq_zero_iff.1 ((h.len b).symm.trans (hv b hvb))
      exact h.ask hr rfl (fun c hc => hh ▸ hc) (hh.subst (h.nodup t)) (by rw [hnil]) rfl
  | acquire hp hl => exact h.acquire (hp ▸ rfl) hl rfl (hp ▸ rfl)
  | @got t b k hp hv =>
    obtain ⟨hr, hh | hh⟩ := k.next_ref b
    · exact h.goto (hr.trans (hp ▸ rfl)) (hh ▸ nofun) (hh ▸ List.nodup_nil)
    · exact h.goto_perm (hr.trans (hp ▸ rfl)) (hp ▸ hh)
  | unlock hp hl hf => exact h.unlock (hp ▸ rfl) hl rfl nofun List.nodup_nil
  | drop hd =>
    obtain ⟨hr, hb, hh, hn⟩ := hd.ref (h.nodup _)
    exact h.unlock hr (h.held _ _ hb) rfl hh hn
  | unref hp => exact h.unref (hp ▸ rfl) (Rel.next_ref _).1 ((Rel.next_ref _).2.trans (hp ▸ rfl))
  | @exit t d i hp hi =>
    refine h.goto_perm ?_ ?_ <;> rw [hp] <;> cases d <;> rfl
  | move hp => exact h.goto_perm (hp ▸ rfl) (hp ▸ .refl _)
  | fill hp => exact h.goto_perm (hp ▸ rfl) (hp ▸ .refl _)
  | bwrite hw =>
    obtain ⟨h1, h2, -, h3, -⟩ := hw.ref
    exact h.goto_perm (h2.trans h1.symm) (h3 ▸ .refl _)
  | wrote hw =>
    obtain ⟨-, h2, h3, h4, h5, -⟩ := hw.ref
    exact h.goto_perm (h3.trans h2.symm) ((h5.trans h4.symm) ▸ .refl _)
  | clear hp => exact h.goto (hp ▸ rfl) nofun List.nodup_nil
  | done hp => exact h.goto (hp ▸ rfl) nofun List.nodup_nil

theorem Ident.step (h : s.Ident) (hu : s.Users) (hs : Step start s s') : s'.Ident := by
  cases hs with
  | @bget s1 t b dev blockno k ha hb =>
    rcases bget_cases hb with ⟨hc, rfl⟩ | ⟨hc, -, rfl⟩
    · obtain ⟨rfl, rfl⟩ := h.cached_some hc
      exact h.hit hc _
    · exact h.recycle (h.cached_none hc) 1
  | fetch hp => exact h.fetch (hu.pos_of_lock (hu.lock_of_read hp))
  | flushed hp => exact h.fetch (hu.pos_of_lock (hu.lock_of_read hp))
  | wrote hw =>
    obtain ⟨-, -, -, h1, -, h2⟩ := hw.ref
    exact h.fetch (hu.pos_of_lock (hu.held _ _ (h1 ▸ h2)))
  | @unref t b r hp =>
    have hb : 0 < s.refcnt b := hu.pos_of_ref (t := t) (hp ▸ rfl)
    change Bio.Ident (if _ then _ else _) _ _ _ _
    split_ifs
    · exact h.front hb _
    · exact h.unref hb _
  | _ => exact h

theorem Users.init (disk : Nat → Nat → Log.Block) (junk : Log.Block) :
    (init disk junk : State T).Users :=
  ⟨fun _ => rfl, fun _ _ => rfl, nofun, fun _ => List.nodup_nil⟩

end Bio
