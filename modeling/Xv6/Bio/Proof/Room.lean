import Xv6.Bio.Proof.Coherent

/-!
# Running out of buffers

`bget` panics if it finds no buffer without a reference that is not dirty. A dirty buffer without a
reference has a block of the log, so the blocks that processes have buffers of and the blocks of the
log decide (`bget_finds_buffer`). Nothing bounds the former (`bget_no_buffers`).
-/

namespace Bio

open Param Finset

variable {T : Type} {start : Nat} {s : State T} {b : Buf}

/-- The blocks that a process has a buffer of, and the blocks of the log. -/
def State.demand (s : State T) : Finset (Nat × Nat) :=
  (univ.filter fun b => 0 < s.refcnt b).image (fun b => (s.dev b, s.blockno b)) ∪
    s.lh.toFinset.image fun n => (ROOTDEV, n)

variable [DecidableEq T]

theorem Base.mem_demand (h : Base start s) (hc : Coh start s)
    (hb : ¬ (s.refcnt b = 0 ∧ s.dirty b = false)) : (s.dev b, s.blockno b) ∈ s.demand := by
  refine mem_union.2 ?_
  by_cases hr : 0 < s.refcnt b
  · exact .inl (mem_image.2 ⟨b, mem_filter.2 ⟨Finset.mem_univ b, hr⟩, rfl⟩)
  · have hd : s.dirty b = true := by
      rw [← Bool.not_eq_false]
      exact fun hd => hb ⟨by omega, hd⟩
    rcases hc.pins.dirty b hd with ⟨hdev, j, hj, -⟩ | ⟨u, hu⟩
    · refine .inr (mem_image.2 ⟨s.blockno b, ?_, by rw [hdev]⟩)
      exact List.mem_toFinset.2 (List.mem_of_getElem? hj)
    · exact absurd (h.users.pos_of_lock (h.users.held u b (Pc.holds_of_writes hu))) hr

/-- **`bget` finds a buffer** as long as the blocks that processes have buffers of and the blocks of
the log are fewer than the buffers, also in `commit`. -/
theorem bget_finds_buffer (h : Reach start s) (hr : s.demand.card < NBUF) (t : T)
    (dev blockno : Nat) : s.bget t dev blockno ≠ none := by
  intro hn
  obtain ⟨hb, hc, -⟩ := h.coh
  have hv : s.victim = none := by
    unfold State.bget at hn
    cases hcd : s.cached dev blockno with
    | some c => simp [hcd] at hn
    | none =>
      cases hv : s.victim with
      | none => rfl
      | some c => simp [hcd, hv] at hn
  have hall := hb.ident.victim_none hv
  have hinj : Function.Injective fun b => (s.dev b, s.blockno b) := by
    intro b c hbc
    have hlive : ∀ b, Live s.refcnt s.valid b := by
      intro b
      by_cases hz : s.refcnt b = 0
      · refine .inr (hb.flags.dirty b ?_)
        rw [← Bool.not_eq_false]
        exact fun hd => hall b ⟨hz, hd⟩
      · exact .inl (Nat.pos_of_ne_zero hz)
    obtain ⟨hd, hn⟩ := Prod.mk.inj hbc
    exact hb.ident.inj (hlive b) (hlive c) hd hn
  have hsub : univ.image (fun b => (s.dev b, s.blockno b)) ⊆ s.demand := by
    intro p hp
    obtain ⟨b, -, rfl⟩ := mem_image.1 hp
    exact hb.mem_demand hc (hall b)
  have hcard := card_le_card hsub
  rw [card_image_of_injective _ hinj, card_univ, Fintype.card_fin] at hcard
  omega

/-! ## More readers than buffers -/

/-- Processes `0` to `m - 1` have called `bread` for blocks `100` to `99 + m`; no one else did
anything. -/
structure Readers (m : Nat) (s : State (Fin NPROC)) : Prop where
  reach : Reach 2 s
  want : ∀ t : Fin NPROC, t < m → ∃ b, s.pc t = .want b (.client ROOTDEV (100 + t))
  idle : ∀ t : Fin NPROC, m ≤ t → s.pc t = .idle
  lock : ∀ b, s.lock b = none
  lh : s.lh = []
  ops : s.ops = []

theorem Readers.succ {m : Nat} {s : State (Fin NPROC)} (h : Readers m s) (hm : m < NPROC) :
    s.bget ⟨m, hm⟩ ROOTDEV (100 + m) = none ∨ ∃ s', Readers (m + 1) s' := by
  cases hb : s.bget ⟨m, hm⟩ ROOTDEV (100 + m) with
  | none => exact .inl rfl
  | some p =>
    obtain ⟨b, s1⟩ := p
    have hs1 : s1.pc = s.pc ∧ s1.lock = s.lock ∧ s1.lh = s.lh ∧ s1.ops = s.ops := by
      rcases bget_cases hb with ⟨-, rfl⟩ | ⟨-, -, rfl⟩ <;> exact ⟨rfl, rfl, rfl, rfl⟩
    obtain ⟨hpc, hlock, hlh, hops⟩ := hs1
    refine .inr ⟨s1.goto ⟨m, hm⟩ (.want b (.client ROOTDEV (100 + m))), ?_, ?_, ?_, ?_, ?_, ?_⟩
    · refine h.reach.step (.bget ?_ hb)
      rw [h.idle ⟨m, hm⟩ (Nat.le_refl m)]
      exact .client ..
    · intro t ht
      by_cases htm : t = ⟨m, hm⟩
      · exact ⟨b, by simp [State.goto, htm]⟩
      · have hlt : (t : Nat) < m := by
          have : (t : Nat) ≠ m := fun he => htm (Fin.ext he)
          omega
        obtain ⟨c, hc⟩ := h.want t hlt
        exact ⟨c, by simpa [State.goto, htm, hpc] using hc⟩
    · intro t ht
      have htm : t ≠ ⟨m, hm⟩ := by
        rintro rfl
        exact absurd ht (Nat.not_succ_le_self m)
      simpa [State.goto, htm, hpc] using h.idle t (by omega)
    · exact fun c => (congrFun hlock c).trans (h.lock c)
    · exact hlh.trans h.lh
    · exact hops.trans h.ops

theorem Readers.le {m : Nat} {s : State (Fin NPROC)} (h : Readers m s) (hm : m ≤ NPROC) :
    m ≤ NBUF := by
  obtain ⟨hb, -, -⟩ := h.reach.coh
  have hsub : (range m).image (100 + ·) ⊆ univ.image s.blockno := by
    intro n hn
    obtain ⟨i, hi, rfl⟩ := mem_image.1 hn
    have hi := mem_range.1 hi
    obtain ⟨b, hp⟩ := h.want ⟨i, by omega⟩ hi
    have hk : (Pc.want b (.client ROOTDEV (100 + i))).Key 2 s.dev s.blockno s.lh := hp ▸ hb.keys _
    exact mem_image.2 ⟨b, mem_univ b, hk.2⟩
  have hcard := (card_le_card hsub).trans card_image_le
  rwa [card_image_of_injective _ (fun _ _ h => Nat.add_left_cancel h), card_range,
    card_univ, Fintype.card_fin] at hcard

theorem readers_exist {n : Nat} (h : ∀ m s, Readers m s → ∀ hm : m < NPROC, m < n →
    s.bget ⟨m, hm⟩ ROOTDEV (100 + m) ≠ none) : ∀ m, m ≤ n → m ≤ NPROC → ∃ s, Readers m s := by
  intro m
  induction m with
  | zero =>
    exact fun _ _ => ⟨init (fun _ _ _ => 0) fun _ => 0, .init, fun _ h => absurd h (Nat.not_lt_zero _),
      fun _ _ => rfl, fun _ => rfl, rfl, rfl⟩
  | succ m ih =>
    intro hn hm
    obtain ⟨s, hs⟩ := ih (by omega) (by omega)
    exact (hs.succ hm).resolve_left (h m s hs hm hn)

theorem Readers.demand {m : Nat} {s : State (Fin NPROC)} (h : Readers m s) : s.demand.card ≤ m := by
  have hsub : s.demand ⊆ (range m).image fun i => (ROOTDEV, 100 + i) := by
    intro x hx
    rw [State.demand, h.lh, List.toFinset_nil, image_empty, union_empty] at hx
    obtain ⟨b, hb, rfl⟩ := mem_image.1 hx
    have hpos := (mem_filter.1 hb).2
    rw [h.reach.coh.1.users.len] at hpos
    obtain ⟨t, ht⟩ := List.exists_mem_of_length_pos hpos
    have hcnt := h.reach.coh.1.users.cnt t b
    rw [h.lock, if_neg (Option.some_ne_none t).symm] at hcnt
    have href : (s.pc t).ref = some b := by
      have := List.count_pos_iff.2 ht
      by_contra hne
      rw [if_neg hne] at hcnt
      omega
    rcases Nat.lt_or_ge t m with htm | htm
    · obtain ⟨c, hc⟩ := h.want t htm
      have hk : (Pc.want c (.client ROOTDEV (100 + t))).Key 2 s.dev s.blockno s.lh :=
        hc ▸ h.reach.coh.1.keys _
      rw [hc] at href
      cases href
      exact mem_image.2 ⟨t, mem_range.2 htm, Prod.ext hk.1.symm hk.2.symm⟩
    · rw [h.idle t htm] at href
      cases href
  exact (card_le_card hsub).trans (card_image_le.trans_eq (card_range m))

/-- 29 processes have taken a buffer, and the next one finds the last. -/
theorem bget_finds_buffer_readers : ∃ s : State (Fin NPROC), Readers 29 s ∧ s.demand.card < NBUF ∧
    ∀ t n, s.bget t ROOTDEV n ≠ none := by
  have hroom : ∀ m s, Readers m s → m < NBUF → ∀ t n, s.bget t ROOTDEV n ≠ none := fun m s hs hm t n =>
    bget_finds_buffer hs.reach (hs.demand.trans_lt hm) t ROOTDEV n
  obtain ⟨s, hs⟩ :=
    readers_exist (n := NBUF) (fun m s hs _ hm => hroom m s hs hm _ _) 29 (by decide) (by decide)
  exact ⟨s, hs, hs.demand.trans_lt (by decide), hroom 29 s hs (by decide)⟩

/-- Processes that read files of their own take all buffers, and the next one finds none. -/
theorem bget_no_buffers : ∃ (s : State (Fin NPROC)) (t : Fin NPROC) (n : Nat), Reach 2 s ∧
    s.lh = [] ∧ s.ops = [] ∧ (∀ u, s.pc u = .idle ∨ ∃ b n, s.pc u = .want b (.client ROOTDEV n)) ∧
    s.pc t = .idle ∧ s.bget t ROOTDEV n = none := by
  by_contra hno
  have hfinds : ∀ m s, Readers m s → ∀ hm : m < NPROC, m < NPROC →
      s.bget ⟨m, hm⟩ ROOTDEV (100 + m) ≠ none := fun m s hs hm _ hn => by
    refine absurd ⟨s, ⟨m, hm⟩, 100 + m, hs.reach, hs.lh, hs.ops, fun u => ?_,
      hs.idle _ (Nat.le_refl m), hn⟩ hno
    rcases Nat.lt_or_ge u m with hu | hu
    · obtain ⟨b, hb⟩ := hs.want u hu
      exact .inr ⟨b, _, hb⟩
    · exact .inl (hs.idle u hu)
  obtain ⟨s, hs⟩ := readers_exist hfinds (NBUF + 1) (by decide) (by decide)
  exact absurd (hs.le (by decide)) (Nat.not_succ_le_self NBUF)

end Bio
