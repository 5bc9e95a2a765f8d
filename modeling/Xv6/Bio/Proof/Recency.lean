import Xv6.Bio.Proof.Coherent

/-!
# The buffer that is recycled

`brelse` moves a buffer to the head of the ring when its last reference is dropped, and `bget` looks
for a buffer to recycle from the tail. `Released start s tr`: a run to `s` in which `tr` are the buffers
whose last reference was dropped, the latest first. The ring is ordered by it in every state
(`Released.recent`).
-/

namespace Bio

open Param Ring

variable {T : Type} [DecidableEq T] {start : Nat} {s s' : State T} {b : Buf} {tr : List Buf}

/-- Runs, with the buffers whose last reference was dropped, the latest first. -/
inductive Released (start : Nat) : State T → List Buf → Prop
  | init {disk junk} : Released start (init disk junk) []
  | drop {s s' : State T} {b : Buf} {tr : List Buf} (h : Released start s tr) (hs : Step start s s')
      (hb : s.refcnt b ≠ 0) (h0 : s'.refcnt b = 0) : Released start s' (b :: tr)
  | keep {s s' : State T} {tr : List Buf} (h : Released start s tr) (hs : Step start s s')
      (hk : ∀ b, s'.refcnt b = 0 → s.refcnt b = 0) : Released start s' tr

theorem Reach.released (h : Reach start s) : ∃ tr, Released start s tr := by
  induction h with
  | init => exact ⟨[], .init⟩
  | @step s s' _ hs ih =>
    obtain ⟨tr, htr⟩ := ih
    by_cases hk : ∀ b, s'.refcnt b = 0 → s.refcnt b = 0
    · exact ⟨tr, .keep htr hs hk⟩
    · push Not at hk
      obtain ⟨b, h0, hb⟩ := hk
      exact ⟨b :: tr, .drop htr hs hb h0⟩

theorem Released.reach (h : Released start s tr) : Reach start s := by
  induction h with
  | init => exact .init
  | drop _ hs _ _ ih | keep _ hs _ ih => exact ih.step hs

/-- Only `brelse` drops references, and only it changes the ring. -/
theorem step_links (h : Base start s) (hs : Step start s s') :
    (s'.links = s.links ∧ ∀ b, s'.refcnt b = 0 → s.refcnt b = 0) ∨
      ∃ b, 0 < s.refcnt b ∧ s'.refcnt = Function.update s.refcnt b (s.refcnt b - 1) ∧
        s'.links = if s.refcnt b - 1 = 0 then (s.links.unlink b).push b else s.links := by
  cases hs with
  | @bget s1 t b dev blockno k ha hb =>
    refine .inl ?_
    rcases bget_cases hb with ⟨-, rfl⟩ | ⟨-, -, rfl⟩
    · refine ⟨rfl, fun c hc => ?_⟩
      by_cases hcb : c = b
      · subst hcb
        simp [State.goto, State.hit] at hc
      · simpa [State.goto, State.hit, Function.update_of_ne hcb] using hc
    · refine ⟨rfl, fun c hc => ?_⟩
      by_cases hcb : c = b
      · subst hcb
        simp [State.goto, State.recycle] at hc
      · simpa [State.goto, State.recycle, Function.update_of_ne hcb] using hc
  | @unref t b r hp => exact .inr ⟨b, h.users.pos_of_ref (t := t) (hp ▸ rfl), rfl, rfl⟩
  | _ => exact .inl ⟨rfl, fun _ => id⟩

theorem Released.recent (h : Released start s tr) :
    ∃ l, Rings s.links l ∧ (∀ b, b ∈ l) ∧ Recent tr l := by
  induction h with
  | init =>
    have hr : Rings (⟨fun _ => none, fun _ => none⟩ : Links Buf) [] := ⟨List.nodup_nil, rfl, rfl⟩
    exact ⟨_, hr.pushAll (List.nodup_finRange NBUF) nofun, fun b => by simp,
      List.pairwise_of_forall fun _ _ => Nat.le_refl _⟩
  | @drop s s' b tr h hs hb h0 ih =>
    obtain ⟨l, hr, hm, hl⟩ := ih
    rcases step_links h.reach.coh.1 hs with ⟨-, hk⟩ | ⟨c, hc, href, hlink⟩
    · exact absurd (hk b h0) hb
    · obtain rfl : b = c := by
        by_contra hne
        rw [href, Function.update_of_ne hne] at h0
        exact hb h0
      rw [href, Function.update_self] at h0
      rw [if_pos h0] at hlink
      refine ⟨b :: l.erase b, hlink ▸ hr.front (hm b), fun c => ?_, hl.front hr.nodup⟩
      by_cases hcb : c = b
      · exact hcb ▸ List.mem_cons_self
      · exact List.mem_cons_of_mem _ ((List.mem_erase_of_ne hcb).2 (hm c))
  | @keep s s' tr h hs hk ih =>
    obtain ⟨l, hr, hm, hl⟩ := ih
    refine ⟨l, ?_, hm, hl⟩
    rcases step_links h.reach.coh.1 hs with ⟨hlink, -⟩ | ⟨c, hc, href, hlink⟩
    · exact hlink ▸ hr
    · have h1 : s.refcnt c - 1 ≠ 0 := fun h1 => by
        have := hk c (by rw [href, Function.update_self]; exact h1)
        omega
      rw [hlink, if_neg h1]
      exact hr

/-- **`bget` recycles the least recently used buffer**: of all buffers without a reference that are not
dirty, the last reference to the one that it takes was dropped first, or never. -/
theorem bget_least_recent (h : Released start s tr) {t : T} {dev blockno : Nat}
    (hc : s.cached dev blockno = none) (hb : s.bget t dev blockno = some (b, s')) :
    s.refcnt b = 0 ∧ s.dirty b = false ∧
      ∀ c, s.refcnt c = 0 → s.dirty c = false → tr.idxOf c ≤ tr.idxOf b := by
  have hv : s.victim = some b := by
    rcases bget_cases hb with ⟨hc', -⟩ | ⟨-, hv, -⟩
    · rw [hc] at hc'
      cases hc'
    · exact hv
  obtain ⟨h1, h2⟩ := h.reach.coh.1.ident.victim_some hv
  obtain ⟨l, hr, hm, hl⟩ := h.recent
  have hlen : l.length < NBUF + 1 := by
    have := hr.nodup.length_le_card
    rw [Fintype.card_fin] at this
    omega
  refine ⟨h1, h2, fun c hc hd => ?_⟩
  exact hl.last ((hr.findBack _ hlen).symm.trans hv) (hm c) (decide_eq_true ⟨hc, hd⟩)

theorem first_brelse : ∃ (s : State Unit) (c : Buf), Released 2 s [c] ∧
    (∀ b, s.refcnt b = 0 ∧ s.dirty b = false) ∧ ∀ b, ¬ (s.dev b = ROOTDEV ∧ s.blockno b = 41) := by
  let s : State Unit := init (fun _ _ _ => 0) fun _ => 0
  have hn : ∀ b, ¬ (s.dev b = ROOTDEV ∧ s.blockno b = 40) :=
    fun b hb => absurd hb.1 (by decide : 0 ≠ ROOTDEV)
  obtain ⟨c, -, hc⟩ := bget_of_spare (t := ()) (b := ⟨0, NBUF_pos⟩) (.init ..) hn ⟨rfl, rfl⟩
  have h0 : Released 2 s [] := .init
  have h1 := h0.keep (.bget (.client ROOTDEV 40) hc) fun _ _ => rfl
  have h2 := h1.keep (.acquire (t := ()) (b := c) (k := .client ROOTDEV 40)
    (by simp [State.goto]) rfl) fun _ => id
  have h3 := h2.keep (.fetch (t := ()) (b := c) (k := .client ROOTDEV 40)
    (by simp [State.goto]) (by simp [State.goto, State.recycle])
    (by simp [State.goto, State.recycle])) fun _ => id
  have h4 := h3.keep (.got (t := ()) (b := c) (k := .client ROOTDEV 40)
    (by simp [State.goto, State.fetch]) (by simp [State.fetch])) fun _ => id
  have h5 := h4.keep (.unlock (t := ()) (b := c) (by simp [State.goto, Cont.next])
    (by simp [State.goto, State.fetch]) rfl) fun _ => id
  have h6 := h5.drop (b := c) (.unref (t := ()) (b := c) (r := .client) (by simp [State.goto]))
    (by simp [State.goto, State.fetch, State.recycle])
    (by simp [State.goto, State.unref, State.fetch, State.recycle])
  refine ⟨_, c, h6, fun b => ⟨?_, ?_⟩, fun b hb => ?_⟩
  · simp [State.goto, State.unref, State.fetch, State.recycle, init]
  · simp [State.goto, State.unref, State.fetch, State.recycle, init]
  · by_cases hbc : b = c
    · subst hbc
      simp [State.goto, State.unref, State.fetch, State.recycle] at hb
    · simp [State.goto, State.unref, State.fetch, State.recycle, hbc, init] at hb

/-- A buffer that was just released is not the one that is recycled. -/
theorem bget_least_recent_second : ∃ (s s' : State Unit) (b c : Buf), Released 2 s [c] ∧
    s.bget () ROOTDEV 41 = some (b, s') ∧ b ≠ c := by
  obtain ⟨s, c, h, hidle, hn⟩ := first_brelse
  have hi := h.reach.coh.1.ident
  obtain ⟨b, -, hb⟩ := bget_of_spare (t := ()) hi hn (hidle c)
  have hc : s.cached ROOTDEV 41 = none :=
    Option.eq_none_iff_forall_ne_some.2 fun d hd => hn d (hi.cached_some hd)
  refine ⟨s, _, b, c, h, hb, fun hbc => ?_⟩
  have : Nontrivial Buf := inferInstanceAs (Nontrivial (Fin 30))
  obtain ⟨d, hd⟩ := exists_ne c
  have hle := (bget_least_recent h hc hb).2.2 d (hidle d).1 (hidle d).2
  rw [hbc, List.idxOf_cons_self, List.idxOf_cons_ne _ hd.symm] at hle
  omega

end Bio
