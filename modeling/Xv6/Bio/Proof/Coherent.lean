import Xv6.Bio.Proof.Stage

/-!
# Coherence of the buffer cache

The invariants hold in every reachable state. The log never has more blocks than the log on the disk
when `commit` copies them there: each block of the log has its own dirty buffer, and `commit` starts
with finding one more buffer, for the first block of the log.
-/

namespace Bio

open Function (update update_self update_of_ne)
open Log (Block putHead)
open Param Finset

variable {T : Type} {start : Nat} {s s' : State T} {t : T} {b : Buf}
  {dev blockno : Nat} {k : Cont} {x : Pc}

structure Coh (start : Nat) (s : State T) : Prop where
  fresh : Fresh s.lock s.ops s.lh.length s.pc s.fresh
  value : Value s.dev s.blockno s.valid s.data s.disk s.last s.fresh
  logged : Logged start s.last s.disk s.lh s.dev s.blockno s.valid s.dirty
  pins : Pins s.lh s.dev s.blockno s.valid s.dirty s.pc
  copy : Copy start s.lh s.last s.disk s.data s.pc
  room : ∀ t, ((s.pc t).stage s.lh.length).room = true → s.lh.length < NBUF

theorem Coh.init (disk : Nat → Nat → Block) (junk : Block) :
    Coh start (init disk junk : State T) where
  fresh := nofun
  value := nofun
  logged := ⟨nofun, nofun, nofun, List.nodup_nil⟩
  pins := ⟨nofun, nofun⟩
  copy := .clear
  room := nofun

/-! ## Steps -/

namespace Coh

theorem recycle (h : Coh start s) (hb : s.dirty b = false) (t : T) (d n : Nat) :
    Coh start (s.recycle t d n b) where
  fresh := h.fresh
  value := h.value.recycle d n
  logged := h.logged.recycle hb d n
  pins := h.pins.recycle hb d n
  copy := h.copy
  room := h.room

theorem change (h : Coh start s) (hl : s.lock b = some t) (ht : t ∈ s.ops)
    (hn : ∀ u n, (s.pc u).stage n = .out) (v : Block) : Coh start (s.change b v) where
  fresh := h.fresh.change hl (.inl ht)
  value := h.value.change v
  logged := h.logged
  pins := h.pins
  copy := h.copy.change (fun u i => by rw [hn]; nofun) v
  room := h.room

theorem logWrite (h : Coh start s) (hh : Home start (s.dev b) (s.blockno b))
    (hv : s.valid b = true) (hn : ∀ u n, (s.pc u).stage n = .out)
    (hi : ∀ c, s.valid c = true → s.dev c = s.dev b → s.blockno c = s.blockno b → c = b) :
    Coh start (s.logWrite b) where
  fresh := h.fresh.clean.resize fun u => (hn u _).trans (hn u _).symm
  value := h.value.logWrite hh.1 hi
  logged := h.logged.logWrite hh hv _
  pins := h.pins.logWrite hh.1 hv hn
  copy := .out hn
  room u hu := absurd ((congrArg Stage.room (hn u _)).symm.trans hu) nofun

theorem fetch (h : Coh start s)
    (hi : ∀ c, s.valid c = true → s.dev c = s.dev b → s.blockno c = s.blockno b → c = b)
    (hd : s.dirty b = false) (hc : ∀ u i, ((s.pc u).stage s.lh.length).copies ≠ some (i, b)) :
    Coh start (s.fetch b) where
  fresh := h.fresh
  value := by
    refine h.value.fetch (h.logged.expect_eq fun c hc hv he => ?_)
    rw [hi c hv he.1 he.2, hd] at hc
    cases hc
  logged := h.logged.fetch
  pins := h.pins.fetch
  copy := h.copy.change hc _
  room := h.room

theorem bwrite (h : Coh start s) (hw : ((s.pc t).stage s.lh.length).writes = some b) :
    Coh start { s with dirty := update s.dirty b true } where
  fresh := h.fresh
  value := h.value
  logged := h.logged.pin
  pins := h.pins.bwrite hw
  copy := h.copy
  room := h.room

variable [DecidableEq T]

theorem goto (h : Coh start s) (hc : ∀ j < s.lh.length, j < (x.stage s.lh.length).copied →
      j < ((s.pc t).stage s.lh.length).copied)
    (hi : ∀ j < s.lh.length, j < (x.stage s.lh.length).installed ↔
      j < ((s.pc t).stage s.lh.length).installed)
    (hx : ∀ p, (x.stage s.lh.length).copies = some p → ((s.pc t).stage s.lh.length).copies = some p)
    (hw : (x.stage s.lh.length).writes = ((s.pc t).stage s.lh.length).writes)
    (hr : (x.stage s.lh.length).room = true →
      ((s.pc t).stage s.lh.length).room = true ∨ s.lh.length < NBUF) : Coh start (s.goto t x) where
  fresh := h.fresh.goto fun _ hb _ => hw.trans hb
  value := h.value
  logged := h.logged
  pins := h.pins.goto hi fun _ hb => hw.trans hb
  copy := h.copy.goto hc hx
  room := forall_update (P := fun y => (y.stage s.lh.length).room = true → s.lh.length < NBUF)
    (fun u _ => h.room u) fun hx => (hr hx).elim (h.room t) id

theorem goto_same (h : Coh start s) (hx : ∀ n, x.stage n = (s.pc t).stage n) :
    Coh start (s.goto t x) := by
  refine h.goto ?_ ?_ ?_ ?_ ?_ <;> rw [hx]
  · exact fun _ _ hj => hj
  · exact fun _ _ => Iff.rfl
  · exact fun _ hp => hp
  · exact .inl

end Coh

theorem Logged.not_mem {last : Nat → Option Block} {disk : Nat → Nat → Block} {lh : List Nat}
    {dev blockno : Buf → Nat} {valid dirty : Buf → Bool} {n : Nat}
    (h : Logged start last disk lh dev blockno valid dirty) (hn : ¬ Home start ROOTDEV n) :
    last n = none ∧ n ∉ lh := by
  have hl : last n = none := by
    cases hv : last n with
    | none => rfl
    | some v => exact absurd (h.home n v hv) hn
  exact ⟨hl, fun hm => h.logged n hm hl⟩

theorem not_home_log (start : Nat) {i : Nat} (hi : i + 1 < NBUF) :
    ¬ Home start ROOTDEV (start + i + 1) := by
  rintro ⟨-, h | h⟩
  · omega
  · have : LOGSIZE = NBUF := rfl
    omega

theorem NBUF_pos : 0 < NBUF := by decide

theorem not_home_head (start : Nat) : ¬ Home start ROOTDEV start := by
  rintro ⟨-, h | h⟩
  · omega
  · have : LOGSIZE = 30 := rfl
    omega

theorem length_lt_of_pinned {lh : List Nat} {blockno : Buf → Nat} (hn : lh.Nodup)
    (hp : ∀ n ∈ lh, ∃ c, blockno c = n) (hb : blockno b ∉ lh) : lh.length < NBUF := by
  have hs : insert (blockno b) lh.toFinset ⊆ univ.image blockno := by
    intro n hm
    rcases mem_insert.1 hm with rfl | hm
    · exact mem_image_of_mem _ (mem_univ _)
    · obtain ⟨c, rfl⟩ := hp n (List.mem_toFinset.1 hm)
      exact mem_image_of_mem _ (mem_univ _)
  have hc := (card_le_card hs).trans card_image_le
  rw [card_insert_of_notMem (by simpa using hb), List.toFinset_card_of_nodup hn,
    card_univ, Fintype.card_fin] at hc
  exact hc

theorem Coh.turn {i : Nat} {lg hm : Buf} (h : Coh start s)
    (hr : ((s.pc t).stage s.lh.length).room = true)
    (hlg : IsLog start s.dev s.blockno i lg) (hhm : IsHome s.dev s.blockno s.lh i hm) :
    i < s.lh.length ∧ s.last (s.blockno lg) = none ∧ s.blockno lg ∉ s.lh ∧
      ∀ j < s.lh.length, start + j + 1 ≠ s.blockno hm := by
  have hlen := h.room t hr
  have hi : i < s.lh.length := (List.getElem?_eq_some_iff.1 hhm.2).1
  have hnone := h.logged.not_mem (not_home_log start (i := i) (by omega))
  rw [← hlg.2] at hnone
  refine ⟨hi, hnone.1, hnone.2, fun j hj he => ?_⟩
  have hnj := h.logged.not_mem (not_home_log start (i := j) (by omega))
  rw [he] at hnj
  exact hnj.2 (List.mem_of_getElem? hhm.2)

theorem bget_of_spare (h : s.Ident) (hn : ∀ b, ¬ (s.dev b = dev ∧ s.blockno b = blockno))
    (hb : s.refcnt b = 0 ∧ s.dirty b = false) :
    ∃ c, s.victim = some c ∧ s.bget t dev blockno = some (c, s.recycle t dev blockno c) := by
  have hc : s.cached dev blockno = none := by
    cases hc : s.cached dev blockno with
    | none => rfl
    | some c => exact absurd (h.cached_some hc) (hn c)
  cases hv : s.victim with
  | none => exact absurd hb (h.victim_none hv b)
  | some c => exact ⟨c, rfl, by simp only [State.bget, hc, hv]⟩

theorem Coh.bget {s1 : State T} (h : Coh start s) (hi : s.Ident)
    (hb : s.bget t dev blockno = some (b, s1)) :
    Coh start s1 ∧ s1.pc = s.pc ∧ s1.dev b = dev ∧ s1.blockno b = blockno := by
  rcases bget_cases hb with ⟨hc, rfl⟩ | ⟨hc, hv, rfl⟩
  · exact ⟨⟨h.fresh, h.value, h.logged, h.pins, h.copy, h.room⟩, rfl, hi.cached_some hc⟩
  · exact ⟨h.recycle (hi.victim_some hv).2 t dev blockno, rfl, update_self .., update_self ..⟩

variable [DecidableEq T]

theorem Base.out (h : Base start s) (ht : t ∈ s.ops) (u : T) (n : Nat) : (s.pc u).stage n = .out :=
  Pc.stage_out (h.excl.no_commit ht u) n

theorem Base.out_of_ne (h : Base start s) (ht : (s.pc t).commits = true) (u : T) (hu : u ≠ t)
    (n : Nat) : (s.pc u).stage n = .out := by
  refine Pc.stage_out ?_ n
  rw [← Bool.not_eq_true]
  exact fun hc => hu (h.excl.one u t hc ht)

theorem Base.inj (h : Base start s) (hl : s.lock b = some t) (c : Buf) (hc : s.valid c = true)
    (hd : s.dev c = s.dev b) (hn : s.blockno c = s.blockno b) : c = b :=
  h.ident.inj (.inr hc) (.inl (h.users.pos_of_lock hl)) hd hn

section
variable (h : Coh start s) (hb : Base start s)
include h hb

theorem Coh.not_fresh (ht : (s.pc t).commits = true)
    (hl : s.lock b = some t) (hw : ((s.pc t).stage s.lh.length).writes = none) :
    s.fresh b = false := by
  rw [← Bool.not_eq_true]
  intro hf
  obtain ⟨u, hu, ho | hw'⟩ := h.fresh b hf
  · rw [hl] at hu
    cases hu
    exact absurd (hb.excl.no_commit ho t) (by simp [ht])
  · rw [hl] at hu
    cases hu
    rw [hw] at hw'
    cases hw'

theorem Coh.move {v : Block} (ht : (s.pc t).commits = true)
    (hl : s.lock b = some t) {c : Option Nat}
    (hx : x.stage s.lh.length = { (s.pc t).stage s.lh.length with
      copies := c.map (·, b), writes := some b })
    (hw : ((s.pc t).stage s.lh.length).writes = none)
    (hv : ∀ i n, c = some i → s.lh[i]? = some n → s.last n = some v) :
    Coh start ((s.change b v).goto t x) where
  fresh := by
    refine (h.fresh.goto fun c hc => ?_).change hl (.inr ?_)
    · rw [hw] at hc
      cases hc
    · rw [update_self, hx]
  value := h.value.change v
  logged := h.logged
  pins := h.pins.goto (fun _ _ => by rw [hx]) fun c hc => by
    rw [hw] at hc
    cases hc
  copy := by
    refine h.copy.move (hb.out_of_ne ht) (by rw [hx]) fun i c' n hi hn => ?_
    rw [hx] at hi
    obtain ⟨j, hj, he⟩ := Option.map_eq_some_iff.1 hi
    cases he
    exact ⟨rfl, hv i n hj hn⟩
  room := forall_update (P := fun y => (y.stage s.lh.length).room = true → s.lh.length < NBUF)
    (fun u _ => h.room u) (by rw [hx]; exact h.room t)

theorem Coh.wrote (ht : (s.pc t).commits = true) (hl : s.lock b = some t) (hd : s.dev b = ROOTDEV)
    (hw : ((s.pc t).stage s.lh.length).writes = some b)
    (hlast : s.last (s.blockno b) = none ∨ s.last (s.blockno b) = some (s.data b))
    (hx : (x.stage s.lh.length).copies = none)
    (hi : ∀ (j n : Nat), s.lh[j]? = some n → (j < (x.stage s.lh.length).installed ↔
      j < ((s.pc t).stage s.lh.length).installed ∨ n = s.blockno b))
    (hc : ∀ (j n : Nat), s.lh[j]? = some n → j < (x.stage s.lh.length).copied →
      start + j + 1 = s.blockno b ∧ s.last n = some (s.data b) ∨
        start + j + 1 ≠ s.blockno b ∧ j < ((s.pc t).stage s.lh.length).copied)
    (hr : ((s.pc t).stage s.lh.length).room = true) : Coh start ((s.flush b).goto t x) where
  fresh := by
    refine h.fresh.clean.goto fun c hc hf => ?_
    rw [hw] at hc
    cases hc
    rw [update_self] at hf
    cases hf
  value := h.value.flush hd hlast (hb.inj hl)
  logged := h.logged.flush hd hlast
  pins := h.pins.flush hd hw (fun c hc => hb.inj hl c (hb.flags.dirty c hc)) hi
  copy := h.copy.flush hd (hb.out_of_ne ht) hx hc
  room := forall_update (P := fun y => (y.stage s.lh.length).room = true → s.lh.length < NBUF)
    (fun u _ => h.room u) fun _ => h.room t hr

theorem Coh.wroteLog {i : Nat} {lg hm : Buf} (hp : s.pc t = .writing .toLog i lg hm) :
    Coh start ((s.flush lg).goto t (.written .toLog i lg hm)) := by
  have hl : s.lock lg = some t := hb.users.held t lg (hp ▸ by simp [Pc.holds])
  obtain ⟨hlg, hhm⟩ : (Pc.writing .toLog i lg hm).Key start s.dev s.blockno s.lh := hp ▸ hb.keys t
  obtain ⟨hi, hnone, hmem, -⟩ := h.turn (t := t) (hp ▸ rfl) hlg hhm
  refine h.wrote hb (hp ▸ rfl) hl hlg.1 (hp ▸ rfl) (.inl hnone) rfl ?_ ?_ (hp ▸ rfl)
  · intro j n hj
    have hne : n ≠ s.blockno lg := fun he => hmem (he ▸ List.mem_of_getElem? hj)
    rw [hp]
    simp [Pc.stage, Dir.stage, hne]
  · intro j n hj hlt
    have hlt : j < i + 1 := hlt
    rw [hlg.2]
    by_cases hji : j = i
    · subst hji
      exact .inl ⟨rfl, h.copy.copies t j n lg (hp ▸ rfl) hj⟩
    · refine .inr ⟨by omega, ?_⟩
      rw [hp]
      exact (by omega : j < i)

theorem Coh.wroteHome {i : Nat} {lg hm : Buf} (hp : s.pc t = .writing .install i lg hm) :
    Coh start ((s.flush hm).goto t (.written .install i lg hm)) := by
  have hl : s.lock hm = some t := hb.users.held t hm (hp ▸ by simp [Pc.holds])
  obtain ⟨hlg, hhm⟩ : (Pc.writing .install i lg hm).Key start s.dev s.blockno s.lh :=
    hp ▸ hb.keys t
  obtain ⟨hi, -, -, hne⟩ := h.turn (t := t) (hp ▸ rfl) hlg hhm
  have hlast := h.copy.copies t i _ hm (hp ▸ rfl) hhm.2
  refine h.wrote hb (hp ▸ rfl) hl hhm.1 (hp ▸ rfl) (.inr hlast) rfl ?_ ?_ (hp ▸ rfl)
  · intro j n hj
    have hjn : n = s.blockno hm ↔ j = i := by
      obtain ⟨hlt, rfl⟩ := List.getElem?_eq_some_iff.1 hj
      obtain ⟨hlt', he⟩ := List.getElem?_eq_some_iff.1 hhm.2
      rw [← he]
      exact h.logged.nodup.getElem_inj_iff
    rw [hp, hjn]
    exact (by omega : j < i + 1 ↔ j < i ∨ j = i)
  · intro j n hj hlt
    rw [hp]
    exact .inr ⟨hne j (List.getElem?_eq_some_iff.1 hj).1, hlt⟩

theorem Coh.wroteHead {again : Bool} (hp : s.pc t = .writingHead again b) :
    Coh start ((s.flush b).goto t (.writtenHead again b)) := by
  have hl : s.lock b = some t := hb.users.held t b (hp ▸ by simp [Pc.holds])
  obtain ⟨hd, hn⟩ : (Pc.writingHead again b).Key start s.dev s.blockno s.lh := hp ▸ hb.keys t
  obtain ⟨hnone, hmem⟩ := h.logged.not_mem (not_home_head start)
  rw [← hn] at hnone hmem
  refine h.wrote hb (hp ▸ rfl) hl hd (hp ▸ rfl) (.inl hnone) ?_ ?_ ?_ ?_
  · cases again <;> rfl
  · intro j n hj
    have hne : n ≠ s.blockno b := fun he => hmem (he ▸ List.mem_of_getElem? hj)
    rw [hp]
    simp [Pc.stage, hne]
  · intro j n hj hlt
    rw [hp]
    exact .inr ⟨by omega, hlt⟩
  · rw [hp]
    cases again <;> rfl

theorem Coh.last_src {i n : Nat} {d : Dir} {lg hm : Buf}
    (hp : s.pc t = .gotBoth d i lg hm) (hn : s.lh[i]? = some n) :
    s.last n = some (s.data (d.src lg hm)) := by
  obtain ⟨hlg, hhm⟩ : (Pc.gotBoth d i lg hm).Key start s.dev s.blockno s.lh := hp ▸ hb.keys t
  have hval : ∀ c ∈ [lg, hm], s.data c = expect s.last s.disk (s.dev c) (s.blockno c) := by
    intro c hc
    have hm : c ∈ (s.pc t).holds := hp ▸ hc
    refine h.value c (hb.flags.valid_of_holds hb.users hm (hp ▸ rfl)) ?_
    refine h.not_fresh hb (hp ▸ rfl) (hb.users.held t c hm) ?_
    rw [hp]
    cases d <;> rfl
  obtain ⟨hi, hnone, -, -⟩ := h.turn (t := t) (by rw [hp]; cases d <;> rfl) hlg hhm
  cases d with
  | toLog =>
    obtain ⟨v, hv⟩ := Option.ne_none_iff_exists'.1 (h.logged.logged n (List.mem_of_getElem? hn))
    have hnb : s.blockno hm = n := Option.some.inj (hhm.2.symm.trans hn)
    rw [Dir.src, hval hm (by simp), hnb, hv, expect, if_pos hhm.1, hv]
    rfl
  | install =>
    rw [Dir.src, hval lg (by simp), expect, if_pos hlg.1, hnone, hlg.1, hlg.2]
    refine h.copy.copied t i n ?_ hn
    rw [hp]
    exact hi

theorem Coh.step (hs : Step start s s') : Coh start s' := by
  cases hs with
  | beginOp =>
    refine ⟨fun b hf => ?_, h.value, h.logged, h.pins, h.copy, h.room⟩
    obtain ⟨t, hl, ht⟩ := h.fresh b hf
    exact ⟨t, hl, ht.imp_left (List.mem_cons_of_mem _)⟩
  | endOp hp ho hh => exact ⟨h.fresh.erase hh, h.value, h.logged, h.pins, h.copy, h.room⟩
  | @lastOp t hp ho hh =>
    have hg : Coh start (s.goto t (if 0 < s.lh.length then .loop .toLog 0 else .done)) := by
      split_ifs with hn
      · exact h.goto_same fun n => hp ▸ rfl
      · have hz : s.lh.length = 0 := by omega
        refine h.goto ?_ ?_ ?_ ?_ ?_
        · omega
        · omega
        · exact fun _ hc => by cases hc
        · rw [hp]
          rfl
        · exact fun _ => .inr (hz ▸ NBUF_pos)
    exact ⟨hg.fresh.erase hh, hg.value, hg.logged, hg.pins, hg.copy, hg.room⟩
  | change v hp hl ho => exact h.change hl ho (hb.out ho) v
  | test hp => exact h.goto_same fun n => hp ▸ rfl
  | @append t b hp =>
    have ho : t ∈ s.ops := hb.excl.inOp t (by rw [hp]; exact Option.some_ne_none b)
    have hm : b ∈ (s.pc t).holds := hp ▸ List.mem_cons_self
    have hh : (Pc.append b).Key start s.dev s.blockno s.lh := hp ▸ hb.keys t
    have hg := h.logWrite hh (hb.flags.valid_of_holds hb.users hm (hp ▸ rfl)) (hb.out ho)
      (hb.inj (hb.users.held t b hm))
    exact hg.goto_same fun n => (hb.out ho t n).symm
  | @bget s1 t b dev blockno k ha hg =>
    obtain ⟨h1, hpc, hd, hn⟩ := h.bget hb.ident hg
    rw [← hpc] at ha
    rcases ha.stage (b := b) with hx | ⟨hx, rfl, rfl, rfl⟩
    · exact h1.goto_same hx
    · rw [hpc] at hx
      have hout : ∀ u n, (s1.pc u).stage n = .out := by
        intro u n
        rw [hpc]
        by_cases hu : u = t
        · rw [hu, hx]
          rfl
        · exact hb.out_of_ne (hx ▸ rfl) u hu n
      have hmem := (h1.logged.not_mem (not_home_log start (i := 0) (by decide))).2
      have hpin : ∀ n ∈ s1.lh, ∃ c, s1.blockno c = n := by
        intro n hm
        obtain ⟨c, -, hc, -⟩ := ((Pins.iff_of_out hout).1 h1.pins).1 n hm
        exact ⟨c, hc⟩
      have hlt := length_lt_of_pinned h1.logged.nodup hpin (hn ▸ hmem)
      refine h1.goto ?_ ?_ ?_ ?_ fun _ => .inr hlt <;> rw [hout]
      · exact fun _ _ hj => hj
      · exact fun _ _ => Iff.rfl
      · exact fun _ hc => by cases hc
      · rfl
  | @acquire t b k hp hl =>
    have hg := h.goto_same (t := t) (x := .read b k) fun n => hp ▸ rfl
    exact ⟨hg.fresh.acquire hl, hg.value, hg.logged, hg.pins, hg.copy, hg.room⟩
  | @fetch t b k hp hv hd =>
    have hl := hb.users.lock_of_read hp
    refine h.fetch (hb.inj hl) hd fun u i hc => ?_
    -- a process that writes the buffer has its lock and is not in `bread`
    obtain ⟨hm, hr⟩ := Pc.holds_of_copies hc
    have hu := hb.users.held u b hm
    rw [hl] at hu
    cases hu
    rw [hp] at hr
    cases hr
  | flushed hp hv hd => exact absurd (hv.symm.trans (hb.flags.dirty _ hd)) (by simp)
  | @got t b k hp => exact h.goto_same fun n => (k.next_stage b n).trans (hp ▸ rfl)
  | @unlock t b hp hl hf =>
    have hg := h.goto_same (t := t) (x := .unlocked b .client) fun n => hp ▸ rfl
    exact ⟨hg.fresh.unlock hf, hg.value, hg.logged, hg.pins, hg.copy, hg.room⟩
  | @drop t b r hd =>
    have hg := h.goto_same fun n => (hd.stage n).1
    have hl := hb.users.held t b (hd.ref (hb.users.nodup t)).2.1
    have hf := h.not_fresh hb hd.commits.1 hl (hd.stage _).2
    exact ⟨hg.fresh.unlock hf, hg.value, hg.logged, hg.pins, hg.copy, hg.room⟩
  | @unref t b r hp =>
    have hg := h.goto_same (t := t) fun n => (r.next_stage n).trans (hp ▸ rfl)
    exact ⟨hg.fresh, hg.value, hg.logged, hg.pins, hg.copy, hg.room⟩
  | @exit t d i hp hi =>
    cases d with
    | toLog =>
      have hst : (s.pc t).stage s.lh.length = ⟨i, 0, none, none, decide (0 < i)⟩ := by
        rw [hp]
        cases i <;> rfl
      refine h.goto ?_ ?_ ?_ ?_ fun _ => ?_ <;> rw [hst]
      · exact fun j hj _ => (by omega : j < i)
      · exact fun _ _ => Iff.rfl
      · exact fun _ hc => by cases hc
      · rfl
      · rcases Nat.eq_zero_or_pos i with rfl | hpos
        · exact .inr ((Nat.le_of_not_lt hi).trans_lt NBUF_pos)
        · exact .inl (decide_eq_true hpos)
    | install =>
      have hst : (s.pc t).stage s.lh.length = ⟨s.lh.length, i, none, none, true⟩ := by
        rw [hp]
        cases i <;> rfl
      refine h.goto ?_ ?_ ?_ ?_ fun _ => .inl ?_ <;> rw [hst]
      · exact fun _ _ hj => hj
      · exact fun j hj => (by omega : j < s.lh.length ↔ j < i)
      · exact fun _ hc => by cases hc
      · rfl
  | @move t d i lg hm hp =>
    have hl : s.lock (d.dst lg hm) = some t := by
      refine hb.users.held t _ ?_
      cases d <;> simp [hp, Pc.holds, Dir.dst]
    refine h.move hb (hp ▸ rfl) hl (c := some i) ?_ ?_ fun j n hj hn => ?_
    · rw [hp]
      rfl
    · rw [hp]
      cases d <;> rfl
    · cases hj
      exact h.last_src hb hp hn
  | @fill t again b hp =>
    have hl : s.lock b = some t := hb.users.held t b (by simp [hp, Pc.holds])
    refine h.move hb (hp ▸ rfl) hl (c := none) ?_ ?_ (by simp) <;> rw [hp] <;> cases again <;> rfl
  | @bwrite t b p q hw =>
    exact (h.bwrite (hw.stage _).2).goto_same fun n => (hw.stage n).1
  | @wrote t b p q hw =>
    generalize hp : s.pc t = y at hw
    cases hw with
    | @copy d i lg hm =>
      cases d with
      | toLog => exact h.wroteLog hb hp
      | install => exact h.wroteHome hb hp
    | head => exact h.wroteHead hb hp
  | @clear t hp =>
    have ho := hb.out_of_ne (t := t) (hp ▸ rfl)
    refine ⟨?_, h.value, h.logged.clear, h.pins.clear (hp ▸ Nat.le_refl _) (hp ▸ rfl) ho, .clear,
      fun _ _ => NBUF_pos⟩
    refine (h.fresh.goto fun b hw => ?_).resize
      (forall_update (P := fun y => y.stage 0 = y.stage s.lh.length) (fun u hu => ?_) rfl)
    · rw [hp] at hw
      cases hw
    · rw [ho u hu, ho u hu]
  | @done t hp =>
    have hg : Coh start (s.goto t .idle) := by
      refine h.goto ?_ ?_ ?_ ?_ (fun hc => by cases hc) <;> rw [hp]
      · exact fun _ _ hj => hj
      · exact fun _ _ => Iff.rfl
      · exact fun _ hc => by cases hc
      · rfl
    exact ⟨hg.fresh, hg.value, hg.logged, hg.pins, hg.copy, hg.room⟩

end

theorem Base.not_reads (h : Base start s) (hl : s.lock b = some t) (hr : (s.pc t).reads = none)
    (u : T) : (s.pc u).reads ≠ some b := by
  intro hu
  have hlu : s.lock b = some u := by
    refine h.users.held u b ?_
    generalize s.pc u = x at hu
    cases x with
    | read c k =>
      cases hu
      exact List.mem_cons_self
    | _ => cases hu
  rw [hl] at hlu
  cases hlu
  rw [hr] at hu
  cases hu

theorem Unread.step (h : Unread s.pc s.fresh) (hb : Base start s) (hc : Coh start s)
    (hs : Step start s s') : Unread s'.pc s'.fresh := by
  have hgo : ∀ {t x}, x.reads = none → Unread (update s.pc t x) s.fresh :=
    fun hx => h.goto fun b hr => absurd (hx.symm.trans hr) nofun
  -- the committing process changes a buffer
  have hmove : ∀ {t b x y}, s.pc t = y → y.reads = none → b ∈ y.holds → x.reads = none →
      Unread (update s.pc t x) (update s.fresh b true) := by
    rintro t b x y rfl hr hm hx
    refine (h.change (hb.not_reads (hb.users.held t b hm) hr)).goto fun c hc => ?_
    exact absurd (hx.symm.trans hc) nofun
  cases hs with
  | beginOp | endOp | fetch => exact h
  | lastOp => exact hgo (by split_ifs <;> rfl)
  | change v hp hl => exact h.change (hb.not_reads hl (hp ▸ rfl))
  | append => exact (hgo rfl).clean
  | @bget s1 t b dev blockno k ha hg =>
    rcases bget_cases hg with ⟨-, rfl⟩ | ⟨-, -, rfl⟩ <;> exact hgo rfl
  | @acquire t b k hp hl =>
    refine h.goto fun c hr => ?_
    cases hr
    rw [← Bool.not_eq_true]
    intro hf
    obtain ⟨u, hu, -⟩ := hc.fresh b hf
    rw [hl] at hu
    cases hu
  | flushed => exact h.clean
  | got => exact hgo (Cont.next_reads ..)
  | unref => exact hgo (Rel.next_reads _)
  | @exit t d => exact hgo (by cases d <;> rfl)
  | @move t d i lg hm hp => exact hmove hp rfl (by cases d <;> simp [Pc.holds, Dir.dst]) rfl
  | fill hp => exact hmove hp rfl List.mem_cons_self rfl
  | bwrite hw => exact hgo hw.reads.2.1
  | wrote hw => exact (hgo hw.reads.2.2).clean
  | _ => exact hgo rfl

/-- **The invariants hold in every reachable state.** -/
theorem Reach.coh (h : Reach start s) : Base start s ∧ Coh start s ∧ Unread s.pc s.fresh := by
  induction h with
  | init => exact ⟨.init .., .init .., nofun⟩
  | step _ hs ih =>
    obtain ⟨hb, hc, hu⟩ := ih
    exact ⟨hb.step hs, hc.step hb hs, hu.step hb hc hs⟩

/-! ## The cache is coherent -/

/-- The process has written the header that commits the blocks of the log. -/
def Pc.committed : Pc → Bool
  | .want _ k | .read _ k =>
    match k with
    | .log .install _ | .home .install _ _ | .head true => true
    | _ => false
  | .unlocked _ r =>
    match r with
    | .src .install _ _ | .dst .install _ | .head _ => true
    | _ => false
  | .loop .install _ | .gotLog .install _ _ | .gotBoth .install _ _ _ | .moved .install _ _ _ => true
  | .writing .install _ _ _ | .written .install _ _ _ | .half .install _ _ | .clear => true
  | .head true | .gotHead true _ | .filled true _ | .writingHead true _ | .writtenHead _ _ => true
  | .done => true
  | _ => false

theorem Pc.installed_of_not_committed {x : Pc} (h : x.committed = false) (n : Nat) :
    (x.stage n).installed = 0 := by
  cases x with
  | want b k | read b k =>
    cases k with
    | client => rfl
    | log d i | home d i lg => cases d <;> first | rfl | cases h
    | head again => cases again <;> rfl
  | unlocked b r =>
    cases r with
    | client => rfl
    | src d i c | dst d i => cases d <;> first | rfl | cases h
    | head again => cases h
  | loop d i =>
    cases d with
    | toLog => cases i <;> rfl
    | install => cases h
  | gotLog d | gotBoth d | moved d | writing d | written d | half d =>
    cases d <;> first | rfl | cases h
  | head again | gotHead again | filled again | writingHead again => cases again <;> rfl
  | idle | append => rfl
  | writtenHead | clear | done => cases h

structure Coherent (start : Nat) (s : State T) : Prop where
  /-- `next` and `prev` are inverse to each other. -/
  inverse : ∀ x, s.links.next (s.links.prev x) = x ∧ s.links.prev (s.links.next x) = x
  /-- The links lead from the head through each buffer once and back to it. -/
  ring : ∃ l, Ring.Rings s.links l ∧ l.length = NBUF ∧ ∀ b, b ∈ l
  /-- Two buffers with a reference or `B_VALID` are of different blocks. -/
  distinct : ∀ b c, Live s.refcnt s.valid b → Live s.refcnt s.valid c → s.dev b = s.dev c →
    s.blockno b = s.blockno c → b = c
  /-- A `bread` that returns has a buffer of the block it was called for, with the data last passed
  to `log_write` for the block, or that on the disk. -/
  bread : ∀ t b k, s.pc t = .read b k → s.valid b = true →
    k.Key start s.dev s.blockno s.lh b ∧ s.data b = expect s.last s.disk (s.dev b) (s.blockno b)
  /-- `bget` recycles no buffer of a block that is in the log and not committed. -/
  kept : (∀ t, (s.pc t).committed = false) → ∀ b, s.victim = some b →
    ¬ (s.dev b = ROOTDEV ∧ s.blockno b ∈ s.lh)

/-- **The buffer cache is coherent**, for any processes and any order of their steps. -/
theorem bcache_coherent (h : Reach start s) : Coherent start s := by
  obtain ⟨hb, hc, hu⟩ := h.coh
  refine ⟨?_, ?_, fun b c => hb.ident.inj, fun t b k hp hv => ?_, fun hn b hv hm => ?_⟩
  · obtain ⟨l, hr, hm, -⟩ := hb.ident
    exact hr.inverse hm
  · obtain ⟨l, hr, hm, -⟩ := hb.ident
    refine ⟨l, hr, ?_, hm⟩
    rw [← List.toFinset_card_of_nodup hr.nodup, eq_univ_of_forall (s := l.toFinset) (by simpa),
      card_univ, Fintype.card_fin]
  · have hk : (Pc.read b k).Key start s.dev s.blockno s.lh := hp ▸ hb.keys t
    exact ⟨hk, hc.value b hv (hu t b (hp ▸ rfl))⟩
  · obtain ⟨hr, hd⟩ := hb.ident.victim_some hv
    obtain ⟨j, hj⟩ := List.mem_iff_getElem?.1 hm.2
    rcases hc.pins.pinned j _ hj with ⟨u, hu⟩ | ⟨c, h1, h2, h3, h4⟩
    · rw [Pc.installed_of_not_committed (hn u)] at hu
      cases hu
    · rcases hb.spare.spare b hr with hvb | hdb
      · rw [hb.ident.inj (.inr hvb) (.inr h3) (hm.1.trans h1.symm) h2.symm, h4] at hd
        cases hd
      · exact hdb hm.1

theorem first_bread : ∃ (s : State Unit) (b : Buf), Reach 2 s ∧
    s.pc () = .read b (.client ROOTDEV 40) ∧ s.valid b = true := by
  let s : State Unit := init (fun _ _ _ => 0) fun _ => 0
  have hn : ∀ b, ¬ (s.dev b = ROOTDEV ∧ s.blockno b = 40) :=
    fun b hb => absurd hb.1 (by decide : 0 ≠ ROOTDEV)
  obtain ⟨c, -, hc⟩ := bget_of_spare (t := ()) (b := ⟨0, NBUF_pos⟩) (.init ..) hn ⟨rfl, rfl⟩
  have h1 : Reach 2 _ := .step .init (.bget (.client ROOTDEV 40) hc)
  have h2 := h1.step (.acquire (t := ()) (b := c) (k := .client ROOTDEV 40)
    (by simp [State.goto]) rfl)
  have h3 := h2.step (.fetch (t := ()) (b := c) (k := .client ROOTDEV 40)
    (by simp [State.goto]) (by simp [State.goto, State.recycle])
    (by simp [State.goto, State.recycle]))
  exact ⟨_, c, h3, by simp [State.goto, State.fetch], by simp [State.fetch]⟩

theorem bcache_coherent_bread : ∃ (s : State Unit) (b : Buf), Reach 2 s ∧
    s.pc () = .read b (.client ROOTDEV 40) ∧ s.valid b = true ∧ Coherent 2 s := by
  obtain ⟨s, b, hr, hp, hv⟩ := first_bread
  exact ⟨s, b, hr, hp, hv, bcache_coherent hr⟩

end Bio
