import Mathlib.Data.List.Basic
import Xv6.Net.Ring

/-!
# The transmit ring

The frames sent are those that the card has taken and those in the descriptors that it has still to
take, in order, while every call of `i8254_send` finds `Room`. `i8254_send` does not check for it
(`send_fills_ring`), and `i8254_init_send` gives buffers to the first 129 descriptors only.
-/

namespace I8254

open Bytes

def Apart (a m b n : Nat) : Prop := a + m ≤ b ∨ b + n ≤ a

namespace Tx

structure Room (s : Tx) (data : Frame) : Prop where
  few : s.pending < 255
  short : data.length < 2 ^ 16
  ring : Apart (s.bufAddr s.tdt) data.length s.tdbal (DESCSIZE * I8254_SEND_DESC_NUM)
  buffers : ∀ i < s.pending, Apart (s.bufAddr s.tdt) data.length
    (s.bufAddr ((s.tdh + i) % I8254_SEND_DESC_NUM)) (s.len ((s.tdh + i) % I8254_SEND_DESC_NUM))

/-- The card took the frames sent, in order and as they were, up to those it has still to take; and
a call returned -1 exactly if 255 descriptors were pending. -/
structure Delivers (s : Tx) : Prop where
  frames : s.sent = s.consumed ++ s.pendingFrames
  results : ∀ c ∈ s.calls, c.result = -1 ↔ c.pending = 255

/-- The descriptors that the card has still to take and their frames are not overwritten. -/
structure Kept (s s' : Tx) : Prop where
  desc : ∀ i < s.pending, ∀ a < DESCSIZE,
    s'.mem (s.desc ((s.tdh + i) % I8254_SEND_DESC_NUM) + a) =
      s.mem (s.desc ((s.tdh + i) % I8254_SEND_DESC_NUM) + a)
  frame : ∀ i < s.pending, s'.frame ((s.tdh + i) % I8254_SEND_DESC_NUM) =
    s.frame ((s.tdh + i) % I8254_SEND_DESC_NUM)

def PcInv (s : Tx) : TxPc → Prop
  | .idle => True
  | .fill data n index => index = s.tdt ∧ n < 255 ∧ Room s data
  | .kick data n => n < 255 ∧ s.pending < 255 ∧ s.frame s.tdt = data ∧
    Apart (s.bufAddr s.tdt) (s.len s.tdt) s.tdbal (DESCSIZE * I8254_SEND_DESC_NUM)

/-- What was sent is consumed, or waits in the ring. -/
structure Inv (s : Tx) : Prop where
  tdh : s.tdh < I8254_SEND_DESC_NUM
  tdt : s.tdt < I8254_SEND_DESC_NUM
  frames : s.sent = s.consumed ++ s.pendingFrames
  results : ∀ c ∈ s.calls, c.result = c.data.length ∧ c.pending < 255
  buffers : ∀ i < s.pending, Apart (s.bufAddr ((s.tdh + i) % I8254_SEND_DESC_NUM))
    (s.len ((s.tdh + i) % I8254_SEND_DESC_NUM)) s.tdbal (DESCSIZE * I8254_SEND_DESC_NUM)
  pc : PcInv s s.pc

section
variable {s s' s0 : Tx} {data : Frame} {ok : Tx → Frame → Prop}

/-! ## Indices -/

section
variable (h : s.tdh < I8254_SEND_DESC_NUM) (h' : s.tdt < I8254_SEND_DESC_NUM)
include h h'

theorem pending_eq : s.pending = (256 - s.tdh + s.tdt) % 256 := by
  simp only [pending, uint, I8254_SEND_DESC_NUM] at *
  omega

theorem tail_eq : (s.tdh + s.pending) % I8254_SEND_DESC_NUM = s.tdt := by
  rw [pending_eq h h']
  simp only [I8254_SEND_DESC_NUM] at *
  omega

theorem pending_ne_tail
    {i : Nat} (hi : i < s.pending) : (s.tdh + i) % I8254_SEND_DESC_NUM ≠ s.tdt := by
  rw [pending_eq h h'] at hi
  simp only [I8254_SEND_DESC_NUM] at *
  omega

end

theorem txAvailable_pos (s : Tx) : 0 < s.txAvailable := by
  simp only [txAvailable, I8254_SEND_DESC_NUM]
  omega

/-! ## The card -/

def taken (s : Tx) : Tx :=
  { s with tdh := (s.tdh + 1) % I8254_SEND_DESC_NUM, consumed := s.consumed ++ [s.frame s.tdh] }

theorem taken_tdh_lt (s : Tx) : s.taken.tdh < I8254_SEND_DESC_NUM := Nat.mod_lt _ (by decide)

theorem taken_index (s : Tx) (i : Nat) : (s.taken.tdh + i) % I8254_SEND_DESC_NUM =
    (s.tdh + (i + 1)) % I8254_SEND_DESC_NUM := by
  show ((s.tdh + 1) % I8254_SEND_DESC_NUM + i) % _ = _
  rw [Nat.mod_add_mod, Nat.add_assoc, Nat.add_comm 1 i]

theorem taken_pending (h : s.tdh < I8254_SEND_DESC_NUM) (h' : s.tdt < I8254_SEND_DESC_NUM)
    (hne : s.tdh ≠ s.tdt) : s.pending = s.taken.pending + 1 := by
  rw [pending_eq h h', pending_eq s.taken_tdh_lt h']
  show _ = (256 - (s.tdh + 1) % I8254_SEND_DESC_NUM + s.tdt) % 256 + 1
  simp only [I8254_SEND_DESC_NUM] at *
  omega

theorem taken_frames (h : s.tdh < I8254_SEND_DESC_NUM) (h' : s.tdt < I8254_SEND_DESC_NUM)
    (hne : s.tdh ≠ s.tdt) : s.pendingFrames = s.frame s.tdh :: s.taken.pendingFrames := by
  rw [pendingFrames, taken_pending h h' hne, List.range_succ_eq_map, List.map_cons, List.map_map,
    pendingFrames, Nat.add_zero, Nat.mod_eq_of_lt h]
  refine congrArg _ (List.map_congr_left fun i _ => ?_)
  rw [taken_index]
  rfl

theorem Room.taken (h : Room s data) (hp : s.pending = s.taken.pending + 1) :
    Room s.taken data where
  few := by
    have := h.few
    omega
  short := h.short
  ring := h.ring
  buffers i hi := by
    rw [taken_index]
    exact h.buffers (i + 1) (by omega)

theorem PcInv.taken {pc : TxPc} (h : PcInv s pc) (hp : s.pending = s.taken.pending + 1) :
    PcInv s.taken pc := by
  cases pc with
  | idle => trivial
  | fill data n index => exact ⟨h.1, h.2.1, h.2.2.taken hp⟩
  | kick data n => exact ⟨h.1, (by have := h.2.1; omega), h.2.2⟩

theorem Inv.taken (h : Inv s) (hne : s.tdh ≠ s.tdt) : Inv s.taken where
  tdh := s.taken_tdh_lt
  tdt := h.tdt
  frames := by
    have hf := h.frames
    rw [taken_frames h.tdh h.tdt hne] at hf
    show s.sent = s.consumed ++ [s.frame s.tdh] ++ s.taken.pendingFrames
    rw [hf, List.append_assoc, List.singleton_append]
  results := h.results
  buffers i hi := by
    rw [taken_index]
    exact h.buffers (i + 1) (by have := taken_pending h.tdh h.tdt hne; omega)
  pc := h.pc.taken (taken_pending h.tdh h.tdt hne)

/-! ## The sender -/

theorem fillDesc_other {index a : Nat} (h : a < s.bufAddr index ∨ s.bufAddr index + data.length ≤ a)
    (h' : a < s.desc index ∨ s.desc index + DESCSIZE ≤ a) : s.fillDesc data index a = s.mem a := by
  simp only [DESCSIZE] at h'
  simp (disch := omega) only [fillDesc, put8_other, put16_other, putList_other]

theorem desc_bounds (s : Tx) {i : Nat} (hi : i < I8254_SEND_DESC_NUM) : s.tdbal ≤ s.desc i ∧
    s.desc i + DESCSIZE ≤ s.tdbal + DESCSIZE * I8254_SEND_DESC_NUM := by
  simp only [desc, DESCSIZE, I8254_SEND_DESC_NUM] at *
  omega

theorem desc_apart (s : Tx) {i j : Nat} (hij : i ≠ j) :
    s.desc i + DESCSIZE ≤ s.desc j ∨ s.desc j + DESCSIZE ≤ s.desc i := by
  simp only [desc, DESCSIZE]
  omega

def filled (s : Tx) (data : Frame) (n : Nat) : Tx :=
  { s with mem := s.fillDesc data s.tdt, pc := .kick data n }

theorem filled_mem (hr : Room s data) {n i a : Nat} (hi : i < I8254_SEND_DESC_NUM) (hne : i ≠ s.tdt)
    (h1 : s.desc i ≤ a) (h2 : a < s.desc i + DESCSIZE) : (s.filled data n).mem a = s.mem a := by
  have hb := s.desc_bounds hi
  have hd := s.desc_apart hne
  have hring := hr.ring
  unfold Apart at hring
  exact fillDesc_other (by omega) (by omega)

theorem filled_desc (hr : Room s data) {n i : Nat} (hi : i < I8254_SEND_DESC_NUM) (hne : i ≠ s.tdt) :
    (s.filled data n).bufAddr i = s.bufAddr i ∧ (s.filled data n).len i = s.len i := by
  have hsize : DESCSIZE = 16 := rfl
  have hsame : ∀ a, s.desc i ≤ a → a < s.desc i + 16 → s.fillDesc data s.tdt a = s.mem a :=
    fun a h1 h2 => filled_mem (n := n) hr hi hne h1 (by omega)
  constructor
  · show get32 (s.fillDesc data s.tdt) (s.desc i) = get32 s.mem (s.desc i)
    exact get32_congr fun a h1 h2 => hsame a h1 (by omega)
  · show get16 (s.fillDesc data s.tdt) (s.desc i + 8) = get16 s.mem (s.desc i + 8)
    exact get16_congr fun a h1 h2 => hsame a (by omega) (by omega)

theorem filled_tail (h' : s.tdt < I8254_SEND_DESC_NUM) (hr : Room s data) {n : Nat} :
    (s.filled data n).bufAddr s.tdt = s.bufAddr s.tdt ∧
      (s.filled data n).len s.tdt = data.length ∧ (s.filled data n).frame s.tdt = data := by
  have hb := s.desc_bounds h'
  have hring := hr.ring
  have hsize : DESCSIZE = 16 := rfl
  unfold Apart at hring
  have haddr : (s.filled data n).bufAddr s.tdt = s.bufAddr s.tdt := by
    show get32 (s.fillDesc data s.tdt) (s.desc s.tdt) = get32 s.mem (s.desc s.tdt)
    refine get32_congr fun a h1 h2 => ?_
    simp (disch := omega) only [fillDesc, put8_other, put16_other, putList_other]
  have hlen : (s.filled data n).len s.tdt = data.length := by
    have : get16 (s.fillDesc data s.tdt) (s.desc s.tdt + 8) =
        get16 (put16 (fill 0) (s.desc s.tdt + 8) data.length) (s.desc s.tdt + 8) := by
      refine get16_congr fun a h1 h2 => ?_
      simp (disch := omega) only [fillDesc, put8_other, put16_other]
      exact put16_congr h1 h2
    show get16 (s.fillDesc data s.tdt) (s.desc s.tdt + 8) = _
    rw [this, get16_put16]
    exact Nat.mod_eq_of_lt hr.short
  refine ⟨haddr, hlen, ?_⟩
  rw [frame, haddr, hlen]
  refine Eq.trans (slice_congr fun a h1 h2 => ?_) (slice_putList s.mem (s.bufAddr s.tdt) data)
  show s.fillDesc data s.tdt a = _
  simp (disch := omega) only [fillDesc, put8_other, put16_other]

theorem filled_frame (h : Inv s) (hr : Room s data) {n i : Nat} (hi : i < s.pending) :
    (s.filled data n).frame ((s.tdh + i) % I8254_SEND_DESC_NUM) =
      s.frame ((s.tdh + i) % I8254_SEND_DESC_NUM) := by
  have hj : (s.tdh + i) % I8254_SEND_DESC_NUM < I8254_SEND_DESC_NUM := Nat.mod_lt _ (by decide)
  have hapart := hr.buffers i hi
  have hring := h.buffers i hi
  have hb := s.desc_bounds h.tdt
  obtain ⟨haddr, hlen⟩ := filled_desc hr (n := n) hj (pending_ne_tail h.tdh h.tdt hi)
  rw [frame, haddr, hlen]
  unfold Apart at hapart hring
  exact slice_congr fun a h1 h2 => fillDesc_other (by omega) (by omega)

theorem Inv.kept_filled (h : Inv s) (hr : Room s data) {n : Nat} : Kept s (s.filled data n) where
  desc i hi a ha := filled_mem hr (Nat.mod_lt _ (by decide)) (pending_ne_tail h.tdh h.tdt hi)
    (Nat.le_add_right _ _) (Nat.add_lt_add_left ha _)
  frame _ hi := filled_frame h hr hi

theorem Inv.filled (h : Inv s) (hr : Room s data) {n : Nat} (hn : n < 255) :
    Inv (s.filled data n) where
  tdh := h.tdh
  tdt := h.tdt
  frames := by
    have hp : (s.filled data n).pendingFrames = s.pendingFrames :=
      List.map_congr_left fun i hi => filled_frame h hr (List.mem_range.1 hi)
    rw [hp]
    exact h.frames
  results := h.results
  buffers i hi := by
    have hj : (s.tdh + i) % I8254_SEND_DESC_NUM < I8254_SEND_DESC_NUM := Nat.mod_lt _ (by decide)
    obtain ⟨haddr, hlen⟩ := filled_desc hr (n := n) hj (pending_ne_tail h.tdh h.tdt hi)
    show Apart ((s.filled data n).bufAddr ((s.tdh + i) % I8254_SEND_DESC_NUM))
      ((s.filled data n).len ((s.tdh + i) % I8254_SEND_DESC_NUM)) s.tdbal _
    rw [haddr, hlen]
    exact h.buffers i hi
  pc := by
    obtain ⟨haddr, hlen, hframe⟩ := filled_tail h.tdt hr (n := n)
    refine ⟨hn, hr.few, hframe, ?_⟩
    show Apart ((s.filled data n).bufAddr s.tdt) ((s.filled data n).len s.tdt) s.tdbal _
    rw [haddr, hlen]
    exact hr.ring

def kicked (s : Tx) (data : Frame) (n : Nat) : Tx :=
  { s with
    tdt := (s.tdt + 1) % I8254_SEND_DESC_NUM, pc := .idle,
    calls := s.calls ++ [⟨data, n, data.length⟩] }

theorem kicked_pending (h : s.tdh < I8254_SEND_DESC_NUM) (h' : s.tdt < I8254_SEND_DESC_NUM) {n : Nat}
    (hp : s.pending < 255) : (s.kicked data n).pending = s.pending + 1 := by
  have hlt : (s.kicked data n).tdt < I8254_SEND_DESC_NUM := Nat.mod_lt _ (by decide)
  rw [pending_eq h h'] at hp ⊢
  rw [pending_eq (s := s.kicked data n) h hlt]
  show (256 - s.tdh + (s.tdt + 1) % I8254_SEND_DESC_NUM) % 256 = _
  simp only [I8254_SEND_DESC_NUM] at *
  omega

theorem Inv.kicked (h : Inv s) {n : Nat} (hn : n < 255) (hp : s.pending < 255)
    (hf : s.frame s.tdt = data)
    (hring : Apart (s.bufAddr s.tdt) (s.len s.tdt) s.tdbal (DESCSIZE * I8254_SEND_DESC_NUM)) :
    Inv (s.kicked data n) where
  tdh := h.tdh
  tdt := Nat.mod_lt _ (by decide)
  frames := by
    have hpf : (s.kicked data n).pendingFrames = s.pendingFrames ++ [data] := by
      rw [pendingFrames, kicked_pending h.tdh h.tdt hp, List.range_succ, List.map_append,
        List.map_singleton]
      show _ ++ [s.frame ((s.tdh + s.pending) % I8254_SEND_DESC_NUM)] = _
      rw [tail_eq h.tdh h.tdt, hf]
      rfl
    have hsent : (s.kicked data n).sent = s.sent ++ [data] := by
      simp [sent, Tx.kicked]
    rw [hpf, hsent, h.frames, List.append_assoc]
    rfl
  results c hc := by
    rcases List.mem_append.1 hc with hc | hc
    · exact h.results c hc
    · rw [List.mem_singleton.1 hc]
      exact ⟨rfl, hn⟩
  buffers i hi := by
    rw [kicked_pending h.tdh h.tdt hp] at hi
    by_cases hlast : i = s.pending
    · subst hlast
      show Apart (s.bufAddr ((s.tdh + s.pending) % I8254_SEND_DESC_NUM)) (s.len ((s.tdh + s.pending) %
        I8254_SEND_DESC_NUM)) s.tdbal _
      rw [tail_eq h.tdh h.tdt]
      exact hring
    · exact h.buffers i (by omega)
  pc := trivial

theorem pending_init (kalloc : Nat → Nat) (ring : Nat) (mem : Store) :
    (init kalloc ring mem).pending = 0 := by
  rw [pending_eq (show 0 < I8254_SEND_DESC_NUM by decide) (show 0 < I8254_SEND_DESC_NUM by decide)]
  show (256 - 0 + 0) % 256 = 0
  rfl

theorem bufAddr_init {kalloc : Nat → Nat} (h : kalloc 0 ≠ 0) (ring : Nat) (mem : Store) :
    (init kalloc ring mem).bufAddr 0 = kalloc 0 % 2 ^ 32 :=
  get32_initRing (by decide) h

theorem Inv.init {kalloc : Nat → Nat} {ring : Nat} {mem : Store} : Inv (init kalloc ring mem) where
  tdh := show 0 < I8254_SEND_DESC_NUM by decide
  tdt := show 0 < I8254_SEND_DESC_NUM by decide
  frames := by
    rw [pendingFrames, pending_init]
    rfl
  results _ hc := absurd hc List.not_mem_nil
  buffers i hi := by
    rw [pending_init] at hi
    exact absurd hi (Nat.not_lt_zero i)
  pc := trivial

/-! ## Runs -/

theorem Inv.step (h : Inv s) (hs : Step Room s s') : Inv s' := by
  have hpc := h.pc
  cases hs with
  | call hidle hok _ =>
    refine ⟨h.tdh, h.tdt, h.frames, h.results, h.buffers, Nat.mod_eq_of_lt h.tdt, hok.few, ?_⟩
    exact ⟨hok.few, hok.short, hok.ring, hok.buffers⟩
  | full _ _ hfull => exact absurd s.txAvailable_pos hfull
  | fill hfill =>
    rw [hfill] at hpc
    obtain ⟨rfl, hn, hr⟩ := hpc
    exact h.filled hr hn
  | kick hkick =>
    rw [hkick] at hpc
    obtain ⟨hn, hp, hf, hring⟩ := hpc
    exact h.kicked hn hp hf hring
  | card hne => exact h.taken hne

theorem Inv.kept (h : Inv s) (hs : Step Room s s') : Kept s s' := by
  have hpc := h.pc
  cases hs with
  | fill hfill =>
    rw [hfill] at hpc
    obtain ⟨rfl, -, hr⟩ := hpc
    exact h.kept_filled hr
  | _ => exact ⟨fun _ _ _ _ => rfl, fun _ _ => rfl⟩

theorem Reach.inv (h : Reach Room s0 s) (h0 : Inv s0) : Inv s := by
  induction h with
  | refl => exact h0
  | step _ hs ih => exact ih.step hs

theorem Inv.delivers (h : Inv s) : Delivers s where
  frames := h.frames
  results c hc := by
    obtain ⟨hr, hp⟩ := h.results c hc
    constructor
    · intro h1
      omega
    · intro h255
      omega

/-- **The transmit ring loses nothing**, in the runs whose calls all find room. -/
theorem transmit_delivers {kalloc : Nat → Nat} {ring : Nat} {mem : Store}
    (h : Reach Room (init kalloc ring mem) s) : Delivers s ∧ ∀ s', Step Room s s' → Kept s s' :=
  ⟨(h.inv .init).delivers, fun _ hs => (h.inv .init).kept hs⟩

/-! ### A full ring -/

def anyCall : Tx → Frame → Prop := fun _ _ => True

theorem Reach.send (h : Reach ok s0 s) (hpc : s.pc = .idle) (data : Frame) (hok : ok s data) :
    ∃ s', Reach ok s0 s' ∧ s'.pc = .idle ∧ s'.tdh = s.tdh ∧
      s'.tdt = (s.tdt + 1) % I8254_SEND_DESC_NUM ∧ s'.consumed = s.consumed ∧
      s'.calls = s.calls ++ [⟨data, s.pending, data.length⟩] := by
  have h1 := h.step (.call hpc hok s.txAvailable_pos)
  have h2 := h1.step (.fill rfl)
  exact ⟨_, h2.step (.kick rfl), rfl, rfl, rfl, rfl, rfl⟩

theorem exists_sends (h : Reach anyCall s0 s) (hpc : s.pc = .idle) (htdh : s.tdh = 0)
    (htdt : s.tdt = 0) (hcons : s.consumed = []) (hcalls : s.calls = []) (n : Nat) :
    ∃ s', Reach anyCall s0 s' ∧ s'.pc = .idle ∧ s'.tdh = 0 ∧ s'.tdt = n % I8254_SEND_DESC_NUM ∧
      s'.consumed = [] ∧ s'.sent.length = n := by
  induction n with
  | zero => exact ⟨s, h, hpc, htdh, htdt, hcons, by rw [sent, hcalls]; rfl⟩
  | succ n ih =>
    obtain ⟨t, ht, hpc, htdh, htdt, hcons, hsent⟩ := ih
    obtain ⟨t', ht', hpc', htdh', htdt', hcons', hcalls'⟩ := ht.send hpc [] trivial
    refine ⟨t', ht', hpc', htdh'.trans htdh, ?_, hcons'.trans hcons, ?_⟩
    · rw [htdt', htdt, Nat.mod_add_mod]
    · rw [sent, hcalls', List.filter_append, List.map_append, List.length_append, ← sent, hsent]
      rfl

end

/-- After 256 calls without a step of the card the ring is empty, and no frame is left for the card
to take. -/
theorem send_fills_ring : ∃ s, Reach anyCall (init (fun i => 4096 * (i + 2)) 4096 (fill 1)) s ∧
    s.sent.length = 256 ∧ s.consumed = [] ∧ s.pendingFrames = [] ∧
    (∃ c ∈ s.calls, c.pending = 255 ∧ c.result = c.data.length) ∧ ¬ Delivers s := by
  obtain ⟨t, ht, hpc, htdh, htdt, hcons, hsent⟩ :=
    exists_sends (.refl : Reach anyCall (init (fun i => 4096 * (i + 2)) 4096 (fill 1)) _) rfl rfl rfl rfl
      rfl 255
  obtain ⟨s, hs, -, htdh', htdt', hcons', hcalls⟩ :=
    ht.send hpc [] trivial
  have hpend : t.pending = 255 := by
    rw [pending_eq (by rw [htdh]; decide) (by rw [htdt]; decide), htdh, htdt]
    rfl
  have hpend' : s.pending = 0 := by
    rw [pending_eq (by rw [htdh', htdh]; decide) (by rw [htdt', htdt]; decide), htdh', htdt', htdh,
      htdt]
    rfl
  have hsent' : s.sent.length = 256 := by
    rw [sent, hcalls, List.filter_append, List.map_append, List.length_append, ← sent, hsent]
    rfl
  have hframes : s.pendingFrames = [] := by
    rw [pendingFrames, hpend']
    rfl
  refine ⟨s, hs, hsent', hcons'.trans hcons, hframes, ⟨⟨[], t.pending, 0⟩, ?_, hpend, rfl⟩, ?_⟩
  · rw [hcalls]
    exact List.mem_append_right _ (List.mem_singleton_self _)
  · intro hd
    have hf := hd.frames
    rw [hframes, hcons'.trans hcons] at hf
    rw [hf] at hsent'
    exact absurd hsent' (by decide)

/-- A frame is sent, and the card takes it. -/
theorem transmit_delivers_one : ∃ s, Reach Room (init (fun i => 4096 * (i + 2)) 4096 (fill 1)) s ∧
    s.sent = [[7]] ∧ s.consumed = [[7]] := by
  have hroom : Room (init (fun i => 4096 * (i + 2)) 4096 (fill 1)) [7] := by
    refine ⟨by rw [pending_init]; decide, by decide, ?_, fun i hi => ?_⟩
    · show Apart ((init (fun i => 4096 * (i + 2)) 4096 (fill 1)).bufAddr 0) 1 4096 4096
      rw [bufAddr_init (by decide)]
      exact Or.inr (by decide)
    · rw [pending_init] at hi
      exact absurd hi (Nat.not_lt_zero i)
  obtain ⟨s, hs, -, htdh, htdt, -, hcalls⟩ := Reach.send .refl rfl [7] hroom
  have hsent : s.sent = [[7]] := by
    rw [sent, hcalls]
    rfl
  have hcard := hs.step (.card (by rw [htdh, htdt]; decide))
  have hpend : ({ s with
      tdh := (s.tdh + 1) % I8254_SEND_DESC_NUM, consumed := s.consumed ++ [s.frame s.tdh] }
        : Tx).pending = 0 := by
    rw [pending_eq (by simp only [htdh]; decide) (by simp only [htdt]; decide)]
    simp only [htdh, htdt]
    rfl
  have hframes := (transmit_delivers hcard).1.frames
  rw [pendingFrames, hpend, List.range_zero, List.map_nil, List.append_nil] at hframes
  exact ⟨_, hcard, hsent, hframes.symm.trans hsent⟩

end Tx

end I8254
