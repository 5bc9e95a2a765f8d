import Mathlib.Data.List.Basic
import Xv6.Net.Ring

/-!
# The receive ring

`i8254_init_recv` leaves `rdt` at 256, which is not the index of a descriptor. Only an iteration of
the loop of `i8254_recv` that finds a frame changes `rdt`, and it uses the index 256
(`Untouched.some`). The step back of `rdt` makes the next iteration find a frame, whether one has
arrived or not (`Reach.back`).
-/

namespace I8254

open Bytes

namespace Rx

def Holds (m : Store) (f : Frame) : Prop := slice m 0 f.length = f

/-- Each index used is that of a descriptor, the frames passed are the first ones stored, in order,
and an iteration finds no frame only if each one stored has been passed. -/
structure Once (s : Rx) : Prop where
  used : ∀ i ∈ s.used, i < I8254_RECV_DESC_NUM
  passed : ∃ fs rest, s.stored = fs ++ rest ∧ List.Forall₂ Holds s.passed fs
  missed : s.missed = []

structure Untouched (s : Rx) : Prop where
  rdh : s.rdh < I8254_RECV_DESC_NUM
  rdt : s.rdt = I8254_RECV_DESC_NUM
  pc : s.pc = .top ∨ s.pc = .check
  used : s.used = []
  passed : s.passed = []
  missed : s.missed = []
  /-- The number of the frames stored, modulo the size of the ring. -/
  stored : s.stored.length % I8254_RECV_DESC_NUM = s.rdh

section
variable {s s' s0 : Rx}

theorem Untouched.init (kalloc : Nat → Nat) (ring : Nat) (mem : Store) :
    Untouched (init kalloc ring mem) :=
  ⟨show 0 < I8254_RECV_DESC_NUM by decide, rfl, .inl rfl, rfl, rfl, rfl, rfl⟩

theorem Untouched.once (h : Untouched s) : Once s where
  used i hi := by
    rw [h.used] at hi
    exact absurd hi List.not_mem_nil
  passed := ⟨[], s.stored, rfl, by rw [h.passed]; exact .nil⟩
  missed := h.missed

theorem Untouched.rxAvailable (h : Untouched s) : s.rxAvailable = s.rdh := by
  have := h.rdh
  rw [Rx.rxAvailable, h.rdt]
  simp only [uint, I8254_RECV_DESC_NUM] at *
  omega

theorem Untouched.step (h : Untouched s) (hs : Step (fun s => s.stored = []) s s') :
    Untouched s' := by
  cases hs with
  | arrive hne =>
    refine ⟨Nat.mod_lt _ (by decide), h.rdt, h.pc, h.used, h.passed, h.missed, ?_⟩
    rw [List.length_append, List.length_singleton, Nat.add_mod, h.stored]
    rfl
  | some _ hok hav =>
    have hrdh := h.stored
    rw [h.rxAvailable] at hav
    rw [hok] at hrdh
    exact absurd hrdh.symm (Nat.ne_of_gt hav)
  | none _ hok _ =>
    refine ⟨h.rdh, h.rdt, .inr rfl, h.used, h.passed, ?_, h.stored⟩
    show s.missed ++ s.stored.drop s.passed.length = []
    rw [h.missed, hok, List.drop_nil]
    rfl
  | take hpc => rcases h.pc with h' | h' <;> rw [h'] at hpc <;> cases hpc
  | proc hpc => rcases h.pc with h' | h' <;> rw [h'] at hpc <;> cases hpc
  | back _ heq =>
    have := h.rdh
    have := h.rdt
    omega
  | next _ _ => exact ⟨h.rdh, h.rdt, .inl rfl, h.used, h.passed, h.missed, h.stored⟩

theorem Reach.untouched (h : Reach (fun s => s.stored = []) s0 s) (h0 : Untouched s0) :
    Untouched s := by
  induction h with
  | refl => exact h0
  | step _ hs ih => exact ih.step hs

def anyTime : Rx → Prop := fun _ => True

theorem Untouched.some (h : Untouched s) (hpc : s.pc = .top) (hrdh : s.rdh ≠ 0) :
    ∃ s', Reach anyTime s s' ∧ 256 ∈ s'.used := by
  have hav : 0 < s.rxAvailable := by
    rw [h.rxAvailable]
    exact Nat.pos_of_ne_zero hrdh
  refine ⟨_, (Reach.refl.step (.some hpc trivial hav)).step (.take rfl), ?_⟩
  exact List.mem_append_right _ (List.mem_singleton.2 h.rdt.symm)

theorem Untouched.none (h : Untouched s) (hpc : s.pc = .top) (hrdh : s.rdh = 0)
    (hst : s.stored ≠ []) : ∃ s', Reach anyTime s s' ∧ s'.missed ≠ [] := by
  have hav : ¬ 0 < s.rxAvailable := by
    rw [h.rxAvailable, hrdh]
    exact Nat.lt_irrefl 0
  refine ⟨_, Reach.refl.step (.none hpc trivial hav), ?_⟩
  show s.missed ++ s.stored.drop s.passed.length ≠ []
  rw [h.missed, h.passed]
  exact hst

/-- **Each stored frame is passed once**, in the runs in which no iteration begins after a frame has
been stored, and in no others. -/
theorem receive_once {kalloc : Nat → Nat} {ring : Nat} {mem : Store}
    (h : Reach (fun s => s.stored = []) (init kalloc ring mem) s) :
    Once s ∧ (s.pc = .top → s.stored ≠ [] → ∃ s', Reach anyTime s s' ∧ ¬ Once s') := by
  have hu := h.untouched (.init kalloc ring mem)
  refine ⟨hu.once, fun hpc hst => ?_⟩
  by_cases hrdh : s.rdh = 0
  · obtain ⟨s', hs', hm⟩ := hu.none hpc hrdh hst
    exact ⟨s', hs', fun ho => hm ho.missed⟩
  · obtain ⟨s', hs', hm⟩ := hu.some hpc hrdh
    exact ⟨s', hs', fun ho => absurd (ho.used 256 hm) (by decide)⟩

end

theorem receive_once_first : ∃ s, Reach anyTime (init (fun i => 4096 * (i + 2)) 4096 (fill 1)) s ∧
    s.stored = [[7]] ∧ s.used = [256] ∧ ¬ Once s := by
  have h1 : Reach anyTime (init (fun i => 4096 * (i + 2)) 4096 (fill 1)) _ :=
    Reach.refl.step (.arrive (f := [7]) (show 0 ≠ 256 by decide))
  have h2 := h1.step (.some rfl trivial (by decide))
  refine ⟨_, h2.step (.take rfl), rfl, rfl, fun ho => ?_⟩
  exact absurd (ho.used 256 (List.mem_singleton_self _)) (by decide)

theorem receive_once_arrived : ∃ s, Reach (fun s => s.stored = [])
    (init (fun i => 4096 * (i + 2)) 4096 (fill 1)) s ∧ s.stored = [[7]] ∧ Once s :=
  have h : Reach (fun s => s.stored = []) (init (fun i => 4096 * (i + 2)) 4096 (fill 1)) _ :=
    Reach.refl.step (.arrive (f := [7]) (show 0 ≠ 256 by decide))
  ⟨_, h, rfl, (receive_once h).1⟩

end Rx

end I8254
