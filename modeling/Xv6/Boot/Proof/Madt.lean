import Mathlib.Data.List.Nodup
import Xv6.Base.Fuel
import Xv6.Boot.Madt

/-!
# Which tables the walks get through

A walk is `Right` when it ends, has visited exactly the entries of the table and has read only inside
of it. Both walks are iff every entry is one they are made for (`madt_walked`).
-/

namespace Boot

open Bytes Param

/-- The entries from `i` on, of at least two bytes each, end exactly at `len`. -/
inductive Entries (m : Store) (len : Nat) : Nat → List Nat → Prop
  | done : Entries m len len []
  | entry {i : Nat} {offs : List Nat} (two : 2 ≤ (m (i + 1)).toNat)
      (fits : i + (m (i + 1)).toNat ≤ len) (rest : Entries m len (i + (m (i + 1)).toNat) offs) :
      Entries m len i (i :: offs)

section Walk

variable {σ : Type} {w : Walk σ} {m : Store} {len i : Nat} {s : σ} {offs : List Nat}

def Walk.Right (w : Walk σ) (m : Store) (len i : Nat) (s : σ) (offs : List Nat) : Prop :=
  ∃ fuel t visited reads, w.run m len fuel i s = some (t, visited, reads) ∧ visited = offs ∧
    ∀ r ∈ reads, r < len

/-- The round at the entry at `i` leads to the entry after it, or, from the last one, out of the
table. -/
def Goes (m : Store) (len word i : Nat) : Prop :=
  advance m i % word = i + (m (i + 1)).toNat ∨
    i + (m (i + 1)).toNat = len ∧ len ≤ advance m i % word

theorem Walk.right_nil (h : len ≤ i) : w.Right m len i s [] :=
  ⟨1, s, [], [], by simp [Walk.run, Nat.not_lt.mpr h], rfl, by simp⟩

theorem Walk.right_cons (h : i < len) : w.Right m len i s (i :: offs) ↔
    (∀ r ∈ w.reads m i s, r < len) ∧ w.Right m len (advance m i % w.word) (w.entry m i s) offs := by
  constructor
  · rintro ⟨fuel, t, v, rs, hrun, hv, hr⟩
    cases fuel with
    | zero => cases hrun
    | succ k =>
      simp only [Walk.run, if_pos h, Option.map_eq_some_iff, Prod.mk.injEq] at hrun
      obtain ⟨⟨t', v', rs'⟩, hrun, rfl, rfl, rfl⟩ := hrun
      obtain ⟨-, rfl⟩ := List.cons.inj hv
      exact ⟨fun r hm => hr r (List.mem_append_left _ hm), k, _, _, _, hrun, rfl,
        fun r hm => hr r (List.mem_append_right _ hm)⟩
  · rintro ⟨hr, fuel, t, v, rs, hrun, rfl, hrs⟩
    refine ⟨fuel + 1, t, i :: v, w.reads m i s ++ rs, ?_, rfl, fun r hm => ?_⟩
    · simp [Walk.run, h, hrun]
    · exact (List.mem_append.mp hm).elim (hr r) (hrs r)

theorem Walk.Right.head (h : w.Right m len i s offs) :
    (len ≤ i ∧ offs = []) ∨ (i < len ∧ ∃ l, offs = i :: l) := by
  obtain ⟨fuel, t, v, rs, hrun, rfl, -⟩ := h
  cases fuel with
  | zero => cases hrun
  | succ k =>
    by_cases hi : i < len
    · simp only [Walk.run, if_pos hi, Option.map_eq_some_iff, Prod.mk.injEq] at hrun
      obtain ⟨⟨t', v', rs'⟩, -, -, rfl, -⟩ := hrun
      exact .inr ⟨hi, v', rfl⟩
    · simp only [Walk.run, if_neg hi, Option.some.injEq, Prod.mk.injEq] at hrun
      exact .inl ⟨Nat.not_lt.mp hi, hrun.2.1.symm⟩

theorem Entries.head (h : Entries m len i offs) :
    (i = len ∧ offs = []) ∨ (i < len ∧ ∃ l, offs = i :: l) := by
  cases h with
  | done => exact .inl ⟨rfl, rfl⟩
  | entry two fits rest => exact .inr ⟨by omega, _, rfl⟩

theorem Walk.right_next (rest : Entries m len (i + (m (i + 1)).toNat) offs) :
    w.Right m len (advance m i % w.word) s offs ↔
      Goes m len w.word i ∧ w.Right m len (i + (m (i + 1)).toNat) s offs := by
  constructor
  · intro h
    rcases rest.head with ⟨he, rfl⟩ | ⟨hl, l, rfl⟩
    · rcases h.head with ⟨hle, -⟩ | ⟨-, l, hl⟩
      · exact ⟨.inr ⟨he, hle⟩, Walk.right_nil (Nat.le_of_eq he.symm)⟩
      · cases hl
    · rcases h.head with ⟨-, hl⟩ | ⟨-, l', hl⟩
      · cases hl
      · have he : advance m i % w.word = i + (m (i + 1)).toNat := (List.cons.inj hl).1.symm
        exact ⟨.inl he, he ▸ h⟩
  · rintro ⟨he | ⟨he, hle⟩, h⟩
    · rwa [he]
    · rcases rest.head with ⟨-, rfl⟩ | ⟨hl, -⟩
      · exact Walk.right_nil hle
      · omega

theorem Walk.Right.goes (he : Entries m len i offs) (h : w.Right m len i s offs) :
    ∀ o ∈ offs, Goes m len w.word o ∧ ∃ s, ∀ r ∈ w.reads m o s, r < len := by
  induction he generalizing s with
  | done => simp
  | @entry i offs two fits rest ih =>
    obtain ⟨hr, h⟩ := (Walk.right_cons (by omega)).mp h
    obtain ⟨hg, h⟩ := (Walk.right_next rest).mp h
    exact List.forall_mem_cons.mpr ⟨⟨hg, s, hr⟩, ih h⟩

theorem Walk.right_of_goes (he : Entries m len i offs)
    (h : ∀ o ∈ offs, Goes m len w.word o ∧ ∀ s, ∀ r ∈ w.reads m o s, r < len) :
    w.Right m len i s offs := by
  induction he generalizing s with
  | done => exact Walk.right_nil (Nat.le_refl _)
  | @entry i offs two fits rest ih =>
    obtain ⟨⟨hg, hr⟩, h⟩ := List.forall_mem_cons.mp h
    exact (Walk.right_cons (by omega)).mpr ⟨hr s, (Walk.right_next rest).mpr ⟨hg, ih h⟩⟩

end Walk

/-! ## Both walks -/

/-- An entry of a type with a case, not cut off before a field that is read, and, for the type whose
case does not read the length, of length 12 (or shorter, at the end of the table). -/
def Fit (m : Store) (len i : Nat) : Prop :=
  match (m i).toNat with
  | 0 | 1 => i + 8 ≤ len
  | 2 => i + 4 ≤ len
  | 4 => i + 3 ≤ len
  | 5 => (m (i + 1)).toNat = 12 ∨
      i + (m (i + 1)).toNat = len ∧ (m (i + 1)).toNat < 12 ∧ i + 12 < 2 ^ 32
  | _ => False

theorem madtLen_lt (m : Store) : madtLen m < 2 ^ 32 := get32_lt m 4

theorem Entries.fits {m : Store} {len i : Nat} {offs : List Nat} (h : Entries m len i offs) :
    ∀ o ∈ offs, 2 ≤ (m (o + 1)).toNat ∧ o + (m (o + 1)).toNat ≤ len := by
  induction h with
  | done => simp
  | entry two fits rest ih => exact List.forall_mem_cons.mpr ⟨⟨two, fits⟩, ih⟩

section

variable {m : Store} {len i : Nat}

theorem fit_iff (h2 : 2 ≤ (m (i + 1)).toNat) (hl : i + (m (i + 1)).toNat ≤ len)
    (hlen : len < 2 ^ 32) : Fit m len i ↔
      Goes m len (2 ^ 32) i ∧ Goes m len (2 ^ 64) i ∧ ∀ r ∈ uefiMain.reads m i (), r < len := by
  simp only [Fit, Goes, advance, uefiMain]
  generalize (m i).toNat = t
  rcases t with _ | _ | _ | _ | _ | _ | t <;> simp <;> omega

theorem Fit.reads (h : Fit m len i) (h2 : 2 ≤ (m (i + 1)).toNat)
    (hl : i + (m (i + 1)).toNat ≤ len) (s : Mp) : ∀ r ∈ mpinitUefi.reads m i s, r < len := by
  revert h
  simp only [Fit, mpinitUefi]
  generalize (m i).toNat = t
  rcases t with _ | _ | _ | _ | _ | _ | t
  · intro (h : i + 8 ≤ len)
    change ∀ r ∈ (if s.cpus.length < NCPU then [i, i + 3, i + 1] else [i, i + 1]), r < len
    split <;> simp <;> omega
  all_goals simp
  all_goals omega

end

/-- On a table of entries, both walks end, visit each entry once at its offset and read only inside of
the table iff every entry is one they are made for. -/
theorem madt_walked (m : Store) (offs : List Nat) (ioapicid : UInt8)
    (he : Entries m (madtLen m) ENTRIES offs) :
    mpinitUefi.Right m (madtLen m) ENTRIES ⟨[], ioapicid⟩ offs ∧
        uefiMain.Right m (madtLen m) ENTRIES () offs ↔
      ∀ o ∈ offs, Fit m (madtLen m) o := by
  have hlen := madtLen_lt m
  constructor
  · rintro ⟨hk, hl⟩ o ho
    obtain ⟨h2, hf⟩ := he.fits o ho
    obtain ⟨hg, _, hr⟩ := hl.goes he o ho
    exact (fit_iff h2 hf hlen).mpr ⟨(hk.goes he o ho).1, hg, hr⟩
  · intro h
    refine ⟨Walk.right_of_goes he fun o ho => ?_, Walk.right_of_goes he fun o ho => ?_⟩
    all_goals
      obtain ⟨h2, hf⟩ := he.fits o ho
      obtain ⟨hk, hg, hr⟩ := (fit_iff h2 hf hlen).mp (h o ho)
    · exact ⟨hk, (h o ho).reads h2 hf⟩
    · exact ⟨hg, fun _ => hr⟩

def table (l : List UInt8) : Store := putList (put32 (fill 0) 4 (ENTRIES + l.length)) ENTRIES l

/-- Two processors and an I/O APIC. -/
def twoCpus : List UInt8 :=
  [0, 8, 0, 0, 1, 0, 0, 0] ++ 1 :: 12 :: List.replicate 10 0 ++ [0, 8, 1, 1, 1, 0, 0, 0]

theorem twoCpus_entries : Entries (table twoCpus) 72 ENTRIES [44, 52, 64] :=
  .entry (by decide) (by decide) (.entry (by decide) (by decide) (.entry (by decide) (by decide) .done))

theorem madt_walked_twoCpus : mpinitUefi.Right (table twoCpus) 72 ENTRIES ⟨[], 0⟩ [44, 52, 64] ∧
    uefiMain.Right (table twoCpus) 72 ENTRIES () [44, 52, 64] := by
  refine (madt_walked (table twoCpus) _ 0 twoCpus_entries).mpr fun o ho => ?_
  simp only [List.mem_cons, List.not_mem_nil, or_false] at ho
  rcases ho with rfl | rfl | rfl
  · exact show 44 + 8 ≤ 72 by decide
  · exact show 52 + 8 ≤ 72 by decide
  · exact show 64 + 8 ≤ 72 by decide

/-- A local x2APIC entry (type 9) is never left. -/
theorem madt_not_walked : ∃ l : List UInt8, Entries (table l) (madtLen (table l)) ENTRIES [44] ∧
    ¬ mpinitUefi.Right (table l) (madtLen (table l)) ENTRIES ⟨[], 0⟩ [44] ∧
    ¬ uefiMain.Right (table l) (madtLen (table l)) ENTRIES () [44] := by
  have he : Entries (table (9 :: 16 :: List.replicate 14 0)) 60 44 [44] :=
    .entry (by decide) (by decide) .done
  refine ⟨9 :: 16 :: List.replicate 14 0, he, fun h => ?_, fun h => ?_⟩
  all_goals
    have hg := (h.goes he 44 (by simp)).1
    revert hg
    unfold Goes
    decide

/-! ## Which processors are kept -/

def lapics (m : Store) (offs : List Nat) : List Nat := offs.filter fun o => m o = 0

def lapicId (m : Store) (o : Nat) : UInt8 := m (o + 3)

def enabled (m : Store) (o : Nat) : Bool := get32 m (o + 4) % 2 = 1

/-- A table of entries of the types with a case; an address override has its 12 bytes. -/
structure Madt (m : Store) (offs : List Nat) : Prop where
  entries : Entries m (madtLen m) ENTRIES offs
  types : ∀ o ∈ offs, m o ∈ [0, 1, 2, 4, 5]
  override : ∀ o ∈ offs, m o = 5 → m (o + 1) = 12

def KeepsEnabled (m : Store) (offs : List Nat) (ioapicid : UInt8) : Prop :=
  ∃ t visited reads,
    Returns (fun fuel => mpinitUefi.run m (madtLen m) fuel ENTRIES ⟨[], ioapicid⟩)
      (t, visited, reads) ∧
    t.cpus = (((lapics m offs).filter (enabled m)).take NCPU).map (lapicId m)

section

variable {m : Store} {offs : List Nat}

theorem Walk.run_entries {σ : Type} {w : Walk σ} {len i : Nat} (he : Entries m len i offs)
    (hg : ∀ o ∈ offs, advance m o % w.word = o + (m (o + 1)).toNat) (s : σ) :
    ∃ v rs, Returns (fun fuel => w.run m len fuel i s)
      (offs.foldl (fun s o => w.entry m o s) s, v, rs) := by
  induction he generalizing s with
  | done => exact ⟨[], [], Returns.pure.succ fun n => by simp [Walk.run]⟩
  | @entry i offs two fits rest ih =>
    obtain ⟨hi, hg⟩ := List.forall_mem_cons.mp hg
    obtain ⟨v, rs, h⟩ := ih hg (w.entry m i s)
    refine ⟨i :: v, w.reads m i s ++ rs, (h.bind (k := fun r _ =>
      some (r.1, i :: r.2.1, w.reads m i s ++ r.2.2)) Returns.pure).succ fun n => ?_⟩
    rw [Walk.run, if_pos (by omega), hi, Option.map_eq_bind]
    rfl

theorem Madt.advance (h : Madt m offs) :
    ∀ o ∈ offs, Boot.advance m o % 2 ^ 32 = o + (m (o + 1)).toNat := by
  intro o ho
  have hlen := madtLen_lt m
  have hf := (h.entries.fits o ho).2
  have ha : Boot.advance m o = o + (m (o + 1)).toNat := by
    have ht := h.types o ho
    simp only [List.mem_cons, List.not_mem_nil, or_false] at ht
    rcases ht with ht | ht | ht | ht | ht
    case inr.inr.inr.inr => simp [Boot.advance, ht, h.override o ho ht]
    all_goals simp [Boot.advance, ht]
  rw [ha, Nat.mod_eq_of_lt (by omega)]

theorem cpus_foldl (offs : List Nat) (s : Mp) (hs : s.cpus.length ≤ NCPU) :
    (offs.foldl (fun s o => mpinitUefi.entry m o s) s).cpus =
      (s.cpus ++ (lapics m offs).map (lapicId m)).take NCPU := by
  induction offs generalizing s with
  | nil => simp [lapics, List.take_of_length_le hs]
  | cons o offs ih =>
    rw [List.foldl_cons]
    by_cases h0 : m o = 0
    · have hl : lapics m (o :: offs) = o :: lapics m offs := by simp [lapics, h0]
      by_cases hn : s.cpus.length < NCPU
      · have he : mpinitUefi.entry m o s = { s with cpus := s.cpus ++ [m (o + 3)] } := by
          simp [mpinitUefi, h0, hn]
        rw [he, ih _ (by simp; omega), hl]
        simp [lapicId]
      · have he : mpinitUefi.entry m o s = s := by simp [mpinitUefi, h0, hn]
        rw [he, ih s hs, List.take_append_of_le_length (by omega),
          List.take_append_of_le_length (by omega)]
    · have hl : lapics m (o :: offs) = lapics m offs := by simp [lapics, h0]
      have h0 : (m o).toNat ≠ 0 := fun h => h0 (UInt8.toNat_inj.mp h)
      have he : (mpinitUefi.entry m o s).cpus = s.cpus := by
        simp only [mpinitUefi]
        split
        · exact absurd ‹_› h0
        · rfl
        · rfl
      rw [ih _ (by rwa [he]), he, hl]

end

theorem take_filter {α : Type} {p : α → Bool} :
    ∀ (l : List α) (n : Nat), (∀ x ∈ l.take n, p x) → (l.filter p).take n = l.take n
  | [], _, _ => rfl
  | _ :: _, 0, _ => by simp
  | x :: l, n + 1, h => by
    simp only [List.take_succ_cons, List.mem_cons, forall_eq_or_imp] at h
    rw [List.filter_cons_of_pos h.1, List.take_succ_cons, List.take_succ_cons, take_filter l n h.2]

/-- `cpus` ends up as the first `NCPU` enabled local APICs if the first `NCPU` local APICs are all
enabled; and only then, if their ids are different. -/
theorem cpus_enabled (m : Store) (offs : List Nat) (ioapicid : UInt8) (h : Madt m offs) :
    ((∀ o ∈ (lapics m offs).take NCPU, enabled m o) → KeepsEnabled m offs ioapicid) ∧
      (((lapics m offs).map (lapicId m)).Nodup → KeepsEnabled m offs ioapicid →
        ∀ o ∈ (lapics m offs).take NCPU, enabled m o) := by
  obtain ⟨v, rs, hrun⟩ := Walk.run_entries (w := mpinitUefi) h.entries h.advance ⟨[], ioapicid⟩
  have hcpus := cpus_foldl (m := m) offs ⟨[], ioapicid⟩ (Nat.zero_le _)
  rw [List.nil_append, ← List.map_take] at hcpus
  constructor
  · intro hen
    exact ⟨_, _, _, hrun, hcpus.trans (by rw [take_filter _ _ hen])⟩
  · rintro hid ⟨t, v', rs', ht, hc⟩ o ho
    obtain ⟨rfl, -⟩ := Prod.mk.inj (ht.unique hrun)
    obtain ⟨o', ho', he⟩ := List.mem_map.mp (hc ▸ hcpus ▸ List.mem_map_of_mem ho)
    have hmem := List.mem_filter.mp (List.mem_of_mem_take ho')
    obtain rfl := List.inj_on_of_nodup_map hid hmem.1 (List.mem_of_mem_take ho) he
    exact hmem.2

theorem cpus_enabled_twoCpus : KeepsEnabled (table twoCpus) [44, 52, 64] 0 := by
  refine (cpus_enabled _ _ 0 ⟨twoCpus_entries, ?_, ?_⟩).1 ?_
  all_goals decide

/-- A disabled local APIC is kept. -/
theorem cpus_disabled : ¬ KeepsEnabled (table [0, 8, 0, 1, 0, 0, 0, 0]) [44] 0 := by
  rintro ⟨t, v, rs, ht, hc⟩
  have he : Entries (table [0, 8, 0, 1, 0, 0, 0, 0]) 52 44 [44] :=
    .entry (by decide) (by decide) .done
  obtain ⟨v', rs', hrun⟩ := Walk.run_entries (w := mpinitUefi) he (by decide) ⟨[], 0⟩
  obtain ⟨rfl, -⟩ := Prod.mk.inj (ht.unique hrun)
  revert hc
  decide

end Boot
