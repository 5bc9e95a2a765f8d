import Xv6.Vm.Proof.Run

/-!
# Taking pages

A program that gives no page back leaves a suffix of the free list (`Popped`). `freerange` puts the
pages of a range into the list, the last one first, so after `main` it descends (`main_order`).
-/

namespace Vm

open Bytes Panic

variable {L : Layout} {s s' : Kernel} {d e f g n a oldsz newsz : Nat}

/-! ## Programs that take pages -/

def Popped (s s' : Kernel) : Prop := s'.freelist <:+ s.freelist

instance : Takes Popped where
  refl _ := List.suffix_refl _
  trans h h' := List.IsSuffix.trans h' h
  mem _ _ _ := List.suffix_refl _
  take s f fl fs h := by
    unfold Popped
    rw [h]
    exact List.suffix_cons f fl

instance : ProcTable Popped := ⟨fun _ _ _ _ => List.suffix_refl _⟩

instance : Drops Popped := ⟨fun _ _ => List.suffix_refl _⟩

theorem kalloc_freelist {r : Option Nat} (h : kalloc s = .ok (r, s')) :
    (r = none ∧ s'.freelist = s.freelist) ∨ ∃ g, r = some g ∧ s.freelist = g :: s'.freelist := by
  unfold kalloc at h
  split at h
  · cases h
    exact .inl ⟨rfl, rfl⟩
  · rename_i hfl
    cases h
    exact .inl ⟨rfl, rfl⟩
  · rename_i hfl _
    cases h
    exact .inr ⟨_, rfl, hfl⟩

theorem mapKernel_pops {ks : List Kmap} (h : mapKernel L d ks s = .ok (some e, s')) :
    s'.freelist <:+ s.freelist := by
  induction ks generalizing s with
  | nil =>
    obtain ⟨-, rfl⟩ := pure_ok.1 h
    exact List.suffix_refl _
  | cons k ks ih =>
    unfold mapKernel at h
    obtain ⟨b, s1, h1, h⟩ := bind_ok.1 h
    cases b with
    | true => exact (ih h).trans (Respects.ok (R := Popped) .mapLoop h1)
    | false =>
      obtain ⟨_, s2, -, h⟩ := bind_ok.1 h
      cases (pure_ok.1 h).1

theorem setupkvm_pops (h : setupkvm L s = .ok (some d, s')) : s'.freelist <:+ s.freelist := by
  unfold setupkvm at h
  obtain ⟨r, s1, h1, h⟩ := bind_ok.1 h
  cases r with
  | none => cases (pure_ok.1 h).1
  | some g =>
    obtain ⟨_, s2, h2, h⟩ := bind_ok.1 h
    rw [if_neg (by decide)] at h
    exact (mapKernel_pops h).trans (Respects.ok (R := Popped) (.bind .kalloc fun _ => .setPage)
      (bind_ok.2 ⟨_, _, h1, h2⟩))

theorem allocLoop_pops {r : Nat} (hr : r ≠ 0) (h : allocLoop L d oldsz newsz n a s = .ok (r, s')) :
    s'.freelist <:+ s.freelist ∧ s'.freelist.length + n ≤ s.freelist.length := by
  induction n generalizing a s with
  | zero =>
    obtain ⟨-, rfl⟩ := pure_ok.1 h
    exact ⟨List.suffix_refl _, le_refl _⟩
  | succ n ih =>
    unfold allocLoop at h
    obtain ⟨o, s1, hk, h⟩ := bind_ok.1 h
    rcases kalloc_freelist hk with ⟨rfl, -⟩ | ⟨g, rfl, hfl⟩
    · obtain ⟨_, s2, -, h⟩ := bind_ok.1 h
      exact absurd (pure_ok.1 h).1 hr
    · obtain ⟨_, s2, h2, h⟩ := bind_ok.1 h
      obtain ⟨b, s3, h3, h⟩ := bind_ok.1 h
      cases b with
      | true =>
        have hsub : s3.freelist <:+ s1.freelist :=
          Respects.ok (R := Popped) (.bind .setPage fun _ => .mapLoop) (bind_ok.2 ⟨_, _, h2, h3⟩)
        obtain ⟨h4, h5⟩ := ih h
        have hlen := hsub.length_le
        rw [hfl, List.length_cons]
        exact ⟨(h4.trans hsub).trans (List.suffix_cons _ _), by omega⟩
      | false =>
        obtain ⟨_, s4, -, h⟩ := bind_ok.1 h
        obtain ⟨_, s5, -, h⟩ := bind_ok.1 h
        exact absurd (pure_ok.1 h).1 hr

/-! ## `main` -/

theorem freePages_order {u : Unit} (h : freePages L n f s = .ok (u, s')) :
    s'.freelist = (List.range' f n).reverse ++ s.freelist := by
  induction n generalizing f s with
  | zero =>
    obtain ⟨-, rfl⟩ := pure_ok.1 h
    rfl
  | succ n ih =>
    unfold freePages at h
    obtain ⟨_, s1, hk, h⟩ := bind_ok.1 h
    rw [ih h, kfree_ok hk, List.range'_succ, List.reverse_cons, List.append_assoc]
    rfl

section
variable {E : String → Prop} [AnyText E]

theorem popped_reserve : Respects Popped E (reserve n) := by
  induction n with
  | zero => exact .pure
  | succ n ih =>
    exact .tried .kalloc .panic fun _ => .bind (.modify fun _ => List.suffix_refl _) fun _ => ih

theorem popped_inituvm {init : List UInt8} : Respects Popped E (inituvm d init) :=
  .ite .panic (.tried .kalloc .panic fun _ => .bind .setPage fun _ => .bind .mappages fun _ =>
    .ite (.bind .leak fun _ => .setBytes) .setBytes)

theorem popped_kvmalloc : Respects Popped E (kvmalloc L) := by
  refine .of_ok fun s r s' h => ?_
  obtain ⟨o, s1, h1, h⟩ := bind_ok.1 h
  cases o with
  | none => cases h
  | some d =>
    have hpop := setupkvm_pops h1
    cases h
    exact hpop

theorem popped_userinit {init : List UInt8} : Respects Popped E (userinit L init) := by
  refine .tried .allocproc .panic fun p => .bind (.modify fun _ => List.suffix_refl _) fun _ => ?_
  refine .of_ok fun s r s' h => ?_
  obtain ⟨o, s1, h1, h⟩ := bind_ok.1 h
  cases o with
  | none => cases h
  | some d =>
    refine Takes.trans (R := Popped) (setupkvm_pops h1) (Respects.ok ?_ h)
    exact .got fun _ => .bind .setProc fun _ => .bind popped_inituvm fun _ => .got fun _ => .setProc

end

/-- **The free list after `main`** descends from the top of memory. -/
theorem main_order {others drivers : Nat} {init : List UInt8} {m : Nat → Store} {fail : List Bool}
    {u : Unit} (h : main L others drivers init (.blank m fail) = .ok (u, s)) :
    ∃ low : List Nat, low.length ≤ 1024 ∧
      s.freelist <:+ (List.range' 1024 (PHYSTOP / PGSIZE - 1024)).reverse ++ low := by
  unfold main at h
  rw [freerange_low, freerange_high] at h
  obtain ⟨_, s1, h1, h⟩ := bind_ok.1 h
  obtain ⟨_, s2, h2, h⟩ := bind_ok.1 h
  obtain ⟨_, s3, h3, h⟩ := bind_ok.1 h
  obtain ⟨_, s4, h4, h⟩ := bind_ok.1 h
  obtain ⟨_, s5, h5, h⟩ := bind_ok.1 h
  have hlow : s3.freelist.length ≤ 1024 := by
    have hle := List.IsSuffix.length_le
      (Takes.trans (R := Popped) (popped_kvmalloc.ok h2) (popped_reserve.ok h3))
    rw [freePages_order h1, List.length_append, List.length_reverse, List.length_range'] at hle
    have : (Kernel.blank m fail).freelist.length = 0 := rfl
    omega
  refine ⟨s3.freelist, hlow, ?_⟩
  rw [← freePages_order h4]
  exact Takes.trans (R := Popped) (popped_reserve.ok h5) (popped_userinit.ok h)

end Vm
