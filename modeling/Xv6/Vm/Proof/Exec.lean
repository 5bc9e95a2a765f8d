import Xv6.Vm.Proof.Load

/-!
# `exec`

`exec` builds a second directory beside that of the process, and frees one of the two. As long as
`uva2ka` never reads through a null pointer, it writes to pages of the new directory only.
-/

namespace Vm

open Bytes Panic

variable {L : Layout} {s s' : Kernel} {X Y R : Nat → Nat} {m : Nat → Store}
  {d e f j k w a va cur : Nat}

/-! ## Copying to the new stack -/

theorem KernelClean.user_lt (hc : KernelClean m d) (he : entry m d (pdx va) (ptx va) = some w)
    (hu : user w = true) : pdx va < 512 := by
  by_contra hk
  rw [hc (pdx va) (pdx_lt va) (by omega) (ptx va) (ptx_lt va) w he] at hu
  cases hu

theorem uva2ka_spec {r : Option Nat} (h : uva2ka L cur d va s = .ok (r, s'))
    (hc : KernelClean s.mem d) : .nullPte ∈ s'.hist ∨ (s' = s ∧ ∀ f, r = some f →
      ∃ w, pdx va < 512 ∧ entry s.mem d (pdx va) (ptx va) = some w ∧ present w = true ∧
        pteAddr w = f) := by
  obtain ⟨o, s1, hwalk, hrest⟩ := bind_ok.1 h
  cases o with
  | none => exact .inl ((uva2ka_untabled hwalk h).subset List.mem_cons_self)
  | some p =>
    right
    replace h := hrest
    obtain ⟨k, j⟩ := p
    obtain ⟨rfl, hp, rfl, rfl⟩ := walk_find_some hwalk
    simp only [bind_ok, load_run, Except.ok.injEq, Prod.mk.injEq] at h
    obtain ⟨w, s2, ⟨rfl, rfl⟩, h⟩ := h
    obtain ⟨rfl, rfl⟩ := pure_ok.1 h
    refine ⟨rfl, fun f hf => ?_⟩
    split at hf
    · rename_i hw
      rw [Bool.and_eq_true] at hw
      cases hf
      exact ⟨_, hc.user_lt (entry_eq hp) hw.2, entry_eq hp, hw.1, rfl⟩
    · cases hf

theorem copyout_spec {bs : List UInt8} {r : Bool} (h : copyout L cur d va bs s = .ok (r, s'))
    (hnull : .nullPte ∉ s'.hist) (ho : Own s (dirUse s.mem d)) (hc : KernelClean s.mem d) :
    Touched s s' d := by
  induction va, bs using copyout.induct generalizing s with
  | case1 =>
    rw [copyout] at h
    obtain ⟨-, rfl⟩ := pure_ok.1 h
    exact .refl
  | case2 va b bs va0 =>
    rename_i ih
    rw [copyout, bind_ok] at h
    obtain ⟨o, s1, hu, h⟩ := h
    have hs := uva2ka_spec hu hc
    cases o with
    | none =>
      obtain ⟨-, rfl⟩ := pure_ok.1 h
      obtain ⟨rfl, -⟩ := hs.resolve_left hnull
      exact .refl
    | some f =>
      rw [bind_ok] at h
      obtain ⟨_, s2, hset, h⟩ := h
      have hg : s1.hist <:+ s'.hist :=
        Respects.ok (R := Longer) (.bind .setBytes fun _ => .copyout) (bind_ok.2 ⟨_, _, hset, h⟩)
      obtain ⟨rfl, hf⟩ := hs.resolve_left fun hmem => hnull (hg.subset hmem)
      obtain ⟨w, hi, he, hw, rfl⟩ := hf f rfl
      have ht := touched_setBytes hset ho hi (ptx_lt _) he hw
      exact ht.comp (ih h (ho.trans ht.trans) (ht.same.kernelClean hc))

theorem pushArgs_spec {argv : List (List UInt8)} {argc sp : Nat} {ustack : List Nat}
    {r : Option (Nat × List Nat)} (h : pushArgs L cur d argv argc sp ustack s = .ok (r, s'))
    (hnull : .nullPte ∉ s'.hist) (ho : Own s (dirUse s.mem d)) (hc : KernelClean s.mem d) :
    Touched s s' d := by
  induction argv generalizing argc sp ustack s with
  | nil =>
    obtain ⟨-, rfl⟩ := pure_ok.1 h
    exact .refl
  | cons a argv ih =>
    unfold pushArgs at h
    simp only [ite_ok, bind_ok] at h
    rcases h with ⟨-, h⟩ | ⟨-, b, s1, hcp, ⟨-, h⟩ | ⟨-, h⟩⟩
    · obtain ⟨-, rfl⟩ := pure_ok.1 h
      exact .refl
    · have hg : s1.hist <:+ s'.hist := Respects.ok (R := Longer) .pushArgs h
      have ht := copyout_spec hcp (fun hm => hnull (hg.subset hm)) ho hc
      exact ht.comp (ih h (ho.trans ht.trans) (ht.same.kernelClean hc))
    · obtain ⟨-, rfl⟩ := pure_ok.1 h
      exact copyout_spec hcp hnull ho hc

theorem pushFrame_spec {sz : Nat} {argv : List (List UInt8)} {r : Option Nat}
    (h : pushFrame L cur d sz argv s = .ok (r, s')) (hnull : .nullPte ∉ s'.hist)
    (ho : Own s (dirUse s.mem d)) (hc : KernelClean s.mem d) : Touched s s' d := by
  unfold pushFrame at h
  obtain ⟨o, s1, hpush, h⟩ := bind_ok.1 h
  cases o with
  | none =>
    obtain ⟨-, rfl⟩ := pure_ok.1 h
    exact pushArgs_spec hpush hnull ho hc
  | some q =>
    obtain ⟨b, s2, hcp, h⟩ := bind_ok.1 h
    obtain rfl : s' = s2 := by
      split at h
      · exact (pure_ok.1 h).2
      · exact (pure_ok.1 h).2
    have hgrow : s1.hist <:+ s'.hist := Respects.ok (R := Longer) .copyout hcp
    have ht := pushArgs_spec hpush (fun hm => hnull (hgrow.subset hm)) ho hc
    exact ht.comp (copyout_spec hcp hnull (ho.trans ht.trans) (ht.same.kernelClean hc))

theorem userStack_spec {sz : Nat} {argv : List (List UInt8)} {r : Option (Nat × Nat)}
    (h : userStack L cur d sz argv s = .ok (r, s')) (hnull : .nullPte ∉ s'.hist)
    (ho : Own s (dirUse s.mem d)) (hc : KernelClean s.mem d) (hsz : sz < KERNBASE) :
    Grown s s' d ∧ ∀ k sp, r = some (k, sp) → k < KERNBASE := by
  unfold userStack at h
  obtain ⟨sz', s1, halloc, h⟩ := bind_ok.1 h
  obtain ⟨hg1, hr1⟩ := allocuvm_spec halloc ho
  split at h
  · obtain ⟨rfl, rfl⟩ := pure_ok.1 h
    exact ⟨hg1, fun k sp hk => by cases hk⟩
  · rename_i hne
    simp only [bind_ok] at h
    obtain ⟨_, s2, hclr, o, s3, hpush, h⟩ := h
    have hszk : sz' < KERNBASE := by
      obtain ⟨h3, h4⟩ := hr1.resolve_left hne
      obtain ⟨-, hb, hb', -⟩ := pgroundup_bounds (a := sz) (by omega)
      unfold KERNBASE PGSIZE UINT at *
      omega
    have hg2 := clearpteu_spec hclr (ho.trans hg1.trans) (by omega)
    have hg := hg1.comp hg2
    obtain rfl : s' = s3 := by
      cases o with
      | none => exact (pure_ok.1 h).2
      | some sp => exact (pure_ok.1 h).2
    have ht := pushFrame_spec hpush hnull (ho.trans hg.trans) (hg.clean hc)
    refine ⟨hg.comp ht.grown, fun k sp hk => ?_⟩
    cases o with
    | none =>
      cases (pure_ok.1 h).1.symm.trans hk
    | some sp' =>
      cases (pure_ok.1 h).1.symm.trans hk
      exact hszk

theorem execImage_spec {img : Image} {elf : Store} {argv : List (List UInt8)} {r : Option (Nat × Nat)}
    (h : execImage L cur d img elf argv s = .ok (r, s')) (hnull : .nullPte ∉ s'.hist)
    (ho : Own s (dirUse s.mem d)) (hc : KernelClean s.mem d) (hd : KernelDir s.mem d) :
    Grown s s' d ∧ ∀ k sp, r = some (k, sp) → k < KERNBASE := by
  unfold execImage at h
  obtain ⟨o, s1, hseg, h⟩ := bind_ok.1 h
  obtain ⟨hg, hr⟩ := (loadSegs_ends img _ _ ho hd.holds (by decide)).ok hseg
  cases o with
  | none =>
    obtain ⟨rfl, rfl⟩ := pure_ok.1 h
    exact ⟨hg.toGrown, fun k sp hk => by cases hk⟩
  | some sz =>
    obtain ⟨-, -, -, -, hk, -⟩ := hr sz rfl
    obtain ⟨hg', hk⟩ := userStack_spec h hnull (ho.trans hg.trans) (hg.clean hc) hk
    exact ⟨hg.toGrown.comp hg', hk⟩

/-! ## `exec` -/

theorem curdir_ok {p : Nat} (h : curdir p s = .ok (d, s')) :
    s' = s ∧ (s.proc p).pgdir = some d := by
  unfold curdir at h
  rw [bind_ok] at h
  obtain ⟨_, _, hg, h⟩ := h
  cases hg
  cases hd : (s.proc p).pgdir with
  | none =>
    simp only [hd] at h
    cases h
  | some e =>
    simp only [hd] at h
    obtain ⟨rfl, rfl⟩ := pure_ok.1 h
    exact ⟨rfl, rfl⟩

theorem Trans.withProc {P Q : Nat → Proc} (h : Trans { s with proc := P } X s' Y) :
    Trans { s with proc := Q } X { s' with proc := Q } Y :=
  ⟨⟨h.count, h.mem, h.held, h.kpgdir, h.hist⟩, rfl, h.initproc, h.file, h.pipe, h.nextpid⟩

theorem Own.withProc {P : Nat → Proc} (h : Own s X) : Own { s with proc := P } X :=
  ⟨h.le_one, h.lt⟩

/-- **`exec`** changes no page, or replaces the directory of the process by another. -/
theorem exec_spec {p : Nat} {ip : Option Image} {argv : List (List UInt8)} {r : Int}
    (h : exec L p ip argv s = .ok (r, s')) (hnull : .nullPte ∉ s'.hist)
    (hd : (s.proc p).pgdir = some d) (ho : Own s (dirUse s.mem d)) :
    Trans s (fun _ => 0) s' (fun _ => 0) ∨ ∃ d' sz, sz < KERNBASE ∧ KernelClean s'.mem d' ∧
        s'.proc = Function.update s.proc p { s.proc p with pgdir := some d', sz := sz } ∧
        Trans s (dirUse s.mem d) { s' with proc := s.proc } (dirUse s'.mem d') := by
  have hbad : ∀ {s1 : Kernel}, Trans s (fun _ => 0) s1 (fun _ => 0) →
      (pure (-1) : KM Int) s1 = .ok (r, s') → Trans s (fun _ => 0) s' (fun _ => 0) := by
    intro s1 ht hp
    obtain ⟨-, rfl⟩ := pure_ok.1 hp
    exact ht
  have ho0 : Own s fun _ => 0 := ho.mono fun _ => Nat.zero_le _
  unfold exec at h
  cases ip with
  | none => exact .inl (hbad .refl h)
  | some img =>
    simp only at h
    generalize img.readAll 0 ELFHDR = rd at h
    cases rd with
    | none => exact .inl (hbad .refl h)
    | some elf =>
      simp only [ite_ok] at h
      rcases h with ⟨-, h⟩ | ⟨-, h⟩
      · exact .inl (hbad .refl h)
      · rw [bind_ok] at h
        obtain ⟨o, s1, hset, h⟩ := h
        rcases setupkvm_spec hset ho0 with ⟨rfl, -, ht⟩ | ⟨e, rfl, hdir⟩
        · exact .inl (hbad ht h)
        · simp only [bind_ok] at h
          obtain ⟨cur, s2, hcur, o, s3, himg, h⟩ := h
          obtain ⟨rfl, -⟩ := curdir_ok hcur
          have hmono : s3.hist <:+ s'.hist := by
            cases o with
            | none => exact Respects.ok (R := Longer) (.bind .freevm fun _ => .pure) h
            | some q =>
              exact Respects.ok (R := Longer)
                (.got fun _ => .bind .setProc fun _ => .bind .freevm fun _ => .pure) h
          obtain ⟨hg, hsz⟩ := execImage_spec himg (fun hm => hnull (hmono.subset hm))
            (ho0.trans hdir.trans) hdir.clean hdir.toKernelDir
          have ht3 := hdir.trans.trans hg.trans
          cases o with
          | none =>
            simp only [bind_ok] at h
            obtain ⟨_, s4, hf, h⟩ := h
            exact .inl (hbad (ht3.trans (freevm_trans hf (ho0.trans ht3))) h)
          | some q =>
            obtain ⟨sz, sp⟩ := q
            simp only [bind_ok, get_run, Except.ok.injEq, Prod.mk.injEq] at h
            obtain ⟨_, _, ⟨rfl, rfl⟩, _, s4, hsp, _, s5, hf, h⟩ := h
            obtain ⟨-, rfl⟩ := pure_ok.1 h
            have hpr : s3.proc = s.proc := ht3.proc
            rw [hpr] at hsp
            rw [hpr, hd] at hf
            -- the old directory is as it was, and is freed now
            have hsame : SameDir s.mem s3.mem d := ht3.same fun f hf => by
              have := ho.le_one f
              omega
            have h1 : Trans s (dirUse s.mem d) s3 (fun f => dirUse s3.mem d f + dirUse s3.mem e f) :=
              (ht3.frame (dirUse s.mem d)).congr (fun f => (Nat.zero_add _).symm) fun f => by
                rw [hsame.dirUse, Nat.add_comm]
            have ho3 := ho.trans h1
            cases hsp
            have hf' := freevm_trans hf (ho3.mono fun f => Nat.le_add_right _ _).withProc
            have hsame' : SameDir s3.mem s'.mem e := hf'.same fun f (hf : 0 < dirUse s3.mem e f) => by
              have hle : pool s3 f + (dirUse s3.mem d f + dirUse s3.mem e f) ≤ 1 := ho3.le_one f
              show pool s3 f + dirUse s3.mem d f = 0
              omega
            refine .inr ⟨e, sz, hsz sz sp rfl, hsame'.kernelClean (hg.clean hdir.clean), ?_, ?_⟩
            · exact hf'.proc.trans (congrArg (Function.update · p _) hpr)
            · have h2 := (hf'.withProc (Q := s3.proc)).frame (dirUse s3.mem e)
              rw [← hpr]
              refine h1.trans (h2.congr (fun _ => rfl) fun f => ?_)
              rw [hsame'.dirUse, Nat.zero_add]

end Vm
