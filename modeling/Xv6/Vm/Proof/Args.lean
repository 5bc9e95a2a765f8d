import Xv6.Vm.Args

/-!
# Arguments stay inside the process

`Inside u m P`: `m` dereferences addresses below the size of the process only, and its result, if any,
satisfies `P`. It is a small program logic: `Inside.bind` goes through a sequence, `inside_deref` is the
only place where an address is looked at.
-/

namespace Vm

open Bytes Param

variable {u : User} {α β : Type} {m : UM α} {f : α → UM β} {P Q : α → Prop} {R : β → Prop}
  {a n i addr : Nat}

/-- Only addresses below `sz` are dereferenced, and a result satisfies `P`. -/
def Inside (u : User) (m : UM α) (P : α → Prop) : Prop :=
  ∀ log, (∀ a ∈ log, a < u.sz) →
    (∀ a ∈ ((m u).run log).2, a < u.sz) ∧ ∀ v, ((m u).run log).1 = some v → P v

theorem Inside.mono (h : Inside u m P) (hPQ : ∀ v, P v → Q v) : Inside u m Q :=
  fun log hlog => ⟨(h log hlog).1, fun v hv => hPQ v ((h log hlog).2 v hv)⟩

theorem inside_pure {v : α} (h : P v) : Inside u (pure v) P :=
  fun _ hlog => ⟨hlog, fun _ hv => Option.some.inj hv ▸ h⟩

theorem inside_failure : Inside u (failure : UM α) P := fun _ hlog => ⟨hlog, nofun⟩

theorem bind_log {log : List Nat} : ((m >>= f) u).run log =
    match (m u).run log with
    | (some v, log') => (f v u).run log'
    | (none, log') => (none, log') := by
  show (bind (m u) fun v => f v u).run log = _
  rw [OptionT.run_bind]
  show (match (m u).run log with
    | (o, log') => (Option.elimM (pure o) (pure none) fun v => (f v u).run) log') = _
  cases h : (m u).run log with
  | mk o log' => cases o <;> rfl

theorem Inside.bind (h : Inside u m P) (hf : ∀ v, P v → Inside u (f v) R) : Inside u (m >>= f) R := by
  intro log hlog
  obtain ⟨h1, h2⟩ := h log hlog
  rw [bind_log]
  cases hm : (m u).run log with
  | mk o log' =>
    rw [hm] at h1 h2
    cases o with
    | none => exact ⟨h1, nofun⟩
    | some v => exact hf v (h2 v rfl) log' h1

theorem inside_read : Inside u (read : UM User) (· = u) :=
  fun _ hlog => ⟨hlog, fun _ hv => (Option.some.inj hv).symm⟩

theorem inside_deref (h : a < u.sz) : Inside u (deref a) (· = u.mem a) := fun log hlog =>
  ⟨fun b hb => by
    rcases List.mem_cons.1 hb with rfl | hb
    · exact h
    · exact hlog b hb, fun _ hv => (Option.some.inj hv).symm⟩

theorem inside_ite {c : Prop} [Decidable c] {k : UM α} (ht : c → Inside u m P)
    (he : ¬ c → Inside u k P) : Inside u (if c then m else k) P := by
  split
  · rename_i hc
    exact ht hc
  · rename_i hc
    exact he hc

theorem inside_guard {c : Prop} [Decidable c] {k : Unit → UM α} (h : ¬ c → Inside u (k ()) P) :
    Inside u (if c then failure >>= k else k ()) P :=
  inside_ite (fun _ => inside_failure.bind (P := fun _ => False) fun _ h => h.elim) h

/-! ## Words and strings -/

def WordIn (u : User) (a : Nat) : Prop := a + 4 ≤ u.sz

/-- A nul-terminated string of length `s.2` lies at `s.1`, below `sz` with its NUL. -/
def StringIn (u : User) (s : Nat × Nat) : Prop :=
  s.1 + s.2 < u.sz ∧ u.mem (s.1 + s.2) = 0 ∧ ∀ i < s.2, u.mem (s.1 + i) ≠ 0

section
variable (hsz : u.sz < KERNBASE)
include hsz

theorem derefInt_inside (h : WordIn u a) : Inside u (derefInt a) (· = get32 u.mem a) := by
  have hwrap : ∀ i < 4, (a + i) % UINT = a + i := by
    unfold WordIn at h
    unfold KERNBASE UINT at *
    omega
  unfold WordIn at h
  unfold derefInt
  rw [hwrap 1 (by decide), hwrap 2 (by decide), hwrap 3 (by decide)]
  refine (inside_deref (by omega)).bind fun b0 h0 => (inside_deref (by omega)).bind fun b1 h1 =>
    (inside_deref (by omega)).bind fun b2 h2 => (inside_deref (by omega)).bind fun b3 h3 =>
      inside_pure ?_
  rw [h0, h1, h2, h3]
  rfl

theorem fetchint_inside :
    Inside u (fetchint addr) fun v => WordIn u addr ∧ v = get32 u.mem addr := by
  unfold fetchint
  refine inside_read.bind fun v hv => inside_read.bind fun w hw => inside_guard fun hc => ?_
  rw [hv, hw] at hc
  -- `addr` is below `sz`, so `addr + 4` does not wrap
  have hin : WordIn u addr := by
    unfold WordIn
    unfold KERNBASE UINT at *
    omega
  exact (derefInt_inside hsz hin).mono fun _ h => ⟨hin, h⟩

theorem argint_inside {n : Int} : Inside u (argint n) fun v =>
    WordIn u ((u.esp + 4 + 4 * n) % UINT).toNat ∧
      v = get32 u.mem ((u.esp + 4 + 4 * n) % UINT).toNat := by
  unfold argint
  refine inside_read.bind fun v hv => ?_
  subst hv
  exact fetchint_inside hsz

theorem argptr_inside {n size : Int} (hint : size < 2 ^ 31) :
    Inside u (argptr n size) fun p => 0 ≤ size ∧ p + size ≤ u.sz := by
  unfold argptr
  refine (argint_inside hsz).bind fun i _ => inside_read.bind fun v hv =>
    inside_read.bind fun w hw => inside_guard fun hc => inside_pure ?_
  subst hv hw
  unfold KERNBASE UINT at *
  omega

omit hsz in
theorem scan_inside {s : Nat} (h : s + n ≤ u.sz) :
    Inside u (scan n s) fun len => StringIn u (s, len) := by
  induction n generalizing s with
  | zero => exact inside_failure
  | succ n ih =>
    unfold scan
    refine (inside_deref (by omega)).bind fun b hb => inside_ite (fun hz => inside_pure ?_) fun hz =>
      (ih (s := s + 1) (by omega)).bind fun len hlen => inside_pure ?_
    · exact ⟨by simp only; omega, by simpa using hb.symm.trans hz, by simp⟩
    · obtain ⟨h1, h2, h3⟩ := hlen
      simp only at h1 h2 h3
      refine ⟨by simp only; omega, ?_, fun i hi => ?_⟩
      · rw [show s + (len + 1) = s + 1 + len by omega]
        exact h2
      · rcases i with _ | i
        · rw [Nat.add_zero, ← hb]
          exact hz
        · rw [show s + (i + 1) = s + 1 + i by omega]
          exact h3 i (by simp only at hi; omega)

omit hsz in
theorem fetchstr_inside : Inside u (fetchstr addr) (StringIn u) := by
  unfold fetchstr
  refine inside_read.bind fun v hv => inside_guard fun hc => inside_read.bind fun w hw => ?_
  subst hv hw
  exact (scan_inside (by omega)).bind fun len hlen => inside_pure hlen

theorem argstr_inside {n : Int} : Inside u (argstr n) (StringIn u) :=
  (argint_inside hsz).bind fun _ _ => fetchstr_inside

theorem fetchArgv_inside {uargv : Nat} : Inside u (fetchArgv uargv n i) fun argv =>
    argv.length < n ∧ (∀ k ≤ argv.length, WordIn u ((uargv + 4 * (i + k)) % UINT)) ∧
      ∀ arg ∈ argv, StringIn u arg := by
  induction n generalizing i with
  | zero => exact inside_failure
  | succ n ih =>
    unfold fetchArgv
    refine (fetchint_inside hsz).bind fun uarg ⟨hin, _⟩ => inside_ite (fun _ => inside_pure ?_)
      fun _ => fetchstr_inside.bind fun arg harg => ih.bind fun argv ⟨hlen, hw, hs⟩ => inside_pure ?_
    · refine ⟨Nat.succ_pos n, fun k hk => ?_, nofun⟩
      obtain rfl : k = 0 := Nat.le_zero.1 hk
      exact hin
    · refine ⟨Nat.succ_lt_succ hlen, fun k hk => ?_, fun a ha => ?_⟩
      · rcases k with _ | k
        · exact hin
        · rw [show i + (k + 1) = i + 1 + k by omega]
          exact hw k (Nat.le_of_succ_le_succ hk)
      · rcases List.mem_cons.1 ha with rfl | ha
        · exact harg
        · exact hs a ha

end

/-- **System-call arguments stay inside the process.** -/
theorem system_call_arguments_inside (hsz : u.sz < KERNBASE) :
    (∀ n, Inside u (argint n) fun _ => WordIn u ((u.esp + 4 + 4 * n) % UINT).toNat) ∧
    (∀ n size, -2 ^ 31 ≤ size → size < 2 ^ 31 →
      Inside u (argptr n size) fun p => 0 ≤ size ∧ p + size ≤ u.sz) ∧
    (∀ n, Inside u (argstr n) (StringIn u)) ∧
    Inside u sysExec fun r => StringIn u r.1 ∧ r.2.length < MAXARG ∧
      (∃ uargv, uargv = get32 u.mem ((u.esp + 4 + 4 * 1) % UINT) ∧
        ∀ k ≤ r.2.length, WordIn u ((uargv + 4 * k) % UINT)) ∧
      ∀ arg ∈ r.2, StringIn u arg := by
  refine ⟨fun n => (argint_inside hsz).mono fun _ h => h.1,
    fun n size _ hint => argptr_inside hsz hint, fun n => argstr_inside hsz, ?_⟩
  unfold sysExec
  refine (argstr_inside hsz).bind fun path hpath => (argint_inside hsz).bind fun uargv ⟨_, hu⟩ =>
    (fetchArgv_inside hsz).bind fun argv ⟨hlen, hw, hs⟩ => inside_pure ⟨hpath, hlen, ⟨uargv, ?_, ?_⟩, hs⟩
  · rw [hu]
    congr 1
  · intro k hk
    have := hw k hk
    rwa [Nat.zero_add] at this

def User.sample : User where
  sz := 64
  esp := 16
  mem := putList (put32 (put32 (fill 0) 20 40) 24 0) 40 [97, 0]

theorem system_call_arguments_inside_sample : Inside User.sample (argstr 0) (StringIn User.sample) ∧
    ((argstr 0 User.sample).run []).1 = some (40, 1) :=
  ⟨(system_call_arguments_inside (u := User.sample) (by decide)).2.2.1 0, by decide⟩

end Vm
