import Xv6.Console.Input

/-!
# The line discipline

`Line` says what the input is for: characters are edited in the line that is not committed yet, a
newline, an end of file or a full buffer commits it, and readers take committed bytes in order. The
indices of the ring count these bytes modulo `2 ^ 32` (`Holds`).
-/

namespace Console

open Monitor

/-! ## What the input is for -/

/-- The committed bytes, the line that is being edited, and how many bytes readers took. -/
structure Line where
  committed : List UInt8
  line : List UInt8
  taken : Nat

namespace Line

def unread (s : Line) : Nat := s.committed.length + s.line.length - s.taken

def add (s : Line) (c : UInt8) : Line :=
  if c = NEWLINE ∨ c = CTRL_D ∨ s.unread + 1 = INPUT_BUF then
    { s with committed := s.committed ++ (s.line ++ [c]), line := [] }
  else { s with line := s.line ++ [c] }

def apply (s : Line) : Event → Line
  | .take => { s with taken := s.taken + 1 }
  | .key c =>
    if c = 0 ∨ c = CTRL_P then s
    else if c = CTRL_U then { s with line := [] }
    else if c = CTRL_H ∨ c = DEL then { s with line := s.line.dropLast }
    else if s.unread = INPUT_BUF then s
    else s.add (if c = RETURN then NEWLINE else c)

end Line

def typed (hist : List Event) : Line := hist.foldl Line.apply ⟨[], [], 0⟩

theorem typed_snoc {hist : List Event} {v : Event} :
    typed (hist ++ [v]) = (typed hist).apply v := by
  simp [typed]

variable {T : Type} {d : Data T} {s : Line} {c : UInt8}

/-! ## The indices -/

/-- The indices and the buffer of `input` for the line editor `s`. -/
structure Ring (s : Line) (d : Data T) : Prop where
  taken : s.taken ≤ s.committed.length
  room : s.committed.length + s.line.length ≤ s.taken + INPUT_BUF
  r : d.r = s.taken % 2 ^ 32
  w : d.w = s.committed.length % 2 ^ 32
  e : d.e = (s.committed.length + s.line.length) % 2 ^ 32
  stored : ∀ j c, s.taken ≤ j → (s.committed ++ s.line)[j]? = some c → d.buf (j % INPUT_BUF) = c
  copied : d.copied = (s.committed.take s.taken).filter (· ≠ CTRL_D)

namespace Ring

section
variable (h : Ring s d)
include h

theorem sub_er : (d.e + 2 ^ 32 - d.r) % 2 ^ 32 = s.unread := by
  have h1 := h.taken
  have h2 := h.room
  rw [h.r, h.e]
  unfold Line.unread
  unfold INPUT_BUF at h2
  omega

theorem sub_wr : (d.w + 2 ^ 32 - d.r) % 2 ^ 32 = s.committed.length - s.taken := by
  have h1 := h.taken
  have h2 := h.room
  rw [h.r, h.w]
  unfold INPUT_BUF at h2
  omega

theorem sub_ew : (d.e + 2 ^ 32 - d.w) % 2 ^ 32 = s.line.length := by
  have h1 := h.taken
  have h2 := h.room
  rw [h.w, h.e]
  unfold INPUT_BUF at h2
  omega

theorem unread_le : s.unread ≤ INPUT_BUF := by
  have := h.room
  unfold Line.unread
  omega

theorem ew_iff : d.e = d.w ↔ s.line = [] := by
  have h1 := h.taken
  have h2 := h.room
  rw [h.w, h.e, ← List.length_eq_zero_iff]
  unfold INPUT_BUF at h2
  omega

theorem rw_iff : d.r = d.w ↔ s.taken = s.committed.length := by
  have h1 := h.taken
  have h2 := h.room
  rw [h.r, h.w]
  unfold INPUT_BUF at h2
  omega

theorem full_iff : d.e = (d.r + INPUT_BUF) % 2 ^ 32 ↔ s.unread = INPUT_BUF := by
  have h1 := h.taken
  have h2 := h.room
  rw [h.r, h.e]
  unfold Line.unread INPUT_BUF
  unfold INPUT_BUF at h2
  omega

theorem log {hist} : Ring s { d with hist } :=
  ⟨h.taken, h.room, h.r, h.w, h.e, h.stored, h.copied⟩

/-! ## Characters -/

theorem erase {n : Nat} (hn : n ≤ s.line.length) :
    Ring { s with line := s.line.take n } { d with e := (s.committed.length + n) % 2 ^ 32 } := by
  refine ⟨h.taken, ?_, h.r, h.w, ?_, fun j c hj hc => h.stored j c hj ?_, h.copied⟩
  · have h2 := h.room
    simp only [List.length_take]
    omega
  · simp only [List.length_take, Nat.min_eq_left hn]
  · have hle : (s.committed ++ s.line.take n) <+: s.committed ++ s.line :=
      (List.prefix_append_right_inj _).2 (List.take_prefix ..)
    obtain ⟨l, hl⟩ := hle
    rw [← hl, List.getElem?_append_left (List.getElem?_eq_some_iff.1 hc).1]
    exact hc

theorem back (hne : s.line ≠ []) : Ring { s with line := s.line.dropLast } d.back := by
  have hpos := List.length_pos_iff.2 hne
  have he : (d.e + (2 ^ 32 - 1)) % 2 ^ 32 = (s.committed.length + (s.line.length - 1)) % 2 ^ 32 := by
    rw [h.e]
    omega
  rw [Data.back, he, List.dropLast_eq_take]
  exact h.erase (Nat.sub_le ..)

end

theorem killLine {n k : Nat} (hp : ∀ i, i < n → d.buf ((k + i) % INPUT_BUF) ≠ NEWLINE)
    (he : d.e = (k + n) % 2 ^ 32) : d.killLine n = { d with e := k % 2 ^ 32 } := by
  induction n generalizing d with
  | zero =>
    rw [Nat.add_zero] at he
    rw [Data.killLine, ← he]
  | succ n ih =>
    have hi : (d.e + (2 ^ 32 - 1)) % INPUT_BUF = (k + n) % INPUT_BUF := by
      rw [he]
      unfold INPUT_BUF
      omega
    have hne : d.get (d.e + (2 ^ 32 - 1)) ≠ NEWLINE := by
      rw [Data.get, hi]
      exact hp n (Nat.lt_succ_self n)
    rw [Data.killLine, if_pos hne, ih (d := d.back) (fun i hlt => hp i (Nat.lt_succ_of_lt hlt))]
    · rw [Data.back]
    · rw [Data.back]
      simp only [he]
      omega

theorem kill (h : Ring s d) (hp : NEWLINE ∉ s.line) :
    Ring { s with line := [] } (d.killLine ((d.e + 2 ^ 32 - d.w) % 2 ^ 32)) := by
  have hbuf : ∀ i, i < s.line.length → d.buf ((s.committed.length + i) % INPUT_BUF) ≠ NEWLINE := by
    intro i hi hn
    have hget : (s.committed ++ s.line)[s.committed.length + i]? = some s.line[i] := by
      rw [List.getElem?_append_right (Nat.le_add_right ..), Nat.add_sub_cancel_left,
        List.getElem?_eq_getElem hi]
    have hb := h.stored _ _ (Nat.le_trans h.taken (Nat.le_add_right ..)) hget
    exact hp (hn ▸ hb ▸ List.getElem_mem hi)
  rw [h.sub_ew, killLine hbuf h.e]
  simpa using h.erase (Nat.zero_le _)

theorem put (h : Ring s d) (hr : s.unread < INPUT_BUF) :
    Ring { s with line := s.line ++ [c] } (d.put c) := by
  have h1 := h.taken
  have hlen : s.committed.length + s.line.length < s.taken + INPUT_BUF := by
    unfold Line.unread at hr
    omega
  refine ⟨h.taken, ?_, h.r, h.w, ?_, fun j b hj hb => ?_, h.copied⟩
  · simp only [List.length_append, List.length_singleton]
    omega
  · simp only [Data.put, h.e, List.length_append, List.length_singleton]
    omega
  · have he : d.e % INPUT_BUF = (s.committed.length + s.line.length) % INPUT_BUF := by
      rw [h.e]
      unfold INPUT_BUF
      omega
    simp only [Data.put, he]
    simp only at hj
    rw [← List.append_assoc] at hb
    rcases Nat.lt_or_ge j (s.committed ++ s.line).length with hlt | hge
    · rw [List.getElem?_append_left hlt] at hb
      rw [List.length_append] at hlt
      -- the two places are less than a ring apart
      have hplace : j % INPUT_BUF ≠ (s.committed.length + s.line.length) % INPUT_BUF := by
        unfold INPUT_BUF at hlen ⊢
        omega
      rw [Function.update_of_ne hplace, h.stored j b hj hb]
    · rw [List.getElem?_append_right hge] at hb
      have hj' : j = s.committed.length + s.line.length := by
        have := (List.getElem?_eq_some_iff.1 hb).1
        simp only [List.length_append, List.length_singleton] at this hge
        omega
      subst hj'
      simp only [List.length_append, Nat.sub_self, List.getElem?_cons_zero,
        Option.some.injEq] at hb
      rw [Function.update_self, hb]

theorem commit (h : Ring s d) :
    Ring { s with committed := s.committed ++ s.line, line := [] } d.commit := by
  have h1 := h.taken
  refine ⟨?_, ?_, h.r, ?_, ?_, ?_, ?_⟩
  · simp only [List.length_append]
    omega
  · simpa using h.room
  · simpa [Data.commit] using h.e
  · simpa [Data.commit] using h.e
  · simpa [Data.commit] using h.stored
  · rw [List.take_append_of_le_length h1]
    exact h.copied

theorem get_r (h : Ring s d) (hne : d.r ≠ d.w) : s.committed[s.taken]? = some (d.get d.r) := by
  have hlt : s.taken < s.committed.length :=
    Nat.lt_of_le_of_ne h.taken (mt h.rw_iff.2 hne)
  have hi : d.r % INPUT_BUF = s.taken % INPUT_BUF := by
    rw [h.r]
    unfold INPUT_BUF
    omega
  have hget : (s.committed ++ s.line)[s.taken]? = some s.committed[s.taken] := by
    rw [List.getElem?_append_left hlt, List.getElem?_eq_getElem hlt]
  rw [Data.get, hi, h.stored _ _ (Nat.le_refl _) hget, List.getElem?_eq_getElem hlt]

theorem take [DecidableEq T] (h : Ring s d) (hne : d.r ≠ d.w) (t : T) (more : Bool) :
    Ring { s with taken := s.taken + 1 }
      (if d.get d.r = CTRL_D then d.take t more else (d.take t more).store (d.get d.r)) := by
  have hget := h.get_r hne
  have hlt : s.taken < s.committed.length := (List.getElem?_eq_some_iff.1 hget).1
  have hroom : s.committed.length + s.line.length ≤ s.taken + 1 + INPUT_BUF := by
    have := h.room
    omega
  have hcopied : (s.committed.take (s.taken + 1)).filter (· ≠ CTRL_D) =
      d.copied ++ [d.get d.r].filter (· ≠ CTRL_D) := by
    rw [List.take_add_one, hget, List.filter_append, h.copied]
    rfl
  have hr : (d.r + 1) % 2 ^ 32 = (s.taken + 1) % 2 ^ 32 := by
    rw [h.r]
    omega
  split
  · rename_i hd
    refine ⟨hlt, hroom, hr, h.w, h.e, fun j c hj => h.stored j c (Nat.le_of_succ_le hj), ?_⟩
    rw [hcopied, hd]
    simp [Data.take]
  · rename_i hd
    refine ⟨hlt, hroom, hr, h.w, h.e, fun j c hj => h.stored j c (Nat.le_of_succ_le hj), ?_⟩
    rw [hcopied]
    simp [Data.take, Data.store, hd]

end Ring

/-! ## The calls -/

structure Holds (s : Line) (d : Data T) : Prop where
  ring : Ring s d
  plain : NEWLINE ∉ s.line

namespace Holds

theorem log (h : Holds s d) {hist} : Holds s { d with hist } :=
  ⟨h.ring.log, h.plain⟩

theorem add (h : Holds s d) (hr : s.unread < INPUT_BUF) : Holds (s.add c)
      (if c = NEWLINE ∨ c = CTRL_D ∨ (d.put c).e = ((d.put c).r + INPUT_BUF) % 2 ^ 32 then
        (d.put c).commit else d.put c) := by
  have hput : Ring { s with line := s.line ++ [c] } (d.put c) := h.ring.put hr
  have hunread : ({ s with line := s.line ++ [c] } : Line).unread = s.unread + 1 := by
    have := h.ring.taken
    simp only [Line.unread, List.length_append, List.length_singleton]
    omega
  simp only [hput.full_iff, hunread, Line.add]
  split
  · exact ⟨hput.commit, List.not_mem_nil⟩
  · rename_i hc
    refine ⟨hput, fun hm => ?_⟩
    rcases List.mem_append.1 hm with hm | hm
    · exact h.plain hm
    · exact hc (.inl (List.mem_singleton.1 hm).symm)

theorem key (h : Holds s d) : Holds (s.apply (.key c)) (d.key c).1 := by
  have hd : Holds s { d with hist := d.hist ++ [.key c] } := h.log
  rw [Data.key]
  by_cases hp : c = CTRL_P
  · rw [if_pos hp, Line.apply, if_pos (.inr hp)]
    exact hd
  rw [if_neg hp]
  by_cases hu : c = CTRL_U
  · have hz : ¬ (c = 0 ∨ c = CTRL_P) := by subst hu; decide
    rw [if_pos hu, Line.apply, if_neg hz, if_pos hu]
    exact ⟨hd.ring.kill hd.plain, List.not_mem_nil⟩
  rw [if_neg hu]
  by_cases hh : c = CTRL_H ∨ c = DEL
  · have hz : ¬ (c = 0 ∨ c = CTRL_P) := by rcases hh with rfl | rfl <;> decide
    rw [if_pos hh, Line.apply, if_neg hz, if_neg hu, if_pos hh]
    split
    · rename_i hne
      exact ⟨hd.ring.back (mt hd.ring.ew_iff.2 hne), fun hm =>
        hd.plain (List.dropLast_sublist _ |>.mem hm)⟩
    · rename_i heq
      have hnil := hd.ring.ew_iff.1 (Decidable.not_not.1 heq)
      have hs : s = { s with line := s.line.dropLast } := by rw [hnil, List.dropLast_nil, ← hnil]
      exact hs ▸ hd
  rw [if_neg hh]
  by_cases hz : c = 0
  · rw [if_neg (fun hc => hc.1 hz), Line.apply, if_pos (.inl hz)]
    exact hd
  have hlt : s.unread < INPUT_BUF ↔ ¬ s.unread = INPUT_BUF := by
    have := h.ring.unread_le
    omega
  rw [Line.apply, if_neg (not_or.2 ⟨hz, hp⟩), if_neg hu, if_neg hh]
  by_cases hfull : s.unread = INPUT_BUF
  · rw [if_pos hfull, if_neg (fun hc => hlt.1 (hd.ring.sub_er ▸ hc.2) hfull)]
    exact hd
  · rw [if_neg hfull]
    change Holds (s.add (Data.newline c)) _
    rw [if_pos ⟨hz, hd.ring.sub_er.symm ▸ hlt.2 hfull⟩]
    have hadd := hd.add (c := Data.newline c) (hlt.2 hfull)
    simp only
    split
    · rename_i hc
      rw [if_pos hc] at hadd
      exact hadd
    · rename_i hc
      rw [if_neg hc] at hadd
      exact hadd

end Holds

theorem killLine_history (n : Nat) (d : Data T) :
    (d.killLine n).hist = d.hist ∧ (d.killLine n).reads = d.reads := by
  induction n generalizing d with
  | zero => exact ⟨rfl, rfl⟩
  | succ n ih =>
    rw [Data.killLine]
    split
    · have hb := ih d.back
      rwa [Data.back] at hb
    · exact ⟨rfl, rfl⟩

theorem key_history (d : Data T) (c : UInt8) :
    (d.key c).1.hist = d.hist ++ [.key c] ∧ (d.key c).1.reads = d.reads := by
  grind [Data.key, Data.back, Data.put, Data.commit, killLine_history]

theorem key_reads {d' : Data T} {b : Bool} (hk : d.key c = (d', b)) : d'.reads = d.reads := by
  rw [← (key_history d c).2, hk]

theorem holds_boot {killed : T → Bool} :
    Holds (typed (boot killed).data.hist) (boot killed).data := by
  refine ⟨⟨?_, ?_, rfl, rfl, rfl, ?_, rfl⟩, List.not_mem_nil⟩
  · exact Nat.zero_le _
  · exact Nat.zero_le _
  · intro j c _ hc
    cases hc

variable [DecidableEq T]

theorem act_holds (h : Holds (typed d.hist) d) (t : T) (p : Pc) :
    Holds (typed ((act t p d).data d).hist) ((act t p d).data d) := by
  have htake (hne : d.r ≠ d.w) (more : Bool) : Holds (typed (d.hist ++ [.take]))
      (if d.get d.r = CTRL_D then d.take t more else (d.take t more).store (d.get d.r)) := by
    rw [typed_snoc]
    exact ⟨h.ring.take hne t more, h.plain⟩
  have heof (hne : d.r ≠ d.w) (hc : d.get d.r = CTRL_D) (more : Bool) :
      Holds (typed (d.hist ++ [.take])) (d.take t more) := by
    simpa only [if_pos hc] using htake hne more
  have hbyte (hne : d.r ≠ d.w) (hc : d.get d.r ≠ CTRL_D) (more : Bool) :
      Holds (typed (d.hist ++ [.take])) ((d.take t more).store (d.get d.r)) := by
    simpa only [if_neg hc] using htake hne more
  have hkey : ∀ {c d' b}, d.key c = (d', b) → Holds (typed d'.hist) d' := by
    intro c d' b hk
    have hd : (d.key c).1 = d' := by rw [hk]
    rw [← hd, (key_history d c).1, typed_snoc]
    exact h.key
  fun_cases act t p d with
  | case2 c cs d' hk => exact hkey hk
  | case3 c cs d' hk => exact hkey hk
  | case8 _ _ _ hne c hc _ => exact heof hne hc false
  | case9 _ _ _ hne _ hc _ => exact hbyte hne hc _
  | case10 _ _ _ hne _ hc _ => exact hbyte hne hc _
  | _ => exact h

/-- **In every reachable state the ring holds what was typed.** -/
theorem Reach.holds {s : State T Unit (Data T) Pc} (h : Reach s) :
    Holds (typed s.data.hist) s.data := by
  induction h with
  | boot => exact holds_boot
  | step _ hs ih =>
    cases hs.effect with
    | still hd => exact hd ▸ ih
    | call _ _ hd => exact hd ▸ ih
    | @act t _ hd => exact hd ▸ act_holds ih t _
    | after ha => cases ha
    | poke hp =>
      rw [hp]
      exact ⟨⟨ih.ring.taken, ih.ring.room, ih.ring.r, ih.ring.w, ih.ring.e, ih.ring.stored,
        ih.ring.copied⟩, ih.plain⟩

/-! ## Reads -/

/-- What one read takes: an end of file alone, or bytes up to a newline. -/
def OneRead (l : List UInt8) : Prop := l = [CTRL_D] ∨ CTRL_D ∉ l ∧ NEWLINE ∉ l.dropLast

/-- `ls` are the bytes that the reads of a process at `p` took, the last read first. -/
structure Reading (p : Pc) (ls : List (List UInt8)) : Prop where
  ends : ∀ l ∈ ls, OneRead l
  /-- A read that goes on has met no end of file and no newline. -/
  goes : ∀ target n, p = .read target n → n < target →
    ∃ l ls', ls = l :: ls' ∧ CTRL_D ∉ l ∧ NEWLINE ∉ l

namespace Reading

variable {p q : Pc} {ls : List (List UInt8)} {t u : T} {target n : Int}

theorem start (h : Reading p ls) (hq : ∀ target n, q = .read target n → target = n) : Reading q ls := by
  refine ⟨h.ends, fun target n he hlt => ?_⟩
  have := hq target n he
  omega

/-- The byte that a read takes follows those it took before. -/
theorem take (h : Reading (.read target n) (d.reads t)) :
    ∃ l ls', (d.take t (n < target)).reads t = (l ++ [d.get d.r]) :: ls' ∧
      (∀ x ∈ ls', OneRead x) ∧ CTRL_D ∉ l ∧ NEWLINE ∉ l := by
  by_cases hlt : n < target
  · obtain ⟨l, ls', he, hd, hn⟩ := h.goes target n rfl hlt
    refine ⟨l, ls', ?_, fun x hx => h.ends x (he ▸ List.mem_cons_of_mem l hx), hd, hn⟩
    simp [Data.take, hlt, he]
  · refine ⟨[], d.reads t, ?_, h.ends, List.not_mem_nil, List.not_mem_nil⟩
    simp [Data.take, hlt]

theorem eof (h : Reading (.read target n) (d.reads t)) (hd : d.get d.r = CTRL_D) {r : Int} :
    Reading (.ret r) ((d.take t false).reads t) := by
  refine ⟨fun l hl => ?_, fun _ _ he => nomatch he⟩
  simp only [Data.take, Function.update_self, hd, List.mem_cons] at hl
  rcases hl with rfl | hl
  · exact .inl rfl
  · exact h.ends l hl

theorem byte (h : Reading (.read target n) (d.reads t)) (hd : d.get d.r ≠ CTRL_D)
    (hq : ∀ target' n', q = .read target' n' → d.get d.r ≠ NEWLINE) :
    Reading q ((d.take t (n < target)).reads t) := by
  obtain ⟨l, ls', he, hends, hld, hln⟩ := h.take
  have hmem {c : UInt8} (hl : c ∉ l) (hc : d.get d.r ≠ c) : c ∉ l ++ [d.get d.r] := by
    simp [hl, hc.symm]
  rw [he]
  refine ⟨fun x hx => ?_, fun target' n' hp _ => ⟨_, _, rfl, hmem hld hd, hmem hln (hq _ _ hp)⟩⟩
  rcases List.mem_cons.1 hx with rfl | hx
  · exact .inr ⟨hmem hld hd, by rwa [List.dropLast_concat]⟩
  · exact hends x hx

end Reading

theorem act_reads_other {t u : T} (hu : u ≠ t) (p : Pc) :
    ((act t p d).data d).reads u = d.reads u := by
  have htake (more : Bool) : (d.take t more).reads u = d.reads u := Function.update_of_ne hu ..
  fun_cases act t p d with
  | case2 _ _ _ hk => exact congrFun (key_reads hk) u
  | case3 _ _ _ hk => exact congrFun (key_reads hk) u
  | case8 => exact htake false
  | case9 => exact htake _
  | case10 => exact htake _
  | _ => rfl

theorem act_reading {t : T} {p : Pc} (h : Reading p (d.reads t)) :
    Reading (act t p d).next (((act t p d).data d).reads t) := by
  fun_cases act t p d with
  | case2 _ _ _ hk => exact key_reads hk ▸ h.start fun _ _ he => nomatch he
  | case3 _ _ _ hk => exact key_reads hk ▸ h.start fun _ _ he => nomatch he
  | case8 _ _ _ _ c hc _ => exact h.eof hc
  | case9 _ _ _ _ _ hc _ => exact h.byte hc fun _ _ he => nomatch he
  | case10 _ _ _ _ _ hc hn => exact h.byte hc fun _ _ _ => hn
  | case6 => exact h
  | _ => exact h.start fun _ _ he => nomatch he

theorem call_read {p q : Pc} (h : Call p q) {target n : Int} (he : q = .read target n) : target = n := by
  cases h with
  | intr => cases he
  | read => cases he; rfl

theorem Reach.reading {s : State T Unit (Data T) Pc} (h : Reach s) (t : T) :
    Reading (s.here t) (s.data.reads t) := by
  induction h with
  | boot => exact ⟨(fun _ hl => nomatch hl), fun _ _ he => nomatch he⟩
  | @step _ s s' _ hs ih =>
    cases hs.effect with
    | still hd hh => exact hh ▸ hd ▸ ih
    | @call u l hc _ hd hh =>
      rw [hd, hh]
      by_cases hu : t = u
      · subst hu
        rw [Function.update_self]
        exact ih.start fun _ _ => call_read hc
      · rwa [Function.update_of_ne hu]
    | @act u _ hd hh =>
      rw [hd, hh]
      by_cases hu : t = u
      · subst hu
        rw [Function.update_self]
        exact act_reading ih
      · rw [Function.update_of_ne hu]
        exact (act_reads_other hu _).symm ▸ ih
    | after ha => cases ha
    | poke hp hh =>
      rw [hp, hh]
      exact ih

/-- **The line discipline.** What readers got is a prefix of the committed input without its
end-of-file characters, whatever is typed and whoever reads. A read takes an end of file alone or
bytes up to a newline; where an end of file is next, the read ends there, and leaves it for the next
read if it has bytes. -/
theorem console_line {s : State T Unit (Data T) Pc} (h : Reach s) :
    (s.data.w + 2 ^ 32 - s.data.r) % 2 ^ 32 ≤ (s.data.e + 2 ^ 32 - s.data.r) % 2 ^ 32 ∧
    (s.data.e + 2 ^ 32 - s.data.r) % 2 ^ 32 ≤ INPUT_BUF ∧
    s.data.copied <+: (typed s.data.hist).committed.filter (· ≠ CTRL_D) ∧
    (∀ t, ∀ l ∈ s.data.reads t, OneRead l) ∧
    ∀ t target n, 0 < n → (typed s.data.hist).committed[(typed s.data.hist).taken]? = some CTRL_D →
      act t (.read target n) s.data =
        .set (if n < target then s.data else s.data.take t false) (.ret (target - n)) := by
  have hr := h.holds.ring
  rw [hr.sub_wr, hr.sub_er, hr.copied]
  refine ⟨?_, hr.unread_le, (List.take_prefix ..).filter _, fun t => (h.reading t).ends, ?_⟩
  · unfold Line.unread
    omega
  · intro t target n hn hnext
    have hne : s.data.r ≠ s.data.w := fun he => by
      rw [hr.rw_iff.1 he, List.getElem?_eq_none (Nat.le_refl _)] at hnext
      cases hnext
    have hc : s.data.get s.data.r = CTRL_D := Option.some.inj ((hr.get_r hne).symm.trans hnext)
    simp only [act, if_pos hn, if_neg hne, if_pos hc]
    split <;> rfl

/-- `a^D` is typed: a read of two bytes gets `a`, and the next one the end of file. -/
theorem console_line_eof : ∃ s : State Unit Unit (Data Unit) Pc,
    Reach s ∧ s.data.copied = [97] ∧ s.data.reads () = [[CTRL_D], [97]] ∧ s.here () = .ret 0 ∧
    s.data.copied <+: (typed s.data.hist).committed.filter (· ≠ CTRL_D) ∧
    ∀ l ∈ s.data.reads (), OneRead l := by
  have h0 : Reach (boot fun _ : Unit => false) := .boot
  have h1 := h0.step (.acquire (t := ()) rfl (.intr [97, CTRL_D]) rfl)
  have h2 := h1.step (.set (t := ()) rfl rfl)
  have h3 := h2.step (.set (t := ()) rfl rfl)
  have h4 := h3.step (.wake (t := ()) rfl rfl rfl)
  have h5 := h4.step (.scan (t := ()) rfl)
  have h6 := h5.step (.woken (t := ()) rfl)
  have h7 := h6.step (.leave (t := ()) rfl rfl)
  have h8 := h7.step (.acquire (t := ()) rfl (.read 2) rfl)
  have h9 := h8.step (.set (t := ()) rfl rfl)
  have h10 := h9.step (.set (t := ()) rfl rfl)
  have h11 := h10.step (.leave (t := ()) rfl rfl)
  have h12 := h11.step (.acquire (t := ()) rfl (.read 2) rfl)
  have h13 := h12.step (.set (t := ()) rfl rfl)
  have hline := console_line h13
  exact ⟨_, h13, rfl, rfl, rfl, hline.2.2.1, hline.2.2.2.1 ()⟩

end Console
