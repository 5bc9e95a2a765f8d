import Xv6.User.Proof.Shell

/-!
# The words of a command

A word ends at a character that is in no word (`IsWord`). So `nulterminate`, which writes a NUL there,
leaves each argument and file as a string of its own (`readStr_nulterminate`).
-/

namespace Sh

/-! ## Words -/

def Cmd.words : Cmd → List (Nat × Nat)
  | .exec argv => argv
  | .redir cmd file efile _ _ => (file, efile) :: cmd.words
  | .pipe left right => left.words ++ right.words
  | .list left right => left.words ++ right.words
  | .back cmd => cmd.words

def readStr (c : Nat → Char) : Nat → List Char
  | 0 => []
  | s + 1 => if c (s + 1) = NUL then [] else c (s + 1) :: readStr c s

def text (c : Nat → Char) (q eq : Nat) : List Char := (List.range (q - eq)).map fun i => c (q - i)

/-- `w` is a word: its characters are neither NUL nor white space nor symbols, and it ends at one that
is. -/
structure IsWord (c : Nat → Char) (w : Nat × Nat) : Prop where
  le : w.2 ≤ w.1
  char : ∀ j, w.2 < j → j ≤ w.1 → c j ∉ NUL :: (whitespace ++ symbols)
  stop : c w.2 ∈ NUL :: (whitespace ++ symbols)

section
variable {s : Str} {k : Nat} {ts : List Token} {t : Token} {c : Nat → Char} {cmd : Cmd}
  {rs : List Redirection} {args : List (Nat × Nat)} {nt : Nonterminal} {w : Nat × Nat}

theorem word_char (c : Nat → Char) {k j : Nat} (h : word c k < j) (hj : j ≤ k) :
    c j ∉ whitespace ∧ c j ∉ symbols := by
  induction k with
  | zero => omega
  | succ k ih =>
    rw [word] at h
    split at h
    · next hc =>
      rcases Nat.lt_or_eq_of_le hj with hj | rfl
      · exact ih h (Nat.le_of_lt_succ hj)
      · exact hc
    · omega

theorem word_stop (h : c 0 = NUL) (k : Nat) : c (word c k) ∈ NUL :: (whitespace ++ symbols) := by
  induction k with
  | zero => exact List.mem_cons.2 (.inl h)
  | succ k ih =>
    rw [word]
    split
    · exact ih
    · next hc =>
      rw [List.mem_cons, List.mem_append]
      tauto

theorem At.isWord (h : At s k ts) (ht : t ∈ ts) (ha : t.ret = 'a') : IsWord s.chr (t.q, t.eq) := by
  induction ts generalizing k with
  | nil => exact absurd ht List.not_mem_nil
  | cons t' ts ih =>
    rcases List.mem_cons.1 ht with rfl | ht
    · have he := h.eq
      rw [tokens] at he
      split at he
      · exact absurd he (List.cons_ne_nil t ts).symm
      · next h0 =>
        obtain ⟨rfl, -⟩ := List.cons.inj he
        have hk := h.skip.le
        rcases (scan_spec h0 (ne_zero_of_ne_nul h0) (skip_end s.nul k)).2.2 with ⟨-, hna, -⟩ | ⟨-, -, hw⟩
        · exact absurd ha hna
        refine ⟨?_, fun j h1 h2 => ?_, ?_⟩
        · show (scan s.chr (Sh.skip s.chr k)).2 ≤ Sh.skip s.chr k
          rw [hw]
          exact word_le _ _
        · obtain ⟨hws, hsy⟩ := word_char s.chr (hw ▸ h1) h2
          rw [List.mem_cons, List.mem_append]
          exact not_or.2 ⟨s.ne_nul j (by omega) (Nat.le_trans h2 hk), not_or.2 ⟨hws, hsy⟩⟩
        · show s.chr (scan s.chr (Sh.skip s.chr k)).2 ∈ _
          rw [hw]
          exact word_stop s.nul _
    · obtain ⟨k', -, h', -⟩ := h.gettoken
      exact ih h' ht

def WordOf (ts : List Token) (w : Nat × Nat) : Prop := ∃ t ∈ ts, t.ret = 'a' ∧ w = (t.q, t.eq)

theorem WordOf.mono {ts' : List Token} (h : WordOf ts w) (hs : ∀ t ∈ ts, t ∈ ts') : WordOf ts' w := by
  obtain ⟨t, ht, ha, he⟩ := h
  exact ⟨t, hs t ht, ha, he⟩

theorem mem_words_wrap : w ∈ (wrap rs cmd).words ↔
    w ∈ rs.map (fun r => (r.file, r.efile)) ∨ w ∈ cmd.words := by
  induction rs using List.reverseRecOn with
  | nil => simp [wrap]
  | append_singleton rs r ih =>
    rw [wrap_append]
    show w ∈ (r.file, r.efile) :: (wrap rs cmd).words ↔ _
    rw [List.mem_cons, ih, List.map_append, List.mem_append, List.map_singleton, List.mem_singleton]
    tauto

theorem words_backs (n : Nat) : (backs n cmd).words = cmd.words := by
  induction n generalizing cmd with
  | zero => rfl
  | succ n ih => exact ih

theorem Redirs.words (h : Redirs ts rs) (hw : w ∈ rs.map fun r => (r.file, r.efile)) :
    WordOf ts w := by
  induction h with
  | nil => exact absurd hw List.not_mem_nil
  | input _ ha _ ih | output _ ha _ ih =>
    rcases List.mem_cons.1 hw with rfl | hw
    · exact ⟨_, List.mem_cons_of_mem _ List.mem_cons_self, ha, rfl⟩
    · exact (ih hw).mono fun t ht => List.mem_cons_of_mem _ (List.mem_cons_of_mem _ ht)

theorem Args.words (h : Args ts args rs)
    (hw : w ∈ args ∨ w ∈ rs.map fun r => (r.file, r.efile)) : WordOf ts w := by
  induction h with
  | nil => exact absurd hw (by simp)
  | cons ha hred _ ih =>
    rw [List.mem_cons, List.map_append, List.mem_append] at hw
    rcases hw with (rfl | hw) | hw | hw
    · exact ⟨_, List.mem_cons_self, ha, rfl⟩
    · exact (ih (.inl hw)).mono fun t ht => List.mem_append_right _ ht
    · exact (hred.words hw).mono fun t ht => List.mem_append_left _ (List.mem_cons_of_mem _ ht)
    · exact (ih (.inr hw)).mono fun t ht => List.mem_append_right _ ht

theorem Derives.words (h : Derives nt ts cmd) (hw : w ∈ cmd.words) : WordOf ts w := by
  induction h with
  | last _ _ ih =>
    rw [words_backs] at hw
    exact (ih hw).mono fun t ht => List.mem_append_left _ ht
  | seq _ _ _ _ ih ih' =>
    rcases List.mem_append.1 hw with hw | hw
    · rw [words_backs] at hw
      exact (ih hw).mono fun t ht => List.mem_append_left _ ht
    · exact (ih' hw).mono fun t ht => by simp [ht]
  | one _ ih => exact ih hw
  | pipe _ _ _ ih ih' =>
    rcases List.mem_append.1 hw with hw | hw
    · exact (ih hw).mono fun t ht => List.mem_append_left _ ht
    · exact (ih' hw).mono fun t ht => by simp [ht]
  | block _ _ _ hred ih =>
    rcases mem_words_wrap.1 hw with hw | hw
    · exact (hred.words hw).mono fun t ht => by simp [ht]
    · exact (ih hw).mono fun t ht => by simp [ht]
  | simple hred hargs _ =>
    rw [mem_words_wrap, List.map_append, List.mem_append] at hw
    rcases hw with (hw | hw) | hw
    · exact (hred.words hw).mono fun t ht => List.mem_append_left _ ht
    · exact (hargs.words (.inr hw)).mono fun t ht => List.mem_append_right _ ht
    · exact (hargs.words (.inl hw)).mono fun t ht => List.mem_append_right _ ht

/-! ## Strings -/

theorem foldl_update (c : Nat → Char) (j : Nat) :
    args.foldl (fun c arg => Function.update c arg.2 NUL) c j =
      if j ∈ args.map Prod.snd then NUL else c j := by
  induction args generalizing c with
  | nil => rfl
  | cons a args ih =>
    rw [List.foldl_cons, ih, Function.update_apply, List.map_cons]
    by_cases hj : j = a.2
    · simp [hj]
    · rw [if_neg hj]
      exact if_congr (by rw [List.mem_cons, or_iff_right hj]) rfl rfl

theorem nulterminate_apply (cmd : Cmd) (c : Nat → Char) (j : Nat) :
    nulterminate cmd c j = if j ∈ cmd.words.map Prod.snd then NUL else c j := by
  induction cmd generalizing c with
  | exec argv => exact foldl_update c j
  | redir cmd file efile mode fd ih =>
    rw [nulterminate, Function.update_apply, ih, Cmd.words, List.map_cons]
    by_cases hj : j = efile
    · simp [hj]
    · rw [if_neg hj]
      exact if_congr (by rw [List.mem_cons, or_iff_right hj]) rfl rfl
  | pipe left right ih ih' | list left right ih ih' =>
    rw [nulterminate, ih', ih, Cmd.words, List.map_append]
    by_cases hr : j ∈ right.words.map Prod.snd
    · rw [if_pos hr, if_pos (List.mem_append_right _ hr)]
    · rw [if_neg hr]
      exact if_congr (by rw [List.mem_append, or_iff_left hr]) rfl rfl
  | back cmd ih => exact ih c

theorem readStr_eq {b : Nat → Char} {q e : Nat} (he : e ≤ q) (hc : ∀ j, e < j → j ≤ q → b j ≠ NUL)
    (hb : b e = NUL) : readStr b q = text b q e := by
  induction q with
  | zero =>
    obtain rfl : e = 0 := Nat.le_zero.1 he
    rfl
  | succ q ih =>
    rw [readStr]
    rcases Nat.lt_or_eq_of_le he with h | rfl
    · rw [if_neg (hc (q + 1) h (Nat.le_refl _)), ih (Nat.le_of_lt_succ h) fun j h1 h2 =>
        hc j h1 (Nat.le_succ_of_le h2), text, text, Nat.succ_sub (Nat.le_of_lt_succ h),
        List.range_succ_eq_map, List.map_cons, List.map_map]
      refine congrArg _ (List.map_congr_left fun i _ => ?_)
      show b (q - i) = b (q + 1 - (i + 1))
      rw [Nat.add_sub_add_right]
    · rw [if_pos hb, text, Nat.sub_self]
      rfl

theorem readStr_nulterminate (h : ∀ w ∈ cmd.words, IsWord c w) (hw : w ∈ cmd.words) :
    readStr (nulterminate cmd c) w.1 = text c w.1 w.2 := by
  have hkeep : ∀ j, w.2 < j → j ≤ w.1 → nulterminate cmd c j = c j := by
    intro j h1 h2
    rw [nulterminate_apply, if_neg]
    intro hm
    obtain ⟨v, hv, rfl⟩ := List.mem_map.1 hm
    exact (h w hw).char _ h1 h2 (h v hv).stop
  have hne : ∀ j, w.2 < j → j ≤ w.1 → nulterminate cmd c j ≠ NUL := by
    intro j h1 h2 hn
    rw [hkeep j h1 h2] at hn
    exact (h w hw).char j h1 h2 (List.mem_cons.2 (.inl hn))
  have hend : nulterminate cmd c w.2 = NUL := by
    rw [nulterminate_apply, if_pos (List.mem_map_of_mem hw)]
  rw [readStr_eq (h w hw).le hne hend]
  refine List.map_congr_left fun i hi => hkeep _ ?_ (Nat.sub_le _ _)
  have := List.mem_range.1 hi
  omega

/-! ## The result -/

theorem parsecmd_of_panic {text : String} (h : Returns (fun n => parseline s.chr n s.len) (.panic text)) :
    Returns (fun n => parsecmd n s) (.error text) := by
  obtain ⟨N, hN⟩ := h
  refine ⟨N, fun n hn => ?_⟩
  simp only [parsecmd, hN n hn]

theorem parsecmd_of_ok (h : Returns (fun n => parseline s.chr n s.len) (.ok cmd k)) (hk : At s k ts) :
    Returns (fun n => parsecmd n s)
      (if ts = [] then .ok (cmd, nulterminate cmd s.chr) else .error "syntax") := by
  obtain ⟨N, hN⟩ := h
  refine ⟨N, fun n hn => ?_⟩
  simp only [parsecmd, hN n hn, peek, ne_eq, ite_not, hk.skip_eq]
  split <;> rfl

theorem at_start (s : Str) : At s s.len (tokens s s.len) := ⟨Nat.le_refl _, rfl⟩

theorem parsecmd_complete (hd : Derives .line (tokens s s.len) cmd) :
    Returns (fun n => parsecmd n s) (.ok (cmd, nulterminate cmd s.chr)) := by
  have hat : At s s.len (tokens s s.len ++ []) := (List.append_nil _).symm ▸ at_start s
  obtain ⟨k, hk, hret⟩ := hd.complete hat (.inl rfl)
  exact parsecmd_of_ok hret hk

theorem parsecmd_sound (s : Str) : ∃ r, Returns (fun n => parsecmd n s) r ∧
    ∀ cmd c, r = .ok (cmd, c) → Derives .line (tokens s s.len) cmd := by
  obtain ⟨r, hret, hq⟩ := parse_sound .line (at_start s)
  cases r with
  | panic text => exact ⟨_, parsecmd_of_panic hret, fun _ _ he => absurd he (by simp)⟩
  | ok cmd k =>
    obtain ⟨ts1, ts2, hts, hk, hd⟩ := hq cmd k rfl
    refine ⟨_, parsecmd_of_ok hret hk, fun cmd' c he => ?_⟩
    split at he
    · next hnil =>
      obtain ⟨rfl, -⟩ := Prod.mk.inj (Except.ok.inj he)
      rw [hts, hnil, List.append_nil]
      exact hd
    · exact absurd he (by simp)

theorem parsecmd_strings {c : Nat → Char} (h : Returns (fun n => parsecmd n s) (.ok (cmd, c)))
    (hw : w ∈ cmd.words) : WordOf (tokens s s.len) w ∧ readStr c w.1 = text s.chr w.1 w.2 := by
  obtain ⟨r, hr, hd⟩ := parsecmd_sound s
  have hd := hd cmd c (hr.unique h)
  obtain ⟨-, rfl⟩ := Prod.mk.inj (Except.ok.inj (h.unique (parsecmd_complete hd)))
  refine ⟨hd.words hw, readStr_nulterminate (fun v hv => ?_) hw⟩
  obtain ⟨t, ht, ha, rfl⟩ := hd.words hv
  exact (at_start s).isWord ht ha

/-- **The shell accepts its grammar**: `parsecmd` returns, with a command if and only if the command is
derived from the tokens, and the strings of the command are then the words. -/
theorem parsecmd_grammar (s : Str) : ∃ r, Returns (fun fuel => parsecmd fuel s) r ∧
      (∀ cmd, (∃ c, r = .ok (cmd, c)) ↔ Derives .line (tokens s s.len) cmd) ∧
      ∀ cmd c, r = .ok (cmd, c) → ∀ w ∈ cmd.words, readStr c w.1 = text s.chr w.1 w.2 := by
  obtain ⟨r, hret, hsound⟩ := parsecmd_sound s
  refine ⟨r, hret, fun cmd => ⟨fun ⟨c, he⟩ => hsound cmd c he, fun hd => ?_⟩, ?_⟩
  · exact ⟨_, hret.unique (parsecmd_complete hd)⟩
  · rintro cmd c rfl w hw
    exact (parsecmd_strings hret hw).2

/-- After `nulterminate` each argument and file of an accepted command is a string: the text of the word
that `gettoken` delimited for it. -/
theorem tokens_kept (s : Str) (cmd : Cmd) (c : Nat → Char)
    (h : Returns (fun fuel => parsecmd fuel s) (.ok (cmd, c))) :
    ∀ w ∈ cmd.words, (∃ t ∈ tokens s s.len, t.ret = 'a' ∧ w = (t.q, t.eq)) ∧
      readStr c w.1 = text s.chr w.1 w.2 :=
  fun _ hw => parsecmd_strings h hw

end

def Str.ofList (l : List Char) (h : NUL ∉ l) : Str where
  len := l.length
  chr k := if k = 0 then NUL else l.getD (l.length - k) NUL
  nul := rfl
  ne_nul k h1 h2 := by
    rw [if_neg (by omega), List.getD_eq_getElem?_getD, List.getElem?_eq_getElem (by omega),
      Option.getD_some]
    exact fun he => h (he ▸ List.getElem_mem _)

def redirected : Str := .ofList ['a', '<', 'b'] (by decide)

theorem tokens_redirected : tokens redirected 3 = [⟨'a', 3, 2⟩, ⟨'<', 2, 1⟩, ⟨'a', 1, 0⟩] := by
  have h3 : gettoken redirected.chr 3 = (⟨'a', 3, 2⟩, 2) := rfl
  have h2 : gettoken redirected.chr 2 = (⟨'<', 2, 1⟩, 1) := rfl
  have h1 : gettoken redirected.chr 1 = (⟨'a', 1, 0⟩, 0) := rfl
  rw [tokens, if_neg (by decide), h3, tokens, if_neg (by decide), h2, tokens, if_neg (by decide), h1,
    tokens, if_pos (by decide)]

theorem derives_redirected : Derives .line (tokens redirected 3) (.redir (.exec [(3, 2)]) 1 0 0 0) := by
  rw [tokens_redirected]
  have hr : Redirs [⟨'<', 2, 1⟩, ⟨'a', 1, 0⟩] [⟨1, 0, O_RDONLY, 0⟩] := .input rfl rfl .nil
  have ha : Args [⟨'a', 3, 2⟩, ⟨'<', 2, 1⟩, ⟨'a', 1, 0⟩] [(3, 2)] [⟨1, 0, O_RDONLY, 0⟩] :=
    .cons (w := ⟨'a', 3, 2⟩) rfl hr .nil
  have hd := Derives.simple .nil ha (by decide)
  have hamps : ∀ t ∈ ([] : List Token), t.ret = '&' := nofun
  exact Derives.last (.one hd) hamps

theorem tokens_kept_redirected : ∃ cmd c,
    Returns (fun fuel => parsecmd fuel redirected) (.ok (cmd, c)) ∧
      readStr c 3 = ['a'] ∧ readStr c 1 = ['b'] := by
  have h := parsecmd_complete derives_redirected
  have hw := tokens_kept redirected _ _ h
  exact ⟨_, _, h, (hw (3, 2) (by decide)).2, (hw (1, 0) (by decide)).2⟩

end Sh
