import Mathlib.Data.List.Induction
import Xv6.User.Proof.Tokens

/-!
# The parser accepts its grammar

Every function of the parser returns, and what it returns is derived from the tokens it has passed
(`parse_sound`). Conversely, a derivation is found if what follows it cannot continue it
(`Derives.complete`).
-/

namespace Sh

/-! ## Rules -/

section
variable {α β : Type} {m m' : Nat → Option (Res α)} {f : Nat → α → Nat → Option (Res β)}
  {a : α} {k : Nat} {r : Res β} {text : String} {Q : α → Nat → Prop} {R : β → Nat → Prop}

theorem returns_andThen (h : Returns m (.ok a k)) (hk : Returns (fun n => f n a k) r) :
    Returns (fun n => Res.andThen (m n) (f n)) r := by
  obtain ⟨N, hN⟩ := h
  obtain ⟨M, hM⟩ := hk
  refine ⟨N + M, fun n hn => ?_⟩
  show Res.andThen (m n) (f n) = some r
  rw [hN n (by omega)]
  exact hM n (by omega)

theorem returns_andThen_panic (h : Returns m (.panic text)) :
    Returns (fun n => Res.andThen (m n) (f n)) (.panic text) := by
  obtain ⟨N, hN⟩ := h
  refine ⟨N, fun n hn => ?_⟩
  show Res.andThen (m n) (f n) = _
  rw [hN n hn]
  rfl

/-- The parser returns, and a result that is not a panic is in `Q`. -/
def Parses (m : Nat → Option (Res α)) (Q : α → Nat → Prop) : Prop :=
  ∃ r, Returns m r ∧ ∀ a k, r = .ok a k → Q a k

theorem Parses.ok (h : Q a k) : Parses (fun _ => some (.ok a k)) Q := by
  refine ⟨_, .pure, fun a' k' he => ?_⟩
  obtain ⟨rfl, rfl⟩ := Res.ok.inj he
  exact h

theorem Parses.panic (text : String) : Parses (fun _ => some (.panic text)) Q :=
  ⟨_, .pure, fun _ _ he => absurd he (by simp)⟩

theorem Parses.succ (h : Parses m' Q) (he : ∀ n, m (n + 1) = m' n) : Parses m Q := by
  obtain ⟨r, hr, hq⟩ := h
  exact ⟨r, hr.succ he, hq⟩

theorem Parses.mono {Q' : α → Nat → Prop} (h : Parses m Q) (hq : ∀ a k, Q a k → Q' a k) :
    Parses m Q' := by
  obtain ⟨r, hr, h⟩ := h
  exact ⟨r, hr, fun a k he => hq a k (h a k he)⟩

theorem Parses.andThen (h : Parses m Q) (hf : ∀ a k, Q a k → Parses (fun n => f n a k) R) :
    Parses (fun n => Res.andThen (m n) (f n)) R := by
  obtain ⟨r, hr, hq⟩ := h
  cases r with
  | panic text => exact ⟨_, returns_andThen_panic hr, fun _ _ he => absurd he (by simp)⟩
  | ok a k =>
    obtain ⟨r', hr', hR⟩ := hf a k (hq a k rfl)
    exact ⟨r', returns_andThen hr hr', hR⟩

end

/-! ## What follows -/

/-- What follows a derivation and cannot continue it. -/
def follow : Nonterminal → List Token → Prop
  | .exec, ts => ts = [] ∨ headIn ['|', ')', '&', ';'] ts
  | .pipe, ts => ts = [] ∨ headIn [')', '&', ';'] ts
  | .line, ts => ts = [] ∨ headIn [')'] ts

section
variable {s : Str} {k argc : Nat} {ts rest : List Token} {t w : Token} {toks toks' : List Char}
  {cmd c : Cmd} {rs rs' : List Redirection} {args args' : List (Nat × Nat)} {nt : Nonterminal}

theorem headIn_cons (h : lead t.ret ∈ toks) : headIn toks (t :: ts) = true := decide_eq_true h

theorem headIn_mono (h : headIn toks ts = true) (hsub : toks.all toks'.contains = true) :
    headIn toks' ts = true := by
  cases ts with
  | nil => exact absurd h (by simp [headIn])
  | cons t ts =>
    have ht := List.all_eq_true.1 hsub _ (of_decide_eq_true h)
    exact headIn_cons (List.contains_iff_mem.1 ht)

theorem headIn_false (h : ts = [] ∨ headIn toks ts = true)
    (hd : (toks.all fun x => !toks'.contains x) = true) : headIn toks' ts = false := by
  cases ts with
  | nil => rfl
  | cons t ts =>
    have ht := of_decide_eq_true (h.resolve_left (List.cons_ne_nil t ts))
    refine decide_eq_false fun hm => ?_
    have := List.all_eq_true.1 hd _ ht
    rw [List.contains_iff_mem.2 hm] at this
    exact absurd this (by decide)

/-! ## Redirections -/

theorem wrap_append : wrap (rs ++ rs') cmd = wrap rs' (wrap rs cmd) := List.foldl_append

theorem addArg_wrap (arg : Nat × Nat) :
    (wrap rs (.exec args)).addArg arg = wrap rs (.exec (args ++ [arg])) := by
  induction rs using List.reverseRecOn with
  | nil => rfl
  | append_singleton rs r ih =>
    rw [wrap_append, wrap_append, ← ih]
    rfl

theorem parseredirs_stop (h : At s k ts) (hh : headIn ['<', '>'] ts = false) (cmd : Cmd) :
    ∃ k', At s k' ts ∧ Returns (fun n => parseredirs s.chr n cmd k) (.ok cmd k') := by
  obtain ⟨k', hp, hk'⟩ := h.peek ['<', '>'] (by decide)
  refine ⟨k', hk', Returns.pure.succ fun n => ?_⟩
  rw [parseredirs, hp, hh]
  rfl

theorem parseredirs_go (h : At s k (t :: w :: ts)) (hh : lead t.ret ∈ ['<', '>']) (hw : w.ret = 'a')
    (cmd : Cmd) : ∃ k', At s k' ts ∧ ∀ r,
      Returns (fun n => parseredirs s.chr n (redirect t.ret cmd w.q w.eq) k') r →
        Returns (fun n => parseredirs s.chr n cmd k) r := by
  obtain ⟨k1, hp, h1⟩ := h.peek ['<', '>'] (by decide)
  obtain ⟨k2, hg, h2, -⟩ := h1.gettoken
  obtain ⟨k3, hg', h3, -⟩ := h2.gettoken
  refine ⟨k3, h3, fun r hr => hr.succ fun n => ?_⟩
  rw [parseredirs, hp, headIn_cons hh]
  simp only [hg, hg', if_true, hw, ne_eq, not_true_eq_false, if_false]

theorem parseredirs_fail (h : At s k (t :: ts)) (hh : lead t.ret ∈ ['<', '>'])
    (hw : ∀ w rest, ts = w :: rest → w.ret ≠ 'a') (cmd : Cmd) :
    Returns (fun n => parseredirs s.chr n cmd k) (.panic "missing file for redirection") := by
  obtain ⟨k1, hp, h1⟩ := h.peek ['<', '>'] (by decide)
  obtain ⟨k2, hg, h2, -⟩ := h1.gettoken
  obtain ⟨file, k3, hg', hfile⟩ : ∃ file k3, gettoken s.chr k2 = (file, k3) ∧ file.ret ≠ 'a' := by
    cases ts with
    | nil =>
      obtain ⟨w, k3, hg', -, hnul⟩ := h2.gettoken_nil
      exact ⟨w, k3, hg', by rw [hnul]; decide⟩
    | cons w ts =>
      obtain ⟨k3, hg', -⟩ := h2.gettoken
      exact ⟨w, k3, hg', hw w ts rfl⟩
  refine Returns.pure.succ fun n => ?_
  rw [parseredirs, hp, headIn_cons hh]
  simp only [hg, hg', if_true, hfile, ne_eq, not_false_eq_true]

theorem lead_mem_iff : lead t.ret ∈ ['<', '>'] ↔ t.ret = '<' ∨ t.ret = '>' ∨ t.ret = '+' := by
  unfold lead
  by_cases h : t.ret = '+' <;> simp [h]

theorem redirs_cons (ht : lead t.ret ∈ ['<', '>']) (hw : w.ret = 'a') :
    ∃ r : Redirection, (∀ ts rs, Redirs ts rs → Redirs (t :: w :: ts) (r :: rs)) ∧
      ∀ cmd, redirect t.ret cmd w.q w.eq = wrap [r] cmd := by
  rcases lead_mem_iff.1 ht with h | h
  · refine ⟨_, fun ts rs hr => .input h hw hr, fun cmd => ?_⟩
    rw [h]
    rfl
  · refine ⟨_, fun ts rs hr => .output h hw hr, fun cmd => ?_⟩
    rcases h with h | h <;> rw [h] <;> rfl

theorem parseredirs_sound (h : At s k ts) (cmd : Cmd) :
    Parses (fun n => parseredirs s.chr n cmd k) fun cmd' k' => ∃ ts1 ts2 rs, ts = ts1 ++ ts2 ∧
      At s k' ts2 ∧ Redirs ts1 rs ∧ cmd' = wrap rs cmd := by
  induction hn : ts.length using Nat.strongRecOn generalizing ts k cmd with
  | _ n ih =>
  cases hh : headIn ['<', '>'] ts with
  | false =>
    obtain ⟨k', hk', hret⟩ := parseredirs_stop h hh cmd
    refine ⟨_, hret, fun cmd' k'' he => ?_⟩
    obtain ⟨rfl, rfl⟩ := Res.ok.inj he
    exact ⟨[], ts, [], rfl, hk', .nil, rfl⟩
  | true =>
    cases ts with
    | nil => exact absurd hh (by simp [headIn])
    | cons t ts =>
      have ht := of_decide_eq_true hh
      by_cases hw : ∃ w rest, ts = w :: rest ∧ w.ret = 'a'
      · obtain ⟨w, rest, rfl, hw⟩ := hw
        obtain ⟨k1, h1, hgo⟩ := parseredirs_go h ht hw cmd
        obtain ⟨r, hred, hcmd⟩ := redirs_cons ht hw
        obtain ⟨res, hret, hq⟩ := ih rest.length
          (by rw [← hn, List.length_cons, List.length_cons]; omega) h1 (redirect t.ret cmd w.q w.eq) rfl
        refine ⟨res, hgo res hret, fun cmd' k' he => ?_⟩
        obtain ⟨ts1, ts2, rs, rfl, hk', hr, rfl⟩ := hq cmd' k' he
        exact ⟨t :: w :: ts1, ts2, r :: rs, rfl, hk', hred ts1 rs hr, by rw [hcmd]; rfl⟩
      · refine ⟨_, parseredirs_fail h ht (fun w rest he hw' => hw ⟨w, rest, he, hw'⟩) cmd, ?_⟩
        exact fun _ _ he => absurd he (by simp)

theorem Redirs.complete (h : Redirs ts rs) (hk : At s k (ts ++ rest))
    (hf : headIn ['<', '>'] rest = false) (cmd : Cmd) :
    ∃ k', At s k' rest ∧ Returns (fun n => parseredirs s.chr n cmd k) (.ok (wrap rs cmd) k') := by
  induction h generalizing k cmd with
  | nil => exact parseredirs_stop hk hf cmd
  | input ht hw _ ih =>
    obtain ⟨k1, h1, hr⟩ := parseredirs_go hk (lead_mem_iff.2 (.inl ht)) hw cmd
    obtain ⟨k', hk', hret⟩ := ih h1 (redirect '<' cmd _ _)
    exact ⟨k', hk', hr _ (ht ▸ hret)⟩
  | output ht hw _ ih =>
    obtain ⟨k1, h1, hr⟩ := parseredirs_go hk (lead_mem_iff.2 (.inr ht)) hw cmd
    obtain ⟨k', hk', hret⟩ := ih h1 (redirect '>' cmd _ _)
    refine ⟨k', hk', hr _ ?_⟩
    rcases ht with ht | ht <;> rw [ht] <;> exact hret

/-! ## Arguments -/

theorem parseargs_stop (h : At s k ts) (hf : follow .exec ts) (ret : Cmd) (argc : Nat) :
    ∃ k', At s k' ts ∧ Returns (fun n => parseargs s.chr n ret argc k) (.ok ret k') := by
  obtain ⟨k1, hp, h1⟩ := h.peek ['|', ')', '&', ';'] (by decide)
  cases hh : headIn ['|', ')', '&', ';'] ts with
  | true =>
    refine ⟨k1, h1, Returns.pure.succ fun n => ?_⟩
    rw [parseargs, hp, hh]
    rfl
  | false =>
    obtain rfl : ts = [] := hf.resolve_right (by simp [hh])
    obtain ⟨t, k2, hg, h2, hnul⟩ := h1.gettoken_nil
    refine ⟨k2, h2, Returns.pure.succ fun n => ?_⟩
    rw [parseargs, hp, hh]
    simp only [Bool.false_eq_true, if_false, hg, hnul, if_true]

theorem parseargs_go (h : At s k (w :: ts)) (hw : w.ret = 'a') (hn : argc + 1 < MAXARGS) (ret : Cmd) :
    ∃ k', At s k' ts ∧ ∀ n, parseargs s.chr (n + 1) ret argc k =
      Res.andThen (parseredirs s.chr n (ret.addArg (w.q, w.eq)) k') fun ret ps =>
        parseargs s.chr n ret (argc + 1) ps := by
  obtain ⟨k1, hp, h1⟩ := h.peek ['|', ')', '&', ';'] (by decide)
  obtain ⟨k2, hg, h2, hnul⟩ := h1.gettoken
  have hh : headIn ['|', ')', '&', ';'] (w :: ts) = false := by simp [headIn, lead, hw]
  rw [hw] at hnul
  refine ⟨k2, h2, fun n => ?_⟩
  rw [parseargs, hp, hh]
  simp only [Bool.false_eq_true, if_false, hg, if_neg hnul, hw, ne_eq, not_true_eq_false,
    if_neg (Nat.not_le.2 hn)]

theorem parseargs_fail (h : At s k (w :: ts)) (hh : headIn ['|', ')', '&', ';'] (w :: ts) = false)
    (hw : w.ret ≠ 'a' ∨ MAXARGS ≤ argc + 1) (ret : Cmd) :
    ∃ text, Returns (fun n => parseargs s.chr n ret argc k) (.panic text) := by
  obtain ⟨k1, hp, h1⟩ := h.peek ['|', ')', '&', ';'] (by decide)
  obtain ⟨k2, hg, h2, hnul⟩ := h1.gettoken
  by_cases ha : w.ret = 'a'
  · rw [ha] at hnul
    refine ⟨"too many args", Returns.pure.succ fun n => ?_⟩
    rw [parseargs, hp, hh]
    simp only [Bool.false_eq_true, if_false, hg, if_neg hnul, ha, ne_eq, not_true_eq_false,
      if_pos (hw.resolve_left (not_not.2 ha))]
  · refine ⟨"syntax", Returns.pure.succ fun n => ?_⟩
    rw [parseargs, hp, hh]
    simp only [Bool.false_eq_true, if_false, hg, if_neg hnul, ha, ne_eq, not_false_eq_true, if_true]

theorem parseargs_sound (rs : List Redirection) (args : List (Nat × Nat)) (h : At s k ts)
    (hn : args.length < MAXARGS) :
    Parses (fun n => parseargs s.chr n (wrap rs (.exec args)) args.length k) fun cmd k' =>
      ∃ ts1 ts2 args' rs', ts = ts1 ++ ts2 ∧ At s k' ts2 ∧ Args ts1 args' rs' ∧
        (args ++ args').length < MAXARGS ∧ cmd = wrap (rs ++ rs') (.exec (args ++ args')) := by
  induction hl : ts.length using Nat.strongRecOn generalizing ts k args rs with
  | _ n ih =>
  have hstop (hf : follow .exec ts) : Parses (fun n => parseargs s.chr n (wrap rs (.exec args))
      args.length k) fun cmd k' => ∃ ts1 ts2 args' rs', ts = ts1 ++ ts2 ∧ At s k' ts2 ∧
        Args ts1 args' rs' ∧ (args ++ args').length < MAXARGS ∧
        cmd = wrap (rs ++ rs') (.exec (args ++ args')) := by
    obtain ⟨k', hk', hret⟩ := parseargs_stop h hf (wrap rs (.exec args)) args.length
    refine ⟨_, hret, fun cmd' k'' he => ?_⟩
    obtain ⟨rfl, rfl⟩ := Res.ok.inj he
    refine ⟨[], ts, [], [], rfl, hk', .nil, ?_, ?_⟩
    · rw [List.append_nil]
      exact hn
    · rw [List.append_nil, List.append_nil]
  cases ts with
  | nil => exact hstop (.inl rfl)
  | cons w ts =>
    cases hh : headIn ['|', ')', '&', ';'] (w :: ts) with
    | true => exact hstop (.inr hh)
    | false =>
      by_cases hw : w.ret ≠ 'a' ∨ MAXARGS ≤ args.length + 1
      · obtain ⟨text, hret⟩ := parseargs_fail h hh hw (wrap rs (.exec args))
        exact ⟨_, hret, fun _ _ he => absurd he (by simp)⟩
      · obtain ⟨hw, hn'⟩ := not_or.1 hw
        obtain ⟨k1, h1, hgo⟩ := parseargs_go h (not_not.1 hw) (Nat.not_le.1 hn') (wrap rs (.exec args))
        refine Parses.succ ((parseredirs_sound h1 _).andThen ?_) hgo
        rintro _ k2 ⟨ts1, ts2, rs1, rfl, h2, hred, rfl⟩
        rw [addArg_wrap, ← wrap_append]
        have hlen : args.length + 1 = (args ++ [(w.q, w.eq)]).length := by simp
        rw [hlen] at hn' ⊢
        refine (ih ts2.length (by rw [← hl, List.length_cons, List.length_append]; omega) _ _ h2
          (Nat.not_le.1 hn') rfl).mono ?_
        rintro cmd k3 ⟨ts3, ts4, args', rs', rfl, h3, hargs, hlt, rfl⟩
        refine ⟨w :: ts1 ++ ts3, ts4, (w.q, w.eq) :: args', rs1 ++ rs', by simp, h3,
          .cons (not_not.1 hw) hred hargs, ?_, ?_⟩
        · simpa using hlt
        · simp [List.append_assoc]

theorem headIn_redir (hf : follow .exec ts) : headIn ['<', '>'] ts = false :=
  headIn_false hf (by decide)

theorem Args.head (h : Args ts args rs) (hf : follow .exec rest) :
    headIn ['<', '>'] (ts ++ rest) = false := by
  cases h with
  | nil => exact headIn_redir hf
  | cons hw _ _ =>
    simp [headIn, lead, hw]

theorem Args.complete (h : Args ts args' rs') (rs : List Redirection) (args : List (Nat × Nat))
    (hk : At s k (ts ++ rest)) (hf : follow .exec rest) (hn : (args ++ args').length < MAXARGS) :
    ∃ k', At s k' rest ∧ Returns (fun n => parseargs s.chr n (wrap rs (.exec args)) args.length k)
      (.ok (wrap (rs ++ rs') (.exec (args ++ args'))) k') := by
  induction h generalizing k args rs with
  | nil =>
    rw [List.append_nil, List.append_nil]
    exact parseargs_stop hk hf _ _
  | @cons w ts1 ts2 args2 rs1 rs2 hw hred hargs ih =>
    rw [List.append_assoc] at hk
    have hn' : args.length + 1 < MAXARGS := by
      rw [List.length_append, List.length_cons] at hn
      omega
    obtain ⟨k1, h1, hgo⟩ := parseargs_go hk hw hn' (wrap rs (.exec args))
    obtain ⟨k2, h2, hret⟩ := hred.complete h1 (hargs.head hf) ((wrap rs (.exec args)).addArg (w.q, w.eq))
    have hlen : args.length + 1 = (args ++ [(w.q, w.eq)]).length := by simp
    obtain ⟨k', hk', hret'⟩ := ih (rs ++ rs1) (args ++ [(w.q, w.eq)]) h2 (by simpa using hn)
    refine ⟨k', hk', Returns.succ (returns_andThen hret ?_) hgo⟩
    rw [addArg_wrap, ← wrap_append, hlen]
    simpa using hret'

/-! ## Backgrounds -/

theorem headIn_single {x : Char} (h : headIn [x] ts = true) (hx : x ≠ '>') :
    ∃ t ts', ts = t :: ts' ∧ t.ret = x := by
  cases ts with
  | nil => exact absurd h (by simp [headIn])
  | cons t ts =>
    have hl : lead t.ret = x := List.mem_singleton.1 (of_decide_eq_true h)
    unfold lead at hl
    split at hl
    · exact absurd hl.symm hx
    · exact ⟨t, ts, rfl, hl⟩

theorem headIn_of_ret {x : Char} (h : t.ret = x) (hx : lead x ∈ toks) :
    headIn toks (t :: ts) = true :=
  headIn_cons (h ▸ hx)

theorem parseback_stop (h : At s k ts) (hh : headIn ['&'] ts = false) (cmd : Cmd) :
    ∃ k', At s k' ts ∧ Returns (fun n => parseback s.chr n cmd k) (.ok cmd k') := by
  obtain ⟨k', hp, hk'⟩ := h.peek ['&'] (by decide)
  refine ⟨k', hk', Returns.pure.succ fun n => ?_⟩
  rw [parseback, hp, hh]
  rfl

theorem parseback_go (h : At s k (t :: ts)) (ht : t.ret = '&') (cmd : Cmd) : ∃ k', At s k' ts ∧
    ∀ n, parseback s.chr (n + 1) cmd k = parseback s.chr n (.back cmd) k' := by
  obtain ⟨k1, hp, h1⟩ := h.peek ['&'] (by decide)
  obtain ⟨k2, hg, h2, -⟩ := h1.gettoken
  refine ⟨k2, h2, fun n => ?_⟩
  rw [parseback, hp, headIn_of_ret ht (by decide)]
  simp only [hg, if_true]

theorem parseback_sound (h : At s k ts) (cmd : Cmd) :
    Parses (fun n => parseback s.chr n cmd k) fun cmd' k' => ∃ amps ts2, ts = amps ++ ts2 ∧
      At s k' ts2 ∧ (∀ t ∈ amps, t.ret = '&') ∧ cmd' = backs amps.length cmd := by
  induction ts generalizing k cmd with
  | nil =>
    obtain ⟨k', hk', hret⟩ := parseback_stop h rfl cmd
    refine ⟨_, hret, fun cmd' k'' he => ?_⟩
    obtain ⟨rfl, rfl⟩ := Res.ok.inj he
    exact ⟨[], [], rfl, hk', fun t ht => absurd ht List.not_mem_nil, rfl⟩
  | cons t ts ih =>
    cases hh : headIn ['&'] (t :: ts) with
    | false =>
      obtain ⟨k', hk', hret⟩ := parseback_stop h hh cmd
      refine ⟨_, hret, fun cmd' k'' he => ?_⟩
      obtain ⟨rfl, rfl⟩ := Res.ok.inj he
      exact ⟨[], t :: ts, rfl, hk', fun t ht => absurd ht List.not_mem_nil, rfl⟩
    | true =>
      obtain ⟨_, _, he, ht⟩ := headIn_single hh (by decide)
      obtain ⟨rfl, rfl⟩ := List.cons.inj he
      obtain ⟨k1, h1, hgo⟩ := parseback_go h ht cmd
      refine Parses.succ ((ih h1 (.back cmd)).mono ?_) hgo
      rintro cmd' k' ⟨amps, ts2, rfl, hk', hamps, rfl⟩
      refine ⟨t :: amps, ts2, rfl, hk', fun t' ht' => ?_, rfl⟩
      rcases List.mem_cons.1 ht' with rfl | ht'
      · exact ht
      · exact hamps t' ht'

theorem parseback_complete {amps : List Token} (ha : ∀ t ∈ amps, t.ret = '&')
    (h : At s k (amps ++ rest)) (hf : headIn ['&'] rest = false) (cmd : Cmd) : ∃ k', At s k' rest ∧
      Returns (fun n => parseback s.chr n cmd k) (.ok (backs amps.length cmd) k') := by
  induction amps generalizing k cmd with
  | nil => exact parseback_stop h hf cmd
  | cons t amps ih =>
    obtain ⟨k1, h1, hgo⟩ := parseback_go h (ha t List.mem_cons_self) cmd
    obtain ⟨k', hk', hret⟩ := ih (fun t' ht' => ha t' (List.mem_cons_of_mem t ht')) h1 (.back cmd)
    exact ⟨k', hk', hret.succ hgo⟩

/-! ## Soundness -/

def parse (c : Nat → Char) : Nonterminal → Nat → Nat → Option (Res Cmd)
  | .line => parseline c
  | .pipe => parsepipe c
  | .exec => parseexec c

def Post (s : Str) (ts : List Token) (nt : Nonterminal) (c : Cmd) (k : Nat) : Prop :=
  ∃ ts1 ts2, ts = ts1 ++ ts2 ∧ At s k ts2 ∧ Derives nt ts1 c

theorem parseblock_sound (h : At s k (t :: ts)) (ht : t.ret = '(')
    (hline : ∀ k, At s k ts → Parses (fun n => parseline s.chr n k) (Post s ts .line)) :
    Parses (fun n => parseblock s.chr n k) (Post s (t :: ts) .exec) := by
  obtain ⟨k1, hp, h1⟩ := h.peek ['('] (by decide)
  obtain ⟨k2, hg, h2, -⟩ := h1.gettoken
  refine Parses.succ ((hline k2 h2).andThen ?_) fun n => by
    rw [parseblock, hp, headIn_of_ret ht (by decide)]
    simp only [hg, if_true]
    rfl
  rintro cmd k3 ⟨ts1, ts2, rfl, h3, hd⟩
  obtain ⟨k4, hp', h4⟩ := h3.peek [')'] (by decide)
  rw [hp']
  cases hh : headIn [')'] ts2 with
  | false => exact .panic _
  | true =>
    obtain ⟨r, ts2, rfl, hr⟩ := headIn_single hh (by decide)
    obtain ⟨k5, hg', h5, -⟩ := h4.gettoken
    simp only [hg', if_true]
    refine (parseredirs_sound h5 cmd).mono ?_
    rintro cmd' k' ⟨ts3, ts4, rs, rfl, hk', hred, rfl⟩
    exact ⟨t :: (ts1 ++ r :: ts3), ts4, by simp, hk', .block ht hd hr hred⟩

theorem parseexec_sound (h : At s k ts) (hline : ∀ t ts', ts = t :: ts' → ∀ k, At s k ts' →
    Parses (fun n => parseline s.chr n k) (Post s ts' .line)) :
    Parses (fun n => parseexec s.chr n k) (Post s ts .exec) := by
  obtain ⟨k1, hp, h1⟩ := h.peek ['('] (by decide)
  cases hh : headIn ['('] ts with
  | true =>
    obtain ⟨t, ts, rfl, ht⟩ := headIn_single hh (by decide)
    refine (parseblock_sound h1 ht (hline t ts rfl)).succ fun n => ?_
    rw [parseexec, hp, hh]
    rfl
  | false =>
    refine Parses.succ ((parseredirs_sound h1 (.exec [])).andThen ?_) fun n => by
      rw [parseexec, hp, hh]
      rfl
    rintro _ k2 ⟨ts1, ts2, rs, rfl, h2, hred, rfl⟩
    refine (parseargs_sound rs [] h2 (by decide)).mono ?_
    rintro cmd k3 ⟨ts3, ts4, args, rs', rfl, h3, hargs, hn, rfl⟩
    exact ⟨ts1 ++ ts3, ts4, by simp, h3, .simple hred hargs hn⟩

theorem parsepipe_sound (hexec : Parses (fun n => parseexec s.chr n k) (Post s ts .exec))
    (hpipe : ∀ ts' k, ts'.length < ts.length → At s k ts' →
      Parses (fun n => parsepipe s.chr n k) (Post s ts' .pipe)) :
    Parses (fun n => parsepipe s.chr n k) (Post s ts .pipe) := by
  refine Parses.succ (hexec.andThen ?_) fun n => by rw [parsepipe]
  rintro cmd k1 ⟨ts1, ts2, rfl, h1, hd⟩
  obtain ⟨k2, hp, h2⟩ := h1.peek ['|'] (by decide)
  rw [hp]
  cases hh : headIn ['|'] ts2 with
  | false => exact .ok ⟨ts1, ts2, rfl, h2, .one hd⟩
  | true =>
    obtain ⟨bar, ts2, rfl, hb⟩ := headIn_single hh (by decide)
    obtain ⟨k3, hg, h3, -⟩ := h2.gettoken
    simp only [hg, if_true]
    refine (hpipe ts2 k3 (by rw [List.length_append, List.length_cons]; omega) h3).andThen ?_
    rintro right k' ⟨ts3, ts4, rfl, hk', hd'⟩
    exact .ok ⟨ts1 ++ bar :: ts3, ts4, by simp, hk', .pipe hd hb hd'⟩

theorem parseline_sound (hpipe : Parses (fun n => parsepipe s.chr n k) (Post s ts .pipe))
    (hline : ∀ ts' k, ts'.length < ts.length → At s k ts' →
      Parses (fun n => parseline s.chr n k) (Post s ts' .line)) :
    Parses (fun n => parseline s.chr n k) (Post s ts .line) := by
  refine Parses.succ (hpipe.andThen ?_) fun n => by rw [parseline]
  rintro cmd k1 ⟨ts1, ts2, rfl, h1, hd⟩
  refine (parseback_sound h1 cmd).andThen ?_
  rintro _ k2 ⟨amps, ts2, rfl, h2, hamps, rfl⟩
  obtain ⟨k3, hp, h3⟩ := h2.peek [';'] (by decide)
  rw [hp]
  cases hh : headIn [';'] ts2 with
  | false => exact .ok ⟨ts1 ++ amps, ts2, by simp, h3, .last hd hamps⟩
  | true =>
    obtain ⟨semi, ts2, rfl, hs⟩ := headIn_single hh (by decide)
    obtain ⟨k4, hg, h4, -⟩ := h3.gettoken
    simp only [hg, if_true]
    refine (hline ts2 k4 (by simp only [List.length_append, List.length_cons]; omega) h4).andThen ?_
    rintro right k' ⟨ts3, ts4, rfl, hk', hd'⟩
    exact .ok ⟨ts1 ++ (amps ++ semi :: ts3), ts4, by simp, hk', .seq hd hamps hs hd'⟩

/-- **The parser returns**, and a command that it returns is derived. -/
theorem parse_sound (nt : Nonterminal) (h : At s k ts) :
    Parses (fun n => parse s.chr nt n k) (Post s ts nt) := by
  induction hn : ts.length using Nat.strongRecOn generalizing ts k nt with
  | _ n ih =>
  have hexec : Parses (fun n => parseexec s.chr n k) (Post s ts .exec) := by
    refine parseexec_sound h fun t ts' he k' hk' => ih ts'.length ?_ .line hk' rfl
    rw [← hn, he, List.length_cons]
    exact Nat.lt_succ_self _
  have hpipe : Parses (fun n => parsepipe s.chr n k) (Post s ts .pipe) :=
    parsepipe_sound hexec fun ts' k' hlt hk' => ih ts'.length (hn ▸ hlt) .pipe hk' rfl
  cases nt with
  | exec => exact hexec
  | pipe => exact hpipe
  | line => exact parseline_sound hpipe fun ts' k' hlt hk' => ih ts'.length (hn ▸ hlt) .line hk' rfl

/-! ## Completeness -/

theorem simple_head {ts' : List Token} (h : Redirs ts rs) (h' : Args ts' args rs')
    (hf : follow .exec rest) : headIn ['('] (ts ++ (ts' ++ rest)) = false := by
  cases h with
  | input ht _ _ => simp [headIn, lead, ht]
  | output ht _ _ => rcases ht with ht | ht <;> simp [headIn, lead, ht]
  | nil =>
    cases h' with
    | cons hw _ _ => simp [headIn, lead, hw]
    | nil => exact headIn_false hf (by decide)

theorem follow_exec (hf : follow .pipe ts) : follow .exec ts :=
  hf.imp_right fun h => headIn_mono h (by decide)

theorem follow_pipe {amps : List Token} (ha : ∀ t ∈ amps, t.ret = '&') (hf : follow .pipe rest) :
    follow .pipe (amps ++ rest) := by
  cases amps with
  | nil => exact hf
  | cons t amps => exact .inr (headIn_of_ret (ha t List.mem_cons_self) (by decide))

/-- **A derivation is found** if what follows cannot continue it. -/
theorem Derives.complete (h : Derives nt ts c) (hk : At s k (ts ++ rest)) (hf : follow nt rest) :
    ∃ k', At s k' rest ∧ Returns (fun n => parse s.chr nt n k) (.ok c k') := by
  induction h generalizing k rest with
  | last _ ha ih =>
    rw [List.append_assoc] at hk
    have hf' : follow .pipe rest := hf.imp_right fun h => headIn_mono h (by decide)
    obtain ⟨k1, h1, hret⟩ := ih hk (follow_pipe ha hf')
    obtain ⟨k2, h2, hret'⟩ := parseback_complete ha h1 (headIn_false hf (by decide)) _
    obtain ⟨k3, hp, h3⟩ := h2.peek [';'] (by decide)
    refine ⟨k3, h3, (returns_andThen hret (returns_andThen hret' ?_)).succ fun n => by
      rw [parse, parseline]; rfl⟩
    rw [hp, headIn_false hf (by decide)]
    exact .pure
  | @seq ts amps ts' semi c c' _ ha hs _ ih ih' =>
    rw [List.append_assoc, List.append_assoc, List.cons_append] at hk
    have hsemi : headIn [')', '&', ';'] (semi :: (ts' ++ rest)) = true := headIn_of_ret hs (by decide)
    obtain ⟨k1, h1, hret⟩ := ih hk (follow_pipe ha (.inr hsemi))
    have hnot : headIn ['&'] (semi :: (ts' ++ rest)) = false := by simp [headIn, lead, hs]
    obtain ⟨k2, h2, hret'⟩ := parseback_complete ha h1 hnot _
    obtain ⟨k3, hp, h3⟩ := h2.peek [';'] (by decide)
    obtain ⟨k4, hg, h4, -⟩ := h3.gettoken
    obtain ⟨k', hk', hret''⟩ := ih' h4 hf
    refine ⟨k', hk', (returns_andThen hret (returns_andThen hret' ?_)).succ fun n => by
      rw [parse, parseline]; rfl⟩
    rw [hp, headIn_of_ret hs (by decide)]
    simp only [hg, if_true]
    exact returns_andThen hret'' .pure
  | one _ ih =>
    obtain ⟨k1, h1, hret⟩ := ih hk (follow_exec hf)
    obtain ⟨k2, hp, h2⟩ := h1.peek ['|'] (by decide)
    refine ⟨k2, h2, (returns_andThen hret ?_).succ fun n => by rw [parse, parsepipe]; rfl⟩
    rw [hp, headIn_false hf (by decide)]
    exact .pure
  | pipe _ hb _ ih ih' =>
    rw [List.append_assoc, List.cons_append] at hk
    obtain ⟨k1, h1, hret⟩ := ih hk (.inr (headIn_of_ret hb (by decide)))
    obtain ⟨k2, hp, h2⟩ := h1.peek ['|'] (by decide)
    obtain ⟨k3, hg, h3, -⟩ := h2.gettoken
    obtain ⟨k', hk', hret'⟩ := ih' h3 hf
    refine ⟨k', hk', (returns_andThen hret ?_).succ fun n => by rw [parse, parsepipe]; rfl⟩
    rw [hp, headIn_of_ret hb (by decide)]
    simp only [hg, if_true]
    exact returns_andThen hret' .pure
  | @block ts1 ts2 left right c rs hl _ hr hred ih =>
    rw [List.cons_append, List.append_assoc, List.cons_append] at hk
    obtain ⟨k0, hp0, h0⟩ := hk.peek ['('] (by decide)
    obtain ⟨k1, hp, h1⟩ := h0.peek ['('] (by decide)
    obtain ⟨k2, hg, h2, -⟩ := h1.gettoken
    obtain ⟨k3, h3, hret⟩ := ih h2 (.inr (headIn_of_ret hr (by decide)))
    obtain ⟨k4, hp', h4⟩ := h3.peek [')'] (by decide)
    obtain ⟨k5, hg', h5, -⟩ := h4.gettoken
    obtain ⟨k', hk', hret'⟩ := hred.complete h5 (headIn_redir hf) c
    have hblock : Returns (fun n => parseblock s.chr n k0) (.ok (wrap rs c) k') := by
      refine (returns_andThen hret ?_).succ fun n => by
        rw [parseblock, hp, headIn_of_ret hl (by decide)]
        simp only [hg, if_true]
        rfl
      rw [hp', headIn_of_ret hr (by decide)]
      simp only [hg', if_true]
      exact hret'
    refine ⟨k', hk', hblock.succ fun n => ?_⟩
    rw [parse, parseexec, hp0, headIn_of_ret hl (by decide)]
    rfl
  | @simple ts1 ts2 args rs rs' hred hargs hn =>
    rw [List.append_assoc] at hk
    obtain ⟨k0, hp0, h0⟩ := hk.peek ['('] (by decide)
    obtain ⟨k1, h1, hret⟩ := hred.complete h0 (hargs.head hf) (.exec [])
    obtain ⟨k', hk', hret'⟩ := hargs.complete rs [] h1 hf hn
    refine ⟨k', hk', (returns_andThen (f := fun n ret ps => parseargs s.chr n ret 0 ps) hret
      hret').succ fun n => ?_⟩
    rw [parse, parseexec, hp0, simple_head hred hargs hf]
    rfl

end

end Sh
