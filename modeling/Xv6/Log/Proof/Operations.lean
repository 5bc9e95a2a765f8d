import Xv6.Log.Proof.Crash
import Xv6.Log.Proof.Protocol

/-!
# Operations and crashes

`groups` are the transactions that the commits of a schedule write: the blocks of the log header with
the contents of the last `log_write` of each. A commit begins with no process inside an operation, so
each operation is in one group as a whole (`Groups`), and the log makes each group atomic.
-/

namespace Admit

open Bytes Crash Log

variable {nlog start : Nat} {es pre : List (Event × Block)} {s s' : State}

def logWrites (es : List (Event × Block)) : List (Nat × Block) :=
  es.filterMap fun e =>
    match e.1 with
    | .append _ b => some (b, e.2)
    | _ => none

/-- The groups of blocks that were committed, and the blocks logged since. -/
def groups (es : List (Event × Block)) : List (List (Nat × Block)) × List (Nat × Block) :=
  es.foldl (fun g e =>
    match e.1 with
    | .append _ b => (g.1, absorb g.2 b e.2)
    | .commit _ => (g.1 ++ [g.2], [])
    | _ => g) ([], [])

theorem groups_concat (es : List (Event × Block)) (e : Event × Block) : groups (es ++ [e]) =
    match e.1 with
    | .append _ b => ((groups es).1, absorb (groups es).2 b e.2)
    | .commit _ => ((groups es).1 ++ [(groups es).2], [])
    | _ => groups es := by
  rw [groups, List.foldl_append]
  rfl

theorem writeAll_append (d : Disk) (l l' : List (Nat × Block)) :
    writeAll d (l ++ l') = writeAll (writeAll d l) l' := List.foldl_append

/-- No process is inside an operation. -/
def State.Quiet (s : State) : Prop := ∀ p, ¬ (s.phase p).Active

/-- A part of the schedule `es` ends with `P`. -/
def Passes (nlog : Nat) (es : List (Event × Block)) (P : List (Event × Block) → State → Prop) : Prop :=
  ∃ pre s, pre <+: es ∧ run (.init nlog) (pre.map Prod.fst) = some (.ok s) ∧ P pre s

theorem Passes.concat {P : List (Event × Block) → State → Prop} (h : Passes nlog es P)
    (e : Event × Block) : Passes nlog (es ++ [e]) P := by
  obtain ⟨pre, s, hp, h⟩ := h
  exact ⟨pre, s, hp.trans (List.prefix_append ..), h⟩

/-- What the groups of a schedule are. -/
structure Groups (nlog : Nat) (es : List (Event × Block)) (s : State) : Prop where
  run : run (.init nlog) (es.map Prod.fst) = some (.ok s)
  header : (groups es).2.map Prod.fst = s.lh
  nodup : s.lh.Nodup
  writes : ∀ d, writeAll d (logWrites es) = writeAll d ((groups es).1.flatten ++ (groups es).2)
  mem : ∀ w ∈ (groups es).1.flatten ++ (groups es).2, w ∈ logWrites es
  /-- A group was the header of the log. -/
  logged : ∀ g ∈ (groups es).1, Passes nlog es fun _ s' => s'.lh.Nodup ∧ g.map Prod.fst = s'.lh
  /-- Between two groups no process is inside an operation. -/
  quiet : ∀ l, l <+: (groups es).1 → Passes nlog es fun pre s' => s'.Quiet ∧ groups pre = (l, [])

theorem run_concat {l : List Event} {e : Event} (hr : run s l = some (.ok s'))
    {t : State} (hs : step s' e = some (.ok t)) : run s (l ++ [e]) = some (.ok t) := by
  induction l generalizing s with
  | nil =>
    cases hr
    simp [run, hs]
  | cons e1 l ih =>
    rcases run_cons hr with ⟨s1, h1, h2⟩ | ⟨m, -, h⟩
    · simp only [List.cons_append, run, h1]
      exact ih h2
    · cases h

theorem run_map {e : Event × Block} (hr : run (.init nlog) (es.map Prod.fst) = some (.ok s))
    (hs : step s e.1 = some (.ok s')) :
    run (.init nlog) ((es ++ [e]).map Prod.fst) = some (.ok s') := by
  rw [List.map_append]
  exact run_concat hr hs

theorem Groups.other (h : Groups nlog es s) {e : Event × Block} (hs : step s e.1 = some (.ok s'))
    (hlh : s'.lh = s.lh) (hg : groups (es ++ [e]) = groups es)
    (hw : logWrites (es ++ [e]) = logWrites es) : Groups nlog (es ++ [e]) s' where
  run := run_map h.run hs
  header := by rw [hg, hlh, h.header]
  nodup := hlh ▸ h.nodup
  writes d := by rw [hw, hg, h.writes]
  mem := by
    rw [hw, hg]
    exact h.mem
  logged g hm := (h.logged g (hg ▸ hm)).concat e
  quiet l hl := (h.quiet l (hg ▸ hl)).concat e

theorem Groups.append (h : Groups nlog es s) {p b : Nat} {v : Block} (hp : s.phase p = .writing b) :
    Groups nlog (es ++ [(.append p b, v)]) (logWriteAppend s p b) := by
  have hg : groups (es ++ [(.append p b, v)]) = ((groups es).1, absorb (groups es).2 b v) :=
    groups_concat ..
  have hw : logWrites (es ++ [(.append p b, v)]) = logWrites es ++ [(b, v)] :=
    List.filterMap_append
  have hn : ((groups es).2.map Prod.fst).Nodup := h.header ▸ h.nodup
  refine ⟨run_map h.run (if_pos hp), ?_, ?_, fun d => ?_, fun w hm => ?_, fun g hm => ?_,
    fun l hl => ?_⟩
  · rw [hg, map_fst_absorb, h.header]
    rfl
  · rw [logWriteAppend, set_lh]
    split
    · exact h.nodup
    · rename_i hb
      exact List.nodup_append.2 ⟨h.nodup, List.nodup_singleton b, fun x hx y hy he =>
        hb (List.mem_singleton.1 hy ▸ he ▸ hx)⟩
  · rw [hw, hg, writeAll_append, h.writes, writeAll_append, writeAll_append, writeAll_absorb hn]
    rfl
  · rw [hg, List.mem_append, mem_absorb] at hm
    rw [hw, List.mem_append, List.mem_singleton]
    rcases hm with hm | rfl | ⟨-, hm⟩
    · exact .inl (h.mem w (List.mem_append_left _ hm))
    · exact .inr rfl
    · exact .inl (h.mem w (List.mem_append_right _ hm))
  · exact (h.logged g (by rwa [hg] at hm)).concat _
  · exact (h.quiet l (by rwa [hg] at hl)).concat _

/-- A commit makes a group of what was logged, and no process is inside an operation. -/
theorem Groups.commit (h : Groups nlog es s) {p : Nat} {v : Block} (hp : s.phase p = .committing) :
    Groups nlog (es ++ [(.commit p, v)]) ({ s with lh := [] }.set p .committed) := by
  have hg : groups (es ++ [(.commit p, v)]) = ((groups es).1 ++ [(groups es).2], []) :=
    groups_concat ..
  have hw : logWrites (es ++ [(.commit p, v)]) = logWrites es := by
    rw [logWrites, List.filterMap_append]
    exact List.append_nil _
  have hs : step s (.commit p) = some (.ok ({ s with lh := [] }.set p .committed)) := if_pos hp
  obtain ⟨A, hA⟩ := order_run h.run
  have hquiet : ({ s with lh := [] }.set p .committed).Quiet := fun q hq => by
    by_cases hqp : q = p
    · subst hqp
      rw [set_phase_self] at hq
      exact hq
    · rw [set_phase_ne _ _ hqp] at hq
      have hmem := (hA.active q).2 hq
      rw [hA.eq_empty (p := p) (by rw [hp]; trivial)] at hmem
      exact absurd hmem (Finset.notMem_empty q)
  refine ⟨run_map h.run hs, ?_, List.nodup_nil, fun d => ?_, fun w hm => ?_, fun g hm => ?_,
    fun l hl => ?_⟩
  · rw [hg]
    rfl
  · rw [hw, hg, h.writes]
    simp
  · rw [hw]
    rw [hg] at hm
    exact h.mem w (by simpa using hm)
  · rw [hg] at hm
    rcases List.mem_append.1 hm with hm | hm
    · exact (h.logged g hm).concat _
    · rw [List.mem_singleton.1 hm]
      exact ⟨es, s, List.prefix_append .., h.run, h.nodup, h.header⟩
  · rw [hg, List.prefix_concat_iff] at hl
    rcases hl with rfl | hl
    · exact ⟨_, _, List.prefix_rfl, run_map h.run hs, hquiet, hg⟩
    · exact (h.quiet l hl).concat _

theorem Groups.step (h : Groups nlog es s) {e : Event × Block} (hs : step s e.1 = some (.ok s')) :
    Groups nlog (es ++ [e]) s' := by
  obtain ⟨e, v⟩ := e
  cases step_moves hs with
  | append hp => exact h.append hp
  | commit hp => exact h.commit hp
  | _ => exact h.other hs rfl (groups_concat ..) (by simp [logWrites])

theorem groups_run (hr : run (.init nlog) (es.map Prod.fst) = some (.ok s)) : Groups nlog es s := by
  induction es using List.reverseRecOn generalizing s with
  | nil =>
    cases hr
    refine ⟨rfl, rfl, List.nodup_nil, fun _ => rfl, fun w hw => hw, nofun, fun l hl => ?_⟩
    rw [List.prefix_nil.1 hl]
    exact ⟨[], _, List.prefix_rfl, rfl, fun p hp => hp, rfl⟩
  | append_singleton es e ih =>
    rw [List.map_append] at hr
    obtain ⟨s1, h1, h2⟩ | ⟨m, -, h⟩ := run_append hr
    · obtain ⟨s2, h3, h4⟩ | ⟨m, -, h⟩ := run_cons h2
      · cases h4
        exact (ih h1).step h3
      · cases h
    · cases h

/-! ## Crashes -/

theorem applyAll_eq (l : List (Txn start nlog)) (d : Disk) :
    applyAll l d = writeAll d (l.map Txn.blocks).flatten := by
  induction l generalizing d with
  | nil => rfl
  | cons t l ih =>
    rw [List.map_cons, List.flatten_cons, writeAll_append]
    exact ih _

theorem Groups.txns (h : Groups mkfsNlog es s)
    (hroom : ∀ pre s', pre <+: es → Admit.run (.init mkfsNlog) (pre.map Prod.fst) = some (.ok s') →
      s'.lh.length < mkfsNlog)
    (hhome : ∀ w ∈ logWrites es, OffLog start mkfsNlog w.1 ∧ w.1 < 2 ^ 32) :
    ∃ ts : List (Txn start mkfsNlog), ts.map Txn.blocks = (groups es).1 := by
  have hone : ∀ g ∈ (groups es).1, ∃ t : Txn start mkfsNlog, t.blocks = g := by
    intro g hg
    obtain ⟨pre, s', hp, hr, hn, hl⟩ := h.logged g hg
    have hlen : g.length < mkfsNlog := by
      rw [← List.length_map (f := Prod.fst), hl]
      exact hroom pre s' hp hr
    have hmem : ∀ w ∈ g, w ∈ logWrites es := fun w hw =>
      h.mem w (List.mem_append_left _ (List.mem_flatten.2 ⟨g, hg, hw⟩))
    exact ⟨⟨g, hl ▸ hn, fun w hw => (hhome w (hmem w hw)).1, hlen, Nat.le_of_lt hlen,
      fun w hw => (hhome w (hmem w hw)).2⟩, rfl⟩
  exact (Set.range_list_map Txn.blocks).ge hone

theorem wpc_commitAll_end {d0 d : Disk} {m : Mem} (ts : List (Txn start nlog)) {n : Nat}
    (h : Idle start nlog d0 d) (hv : view m d = d) :
    Wpc (fun _ _ => True) (fun _ _ d' => Idle start nlog (applyAll ts d0) d') (commitAll ts m) n d := by
  induction ts generalizing m d d0 n with
  | nil => exact ⟨trivial, h⟩
  | cons t ts ih =>
    have hcommit : Wpc (fun _ _ => True)
        (fun _ r d' => Idle start nlog (t.apply d0) d' ∧ view r.2 d' = d') (commitTxn t m) 0 d :=
      (wpc_commitTxn (t := t) h hv).mono (fun _ _ _ => trivial) fun _ _ _ hc => ⟨hc.idle, hc.view⟩
    exact Wpc.bind (hcommit.shift.mono (fun _ _ hc => hc) fun n r d' hd' => ih hd'.1 hd'.2)

/-- **Operations are atomic and durable.** In any schedule that leaves the header its block of the
log, a crash anywhere in the commits, and recovery, cut any number of times, leave on the disk the
writes of a part of the schedule at whose end no process is inside an operation. If the last commit
is complete, the part is up to that commit. -/
theorem operations_atomic (start : Nat) (es : List (Event × Block)) (s : State)
    (hr : run (.init mkfsNlog) (es.map Prod.fst) = some (.ok s))
    (hroom : ∀ pre s', pre <+: es → run (.init mkfsNlog) (pre.map Prod.fst) = some (.ok s') →
      s'.lh.length < mkfsNlog)
    (hhome : ∀ w ∈ logWrites es, OffLog start mkfsNlog w.1 ∧ w.1 < 2 ^ 32) (m : Mem) (d : Disk)
    (h0 : headN (d start) = 0) (hv : view m d = d) :
    ∃ ts : List (Txn start mkfsNlog), ts.map Txn.blocks = (groups es).1 ∧ ∀ k ks,
      let d' := (Boot.run ⟨ts, k, ks⟩ (m, d)).2
      headN (d' start) = 0 ∧ Passes mkfsNlog es fun pre s' => s'.Quiet ∧
        (writes (commitAll ts m) d ≤ k → groups pre = ((groups es).1, [])) ∧
        ∀ b, OffLog start mkfsNlog b → d' b = writeAll d (logWrites pre) b := by
  have hg := groups_run hr
  obtain ⟨ts, hts⟩ := hg.txns hroom hhome
  refine ⟨ts, hts, fun k ks => ?_⟩
  have hidle : Idle start mkfsNlog d d := ⟨h0, fun _ _ => rfl⟩
  obtain ⟨l, hl, hall, hend⟩ : ∃ l, l <+: ts ∧ (writes (commitAll ts m) d ≤ k → l = ts) ∧
      Idle start mkfsNlog (applyAll l d) (Boot.run ⟨ts, k, ks⟩ (m, d)).2 := by
    by_cases hk : writes (commitAll ts m) d ≤ k
    · have hc := (wpc_commitAll_end ts (n := 0) hidle hv).exec
      rw [← crashAt_of_le hk] at hc
      exact ⟨ts, List.prefix_rfl, fun _ => rfl, (reboot_recovery (by decide) (.inl hc) ks).1⟩
    · obtain ⟨l, hl, hi, -⟩ := boot_run (b := ⟨ts, k, ks⟩) (s := (m, d)) (by decide) hidle hv
      exact ⟨l, hl, fun h => absurd h hk, hi⟩
  obtain ⟨pre, s', hp, hrun, hq, hpre⟩ := hg.quiet (l.map Txn.blocks) (hts ▸ hl.map _)
  refine ⟨hend.head, pre, s', hp, hrun, hq, fun hk => ?_, fun b hb => ?_⟩
  · rw [hpre, hall hk, hts]
  · rw [hend.off b hb, applyAll_eq, (groups_run hrun).writes, hpre, List.append_nil]

theorem lh_length_le {es : List Event} (hr : run (.init nlog) es = some (.ok s)) :
    s.lh.length ≤ es.length := by
  refine run_induction (P := fun es s => s.lh.length ≤ es.length) (Nat.le_refl 0)
    (fun es e s s' h hs => ?_) hr
  rw [List.length_append, List.length_singleton]
  cases step_moves hs with
  | append =>
    show (if _ ∈ s.lh then s.lh else s.lh ++ [_]).length ≤ _
    split
    · exact Nat.le_succ_of_le h
    · rw [List.length_append]
      exact Nat.succ_le_succ h
  | commit => exact Nat.zero_le _
  | _ => exact Nat.le_succ_of_le h

def twoOps : List (Event × Block) :=
  [(.beginOp 0, fill 0), (.beginOp 1, fill 0), (.test 0 40, fill 0), (.append 0 40, fill 7),
    (.test 1 41, fill 0), (.endOp 0, fill 0), (.append 1 41, fill 8), (.endOp 1, fill 0),
    (.commit 1, fill 0)]

theorem operations_atomic_two : ∃ ts : List (Txn 2 mkfsNlog),
    ts.map Txn.blocks = [[(40, fill 7), (41, fill 8)]] ∧ ∀ k ks,
      let d' := (Boot.run ⟨ts, k, ks⟩ (.boot, fun _ => fill 0)).2
      headN (d' 2) = 0 ∧ Passes mkfsNlog twoOps fun pre s' => s'.Quiet ∧
        (writes (commitAll ts .boot) (fun _ => fill 0) ≤ k → groups pre = ((groups twoOps).1, [])) ∧
        ∀ b, OffLog 2 mkfsNlog b → d' b = writeAll (fun _ => fill 0) (logWrites pre) b := by
  refine operations_atomic 2 twoOps _ rfl (fun pre s' hp hr => ?_) (fun w hw => ?_) .boot _ rfl rfl
  · have hle := lh_length_le hr
    rw [List.length_map] at hle
    exact Nat.lt_of_le_of_lt (hle.trans hp.length_le) (by decide)
  · have hw' : w = (40, fill 7) ∨ w = (41, fill 8) := by simpa [twoOps, logWrites] using hw
    rcases hw' with rfl | rfl <;> exact ⟨.inr (by decide), by decide⟩

end Admit
