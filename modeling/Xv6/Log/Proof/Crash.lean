import Mathlib.Data.List.Nodup
import Xv6.Log.Commit

/-!
# Crash atomicity of the log

A crash at any write of `commit`, and any number of crashes of the recovery after it, leave the
home blocks of the transaction all old or all new. The disk goes through three states:

* `Idle d0`: the header on disk has `n = 0`, and outside the log the disk is `d0`.
* `Logged t d0`: the header on disk lists the blocks of `t`, the log holds their contents, and
  outside the log only home blocks of `t` may differ from `d0`. Installing is idempotent here:
  nothing is assumed about the home blocks.
* `Idle (t.apply d0)`: the transaction is installed and the log erased.

The buffer cache enters through `view`, what `bread` returns: reading changes nothing in it, and a
write changes it as it changes the disk.
-/

namespace Log

open Crash Bytes Function

/-! ## The header block -/

theorem get32_putBlocks {buf : Block} {i o : Nat} {bs : List Nat} (h : o + 4 ≤ 4 + 4 * i) :
    get32 (putBlocks buf i bs) o = get32 buf o := by
  induction bs generalizing buf i with
  | nil => rfl
  | cons b bs ih => rw [putBlocks, ih (by omega), get32_put32_ne _ _ (by omega)]

theorem headBlock_putBlocks {buf : Block} {i j : Nat} {bs : List Nat} (hj : j < bs.length) :
    headBlock (putBlocks buf i bs) (i + j) = bs[j] % 2 ^ 32 := by
  induction bs generalizing buf i j with
  | nil => simp at hj
  | cons b bs ih =>
    cases j with
    | zero =>
      rw [Nat.add_zero, putBlocks, headBlock, get32_putBlocks (by omega), get32_put32]
      rfl
    | succ j =>
      rw [putBlocks, show i + (j + 1) = i + 1 + j by omega, ih (by simpa using hj)]
      rfl

theorem headN_putHead {buf : Block} {lh : List Nat} : headN (putHead buf lh) = lh.length % 2 ^ 32 := by
  rw [headN, putHead, get32_putBlocks (by omega), get32_put32]

theorem headBlocks_putHead {buf : Block} {lh : List Nat} (hn : lh.length ≤ Param.LOGSIZE)
    (hb : ∀ b ∈ lh, b < 2 ^ 32) : headBlocks (putHead buf lh) = lh := by
  have hlen : lh.length < 2 ^ 31 := by
    have : Param.LOGSIZE = 30 := rfl
    omega
  rw [headBlocks, headN_putHead, Nat.mod_eq_of_lt (by omega), if_pos hlen]
  apply List.ext_getElem (by simp)
  intro j h1 h2
  simp only [List.getElem_map, List.getElem_range]
  have hj : headBlock (putHead buf lh) (0 + j) = lh[j] % 2 ^ 32 := headBlock_putBlocks h2
  rw [Nat.zero_add] at hj
  rw [hj, Nat.mod_eq_of_lt (hb _ (List.getElem_mem h2))]

theorem headBlocks_of_headN {buf : Block} (h : headN buf = 0) : headBlocks buf = [] := by
  simp [headBlocks, h]

/-! ## Buffers -/

def view (m : Mem) (d : Disk) : Disk := fun b => (m.cache b).getD (d b)

@[simp] theorem view_boot (d : Disk) : view .boot d = d := rfl

section
variable {C : Nat → Disk → Prop} {m : Mem} {n : Nat} {d : Disk}

theorem wpc_bread {b : Nat} {Q : Nat → Block × Mem → Disk → Prop} (hC : C n d)
    (hQ : ∀ m', m'.lh = m.lh → view m' d = view m d → Q n (view m d b, m') d) :
    Wpc C Q ((bread b).run m) n d := by
  show Wpc C Q (bread b m) n d
  unfold bread
  split
  · rename_i v hv
    have hvw : view m d b = v := by simp [view, hv]
    exact ⟨hC, hvw ▸ hQ m rfl rfl⟩
  · rename_i hv
    have hvw : view m d b = d b := by simp [view, hv]
    refine ⟨hC, hvw ▸ hQ _ rfl (funext fun x => ?_)⟩
    by_cases hx : x = b
    · subst hx; simp [view, hv]
    · simp [view, update_of_ne hx]

theorem wpc_bwrite {b : Nat} {v : Block} {Q : Nat → Unit × Mem → Disk → Prop} (hC : C n d)
    (hC' : C (n + 1) (update d b v))
    (hQ : ∀ m', m'.lh = m.lh → view m' (update d b v) = update (view m d) b v →
      Q (n + 1) ((), m') (update d b v)) :
    Wpc C Q ((bwrite b v).run m) n d := by
  refine ⟨hC, hC', hQ _ rfl (funext fun x => ?_)⟩
  by_cases hx : x = b
  · subst hx; simp [view]
  · simp [view, update_of_ne hx]

theorem wpc_writeHead {start : Nat} {Q : Nat → Unit × Mem → Disk → Prop}
    (hs : view m d start = d start) (hC : C n d)
    (hC' : C (n + 1) (update d start (putHead (d start) m.lh)))
    (hQ : ∀ m', m'.lh = m.lh → view m' (update d start (putHead (d start) m.lh)) =
      update (view m d) start (putHead (d start) m.lh) →
      Q (n + 1) ((), m') (update d start (putHead (d start) m.lh))) :
    Wpc C Q ((writeHead start).run m) n d := by
  simp only [writeHead, StateT.run_bind]
  refine Wpc.bind (wpc_bread hC fun m1 h1 hv1 => ?_)
  rw [hs]
  refine wpc_bwrite hC (h1 ▸ hC') fun m' h' hv' => ?_
  simp only [h1, hv1] at hv' h' ⊢
  exact hQ m' h' hv'

end

/-! ## The disk through a commit -/

def OffLog (start nlog b : Nat) : Prop := b < start ∨ start + nlog ≤ b

structure Idle (start nlog : Nat) (d0 d : Disk) : Prop where
  head : headN (d start) = 0
  off : ∀ b, OffLog start nlog b → d b = d0 b

section
variable {start nlog : Nat}

theorem Idle.update_log {d0 d : Disk} (h : Idle start nlog d0 d) {b : Nat} (h1 : start < b)
    (h2 : b < start + nlog) (v : Block) : Idle start nlog d0 (update d b v) := by
  refine ⟨?_, fun x hx => ?_⟩
  · rw [update_of_ne (by omega)]
    exact h.head
  · have hne : x ≠ b := by unfold OffLog at hx; omega
    rw [update_of_ne hne]
    exact h.off x hx

/-- The transaction `t` over `d0` is in the log, not yet erased from it. -/
structure Logged (t : Txn start nlog) (d0 d : Disk) : Prop where
  head : headBlocks (d start) = t.blocks.map Prod.fst
  copies : ∀ i p, t.blocks[i]? = some p → d (start + i + 1) = p.2
  off : ∀ b, OffLog start nlog b → b ∉ t.blocks.map Prod.fst → d b = d0 b

/-- Blocks that are not home blocks of `t` are in the cache as they are on the disk. -/
def Synced (t : Txn start nlog) (m : Mem) (d : Disk) : Prop :=
  ∀ b, b ∉ t.blocks.map Prod.fst → view m d b = d b

namespace Txn

variable (t : Txn start nlog)

theorem mem_of_getElem? {i : Nat} {p : Nat × Block} (h : t.blocks[i]? = some p) :
    p.1 ∈ t.blocks.map Prod.fst :=
  List.mem_map_of_mem (List.mem_of_getElem? h)

theorem home_off {b : Nat} (h : b ∈ t.blocks.map Prod.fst) : OffLog start nlog b := by
  obtain ⟨p, hp, rfl⟩ := List.mem_map.1 h
  exact t.outside p hp

theorem copy_in {i : Nat} {p : Nat × Block} (h : t.blocks[i]? = some p) :
    start + i + 1 < start + nlog := by
  have h1 := (List.getElem?_eq_some_iff.1 h).1
  have h2 := t.fits
  omega

theorem copy_notMem {i : Nat} {p : Nat × Block} (h : t.blocks[i]? = some p) :
    start + i + 1 ∉ t.blocks.map Prod.fst := by
  intro hm
  have h1 := t.copy_in h
  have h2 := t.home_off hm
  unfold OffLog at h2
  omega

theorem start_notMem : start ∉ t.blocks.map Prod.fst := by
  intro hm
  have h1 := t.fits
  have h2 := t.home_off hm
  unfold OffLog at h2
  omega

theorem headBlocks_putHead (buf : Block) :
    headBlocks (putHead buf (t.blocks.map Prod.fst)) = t.blocks.map Prod.fst := by
  refine Log.headBlocks_putHead (by simpa using t.logsize) fun b hb => ?_
  obtain ⟨p, hp, rfl⟩ := List.mem_map.1 hb
  exact t.uint p hp

end Txn

/-! ### Writing the log -/

/-- The first `tail` blocks are copied to the log. -/
structure Writing (t : Txn start nlog) (d0 : Disk) (tail : Nat) (m : Mem) (d : Disk) : Prop where
  lh : m.lh = t.blocks.map Prod.fst
  idle : Idle start nlog d0 d
  new : ∀ p ∈ t.blocks, view m d p.1 = p.2
  synced : Synced t m d
  copies : ∀ i < tail, ∀ p, t.blocks[i]? = some p → d (start + i + 1) = p.2

variable {t : Txn start nlog} {d0 d : Disk} {m m' : Mem} {tail : Nat}

theorem Writing.congr (h : Writing t d0 tail m d) (hl : m'.lh = m.lh)
    (hv : view m' d = view m d) : Writing t d0 tail m' d :=
  ⟨hl.trans h.lh, h.idle, fun p hp => hv ▸ h.new p hp, fun b hb => hv ▸ h.synced b hb, h.copies⟩

theorem Writing.step {p : Nat × Block} (h : Writing t d0 tail m d)
    (hp : t.blocks[tail]? = some p) (hl : m'.lh = m.lh)
    (hv : view m' (update d (start + tail + 1) p.2) = update (view m d) (start + tail + 1) p.2) :
    Writing t d0 (tail + 1) m' (update d (start + tail + 1) p.2) := by
  have hin := t.copy_in hp
  have hnot := t.copy_notMem hp
  refine ⟨hl.trans h.lh, h.idle.update_log (by omega) hin _, fun q hq => ?_, fun b hb => ?_,
    fun i hi q hq => ?_⟩
  · have hne : q.1 ≠ start + tail + 1 := fun he => hnot (he ▸ List.mem_map_of_mem hq)
    rw [hv, update_of_ne hne]
    exact h.new q hq
  · rw [hv]
    by_cases hb' : b = start + tail + 1
    · subst hb'; simp
    · rw [update_of_ne hb', update_of_ne hb']
      exact h.synced b hb
  · by_cases hit : i = tail
    · subst hit
      rw [hp] at hq
      cases hq
      simp
    · rw [update_of_ne (by omega)]
      exact h.copies i (by omega) q hq

theorem wpc_writeLogFrom {C : Nat → Disk → Prop} {Q : Nat → Unit × Mem → Disk → Prop}
    (hC : ∀ n d, n ≤ t.blocks.length → Idle start nlog d0 d → C n d)
    (hQ : ∀ m d, Writing t d0 t.blocks.length m d → Q t.blocks.length ((), m) d)
    (bs : List (Nat × Block)) (hbs : t.blocks.drop tail = bs) (ht : tail ≤ t.blocks.length)
    (h : Writing t d0 tail m d) :
    Wpc C Q ((writeLogFrom start tail (bs.map Prod.fst)).run m) tail d := by
  induction bs generalizing tail m d with
  | nil =>
    have : tail = t.blocks.length := by
      have := congrArg List.length hbs
      simp only [List.length_drop, List.length_nil] at this
      omega
    subst this
    exact ⟨hC _ _ ht h.idle, hQ m d h⟩
  | cons p bs ih =>
    have hp : t.blocks[tail]? = some p := by
      have := congrArg (·[0]?) hbs
      simpa [List.getElem?_drop] using this
    have hlt := (List.getElem?_eq_some_iff.1 hp).1
    simp only [List.map_cons, writeLogFrom, StateT.run_bind]
    refine Wpc.bind (wpc_bread (hC _ _ ht h.idle) fun m1 h1 hv1 => ?_)
    have hw1 := h.congr h1 hv1
    refine Wpc.bind (wpc_bread (hC _ _ ht h.idle) fun m2 h2 hv2 => ?_)
    have hw2 := hw1.congr h2 hv2
    rw [hw1.new p (List.mem_of_getElem? hp)]
    have hidle := h.idle.update_log (show start < start + tail + 1 by omega) (t.copy_in hp) p.2
    refine Wpc.bind (wpc_bwrite (hC _ _ ht h.idle) (hC _ _ hlt hidle) fun m3 h3 hv3 => ?_)
    refine ih ?_ hlt (hw2.step hp h3 hv3)
    rw [← List.tail_drop, hbs]
    rfl

/-! ### Installing -/

/-- The first `tail` blocks are installed. -/
structure Installing (t : Txn start nlog) (d0 : Disk) (tail : Nat) (m : Mem) (d : Disk) : Prop where
  lh : m.lh = t.blocks.map Prod.fst
  logged : Logged t d0 d
  synced : Synced t m d
  installed : ∀ i < tail, ∀ p, t.blocks[i]? = some p → d p.1 = p.2 ∧ view m d p.1 = p.2

theorem Installing.congr (h : Installing t d0 tail m d) (hl : m'.lh = m.lh)
    (hv : view m' d = view m d) : Installing t d0 tail m' d :=
  ⟨hl.trans h.lh, h.logged, fun b hb => hv ▸ h.synced b hb,
    fun i hi p hp => hv ▸ h.installed i hi p hp⟩

theorem Logged.update_home (h : Logged t d0 d) {b : Nat} (hb : b ∈ t.blocks.map Prod.fst)
    (v : Block) : Logged t d0 (update d b v) := by
  refine ⟨?_, fun i p hp => ?_, fun x hx hn => ?_⟩
  · have hne : start ≠ b := fun he => t.start_notMem (he ▸ hb)
    rw [update_of_ne hne]
    exact h.head
  · have hne : start + i + 1 ≠ b := fun he => t.copy_notMem hp (he ▸ hb)
    rw [update_of_ne hne]
    exact h.copies i p hp
  · have hne : x ≠ b := fun he => hn (he ▸ hb)
    rw [update_of_ne hne]
    exact h.off x hx hn

theorem Installing.step {p : Nat × Block} (h : Installing t d0 tail m d)
    (hp : t.blocks[tail]? = some p) (hl : m'.lh = m.lh)
    (hv : view m' (update d p.1 p.2) = update (view m d) p.1 p.2) :
    Installing t d0 (tail + 1) m' (update d p.1 p.2) := by
  have hmem := t.mem_of_getElem? hp
  refine ⟨hl.trans h.lh, h.logged.update_home hmem _, fun b hb => ?_, fun i hi q hq => ?_⟩
  · have hne : b ≠ p.1 := fun he => hb (he ▸ hmem)
    rw [hv, update_of_ne hne, update_of_ne hne]
    exact h.synced b hb
  · rw [hv]
    by_cases hq1 : q.1 = p.1
    · have : q = p := List.inj_on_of_nodup_map t.nodup (List.mem_of_getElem? hq)
        (List.mem_of_getElem? hp) hq1
      subst this
      simp
    · have hit : i ≠ tail := by
        rintro rfl
        rw [hp] at hq
        cases hq
        exact hq1 rfl
      rw [update_of_ne hq1, update_of_ne hq1]
      exact h.installed i (by omega) q hq

theorem wpc_installFrom {C : Nat → Disk → Prop} {Q : Nat → Unit × Mem → Disk → Prop} {n0 n : Nat}
    (hC : ∀ n d, n0 ≤ n → Logged t d0 d → C n d)
    (hQ : ∀ n m d, n0 ≤ n → Installing t d0 t.blocks.length m d → Q n ((), m) d)
    (bs : List (Nat × Block)) (hbs : t.blocks.drop tail = bs) (ht : tail ≤ t.blocks.length)
    (hn : n0 ≤ n) (h : Installing t d0 tail m d) :
    Wpc C Q ((installFrom start tail (bs.map Prod.fst)).run m) n d := by
  induction bs generalizing tail m d n with
  | nil =>
    have : tail = t.blocks.length := by
      have := congrArg List.length hbs
      simp only [List.length_drop, List.length_nil] at this
      omega
    subst this
    exact ⟨hC _ _ hn h.logged, hQ n m d hn h⟩
  | cons p bs ih =>
    have hp : t.blocks[tail]? = some p := by
      have := congrArg (·[0]?) hbs
      simpa [List.getElem?_drop] using this
    have hlt := (List.getElem?_eq_some_iff.1 hp).1
    simp only [List.map_cons, installFrom, StateT.run_bind]
    refine Wpc.bind (wpc_bread (hC _ _ hn h.logged) fun m1 h1 hv1 => ?_)
    have hw1 := h.congr h1 hv1
    refine Wpc.bind (wpc_bread (hC _ _ hn h.logged) fun m2 h2 hv2 => ?_)
    have hw2 := hw1.congr h2 hv2
    have hl : view m d (start + tail + 1) = p.2 := by
      rw [h.synced _ (t.copy_notMem hp), h.logged.copies _ _ hp]
    rw [hl]
    have hlog := h.logged.update_home (t.mem_of_getElem? hp) p.2
    refine Wpc.bind (wpc_bwrite (hC _ _ hn h.logged) (hC _ _ (by omega) hlog) fun m3 h3 hv3 => ?_)
    refine ih ?_ hlt (by omega) (hw2.step hp h3 hv3)
    rw [← List.tail_drop, hbs]
    rfl

theorem Installing.apply_eq (h : Installing t d0 t.blocks.length m d) {b : Nat}
    (hb : OffLog start nlog b) : d b = t.apply d0 b := by
  unfold Txn.apply
  by_cases hm : b ∈ t.blocks.map Prod.fst
  · obtain ⟨p, hp, rfl⟩ := List.mem_map.1 hm
    obtain ⟨i, hi⟩ := List.mem_iff_getElem?.1 hp
    rw [(h.installed i (List.getElem?_eq_some_iff.1 hi).1 p hi).1, writeAll_mem t.nodup hp]
  · rw [h.logged.off b hb hm, writeAll_notMem hm]

theorem Installing.view_eq (h : Installing t d0 t.blocks.length m d) : view m d = d := by
  funext b
  by_cases hm : b ∈ t.blocks.map Prod.fst
  · obtain ⟨p, hp, rfl⟩ := List.mem_map.1 hm
    obtain ⟨i, hi⟩ := List.mem_iff_getElem?.1 hp
    obtain ⟨h1, h2⟩ := h.installed i (List.getElem?_eq_some_iff.1 hi).1 p hi
    rw [h1, h2]
  · exact h.synced b hm

theorem Installing.erase (h : Installing t d0 t.blocks.length m d) :
    Idle start nlog (t.apply d0) (update d start (putHead (d start) [])) := by
  refine ⟨by simp [headN_putHead], fun b hb => ?_⟩
  have hfits := t.fits
  have hne : b ≠ start := by unfold OffLog at hb; omega
  rw [update_of_ne hne]
  exact h.apply_eq hb

/-! ## Commit -/

theorem Writing.logged (h : Writing t d0 t.blocks.length m d) :
    Logged t d0 (update d start (putHead (d start) m.lh)) := by
  have hfits := t.fits
  refine ⟨?_, fun i p hp => ?_, fun b hb _ => ?_⟩
  · rw [update_self, h.lh, t.headBlocks_putHead]
  · rw [update_of_ne (by omega)]
    exact h.copies i (List.getElem?_eq_some_iff.1 hp).1 p hp
  · have hne : b ≠ start := by unfold OffLog at hb; omega
    rw [update_of_ne hne]
    exact h.idle.off b hb

theorem Writing.commit (h : Writing t d0 t.blocks.length m d) (hl : m'.lh = m.lh)
    (hv : view m' (update d start (putHead (d start) m.lh)) =
      update (view m d) start (putHead (d start) m.lh)) :
    Installing t d0 0 m' (update d start (putHead (d start) m.lh)) := by
  refine ⟨hl.trans h.lh, h.logged, fun b hb => ?_, fun i hi => absurd hi (Nat.not_lt_zero i)⟩
  rw [hv]
  by_cases hbs : b = start
  · subst hbs; simp
  · rw [update_of_ne hbs, update_of_ne hbs]
    exact h.synced b hb

/-- Recovery of the disk `d` gives `d1` outside the log. -/
def Recov (start nlog : Nat) (d1 d : Disk) : Prop :=
  Idle start nlog d1 d ∨ ∃ (t : Txn start nlog) (d0 : Disk), d1 = t.apply d0 ∧ Logged t d0 d

def CommitCrash (t : Txn start nlog) (d0 : Disk) (n : Nat) (d : Disk) : Prop :=
  if n ≤ t.blocks.length then Idle start nlog d0 d else Recov start nlog (t.apply d0) d

theorem view_stage (hv : view m d = d) : view (t.stage m) d = t.apply d := by
  funext b
  have hmap : (t.blocks.map fun p => (p.1, some p.2)).map Prod.fst = t.blocks.map Prod.fst := by
    simp [Function.comp_def]
  by_cases hb : b ∈ t.blocks.map Prod.fst
  · obtain ⟨p, hp, rfl⟩ := List.mem_map.1 hb
    have h1 : (t.stage m).cache p.1 = some p.2 :=
      writeAll_mem (hmap ▸ t.nodup) (List.mem_map.2 ⟨p, hp, rfl⟩)
    rw [view, h1, Txn.apply, writeAll_mem t.nodup hp]
    rfl
  · have h1 : (t.stage m).cache b = m.cache b := writeAll_notMem (hmap ▸ hb)
    rw [view, h1, Txn.apply, writeAll_notMem hb]
    exact congrFun hv b

theorem commit_run {m : Mem} (h : 0 < m.lh.length) :
    (commit start).run m = ((writeLogFrom start 0 m.lh).run m >>= fun r =>
      (writeHead start).run r.2 >>= fun r => (installFrom start 0 r.2.lh).run r.2 >>= fun r =>
      (writeHead start).run { r.2 with lh := [] }) := by
  show (if m.lh.length > 0 then _ else _ : LogM Unit).run m = _
  rw [if_pos h]
  rfl

structure Committed (t : Txn start nlog) (d0 : Disk) (n : Nat) (r : Unit × Mem) (d : Disk) :
    Prop where
  idle : Idle start nlog (t.apply d0) d
  view : view r.2 d = d
  writes : 0 < t.blocks.length → t.blocks.length < n

/-- **Commit.** Every crash of a commit leaves the disk idle as before until the header is written,
then recoverable to what it is after. -/
theorem wpc_commitTxn (h : Idle start nlog d0 d) (hv : view m d = d) :
    Wpc (CommitCrash t d0) (Committed t d0) (commitTxn t m) 0 d := by
  have hvs := view_stage (t := t) hv
  have hidle : ∀ n d, n ≤ t.blocks.length → Idle start nlog d0 d → CommitCrash t d0 n d :=
    fun n d hn hi => by rw [CommitCrash, if_pos hn]; exact hi
  have hlog : ∀ n d, t.blocks.length + 1 ≤ n → Logged t d0 d → CommitCrash t d0 n d :=
    fun n d hn hi => by rw [CommitCrash, if_neg (by omega)]; exact .inr ⟨t, d0, rfl, hi⟩
  by_cases hpos : 0 < t.blocks.length
  · have hw : Writing t d0 0 (t.stage m) d := by
      refine ⟨rfl, h, fun p hp => ?_, fun b hb => ?_, fun i hi => absurd hi (Nat.not_lt_zero i)⟩
      · rw [hvs, Txn.apply, writeAll_mem t.nodup hp]
      · rw [hvs, Txn.apply, writeAll_notMem hb]
    unfold commitTxn
    rw [commit_run (by simpa [Txn.stage] using hpos)]
    refine Wpc.bind (wpc_writeLogFrom hidle (fun m1 d1 h1 => ?_) t.blocks (by simp)
      (Nat.zero_le _) hw)
    refine Wpc.bind (wpc_writeHead (h1.synced _ t.start_notMem) (hidle _ _ (Nat.le_refl _) h1.idle)
      (hlog _ _ (Nat.le_refl _) h1.logged) fun m2 h2 hv2 => ?_)
    have hI := h1.commit h2 hv2
    simp only [hI.lh]
    refine Wpc.bind (wpc_installFrom hlog (fun n m3 d3 hn h3 => ?_) t.blocks (by simp)
      (Nat.zero_le _) (Nat.le_refl _) hI)
    have hv3 := h3.view_eq
    have hd : CommitCrash t d0 (n + 1) (update d3 start (putHead (d3 start) [])) := by
      rw [CommitCrash, if_neg (by omega)]
      exact .inl h3.erase
    refine wpc_writeHead (m := { m3 with lh := [] }) (congrFun hv3 start) (hlog _ _ hn h3.logged) hd
      fun m4 _ hv4 => ⟨h3.erase, ?_, fun _ => by omega⟩
    rw [hv4]
    show update (view m3 d3) _ _ = _
    rw [hv3]
  · have hnil : t.blocks = [] := List.eq_nil_of_length_eq_zero (by omega)
    have happ : t.apply d0 = d0 := by simp [Txn.apply, hnil, writeAll]
    have hrun : commitTxn t m = .ret ((), t.stage m) := by
      show (if (t.blocks.map Prod.fst).length > 0 then _ else _ : LogM Unit).run (t.stage m) = _
      rw [if_neg (by simpa using hnil)]
      rfl
    rw [hrun]
    refine ⟨hidle _ _ (Nat.zero_le _) h, happ.symm ▸ h, ?_, fun hp => absurd hp hpos⟩
    rw [hvs]
    simp [Txn.apply, hnil, writeAll]

/-! ## Recovery -/

theorem recovery_run : recovery start = ((bread start).run .boot >>= fun r =>
    (installFrom start 0 (headBlocks r.1)).run { r.2 with lh := headBlocks r.1 } >>= fun r =>
    (writeHead start).run { r.2 with lh := [] }) := rfl

theorem wpc_recovery_idle (hn : 0 < nlog) (h : Idle start nlog d0 d) :
    Wpc (fun _ => Recov start nlog d0)
      (fun _ r d' => Idle start nlog d0 d' ∧ view r.2 d' = d') (recovery start) 0 d := by
  have herase : Idle start nlog d0 (update d start (putHead (d start) [])) := by
    refine ⟨by simp [headN_putHead], fun b hb => ?_⟩
    have hne : b ≠ start := by unfold OffLog at hb; omega
    rw [update_of_ne hne]
    exact h.off b hb
  rw [recovery_run]
  refine Wpc.bind (wpc_bread (.inl h) fun m1 _ hv1 => ?_)
  rw [view_boot] at hv1 ⊢
  simp only [headBlocks_of_headN h.head]
  refine Wpc.bind ⟨.inl h, ?_⟩
  refine wpc_writeHead (m := { m1 with lh := [] }) (congrFun hv1 start) (.inl h) (.inl herase)
    fun m2 _ hv2 => ⟨herase, ?_⟩
  rw [hv2]
  show update (view m1 d) _ _ = _
  rw [hv1]

theorem wpc_recovery_logged (h : Logged t d0 d) : Wpc (fun _ => Recov start nlog (t.apply d0))
      (fun _ r d' => Idle start nlog (t.apply d0) d' ∧ view r.2 d' = d') (recovery start) 0 d := by
  have hlog : ∀ n d, 0 ≤ n → Logged t d0 d → Recov start nlog (t.apply d0) d :=
    fun _ _ _ hl => .inr ⟨t, d0, rfl, hl⟩
  rw [recovery_run]
  refine Wpc.bind (wpc_bread (hlog 0 d (Nat.le_refl _) h) fun m1 _ hv1 => ?_)
  rw [view_boot] at hv1 ⊢
  simp only [h.head]
  have hI : Installing t d0 0 { m1 with lh := t.blocks.map Prod.fst } d :=
    ⟨rfl, h, fun b _ => congrFun hv1 b, fun i hi => absurd hi (Nat.not_lt_zero i)⟩
  refine Wpc.bind (wpc_installFrom hlog (fun n m2 d2 _ h2 => ?_) t.blocks (by simp)
    (Nat.zero_le _) (Nat.le_refl _) hI)
  have hv2 := h2.view_eq
  refine wpc_writeHead (m := { m2 with lh := [] }) (congrFun hv2 start)
    (hlog n d2 (Nat.zero_le _) h2.logged) (.inl h2.erase) fun m3 _ hv3 => ⟨h2.erase, ?_⟩
  rw [hv3]
  show update (view m2 d2) _ _ = _
  rw [hv2]

theorem reboot_recovery (hn : 0 < nlog) {d1 : Disk} (h : Recov start nlog d1 d) (ks : List Nat) :
    Idle start nlog d1 (reboot (recovery start) ks d).2 ∧
      view (reboot (recovery start) ks d).1.2 (reboot (recovery start) ks d).2 =
        (reboot (recovery start) ks d).2 := by
  refine reboot_spec (I := Recov start nlog d1)
    (Q := fun (r : Unit × Mem) d' => Idle start nlog d1 d' ∧ view r.2 d' = d') (fun d hd => ?_) h
  rcases hd with hd | ⟨t, d0, rfl, hd⟩
  · exact wpc_recovery_idle hn hd
  · exact wpc_recovery_logged hd

/-! ## Sequences of transactions -/

/-- A crash anywhere in a sequence of commits leaves a disk that recovers to the result of a prefix
of the transactions. -/
theorem wpc_commitAll (ts : List (Txn start nlog)) {n : Nat} (h : Idle start nlog d0 d)
    (hv : view m d = d) :
    Wpc (fun _ d' => ∃ l, l <+: ts ∧ Recov start nlog (applyAll l d0) d') (fun _ _ _ => True)
      (commitAll ts m) n d := by
  induction ts generalizing m d d0 n with
  | nil => exact ⟨⟨[], List.nil_prefix, .inl h⟩, trivial⟩
  | cons t ts ih =>
    have hcrash : ∀ n d', CommitCrash t d0 n d' →
        ∃ l, l <+: t :: ts ∧ Recov start nlog (applyAll l d0) d' := by
      intro n d' hc
      unfold CommitCrash at hc
      split at hc
      · exact ⟨[], List.nil_prefix, .inl hc⟩
      · exact ⟨[t], (List.prefix_cons_inj t).2 List.nil_prefix, hc⟩
    have hcommit : Wpc (fun _ d' => ∃ l, l <+: t :: ts ∧ Recov start nlog (applyAll l d0) d')
        (fun _ r d' => Idle start nlog (t.apply d0) d' ∧ view r.2 d' = d') (commitTxn t m) 0 d :=
      (wpc_commitTxn (t := t) h hv).mono hcrash fun _ _ _ hc => ⟨hc.idle, hc.view⟩
    refine Wpc.bind (hcommit.shift.mono (fun _ _ hl => hl) fun n r d' hd' => ?_)
    refine (ih hd'.1 hd'.2).mono (fun _ d'' hl => ?_) fun _ _ _ _ => trivial
    obtain ⟨l, hl, hr⟩ := hl
    exact ⟨t :: l, (List.prefix_cons_inj t).2 hl, hr⟩

theorem boot_run (hn : 0 < nlog) {b : Boot start nlog} {s : Mem × Disk}
    (h : Idle start nlog d0 s.2) (hv : view s.1 s.2 = s.2) :
    ∃ l, l <+: b.txns ∧ Idle start nlog (applyAll l d0) (b.run s).2 ∧
      view (b.run s).1 (b.run s).2 = (b.run s).2 := by
  obtain ⟨l, hl, hr⟩ := (wpc_commitAll b.txns (n := 0) h hv).crashAt b.k
  exact ⟨l, hl, reboot_recovery hn hr b.ks⟩

theorem runBoots_spec (hn : 0 < nlog) (bs : List (Boot start nlog)) {s : Mem × Disk}
    (h : Idle start nlog d0 s.2) (hv : view s.1 s.2 = s.2) :
    ∃ ls : List (List (Txn start nlog)), List.Forall₂ (fun l b => l <+: b.txns) ls bs ∧
      Idle start nlog (applyAll ls.flatten d0) (runBoots bs s).2 := by
  induction bs generalizing s d0 with
  | nil => exact ⟨[], .nil, h⟩
  | cons b bs ih =>
    obtain ⟨l, hl, hi, hv'⟩ := boot_run (b := b) hn h hv
    obtain ⟨ls, hls, hi'⟩ := ih hi hv'
    refine ⟨l :: ls, .cons hl hls, ?_⟩
    rw [List.flatten_cons, applyAll, List.foldl_append]
    exact hi'

/-- **Crash atomicity of the log.** `commit`, cut after `k` block writes, and recovery, cut any
number of times and then run to its end, leave the home blocks all as after the transaction if the
first write of the header was made, all as before it if not. Over any number of boots, the disk
outside the log is the result of a prefix of each boot's transactions. -/
theorem log_crash_atomic (start nlog : Nat) (hn : 0 < nlog) (m : Mem) (d : Disk)
    (h0 : headN (d start) = 0) (hv : view m d = d) :
    (∀ (t : Txn start nlog) (k : Nat) (ks : List Nat),
      let d' := (reboot (recovery start) ks (crashAt k (commitTxn t m) d)).2
      headN (d' start) = 0 ∧
      (∀ b, OffLog start nlog b → b ∉ t.blocks.map Prod.fst → d' b = d b) ∧
      (t.blocks.length + 1 ≤ k → ∀ p ∈ t.blocks, d' p.1 = p.2) ∧
      (k < t.blocks.length + 1 → ∀ p ∈ t.blocks, d' p.1 = d p.1)) ∧
    ∀ bs : List (Boot start nlog), headN ((runBoots bs (m, d)).2 start) = 0 ∧
      ∃ ls : List (List (Txn start nlog)), List.Forall₂ (fun l b => l <+: b.txns) ls bs ∧
        ∀ b, OffLog start nlog b → (runBoots bs (m, d)).2 b = applyAll ls.flatten d b := by
  have hidle : Idle start nlog d d := ⟨h0, fun _ _ => rfl⟩
  refine ⟨fun t k ks => ?_, fun bs => ?_⟩
  · have hw := wpc_commitTxn (t := t) hidle hv
    have hc := hw.crashAt k
    have hwr := hw.exec.writes
    simp only [Nat.zero_add] at hc hwr
    -- the write of the header is reached exactly when the crash comes after it
    by_cases hk : t.blocks.length < min k (writes (commitTxn t m) d)
    · rw [CommitCrash, if_neg (by omega)] at hc
      have hr := (reboot_recovery hn hc ks).1
      refine ⟨hr.head, fun b hb hm => ?_, fun _ p hp => ?_, fun hlt => absurd hk (by omega)⟩
      · rw [hr.off b hb, Txn.apply, writeAll_notMem hm]
      · rw [hr.off _ (t.outside p hp), Txn.apply, writeAll_mem t.nodup hp]
    · rw [CommitCrash, if_pos (by omega)] at hc
      have hr := (reboot_recovery hn (.inl hc) ks).1
      refine ⟨hr.head, fun b hb _ => hr.off b hb, fun hle p hp => ?_,
        fun _ p hp => hr.off _ (t.outside p hp)⟩
      have := hwr (List.length_pos_of_mem hp)
      omega
  · obtain ⟨ls, hls, hi⟩ := runBoots_spec hn bs (s := (m, d)) hidle hv
    exact ⟨hi.head, ls, hls, hi.off⟩

end

/-- A block logged by one transaction, a crash right after the header was written, and two crashes
of the recovery: the block is installed. -/
theorem log_crash_atomic_one :
    (reboot (recovery 2) [0, 1] (crashAt 2 (commitTxn (⟨[(40, fill 7)], List.nodup_singleton _,
      List.forall_mem_singleton.2 (.inr (by decide)), by decide, by decide,
      List.forall_mem_singleton.2 (by decide)⟩ : Txn 2 30) .boot) fun _ => fill 0)).2 40 = fill 7 :=
  ((log_crash_atomic 2 30 (by decide) .boot (fun _ => fill 0) rfl rfl).1 _ 2 [0, 1]).2.2.1
    (by decide) (40, fill 7) (by simp)

end Log
