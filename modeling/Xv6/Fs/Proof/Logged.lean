import Xv6.Fs.Proof.File

/-!
# What reads and writes pass to the log

`Good` is about a transaction that the log has room for. With a log `l`, a function of `fs.c` does the
same, and puts the blocks that it passes to `log_write` into the header, as long as `log_write` takes
them (`LogState.Admits`); else it panics (`Logs`).

How many blocks these are is counted along the run (`Passes`): each block that is allocated costs at
least one and at most three (`Spends`).
-/

namespace Fs

open Function
open Log (Block)
open Panic
open Param

/-! ## The log -/

/-- `log_write` takes the blocks `bs`, one after the other. -/
def LogState.Admits (l : LogState) : List Nat → Prop
  | [] => True
  | b :: bs => (l.lh.length < LOGSIZE ∧ l.lh.length + 1 < l.size ∧ 0 < l.outstanding) ∧
    (l.add b).Admits bs

/-- The state with the log `l`. -/
def State.logged (s : State) (l : LogState) : State := { s with log := some l }

/-- With a log, `m` does what it does in a transaction with room if the log takes the blocks `bs`, and
panics if it does not. -/
def Logs {α : Type} (m : FsM α) (s : State) (bs : List Nat) : Prop := ∀ l : LogState,
  (l.Admits bs → m (s.logged l) = (m s).map (Prod.map id (State.logged · (bs.foldl .add l)))) ∧
    (¬ l.Admits bs → ∃ e, m (s.logged l) = .error e)

/-- The blocks that `m` passes to `log_write`, and the state where it ends, are in `Q`. -/
def Passes {α : Type} (m : FsM α) (s : State) (Q : List Nat → State → Prop) : Prop :=
  ∃ bs, Logs m s bs ∧ ∀ a t, m s = .ok (a, t) → Q bs t

section
variable {α β : Type} {m : FsM α} {f : α → FsM β} {s t : State} {l : LogState} {bs cs : List Nat}
  {P Q : List Nat → State → Prop} {b i k off n : Nat} {v : Block}

theorem LogState.admits_append : l.Admits (bs ++ cs) ↔ l.Admits bs ∧ (bs.foldl .add l).Admits cs := by
  induction bs generalizing l with
  | nil => exact (and_iff_right trivial).symm
  | cons b bs ih =>
    rw [List.cons_append, Admits, Admits, ih, List.foldl_cons, and_assoc (c := Admits _ cs)]

theorem LogState.admits_of_length (ho : 0 < l.outstanding) (h : l.lh.length + bs.length ≤ LOGSIZE)
    (h' : l.lh.length + bs.length < l.size) : l.Admits bs := by
  induction bs generalizing l with
  | nil => trivial
  | cons b bs ih =>
    rw [List.length_cons] at h h'
    have hadd : (l.add b).lh.length ≤ l.lh.length + 1 := by
      simp only [add]
      split <;> simp
    exact ⟨⟨by omega, by omega, ho⟩, ih ho (by omega) (show _ < l.size by omega)⟩

/-! ## Rules -/

theorem Logs.run {a : α} (h : Logs m s bs) (ha : l.Admits bs) (hm : m s = .ok (a, t)) :
    m (s.logged l) = .ok (a, t.logged (bs.foldl .add l)) := by
  rw [(h l).1 ha, hm]
  rfl

theorem Logs.ok {a : α} {t' : State} (h : Logs m s bs) (hm : m (s.logged l) = .ok (a, t')) :
    l.Admits bs ∧ ∃ t, m s = .ok (a, t) ∧ t' = t.logged (bs.foldl .add l) := by
  by_cases ha : l.Admits bs
  · rw [(h l).1 ha] at hm
    cases hs : m s with
    | ok p =>
      rw [hs] at hm
      cases hm
      exact ⟨ha, _, rfl, rfl⟩
    | error e =>
      rw [hs] at hm
      cases hm
  · obtain ⟨e, he⟩ := (h l).2 ha
    rw [he] at hm
    cases hm

theorem Logs.quiet (h : ∀ l, m (s.logged l) = (m s).map (Prod.map id (State.logged · l))) : Logs m s [] :=
  fun l => ⟨fun _ => h l, fun hn => absurd trivial hn⟩

theorem Passes.quiet (h : ∀ l, m (s.logged l) = (m s).map (Prod.map id (State.logged · l)))
    (hq : ∀ a t, m s = .ok (a, t) → Q [] t) : Passes m s Q := ⟨[], .quiet h, hq⟩

theorem Passes.mono (h : Passes m s P) (hq : ∀ a t bs, m s = .ok (a, t) → P bs t → Q bs t) :
    Passes m s Q := by
  obtain ⟨bs, hl, hp⟩ := h
  exact ⟨bs, hl, fun a t hrun => hq a t bs hrun (hp a t hrun)⟩

theorem Passes.bind (h : Passes m s P)
    (hf : ∀ a t bs, m s = .ok (a, t) → P bs t → Passes (f a) t fun cs t' => Q (bs ++ cs) t') :
    Passes (m >>= f) s Q := by
  obtain ⟨bs, hl, hp⟩ := h
  cases hm : m s with
  | error e =>
    refine ⟨bs, fun l => ⟨fun ha => ?_, fun ha => ?_⟩, fun b t hb => ?_⟩
    · rw [bind_error hm]
      refine bind_error ?_
      rw [(hl l).1 ha, hm]
      rfl
    · obtain ⟨e', he⟩ := (hl l).2 ha
      exact ⟨e', bind_error he⟩
    · rw [bind_error hm] at hb
      cases hb
  | ok p =>
    obtain ⟨a, t⟩ := p
    obtain ⟨cs, hl', hq⟩ := hf a t bs hm (hp a t hm)
    refine ⟨bs ++ cs, fun l => ⟨fun ha => ?_, fun ha => ?_⟩, fun b t' hb => hq b t' ?_⟩
    · obtain ⟨h1, h2⟩ := LogState.admits_append.1 ha
      rw [bind_run (hl.run h1 hm), bind_run hm, List.foldl_append]
      exact (hl' _).1 h2
    · by_cases h1 : l.Admits bs
      · rw [bind_run (hl.run h1 hm)]
        exact (hl' _).2 fun h2 => ha (LogState.admits_append.2 ⟨h1, h2⟩)
      · obtain ⟨e, he⟩ := (hl l).2 h1
        exact ⟨e, bind_error he⟩
    · rwa [bind_run hm] at hb

theorem Passes.pure {a : α} (hq : Q [] s) : Passes (Pure.pure a) s Q :=
  .quiet (fun _ => rfl) fun _ _ h => (pure_ok.1 h).2 ▸ hq

theorem Passes.throw {e : String} : Passes (MonadExcept.throw e : FsM α) s Q :=
  .quiet (fun _ => rfl) fun _ _ h => by cases h

theorem Passes.map {g : α → β} (h : Passes m s Q) : Passes (m >>= fun a => Pure.pure (g a)) s Q :=
  h.bind fun _ _ _ _ hq => .pure (by rwa [List.append_nil])

theorem Passes.ite {c : Prop} [Decidable c] {m' : FsM α} (h : c → Passes m s Q)
    (h' : ¬ c → Passes m' s Q) :
    Passes (if c then m else m') s Q := by
  split
  · exact h ‹_›
  · exact h' ‹_›

theorem Passes.got {f : State → FsM β} (hf : ∀ l, f (s.logged l) = f s) (h : Passes (f s) s Q) :
    Passes (get >>= f) s Q := by
  obtain ⟨bs, hl, hq⟩ := h
  refine ⟨bs, fun l => ?_, fun b t => ?_⟩
  · rw [bind_run get_run, bind_run get_run, hf]
    exact hl l
  · rw [bind_run get_run]
    exact hq b t

theorem Passes.modified {g : State → State} {f : Unit → FsM β} (hg : ∀ l, g (s.logged l) = (g s).logged l)
    (h : Passes (f ()) (g s) Q) : Passes (modify g >>= f) s Q := by
  refine Passes.bind (P := fun bs t => bs = [] ∧ t = g s) (.quiet (fun l => ?_) fun _ t ht => ?_)
    fun _ t bs _ hbs => ?_
  · rw [modify_run, modify_run, hg]
    rfl
  · cases ht
    exact ⟨rfl, rfl⟩
  · obtain ⟨rfl, rfl⟩ := hbs
    exact h

/-! ## Blocks -/

theorem Passes.read {f : Block → FsM β} (h : Passes (f (s.disk b)) s Q) : Passes (bread b >>= f) s Q := by
  refine Passes.bind (P := fun bs _ => bs = []) (.quiet (fun l => ?_) fun _ _ _ => rfl)
    fun v t bs hrun hbs => ?_
  · unfold bread
    split <;> rfl
  · obtain ⟨rfl, rfl⟩ := bread_spec.ok hrun
    subst hbs
    exact h

theorem Passes.logWrite (hl : s.log = none) (hq : Q [b] (s.setBlock b v)) :
    Passes (logWrite b v) s Q := by
  have hrun : Fs.logWrite b v s = .ok ((), s.setBlock b v) := logWrite_run hl
  refine ⟨[b], fun l => ⟨fun ha => ?_, fun ha => ?_⟩, fun a t ht => ?_⟩
  · obtain ⟨⟨h1, h2, h3⟩, -⟩ := ha
    rw [hrun, Fs.logWrite, bind_run get_run]
    simp only [State.logged]
    rw [if_neg (by omega), if_neg (by omega)]
    rfl
  · rw [Fs.logWrite, bind_run get_run]
    simp only [State.logged]
    split
    · exact ⟨_, rfl⟩
    · split
      · exact ⟨_, rfl⟩
      · exact absurd ⟨⟨by omega, by omega, by omega⟩, trivial⟩ ha
  · rw [hrun] at ht
    cases ht
    exact hq

theorem Passes.write {f : Unit → FsM β} (hl : s.log = none)
    (h : Passes (f ()) (s.setBlock b v) fun cs t => Q (b :: cs) t) :
    Passes (Fs.logWrite b v >>= f) s Q := by
  refine Passes.bind (.logWrite (Q := fun bs t => bs = [b] ∧ t = s.setBlock b v) hl ⟨rfl, rfl⟩)
    fun _ t bs _ hbs => ?_
  obtain ⟨rfl, rfl⟩ := hbs
  exact h

theorem ballocFrom_passes (hl : s.log = none) : Passes (ballocFrom n b) s fun bs _ => bs.length = 2 := by
  induction n generalizing b with
  | zero => exact .throw
  | succ n ih =>
    refine .got (fun _ => rfl) (.ite (fun _ => .read ?_) fun _ => .throw)
    split
    · refine .write hl (Passes.bind (.read (.logWrite (Q := fun bs _ => bs.length = 1) hl rfl))
        fun _ _ _ _ hbs => .pure ?_)
      rw [List.length_cons, List.append_nil, hbs]
    · exact ih

/-! ## Pointers -/

theorem State.free_setBlock (hg : s.sb.Geometry) (hb : b ≠ s.sb.bmapstart) :
    (s.setBlock b v).free = s.free := by
  unfold State.free
  congr 1
  refine Finset.filter_congr fun x hx => ?_
  rw [Finset.mem_range] at hx
  rw [hg.used_eq hx, State.setBlock]
  simp only [hg.used_eq hx, update_of_ne hb.symm]

theorem Super.Geometry.ne_bitmap {sb : Super} (hg : sb.Geometry) (hb : sb.IsData b) :
    b ≠ sb.bmapstart := by
  have h1 := hg.bitmap
  have h2 := hb.1
  omega

/-- From `s` to `t` each block that was allocated took one to three of the blocks `bs`, and at most `k` of
them are for something else. -/
def Spends (s : State) (k : Nat) (bs : List Nat) (t : State) : Prop :=
  bs.length + 3 * t.free ≤ 3 * s.free + k ∧ s.free ≤ t.free + bs.length

theorem Spends.nil : Spends s k [] s := ⟨by simp, by simp⟩

theorem Spends.append {t' : State} {m : Nat} (h : Spends s k bs t) (h' : Spends t m cs t') :
    Spends s (k + m) (bs ++ cs) t' := by
  unfold Spends at *
  rw [List.length_append]
  omega

theorem balloc_passes (hs : Good s i) :
    Passes balloc s fun bs t => bs.length = 2 ∧ t.free + 1 = s.free ∧ t.sb = s.sb ∧ t.log = none := by
  refine Passes.mono (.got (fun _ => rfl) (ballocFrom_passes hs.log)) fun b t bs hrun hbs => ?_
  obtain ⟨hb, hu, -, rfl⟩ := (balloc_spec hs.log hs.geo hs.owned.system).ok hrun
  refine ⟨hbs, card_filter_erase hb.2 hu fun x hx => ?_, rfl, hs.log⟩
  rw [show used s.sb (allocDisk s.sb s.disk b) x = _ from allocDisk_used hs.geo hb hx]
  simp [and_comm]

theorem bmapAddr_passes (hs : Good s i) : Passes (bmapAddr i k) s (Spends s 0) := by
  refine .got (fun _ => rfl) (.ite (fun _ => ?_) fun _ => .pure .nil)
  refine (balloc_passes hs).bind fun b t bs _ h => .modified (fun _ => rfl) (.pure ?_)
  obtain ⟨hbs, hfree, -⟩ := h
  rw [Spends, show (t.setNode i _).free = t.free from rfl, List.append_nil]
  omega

theorem bmap_passes {bn : Nat} (hs : Good s i) : Passes (bmap i bn) s (Spends s 0) := by
  refine .ite (fun _ => bmapAddr_passes hs) fun _ => .ite (fun _ => ?_) fun _ => .throw
  refine (bmapAddr_passes hs).bind fun ind t bs hrun hq => .read ?_
  obtain ⟨ht, -, hind, hne⟩ := (bmapAddr_spec hs (le_refl _)).ok hrun
  have hdata := (ht.data_of (by decide) ((ptr_addrs (le_refl _)).trans hind) hne).1
  refine .ite (fun _ => (balloc_passes ht).bind fun b t' cs _ h => ?_) fun _ =>
    .pure (hq.append (m := 0) .nil)
  obtain ⟨hcs, hfree, hsb, hlog⟩ := h
  refine .write hlog (.pure (hq.append (m := 0) ?_))
  rw [Spends, State.free_setBlock (hsb ▸ ht.geo) (hsb ▸ ht.geo.ne_bitmap hdata), List.length_append,
    List.length_singleton]
  omega

theorem bmap_good {bn : Nat} (hs : Good s i) (h : bmap i bn s = .ok (b, t)) :
    Good t i ∧ bn < MAXFILE ∧ ptr t.disk (t.node i) (slot bn) = b ∧ b ≠ 0 := by
  by_cases hbn : bn < MAXFILE
  · obtain ⟨ht, -, hb, hne⟩ := (bmap_spec hs hbn).ok h
    exact ⟨ht, hbn, hb, hne⟩
  · rw [bmap_range (Nat.not_lt.1 hbn)] at h
    cases h

/-! ## Reads and writes -/

theorem iupdate_passes (hl : s.log = none) (hg : s.sb.Geometry) (hi : i < s.sb.ninodes) :
    Passes (iupdate i) s (Spends s 1) := by
  have := hg.inodes i hi
  refine .got (fun _ => rfl) (.read (.got (fun _ => rfl) (.logWrite hl ?_)))
  rw [Spends, State.free_setBlock hg (by omega), List.length_singleton]
  omega

/-- The number of blocks of the range. -/
def blocks (off n : Nat) : Nat := if n = 0 then 0 else (off % BSIZE + n - 1) / BSIZE + 1

theorem blocks_split (hn : 0 < n) : blocks off n = 1 +
    blocks (off + min n (BSIZE - off % BSIZE)) (n - min n (BSIZE - off % BSIZE)) := by
  unfold blocks BSIZE
  split
  · omega
  · split <;> omega

theorem writeLoop_passes {fuel : Nat} {data : List UInt8} (hs : Good s i) :
    Passes (writeLoop i fuel off data) s (Spends s (blocks off data.length)) := by
  induction fuel generalizing s off data with
  | zero => exact .pure .nil
  | succ fuel ih =>
    refine .ite (fun _ => .pure .nil) fun h0 => (bmap_passes hs).bind fun b t bs hrun h => .read ?_
    obtain ⟨ht, hbn, hb, hne⟩ := bmap_good hs hrun
    have hdata := (ht.data_of (slot_lt hbn) hb hne).1
    have hmod : off % BSIZE < BSIZE := Nat.mod_lt _ (by decide)
    refine .write ht.log ((ih (ht.write_block data hb hne hbn (Nat.min_le_left ..)
      (show off % BSIZE + min _ _ ≤ BSIZE by omega)).1).mono fun _ t' cs _ h' => ?_)
    rw [blocks_split (List.length_pos_iff.2 h0), ← List.length_drop]
    unfold Spends at *
    rw [State.free_setBlock ht.geo (ht.geo.ne_bitmap hdata)] at h'
    rw [List.length_append, List.length_cons]
    omega

theorem writei_passes {data : List UInt8} (hs : Good s i) (ho : off < 2 ^ 32)
    (hn : data.length < 2 ^ 32) :
    Passes (writei i off data) s (Spends s (blocks off data.length + 1)) := by
  refine .got (fun _ => rfl) (.ite (fun _ => ?_) fun _ => .ite (fun _ => .pure .nil) fun hgood =>
    .ite (fun _ => .pure .nil) fun hfit => ?_)
  · split <;> exact .pure .nil
  rw [wraps_iff ho hn, not_or, Nat.not_lt, Nat.not_le] at hgood
  rw [Nat.mod_eq_of_lt hgood.2] at hfit
  refine (writeLoop_passes hs).bind fun _ t bs hrun h =>
    .got (fun _ => rfl) (.ite (fun _ => ?_) fun _ => ?_)
  · obtain ⟨ht, -⟩ := (writeLoop_spec hs (le_refl _) (Nat.not_lt.1 hfit)).ok hrun
    refine .modified (fun _ => rfl) (Passes.map ?_)
    exact (iupdate_passes (s := t.setNode i _) ht.log ht.geo ht.live.1).mono fun _ _ _ _ h' =>
      h.append (t := t) h'
  · exact .pure (h.append .nil)

end

end Fs
