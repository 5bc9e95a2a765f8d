import Xv6.Fs.Proof.Write

/-!
# Runs of writes against the flat model

A run of writes to open files, each in a transaction and under the lock of its inode as in the loop of
`filewrite`, leaves in each of them what the flat model has, where the files are lists of bytes that
share nothing (`writes_flat`): no write changes another file, whatever blocks `balloc` hands out, and
`log_write` has room for all of them.
-/

namespace Fs

open Panic
open Param

variable {s s' : State} {i j : Nat}

structure FileWrite where
  i : Nat
  off : Nat
  data : List UInt8

/-- `begin_op` of the only process, which would sleep for ever. -/
def beginOp : FsM Unit := do
  match (← get).log with
  | none => return
  | some l =>
    if LOGSIZE < l.lh.length + (l.outstanding + 1) * MAXOPBLOCKS then throw "sleep"
    modify (·.logged { l with outstanding := l.outstanding + 1 })

/-- `end_op`, which commits when no operation is left. -/
def endOp : FsM Unit := do
  match (← get).log with
  | none => return
  | some l =>
    modify (·.logged { l with
      outstanding := l.outstanding - 1
      lh := if l.outstanding - 1 = 0 then [] else l.lh })

def writeOp (w : FileWrite) : FsM Unit := do
  beginOp
  let _ ← writeChunk w.i w.off w.data
  endOp

def writeRun : List FileWrite → FsM Unit
  | [] => return
  | w :: ws => do
    writeOp w
    writeRun ws

/-- The write in the flat model, which refuses what leaves a gap or makes the file too long. -/
def flatWrite (F : Nat → List UInt8) (w : FileWrite) : Nat → List UInt8 :=
  if (F w.i).length < w.off ∨ MAXFILE * BSIZE < w.off + w.data.length then F
  else Function.update F w.i (writeFlat (F w.i) w.off w.data)

def State.flat (s : State) (i : Nat) : List UInt8 := contents s.disk (s.cur i)

/-- An open file with no block behind the largest file. -/
structure Plain (s : State) (i : Nat) : Prop extends Opened s i where
  size : (s.cur i).size ≤ MAXFILE * BSIZE

theorem Plain.length (h : Plain s i) : (s.flat i).length = (s.cur i).size := by
  rw [State.flat, length_contents, Nat.min_eq_left h.size]

theorem Plain.other (h : Plain s j) (hlog : s'.log = none) (hg : s'.sb.Geometry)
    (ho : Owned s'.sb s'.disk s'.cur) (hsb : s'.sb = s.sb) (hcur : s'.cur j = s.cur j)
    (hino : s'.ino j = s.ino j) : Plain s' j where
  log := hlog
  geo := hg
  owned := ho
  live := by
    rw [hsb]
    exact ⟨h.live.1, hcur ▸ h.live.2⟩
  fits := hcur ▸ h.fits
  type := hcur ▸ h.type
  ref := hino ▸ h.ref
  unlocked := hino ▸ h.unlocked
  size := hcur ▸ h.size

theorem Plain.unlock {I : Set Nat} {t : State} (h : ∀ j ∈ I, Plain s j) (ht : Good t i)
    (htype : (t.node i).type = T_FILE) (href : 0 < (t.ino i).ref)
    (hsize : (t.node i).size ≤ MAXFILE * BSIZE) (hsb : t.sb = s.sb)
    (hother : ∀ j ∈ I, j ≠ i → t.cur j = s.cur j ∧ t.ino j = s.ino j) :
    ∀ j ∈ I, Plain (t.unlock i) j := by
  intro j hj
  have hopen := ht.opened htype href
  by_cases hji : j = i
  · subst hji
    exact ⟨hopen, by rw [t.unlock_cur, ht.cur]; exact hsize⟩
  · obtain ⟨hcur, hino⟩ := hother j hj hji
    refine (h j hj).other hopen.log hopen.geo hopen.owned ((t.unlock_sb i).trans hsb) ?_ ?_
    · rw [t.unlock_cur, hcur]
    · rw [State.unlock_other hji, hino]

theorem State.unlock_flat (t : State) (i : Nat) : (t.unlock i).flat = t.flat := by
  funext j
  rw [State.flat, State.flat, t.unlock_disk, t.unlock_cur]

theorem State.lock_flat (s : State) (i : Nat) : (s.lock i).flat = s.flat := by
  funext j
  rw [State.flat, State.flat, s.lock_cur]
  rfl

theorem State.unlock_logged {t : State} {l : LogState} :
    (t.logged l).unlock i = (t.unlock i).logged l := by
  unfold unlock
  rw [show (t.logged l).ino i = t.ino i from rfl]
  split <;> rfl

/-! ## One write -/

/-- The log between two transactions. -/
structure LogState.Idle (l : LogState) : Prop where
  size : LOGSIZE ≤ l.size
  outstanding : l.outstanding = 0
  lh : l.lh = []

theorem LogState.foldl_add (l : LogState) (bs : List Nat) :
    (bs.foldl .add l).size = l.size ∧ (bs.foldl .add l).outstanding = l.outstanding := by
  induction bs generalizing l with
  | nil => exact ⟨rfl, rfl⟩
  | cons b bs ih => exact ih _

theorem card_touched (h : n ≤ Shared.max) : (touched off n).card ≤ 5 := by
  refine (Finset.card_le_card fun x hx => ?_).trans
    (Finset.card_le_five (a := NDIRECT) (b := slot (off / BSIZE)) (c := slot (off / BSIZE + 1))
      (d := slot (off / BSIZE + 2)) (e := slot (off / BSIZE + 3)))
  obtain ⟨k, hk, hx⟩ := Finset.mem_biUnion.1 hx
  rw [Finset.mem_range] at hk
  have hx : x = NDIRECT ∨ x = slot ((off + k) / BSIZE) := by
    unfold touch at hx
    unfold slot
    split at hx
    · rw [if_pos ‹_›]
      exact .inr (Finset.mem_singleton.1 hx)
    · rw [if_neg ‹_›]
      simpa using hx
  have hj : (off + k) / BSIZE = off / BSIZE ∨ (off + k) / BSIZE = off / BSIZE + 1 ∨
      (off + k) / BSIZE = off / BSIZE + 2 ∨ (off + k) / BSIZE = off / BSIZE + 3 := by
    unfold Shared.max MAXOPBLOCKS at h
    unfold BSIZE
    omega
  simp only [Finset.mem_insert, Finset.mem_singleton]
  rcases hx with rfl | rfl
  · exact .inl rfl
  · rcases hj with h | h | h | h <;> simp [h]

theorem blocks_le (h : n ≤ Shared.max) : blocks off n ≤ 4 := by
  unfold Shared.max MAXOPBLOCKS at h
  unfold blocks BSIZE
  split <;> omega

theorem writeChunk_run {w : FileWrite} {t : State} {r : Option Nat}
    (hi : ilock w.i s = .ok ((), s.lock w.i))
    (hw : writei w.i w.off w.data (s.lock w.i) = .ok (r, t)) (hl : (t.ino w.i).locked = true)
    (href : 0 < (t.ino w.i).ref) :
    writeChunk w.i w.off w.data s = .ok ((r, (w.off + r.getD 0) % 2 ^ 32), t.unlock w.i) := by
  rw [writeChunk, bind_run hi, bind_run hw, bind_run (iunlock_run hl href)]
  rfl

/-- The log takes what a turn of the loop of `filewrite` passes to it. -/
theorem writeOp_run {w : FileWrite} {t : State} {l : LogState} {r : Option Nat} (h : Opened s w.i)
    (hl : l.Idle) (ho : w.off < 2 ^ 32) (hn : w.data.length ≤ Shared.max)
    (hw : writei w.i w.off w.data (s.lock w.i) = .ok (r, t)) (ht : s.free ≤ t.free + 5)
    (hlock : (t.ino w.i).locked = true) (href : 0 < (t.ino w.i).ref) :
    writeOp w (s.logged l) = .ok ((), (t.unlock w.i).logged l) := by
  obtain ⟨hsize, hout, hlh⟩ := hl
  have hbegin : beginOp (s.logged l) = .ok ((), s.logged { l with outstanding := 1 }) := by
    rw [beginOp, bind_run get_run]
    simp only [State.logged, hout, hlh]
    rfl
  have hend : ∀ l' : LogState, l'.size = l.size → l'.outstanding = 1 →
      endOp ((t.unlock w.i).logged l') = .ok ((), (t.unlock w.i).logged l) := fun l' hs ho => by
    obtain ⟨size, outstanding, lh⟩ := l
    rw [endOp, bind_run get_run]
    simp only [State.logged, hs, ho]
    subst hout hlh
    rfl
  obtain ⟨bs, hlogs, hq⟩ := writei_passes h.good ho (show w.data.length < 2 ^ 32 from
    hn.trans_lt (by decide))
  obtain ⟨hlen, -⟩ := hq _ _ hw
  have hblocks : blocks w.off w.data.length ≤ 4 := blocks_le hn
  have hcount : bs.length ≤ 20 := by
    rw [show (s.lock w.i).free = s.free from rfl] at hlen
    omega
  have hsum : l.lh.length + bs.length ≤ 20 := by rwa [hlh, List.length_nil, Nat.zero_add]
  have ha : ({ l with outstanding := 1 } : LogState).Admits bs := LogState.admits_of_length Nat.one_pos
    (hsum.trans (by decide)) (hsum.trans_lt (Nat.lt_of_lt_of_le (by decide) hsize))
  have hadd := LogState.foldl_add { l with outstanding := 1 } bs
  have hlk := ilock_run (s := s.logged { l with outstanding := 1 }) h.ref h.unlocked
    (h.geo.iblock_lt h.live.1) h.live.2
  have hchunk := writeChunk_run hlk (hlogs.run ha hw) hlock href
  rw [State.unlock_logged] at hchunk
  rw [writeOp, bind_run hbegin, bind_run hchunk]
  exact hend _ hadd.1 hadd.2

/-- **One write** is as in the flat model, and needs no more blocks than its range has. -/
theorem Plain.write {I : Set Nat} {w : FileWrite} {l : LogState} (h : ∀ j ∈ I, Plain s j) (hl : l.Idle)
    (hi : w.i ∈ I) (ho : w.off < 2 ^ 32) (hmax : w.data.length ≤ Shared.max)
    (hfree : (touched w.off w.data.length).card ≤ s.free) :
    ∃ s', writeOp w (s.logged l) = .ok ((), s'.logged l) ∧
      s.free ≤ s'.free + (touched w.off w.data.length).card ∧
      ∀ j ∈ I, Plain s' j ∧ s'.flat j = flatWrite s.flat w j := by
  have hopen := h w.i hi
  have hnode := s.lock_node w.i
  have hself := s.lock_self w.i
  have hlen := hopen.length
  have hmiss : ((s.lock w.i).missing w.i (touched w.off w.data.length)).card ≤
      (touched w.off w.data.length).card := Finset.card_filter_le ..
  have hcard : (touched w.off w.data.length).card ≤ 5 := card_touched hmax
  have hn : w.data.length < 2 ^ 32 := hmax.trans_lt (by decide)
  have hspec := writei_spec hopen.good (by rw [hnode, hopen.type]; decide) ho hn
  obtain ⟨r, t, hw, hq⟩ := hspec.returns fun _ he =>
    Nat.not_lt.2 (hmiss.trans hfree) he.2.2
  rw [hnode] at hq
  unfold Refused at hq
  rcases hq with ⟨hbad, -, rfl⟩ | ⟨hok, -, ht, hwrote⟩
  · have href : 0 < ((s.lock w.i).ino w.i).ref := by
      rw [hself]
      exact hopen.ref
    have hrun := writeOp_run hopen.toOpened hl ho hmax hw (Nat.le_add_right ..) (by rw [hself]) href
    refine ⟨_, hrun, ?_, fun j hj => ⟨?_, ?_⟩⟩
    · rw [State.unlock_free]
      exact Nat.le_add_right _ _
    · refine Plain.unlock h hopen.good (by rw [hnode, hopen.type]) href (by rw [hnode]; exact hopen.size)
        rfl (fun k _ hk => ⟨by rw [s.lock_cur], State.lock_other hk⟩) j hj
    · have hlarge : MAXFILE * BSIZE < 2 ^ 32 := by decide
      rw [State.unlock_flat, State.lock_flat, flatWrite, if_pos (by omega)]
  · obtain ⟨addrs, ha⟩ := hwrote.self
    rw [hself] at ha
    have href : 0 < (t.ino w.i).ref := by
      rw [ha]
      exact hopen.ref
    have hcount : t.free + _ = s.free := hwrote.free
    have hrun := writeOp_run hopen.toOpened hl ho hmax hw (by omega) (by rw [ha]) href
    have hwritten := hwrote.written (by rw [hnode]; omega) (by omega)
    have hother : ∀ j ∈ I, j ≠ w.i → t.cur j = s.cur j ∧ t.flat j = s.flat j := fun j hj hji => by
      have := hwritten.other j hji (by rw [s.lock_cur]; exact (h j hj).live)
      rw [s.lock_cur] at this
      exact this
    refine ⟨_, hrun, ?_, fun j hj => ⟨?_, ?_⟩⟩
    · rw [State.unlock_free]
      omega
    · have hsize := hwritten.size
      rw [hnode] at hsize
      refine Plain.unlock h ht ?_ href ?_ hwrote.sb (fun k hk hki =>
        ⟨(hother k hk hki).1, (hwrote.ino k hki).trans (State.lock_other hki)⟩) j hj
      · rw [State.node, ha, hnode]
        exact hopen.type
      · have := hopen.size
        omega
    · rw [State.unlock_flat, flatWrite, if_neg (by omega)]
      by_cases hji : j = w.i
      · subst hji
        rw [Function.update_self, State.flat, ht.cur, hwritten.self, hnode]
        rfl
      · rw [Function.update_of_ne hji]
        exact (hother j hj hji).2

theorem flatWrite_congr {F G : Nat → List UInt8} {w : FileWrite} (hw : F w.i = G w.i)
    (hj : F j = G j) : flatWrite F w j = flatWrite G w j := by
  unfold flatWrite
  rw [hw]
  split
  · exact hj
  · by_cases hji : j = w.i
    · rw [hji, Function.update_self, Function.update_self]
    · rw [Function.update_of_ne hji, Function.update_of_ne hji, hj]

theorem Plain.run {I : Set Nat} (ws : List FileWrite) {l : LogState} {F : Nat → List UInt8}
    (h : ∀ i ∈ I, Plain s i ∧ s.flat i = F i) (hl : l.Idle)
    (hw : ∀ w ∈ ws, w.i ∈ I ∧ w.off < 2 ^ 32 ∧ w.data.length ≤ Shared.max)
    (hfree : (ws.map fun w => (touched w.off w.data.length).card).sum ≤ s.free) :
    ∃ s', writeRun ws (s.logged l) = .ok ((), s'.logged l) ∧
      ∀ i ∈ I, Plain s' i ∧ s'.flat i = ws.foldl flatWrite F i := by
  induction ws generalizing s F with
  | nil => exact ⟨s, rfl, h⟩
  | cons w ws ih =>
    rw [List.map_cons, List.sum_cons] at hfree
    obtain ⟨hi, ho, hn⟩ := hw w List.mem_cons_self
    obtain ⟨s1, hrun, hleft, hstep⟩ := Plain.write (fun i hi => (h i hi).1) hl hi ho hn (by omega)
    obtain ⟨s', hrun', hend⟩ := ih (F := flatWrite F w)
      (fun j hj => ⟨(hstep j hj).1, (hstep j hj).2.trans (flatWrite_congr (h w.i hi).2 (h j hj).2)⟩)
      (fun w' hw' => hw w' (List.mem_cons_of_mem w hw')) (by omega)
    refine ⟨s', ?_, hend⟩
    rw [writeRun, bind_run hrun]
    exact hrun'

/-- **Files are independent byte arrays.** A run of writes to open files, each as long as a transaction
of `filewrite` at most, returns if there are free blocks for the ranges that are written, leaves in each
file what the flat model has, and the log empty. -/
theorem writes_flat {I : Set Nat} (ws : List FileWrite) {l : LogState} (h : ∀ i ∈ I, Plain s i)
    (hl : l.Idle)
    (hw : ∀ w ∈ ws, w.i ∈ I ∧ w.off < 2 ^ 32 ∧ w.data.length ≤ Shared.max)
    (hfree : (ws.map fun w => (touched w.off w.data.length).card).sum ≤ s.free) :
    ∃ s', writeRun ws (s.logged l) = .ok ((), s'.logged l) ∧
      ∀ i ∈ I, Plain s' i ∧ s'.flat i = ws.foldl flatWrite s.flat i :=
  Plain.run ws (fun i hi => ⟨h i hi, rfl⟩) hl hw hfree

theorem writes_flat_twice :
    ∃ s' : State, writeRun [⟨1, 0, [7, 8]⟩, ⟨1, 1, [9]⟩] (State.sample.logged ⟨LOGSIZE, 0, []⟩) =
      .ok ((), s'.logged ⟨LOGSIZE, 0, []⟩) ∧ s'.flat 1 = [7, 9] := by
  have hopen : ∀ i ∈ ({1} : Set Nat), Plain State.sample i := fun i hi => by
    rw [Set.mem_singleton_iff.1 hi]
    exact ⟨State.sample_opened, by decide⟩
  have hfits : ∀ w ∈ [FileWrite.mk 1 0 [7, 8], ⟨1, 1, [9]⟩],
      w.i ∈ ({1} : Set Nat) ∧ w.off < 2 ^ 32 ∧ w.data.length ≤ Shared.max := fun w hw => by
    simp only [List.mem_cons, List.not_mem_nil, or_false] at hw
    rcases hw with rfl | rfl <;> exact ⟨rfl, by decide, by decide⟩
  obtain ⟨s', hrun, h⟩ := writes_flat _ (l := ⟨LOGSIZE, 0, []⟩) hopen ⟨le_refl _, rfl, rfl⟩ hfits
    (Nat.le_trans (by decide) State.sample_free)
  exact ⟨s', hrun, (h 1 rfl).2.trans (by decide)⟩

end Fs
