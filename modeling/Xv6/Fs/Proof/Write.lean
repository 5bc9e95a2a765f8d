import Xv6.Fs.File
import Xv6.Fs.Proof.Contents

/-!
# What a write leaves behind

`filewrite` cuts a write into chunks and stops at the first one that `writei` refuses. The chunks
before it are `accepted` bytes, and these stay written although the call returns -1.
-/

namespace Fs

open Panic Finset
variable {s s' : State} {i ip off n a fuel : Nat} {data : List UInt8}

structure Opened (s : State) (i : Nat) : Prop where
  log : s.log = none
  geo : s.sb.Geometry
  owned : Owned s.sb s.disk s.cur
  live : Live s.sb s.cur i
  fits : (s.cur i).Fits
  type : (s.cur i).type = T_FILE
  ref : 0 < (s.ino i).ref
  unlocked : (s.ino i).locked = false

structure Overwrote (s s' : State) (i off : Nat) (data : List UInt8) : Prop where
  bytes : contents s'.disk (s'.cur i) = writeFlat (contents s.disk (s.cur i)) off data
  size : (s'.cur i).size =
    if (s.cur i).size < off then (s.cur i).size else max (s.cur i).size (off + data.length)

/-! ## One chunk -/

theorem Opened.good (h : Opened s i) : Good (s.lock i) i := .of_lock h.log h.geo h.owned h.live h.fits

theorem Opened.ilock (h : Opened s i) : Fs.ilock i s = .ok ((), s.lock i) :=
  ilock_run h.ref h.unlocked (h.geo.iblock_lt h.live.1) h.live.2

theorem Good.opened (h : Good s i) (ht : (s.node i).type = T_FILE) (hr : 0 < (s.ino i).ref) :
    Opened (s.unlock i) i where
  log := (s.unlock_log i).trans h.log
  geo := by
    rw [s.unlock_sb]
    exact h.geo
  owned := by
    rw [s.unlock_sb, s.unlock_disk, s.unlock_cur]
    exact h.owned
  live := by
    rw [s.unlock_sb, s.unlock_cur]
    exact h.live
  fits := by
    rw [s.unlock_cur, h.cur]
    exact h.fits
  type := by rw [s.unlock_cur, h.cur, ht]
  ref := by
    rw [s.unlock_self]
    exact hr
  unlocked := by rw [s.unlock_self]

theorem writeFlat_nil {file : List UInt8} : writeFlat file off [] = file := by
  rw [writeFlat, List.append_nil, List.length_nil, Nat.add_zero, List.take_append_drop]

theorem writeChunk_refused (h : Opened s i) (ho : off < 2 ^ 32) (hn : data.length < 2 ^ 32)
    (hbad : Refused (s.cur i) off data.length) :
    ∃ s', writeChunk i off data s = .ok ((none, off), s') ∧ Opened s' i ∧ Overwrote s s' i off [] := by
  have hnode := s.lock_node i
  have hgood := h.good
  have hw : writei i off data (s.lock i) = .ok (none, s.lock i) := by
    have hspec := writesFlat hgood (by rw [hnode, h.type]; decide) ho hn
    rwa [WritesFlat, hnode, if_pos hbad] at hspec
  have hself := s.lock_self i
  have hun := iunlock_run (s := s.lock i) (i := i) (by rw [hself]) (by rw [hself]; exact h.ref)
  refine ⟨(s.lock i).unlock i, ?_, hgood.opened (by rw [hnode, h.type]) (by rw [hself]; exact h.ref),
    ?_, ?_⟩
  · rw [writeChunk, bind_run h.ilock, bind_run hw, bind_run hun]
    exact congrArg (fun o => Except.ok ((none, o), _)) (Nat.mod_eq_of_lt ho)
  · rw [writeFlat_nil, State.unlock_disk, State.unlock_cur, State.lock_cur]
    rfl
  · rw [State.unlock_cur, State.lock_cur, List.length_nil]
    split
    · rfl
    · omega

theorem writeChunk_taken (h : Opened s i) (ho : off < 2 ^ 32) (hn : data.length < 2 ^ 32)
    (hok : ¬ Refused (s.cur i) off data.length)
    (hroom : ((s.lock i).missing i (touched off data.length)).card ≤ s.free) :
    ∃ s', writeChunk i off data s = .ok ((some data.length, off + data.length), s') ∧
      Opened s' i ∧ Overwrote s s' i off data ∧
      ∀ R, (∀ k ∈ R, k < NSLOT) →
        ((s.lock i).missing i (touched off data.length ∪ R)).card ≤ s.free →
        ((s'.lock i).missing i R).card ≤ s'.free := by
  have hnode := s.lock_node i
  have hgood := h.good
  have hspec := writei_spec hgood (by rw [hnode, h.type]; decide) ho hn
  rw [hnode] at hspec
  obtain ⟨r, t, hw, hq⟩ := hspec.returns fun _ he =>
    Nat.not_lt.2 hroom he.2.2
  obtain ⟨-, rfl, ht, hwrote⟩ := hq.resolve_left fun hc => hok hc.1
  obtain ⟨addrs, hself⟩ := hwrote.self
  rw [s.lock_self] at hself
  have href : 0 < (t.ino i).ref := by
    rw [hself]
    exact h.ref
  have hun := iunlock_run (s := t) (i := i) (by rw [hself]) href
  have htype : (t.node i).type = T_FILE := by
    rw [State.node, hself, hnode]
    exact h.type
  unfold Refused at hok
  have hwritten := hwrote.written (by rw [hnode]; omega) (by omega)
  refine ⟨t.unlock i, ?_, ht.opened htype href, ⟨?_, ?_⟩, fun R hR hfit => ?_⟩
  · rw [writeChunk, bind_run h.ilock, bind_run hw, bind_run hun]
    exact congrArg (fun o => Except.ok ((some _, o), _))
      (Nat.mod_eq_of_lt (by simp only [Option.getD_some]; omega))
  · rw [t.unlock_disk, t.unlock_cur, ht.cur, hwritten.self, hnode]
    rfl
  · rw [t.unlock_cur, ht.cur, hwritten.size, hnode, if_neg (by omega)]
  · obtain ⟨hd, hu⟩ := State.missing_union (fun k hk => (hwrote.fresh k hk).2.2) hwrote.keep hR
    rw [← hu, card_union_of_disjoint hd] at hfit
    have hfree : t.free + _ = s.free := hwrote.free
    have hmiss : ((t.unlock i).lock i).missing i R = t.missing i R := by
      unfold State.missing
      rw [State.lock_node, t.unlock_cur, ht.cur]
      exact congrArg (fun d => R.filter fun k => ptr d (t.node i) k = 0) (t.unlock_disk i)
    have hfree' : (t.unlock i).free = t.free := by
      rw [State.free, t.unlock_sb, t.unlock_disk]
      rfl
    rw [hmiss, hfree']
    omega

/-! ## The loop -/

def accepted (size off n : Nat) : Nat :=
  if size < off then 0
  else if off + n ≤ MAXFILE * BSIZE then n
  else (MAXFILE * BSIZE - off) / Shared.max * Shared.max

theorem writeFlat_append {file d1 d2 : List UInt8} (h : off ≤ file.length) :
    writeFlat (writeFlat file off d1) (off + d1.length) d2 = writeFlat file off (d1 ++ d2) := by
  have h1 : (file.take off).length = off := by rw [List.length_take, Nat.min_eq_left h]
  have h2 : (file.take off ++ d1).length = off + d1.length := by rw [List.length_append, h1]
  rw [writeFlat, writeFlat, List.take_left' h2, List.drop_append, h2, writeFlat,
    List.length_append, List.drop_eq_nil_of_le (by omega), List.nil_append, List.drop_drop]
  simp only [List.append_assoc]
  congr 4
  omega

theorem accepted_zero (size : Nat) : accepted size off 0 = 0 := by
  unfold accepted
  split
  · rfl
  split
  · rfl
  · rw [show MAXFILE * BSIZE - off = 0 by omega, Nat.zero_div, Nat.zero_mul]

theorem accepted_refused {d : Dinode} (h : Refused d off (min n Shared.max)) (hn : n < 2 ^ 31) :
    accepted d.size off n = 0 := by
  have hmax : MAXFILE * BSIZE = 71680 := rfl
  have hmax' : Shared.max = 1536 := rfl
  unfold Refused at h
  unfold accepted
  rw [hmax, hmax'] at h
  rw [hmax, hmax']
  split
  · rfl
  split
  · omega
  · omega

theorem accepted_taken {d : Dinode} (h : ¬ Refused d off (min n Shared.max)) (hn : n < 2 ^ 31) :
    accepted d.size off n = min n Shared.max +
      accepted (max d.size (off + min n Shared.max)) (off + min n Shared.max)
        (n - min n Shared.max) := by
  have hmax : MAXFILE * BSIZE = 71680 := rfl
  have hmax' : Shared.max = 1536 := rfl
  unfold Refused at h
  unfold accepted
  rw [hmax, hmax'] at h
  rw [hmax, hmax']
  rw [if_neg (show ¬ d.size < off by omega),
    if_neg (show ¬ max d.size (off + min n 1536) < off + min n 1536 by omega)]
  by_cases hfit : off + n ≤ 71680
  · rw [if_pos hfit, if_pos (by omega)]
    omega
  · rw [if_neg hfit, if_neg (by omega)]
    omega

theorem accepted_le (hoff : off ≤ MAXFILE * BSIZE) (size : Nat) :
    off + accepted size off n ≤ MAXFILE * BSIZE := by
  have hmax : MAXFILE * BSIZE = 71680 := rfl
  have hmax' : Shared.max = 1536 := rfl
  unfold accepted
  rw [hmax] at hoff
  rw [hmax, hmax']
  split
  · omega
  split
  · omega
  · omega

theorem filewriteLoop_spec (h : Opened s ip) (ho : off < 2 ^ 32) (hn : data.length < 2 ^ 31)
    (hi : i ≤ data.length) (hf : data.length - i < fuel)
    (ha : accepted (s.cur ip).size off (data.length - i) = a)
    (hroom : ((s.lock ip).missing ip (touched off a)).card ≤ s.free) :
    ∃ s', filewriteLoop ip data fuel i off s = .ok ((i + a, off + a), s') ∧ Opened s' ip ∧
      Overwrote s s' ip off ((data.drop i).take a) := by
  induction fuel generalizing s i off a with
  | zero => exact absurd hf (Nat.not_lt_zero _)
  | succ fuel ih =>
    rw [filewriteLoop]
    by_cases hlt : i < data.length
    · rw [if_pos hlt]
      have hlen : ((data.drop i).take (min (data.length - i) Shared.max)).length =
          min (data.length - i) Shared.max := by
        rw [List.length_take, List.length_drop]
        omega
      by_cases hbad : Refused (s.cur ip) off (min (data.length - i) Shared.max)
      · rw [accepted_refused hbad (by omega)] at ha
        subst ha
        obtain ⟨s', hrun, hs', hst⟩ := writeChunk_refused h ho
          (show ((data.drop i).take (min (data.length - i) Shared.max)).length < 2 ^ 32 by
            rw [hlen]; omega) (by rwa [hlen])
        refine ⟨s', ?_, hs', by rwa [List.take_zero]⟩
        rw [bind_run hrun]
        rfl
      · have hsplit := accepted_taken hbad (by omega)
        rw [ha] at hsplit
        -- the part of the write that is left
        generalize hb : accepted (max (s.cur ip).size (off + min (data.length - i) Shared.max))
          (off + min (data.length - i) Shared.max)
          (data.length - i - min (data.length - i) Shared.max) = b at hsplit
        generalize hc : min (data.length - i) Shared.max = c at *
        have hpos : 0 < c := by
          have : Shared.max = 1536 := rfl
          omega
        unfold Refused at hbad
        obtain ⟨s1, hrun, hs1, hst, hleft⟩ := writeChunk_taken h ho
          (show ((data.drop i).take c).length < 2 ^ 32 by rw [hlen]; omega)
          (by rw [hlen]; exact hbad) (by
            rw [hlen]
            refine (card_le_card (filter_subset_filter _ ?_)).trans hroom
            rw [hsplit, touched_add]
            exact subset_union_left)
        rw [hlen] at hrun hleft
        have hsize := hst.size
        rw [hlen, if_neg (by omega)] at hsize
        obtain ⟨s', hrun', hs', hst'⟩ := ih (i := i + c) (a := b) hs1
          (show off + c < 2 ^ 32 by omega) (by omega) (by omega) (by rw [hsize, Nat.sub_add_eq]; exact hb)
          (hleft _ (fun k hk => touched_lt (accepted_le (by omega) _) (hb ▸ hk)) (by
            rw [← touched_add, ← hsplit]
            exact hroom))
        have htake : (data.drop i).take a = (data.drop i).take c ++ (data.drop (i + c)).take b := by
          rw [hsplit, List.take_add, List.drop_drop]
        refine ⟨s', ?_, hs', ?_, ?_⟩
        · rw [bind_run hrun, hsplit, ← Nat.add_assoc, ← Nat.add_assoc]
          simp only [ne_eq, not_true_eq_false, if_false]
          exact hrun'
        · have hb := hst'.bytes
          rw [hst.bytes] at hb
          rw [hb, htake, ← writeFlat_append (by rw [length_contents]; omega), hlen]
        · have hz := hst'.size
          have hlb : ((data.drop (i + c)).take b).length ≤ b := List.length_take_le ..
          rw [hsize, if_neg (by omega)] at hz
          rw [hz, htake, List.length_append, hlen, if_neg (by omega)]
          omega
    · rw [if_neg hlt]
      rw [show data.length - i = 0 by omega, accepted_zero] at ha
      subst ha
      refine ⟨s, rfl, h, ?_, ?_⟩
      · rw [List.take_zero, writeFlat_nil]
      · rw [List.take_zero, List.length_nil]
        split
        · rfl
        · omega

/-! ## `filewrite` -/

/-- The call returns -1 and changes nothing, or it returns the number of bytes and stores all of
them. -/
def CleanWrite (f : File) (data : List UInt8) (s : State) : Prop :=
  ∃ r f' s', filewrite f data s = .ok ((r, f'), s') ∧
    (r = none ∧ contents s'.disk (s'.cur f.ip) = contents s.disk (s.cur f.ip) ∧
        (s'.cur f.ip).size = (s.cur f.ip).size ∧ f'.off = f.off ∨
      r = some data.length ∧ contents s'.disk (s'.cur f.ip) =
        writeFlat (contents s.disk (s.cur f.ip)) f.off data ∧ f'.off = f.off + data.length)

/-- The first chunk of a longer write fits into the largest file, and the last does not. -/
def Overshoots (f : File) (size n : Nat) : Prop :=
  f.writable = true ∧ f.off ≤ size ∧ Shared.max < n ∧ f.off + Shared.max ≤ MAXFILE * BSIZE ∧
    MAXFILE * BSIZE < f.off + n

/-- There are free blocks for the part of a write that fits into the largest file. -/
def Roomy (s : State) (f : File) (n : Nat) : Prop :=
  ((s.lock f.ip).missing f.ip (touched f.off (min n (MAXFILE * BSIZE - f.off)))).card ≤ s.free

theorem accepted_le_min (size off n : Nat) : accepted size off n ≤ min n (MAXFILE * BSIZE - off) := by
  have hmax : MAXFILE * BSIZE = 71680 := rfl
  have hmax' : Shared.max = 1536 := rfl
  unfold accepted
  rw [hmax, hmax']
  split
  · omega
  split
  · omega
  · omega

theorem filewrite_run {f : File} (h : Opened s f.ip) (hw : f.writable = true)
    (ho : f.off < 2 ^ 32) (hn : data.length < 2 ^ 31) (hroom : Roomy s f data.length) :
    ∃ s', filewrite f data s = .ok ((
        if accepted (s.cur f.ip).size f.off data.length = data.length then some data.length else none,
        { f with off := f.off + accepted (s.cur f.ip).size f.off data.length }), s') ∧
      Overwrote s s' f.ip f.off
        (data.take (accepted (s.cur f.ip).size f.off data.length)) := by
  have hle := accepted_le_min (s.cur f.ip).size f.off data.length
  obtain ⟨s', hrun, -, hst⟩ := filewriteLoop_spec (i := 0) h ho hn
    (Nat.zero_le _) (show _ < data.length + 1 by omega) rfl (by
      refine (card_le_card (filter_subset_filter _ ?_)).trans hroom
      rw [← Nat.add_sub_of_le hle, touched_add]
      exact subset_union_left)
  rw [Nat.zero_add, Nat.sub_zero] at hrun
  refine ⟨s', ?_, hst⟩
  rw [filewrite, if_neg (by rw [hw]; decide), bind_run hrun]
  refine congrArg (fun r => Except.ok ((r, _), s')) ?_
  split
  · rename_i heq
    rw [heq]
  · rfl

theorem accepted_cases {f : File} (size n : Nat) (hw : f.writable = true) :
    (Overshoots f size n ∧ 0 < accepted size f.off n ∧ accepted size f.off n < n) ∨
      (¬ Overshoots f size n ∧ (accepted size f.off n = n ∨ accepted size f.off n = 0)) := by
  have hmax : MAXFILE * BSIZE = 71680 := rfl
  have hmax' : Shared.max = 1536 := rfl
  unfold Overshoots accepted
  simp only [hw, true_and, hmax, hmax']
  by_cases h1 : size < f.off
  · rw [if_pos h1]
    omega
  · rw [if_neg h1]
    by_cases h2 : f.off + n ≤ 71680
    · rw [if_pos h2]
      omega
    · rw [if_neg h2]
      omega

/-- **A failed write changes nothing** exactly unless it overshoots the largest file. -/
theorem filewrite_clean_iff {f : File} (h : Opened s f.ip) (ho : f.off < 2 ^ 32)
    (hn : data.length < 2 ^ 31) (hroom : Roomy s f data.length) :
    CleanWrite f data s ↔ ¬ Overshoots f (s.cur f.ip).size data.length := by
  cases hw : f.writable with
  | false =>
    refine iff_of_true ⟨none, f, s, ?_, .inl ⟨rfl, rfl, rfl, rfl⟩⟩ fun hc => ?_
    · rw [filewrite, if_pos hw]
      rfl
    · rw [Overshoots, hw] at hc
      cases hc.1
  | true =>
    obtain ⟨s', hrun, hbytes, hsize⟩ := filewrite_run h hw ho hn hroom
    have hcases := accepted_cases (s.cur f.ip).size data.length hw
    generalize accepted (s.cur f.ip).size f.off data.length = a at *
    rcases hcases with ⟨hover, hpos, hlt⟩ | ⟨hok, heq | hzero⟩
    · refine iff_of_false ?_ (not_not.2 hover)
      rintro ⟨r, f', s'', hrun', ⟨-, -, -, hoff⟩ | ⟨hr, -⟩⟩
      · rw [hrun] at hrun'
        cases hrun'
        simp only at hoff
        omega
      · rw [hrun, if_neg hlt.ne] at hrun'
        cases hrun'
        cases hr
    · refine iff_of_true ⟨_, _, s', hrun, .inr ⟨if_pos heq, ?_, by rw [heq]⟩⟩ hok
      rw [hbytes, heq, List.take_length]
    · subst hzero
      rw [List.take_zero] at hbytes hsize
      rw [writeFlat_nil] at hbytes
      refine iff_of_true ⟨_, _, s', hrun, ?_⟩ hok
      by_cases h0 : 0 = data.length
      · refine .inr ⟨if_pos h0, ?_, by rw [← h0]⟩
        rw [List.eq_nil_of_length_eq_zero h0.symm, writeFlat_nil, hbytes]
      · refine .inl ⟨if_neg h0, hbytes, ?_, rfl⟩
        rw [hsize, List.length_nil]
        split
        · rfl
        · omega

/-! ## A write of more than the largest file -/

theorem State.sample_opened : Opened State.sample 1 where
  log := rfl
  geo := Super.sample_geometry
  owned := sample_owned
  live := sample_live.2 rfl
  fits := sample_fits
  type := rfl
  ref := by decide
  unlocked := rfl

theorem roomy_of_free {f : File} (hf : NSLOT ≤ s.free) (ho : f.off ≤ MAXFILE * BSIZE) :
    Roomy s f n := by
  refine le_trans ?_ hf
  refine (card_le_card fun k hk => ?_).trans (card_range NSLOT).le
  rw [mem_range]
  exact touched_lt (by omega) (mem_filter.1 hk).1

def File.sample : File := ⟨false, true, 1, 0⟩

theorem File.sample_roomy : Roomy State.sample File.sample n :=
  roomy_of_free (le_trans (by decide) State.sample_free) (by decide)

theorem filewrite_clean_byte : CleanWrite File.sample [7] State.sample :=
  (filewrite_clean_iff State.sample_opened (by decide) (by decide) File.sample_roomy).2 fun h =>
    absurd h.2.2.1 (by decide)

/-- A write of 71681 bytes to an empty file returns -1, and 70656 bytes of it stay in the file. -/
theorem filewrite_leaves_chunks : ∃ f' s',
    filewrite File.sample (List.replicate 71681 7) State.sample = .ok ((none, f'), s') ∧
      f'.off = 70656 ∧ (s'.cur 1).size = 70656 ∧ (State.sample.cur 1).size = 0 := by
  have hlen : (List.replicate 71681 (7 : UInt8)).length = 71681 := List.length_replicate
  obtain ⟨s', hrun, -, hsize⟩ := filewrite_run State.sample_opened
    (f := File.sample) rfl (by decide) (hlen.trans_lt (by decide)) File.sample_roomy
  have ha : accepted (State.sample.cur File.sample.ip).size File.sample.off 71681 = 70656 := by decide
  rw [hlen, ha, if_neg (by decide)] at hrun
  rw [hlen, ha, List.length_take, hlen] at hsize
  exact ⟨_, s', hrun, rfl, hsize, rfl⟩

end Fs
