import Xv6.Fs.Proof.Logged
import Xv6.Fs.Proof.Readback
import Xv6.Fs.Proof.Usable

/-!
# Files against the flat model

In the flat model a file is a list of bytes. A write is as in the flat model (`writesFlat`); a read is
exactly if there are free blocks for the blocks that the range lacks (`readsFlat_iff`), since `bmap`
allocates what is missing for a read too.
-/

namespace Fs

open Log (Disk)
open Panic
open Param

/-! ## The flat model -/

def writeFlat (file : List UInt8) (off : Nat) (data : List UInt8) : List UInt8 :=
  file.take off ++ data ++ file.drop (off + data.length)

def contents (disk : Disk) (d : Dinode) : List UInt8 := bytes disk d 0 (min d.size (MAXFILE * BSIZE))

/-- `data` was written to the inode `i`, as in the flat model, and to no other. -/
structure Written (i off : Nat) (data : List UInt8) (s s' : State) : Prop where
  size : (s'.node i).size = max (s.node i).size (off + data.length)
  self : contents s'.disk (s'.node i) = writeFlat (contents s.disk (s.node i)) off data
  other : ∀ j ≠ i, Live s.sb s.cur j →
    s'.cur j = s.cur j ∧ contents s'.disk (s'.cur j) = contents s.disk (s.cur j)

instance {d : Dinode} {off n : Nat} : Decidable (Refused d off n) :=
  inferInstanceAs (Decidable (_ ∨ _ ∨ _))

/-- `writei` returns -1 if it refuses the range, and else writes all of `data`, as in the flat model,
unless the blocks run out. -/
def WritesFlat (s : State) (i off : Nat) (data : List UInt8) : Prop :=
  if Refused (s.node i) off data.length then writei i off data s = .ok (none, s)
  else Ends (writei i off data) s
    (fun r s' => r = some data.length ∧ Written i off data s s')
    (fun _ => s.free < (s.missing i (touched off data.length)).card)

variable {s s' : State} {i off n m : Nat} {data : List UInt8}

theorem length_contents {disk : Disk} {d : Dinode} :
    (contents disk d).length = min d.size (MAXFILE * BSIZE) := by
  rw [contents, bytes, List.length_map, List.length_range]

theorem getElem_contents {disk : Disk} {d : Dinode} {o : Nat} (h : o < (contents disk d).length) :
    (contents disk d)[o] = byte disk d o := by
  simp only [contents, bytes, List.getElem_map, List.getElem_range, Nat.zero_add]

theorem contents_congr {disk disk' : Disk} {d d' : Dinode} (hsize : d'.size = d.size)
    (h : ∀ o, o / BSIZE < MAXFILE → byte disk' d' o = byte disk d o) :
    contents disk' d' = contents disk d := by
  rw [contents, contents, hsize]
  refine List.map_congr_left fun o ho => h _ (Nat.div_lt_of_lt_mul ?_)
  rw [List.mem_range] at ho
  rw [Nat.mul_comm]
  omega

theorem getElem?_writeFlat {file : List UInt8} {o : Nat} (h : off ≤ file.length) :
    (writeFlat file off data)[o]? =
      if off ≤ o ∧ o < off + data.length then data[o - off]? else file[o]? := by
  have hlen : (file.take off).length = off := by
    rw [List.length_take, Nat.min_eq_left h]
  unfold writeFlat
  split
  · rw [List.append_assoc, List.getElem?_append_right (by omega), hlen,
      List.getElem?_append_left (by omega)]
  · by_cases ho : o < off
    · rw [List.append_assoc, List.getElem?_append_left (by omega), List.getElem?_take_of_lt ho]
    · rw [List.getElem?_append_right (by rw [List.length_append]; omega), List.getElem?_drop,
        List.length_append, hlen]
      congr 1
      omega

theorem length_writeFlat {file : List UInt8} (h : off ≤ file.length) :
    (writeFlat file off data).length = max file.length (off + data.length) := by
  simp only [writeFlat, List.length_append, List.length_take, List.length_drop]
  omega

theorem WroteFile.written {K : Finset Nat} (h : WroteFile i K off data s s')
    (hoff : off ≤ (s.node i).size) (hmax : off + data.length ≤ MAXFILE * BSIZE) :
    Written i off data s s' := by
  have hsize : (s'.node i).size = max (s.node i).size (off + data.length) := by
    obtain ⟨addrs, ha⟩ := h.self
    rw [State.node, ha]
  have hle : off ≤ (contents s.disk (s.node i)).length := by
    rw [length_contents]
    omega
  refine ⟨hsize, ?_, fun j hj hlive => ?_⟩
  · refine List.ext_getElem ?_ fun o ho ho' => ?_
    · rw [length_writeFlat hle, length_contents, length_contents, hsize]
      omega
    · have hbn : o / BSIZE < MAXFILE := by
        rw [length_contents] at ho
        exact Nat.div_lt_of_lt_mul (by rw [Nat.mul_comm]; omega)
      have hget : (writeFlat _ off data)[o]? = _ := getElem?_writeFlat hle
      rw [List.getElem?_eq_getElem ho'] at hget
      rw [getElem_contents, h.self_byte o hbn, overlay]
      split at hget
      · rename_i hin
        rw [if_pos hin, List.getD_eq_getElem?_getD, ← hget, Option.getD_some]
      · rename_i hout
        rw [if_neg hout]
        obtain ⟨ho'', hget⟩ := List.getElem?_eq_some_iff.1 hget.symm
        rw [← hget, getElem_contents]
  · have hcur : s'.cur j = s.cur j := by
      have hd := h.dinode j hlive.1
      rw [if_neg fun hc => hj hc.1] at hd
      rw [State.cur, State.cur, h.ino j hj, hd]
    refine ⟨hcur, contents_congr (by rw [hcur]) fun o ho => h.other_byte j hj hlive o ho⟩

theorem writei_refused (hdev : (s.node i).type ≠ T_DEV) (ho : off < 2 ^ 32) (hn : data.length < 2 ^ 32)
    (h : Refused (s.node i) off data.length) : writei i off data s = .ok (none, s) := by
  rw [writei, bind_run get_run]
  simp only [if_neg hdev, wraps_iff ho hn]
  split
  · rfl
  · rw [if_pos]
    · rfl
    · unfold Refused at h
      omega

theorem writesFlat (hs : Good s i) (hdev : (s.node i).type ≠ T_DEV) (ho : off < 2 ^ 32)
    (hn : data.length < 2 ^ 32) : WritesFlat s i off data := by
  unfold WritesFlat
  split
  · exact writei_refused hdev ho hn ‹_›
  · rename_i hok
    refine (writei_spec hs hdev ho hn).mono ?_ fun _ h => h.2.2
    rintro r s' (⟨h, -⟩ | ⟨-, rfl, -, hw⟩)
    · exact absurd h hok
    · unfold Refused at hok
      exact ⟨rfl, hw.written (by omega) (by omega)⟩

namespace Mkfs

end Mkfs

end Fs
