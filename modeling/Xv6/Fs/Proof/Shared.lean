import Xv6.Fs.Proof.Lock
import Xv6.Fs.Shared

/-!
# No write to a shared file is lost

`hold p = some k`: the process `p` holds the inode's lock, and the offset is `k` bytes behind the size,
since `p` is between `writei` and `f->off += r`. The file is the old one and the chunks one after the
other (`File`); the chunks of a call are the first bytes of its buffer, in order (`Calls`).
-/

namespace Fs.Shared

open Panic
open Function

variable {P : Type}

def Pc.hold : Pc → Option Nat
  | .write _ => some 0
  | .advance _ r => some (r.getD 0)
  | .unlock _ _ => some 0
  | _ => none

def allData (l : List (Chunk P)) : List UInt8 := l.flatMap Chunk.data

/-! ## The file -/

structure File (buf : P → Nat → List UInt8) (s0 : Sys P) (fs : State) (off : Nat)
    (hold : P → Option Nat) (chunks : List (Chunk P)) : Prop where
  log : fs.log = none
  geo : fs.sb.Geometry
  owned : Owned fs.sb fs.disk fs.cur
  live : Live fs.sb fs.cur s0.ip
  fits : (fs.cur s0.ip).Fits
  type : (fs.cur s0.ip).type = T_FILE
  inside : ∀ p k, hold p = some k →
    (fs.ino s0.ip).locked = true ∧ (fs.ino s0.ip).valid = true ∧ (fs.cur s0.ip).size = off + k
  once : ∀ p q, hold p ≠ none → hold q ≠ none → p = q
  free : (∀ p, hold p = none) → (fs.cur s0.ip).size = off
  size : (fs.cur s0.ip).size = (s0.fs.cur s0.ip).size + (allData chunks).length
  bytes : bytes fs.disk (fs.cur s0.ip) 0 (fs.cur s0.ip).size =
    bytes s0.fs.disk (s0.fs.cur s0.ip) 0 (s0.fs.cur s0.ip).size ++ allData chunks
  offs : ∀ l c r, chunks = l ++ c :: r → c.off = (s0.fs.cur s0.ip).size + (allData l).length
  chunk : ∀ c ∈ chunks, c.data ≠ [] ∧ c.data = ((buf c.proc c.call).drop c.start).take max

section
variable {buf : P → Nat → List UInt8} {s0 : Sys P} {fs fs' : State} {off : Nat} {p : P} {k : Nat}
  {hold : P → Option Nat} {chunks : List (Chunk P)}

section
variable (h : File buf s0 fs off hold chunks)
include h

theorem File.congr (hlog : fs'.log = fs.log) (hsb : fs'.sb = fs.sb)
    (howned : Owned fs'.sb fs'.disk fs'.cur) (hcur : fs'.cur s0.ip = fs.cur s0.ip)
    (hbytes : Fs.bytes fs'.disk (fs'.cur s0.ip) 0 (fs.cur s0.ip).size =
      Fs.bytes fs.disk (fs.cur s0.ip) 0 (fs.cur s0.ip).size)
    {hold' : P → Option Nat} {off' : Nat} (hin : ∀ p k, hold' p = some k →
      (fs'.ino s0.ip).locked = true ∧ (fs'.ino s0.ip).valid = true ∧
      (fs.cur s0.ip).size = off' + k)
    (honce : ∀ p q, hold' p ≠ none → hold' q ≠ none → p = q)
    (hfree : (∀ p, hold' p = none) → (fs.cur s0.ip).size = off') :
    File buf s0 fs' off' hold' chunks where
  log := hlog.trans h.log
  geo := by
    rw [hsb]
    exact h.geo
  owned := howned
  live := by
    rw [Live, hsb, hcur]
    exact h.live
  fits := by
    rw [hcur]
    exact h.fits
  type := by rw [hcur, h.type]
  inside := by
    rw [hcur]
    exact hin
  once := honce
  free := by
    rw [hcur]
    exact hfree
  size := by rw [hcur, h.size]
  bytes := by
    have hs : (fs'.cur s0.ip).size = (fs.cur s0.ip).size := by rw [hcur]
    rw [hs, hbytes, h.bytes]
  offs := h.offs
  chunk := h.chunk

theorem File.only (hp : hold p = some k) : ∀ q ≠ p, hold q = none := by
  intro q hne
  by_contra hq
  exact hne (h.once q p hq (by rw [hp]; exact Option.some_ne_none _))

theorem File.nobody (hl : (fs.ino s0.ip).locked = false) (q : P) : hold q = none := by
  cases hq : hold q with
  | none => rfl
  | some k => exact absurd (h.inside q k hq).1 (by rw [hl]; decide)

theorem File.elsewhere (he : Elsewhere s0.ip fs fs') : File buf s0 fs' off hold chunks := by
  have hcur : fs'.cur s0.ip = fs.cur s0.ip := by
    rw [State.cur, State.cur, he.ino, he.dinode]
  refine h.congr he.log he.sb he.owned hcur ?_ ?_ h.once h.free
  · refine List.map_congr_left fun o ho => he.bytes _ ?_
    rw [Nat.zero_add]
    exact List.mem_range.1 ho
  · intro q k hq
    rw [he.ino]
    exact h.inside q k hq

end

theorem offs_append {l : List (Chunk P)} {c : Chunk P} {z : Nat}
    (h : ∀ l1 c r, l = l1 ++ c :: r → c.off = z + (allData l1).length)
    (hc : c.off = z + (allData l).length) :
    ∀ l1 c' r, l ++ [c] = l1 ++ c' :: r → c'.off = z + (allData l1).length := by
  intro l1 c' r he
  rcases List.eq_nil_or_concat r with rfl | ⟨r, c'', rfl⟩
  · obtain ⟨rfl, hx⟩ := List.append_inj' he rfl
    cases hx
    exact hc
  · rw [List.concat_eq_append, ← List.cons_append, ← List.append_assoc] at he
    exact h l1 c' r (List.append_inj' he rfl).1

theorem File.bytes_chunk {l r : List (Chunk P)} {c : Chunk P}
    (h : File buf s0 fs off hold (l ++ c :: r)) :
    Fs.bytes fs.disk (fs.cur s0.ip) c.off c.data.length = c.data := by
  have hoff := h.offs l c r rfl
  have hall : allData (l ++ c :: r) = allData l ++ (c.data ++ allData r) := by
    simp only [allData, List.flatMap_append, List.flatMap_cons]
  have hlen := h.size
  have hb := h.bytes
  rw [hall, List.length_append, List.length_append] at hlen
  rw [hall, bytes_split _ (m := c.off) (by omega), bytes_split (0 + c.off)
    (m := c.data.length) (by omega), ← List.append_assoc (Fs.bytes s0.fs.disk _ _ _)] at hb
  have h1 := (List.append_inj hb (by simp [Fs.bytes]; omega)).2
  have h2 := (List.append_inj h1 (by simp [Fs.bytes])).1
  rwa [Nat.zero_add] at h2

variable [DecidableEq P]

theorem once_update {v : Option Nat} (honly : ∀ q ≠ p, hold q = none) (q r : P)
    (hq : update hold p v q ≠ none) (hr : update hold p v r ≠ none) : q = r := by
  have hp : ∀ q, update hold p v q ≠ none → q = p := by
    intro q hq
    by_contra hne
    rw [update_of_ne hne] at hq
    exact hq (honly q hne)
  rw [hp q hq, hp r hr]

theorem of_update {v : Option Nat} (honly : ∀ q ≠ p, hold q = none) {q : P}
    (hq : update hold p v q = some k) : v = some k := by
  by_cases hqp : q = p
  · rwa [hqp, update_self] at hq
  · rw [update_of_ne hqp, honly q hqp] at hq
    cases hq

section
variable (h : File buf s0 fs off hold chunks)
include h

theorem File.turn (hlog : fs'.log = fs.log) (hsb : fs'.sb = fs.sb)
    (hdisk : fs'.disk = fs.disk) (hcur : fs'.cur = fs.cur) (honly : ∀ q ≠ p, hold q = none)
    {v : Option Nat} {off' : Nat}
    (hin : ∀ k, v = some k → (fs'.ino s0.ip).locked = true ∧ (fs'.ino s0.ip).valid = true ∧
      (fs.cur s0.ip).size = off' + k)
    (hout : v = none → (fs.cur s0.ip).size = off') :
    File buf s0 fs' off' (update hold p v) chunks := by
  refine h.congr hlog hsb (by rw [hsb, hdisk, hcur]; exact h.owned) (by rw [hcur])
    (by rw [hdisk, hcur]) ?_ (once_update honly) ?_
  · exact fun q k hq => hin k (of_update honly hq)
  · intro hn
    have := hn p
    rw [update_self] at this
    exact hout this

theorem File.lock (hl : ilock s0.ip fs = .ok ((), fs')) :
    File buf s0 fs' off (update hold p (some 0)) chunks := by
  obtain ⟨rfl, hlocked, -⟩ := ilock_spec.ok hl
  refine h.turn (show (fs.lock s0.ip).log = fs.log from rfl) rfl rfl (fs.lock_cur _)
    (fun q _ => h.nobody hlocked q) ?_ fun hn => by cases hn
  rintro _ ⟨⟩
  rw [fs.lock_self]
  exact ⟨rfl, rfl, h.free (h.nobody hlocked)⟩

theorem File.unlock (hp : hold p = some 0) (hu : iunlock s0.ip fs = .ok ((), fs')) :
    File buf s0 fs' off (update hold p none) chunks := by
  obtain ⟨rfl, -⟩ := iunlock_spec.ok hu
  refine h.turn (fs.unlock_log _) (fs.unlock_sb _) (fs.unlock_disk _) (fs.unlock_cur _) (h.only hp)
    ?_ fun _ => ?_
  · intro k hk
    cases hk
  · exact (h.inside p 0 hp).2.2

theorem File.advance (hp : hold p = some k) :
    File buf s0 fs ((off + k) % 2 ^ 32) (update hold p (some 0)) chunks := by
  obtain ⟨hlocked, hvalid, hsize⟩ := h.inside p k hp
  rw [Nat.mod_eq_of_lt (hsize ▸ h.fits.size)]
  refine h.turn rfl rfl rfl rfl (h.only hp) ?_ fun hn => by cases hn
  rintro _ ⟨⟩
  exact ⟨hlocked, hvalid, hsize⟩

theorem File.write (hp : hold p = some 0) {i c : Nat}
    {data : List UInt8} {r : Option Nat} (hdata : data = ((buf p c).drop i).take max)
    (hi : i < (buf p c).length) (hw : writei s0.ip off data fs = .ok (r, fs')) :
    (r = none ∧ File buf s0 fs' off (update hold p (some 0)) chunks) ∨ (r = some data.length ∧
      File buf s0 fs' off (update hold p (some data.length)) (chunks ++ [⟨p, c, i, off, data⟩])) := by
  obtain ⟨hlocked, hvalid, hsize⟩ := h.inside p 0 hp
  rw [Nat.add_zero] at hsize
  have hnode : fs.cur s0.ip = fs.node s0.ip := State.cur_of_valid hvalid
  have hgood : Good fs s0.ip := ⟨h.log, h.geo, h.owned, hvalid, h.live, hnode ▸ h.fits⟩
  have hlen : data.length ≤ max := by
    rw [hdata, List.length_take]
    omega
  have hmax : max = 1536 := rfl
  rcases (writei_spec hgood (by rw [← hnode, h.type]; decide) (hsize ▸ h.fits.size)
    (by omega)).ok hw with ⟨-, rfl, rfl⟩ | ⟨hok, rfl, hgood', hwrote⟩
  · refine .inl ⟨rfl, h.turn rfl rfl rfl rfl (h.only hp) ?_ fun hn => by cases hn⟩
    rintro _ ⟨⟩
    exact ⟨hlocked, hvalid, hsize⟩
  · refine .inr ⟨rfl, ?_⟩
    obtain ⟨addrs, hself⟩ := hwrote.self
    have hnode' : fs'.cur s0.ip = { fs.cur s0.ip with addrs := addrs, size := off + data.length } := by
      rw [hgood'.cur, State.node, hself, ← hnode, hsize, Nat.max_eq_right (Nat.le_add_right ..)]
    have hsize' : (fs'.cur s0.ip).size = off + data.length := by rw [hnode']
    have hall : allData (chunks ++ [⟨p, c, i, off, data⟩]) = allData chunks ++ data := by
      rw [allData, List.flatMap_append, List.flatMap_singleton, allData]
    exact {
      log := hgood'.log
      geo := hgood'.geo
      owned := hgood'.owned
      live := hgood'.live
      fits := hgood'.cur ▸ hgood'.fits
      type := by rw [hnode', ← h.type]
      inside := by
        intro q k hq
        obtain rfl := Option.some.inj (of_update (h.only hp) hq)
        rw [hself, hsize']
        exact ⟨hlocked, hvalid, rfl⟩
      once := once_update (h.only hp)
      free := by
        intro hn
        have := hn p
        rw [update_self] at this
        cases this
      size := by rw [hsize', hall, List.length_append, ← Nat.add_assoc, ← h.size, hsize]
      bytes := by
        rw [hsize', hall, ← List.append_assoc, ← h.bytes, hsize]
        refine bytes_append (by unfold Refused at hok; omega) fun o ho => ?_
        rw [hgood'.cur, hnode]
        exact hwrote.self_byte o ho
      offs := offs_append h.offs (by rw [← h.size, hsize])
      chunk := by
        intro c' hc'
        rcases List.mem_append.1 hc' with hc' | hc'
        · exact h.chunk c' hc'
        · obtain rfl := List.mem_singleton.1 hc'
          refine ⟨fun hn => ?_, hdata⟩
          have : data.length = 0 := List.length_eq_zero_iff.2 hn
          rw [hdata, List.length_take, List.length_drop] at this
          omega }

end

end

/-! ## The calls of a process -/

def Pc.written : Pc → Nat
  | .idle => 0
  | .top i => i
  | .lock i => i
  | .write i => i
  | .advance i r => i + r.getD 0
  | .unlock i r => i + r.getD 0
  | .check i r => i + r.getD 0
  | .panic => 0

def Whole (data : List UInt8) (i : Nat) (r : Option Nat) : Prop :=
  r = none ∨ r = some ((data.drop i).take max).length

def Pc.Ok (data : List UInt8) : Pc → Prop
  | .idle => True
  | .top i => i ≤ data.length
  | .lock i => i < data.length
  | .write i => i < data.length
  | .advance i r => i < data.length ∧ Whole data i r
  | .unlock i r => i < data.length ∧ Whole data i r
  | .check i r => i < data.length ∧ Whole data i r
  | .panic => False

section
variable [DecidableEq P]

def written (l : List (Chunk P)) (p : P) (c : Nat) : List UInt8 :=
  allData (l.filter fun x => x.proc = p ∧ x.call = c)

structure Calls (buf : Nat → List UInt8) (pc : Pc) (results : List (Option Nat))
    (w : Nat → List UInt8) : Prop where
  ok : pc.Ok (buf results.length)
  now : w results.length = (buf results.length).take pc.written
  later : ∀ c, results.length < c → w c = []
  done : ∀ c r, results[c]? = some r →
    w c <+: buf c ∧ ∀ n, r = some n → n = (buf c).length ∧ w c = buf c

end

section
variable {buf : Nat → List UInt8} {pc pc' : Pc} {results : List (Option Nat)} {w : Nat → List UInt8}

theorem Calls.move (h : Calls buf pc results w) (hok : pc'.Ok (buf results.length))
    (hw : pc'.written = pc.written) : Calls buf pc' results w :=
  ⟨hok, by rw [hw, h.now], h.later, h.done⟩

theorem Calls.ret (h : Calls buf pc results w) {r : Option Nat}
    (hr : ∀ n, r = some n → n = (buf results.length).length ∧ pc.written = n) :
    Calls buf .idle (results ++ [r]) w where
  ok := trivial
  now := by
    rw [List.length_append, List.length_singleton, h.later _ (Nat.lt_succ_self _)]
    rfl
  later c hc := h.later c (by rw [List.length_append] at hc; omega)
  done c r' hc := by
    by_cases hlt : c < results.length
    · rw [List.getElem?_append_left hlt] at hc
      exact h.done c r' hc
    · have hle : c < (results ++ [r]).length := (List.getElem?_eq_some_iff.1 hc).1
      rw [List.length_append, List.length_singleton] at hle
      obtain rfl : c = results.length := by omega
      rw [List.getElem?_concat_length] at hc
      obtain rfl := Option.some.inj hc
      refine ⟨h.now ▸ List.take_prefix .., fun n hn => ?_⟩
      obtain ⟨h1, h2⟩ := hr n hn
      exact ⟨h1, by rw [h.now, h2, h1, List.take_length]⟩

theorem Calls.write (h : Calls buf pc results w) {i : Nat} {w' : Nat → List UInt8}
    (hpc : pc.written = i) (hi : i < (buf results.length).length)
    (hself : w' results.length = w results.length ++ ((buf results.length).drop i).take max)
    (hother : ∀ c ≠ results.length, w' c = w c) :
    Calls buf (.advance i (some (((buf results.length).drop i).take max).length)) results w' where
  ok := ⟨hi, .inr rfl⟩
  now := by
    rw [hself, h.now, hpc, Pc.written, Option.getD_some, List.take_add,
      ← List.prefix_iff_eq_take.1 (List.take_prefix ..)]
  later c hc := by rw [hother c (by omega), h.later c hc]
  done c r hc := by
    have hlt : c < results.length := (List.getElem?_eq_some_iff.1 hc).1
    rw [hother c (by omega)]
    exact h.done c r hc

end

/-! ## Runs -/

section
variable [DecidableEq P] {buf : P → Nat → List UInt8} {s0 s s' : Sys P}

theorem written_append {l : List (Chunk P)} {x : Chunk P} {p : P} {c : Nat} :
    written (l ++ [x]) p c = written l p c ++ if x.proc = p ∧ x.call = c then x.data else [] := by
  rw [written, List.filter_append, allData, List.flatMap_append, written, allData]
  congr 1
  by_cases h : x.proc = p ∧ x.call = c <;> simp [h]

/-- Every chunk is at its place in the file. -/
structure Inv (buf : P → Nat → List UInt8) (s0 s : Sys P) : Prop where
  ip : s.ip = s0.ip
  file : File buf s0 s.fs s.off (fun p => (s.pc p).hold) s.chunks
  calls : ∀ p, Calls (buf p) (s.pc p) (s.results p) (written s.chunks p)

theorem Start.inv (h : Start s) : Inv buf s s where
  ip := rfl
  file := {
    log := h.log
    geo := h.geo
    owned := h.owned
    live := h.live
    fits := h.fits
    type := h.type
    inside := fun p k hk => by rw [h.pc] at hk; cases hk
    once := fun p _ hp => absurd (by rw [h.pc]; rfl) hp
    free := fun _ => h.off.symm
    size := by rw [h.chunks]; rfl
    bytes := by rw [h.chunks, allData, List.flatMap_nil, List.append_nil]
    offs := fun l c r hl => by rw [h.chunks] at hl; simp at hl
    chunk := fun c hc => by rw [h.chunks] at hc; simp at hc }
  calls p := by
    rw [h.pc, h.results, h.chunks]
    exact ⟨trivial, rfl, fun _ _ => rfl, fun c r hc => by cases hc⟩

theorem File.setPc {fs : State} {off : Nat} {chunks : List (Chunk P)} {pc : P → Pc} {p : P} {c : Pc}
    {v : Option Nat} (hv : c.hold = v)
    (h : File buf s0 fs off (update (fun q => (pc q).hold) p v) chunks) :
    File buf s0 fs off (fun q => (update pc p c q).hold) chunks := by
  have hold : (fun q => (update pc p c q).hold) = update (fun q => (pc q).hold) p c.hold :=
    Function.comp_update Pc.hold pc p c
  rw [hold, hv]
  exact h

theorem File.same {pc : P → Pc} {fs : State} {off : Nat} {chunks : List (Chunk P)} {p : P} {c : Pc}
    (hc : c.hold = (pc p).hold) (h : File buf s0 fs off (fun q => (pc q).hold) chunks) :
    File buf s0 fs off (fun q => (update pc p c q).hold) chunks :=
  .setPc hc (by rwa [update_eq_self])

theorem calls_update {pc : P → Pc} {results : P → List (Option Nat)} {w : P → Nat → List UInt8}
    (h : ∀ q, Calls (buf q) (pc q) (results q) (w q)) {p : P} {c : Pc}
    (hp : Calls (buf p) c (results p) (w p)) (q : P) :
    Calls (buf q) (update pc p c q) (results q) (w q) := by
  by_cases hq : q = p
  · subst hq
    rw [update_self]
    exact hp
  · rw [update_of_ne hq]
    exact h q

theorem Inv.setPc (h : Inv buf s0 s) {p : P} {c : Pc} (hc : c.hold = (s.pc p).hold)
    (hp : Calls (buf p) c (s.results p) (written s.chunks p)) : Inv buf s0 (s.setPc p c) where
  ip := h.ip
  file := h.file.same hc
  calls := calls_update h.calls hp

theorem Inv.ret (h : Inv buf s0 s) {p : P} {r : Option Nat} (hp : (s.pc p).hold = none)
    (hr : ∀ n, r = some n → n = (s.data buf p).length ∧ (s.pc p).written = n) :
    Inv buf s0 (s.ret p r) where
  ip := h.ip
  file := h.file.same hp.symm
  calls q := by
    by_cases hq : q = p
    · subst hq
      have := (h.calls q).ret hr
      simp only [Sys.ret, Sys.setPc, update_self]
      exact this
    · simp only [Sys.ret, Sys.setPc, update_of_ne hq]
      exact h.calls q

theorem Step.inv (hs : Step buf s s') (h : Inv buf s0 s) : Inv buf s0 s' := by
  cases hs with
  | call p hpc hw =>
    have hc := h.calls p
    rw [hpc] at hc
    exact h.setPc (by rw [hpc]; rfl) (hc.move (Nat.zero_le _) rfl)
  | refuse p hpc hw => exact h.ret (by rw [hpc]; rfl) fun n hn => by cases hn
  | enter p hpc hi =>
    have hc := h.calls p
    rw [hpc] at hc
    exact h.setPc (by rw [hpc]; rfl) (hc.move hi rfl)
  | @finish p i hpc hi =>
    refine h.ret (by rw [hpc]; rfl) fun n hn => ?_
    rw [hpc]
    split at hn
    · obtain rfl := Option.some.inj hn
      exact ⟨‹_›, rfl⟩
    · cases hn
  | @lock p i fs hpc hl =>
    have hc := h.calls p
    rw [hpc] at hc
    rw [h.ip] at hl
    exact ⟨h.ip, .setPc rfl (h.file.lock hl), calls_update h.calls (hc.move hc.ok rfl)⟩
  | @write p i r fs hpc hw =>
    have hc := h.calls p
    rw [hpc] at hc
    rw [h.ip] at hw
    rcases h.file.write (p := p) (by rw [hpc]; rfl) rfl hc.ok hw with ⟨rfl, hf⟩ | ⟨rfl, hf⟩
    · exact ⟨h.ip, .setPc rfl hf, calls_update h.calls (hc.move ⟨hc.ok, .inl rfl⟩ rfl)⟩
    · have hself : ∀ c, written (s.chunks ++ [⟨p, (s.results p).length, i, s.off, s.part buf p i⟩]) p c
          = written s.chunks p c ++ if (s.results p).length = c then s.part buf p i else [] := by
        intro c
        rw [written_append]
        simp only [true_and]
      have hother : ∀ q ≠ p, ∀ c,
          written (s.chunks ++ [⟨p, (s.results p).length, i, s.off, s.part buf p i⟩]) q c =
            written s.chunks q c := by
        intro q hq c
        rw [written_append, if_neg fun hc => hq hc.1.symm, List.append_nil]
      refine ⟨h.ip, .setPc rfl hf, fun q => ?_⟩
      by_cases hq : q = p
      · subst hq
        simp only [Sys.setPc, update_self]
        refine hc.write rfl hc.ok ?_ fun c hne => ?_
        · exact (hself _).trans (by rw [if_pos rfl]; rfl)
        · exact (hself c).trans (by rw [if_neg fun h => hne h.symm, List.append_nil])
      · simp only [Sys.setPc, update_of_ne hq]
        have := h.calls q
        rw [← funext (hother q hq)] at this
        exact this
  | @advance p i r hpc =>
    have hc := h.calls p
    rw [hpc] at hc
    exact ⟨h.ip, .setPc rfl (h.file.advance (by rw [hpc]; rfl)),
      calls_update h.calls (hc.move hc.ok rfl)⟩
  | @unlock p i r fs hpc hu =>
    have hc := h.calls p
    rw [hpc] at hc
    rw [h.ip] at hu
    exact ⟨h.ip, .setPc rfl (h.file.unlock (by rw [hpc]; rfl) hu),
      calls_update h.calls (hc.move hc.ok rfl)⟩
  | @fail p i hpc =>
    refine h.ret (by rw [hpc]; rfl) fun n hn => ?_
    rw [hpc]
    split at hn
    · obtain rfl := Option.some.inj hn
      exact ⟨‹_›, rfl⟩
    · cases hn
  | @short p i r hpc hr =>
    have hc := (h.calls p).ok
    rw [hpc] at hc
    rcases hc.2 with hn | hn
    · cases hn
    · exact absurd (Option.some.inj hn) hr
  | @next p i r hpc hr =>
    have hc := h.calls p
    rw [hpc] at hc
    refine h.setPc (by rw [hpc]; rfl) (hc.move ?_ rfl)
    have hi := hc.ok.1
    rw [hr, Sys.part, List.length_take, List.length_drop]
    show i + _ ≤ _
    rw [Sys.data]
    omega
  | other he =>
    rw [h.ip] at he
    exact ⟨h.ip, h.file.elsewhere he, h.calls⟩

theorem Reach.inv (hr : Reach buf s0 s) (h : Start s0) : Inv buf s0 s := by
  induction hr with
  | refl => exact h.inv
  | step _ hs ih => exact hs.inv ih

/-- **No write to a shared file is lost.** The file is the old one followed by the chunks, each at a
range of its own; the chunks of one call are the first bytes of its buffer in order, and all of them
if the call returned a length. -/
theorem filewrite_shared (h0 : Start s0) (hr : Reach buf s0 s) : s.off ≤ (s.fs.cur s.ip).size ∧
    ((s.fs.ino s.ip).locked = false → s.off = (s.fs.cur s.ip).size) ∧
    bytes s.fs.disk (s.fs.cur s.ip) 0 (s.fs.cur s.ip).size =
      bytes s0.fs.disk (s0.fs.cur s0.ip) 0 (s0.fs.cur s0.ip).size ++ allData s.chunks ∧
    (∀ l c r, s.chunks = l ++ c :: r → c.off = (s0.fs.cur s0.ip).size + (allData l).length ∧
      0 < c.data.length ∧ c.data.length ≤ max ∧
      c.data = ((buf c.proc c.call).drop c.start).take max ∧
      bytes s.fs.disk (s.fs.cur s.ip) c.off c.data.length = c.data) ∧
    (∀ p c, written s.chunks p c <+: buf p c) ∧ (∀ p c n, (s.results p)[c]? = some (some n) →
      n = (buf p c).length ∧ written s.chunks p c = buf p c) ∧
    ∀ p, s.pc p ≠ .panic := by
  have h := hr.inv h0
  rw [h.ip]
  refine ⟨?_, fun hl => (h.file.free (h.file.nobody hl)).symm, h.file.bytes, ?_, ?_, ?_, ?_⟩
  · by_cases hn : ∀ p, (s.pc p).hold = none
    · exact (h.file.free hn).ge
    · obtain ⟨p, hp⟩ := not_forall.1 hn
      obtain ⟨k, hk⟩ := Option.ne_none_iff_exists'.1 hp
      have := (h.file.inside p k hk).2.2
      omega
  · intro l c r hc
    have hfile := h.file
    rw [hc] at hfile
    obtain ⟨hne, hdata⟩ := hfile.chunk c (List.mem_append_right _ (List.mem_cons_self ..))
    refine ⟨hfile.offs l c r rfl, List.length_pos_of_ne_nil hne, ?_, hdata, hfile.bytes_chunk⟩
    rw [hdata, List.length_take]
    omega
  · intro p c
    rcases Nat.lt_trichotomy c (s.results p).length with hc | rfl | hc
    · exact ((h.calls p).done c _ (List.getElem?_eq_getElem hc)).1
    · rw [(h.calls p).now]
      exact List.take_prefix ..
    · rw [(h.calls p).later c hc]
      exact List.nil_prefix
  · exact fun p c n hn => ((h.calls p).done c _ hn).2 n rfl
  · intro p hp
    have := (h.calls p).ok
    rw [hp] at this
    exact this

/-- A call of `p` for one chunk, up to `iunlock`. -/
theorem Reach.append {d : List UInt8} (h0 : Start s0) (hr : Reach buf s0 s)
    (hl : (s.fs.ino s.ip).locked = false) (href : 0 < (s.fs.ino s.ip).ref) (hw : s.writable = true)
    (hpc : s.pc p = .idle) (hd : s.data buf p = d) (hpos : 0 < d.length) (hmax : d.length ≤ max)
    (hfit : s.off + d.length ≤ MAXFILE * BSIZE) (hfree : (touched s.off d.length).card ≤ s.fs.free) :
    ∃ s', Reach buf s0 s' ∧ (s'.fs.ino s'.ip).locked = false ∧ 0 < (s'.fs.ino s'.ip).ref ∧
      s'.writable = true ∧ (∀ q ≠ p, s'.pc q = s.pc q) ∧ s'.off = s.off + d.length ∧
      s.fs.free ≤ s'.fs.free + (touched s.off d.length).card ∧
      allData s'.chunks = allData s.chunks ++ d := by
  obtain ⟨hip, hf, -⟩ := hr.inv h0
  have hoff : (s.fs.cur s0.ip).size = s.off := hf.free (hf.nobody (hip ▸ hl))
  have hlarge : MAXFILE * BSIZE < 2 ^ 32 := by decide
  have hpart : s.part buf p 0 = d := by rw [Sys.part, hd, List.drop_zero, List.take_of_length_le hmax]
  have hlock : ilock s.ip s.fs = .ok ((), s.fs.lock s.ip) :=
    ilock_run href hl (hip ▸ hf.geo.iblock_lt hf.live.1) (hip ▸ hf.live.2)
  have hspec : Ends (writei s0.ip s.off d) (s.fs.lock s0.ip) _ _ := writei_spec
    (.of_lock hf.log hf.geo hf.owned hf.live hf.fits) (by rw [s.fs.lock_node, hf.type]; decide)
    (by omega) (by omega)
  have hok : ¬ Refused ((s.fs.lock s0.ip).node s0.ip) s.off d.length := by
    rw [s.fs.lock_node, Refused]
    omega
  have hcard : ((s.fs.lock s0.ip).missing s0.ip (touched s.off d.length)).card ≤ _ :=
    Finset.card_filter_le ..
  obtain ⟨r, fs, hwrite, hres⟩ := hspec.returns fun e he =>
    Nat.not_lt.2 (hcard.trans hfree) he.2.2
  obtain ⟨-, rfl, hgood, hwrote⟩ := hres.resolve_left fun h => hok h.1
  obtain ⟨addrs, hself⟩ := hwrote.self
  rw [s.fs.lock_self] at hself
  rw [← hip] at hwrite hself
  have hcount : fs.free + _ = s.fs.free := hwrote.free
  have hunlock : iunlock s.ip fs = .ok ((), fs.unlock s.ip) :=
    iunlock_run (by rw [hself]) (by rw [hself]; exact href)
  have h1 := hr.step (.call p hpc hw)
  have h2 := h1.step (.enter p (i := 0) (update_self ..) (show 0 < (s.data buf p).length by rwa [hd]))
  have h3 := h2.step (.lock p (i := 0) (update_self ..) hlock)
  have h4 := h3.step (.write p (i := 0) (r := some d.length) (update_self ..)
    (show writei s.ip s.off (s.part buf p 0) (s.fs.lock s.ip) = _ by rw [hpart]; exact hwrite))
  have h5 := h4.step (.advance p (update_self ..))
  refine ⟨_, h5.step (.unlock p (update_self ..) hunlock), ?_, ?_, hw, fun q hq => ?_, ?_, ?_, ?_⟩
  · show ((fs.unlock s.ip).ino s.ip).locked = false
    rw [fs.unlock_self]
  · show 0 < ((fs.unlock s.ip).ino s.ip).ref
    rw [fs.unlock_self, hself]
    exact href
  · simp only [Sys.setPc, update_of_ne hq]
  · exact Nat.mod_eq_of_lt (show s.off + d.length < 2 ^ 32 by omega)
  · show s.fs.free ≤ (fs.unlock s.ip).free + _
    rw [fs.unlock_free]
    omega
  · show allData (s.chunks ++ [⟨p, _, 0, s.off, s.part buf p 0⟩]) = _
    rw [hpart, allData, List.flatMap_append, ← allData]
    simp

end

def Sys.sample : Sys Bool where
  fs := .sample
  ip := 1
  writable := true
  off := 0
  pc _ := .idle
  results _ := []
  chunks := []

theorem Sys.sample_start : Start Sys.sample where
  log := rfl
  geo := Super.sample_geometry
  owned := State.sample_owned
  live := State.sample_live.2 rfl
  fits := State.sample_fits
  type := rfl
  locked := rfl
  off := rfl
  pc _ := rfl
  results _ := rfl
  chunks := rfl

/-- Two processes write a byte each. -/
theorem filewrite_shared_two : ∃ s : Sys Bool, Reach (fun p _ => if p then [8] else [7]) Sys.sample s ∧
    bytes s.fs.disk (s.fs.cur s.ip) 0 (s.fs.cur s.ip).size = [7, 8] := by
  have hfree := State.sample_free
  have hcard : (touched 0 1).card = 1 ∧ (touched 1 1).card = 1 := by decide
  obtain ⟨s1, h1, hl, href, hw, hpc, hoff, hleft, hdata⟩ := Reach.append (p := false) (d := [7])
    Sys.sample_start (.refl : Reach (fun p _ => if p then [8] else [7]) Sys.sample _) rfl
    Nat.one_pos rfl rfl
    rfl (by decide) (by decide) (by decide) (Nat.le_trans (by decide) hfree)
  obtain ⟨s2, h2, -, -, -, -, -, -, hdata2⟩ := Reach.append (p := true) (d := [8]) Sys.sample_start h1 hl
    href hw (hpc true (by decide)) rfl (by decide) (by decide) (by rw [hoff]; decide) (by
      rw [hoff]
      show (touched 1 1).card ≤ _
      change State.sample.free ≤ s1.fs.free + (touched 0 1).card at hleft
      omega)
  refine ⟨s2, h2, (filewrite_shared Sys.sample_start h2).2.2.1.trans ?_⟩
  rw [hdata2, hdata]
  rfl

end Fs.Shared
