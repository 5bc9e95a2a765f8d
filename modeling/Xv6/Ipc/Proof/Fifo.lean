import Xv6.Ipc.Pipe

/-!
# A pipe is a queue

The counters of a pipe are the lengths of its two histories modulo `2 ^ 32`, and the bytes between
them are in the buffer (`Fifo`). Each call stores and copies its bytes in order (`Calls`).
-/

namespace Pipe

open Monitor Function

variable {T : Type} {d d' : Data T} {t u : T} {l l' : Local} {w : Write} {r : Read} {i k n : Nat}

/-! ## The buffer -/

/-- What was read is the first part of what was written. -/
structure Fifo (d : Data T) : Prop where
  le : d.got.length ≤ d.sent.length
  room : d.sent.length ≤ d.got.length + PIPESIZE
  nread : d.nread = d.got.length % 2 ^ 32
  nwrite : d.nwrite = d.sent.length % 2 ^ 32
  copied : d.got.map Got.byte = (d.sent.map Sent.byte).take d.got.length
  stored : ∀ j e, d.got.length ≤ j → d.sent[j]? = some e → d.data (j % PIPESIZE) = e.byte

section
variable (h : Fifo d)
include h

theorem Fifo.full_iff : d.Full ↔ d.sent.length = d.got.length + PIPESIZE := by
  have h1 := h.le
  have h2 := h.room
  unfold Data.Full
  rw [h.nread, h.nwrite]
  unfold PIPESIZE at *
  omega

theorem Fifo.empty_iff : d.Empty ↔ d.sent.length = d.got.length := by
  have h1 := h.le
  have h2 := h.room
  unfold Data.Empty
  rw [h.nread, h.nwrite]
  unfold PIPESIZE at *
  omega

theorem Fifo.count_le : (d.nwrite + 2 ^ 32 - d.nread) % 2 ^ 32 ≤ PIPESIZE := by
  have h1 := h.le
  have h2 := h.room
  rw [h.nread, h.nwrite]
  unfold PIPESIZE at *
  omega

theorem Fifo.store (hf : ¬ d.Full) : Fifo (d.store t w i) := by
  rw [h.full_iff] at hf
  have h1 := h.le
  have h2 := h.room
  refine ⟨?_, ?_, h.nread, ?_, ?_, fun j e hj he => ?_⟩
  · simp only [Data.store, List.length_append, List.length_singleton]
    omega
  · simp only [Data.store, List.length_append, List.length_singleton]
    omega
  · simp only [Data.store, List.length_append, List.length_singleton, h.nwrite]
    omega
  · simp only [Data.store, List.map_append]
    rw [List.take_append_of_le_length (by rw [List.length_map]; exact h1)]
    exact h.copied
  · simp only [Data.store] at hj he ⊢
    have hw : d.nwrite % PIPESIZE = d.sent.length % PIPESIZE := by
      rw [h.nwrite]
      unfold PIPESIZE
      omega
    rw [hw]
    rcases Nat.lt_or_ge j d.sent.length with hlt | hge
    · -- the new byte is less than a buffer's length ahead
      rw [List.getElem?_append_left hlt] at he
      have hne : j % PIPESIZE ≠ d.sent.length % PIPESIZE := by
        unfold PIPESIZE at *
        omega
      rw [update_of_ne hne]
      exact h.stored j e hj he
    · rw [List.getElem?_append_right hge] at he
      obtain rfl : j = d.sent.length := by
        have := (List.getElem?_eq_some_iff.1 he).1
        simp only [List.length_singleton] at this
        omega
      rw [Nat.sub_self, List.getElem?_cons_zero, Option.some.injEq] at he
      rw [update_self, ← he]
      rfl

theorem Fifo.copy (he : ¬ d.Empty) : Fifo (d.copy t r i) := by
  rw [h.empty_iff] at he
  have h1 := h.le
  have h2 := h.room
  have hlt : d.got.length < d.sent.length := by omega
  have hr : d.nread % PIPESIZE = d.got.length % PIPESIZE := by
    rw [h.nread]
    unfold PIPESIZE
    omega
  have hbyte : (d.sent.map Sent.byte)[d.got.length]? = some (d.data (d.nread % PIPESIZE)) := by
    rw [List.getElem?_map, List.getElem?_eq_getElem hlt, Option.map_some, hr,
      h.stored d.got.length _ (Nat.le_refl _) (List.getElem?_eq_getElem hlt)]
  refine ⟨?_, ?_, ?_, h.nwrite, ?_, fun j e hj he => ?_⟩
  · simp only [Data.copy, List.length_append, List.length_singleton]
    omega
  · simp only [Data.copy, List.length_append, List.length_singleton]
    omega
  · simp only [Data.copy, List.length_append, List.length_singleton, h.nread]
    omega
  · simp only [Data.copy, List.map_append, List.length_append, List.length_singleton, List.map_cons,
      List.map_nil]
    rw [h.copied, List.take_add_one, hbyte, Option.toList_some]
  · simp only [Data.copy, List.length_append, List.length_singleton] at hj he ⊢
    exact h.stored j e (by omega) he

theorem Fifo.close {b : Bool} : Fifo (d.close b) := by
  cases b <;> exact ⟨h.le, h.room, h.nread, h.nwrite, h.copied, h.stored⟩

end

/-! ## The bytes of a call -/

section
variable [DecidableEq T]

def Data.wrote (d : Data T) (t : T) (k : Nat) : List (Sent T) :=
  d.sent.filter fun e => e.proc = t ∧ e.call.serial = k

def Data.took (d : Data T) (t : T) (k : Nat) : List (Got T) :=
  d.got.filter fun e => e.proc = t ∧ e.call.serial = k

def Pc.Done (d : Data T) (t : T) (n : Nat) : Pc → Prop
  | .wfor w i since =>
    w.serial < n ∧ since ≤ i ∧ i ≤ w.n.toNat ∧
      d.wrote t w.serial = (List.range i).map (Sent.mk t w)
  | .wsleep w i =>
    w.serial < n ∧ i ≤ w.n.toNat ∧ d.wrote t w.serial = (List.range i).map (Sent.mk t w)
  | .wend w => w.serial < n ∧ d.wrote t w.serial = (List.range w.n.toNat).map (Sent.mk t w)
  | .rtest r => r.serial < n ∧ d.took t r.serial = []
  | .rcopy r i | .rend r i =>
    r.serial < n ∧ i ≤ r.n.toNat ∧ (d.took t r.serial).map Got.i = List.range i
  | _ => True

structure Calls (d : Data T) (t : T) (l : Local) : Prop where
  sent : ∀ e ∈ d.sent, e.proc = t → e.call.serial < l.serial
  got : ∀ e ∈ d.got, e.proc = t → e.call.serial < l.serial
  /-- Each call stores its bytes in the order of its argument. -/
  order : ∀ k, ∃ w m, d.wrote t k = (List.range m).map (Sent.mk t w)
  done : l.pc.Done d t l.serial

theorem wrote_store : (d.store t w i).wrote u k =
    if t = u ∧ w.serial = k then d.wrote u k ++ [⟨t, w, i⟩] else d.wrote u k := by
  unfold Data.wrote Data.store
  rw [List.filter_append]
  split
  · rename_i hc
    rw [List.filter_cons_of_pos (by simpa using hc), List.filter_nil]
  · rename_i hc
    rw [List.filter_cons_of_neg (by simpa using hc), List.filter_nil, List.append_nil]

theorem took_copy : (d.copy t r i).took u k = if t = u ∧ r.serial = k then
    d.took u k ++ [⟨t, r, i, d.data (d.nread % PIPESIZE)⟩] else d.took u k := by
  unfold Data.took Data.copy
  rw [List.filter_append]
  split
  · rename_i hc
    rw [List.filter_cons_of_pos (by simpa using hc), List.filter_nil]
  · rename_i hc
    rw [List.filter_cons_of_neg (by simpa using hc), List.filter_nil, List.append_nil]

theorem wrote_new (h : Calls d t l) : d.wrote t l.serial = [] := by
  refine List.filter_eq_nil_iff.2 fun e he hc => ?_
  simp only [decide_eq_true_eq] at hc
  have := h.sent e he hc.1
  omega

theorem took_new (h : Calls d t l) : d.took t l.serial = [] := by
  refine List.filter_eq_nil_iff.2 fun e he hc => ?_
  simp only [decide_eq_true_eq] at hc
  have := h.got e he hc.1
  omega

theorem Pc.Done.congr {p : Pc} (h : p.Done d t n) (hw : ∀ k, d'.wrote t k = d.wrote t k)
    (hg : ∀ k, d'.took t k = d.took t k) : p.Done d' t n := by
  cases p with
  | wfor w i s => exact ⟨h.1, h.2.1, h.2.2.1, by rw [hw]; exact h.2.2.2⟩
  | wsleep w i => exact ⟨h.1, h.2.1, by rw [hw]; exact h.2.2⟩
  | wend w => exact ⟨h.1, by rw [hw]; exact h.2⟩
  | rtest r => exact ⟨h.1, by rw [hg]; exact h.2⟩
  | rcopy r i => exact ⟨h.1, h.2.1, by rw [hg]; exact h.2.2⟩
  | rend r i => exact ⟨h.1, h.2.1, by rw [hg]; exact h.2.2⟩
  | _ => trivial

theorem Calls.store_other (h : Calls d u l) (hu : u ≠ t) : Calls (d.store t w i) u l := by
  have hw : ∀ k, (d.store t w i).wrote u k = d.wrote u k := fun k => by
    rw [wrote_store, if_neg fun hc => hu hc.1.symm]
  refine ⟨fun e he hp => ?_, h.got, fun k => ?_, h.done.congr hw fun _ => rfl⟩
  · rcases List.mem_append.1 he with he | he
    · exact h.sent e he hp
    · rw [List.mem_singleton.1 he] at hp
      exact absurd hp.symm hu
  · rw [hw]
    exact h.order k

theorem Calls.copy_other (h : Calls d u l) (hu : u ≠ t) : Calls (d.copy t r i) u l := by
  have hg : ∀ k, (d.copy t r i).took u k = d.took u k := fun k => by
    rw [took_copy, if_neg fun hc => hu hc.1.symm]
  refine ⟨h.sent, fun e he hp => ?_, h.order, h.done.congr (fun _ => rfl) hg⟩
  rcases List.mem_append.1 he with he | he
  · exact h.got e he hp
  · rw [List.mem_singleton.1 he] at hp
    exact absurd hp.symm hu

theorem Calls.store (h : Calls d t ⟨.wfor w i k, n⟩) (hi : i < w.n) :
    Calls (d.store t w i) t ⟨.wfor w (i + 1) k, n⟩ := by
  obtain ⟨hser, hsince, hle, hwrote⟩ := h.done
  have hnext : (d.store t w i).wrote t w.serial = (List.range (i + 1)).map (Sent.mk t w) := by
    rw [wrote_store, if_pos ⟨rfl, rfl⟩, hwrote, List.range_succ, List.map_append,
      List.map_singleton]
  refine ⟨fun e he hp => ?_, h.got, fun j => ?_, hser, by omega, by omega, hnext⟩
  · rcases List.mem_append.1 he with he | he
    · exact h.sent e he hp
    · rw [List.mem_singleton.1 he]
      exact hser
  · by_cases hj : w.serial = j
    · subst hj
      exact ⟨w, i + 1, hnext⟩
    · rw [wrote_store, if_neg fun hc => hj hc.2]
      exact h.order j

theorem Calls.copy (h : Calls d t ⟨.rcopy r i, n⟩) (hi : i < r.n) :
    Calls (d.copy t r i) t ⟨.rcopy r (i + 1), n⟩ := by
  obtain ⟨hser, hle, htook⟩ := h.done
  refine ⟨h.sent, fun e he hp => ?_, h.order, hser, by omega, ?_⟩
  · rcases List.mem_append.1 he with he | he
    · exact h.got e he hp
    · rw [List.mem_singleton.1 he]
      exact hser
  · rw [took_copy, if_pos ⟨rfl, rfl⟩, List.map_append, htook, List.map_singleton, List.range_succ]

theorem Calls.go {p : Pc} (h : Calls d t l) (hs : d'.sent = d.sent) (hg : d'.got = d.got)
    (hd : p.Done d t l.serial) : Calls d' t { l with pc := p } := by
  have hw : ∀ u k, d'.wrote u k = d.wrote u k := fun u k => by rw [Data.wrote, hs]; rfl
  have ht : ∀ u k, d'.took u k = d.took u k := fun u k => by rw [Data.took, hg]; rfl
  refine ⟨hs ▸ h.sent, hg ▸ h.got, fun k => ?_, hd.congr (hw t) (ht t)⟩
  rw [hw]
  exact h.order k

theorem Calls.call (h : Calls d t l) (hc : Call l l') : Calls d t l' := by
  have hnew := wrote_new h
  have hnew' := took_new h
  have hs : ∀ e ∈ d.sent, e.proc = t → e.call.serial < l.serial + 1 := fun e he hp =>
    Nat.lt_succ_of_lt (h.sent e he hp)
  have hg : ∀ e ∈ d.got, e.proc = t → e.call.serial < l.serial + 1 := fun e he hp =>
    Nat.lt_succ_of_lt (h.got e he hp)
  cases hc with
  | write addr k => exact ⟨hs, hg, h.order, Nat.lt_succ_self _, Nat.le_refl _, Nat.zero_le _, hnew⟩
  | read k => exact ⟨hs, hg, h.order, Nat.lt_succ_self _, hnew'⟩
  | close writable => exact ⟨hs, hg, h.order, trivial⟩

omit [DecidableEq T] in
@[simp] theorem close_sent {b : Bool} : (d.close b).sent = d.sent := by
  cases b <;> rfl

omit [DecidableEq T] in
@[simp] theorem close_got {b : Bool} : (d.close b).got = d.got := by
  cases b <;> rfl

/-! ## Runs -/

/-- The process relies on what it read from the pipe, so it may not lose the lock. -/
def Relies (l : Local) : Prop :=
  match l.pc with
  | .wsleep _ _ | .rcopy _ _ | .rend _ _ => True
  | _ => False

/-- What a process that holds the lock knows of the pipe: why it sleeps, or why it has copied
nothing. -/
def Pc.Knows (d : Data T) : Pc → Prop
  | .wsleep _ _ => d.Full ∧ d.readopen = true
  | .rcopy _ 0 => ¬ (d.Empty ∧ d.writeopen)
  | .rend r 0 => 0 < r.n → d.Empty ∧ d.writeopen = false
  | _ => True

structure Inv (s : State T Chan (Data T) Local) : Prop where
  locks : Locks s
  guarded : Guarded Relies s
  fifo : Fifo s.data
  calls : ∀ t, Calls s.data t (s.here t)
  knows : Knows (fun l d => l.pc.Knows d) s

theorem prog_guards : (prog (T := T)).Guards Relies := by
  refine ⟨fun {t l d l'} h => ?_, fun {t l d c l'} h => ?_, fun h => by cases h⟩
  · have hc := act_cases (t := t) (l := l) (d := d)
    rw [show act t l d = _ from h] at hc
    cases hc <;> exact id
  · have hc := act_cases (t := t) (l := l) (d := d)
    rw [show act t l d = _ from h] at hc
    cases hc <;> exact id

theorem Inv.init {junk : Nat → UInt8} {killed : T → Bool} : Inv (alloc junk killed) := by
  refine ⟨locks_init, fun _ h => h.elim, ⟨Nat.le_refl _, Nat.zero_le _, rfl, rfl, rfl, ?_⟩, ?_,
    fun _ => trivial⟩
  · intro j e _ he
    cases he
  · intro t
    refine ⟨fun e he => ?_, fun e he => ?_, fun k => ⟨⟨0, fun _ => 0, 0⟩, 0, rfl⟩, trivial⟩
    · cases he
    · cases he

section
variable {a : Act Chan (Data T) Local}

omit [DecidableEq T] in
theorem Acts.fifo (ha : Acts t d l a) (h : Fifo d) : Fifo (a.data d) := by
  cases ha with
  | store hi hf => exact h.store hf
  | copy hi he => exact h.copy he
  | cset => exact h.close
  | _ => exact h

theorem Acts.calls (ha : Acts t d l a) (h : Calls d t l) : Calls (a.data d) t a.next := by
  cases ha with
  | store hi hf => exact h.store hi
  | copy hi he => exact h.copy hi
  | @stored w i k n hi =>
    obtain ⟨hser, -, hle, hwrote⟩ := h.done
    obtain rfl : i = w.n.toNat := by omega
    exact h.go rfl rfl ⟨hser, hwrote⟩
  | full =>
    obtain ⟨hser, -, hle, hwrote⟩ := h.done
    exact h.go rfl rfl ⟨hser, hle, hwrote⟩
  | wsleep =>
    obtain ⟨hser, hle, hwrote⟩ := h.done
    exact h.go rfl rfl ⟨hser, Nat.le_refl _, hle, hwrote⟩
  | rsleep => exact h
  | rgo =>
    obtain ⟨hser, htook⟩ := h.done
    exact h.go rfl rfl ⟨hser, Nat.zero_le _, by rw [htook]; rfl⟩
  | copied => exact h.go rfl rfl h.done
  | cset => exact h.go close_sent close_got trivial
  | _ => exact h.go rfl rfl trivial

theorem Acts.calls_other {m : Local} (ha : Acts t d l a) (hu : u ≠ t) (h : Calls d u m) :
    Calls (a.data d) u m := by
  cases ha with
  | store => exact h.store_other hu
  | copy => exact h.copy_other hu
  | cset => exact h.go close_sent close_got h.done
  | _ => exact h

omit [DecidableEq T] in
theorem Acts.knows (ha : Acts t d l a) (h : l.pc.Knows d) : a.next.pc.Knows (a.data d) := by
  cases ha with
  | full hi hf hr hk => exact ⟨hf, hr⟩
  | rgo he => exact he
  | @copied r i n hlast =>
    cases i with
    | zero =>
      intro hn
      have he : d.Empty := by
        by_contra he
        exact hlast ⟨hn, he⟩
      exact ⟨he, Bool.eq_false_iff.2 fun hw => h ⟨he, hw⟩⟩
    | succ i => trivial
  | _ => trivial

end

variable {s s' : State T Chan (Data T) Local} {o : Option T}

theorem prog_keeps : (prog (T := T)).Keeps Relies fun l d => l.pc.Knows d := by
  refine ⟨fun h => act_cases.knows h, fun hc _ => ?_, fun ha => ?_, fun {t l d d'} hp h => ?_,
    fun {l l' d d'} hr _ _ => ?_⟩
  · cases hc <;> trivial
  · cases ha
  · rw [show d' = _ from hp]
    exact h
  · obtain ⟨pc, n⟩ := l
    cases pc with
    | wsleep w i => exact absurd trivial hr
    | rcopy r i => exact absurd trivial hr
    | rend r i => exact absurd trivial hr
    | _ => trivial

theorem Inv.step (h : Inv s) (hs : Step prog o s s') : Inv s' := by
  have hlocks := h.locks.step hs
  have hguard := h.guarded.step prog_guards hs
  have hknows := h.knows.step h.locks h.guarded prog_keeps hs
  cases hs.effect with
  | still hd hh =>
    exact ⟨hlocks, hguard, hd ▸ h.fifo, by rw [hd, hh]; exact h.calls, hknows⟩
  | @call t l hc hout hd hh =>
    refine ⟨hlocks, hguard, hd ▸ h.fifo, fun u => ?_, hknows⟩
    rw [hd, hh]
    by_cases hu : u = t
    · subst hu
      rw [update_self]
      exact (h.calls u).call hc
    · rw [update_of_ne hu]
      exact h.calls u
  | @act t hin hd hh =>
    have ha := act_cases (t := t) (l := s.here t) (d := s.data)
    refine ⟨hlocks, hguard, by rw [hd]; exact ha.fifo h.fifo, fun u => ?_, hknows⟩
    rw [hd, hh]
    by_cases hu : u = t
    · subst hu
      rw [update_self]
      exact ha.calls (h.calls u)
    · rw [update_of_ne hu]
      exact ha.calls_other hu (h.calls u)
  | after ha => cases ha
  | @poke t hp hh =>
    have hd : s'.data = { s.data with killed := update s.data.killed t true } := hp
    refine ⟨hlocks, hguard, ?_, fun u => ?_, hknows⟩
    · rw [hd]
      exact ⟨h.fifo.le, h.fifo.room, h.fifo.nread, h.fifo.nwrite, h.fifo.copied, h.fifo.stored⟩
    · rw [hd, hh]
      exact (h.calls u).go rfl rfl (h.calls u).done

theorem Reach.inv (h : Reach s) : Inv s := by
  induction h with
  | init => exact .init
  | step _ hs ih => exact ih.step hs

/-- **A pipe is a lossless queue.** The bytes copied out are a prefix of the bytes stored; the bytes
of each call of `pipewrite` were stored in order, all of them when it returns `n`; and a call of
`piperead` returns 0 for a positive `n` only if the pipe is empty and closed for writing. -/
theorem pipe_fifo (h : Reach s) : (s.data.nwrite + 2 ^ 32 - s.data.nread) % 2 ^ 32 ≤ PIPESIZE ∧
    s.data.got.map Got.byte <+: s.data.sent.map Sent.byte ∧
    (∀ t k, ∃ w m, s.data.wrote t k = (List.range m).map (Sent.mk t w)) ∧
    (∀ t w, (s.here t).pc = .wend w →
      s.data.wrote t w.serial = (List.range w.n.toNat).map (Sent.mk t w)) ∧
    (∀ t r i, (s.here t).pc = .rend r i → (s.data.took t r.serial).map Got.i = List.range i) ∧
    ∀ t r, (s.here t).pc = .rend r 0 → 0 < r.n → s.data.Empty ∧ s.data.writeopen = false := by
  have hi := h.inv
  refine ⟨hi.fifo.count_le, ?_, fun t => (hi.calls t).order, fun t w hpc => ?_,
    fun t r i hpc => ?_, fun t r hpc => ?_⟩
  · rw [hi.fifo.copied]
    exact List.take_prefix _ _
  · have := (hi.calls t).done
    rw [hpc] at this
    exact this.2
  · have := (hi.calls t).done
    rw [hpc] at this
    exact this.2.2
  · have hk : (s.here t).pc.Knows s.data := hi.knows t
    rw [hpc] at hk
    exact hk

/-- A process writes two bytes and reads the first. -/
theorem pipe_fifo_byte : ∃ s : State Unit Chan (Data Unit) Local, Reach s ∧
    s.data.sent.map Sent.byte = [65, 66] ∧ s.data.got.map Got.byte = [65] ∧
    s.data.got.map Got.byte <+: s.data.sent.map Sent.byte := by
  have h0 : Reach (alloc (fun _ => 0) fun _ : Unit => false) := .init
  have h1 := h0.step (.acquire (t := ()) rfl (.write (fun i => UInt8.ofNat (65 + i)) 2) rfl)
  have h2 := (h1.step (.set (t := ()) rfl rfl)).step (.set (t := ()) rfl rfl)
  have h3 := (h2.step (.wake (t := ()) rfl rfl rfl)).step (.scan (t := ()) rfl)
  have h4 := (h3.step (.woken (t := ()) rfl)).step (.leave (t := ()) rfl rfl)
  have h5 := (h4.step (.acquire (t := ()) rfl (.read 1) rfl)).step (.set (t := ()) rfl rfl)
  have h6 := h5.step (.set (t := ()) rfl rfl)
  exact ⟨_, h6, rfl, rfl, (pipe_fifo h6).2.1⟩

end

end Pipe
