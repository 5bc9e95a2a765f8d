import Xv6.Fs.Proof.Entries
import Xv6.Fs.Proof.Refs

/-!
# Path resolution

What a path names is defined by its elements (`components`, `State.resolve`), and `namei` and
`nameiparent` return that in a well-formed file system (`path_resolution`). Giving up an inode on the
way does not free it, since it has a link or another reference. The only panic is that of `iget` when
the cache is full.
-/

namespace Fs

open Panic Param
open Log (Disk)

/-! ## What a path names -/

def components (path : List UInt8) : List (List UInt8) :=
  ((path.splitOn SLASH).filter (· ≠ [])).map (·.take DIRSIZ)

namespace State

def lookup (s : State) (d : Nat) (name : List UInt8) : Option (Nat × Nat) :=
  lookupIn name (dirents s.disk (s.cur d))

def resolve (s : State) : Nat → List (List UInt8) → Option Nat
  | ip, [] => some ip
  | ip, c :: cs =>
    if (s.cur ip).type = T_DIR then (s.lookup ip c).bind fun q => resolve s q.1 cs else none

def resolveParent (s : State) (ip : Nat) (cs : List (List UInt8)) : Option (Nat × List UInt8) :=
  cs.getLast?.bind fun c => (s.resolve ip cs.dropLast).bind fun d =>
    if (s.cur d).type = T_DIR then some (d, c) else none

def Held (s : State) (i : Nat) : Prop :=
  Live s.sb s.cur i ∧ (0 < (s.cur i).nlink ∨ 0 < (s.ino i).ref)

def Cwd (s : State) (i : Nat) : Prop := Live s.sb s.cur i ∧ 0 < (s.ino i).ref

end State

def pathStart (cwd : Nat) (path : List UInt8) : Nat :=
  if path.headD 0 = SLASH then ROOTINO else cwd

/-- A file system with no call in progress. -/
structure WellFormed (s : State) : Prop where
  log : s.log = none
  geo : s.sb.Geometry
  owned : Owned s.sb s.disk s.cur
  /-- The inodes in memory are those on the disk. -/
  synced : s.cur = dinode s.sb s.disk
  idle : ∀ i, (s.ino i).locked = false
  root : s.Held ROOTINO
  full : ∀ i, Live s.sb s.cur i → (s.cur i).type = T_DIR → Full s.disk (s.cur i)
  entry : ∀ i, Live s.sb s.cur i → (s.cur i).type = T_DIR →
    ∀ de ∈ dirents s.disk (s.cur i), direntInum de ≠ 0 → s.Held (direntInum de)

/-! ## The elements of a path -/

section
variable {path name rest : List UInt8}

theorem dropWhile_dropWhile {p : UInt8 → Bool} : (path.dropWhile p).dropWhile p = path.dropWhile p := by
  have h := List.head?_dropWhile_not p path
  cases hd : path.dropWhile p with
  | nil => rfl
  | cons a l =>
    rw [hd] at h
    rw [List.dropWhile_cons, if_neg (by simpa using h)]

theorem components_slash : components (SLASH :: path) = components path := by
  have : (SLASH :: path).splitOn SLASH = [] :: path.splitOn SLASH :=
    (List.splitOnP_cons_eq_if_modifyHead ..).trans (if_pos (beq_self_eq_true _))
  rw [components, this, List.filter_cons_of_neg (by simp)]
  rfl

theorem components_dropWhile : components (path.dropWhile (· == SLASH)) = components path := by
  induction path with
  | nil => rfl
  | cons a path ih =>
    rw [List.dropWhile_cons]
    split
    · rename_i ha
      rw [ih, beq_iff_eq.1 ha, components_slash]
    · rfl

theorem components_append (hs : ∀ a ∈ name, (a == SLASH) = false) (hne : name ≠ [])
    (hrest : rest = [] ∨ ∃ tl, rest = SLASH :: tl) :
    components (name ++ rest) = name.take DIRSIZ :: components rest := by
  rcases hrest with rfl | ⟨tl, rfl⟩
  · have : (name ++ []).splitOn SLASH = [name] := by
      rw [List.append_nil]
      exact List.splitOnP_eq_singleton hs
    rw [components, this, List.filter_cons_of_pos (by simpa using hne)]
    rfl
  · have : (name ++ SLASH :: tl).splitOn SLASH = name :: tl.splitOn SLASH :=
      List.splitOnP_append_cons_of_forall_mem hs SLASH (beq_self_eq_true _) tl
    rw [components_slash, components, this, List.filter_cons_of_pos (by simpa using hne)]
    rfl

theorem components_eq : components path = match skipelem path with
    | none => []
    | some q => q.1 :: components q.2 := by
  rw [← components_dropWhile, skipelem]
  by_cases h0 : path.dropWhile (· == SLASH) = []
  · rw [if_pos h0, h0]
    rfl
  rw [if_neg h0]
  obtain ⟨a, p, hap⟩ := List.exists_cons_of_ne_nil h0
  have ha : (a == SLASH) = false := by
    have := List.head?_dropWhile_not (· == SLASH) path
    rw [hap] at this
    simpa using this
  rw [hap]
  simp only
  have hhead : (a :: p).takeWhile (· != SLASH) ≠ [] := by
    rw [List.takeWhile_cons, if_pos (by simpa [bne] using ha)]
    exact List.cons_ne_nil _ _
  have htail : (a :: p).dropWhile (· != SLASH) = [] ∨
      ∃ tl, (a :: p).dropWhile (· != SLASH) = SLASH :: tl := by
    have hd := List.head?_dropWhile_not (· != SLASH) (a :: p)
    cases hr : (a :: p).dropWhile (· != SLASH) with
    | nil => exact .inl rfl
    | cons b tl =>
      rw [hr] at hd
      have hb : b = SLASH := by simpa using hd
      exact .inr ⟨tl, by rw [hb]⟩
  have := components_append (fun b hb => by
    have := List.mem_takeWhile_imp hb
    simpa [bne] using this) hhead htail
  rw [List.takeWhile_append_dropWhile] at this
  rw [this, components_dropWhile]

theorem skipelem_rest (h : skipelem path = some (name, rest)) : rest = [] ↔ components rest = [] := by
  refine ⟨fun hr => by rw [hr]; rfl, fun hc => ?_⟩
  have hdrop : rest.dropWhile (· == SLASH) = rest := by
    rw [skipelem] at h
    split at h
    · cases h
    · obtain ⟨-, rfl⟩ := Prod.mk.inj (Option.some.inj h)
      exact dropWhile_dropWhile
  rw [components_eq, skipelem, hdrop] at hc
  by_contra hne
  rw [if_neg hne] at hc
  cases hc

theorem mem_skipelem {a : UInt8} (h : skipelem path = some (name, rest)) :
    (a ∈ name → a ∈ path) ∧ (a ∈ rest → a ∈ path) := by
  rw [skipelem] at h
  split at h
  · cases h
  · obtain ⟨rfl, rfl⟩ := Prod.mk.inj (Option.some.inj h)
    refine ⟨fun ha => ?_, fun ha => ?_⟩
    · exact (List.dropWhile_sublist _).subset
        ((List.takeWhile_sublist _).subset (List.mem_of_mem_take ha))
    · exact (List.dropWhile_sublist _).subset ((List.dropWhile_sublist _).subset
        ((List.dropWhile_sublist _).subset ha))

end

/-! ## The walk -/

namespace State

theorem resolve_cons {s : State} {ip : Nat} {c : List UInt8} {cs : List (List UInt8)} :
    s.resolve ip (c :: cs) =
      if (s.cur ip).type = T_DIR then (s.lookup ip c).bind fun q => s.resolve q.1 cs else none := rfl

def walk (s : State) (parent : Bool) (ip : Nat) (cs : List (List UInt8)) :
    Option (Nat × List UInt8) :=
  if parent then s.resolveParent ip cs else (s.resolve ip cs).map fun i => (i, [])

variable {s : State} {ip : Nat} {c : List UInt8} {cs : List (List UInt8)} {parent : Bool}

theorem walk_nil : s.walk parent ip [] = if parent then none else some (ip, []) := rfl

theorem walk_cons : s.walk parent ip (c :: cs) = if (s.cur ip).type ≠ T_DIR then none
    else if parent ∧ cs = [] then some (ip, c)
    else (s.lookup ip c).bind fun q => s.walk parent q.1 cs := by
  cases parent with
  | false =>
    simp only [walk, resolve_cons, Bool.false_eq_true, if_false, false_and, ite_not]
    split
    · exact Option.map_bind
    · rfl
  | true =>
    cases cs with
    | nil =>
      simp only [walk, resolveParent, if_true, and_self, List.getLast?_singleton, List.dropLast_singleton,
        resolve, Option.bind_some, ite_not]
    | cons c' cs =>
      simp only [walk, if_true, resolveParent, List.getLast?_cons_cons, List.dropLast_cons_cons,
        resolve_cons, reduceCtorEq, and_false, if_false, ite_not]
      cases (c' :: cs).getLast? with
      | none =>
        cases s.lookup ip c with
        | none => simp
        | some q => simp
      | some l =>
        split
        · simp only [Option.bind_some]
          cases s.lookup ip c with
          | none => rfl
          | some q => rfl
        · rfl

end State

structure Still (s t : State) : Prop where
  disk : t.disk = s.disk
  sb : t.sb = s.sb
  cur : t.cur = s.cur
  devsw : t.devsw = s.devsw
  log : t.log = s.log

section
variable {s s1 t : State} {i ip : Nat} {A : Nat → Nat}

theorem Still.refl : Still s s := ⟨rfl, rfl, rfl, rfl, rfl⟩

theorem Still.dup (h : Still s t) (i : Nat) : Still s (t.dup i) :=
  ⟨h.disk, h.sb, (t.dup_cur i).trans h.cur, h.devsw, h.log⟩

theorem Still.lock (h : Still s t) (i : Nat) : Still s (t.lock i) :=
  ⟨h.disk, h.sb, (t.lock_cur i).trans h.cur, h.devsw, h.log⟩

theorem Still.unlock (h : Still s t) (i : Nat) : Still s (t.unlock i) :=
  ⟨(t.unlock_disk i).trans h.disk, (t.unlock_sb i).trans h.sb, (t.unlock_cur i).trans h.cur,
    (t.unlock_devsw i).trans h.devsw, (t.unlock_log i).trans h.log⟩

theorem Still.put (h : Still s t) (i : Nat) : Still s (t.put i) :=
  ⟨(t.put_disk i).trans h.disk, (t.put_sb i).trans h.sb, (t.put_cur i).trans h.cur,
    (t.unlock_devsw i).trans h.devsw, (t.unlock_log i).trans h.log⟩

theorem Still.new (hsync : s.cur = dinode s.sb s.disk) (h : Still s t) (i : Nat) {v : Inode}
    (hv : v.valid = false) : Still s (t.setInode i v) := by
  refine ⟨h.disk, h.sb, funext fun j => ?_, h.devsw, h.log⟩
  by_cases hj : j = i
  · subst hj
    rw [State.cur, t.setInode_self, hv, hsync, ← h.sb, ← h.disk]
    rfl
  · rw [← h.cur, State.cur, State.setInode_other hj]
    rfl

theorem iget_still (hsync : s.cur = dinode s.sb s.disk) (h : Still s t) :
    Ends (iget i) t (fun _ t' => Still s t' ∧ Refs t (fun _ => 0) t' (single i))
      fun e => e = "iget: no inodes" ∧ NINODE ≤ t.cached.length := by
  by_cases hr : 0 < (t.ino i).ref
  · have hrun := iget_dup hr
    exact .of_ok hrun ⟨h.dup i, iget_refs.ok hrun⟩
  · by_cases hroom : t.cached.length < NINODE
    · have hrun := iget_new (Nat.eq_zero_of_not_pos hr) hroom
      exact .of_ok hrun ⟨h.new hsync i rfl, iget_refs.ok hrun⟩
    · exact .of_error (iget_full (Nat.eq_zero_of_not_pos hr) (Nat.not_lt.1 hroom))
        ⟨rfl, Nat.not_lt.1 hroom⟩

theorem cached_le (h : ∀ j, (t.ino j).ref = (s.ino j).ref + single ip j) :
    t.cached.length ≤ s.cached.length + 1 := by
  have hsub : t.cached ⊆ ip :: s.cached := by
    intro j hj
    rw [State.cached, List.mem_filter, decide_eq_true_eq] at hj
    rw [List.mem_cons]
    by_cases hji : j = ip
    · exact .inl hji
    · have := h j
      rw [single, if_neg hji] at this
      rw [State.cached, List.mem_filter, decide_eq_true_eq]
      exact .inr ⟨hj.1, by omega⟩
  have hnodup : t.cached.Nodup := List.nodup_range.filter _
  exact (List.subperm_of_subset hnodup hsub).length_le

/-- On the way along a path: nothing changed but the references. -/
structure Walk (s t : State) (A : Nat → Nat) : Prop extends Still s t, Refs s (fun _ => 0) t A

theorem Walk.ref_pos (h : Walk s s1 (single ip)) : 0 < (s1.ino ip).ref := by
  have := h.ref ip
  rw [single_self] at this
  omega

theorem Walk.lock_ref (h : Walk s s1 A) (i j : Nat) :
    ((s1.lock i).ino j).ref = (s.ino j).ref + A j := by
  have := h.ref j
  by_cases hj : j = i
  · subst hj
    rw [s1.lock_self]
    exact this
  · rw [State.lock_other hj]
    exact this

theorem Walk.ilock (hw : WellFormed s) (hip : s.Held ip) (h : Walk s s1 (single ip)) :
    Fs.ilock ip s1 = .ok ((), s1.lock ip) := by
  refine ilock_run h.ref_pos ((h.locked ip).trans (hw.idle ip)) ?_ ?_
  · rw [h.sb]
    exact hw.geo.iblock_lt hip.1.1
  · rw [h.cur]
    exact hip.1.2

theorem Walk.good (hw : WellFormed s) (hip : s.Held ip) (h : Walk s s1 (single ip)) :
    Good (s1.lock ip) ip := by
  refine .of_lock (h.log.trans hw.log) (h.sb ▸ hw.geo) ?_ ?_ ?_
  · rw [h.sb, h.disk, h.cur]
    exact hw.owned
  · rw [h.sb, h.cur]
    exact hip.1
  · rw [h.cur, hw.synced]
    exact fits_getDinode

theorem Walk.not_last (hip : s.Held ip) (h : Still s t)
    (hr : (s.ino ip).ref + 1 ≤ (t.ino ip).ref) : ¬ t.Last ip := by
  rintro ⟨hv, hn, h1⟩
  rcases hip.2 with hpos | hpos
  · rw [← h.cur, State.cur_of_valid hv] at hpos
    omega
  · omega

section
variable (hw : WellFormed s)
include hw

theorem release_run (hip : s.Held ip) (h : Walk s s1 (single ip))
    (ht : Still s t) (hr : Refs (s1.lock ip) (fun _ => 0) t A) :
    ∃ t', iunlockput ip t = .ok ((), t') ∧ Walk s t' A := by
  have hl : (s1.ino ip).locked = false := (h.locked ip).trans (hw.idle ip)
  have href := hr.ref ip
  have hlk := hr.locked ip
  have hs1 := h.ref ip
  rw [s1.lock_self] at href hlk
  rw [single_self] at hs1
  simp only at href hlk
  have hnot : ¬ (t.unlock ip).Last ip := by
    rw [State.Last, State.node, t.unlock_self]
    exact Walk.not_last hip ht (by omega)
  have hrun : iunlockput ip t = .ok ((), (t.unlock ip).put ip) := by
    rw [iunlockput, bind_run (iunlock_run hlk (by omega))]
    exact iput_keep (by rw [t.unlock_self]) hnot
  refine ⟨_, hrun, (ht.unlock ip).put ip, ?_⟩
  exact (h.toRefs.trans ((iunlockput_refs hl h.ref_pos hr).ok hrun)).congr fun j => by omega

theorem WellFormed.lookup_held {name : List UInt8} {q : Nat × Nat}
    (hip : Live s.sb s.cur ip) (hdir : (s.cur ip).type = T_DIR) (h : s.lookup ip name = some q) :
    s.Held q.1 := by
  obtain ⟨k, de, hde, his, rfl⟩ := lookupIn_some h
  exact hw.entry ip hip hdir de (List.mem_of_getElem? hde) (entryIs_inum his)

theorem Walk.dirlookup {name : List UInt8} (hip : s.Held ip)
    (h : Walk s s1 (single ip)) (hdir : (s.cur ip).type = T_DIR) (h0 : 0 ∉ name) :
    Ends (Fs.dirlookup ip name) (s1.lock ip)
      (fun r t => r = s.lookup ip name ∧ Still s t ∧ Refs (s1.lock ip) (fun _ => 0) t (taken r))
      fun e => e = "iget: no inodes" ∧ NINODE ≤ s.cached.length + 1 := by
  have hnode : (s1.lock ip).node ip = s.cur ip := by rw [s1.lock_node, h.cur]
  have hlook := dirlookup_run name (h.good hw hip) (by rw [hnode, hdir])
    (by rw [hnode]; exact h.disk ▸ hw.full ip hip.1 hdir) h0
  rw [hnode, show (s1.lock ip).disk = s.disk from h.disk] at hlook
  cases hq : s.lookup ip name with
  | none =>
    rw [show lookupIn name (dirents s.disk (s.cur ip)) = none from hq] at hlook
    exact .of_ok hlook ⟨rfl, h.toStill.lock ip, fun _ => rfl, fun _ => rfl⟩
  | some q =>
    rw [show lookupIn name (dirents s.disk (s.cur ip)) = some q from hq] at hlook
    have hget := (iget_still (i := q.1) hw.synced (h.toStill.lock ip)).weaken
      fun e he => show e = "iget: no inodes" ∧ NINODE ≤ s.cached.length + 1 from
        ⟨he.1, he.2.trans (cached_le (h.lock_ref ip))⟩
    exact .of_eq hlook (hget.bind fun _ t ht => .of_pure ⟨rfl, ht⟩)

/-- **The loop of `namex`.** -/
theorem namexFrom_walks {parent : Bool} {fuel : Nat} {path : List UInt8}
    (h0 : 0 ∉ path) (hf : path.length < fuel) (hip : s.Held ip) (h : Walk s s1 (single ip)) :
    Ends (namexFrom parent fuel ip path) s1
      (fun r t => r = s.walk parent ip (components path) ∧ Walk s t (taken r))
      fun e => e = "iget: no inodes" ∧ NINODE ≤ s.cached.length + 1 := by
  induction fuel generalizing s1 ip path with
  | zero => exact absurd hf (Nat.not_lt_zero _)
  | succ fuel ih =>
    have hl : (s1.ino ip).locked = false := (h.locked ip).trans (hw.idle ip)
    rw [namexFrom, components_eq]
    cases hsk : skipelem path with
    | none =>
      simp only
      rw [State.walk_nil]
      refine .ite (fun hp => ?_) fun hp => .of_pure ⟨(if_neg hp).symm, h⟩
      have hs1 := h.ref ip
      rw [single_self] at hs1
      have hrun := iput_keep hl (Walk.not_last hip h.toStill (by omega))
      refine .run hrun (.of_pure ⟨(if_pos hp).symm, h.toStill.put ip, ?_⟩)
      exact (h.toRefs.trans ((iput_refs h.ref_pos).ok hrun)).congr fun j => by
        simp only [taken]
        omega
    | some q =>
      obtain ⟨name, rest⟩ := q
      simp only
      have hnode : (s1.lock ip).node ip = s.cur ip := by rw [s1.lock_node, h.cur]
      have hself : Refs (s1.lock ip) (fun _ => 0) (s1.lock ip) fun _ => 0 :=
        ⟨fun _ => rfl, fun _ => rfl⟩
      rw [State.walk_cons]
      refine .run (h.ilock hw hip) (.run get_run ?_)
      rw [hnode]
      refine .ite (fun hd => ?_) fun hd => ?_
      · rw [if_pos hd]
        obtain ⟨t1, hrel, hwalk⟩ := release_run hw hip h (h.toStill.lock ip) hself
        exact .run hrel (.of_pure ⟨rfl, hwalk⟩)
      rw [if_neg hd]
      have hdir : (s.cur ip).type = T_DIR := not_not.1 hd
      refine .ite (fun hp => ?_) fun hp => ?_
      · rw [if_pos ⟨hp.1, (skipelem_rest hsk).1 hp.2⟩]
        have hun := iunlock_run (s := s1.lock ip) (i := ip) (by rw [s1.lock_self])
          (by rw [s1.lock_self]; exact h.ref_pos)
        refine .run hun (.of_pure ⟨rfl, (h.toStill.lock ip).unlock ip, ?_⟩)
        exact (h.toRefs.trans (unlock_refs hl hself)).congr fun j => by simp [taken]
      rw [if_neg fun hc => hp ⟨hc.1, (skipelem_rest hsk).2 hc.2⟩]
      refine (h.dirlookup hw hip hdir fun hm => h0 ((mem_skipelem hsk).1 hm)).bind ?_
      rintro r t ⟨hr, hst, hrefs⟩
      obtain ⟨t2, hrel2, hwalk2⟩ := release_run hw hip h hst hrefs
      rw [← hr]
      cases r with
      | none => exact .run hrel2 (.of_pure ⟨rfl, hwalk2⟩)
      | some q =>
        refine .run hrel2 ?_
        have hlen := skipelem_length hsk
        exact ih (fun hm => h0 ((mem_skipelem hsk).2 hm)) (by omega)
          (hw.lookup_held hip.1 hdir hr.symm) hwalk2

theorem namex_walks {parent : Bool} {cwd : Nat} {path : List UInt8}
    (hc : s.Cwd cwd) (h0 : 0 ∉ path) : Ends (namex cwd path parent) s
      (fun r t => r = s.walk parent (pathStart cwd path) (components path) ∧ Walk s t (taken r))
      fun e => e = "iget: no inodes" ∧ NINODE ≤ s.cached.length + 1 := by
  rw [namex, pathStart]
  refine .ite (fun hs => ?_) fun hs => ?_
  · rw [if_pos hs]
    refine .bind ((iget_still hw.synced .refl).weaken
      fun _ he => ⟨he.1, he.2.trans (Nat.le_succ _)⟩) fun _ t ht => ?_
    exact namexFrom_walks hw h0 (Nat.lt_succ_self _) hw.root ⟨ht.1, ht.2⟩
  · rw [if_neg hs]
    refine .run (show idup cwd s = .ok ((), s.dup cwd) from rfl) ?_
    exact namexFrom_walks hw h0 (Nat.lt_succ_self _) ⟨hc.1, .inr hc.2⟩ ⟨Still.refl.dup cwd, dup_refs⟩

theorem namei_walks {cwd : Nat} {path : List UInt8} (hc : s.Cwd cwd) (h0 : 0 ∉ path) :
    Ends (namei cwd path) s (fun r t => r = s.resolve (pathStart cwd path) (components path) ∧
        Walk s t (taken (r.map fun i => (i, ()))))
      fun e => e = "iget: no inodes" ∧ NINODE ≤ s.cached.length + 1 := by
  refine (namex_walks hw hc h0).bind fun r t h => .of_pure ⟨?_, ?_⟩
  · rw [h.1, State.walk, if_neg (by decide), Option.map_map]
    exact Option.map_id'
  · cases r with
    | none => exact h.2
    | some q => exact h.2

theorem resolve_held {cs : List (List UInt8)} {j : Nat} (hip : s.Held ip)
    (h : s.resolve ip cs = some j) : s.Held j := by
  induction cs generalizing ip with
  | nil =>
    cases h
    exact hip
  | cons c cs ih =>
    rw [State.resolve_cons] at h
    split at h
    · rename_i hdir
      obtain ⟨q, hq, h⟩ := Option.bind_eq_some_iff.1 h
      exact ih (hw.lookup_held hip.1 hdir hq) h
    · cases h

theorem start_held {cwd : Nat} {path : List UInt8} (hc : s.Cwd cwd) :
    s.Held (pathStart cwd path) := by
  unfold pathStart
  split
  · exact hw.root
  · exact ⟨hc.1, .inr hc.2⟩

end

def Gained (s t : State) (r : Option Nat) : Prop :=
  ∀ j, (t.ino j).ref = (s.ino j).ref + (if r = some j then 1 else 0) ∧
    (t.ino j).locked = (s.ino j).locked

theorem Walk.gained {α : Type} {r : Option (Nat × α)} (h : Walk s t (taken r)) :
    Gained s t (r.map Prod.fst) := by
  refine fun j => ⟨(h.ref j).trans ?_, h.locked j⟩
  cases r with
  | none => rfl
  | some q =>
    simp only [taken, single, Option.map_some, Option.some.injEq, eq_comm]

/-- **Path resolution.** -/
theorem path_resolution {cwd : Nat} {path : List UInt8} (hw : WellFormed s) (hc : s.Cwd cwd)
    (h0 : 0 ∉ path) : Ends (namei cwd path) s
      (fun r t => r = s.resolve (pathStart cwd path) (components path) ∧ Still s t ∧ Gained s t r)
      (fun e => e = "iget: no inodes" ∧ NINODE ≤ s.cached.length + 1) ∧
    Ends (nameiparent cwd path) s
      (fun r t => r = s.resolveParent (pathStart cwd path) (components path) ∧ Still s t ∧
        Gained s t (r.map Prod.fst))
      (fun e => e = "iget: no inodes" ∧ NINODE ≤ s.cached.length + 1) := by
  refine ⟨?_, ?_⟩
  · refine (namei_walks hw hc h0).mono (fun r t h => ⟨h.1, h.2.toStill, ?_⟩) fun _ => id
    have hg := h.2.gained
    rwa [Option.map_map, show (Prod.fst ∘ fun i : Nat => (i, ())) = id from rfl, Option.map_id] at hg
  · refine (namex_walks hw hc h0).mono (fun r t h => ⟨?_, h.2.toStill, h.2.gained⟩) fun _ => id
    rw [h.1, State.walk, if_pos rfl]

end

/-! ## A root with one file -/

def Super.tree : Super where
  size := 12
  nblocks := 2
  ninodes := 56
  nlog := 0
  logstart := 2
  inodestart := 2
  bmapstart := 9

/-- An executable: the ELF header, and a program header for two pages of memory at address 0 that start
with the bytes of the file. -/
def blankElf : List UInt8 :=
  [0x7F, 0x45, 0x4C, 0x46] ++ List.replicate 24 0 ++ [52, 0, 0, 0] ++ List.replicate 12 0 ++ [1] ++
    List.replicate 7 0 ++ [1] ++ List.replicate 15 0 ++ [84, 0, 0, 0, 0, 32] ++ List.replicate 10 0

/-- The inode blocks, the bit map, the root directory and a file, the executable `blankElf`. Inode 1 is
the root, inode 51 the file `f`, and the inodes between them have no links. -/
def treeDisk : Disk := fun b k =>
  if b = 2 ∧ 64 ≤ k ∧ k < 128 then
    ([1, 0, 0, 0, 0, 0, 1, 0, 48, 0, 0, 0, 10] : List UInt8).getD (k - 64) 0
  else if b = 8 ∧ 192 ≤ k ∧ k < 256 then
    ([2, 0, 0, 0, 0, 0, 1, 0, 84, 0, 0, 0, 11] : List UInt8).getD (k - 192) 0
  else if 2 ≤ b ∧ b < 9 then
    if k % 64 = 0 ∧ 2 ≤ 8 * (b - 2) + k / 64 ∧ 8 * (b - 2) + k / 64 ≤ 51 then 2 else 0
  else if b = 9 then ([255, 15] : List UInt8).getD k 0
  else if b = 10 then
    (putDirent 1 [DOT] ++ putDirent 1 [DOT, DOT] ++ putDirent 51 [102]).getD k 0
  else if b = 11 then blankElf.getD k 0
  else 0

def State.tree (n : Nat) : State where
  disk := treeDisk
  sb := .tree
  ino i := ⟨if 1 ≤ i ∧ i ≤ n then 1 else 0, false, false, Dinode.zero⟩
  devsw := ⟨fun _ => none, fun _ => none⟩
  released := []
  log := none

section
variable {n : Nat}

theorem Super.tree_geometry : Super.tree.Geometry where
  super := by decide
  inodes := by decide
  bitmap := by decide
  data := by decide
  size := by decide
  fits := ⟨by decide, by decide, by decide, by decide, by decide, by decide, by decide⟩

theorem tree_cur : (State.tree n).cur = dinode .tree treeDisk := rfl

theorem treeDisk_contents : (∀ i < 56, (dinode .tree treeDisk i).type ≠ 0 → 1 ≤ i ∧ i ≤ 51) ∧
    (∀ i < 56, ∀ k < 13, (dinode .tree treeDisk i).addrs k ≠ 0 → (i = 1 ∧ k = 0) ∨ (i = 51 ∧ k = 0)) ∧
    (ptr treeDisk (dinode .tree treeDisk 1) 0 = 10 ∧ ptr treeDisk (dinode .tree treeDisk 51) 0 = 11) ∧
    ((dinode .tree treeDisk 1).type = T_DIR ∧ (dinode .tree treeDisk 51).type = T_FILE) ∧
    ((dinode .tree treeDisk 1).size = 48 ∧ (dinode .tree treeDisk 51).size = 84) ∧
    (0 < (dinode .tree treeDisk 1).nlink ∧ 0 < (dinode .tree treeDisk 51).nlink) ∧
    (∀ i < 56, (dinode .tree treeDisk i).type = T_DIR → i = 1) ∧
    dirents treeDisk (dinode .tree treeDisk 1) =
      [putDirent 1 [DOT], putDirent 1 [DOT, DOT], putDirent 51 [102]] :=
  ⟨by decide +kernel, by decide +kernel, by decide +kernel, by decide +kernel, by decide +kernel,
    by decide +kernel, by decide +kernel, by decide +kernel⟩

theorem tree_ptr {i k : Nat} (h : i < 56) (hp : ptr treeDisk (dinode .tree treeDisk i) k ≠ 0) :
    (i = 1 ∧ k = 0) ∨ (i = 51 ∧ k = 0) := by
  have hall := treeDisk_contents.2.1
  by_cases hk : k ≤ NDIRECT
  · rw [ptr, if_pos hk] at hp
    exact hall i h k (Nat.lt_succ_of_le hk) hp
  · have hz : (dinode .tree treeDisk i).addrs NDIRECT = 0 := by
      by_contra hne
      rcases hall i h 12 (by decide) hne with hc | hc
      · cases hc.2
      · cases hc.2
    rw [ptr, if_neg hk, if_pos hz] at hp
    exact absurd rfl hp

theorem tree_root : ptr treeDisk (dinode .tree treeDisk 1) 0 = 10 := treeDisk_contents.2.2.1.1

theorem tree_file : ptr treeDisk (dinode .tree treeDisk 51) 0 = 11 := treeDisk_contents.2.2.1.2

theorem tree_root_type : (dinode .tree treeDisk 1).type = T_DIR := treeDisk_contents.2.2.2.1.1

theorem tree_file_type : (dinode .tree treeDisk 51).type = T_FILE := treeDisk_contents.2.2.2.1.2

theorem tree_root_size : (dinode .tree treeDisk 1).size = 48 := treeDisk_contents.2.2.2.2.1.1

theorem tree_file_size : (dinode .tree treeDisk 51).size = 84 := treeDisk_contents.2.2.2.2.1.2

theorem tree_owned : Owned .tree treeDisk (dinode .tree treeDisk) where
  range i k hi _ hp := by
    rcases tree_ptr hi.1 hp with ⟨rfl, rfl⟩ | ⟨rfl, rfl⟩
    · rw [tree_root]
      exact ⟨by decide, by decide⟩
    · rw [tree_file]
      exact ⟨by decide, by decide⟩
  once i k j l hi hj _ _ hp heq := by
    rcases tree_ptr hi.1 hp with ⟨rfl, rfl⟩ | ⟨rfl, rfl⟩
    all_goals
      rw [heq] at hp
      rcases tree_ptr hj.1 hp with ⟨rfl, rfl⟩ | ⟨rfl, rfl⟩
    · exact ⟨rfl, rfl⟩
    · rw [tree_root, tree_file] at heq
      cases heq
    · rw [tree_root, tree_file] at heq
      cases heq
    · exact ⟨rfl, rfl⟩
  bits b hb := by
    have hused : ∀ b < 12, 10 ≤ b → used .tree treeDisk b = true := by decide
    refine iff_of_true (hused b hb.2 hb.1) ?_
    have hb' : b = 10 ∨ b = 11 := by
      have h1 : 10 ≤ b := hb.1
      have h2 : b < 12 := hb.2
      omega
    rcases hb' with rfl | rfl
    · exact ⟨1, 0, ⟨by decide, by rw [tree_root_type]; decide⟩, by decide, tree_root⟩
    · exact ⟨51, 0, ⟨by decide, by rw [tree_file_type]; decide⟩, by decide, tree_file⟩
  system := by decide

theorem tree_held {i : Nat} (h : i = 1 ∨ i = 51) : (State.tree n).Held i := by
  obtain ⟨h1, h51⟩ := treeDisk_contents.2.2.2.2.2.1
  rcases h with rfl | rfl
  · exact ⟨⟨show 1 < Super.tree.ninodes by decide, by rw [tree_cur, tree_root_type]; decide⟩, .inl h1⟩
  · exact ⟨⟨show 51 < Super.tree.ninodes by decide, by rw [tree_cur, tree_file_type]; decide⟩, .inl h51⟩

theorem tree_dir {i : Nat} (h : i < 56) (hd : (dinode .tree treeDisk i).type = T_DIR) : i = 1 :=
  treeDisk_contents.2.2.2.2.2.2.1 i h hd

theorem tree_dirents : dirents treeDisk (dinode .tree treeDisk 1) =
    [putDirent 1 [DOT], putDirent 1 [DOT, DOT], putDirent 51 [102]] := treeDisk_contents.2.2.2.2.2.2.2

theorem tree_lookups :
    lookupIn [102] [putDirent 1 [DOT], putDirent 1 [DOT, DOT], putDirent 51 [102]] = some (51, 32) ∧
    lookupIn [DOT] [putDirent 1 [DOT], putDirent 1 [DOT, DOT], putDirent 51 [102]] = some (1, 0) ∧
    lookupIn [103] [putDirent 1 [DOT], putDirent 1 [DOT, DOT], putDirent 51 [102]] = none := by
  decide +kernel

theorem tree_wellFormed : WellFormed (State.tree n) where
  log := rfl
  geo := Super.tree_geometry
  owned := tree_owned
  synced := rfl
  idle _ := rfl
  root := tree_held (.inl rfl)
  full i hi hd := by
    obtain rfl := tree_dir hi.1 hd
    have hsize := tree_root_size
    refine ⟨?_, fun o _ ho => ?_⟩
    · show DIRENTSIZE ∣ (dinode .tree treeDisk 1).size
      rw [hsize]
      decide
    · have ho : o < 0 + (dinode .tree treeDisk 1).size := ho
      have hz : o / BSIZE = 0 := Nat.div_eq_of_lt (by rw [hsize] at ho; unfold BSIZE; omega)
      rw [hz]
      refine ⟨by decide, ?_⟩
      show ptr treeDisk (dinode .tree treeDisk 1) 0 ≠ 0
      rw [tree_root]
      decide
  entry i hi hd de hde _ := by
    obtain rfl := tree_dir hi.1 hd
    have hde : de ∈ dirents treeDisk (dinode .tree treeDisk 1) := hde
    rw [tree_dirents] at hde
    simp only [List.mem_cons, List.not_mem_nil, or_false] at hde
    rcases hde with rfl | rfl | rfl
    · exact tree_held (.inl rfl)
    · exact tree_held (.inl rfl)
    · exact tree_held (.inr rfl)

theorem tree_lookup : (State.tree n).lookup 1 [102] = some (51, 32) := by
  show lookupIn [102] (dirents treeDisk (dinode .tree treeDisk 1)) = _
  rw [tree_dirents]
  exact tree_lookups.1

theorem tree_resolve (cwd : Nat) :
    (State.tree n).resolve (pathStart cwd [SLASH, 102]) (components [SLASH, 102]) = some 51 := by
  have hcomp : components [SLASH, 102] = [[102]] := by decide
  have hstart : pathStart cwd [SLASH, 102] = 1 := rfl
  have hdir : ((State.tree n).cur 1).type = T_DIR := tree_root_type
  rw [hcomp, hstart, State.resolve_cons, if_pos hdir, tree_lookup]
  rfl

theorem le_cached {t : State} (hn : n < 65536) (h : ∀ j, 1 ≤ j → j ≤ n → 0 < (t.ino j).ref) :
    n ≤ t.cached.length := by
  have hsub : List.range' 1 n ⊆ t.cached := by
    intro j hj
    rw [List.mem_range'_1] at hj
    rw [State.cached, List.mem_filter, List.mem_range, decide_eq_true_eq]
    exact ⟨by omega, h j hj.1 (by omega)⟩
  have := (List.subperm_of_subset List.nodup_range' hsub).length_le
  rwa [List.length_range'] at this

theorem tree_ref {j : Nat} (h1 : 1 ≤ j) (hn : j ≤ n) : ((State.tree n).ino j).ref = 1 :=
  if_pos ⟨h1, hn⟩

end

/-- With all places of the inode cache in use, the file `/f` is there and `namei` panics. -/
theorem namei_panics : WellFormed (State.tree 50) ∧ (State.tree 50).Cwd ROOTINO ∧
    (State.tree 50).resolve (pathStart ROOTINO [SLASH, 102]) (components [SLASH, 102]) = some 51 ∧
    namei ROOTINO [SLASH, 102] (State.tree 50) = .error "iget: no inodes" := by
  have hwf : WellFormed (State.tree 50) := tree_wellFormed
  have hroot : (State.tree 50).Held 1 := tree_held (.inl rfl)
  have hdir : ((State.tree 50).cur 1).type = T_DIR := tree_root_type
  refine ⟨hwf, ⟨hroot.1, by decide⟩, tree_resolve ROOTINO, ?_⟩
  have hget : iget 1 (State.tree 50) = .ok ((), (State.tree 50).dup 1) := iget_dup (by decide)
  have hwalk : Walk (State.tree 50) ((State.tree 50).dup 1) (single 1) :=
    ⟨Still.refl.dup 1, dup_refs⟩
  have hnode : (((State.tree 50).dup 1).lock 1).node 1 = (State.tree 50).cur 1 := by
    rw [State.lock_node, hwalk.cur]
  have hlook := dirlookup_run [102] (hwalk.good hwf hroot) (by rw [hnode, hdir])
    (by rw [hnode]; exact hwf.full 1 hroot.1 hdir) (by decide)
  rw [hnode] at hlook
  have hfound : lookupIn [102] (dirents (((State.tree 50).dup 1).lock 1).disk ((State.tree 50).cur 1)) =
      some (51, 32) := tree_lookup
  rw [hfound] at hlook
  have hfull : iget 51 (((State.tree 50).dup 1).lock 1) = .error "iget: no inodes" := by
    refine iget_full ?_ (le_cached (by decide) fun j h1 h2 => ?_)
    · rw [hwalk.lock_ref]
      decide
    · have hj : ((State.tree 50).ino j).ref = 1 := tree_ref h1 h2
      rw [hwalk.lock_ref, hj]
      omega
  have hsk : skipelem [SLASH, 102] = some ([102], []) := by decide
  have hnamex : namex ROOTINO [SLASH, 102] false (State.tree 50) = .error "iget: no inodes" := by
    have hstart : namex ROOTINO [SLASH, 102] false (State.tree 50) =
        namexFrom false 3 1 [SLASH, 102] ((State.tree 50).dup 1) := by
      rw [namex, if_pos (by decide), show ROOTINO = 1 from rfl, bind_run hget]
      rfl
    rw [hstart, namexFrom, hsk]
    simp only
    rw [bind_run (hwalk.ilock hwf hroot), bind_run get_run, hnode, if_neg (not_not.2 hdir),
      if_neg (by decide), bind_error (hlook.trans (bind_error hfull))]
  rw [namei, bind_error hnamex]

/-- With one place in use, `namei` finds the file. -/
theorem path_resolution_tree : ∃ t, namei ROOTINO [SLASH, 102] (State.tree 1) = .ok (some 51, t) ∧
    Still (State.tree 1) t ∧ Gained (State.tree 1) t (some 51) := by
  have hcached : (State.tree 1).cached.length ≤ 1 := by
    have hsub : (State.tree 1).cached ⊆ [1] := by
      intro j hj
      have href : 0 < ((State.tree 1).ino j).ref := of_decide_eq_true (List.mem_filter.1 hj).2
      by_contra hne
      have hz : ((State.tree 1).ino j).ref = 0 := if_neg fun h => hne (List.mem_singleton.2 (by omega))
      omega
    exact (List.subperm_of_subset (List.nodup_range.filter _) hsub).length_le
  have hcwd : (State.tree 1).Cwd ROOTINO := ⟨(tree_held (.inl rfl)).1, by decide⟩
  have h := (path_resolution tree_wellFormed hcwd (show 0 ∉ [SLASH, 102] by decide)).1
  rw [tree_resolve ROOTINO] at h
  obtain ⟨r, t, hrun, rfl, ht⟩ := h.returns fun _ he => by
    have : NINODE = 50 := rfl
    omega
  exact ⟨t, hrun, ht⟩

end Fs
