import Xv6.Fs.Proof.Dir
import Xv6.Fs.Proof.Mkfs

/-!
# The image that `mkfs` makes

`Holds s i type data`: the inode `i` of the image is a file with the bytes `data`, and it has just the
blocks that they take. A run of `mkfs` adds files one by one; the invariant `Files` says what each
inode holds and how many blocks are used.
-/

namespace Fs

open Bytes Function Finset
open Log (Block Disk)
open Panic
open Param

/-! ## The pointers of a file without holes -/

def fileBlocks (n : Nat) : Nat := (n + (BSIZE - 1)) / BSIZE

def slots (n : Nat) : Nat := if fileBlocks n ≤ NDIRECT then fileBlocks n else fileBlocks n + 1

section
variable {n z k : Nat}

theorem mem_touch {bn : Nat} : k ∈ touch bn ↔ k = slot bn ∨ (k = NDIRECT ∧ NDIRECT ≤ bn) := by
  unfold touch slot
  split
  · rw [mem_singleton]
    omega
  · rw [mem_insert, mem_singleton]
    omega

theorem touched_start : touched 0 n = range (slots n) := by
  ext k
  simp only [touched, mem_biUnion, mem_range, mem_touch, Nat.zero_add]
  unfold slots slot fileBlocks NDIRECT BSIZE
  constructor
  · rintro ⟨j, hj, hk⟩
    split <;> split at hk <;> omega
  · intro hk
    refine ⟨(if k ≤ 12 then k else k - 1) * 512, ?_⟩
    split at hk <;> split <;> split <;> omega

theorem slots_mono (h : z ≤ n) : slots z ≤ slots n := by
  unfold slots fileBlocks NDIRECT BSIZE
  split <;> split <;> omega

theorem slot_lt_slots {bn : Nat} : slot bn < slots n ↔ bn * BSIZE < n := by
  unfold slots slot fileBlocks NDIRECT BSIZE
  split <;> split <;> omega

theorem slots_lt (h : n ≤ MAXFILE * BSIZE) : slots n ≤ NSLOT := by
  have h1 : MAXFILE * BSIZE = 71680 := rfl
  have h2 : NSLOT = 141 := rfl
  unfold slots fileBlocks NDIRECT BSIZE
  split <;> omega

theorem mem_touched_end (hk : ¬ k < slots z) : k ∈ touched z n ↔ k < slots (z + n) := by
  rw [← mem_range (m := k) (n := slots (z + n)), ← touched_start, touched_add, Nat.zero_add,
    mem_union, touched_start, mem_range, or_iff_right hk]

end

/-! ## Files of the image -/

namespace Mkfs

/-- The blocks of the image are owned, and the inodes that are not handed out are free. -/
structure Inv (s : State) : Prop extends Base s where
  owned : Owned sb s.vdisk s.nodes
  super : s.disk 1 = putSuper (fill 0) sb
  dead : ∀ j, s.freeinode ≤ j → j < sb.ninodes → (s.nodes j).type = 0

/-- The inode `i` of the image has the contents `data`. -/
structure Holds (s : State) (i type : Nat) (data : List UInt8) : Prop where
  inum : i < sb.ninodes
  pos : type ≠ 0
  type : (s.nodes i).type = type
  nlink : (s.nodes i).nlink = 1
  size : (s.nodes i).size = data.length
  max : data.length ≤ MAXFILE * BSIZE
  bytes : bytes s.vdisk (s.nodes i) 0 data.length = data
  exact : ∀ k < NSLOT, ptr s.vdisk (s.nodes i) k ≠ 0 ↔ k < slots data.length

section
variable {s s' : State} {i j t : Nat} {data p : List UInt8}

theorem Holds.live (h : Holds s i t data) : Live sb s.nodes i := ⟨h.inum, h.type ▸ h.pos⟩

theorem Holds.congr (hj : Holds s j t data) (h : Owned sb s.vdisk s.nodes)
    (hnode : s'.nodes j = s.nodes j) (hdata : ∀ x, sb.IsData x → s'.vdisk x = s.vdisk x) :
    Holds s' j t data := by
  refine ⟨hj.inum, hj.pos, by rw [hnode, hj.type], by rw [hnode, hj.nlink], by rw [hnode, hj.size],
    hj.max, ?_, fun k hk => ?_⟩
  · rw [hnode]
    refine Eq.trans (List.map_congr_left fun o ho => h.byte_eq hj.live hdata ?_) hj.bytes
    have := hj.max
    rw [List.mem_range] at ho
    exact Nat.div_lt_of_lt_mul (by rw [Nat.mul_comm]; omega)
  · rw [hnode, h.ptr_eq hj.live hdata]
    exact hj.exact k hk

theorem Inv.good (h : Inv s) (hh : Holds s i t data) : Good (s.view i (s.nodes i)) i where
  log := rfl
  geo := geometry
  owned := h.owned.of_nodes geometry fun _ hj => s.view_cur hj
  valid := by rw [s.view_ino]
  live := by
    refine ⟨hh.inum, ?_⟩
    rw [s.view_cur hh.inum]
    exact hh.live.2
  fits := by
    rw [s.view_node]
    exact fits_getDinode

theorem Holds.missing_card (hh : Holds s i t data)
    (hmax : data.length + p.length ≤ MAXFILE * BSIZE) :
    ((s.view i (s.nodes i)).missing i (touched data.length p.length)).card + slots data.length =
      slots (data.length + p.length) := by
  have hset : (s.view i (s.nodes i)).missing i (touched data.length p.length) =
      Finset.Ico (slots data.length) (slots (data.length + p.length)) := by
    ext k
    rw [Fs.State.missing, mem_filter, mem_Ico, s.view_node]
    constructor
    · rintro ⟨hk, h0⟩
      have hge : ¬ k < slots data.length := fun hlt =>
        (hh.exact k (touched_lt hmax hk)).2 hlt h0
      exact ⟨Nat.not_lt.1 hge, (mem_touched_end hge).1 hk⟩
    · rintro ⟨hge, hlt⟩
      have hk := (mem_touched_end (Nat.not_lt.2 hge)).2 hlt
      exact ⟨hk, not_not.1 fun h0 =>
        Nat.not_lt.2 hge ((hh.exact k (touched_lt hmax hk)).1 h0)⟩
  rw [hset, Nat.card_Ico]
  exact Nat.sub_add_cancel (slots_mono (Nat.le_add_right ..))

theorem Holds.append (hh : Holds s i t data) (hmax : data.length + p.length ≤ MAXFILE * BSIZE)
    (hw : WroteFile i ((s.view i (s.nodes i)).missing i (touched data.length p.length))
      data.length p (s.view i (s.nodes i)) (s'.view i (s'.nodes i))) :
    Holds s' i t (data ++ p) := by
  obtain ⟨addrs, hself⟩ := hw.self
  have hnode : s'.nodes i = { s.nodes i with
      addrs := addrs, size := data.length + p.length } := by
    have h1 := congrArg Inode.d hself
    rw [s'.view_ino, s.view_node, hh.size, Nat.max_eq_right (Nat.le_add_right ..)] at h1
    exact h1
  have hlen : (data ++ p).length = data.length + p.length := List.length_append
  refine ⟨hh.inum, hh.pos, by rw [hnode, ← hh.type], by rw [hnode, ← hh.nlink],
    by rw [hnode, hlen], hlen ▸ hmax, ?_, fun k hk => ?_⟩
  · rw [hlen]
    refine (bytes_append hmax fun o ho => ?_).trans (congrArg (· ++ p) hh.bytes)
    have := hw.self_byte o ho
    rwa [s.view_node, s'.view_node] at this
  · rw [hlen]
    have hkeep := hw.keep k hk
    have hfresh := hw.fresh k
    rw [s.view_node, s'.view_node] at hkeep hfresh
    by_cases h0 : k < slots data.length
    · have hne := (hh.exact k hk).2 h0
      have hnot : k ∉ (s.view i (s.nodes i)).missing i (touched data.length p.length) :=
        fun hm => hne (hfresh hm).2.1
      exact iff_of_true (fun hz => hne ((hkeep hnot).symm.trans hz))
        (h0.trans_le (slots_mono (Nat.le_add_right ..)))
    · have hz : ptr s.vdisk (s.nodes i) k = 0 := not_not.1 fun hne => h0 ((hh.exact k hk).1 hne)
      rw [← mem_touched_end h0]
      constructor
      · intro hne
        by_contra hnot
        refine hne ((hkeep fun hm => hnot (mem_filter.1 hm).1).trans hz)
      · intro hmem
        refine (hfresh (mem_filter.2 ⟨hmem, ?_⟩)).2.2
        rw [s.view_node]
        exact hz

theorem Holds.other {K : Finset Nat} {off : Nat} (hj : Holds s j t data) (hji : j ≠ i)
    (hw : WroteFile i K off p (s.view i (s.nodes i)) (s'.view i (s'.nodes i))) :
    Holds s' j t data := by
  have hnode : s'.nodes j = s.nodes j := by
    have := hw.dinode j hj.inum
    rw [if_neg fun hc => hji hc.1] at this
    rw [← s.nodes_vdisk hj.inum, ← s'.nodes_vdisk hj.inum]
    exact this
  have hlive : Live sb (s.view i (s.nodes i)).cur j := by
    refine ⟨hj.inum, ?_⟩
    rw [s.view_cur hj.inum]
    exact hj.live.2
  have hcur := s.view_cur (i := i) hj.inum
  have hcur' := s'.view_cur (i := i) hj.inum
  refine ⟨hj.inum, hj.pos, by rw [hnode, hj.type], by rw [hnode, hj.nlink], by rw [hnode, hj.size],
    hj.max, ?_, fun k hk => ?_⟩
  · refine Eq.trans (List.map_congr_left fun o ho => ?_) hj.bytes
    have := hw.other_byte j hji hlive (0 + o) ?_
    · rwa [hcur, hcur'] at this
    · have := hj.max
      rw [List.mem_range] at ho
      exact Nat.div_lt_of_lt_mul (by rw [Nat.mul_comm]; omega)
  · have := hw.other j hji hlive k hk
    rw [hcur, hcur'] at this
    rw [← hj.exact k hk]
    exact not_congr (Eq.congr_left this)

theorem iappend_holds (h : Inv s) (hh : Holds s i t data) (hp : p ≠ []) : Ends (iappend i p) s
      (fun _ s' => Inv s' ∧ s'.freeinode = s.freeinode ∧ Holds s' i t (data ++ p) ∧
        (∀ j t data, j ≠ i → Holds s j t data → Holds s' j t data) ∧
        s'.freeblock + slots data.length = s.freeblock + slots (data.length + p.length))
      (fun _ => MAXFILE * BSIZE < data.length + p.length ∨
        FSSIZE + slots data.length < s.freeblock + slots (data.length + p.length)) := by
  have hg := h.good hh
  have hspec := iappend_spec h.toBase hg hp
  rw [hh.size] at hspec
  refine hspec.mono ?_ ?_
  · rintro _ s' ⟨hino, hb', hg', hmax, hw⟩
    have hfree := hw.free
    have hcard := hh.missing_card hmax
    have h1 := h.free (i := i) (d := s.nodes i)
    have h2 := hb'.free (i := i) (d := s'.nodes i)
    refine ⟨⟨hb', ?_, ?_, fun j hj hlt => ?_⟩, hino, hh.append hmax hw,
      fun j t data hji hj => hj.other hji hw, by omega⟩
    · exact Owned.of_nodes hg'.owned geometry fun j hj => (s'.view_cur hj).symm
    · have hlow : s'.vdisk 1 = s.vdisk 1 := hw.low 1 (by decide : 1 < sb.inodestart)
      rw [State.vdisk_other (by decide), State.vdisk_other (by decide)] at hlow
      rw [hlow, h.super]
    · have hji : j ≠ i := by
        rintro rfl
        exact hh.live.2 (h.dead j (hino ▸ hj) hlt)
      have := hw.dinode j hlt
      rw [if_neg fun hc => hji hc.1] at this
      rw [← s'.nodes_vdisk hlt]
      refine (congrArg Dinode.type this).trans ?_
      have := h.dead j (hino ▸ hj) hlt
      rwa [← s.nodes_vdisk hlt] at this
  · rintro - (hmax | hfree)
    · exact .inl hmax
    · by_cases hmax : data.length + p.length ≤ MAXFILE * BSIZE
      · have hcard := hh.missing_card hmax
        have h1 := h.free (i := i) (d := s.nodes i)
        exact .inr (by omega)
      · exact .inl (Nat.not_le.1 hmax)

def newNode (t : Nat) : Dinode := { Dinode.zero with type := t, nlink := 1 }

theorem newNode_fits (ht : t < 2 ^ 16) : (newNode t).Fits :=
  ⟨ht, Nat.two_pow_pos 16, Nat.two_pow_pos 16, (by decide : 1 < 2 ^ 16), Nat.two_pow_pos 32,
    fun _ => Nat.two_pow_pos 32, fun _ _ => rfl⟩

theorem ptr_newNode {disk : Disk} {k : Nat} : ptr disk (newNode t) k = 0 := by
  unfold ptr
  split <;> rfl

def State.alloc (s : State) (t : Nat) : State :=
  { s with freeinode := s.freeinode + 1 }.setNode s.freeinode (newNode t)

theorem ialloc_run (h : s.nsect = FSSIZE) (hlt : s.freeinode < sb.ninodes) :
    ialloc t s = .ok (s.freeinode, s.alloc t) := by
  rw [ialloc, bind_run get_run, bind_run modify_run,
    bind_run (winode_run (s := { s with freeinode := s.freeinode + 1 }) h hlt)]
  rfl

theorem State.alloc_nodes (s : State) (ht : t < 2 ^ 16) :
    (s.alloc t).nodes j = if j = s.freeinode then newNode t else s.nodes j :=
  State.setNode_nodes _ (newNode_fits ht)

theorem State.alloc_vdisk (s : State) (hlt : s.freeinode < sb.ninodes) :
    (s.alloc t).vdisk = updateDisk sb s.vdisk s.freeinode (newNode t) :=
  State.setNode_vdisk _ hlt

theorem Inv.dead_self (h : Inv s) : ¬ Live sb s.nodes s.freeinode := fun hl =>
  hl.2 (h.dead _ (Nat.le_refl _) hl.1)

theorem Inv.alloc (h : Inv s) (hlt : s.freeinode < sb.ninodes) (ht : t < 2 ^ 16) :
    Inv (s.alloc t) where
  toBase := (⟨h.nsect, h.low, h.high, h.zero⟩ : Base { s with freeinode := s.freeinode + 1 }).setNode
    hlt
  owned := by
    have hother : ∀ j ≠ s.freeinode, (s.alloc t).nodes j = s.nodes j := fun j hj => by
      rw [s.alloc_nodes ht, if_neg hj]
    have hself : (s.alloc t).nodes s.freeinode = newNode t := by
      rw [s.alloc_nodes ht, if_pos rfl]
    have hne : ∀ j, Live sb s.nodes j → j ≠ s.freeinode := by
      rintro j hj rfl
      exact h.dead_self hj
    rw [s.alloc_vdisk hlt]
    refine h.owned.add geometry (i := s.freeinode) (fun j hj => ?_) (fun j hj => ?_) (fun l _ => ?_)
      (fun j l hji hj _ => ?_) h.dead_self fun x hx => used_updateDisk geometry hlt hx
    · by_cases hji : j = s.freeinode
      · exact .inl hji
      · rw [Live, hother j hji] at hj
        exact .inr hj
    · rw [Live, hother j (hne j hj)]
      exact hj
    · rw [hself, ptr_newNode]
    · rw [hother j hji]
      exact h.owned.ptr_eq hj fun x hx => updateDisk_data geometry hlt hx
  super := (State.setNode_low _ (by decide)).trans h.super
  dead j hj hj' := by
    have hj : s.freeinode + 1 ≤ j := hj
    rw [s.alloc_nodes ht, if_neg (by omega)]
    exact h.dead j (by omega) hj'

theorem Holds.alloc_self (hlt : s.freeinode < sb.ninodes) (ht : t < 2 ^ 16) (h0 : t ≠ 0) :
    Holds (s.alloc t) s.freeinode t [] := by
  have hnode : (s.alloc t).nodes s.freeinode = newNode t := by rw [s.alloc_nodes ht, if_pos rfl]
  refine ⟨hlt, h0, by rw [hnode]; rfl, by rw [hnode]; rfl, by rw [hnode]; rfl, Nat.zero_le _, rfl,
    fun k _ => ?_⟩
  rw [hnode, ptr_newNode]
  exact iff_of_false (fun h => h rfl) (Nat.not_lt_zero _)

theorem Holds.alloc (h : Inv s) (hlt : s.freeinode < sb.ninodes) (ht : t < 2 ^ 16)
    (hj : Holds s j i data) : Holds (s.alloc t) j i data := by
  have hnode : (s.alloc t).nodes j = s.nodes j := by
    rw [s.alloc_nodes ht, if_neg]
    rintro rfl
    exact h.dead_self hj.live
  have hdata : ∀ x, sb.IsData x → (s.alloc t).vdisk x = s.vdisk x := fun x hx => by
    rw [s.alloc_vdisk hlt, updateDisk_data geometry hlt hx]
  exact hj.congr h.owned hnode hdata

end

/-! ## The loop over the files -/

def readData : List (List UInt8) → List UInt8
  | [] => []
  | buf :: reads => if buf = [] then [] else buf ++ readData reads

def Input.data (f : Input) : List UInt8 := readData f.reads

def entries (files : List Input) : List (Nat × List UInt8) :=
  (ROOTINO, [DOT]) :: (ROOTINO, [DOT, DOT]) :: (files.zipIdx 2).map fun x => (x.2, x.1.file)

def rootData (files : List Input) : List UInt8 := (entries files).flatMap fun e => putDirent e.1 e.2

def imageBlocks (files : List Input) : Nat :=
  nmeta + slots (DIRENTSIZE * (files.length + 2)) + (files.map fun f => slots f.data.length).sum

/-- The state of `mkfs` after the files. -/
structure Files (s : State) (files : List Input) : Prop where
  inv : Inv s
  freeinode : s.freeinode = files.length + 2
  root : Holds s ROOTINO T_DIR (rootData files)
  file : ∀ k f, files[k]? = some f → Holds s (k + 2) T_FILE f.data
  freeblock : s.freeblock = imageBlocks files
  slash : ∀ f ∈ files, SLASH ∉ f.name

theorem add_two_ne_root {k : Nat} : k + 2 ≠ ROOTINO := by
  unfold ROOTINO
  omega

theorem length_rootData {files : List Input} :
    (rootData files).length = DIRENTSIZE * (files.length + 2) := by
  have hall : ∀ l : List (Nat × List UInt8),
      (l.flatMap fun e => putDirent e.1 e.2).length = DIRENTSIZE * l.length := by
    intro l
    induction l with
    | nil => rfl
    | cons e l ih =>
      rw [List.flatMap_cons, List.length_append, length_putDirent, ih, List.length_cons]
      ring
  rw [rootData, hall, entries, List.length_cons, List.length_cons, List.length_map,
    List.length_zipIdx]

theorem rootData_append {files : List Input} {f : Input} :
    rootData (files ++ [f]) = rootData files ++ putDirent (files.length + 2) f.file := by
  simp only [rootData, entries, List.zipIdx_append, List.map_append, List.zipIdx_singleton,
    List.map_cons, List.map_nil, List.flatMap_cons, List.flatMap_append, List.flatMap_nil,
    List.append_nil, List.append_assoc, Nat.add_comm 2]

theorem imageBlocks_le {files files' : List Input} :
    imageBlocks files ≤ imageBlocks (files ++ files') := by
  unfold imageBlocks
  rw [List.map_append, List.sum_append, List.length_append]
  have : slots (DIRENTSIZE * (files.length + 2)) ≤
      slots (DIRENTSIZE * (files.length + files'.length + 2)) :=
    slots_mono (Nat.mul_le_mul_left _ (by omega))
  omega

theorem imageBlocks_append {files : List Input} {f : Input} :
    imageBlocks (files ++ [f]) = nmeta + slots (DIRENTSIZE * (files.length + 2) + DIRENTSIZE) +
      (files.map fun f => slots f.data.length).sum + slots f.data.length := by
  rw [imageBlocks, List.map_append, List.sum_append, List.length_append, List.length_singleton,
    ← Nat.mul_add_one, List.map_singleton, List.sum_singleton, Nat.add_right_comm files.length]
  omega

section
variable {s s' : State} {i t : Nat} {data : List UInt8} {files : List Input} {f : Input}

theorem copyIn_holds (reads : List (List UInt8)) (h : Inv s) (hh : Holds s i t data) :
    Ends (copyIn i reads) s
      (fun _ s' => Inv s' ∧ s'.freeinode = s.freeinode ∧ Holds s' i t (data ++ readData reads) ∧
        (∀ j t data, j ≠ i → Holds s j t data → Holds s' j t data) ∧
        s'.freeblock + slots data.length = s.freeblock + slots (data.length + (readData reads).length))
      (fun _ => MAXFILE * BSIZE < data.length + (readData reads).length ∨
        FSSIZE + slots data.length < s.freeblock + slots (data.length + (readData reads).length)) := by
  induction reads generalizing s data with
  | nil =>
    rw [copyIn, readData, List.append_nil]
    exact .of_pure ⟨h, rfl, hh, fun _ _ _ _ hj => hj, rfl⟩
  | cons buf reads ih =>
    rw [copyIn, readData]
    refine .ite (fun h0 => ?_) fun h0 => ?_
    · rw [if_pos h0, List.append_nil]
      exact .of_pure ⟨h, rfl, hh, fun _ _ _ _ hj => hj, rfl⟩
    rw [if_neg h0, List.length_append]
    have hmono : slots (data.length + buf.length) ≤
        slots (data.length + (buf.length + (readData reads).length)) := slots_mono (by omega)
    refine .bind ((iappend_holds h hh h0).weaken fun _ he => ?_) ?_
    · omega
    rintro _ s1 ⟨h1, hi1, hh1, hother1, hb1⟩
    have := ih h1 hh1
    rw [List.length_append, List.append_assoc, Nat.add_assoc] at this
    refine this.mono ?_ fun _ he => ?_
    · rintro _ s2 ⟨h2, hi2, hh2, hother2, hb2⟩
      exact ⟨h2, hi2.trans hi1, hh2, fun j t data hj hd => hother2 j t data hj (hother1 j t data hj hd),
        by omega⟩
    · omega

theorem addFile_files (h : Files s files) (hlt : files.length + 2 < NINODES) :
    Ends (addFile ROOTINO f) s (fun _ s' => Files s' (files ++ [f]))
      (fun _ => SLASH ∈ f.name ∨ MAXFILE * BSIZE < f.data.length ∨
        FSSIZE < imageBlocks (files ++ [f])) := by
  have hlt' : s.freeinode < sb.ninodes := h.freeinode ▸ hlt
  have hT : T_FILE < 2 ^ 16 := by decide
  have hroot : (rootData files).length = DIRENTSIZE * (files.length + 2) := length_rootData
  have hfree := h.freeblock
  rw [imageBlocks] at hfree
  rw [imageBlocks_append, addFile]
  refine .ite (fun hs => .throws (.inl hs)) fun hs => .run (ialloc_run h.inv.nsect hlt') ?_
  have h1 := h.inv.alloc hlt' hT
  have hself : Holds (s.alloc T_FILE) s.freeinode T_FILE [] := .alloc_self hlt' hT (by decide)
  have hne : putDirent s.freeinode f.file ≠ [] := List.cons_ne_nil _ _
  have happ := iappend_holds h1 (h.root.alloc h.inv hlt' hT) hne
  rw [length_putDirent, hroot] at happ
  have hfree1 : (s.alloc T_FILE).freeblock = s.freeblock := rfl
  refine .bind (happ.weaken fun _ he => ?_) ?_
  · rcases he with he | he
    · have : DIRENTSIZE * (files.length + 2) + DIRENTSIZE ≤ MAXFILE * BSIZE := by
        unfold NINODES at hlt
        unfold DIRENTSIZE MAXFILE NDIRECT NINDIRECT BSIZE
        omega
      omega
    · exact .inr (.inr (by omega))
  rintro _ s2 ⟨h2, hi2, hroot2, hother2, hb2⟩
  have hnr : s.freeinode ≠ ROOTINO := by
    rw [h.freeinode]
    exact add_two_ne_root
  have hzero : slots 0 = 0 := rfl
  have hdata : readData f.reads = f.data := rfl
  have hcopy := copyIn_holds f.reads h2 (hother2 _ _ _ hnr hself)
  rw [List.nil_append, List.length_nil, Nat.zero_add, hdata] at hcopy
  refine hcopy.mono ?_ fun _ he => ?_
  · rintro _ s3 ⟨h3, hi3, hself3, hother3, hb3⟩
    have hino : s3.freeinode = files.length + 2 + 1 := by
      rw [hi3, hi2, ← h.freeinode]
      rfl
    refine ⟨h3, ?_, ?_, fun k g hk => ?_, ?_, fun g hg => ?_⟩
    · rw [hino, List.length_append, List.length_singleton]
    · rw [rootData_append, ← h.freeinode]
      exact hother3 _ _ _ hnr.symm hroot2
    · by_cases hlast : k < files.length
      · rw [List.getElem?_append_left hlast] at hk
        have hk1 := (h.file k g hk).alloc h.inv hlt' hT
        have hk2 := hother2 _ _ _ add_two_ne_root hk1
        exact hother3 _ _ _ (by rw [h.freeinode]; omega) hk2
      · have hk' := (List.getElem?_eq_some_iff.1 hk).1
        rw [List.length_append, List.length_singleton] at hk'
        obtain rfl : k = files.length := by omega
        rw [List.getElem?_concat_length] at hk
        obtain rfl := Option.some.inj hk
        rw [← h.freeinode]
        exact hself3
    · rw [imageBlocks_append]
      omega
    · rcases List.mem_append.1 hg with hg | hg
      · exact h.slash g hg
      · obtain rfl := List.mem_singleton.1 hg
        exact hs
  · rcases he with he | he
    · exact .inr (.inl he)
    · exact .inr (.inr (by omega))

theorem addFiles_files {done : List Input} (h : Files s done)
    (hlt : done.length + files.length + 2 ≤ NINODES) :
    Ends (addFiles ROOTINO files) s (fun _ s' => Files s' (done ++ files))
      (fun _ => (∃ f ∈ files, SLASH ∈ f.name ∨ MAXFILE * BSIZE < f.data.length) ∨
        FSSIZE < imageBlocks (done ++ files)) := by
  induction files generalizing s done with
  | nil =>
    rw [addFiles, List.append_nil]
    exact .of_pure h
  | cons f files ih =>
    rw [List.length_cons] at hlt
    rw [addFiles, List.append_cons]
    refine .bind ((addFile_files h (by omega)).weaken fun _ he => ?_) fun _ s1 h1 => ?_
    · rcases he with he | he | he
      · exact .inl ⟨f, List.mem_cons_self .., .inl he⟩
      · exact .inl ⟨f, List.mem_cons_self .., .inr he⟩
      · exact .inr (he.trans_le imageBlocks_le)
    · refine (ih h1 (by rw [List.length_append, List.length_singleton]; omega)).mono (fun _ _ => id) ?_
      rintro - (⟨g, hg, he⟩ | he)
      · exact .inl ⟨g, List.mem_cons_of_mem _ hg, he⟩
      · exact .inr he

end

/-! ## The program -/

def blank : State :=
  { start with nsect := FSSIZE, disk := update start.disk 1 (putSuper (fill 0) sb) }

theorem zeroes_run {n : Nat} : zeroes n start = .ok ((), { start with nsect := n }) := by
  induction n with
  | zero => rfl
  | succ n ih =>
    have hdisk : update start.disk n (fill 0) = start.disk := update_eq_self ..
    have hmax : max n (n + 1) = n + 1 := by omega
    rw [zeroes, bind_run ih, wsect, modify_run, hmax, hdisk]

theorem blank_disk : blank.disk = update start.disk 1 (putSuper (fill 0) sb) := rfl

theorem blank_block {b : Nat} (h : b ≠ 1) : blank.disk b = fill 0 := by
  rw [blank_disk, update_of_ne h]
  rfl

theorem blank_nodes {j : Nat} : (blank.nodes j).type = 0 := by
  have hle : sb.inodestart ≤ sb.iblock j := Nat.le_add_left ..
  have hne : sb.iblock j ≠ 1 := Nat.ne_of_gt (Nat.lt_of_lt_of_le (by decide) hle)
  rw [State.nodes, dinode, blank_block hne]
  rfl

theorem blank_inv : Inv blank where
  nsect := rfl
  low := Nat.le_refl _
  high := by decide
  zero b hb := blank_block (Nat.ne_of_gt (Nat.lt_of_lt_of_le (by decide) hb))
  owned := by
    have hdead : ∀ j, ¬ Live sb blank.nodes j := fun j hj => hj.2 blank_nodes
    refine ⟨fun j _ hj => (hdead j hj).elim, fun j _ _ _ hj => (hdead j hj).elim, fun b hb => ?_,
      fun b hb => ?_⟩
    · rw [blank.used_vdisk hb.2, decide_eq_true_eq]
      exact iff_of_false (Nat.not_lt.2 hb.1) fun ⟨j, _, hj, _⟩ => hdead j hj
    · rw [blank.used_vdisk (hb.trans_le geometry.data), decide_eq_true_eq]
      exact hb
  super := by rw [blank_disk, update_self]
  dead _ _ _ := blank_nodes

/-- The image when `mkfs` exits. -/
structure Image (s : State) (files : List Input) : Prop where
  super : getSuper (s.disk 1) = sb
  freeinode : s.freeinode = files.length + 2
  freeblock : s.freeblock = imageBlocks files
  fits : imageBlocks files ≤ FSSIZE
  owned : Owned sb s.disk s.nodes
  dead : ∀ j, files.length + 2 ≤ j → j < sb.ninodes → (s.nodes j).type = 0
  rootType : (s.nodes ROOTINO).type = T_DIR
  rootLink : (s.nodes ROOTINO).nlink = 1
  rootSize : (s.nodes ROOTINO).size = (DIRENTSIZE * (files.length + 2) / BSIZE + 1) * BSIZE
  rootBytes : bytes s.disk (s.nodes ROOTINO) 0 (DIRENTSIZE * (files.length + 2)) = rootData files
  rootPtr : ∀ k < NSLOT, ptr s.disk (s.nodes ROOTINO) k ≠ 0 ↔
    k < slots (DIRENTSIZE * (files.length + 2))
  disk : s.vdisk = s.disk
  slash : ∀ f ∈ files, SLASH ∉ f.name
  file : ∀ k f, files[k]? = some f → Holds s (k + 2) T_FILE f.data

section
variable {s : State} {files : List Input}

theorem iappend_root {data p : List UInt8} (h : Inv s) (hh : Holds s ROOTINO T_DIR data)
    (hp : p.length = DIRENTSIZE) (hsmall : data.length + p.length ≤ BSIZE)
    (hfree : s.freeblock ≤ nmeta + 1) : Ends (iappend ROOTINO p) s
      (fun _ s' => Inv s' ∧ s'.freeinode = s.freeinode ∧ Holds s' ROOTINO T_DIR (data ++ p) ∧
        s'.freeblock + slots data.length = s.freeblock + slots (data.length + p.length))
      (fun _ => False) := by
  have hne : p ≠ [] := by
    rintro rfl
    cases hp
  refine (iappend_holds h hh hne).mono ?_ ?_
  · rintro _ s' ⟨h1, h2, h3, -, h4⟩
    exact ⟨h1, h2, h3, h4⟩
  · have hle := slots_mono hsmall
    have h1 : slots BSIZE = 1 := rfl
    have h2 : nmeta = 59 := rfl
    have h3 : FSSIZE = 1000 := rfl
    have h4 : MAXFILE * BSIZE = 71680 := rfl
    have h5 : BSIZE = 512 := rfl
    omega

theorem Files.finish (h : Files s files) :
    ∃ s', (do
      fixRoot ROOTINO
      balloc (← get).freeblock) s = .ok ((), s') ∧ Image s' files := by
  have hi : ROOTINO < sb.ninodes := h.root.inum
  have hsize : (s.nodes ROOTINO).size = DIRENTSIZE * (files.length + 2) :=
    h.root.size.trans length_rootData
  generalize hd : ({ s.nodes ROOTINO with
    size := ((s.nodes ROOTINO).size / BSIZE + 1) * BSIZE } : Dinode) = d
  have hfits : d.Fits := by
    have hn : (s.nodes ROOTINO).Fits := fits_getDinode
    have hmax := h.root.max
    rw [length_rootData] at hmax
    have hlt : d.size < 2 ^ 32 := by
      rw [← hd]
      show ((s.nodes ROOTINO).size / BSIZE + 1) * BSIZE < 2 ^ 32
      rw [hsize, Nat.add_mul, Nat.one_mul]
      have h1 := Nat.div_mul_le_self (DIRENTSIZE * (files.length + 2)) BSIZE
      have h2 : MAXFILE * BSIZE + BSIZE < 2 ^ 32 := by decide
      omega
    subst hd
    exact ⟨hn.type, hn.major, hn.minor, hn.nlink, hlt, hn.addrs, hn.last⟩
  have hfix : fixRoot ROOTINO s = .ok ((), s.setNode ROOTINO d) := by
    rw [fixRoot, bind_run (rinode_run h.inv.nsect hi), hd, winode_run h.inv.nsect hi]
  have hb := h.inv.toBase.setNode (d := d) hi
  have hballoc : balloc s.freeblock (s.setNode ROOTINO d) =
      .ok ((), (s.setNode ROOTINO d).setBlock sb.bmapstart (bitmap s.freeblock)) := by
    rw [balloc, if_neg (not_not.2 (Nat.lt_of_le_of_lt h.inv.high (by decide)))]
    exact wsect_run hb.nsect (by decide)
  refine ⟨(s.setNode ROOTINO d).setBlock sb.bmapstart (bitmap s.freeblock), ?_, ?_⟩
  · rw [bind_run hfix, bind_run get_run]
    exact hballoc
  generalize hs' : (s.setNode ROOTINO d).setBlock sb.bmapstart (bitmap s.freeblock) = s'
  have hdisk : s'.disk = updateDisk sb s.vdisk ROOTINO d := by
    rw [← s.setNode_vdisk hi, ← hs']
    rfl
  have hvdisk : s'.vdisk = s'.disk := by
    rw [State.vdisk, ← hs']
    exact update_idem ..
  have hnodes : ∀ j < sb.ninodes, s'.nodes j = if j = ROOTINO then d else s.nodes j := by
    intro j hj
    rw [State.nodes, hdisk, dinode_updateDisk hfits, s.nodes_vdisk hj]
  have hroot : s'.nodes ROOTINO = d := by rw [hnodes _ hi, if_pos rfl]
  have hdata : ∀ x, sb.IsData x → s'.disk x = s.vdisk x := by
    intro x hx
    rw [hdisk, updateDisk_data geometry hi hx]
  have hother : ∀ j < sb.ninodes, (s'.nodes j).type = (s.nodes j).type ∧
      (s'.nodes j).addrs = (s.nodes j).addrs := by
    intro j hj
    rw [hnodes j hj]
    split
    · subst_vars
      exact ⟨rfl, rfl⟩
    · exact ⟨rfl, rfl⟩
  have hptr : ∀ j l, Live sb s.nodes j → ptr s'.disk (s'.nodes j) l = ptr s.vdisk (s.nodes j) l :=
    fun j l hj => (ptr_of_addrs (hother j hj.1).2).trans (h.inv.owned.ptr_eq hj hdata)
  exact {
    super := by
      have hle : sb.inodestart ≤ sb.iblock ROOTINO := Nat.le_add_left ..
      have hne : 1 ≠ sb.iblock ROOTINO := Nat.ne_of_lt (Nat.lt_of_lt_of_le (by decide) hle)
      rw [hdisk, updateDisk_other hne, State.vdisk_other (by decide), h.inv.super,
        getSuper_putSuper geometry.fits]
    freeinode := by
      rw [← h.freeinode, ← hs']
      rfl
    freeblock := by
      rw [← h.freeblock, ← hs']
      rfl
    fits := h.freeblock ▸ h.inv.high
    owned := by
      refine h.inv.owned.congr geometry (fun j => and_congr_right fun hj => ?_)
        (fun j l hj _ => hptr j l hj) fun x hx => ?_
      · rw [(hother j hj).1]
      · rw [hdisk, used_updateDisk geometry hi hx]
    dead := fun j hj hlt => by
      rw [(hother j hlt).1]
      exact h.inv.dead j (h.freeinode ▸ hj) hlt
    rootType := by rw [(hother _ hi).1, h.root.type]
    rootLink := by
      rw [hroot, ← hd]
      exact h.root.nlink
    rootSize := by rw [hroot, ← hd, hsize]
    rootBytes := by
      have hb := h.root.bytes
      rw [length_rootData] at hb
      refine Eq.trans (List.map_congr_left fun o ho => ?_) hb
      rw [← h.inv.owned.byte_eq h.root.live hdata, byte, byte, ptr_of_addrs (hother _ hi).2]
      have := h.root.max
      rw [length_rootData] at this
      rw [List.mem_range] at ho
      exact Nat.div_lt_of_lt_mul (by rw [Nat.mul_comm]; omega)
    rootPtr := fun k hk => by
      rw [hptr _ k h.root.live, h.root.exact k hk, length_rootData]
    disk := hvdisk
    slash := h.slash
    file := fun k f hk => by
      have hj := h.file k f hk
      refine hj.congr h.inv.owned ?_ fun x hx => ?_
      · rw [hnodes _ hj.inum, if_neg add_two_ne_root]
      · rw [hvdisk, hdata x hx] }

def Bad (files : List Input) : Prop :=
  (∃ f ∈ files, SLASH ∈ f.name ∨ MAXFILE * BSIZE < f.data.length) ∨ FSSIZE < imageBlocks files

/-- **`mkfs`** of as many files as there are inodes makes the image unless a file or the disk is too
small. -/
theorem main_image (hlt : files.length + 2 ≤ NINODES) :
    Ends (main files) start (fun _ s => Image s files) (fun _ => Bad files) := by
  have hT : T_DIR < 2 ^ 16 := by decide
  have hroot : Holds (blank.alloc T_DIR) ROOTINO T_DIR [] :=
    Holds.alloc_self (s := blank) (by decide) hT (by decide)
  have hwsect : wsect 1 (putSuper (fill 0) sb) { start with nsect := FSSIZE } = .ok ((), blank) :=
    rfl
  rw [main]
  refine .run zeroes_run (.run hwsect (.run (ialloc_run blank_inv.nsect (by decide)) ?_))
  refine .ite (fun hne => absurd rfl hne) fun _ => ?_
  refine .bind ((iappend_root (blank_inv.alloc (by decide) hT) hroot length_putDirent (by decide)
    (Nat.le_succ _)).weaken fun _ => False.elim) ?_
  rintro _ s1 ⟨hs1, hi1, hr1, hb1⟩
  refine .bind ((iappend_root hs1 hr1 length_putDirent (by decide) ?_).weaken
    fun _ => False.elim) ?_
  · rw [length_putDirent] at hb1
    have : s1.freeblock + 0 = nmeta + 1 := hb1
    omega
  rintro _ s2 ⟨hs2, hi2, hr2, hb2⟩
  have hfiles : Files s2 [] := by
    refine ⟨hs2, hi2.trans hi1, hr2, fun k f hk => (by cases hk), ?_, fun f hf => (by cases hf)⟩
    rw [List.length_append, length_putDirent, length_putDirent] at hb2
    rw [length_putDirent] at hb1
    have h1 : s1.freeblock + 0 = nmeta + 1 := hb1
    have h2 : s2.freeblock + 1 = s1.freeblock + 1 := hb2
    have h3 : imageBlocks [] = nmeta + 1 := rfl
    omega
  refine .bind ((addFiles_files hfiles (by rw [List.length_nil]; omega)).weaken fun _ => id)
    fun _ s3 hs3 => ?_
  obtain ⟨s4, hrun, h4⟩ := Files.finish hs3
  exact .of_ok hrun h4

theorem main_returns (hlt : files.length + 2 ≤ NINODES) (hgood : ¬ Bad files) :
    ∃ s, main files start = .ok ((), s) ∧ Image s files := by
  obtain ⟨_, s, hrun, himage⟩ := (main_image hlt).returns fun _ h => hgood h
  exact ⟨s, hrun, himage⟩

end

def letter (k : Nat) : UInt8 := UInt8.ofNat (97 + k % 26)

theorem toNat_letter {k : Nat} : (letter k).toNat = 97 + k % 26 := by
  rw [letter, UInt8.toNat_ofNat']
  omega

def Input.letters (k : Nat) (reads : List (List UInt8)) : Input where
  name := [letter (k / 26), letter k]
  nul := by
    have hne : ∀ k, (0 : UInt8) ≠ letter k := by
      intro k h
      have : 0 = 97 + k % 26 := (congrArg UInt8.toNat h).trans toNat_letter
      omega
    rw [List.mem_cons, List.mem_singleton]
    exact not_or.2 ⟨hne _, hne _⟩
  reads := reads

end Mkfs

end Fs
