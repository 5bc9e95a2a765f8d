import Xv6.Fs.Proof.Path
import Xv6.Vm.Proof.Stack

/-!
# Outcomes of `exec`

Reading a file delivers its contents, whether or not it has holes, so the loops of `exec` that read it
do what those of `Vm` do on an `Image` (`Follows`). `exec` fails and the process is as it was (`Failed`),
or the process has the memory that the file and the arguments describe (`Replaced`).
-/

namespace Exec

open Bytes Panic Param Function Vm Fs

/-! ## The file as an image -/

def Bounded (devsw : Devsw) : Prop :=
  ∀ k f, devsw.read k = some f → ∀ n bs, f n = some bs → bs.length ≤ n

def contents (s : State) (ip off n : Nat) : Option (List UInt8) :=
  if (s.cur ip).type = T_DEV then
    match s.devsw.read (s.cur ip).major with
    | some f => if (s.cur ip).major < NDEV then f n else none
    | none => none
  else if (s.cur ip).size < off ∨ 2 ^ 32 ≤ off + n then none
  else some (bytes s.disk (s.cur ip) off (min n ((s.cur ip).size - off)))

theorem length_contents {s : State} {ip off n : Nat} {bs : List UInt8} (hb : Bounded s.devsw)
    (h : contents s ip off n = some bs) : bs.length ≤ n := by
  unfold contents at h
  split at h
  · split at h
    · rename_i f hf
      split at h
      · exact hb _ f hf n bs h
      · cases h
    · cases h
  · split at h
    · cases h
    · cases h
      rw [length_bytes]
      exact Nat.min_le_left ..

def image (s : State) (ip : Nat) (hb : Bounded s.devsw) : Image where
  read := contents s ip
  read_le _ _ _ h := length_contents hb h

/-- In `fs`, the inode `ip` is locked and has the contents that it has in `s`. -/
structure FileOf (s : State) (ip : Nat) (fs : State) : Prop extends Good fs ip where
  devsw : fs.devsw = s.devsw
  type : (fs.node ip).type = (s.cur ip).type
  major : (fs.node ip).major = (s.cur ip).major
  size : (fs.node ip).size = (s.cur ip).size
  byte : ∀ o, o / BSIZE < MAXFILE →
    byte fs.disk (fs.node ip) o = byte s.disk (s.cur ip) o

theorem readi_file {s fs : State} {ip off n : Nat} (h : FileOf s ip fs) (hoff : off < 2 ^ 32)
    (hn : n < 2 ^ 32) : Ends (readi ip off n) fs
      (fun r fs' => r = contents s ip off n ∧ FileOf s ip fs' ∧ SameRefs fs fs') fun _ => True := by
  have hrefs : ∀ r fs', readi ip off n fs = .ok (r, fs') → SameRefs fs fs' := fun _ _ hrun =>
    (keeps_readi fs).ok hrun
  by_cases hdev : (s.cur ip).type = T_DEV
  · have hrun : readi ip off n fs = .ok (contents s ip off n, fs) := by
      rw [readi, bind_run get_run, contents, h.type, h.major, h.devsw, if_pos hdev, if_pos hdev]
      cases s.devsw.read (s.cur ip).major with
      | none => rfl
      | some f => rfl
    exact .of_ok hrun ⟨rfl, h, .refl⟩
  · have hspec := readi_spec h.toGood (by rw [h.type]; exact hdev) hoff hn rfl
    cases hrun : readi ip off n fs with
    | error e => exact .of_error hrun trivial
    | ok q =>
      obtain ⟨r, fs'⟩ := q
      refine .of_ok hrun ?_
      rw [contents, if_neg hdev, ← h.size]
      rcases hspec.ok hrun with ⟨hbad, rfl, rfl⟩ | ⟨hok, hmax, rfl, hg, hgrown⟩
      · exact ⟨(if_pos hbad).symm, h, .refl⟩
      · refine ⟨?_, ?_, hrefs _ _ hrun⟩
        · rw [if_neg hok]
          refine congrArg some (List.map_congr_left fun i hi => h.byte _ ?_)
          rw [List.mem_range] at hi
          exact (Nat.div_lt_iff_lt_mul (by decide)).2 (by omega)
        · refine ⟨hg, hgrown.rest.1.trans h.devsw, hgrown.toPointed.type.trans h.type, ?_,
            hgrown.toPointed.size.trans h.size, fun o ho => ?_⟩
          · obtain ⟨addrs, hself⟩ := hgrown.self
            rw [← h.major, State.node, hself]
          · rw [← h.byte o ho, ← hg.cur, ← h.toGood.cur]
            exact hgrown.bytes ip h.live o ho

/-! ## Running parts -/

section
variable {L : Layout} {M M' : Machine} {s : State} {p ip pg sz n i off addr offset : Nat}
  {img : Image} {α β : Type}

theorem onVm_run {m : KM α} {a : α} {k : Kernel} (h : m M.vm = .ok (a, k)) :
    onVm m M = .ok (a, { M with vm := k }) := by
  simp only [onVm, h]

theorem onVm_ok {m : KM α} {a : α} (h : onVm m M = .ok (a, M')) :
    ∃ k, m M.vm = .ok (a, k) ∧ M' = { M with vm := k } := by
  unfold onVm at h
  split at h
  · rename_i k hm
    cases h
    exact ⟨k, hm, rfl⟩
  · cases h

theorem onFs_ok {m : FsM α} {a : α} (h : onFs m M = .ok (a, M')) :
    ∃ fs, m M.fs = .ok (a, fs) ∧ M' = { M with fs := fs } := by
  unfold onFs at h
  split at h
  · rename_i fs hm
    cases h
    exact ⟨fs, hm, rfl⟩
  · cases h

/-- While the file is locked, `m'` does what `m` does to the memory, and keeps references and locks. -/
def Follows (s : State) (ip : Nat) (m' : XM α) (m : KM α) : Prop :=
  ∀ M a M', FileOf s ip M.fs → m' M = .ok (a, M') →
    ∃ k fs, m M.vm = .ok (a, k) ∧ M' = { M with vm := k, fs := fs } ∧ FileOf s ip fs ∧
      SameRefs M.fs fs

namespace Follows

theorem pure {a : α} : Follows s ip (Pure.pure a) (Pure.pure a) := by
  intro M b M' hf h
  obtain ⟨rfl, rfl⟩ := pure_ok.1 h
  exact ⟨M'.vm, M'.fs, rfl, rfl, hf, .refl⟩

theorem throw {m : KM α} {e : String} : Follows s ip (MonadExcept.throw e) m := by
  intro M b M' hf h
  cases h

theorem run {m : KM α} : Follows s ip ((reader ip).run m) (img.reader.run m) := by
  intro M a M' hf h
  obtain ⟨k, hk, rfl⟩ := onVm_ok h
  exact ⟨k, M.fs, hk, rfl, hf, .refl⟩

theorem bind {m' : XM α} {m : KM α} {f : α → XM β} {g : α → KM β} (h : Follows s ip m' m)
    (k : ∀ a, Follows s ip (f a) (g a)) : Follows s ip (m' >>= f) (m >>= g) := by
  intro M b M' hf hrun
  obtain ⟨a, M1, h1, h2⟩ := bind_ok.1 hrun
  obtain ⟨k1, fs1, hm, rfl, hf1, hr1⟩ := h M a M1 hf h1
  obtain ⟨k2, fs2, hg, rfl, hf2, hr2⟩ := k a _ b M' hf1 h2
  exact ⟨k2, fs2, (bind_run hm).trans hg, rfl, hf2, hr1.trans hr2⟩

theorem ite {c : Prop} [Decidable c] {m' n' : XM α} {m n : KM α} (h : Follows s ip m' m)
    (h' : Follows s ip n' n) : Follows s ip (if c then m' else n') (if c then m else n) := by
  split
  · exact h
  · exact h'

end Follows

section
variable (hi : img.read = contents s ip)
include hi

theorem readi_follows (hoff : off < 2 ^ 32) (hn : n < 2 ^ 32) :
    Follows s ip ((reader ip).readi off n) (img.reader.readi off n) := by
  intro M a M' hf h
  obtain ⟨fs, hrun, rfl⟩ := onFs_ok h
  obtain ⟨rfl, hf', hr⟩ := (readi_file hf hoff hn).ok hrun
  exact ⟨M.vm, fs, by rw [← hi]; rfl, rfl, hf', hr⟩

theorem readAll_follows (hoff : off < 2 ^ 32) (hn : n < 2 ^ 32) :
    Follows s ip ((reader ip).readAll off n) (img.reader.readAll off n) :=
  (readi_follows hi hoff hn).bind fun _ => .pure

theorem loadLoop_follows : Follows s ip
    (loadLoop pg addr (reader ip) offset sz n i) (loadLoop pg addr img.reader offset sz n i) := by
  induction n generalizing i with
  | zero => exact .pure
  | succ n ih =>
    rw [loadLoop, loadLoop]
    refine Follows.run.bind fun o => ?_
    cases o with
    | none => exact .throw
    | some q =>
      refine Follows.run.bind fun w => ?_
      have hm : (if sz - i < PGSIZE then sz - i else PGSIZE) < 2 ^ 32 := by
        unfold PGSIZE
        split <;> omega
      refine (readi_follows hi (Nat.mod_lt _ (by decide)) hm).bind fun o => ?_
      cases o with
      | none => exact .pure
      | some bs => exact Follows.run.bind fun _ => .ite .pure ih

theorem loaduvm_follows :
    Follows s ip (loaduvm pg addr (reader ip) offset sz) (loaduvm pg addr img.reader offset sz) :=
  .ite .throw (loadLoop_follows hi)

theorem loadSegs_follows (hoff : off < 2 ^ 32) :
    Follows s ip (loadSegs L pg (reader ip) n off sz) (loadSegs L pg img.reader n off sz) := by
  induction n generalizing off sz with
  | zero => exact .pure
  | succ n ih =>
    rw [loadSegs, loadSegs]
    refine (readAll_follows hi hoff (by decide)).bind fun o => ?_
    cases o with
    | none => exact .pure
    | some ph =>
      have hnext : (off + PROGHDR) % UINT < 2 ^ 32 := Nat.mod_lt _ (by decide)
      refine .ite (ih hnext) (.ite .pure (.ite .pure (Follows.run.bind fun sz' => ?_)))
      refine .ite .pure (.ite .pure ((loaduvm_follows hi).bind fun b => ?_))
      exact .ite (ih hnext) .pure

end

end

end Exec

/-! ## The old and the new directory -/

namespace Vm

open Bytes Panic Param Function

variable {L : Layout} {s s' s1 s2 : Kernel} {d pg p f : Nat}

theorem same_frames {m m' : Nat → Store} (h : ∀ f, 0 < dirUse m d f → m' f = m f) :
    SameDir m m' d ∧ ∀ va < KERNBASE, userByte m' d va = userByte m d va := by
  have hsame : SameDir m m' d := ⟨h d dirUse_self, fun i hi hp => h _ (dirUse_table hi hp)⟩
  refine ⟨hsame, fun va hva => ?_⟩
  have hz : va / PGSIZE < 2 ^ 19 := by unfold KERNBASE PGSIZE at *; omega
  have hframe : userFrame m' d va = userFrame m d va := by
    rw [userFrame_mapping hva, userFrame_mapping hva, hsame.mapping hz]
  unfold userByte
  rw [hframe]
  cases hf : userFrame m d va with
  | none => rfl
  | some f => rw [Option.map_some, Option.map_some, h f (dirUse_userFrame hva hf)]

theorem Trans.restored (ht : Trans s (fun _ => 0) s' fun _ => 0) (hh : s'.hist = s.hist)
    (ho : Own s (dirUse s.mem d)) : (∀ va < KERNBASE, userByte s'.mem d va = userByte s.mem d va) ∧
      ∀ f, s'.freelist.count f = s.freelist.count f := by
  refine ⟨(same_frames fun f hf => ht.mem f ?_).2, fun f => ?_⟩
  · have := ho.le_one f
    omega
  · have := ht.count f
    unfold pool at this
    rw [hh] at this
    omega

theorem replaced (ho : Own s (dirUse s.mem d)) (ht : Trans s (fun _ => 0) s1 (dirUse s1.mem pg))
    (hh : s1.hist = s.hist) {v : Proc}
    (hfree : freevm L (some d) { s1 with proc := update s1.proc p v } = .ok ((), s2)) :
    s2.proc = update s.proc p v ∧ s2.file = s.file ∧
      (∀ f, 0 < dirUse s1.mem pg f → s2.mem f = s1.mem f) ∧
      ∀ f, 0 < dirUse s.mem d f → s.freelist.count f = 0 ∧ s2.freelist.count f = 1 := by
  have hsame : SameDir s.mem s1.mem d := ht.same fun f hf => by
    have := ho.le_one f
    omega
  have h1 : Trans s (dirUse s.mem d) s1 (fun f => dirUse s1.mem d f + dirUse s1.mem pg f) :=
    (ht.frame (dirUse s.mem d)).congr (fun f => (Nat.zero_add _).symm) fun f => by
      rw [hsame.dirUse, Nat.add_comm]
  have ho1 := ho.trans h1
  obtain ⟨hh3, ht3⟩ := (freevm_ends
    ((ho1.mono fun f => Nat.le_add_right _ _).withProc (P := update s1.proc p v))).ok hfree
  have hhist : s2.hist = s.hist := hh3.trans hh
  refine ⟨?_, ht3.file.trans ht.file, fun f hf => ht3.mem f ?_, fun f hf => ?_⟩
  · rw [ht3.proc, ht.proc]
  · have := ho1.le_one f
    show pool s1 f + dirUse s1.mem d f = 0
    omega
  · have h2 := ho.le_one f
    have h3 : pool s1 f + dirUse s1.mem d f = pool s2 f + 0 := ht3.count f
    have h4 := ho1.le_one f
    have h5 := h1.count f
    rw [hsame.dirUse] at h3 h5
    have h6 : s2.hist.count (.leak f) = s.hist.count (.leak f) := by rw [hhist]
    unfold pool at *
    omega

end Vm

/-! ## `exec` -/

namespace Exec

open Bytes Panic Param Function Vm Fs

variable {L : Layout} {M M' : Machine} {p d ip pg sz sp : Nat} {path : List UInt8}
  {argv : List (List UInt8)}

def stackTop (segs : List Segment) : Nat := pgroundup (topOf segs 0) + 2 * PGSIZE

/-- `exec` up to the arguments: the end of the new memory, or none if it fails before. -/
def reaches (L : Layout) (img : Image) : KM (Option Nat) := do
  match img.readAll 0 ELFHDR with
  | none => return none
  | some elf =>
    if get32 elf 0 ≠ ELF_MAGIC then return none
    match ← setupkvm L with
    | none => return none
    | some pg =>
      match ← loadSegs L pg img.reader (get16 elf 44) (get32 elf 28) 0 with
      | none => return none
      | some sz =>
        let sz ← allocuvm L pg (pgroundup sz) ((pgroundup sz + 2 * PGSIZE) % UINT)
        return if sz = 0 then none else some sz

/-- A process `p` that calls `exec`: the pages of `d` have no other use, the file system is well
formed, and the path and the arguments are strings of user memory. -/
structure Caller (L : Layout) (M : Machine) (p d : Nat) (path : List UInt8)
    (argv : List (List UInt8)) : Prop where
  pgdir : (M.vm.proc p).pgdir = some d
  own : Own M.vm (dirUse M.vm.mem d)
  within : Within L M.vm (dirUse M.vm.mem d)
  fs : WellFormed M.fs
  cwd : M.fs.Cwd (M.cwd p)
  dev : Bounded M.fs.devsw
  path : 0 ∉ path
  argv : ∀ a ∈ argv, 0 ∉ a ∧ a.length < KERNBASE

/-- The condition on the arguments, if `exec` gets to them: each is put at an address with a page table,
up to the first that is not put into the stack page. -/
def Fits (L : Layout) (M : Machine) (p : Nat) (path : List UInt8) (argv : List (List UInt8))
    (hb : Bounded M.fs.devsw) : Prop :=
  ∀ ip, M.fs.resolve (pathStart (M.cwd p) path) (components path) = some ip →
    ∀ sz s, reaches L (image M.fs ip hb) M.vm = .ok (some sz, s) → Tame L sz sz argv

structure Settled (M M' : Machine) : Prop where
  outstanding : M'.outstanding = M.outstanding
  refs : SameRefs M.fs M'.fs

/-- `exec` failed, and nothing has changed for the caller. -/
structure Failed (M M' : Machine) (d : Nat) : Prop extends Settled M M' where
  proc : M'.vm.proc = M.vm.proc
  file : M'.vm.file = M.vm.file
  cwd : M'.cwd = M.cwd
  tf : M'.tf = M.tf
  name : M'.name = M.name
  memory : ∀ va < KERNBASE, userByte M'.vm.mem d va = userByte M.vm.mem d va
  free : ∀ f, M'.vm.freelist.count f = M.vm.freelist.count f

/-- The process `p` has a new directory `pg` with the program of `img`, and the frame of `main`. -/
structure Replaced (L : Layout) (M M' : Machine) (p d : Nat) (img : Image) (argv : List (List UInt8))
    (pg sz sp : Nat) : Prop extends Settled M M' where
  proc : M'.vm.proc = update M.vm.proc p { M.vm.proc p with pgdir := some pg, sz := sz }
  file : M'.vm.file = M.vm.file
  freed : ∀ f, 0 < dirUse M.vm.mem d f →
    M.vm.freelist.count f = 0 ∧ M'.vm.freelist.count f = 1
  elf : ∃ elf segs, img.readAll 0 ELFHDR = some elf ∧
    img.segments (get16 elf 44) (get32 elf 28) = some segs ∧ (∀ g ∈ segs, g.Valid) ∧
    sz = stackTop segs ∧ M'.tf = update M.tf p ⟨get32 elf 24, sp⟩ ∧
    ∃ s1 s2, Stacked s1.mem pg sz (layout segs fun _ => 0) ∧ Solo s1.mem pg ∧
      pushFrame L d pg sz argv s1 = .ok (some sp, s2) ∧
      Vm.Wrote s1 s2 pg (sz - PGSIZE) sz ∧
      ∀ f, 0 < dirUse s2.mem pg f → M'.vm.mem f = s2.mem f
  aligned : sp % 4 = 0
  framed : Framed M'.vm.mem pg sz sp argv

/-! ### Parts of the way -/

theorem release {fs1 fs fs' : State} (hfs : WellFormed M.fs)
    (h1 : Walk M.fs fs1 (single ip)) (h : SameRefs (fs1.lock ip) fs)
    (hrun : iunlockput ip fs = .ok ((), fs')) : SameRefs M.fs fs' := by
  have hl : (fs1.ino ip).locked = false := (h1.locked ip).trans (hfs.idle ip)
  have hrefs : Refs (fs1.lock ip) (fun _ => 0) fs fun _ => 0 := ⟨h.ref, h.locked⟩
  have h2 := (iunlockput_refs hl h1.ref_pos hrefs).ok hrun
  have h3 := (h1.toRefs.trans h2).congr (C := fun _ => 0) (D := fun _ => 0) fun j => by omega
  exact ⟨h3.ref, h3.locked⟩

theorem fileOf_lock {fs1 : State} (hfs : WellFormed M.fs) (hip : M.fs.Held ip)
    (h1 : Walk M.fs fs1 (single ip)) : FileOf M.fs ip (fs1.lock ip) := by
  have hnode : (fs1.lock ip).node ip = M.fs.cur ip := by rw [fs1.lock_node, h1.cur]
  refine ⟨h1.good hfs hip, h1.devsw, by rw [hnode], by rw [hnode], by rw [hnode], fun o _ => ?_⟩
  rw [hnode, show (fs1.lock ip).disk = M.fs.disk from h1.disk]

theorem beginOp_run : beginOp M = .ok ((), { M with outstanding := M.outstanding + 1 }) := rfl

theorem endOp_run : endOp M = .ok ((), { M with outstanding := M.outstanding - 1 }) := rfl

theorem bad_inode_ok {r : Int} (h : (do
      onFs (iunlockput ip)
      endOp
      return -1 : XM Int) M = .ok (r, M')) :
    r = -1 ∧ ∃ fs, iunlockput ip M.fs = .ok ((), fs) ∧
      M' = { M with fs := fs, outstanding := M.outstanding - 1 } := by
  obtain ⟨_, M1, h1, h⟩ := bind_ok.1 h
  obtain ⟨fs, hput, rfl⟩ := onFs_ok h1
  rw [bind_run endOp_run] at h
  obtain ⟨rfl, rfl⟩ := pure_ok.1 h
  exact ⟨rfl, fs, hput, rfl⟩

theorem bad_some_ok {o : Option Nat} {r : Int} (h : bad L (some pg) o M = .ok (r, M')) :
    ∃ k, freevm L (some pg) M.vm = .ok ((), k) ∧ bad L none o { M with vm := k } = .ok (r, M') := by
  unfold bad at h
  rw [if_pos nofun] at h
  obtain ⟨_, M1, h1, h⟩ := bind_ok.1 h
  obtain ⟨k, hk, rfl⟩ := onVm_ok h1
  exact ⟨k, hk, h⟩

theorem switchuvm_ok {s s' : Kernel} (h : switchuvm p s = .ok ((), s')) : s' = s := by
  have hends : Ends (switchuvm p) s (fun _ t => t = s) fun _ => True :=
    .run get_run (.ite (fun _ => .throws trivial) fun _ =>
      .run get_run (.ite (fun _ => .of_throw trivial) fun _ => .of_pure rfl))
  exact hends.ok h

theorem commit_ok {r : Int} {entry : Nat} (h : commit L p pg sz entry sp path M = .ok (r, M')) :
    ∃ k, freevm L (M.vm.proc p).pgdir { M.vm with
        proc := update M.vm.proc p { M.vm.proc p with pgdir := some pg, sz := sz } } =
          .ok ((), k) ∧ r = 0 ∧
      M' = { M with
        vm := k
        tf := update M.tf p ⟨entry, sp⟩
        name := update M.name p (safestrcpy (lastElem path path) 16) } := by
  rw [commit, bind_run modify_run, bind_run get_run] at h
  obtain ⟨_, M1, h1, h⟩ := bind_ok.1 h
  obtain ⟨k1, hk1, rfl⟩ := onVm_ok h1
  cases hk1
  rw [bind_run modify_run] at h
  obtain ⟨_, M2, h2, h⟩ := bind_ok.1 h
  obtain ⟨k2, hk2, rfl⟩ := onVm_ok h2
  obtain rfl := switchuvm_ok hk2
  obtain ⟨_, M3, h3, h⟩ := bind_ok.1 h
  obtain ⟨k3, hk3, rfl⟩ := onVm_ok h3
  obtain ⟨rfl, rfl⟩ := pure_ok.1 h
  exact ⟨k3, hk3, rfl, rfl⟩

/-- The new directory has the segments, and the kernel's tables. -/
structure Loaded (L : Layout) (s s1 : Kernel) (pg k : Nat) (segs : List Segment) : Prop where
  trans : Trans s (fun _ => 0) s1 (dirUse s1.mem pg)
  hist : s1.hist = s.hist
  clean : KernelClean s1.mem pg
  tables : ∀ i, (∃ m ∈ kmap L, m.Covers i) → present (ent s1.mem pg i) = true
  top : k = topOf segs 0
  lt : k < KERNBASE
  holds : Holds s1.mem pg k (layout segs fun _ => 0)

theorem finish_ok {r : Int} {s : Kernel} {fs : State} {img : Image} {elf : Store}
    {segs : List Segment} {k : Nat} (hd : (M.vm.proc p).pgdir = some d)
    (ho : Own M.vm (dirUse M.vm.mem d)) (hw : Within L M.vm (dirUse M.vm.mem d))
    (ha : ∀ a ∈ argv, a.length < KERNBASE)
    (ht : ∀ r s', allocuvm L pg (pgroundup k) ((pgroundup k + 2 * PGSIZE) % UINT) s =
      .ok (r, s') → r ≠ 0 → Tame L r r argv)
    (helf : img.readAll 0 ELFHDR = some elf)
    (hsegs : img.segments (get16 elf 44) (get32 elf 28) = some segs) (hvalid : ∀ g ∈ segs, g.Valid)
    (hl : Loaded L M.vm s pg k segs) (hrefs : SameRefs M.fs fs)
    (h : (do
      match ← onVm (do userStack L (← curdir p) pg k argv) with
      | none => bad L (some pg) none
      | some (sz, sp) => commit L p pg sz (get32 elf 24) sp path : XM Int)
        { M with vm := s, fs := fs } = .ok (r, M')) :
    (r = -1 ∧ Failed M M' d) ∨
      r = 0 ∧ ∃ sz sp, Replaced L M M' p d img argv pg sz sp := by
  have ho0 : Own M.vm fun _ => 0 := ho.mono fun _ => Nat.zero_le _
  have hw0 : Within L M.vm fun _ => 0 := hw.mono fun _ => Nat.zero_le _
  obtain ⟨o, M1, h1, h⟩ := bind_ok.1 h
  obtain ⟨s1, hs1, rfl⟩ := onVm_ok h1
  obtain ⟨cur, s0, hcur, hs1⟩ := bind_ok.1 hs1
  obtain ⟨hs0, hpg⟩ := curdir_ok hcur
  rw [hs0] at hs1
  have hpg : (s.proc p).pgdir = some cur := hpg
  rw [hl.trans.proc, hd] at hpg
  cases hpg
  have htop : stackTop segs = pgroundup k + 2 * PGSIZE := by rw [stackTop, hl.top]
  obtain ⟨o', s2, hrun, hkept, hsome⟩ := userStack_total d (ho0.trans hl.trans)
    (hw0.trans hl.trans) hl.clean hl.tables hl.holds hl.lt ha ht
  rw [hs1] at hrun
  cases hrun
  have htr := hl.trans.trans hkept.trans
  have hh := hkept.hist.trans hl.hist
  cases o with
  | none =>
    obtain ⟨k1, hfree, h⟩ := bad_some_ok h
    obtain ⟨rfl, rfl⟩ := pure_ok.1 h
    obtain ⟨hh3, ht3⟩ := (freevm_ends (ho0.trans htr)).ok hfree
    obtain ⟨hmem, hcount⟩ := (htr.trans ht3).restored (hh3.trans hh) ho
    exact .inl ⟨rfl, ⟨rfl, hrefs⟩, (htr.trans ht3).proc, (htr.trans ht3).file, rfl, rfl, rfl, hmem,
      hcount⟩
  | some q =>
    obtain ⟨sz, sp⟩ := q
    obtain ⟨k1, hfree, rfl, rfl⟩ := commit_ok h
    obtain ⟨hsz, hsp, s3, hst, hpush, hwrote, hframed⟩ := hsome sz sp rfl
    have hproc : s1.proc = M.vm.proc := htr.proc
    simp only [hproc, hd] at hfree
    rw [← hproc] at hfree
    obtain ⟨hp, hf, hmem, hcount⟩ := replaced ho htr hh hfree
    rw [hproc] at hp
    refine .inr ⟨rfl, sz, sp, ⟨rfl, hrefs⟩, hp, hf, hcount, ⟨elf, segs, helf, hsegs, hvalid, ?_, rfl, s3,
      s1, hst, fun f => ?_, hpush, hwrote, hmem⟩, hsp,
      hframed.congr fun va hva => (same_frames hmem).2 va (hva.trans hst.lt)⟩
    · rw [hsz, htop]
    · rw [← hwrote.same.dirUse]
      exact (ho0.trans htr).solo f

/-- The end at the label `bad`, when no directory is left. -/
theorem bad_failed {r : Int} {s : Kernel} {fs1 fs : State} (hfs : WellFormed M.fs)
    (ho : Own M.vm (dirUse M.vm.mem d)) (hwalk : Walk M.fs fs1 (single ip))
    (htr : Trans M.vm (fun _ => 0) s fun _ => 0) (hh : s.hist = M.vm.hist)
    (hsame : SameRefs (fs1.lock ip) fs)
    (h : bad L none (some ip) { M with vm := s, fs := fs, outstanding := M.outstanding + 1 } =
      .ok (r, M')) : r = -1 ∧ Failed M M' d := by
  obtain ⟨rfl, fs', hput, rfl⟩ := bad_inode_ok h
  obtain ⟨hmem, hfree⟩ := htr.restored hh ho
  exact ⟨rfl, ⟨Nat.add_sub_cancel .., release hfs hwalk hsame hput⟩, htr.proc, htr.file, rfl, rfl,
    rfl, hmem, hfree⟩

theorem execElf_outcome {r : Int} {fs1 fs : State} {img : Image} {elf : Store}
    (hc : Caller L M p d path argv) (hwalk : Walk M.fs fs1 (single ip))
    (hi : img.read = contents M.fs ip) (helf : img.readAll 0 ELFHDR = some elf)
    (hmagic : ¬ get32 elf 0 ≠ ELF_MAGIC)
    (ht : ∀ sz s, reaches L img M.vm = .ok (some sz, s) → Tame L sz sz argv)
    (hfile : FileOf M.fs ip fs) (hsame : SameRefs (fs1.lock ip) fs)
    (h : execElf L p path argv ip elf { M with fs := fs, outstanding := M.outstanding + 1 } =
      .ok (r, M')) :
    (r = -1 ∧ Failed M M' d) ∨ r = 0 ∧ ∃ pg sz sp, Replaced L M M' p d img argv pg sz sp := by
  have ho0 : Own M.vm fun _ => 0 := hc.own.mono fun _ => Nat.zero_le _
  rw [execElf] at h
  obtain ⟨o, M1, h1, h⟩ := bind_ok.1 h
  obtain ⟨s1, hset, rfl⟩ := onVm_ok h1
  have hset : setupkvm L M.vm = .ok (o, s1) := hset
  rcases setupkvm_spec hset ho0 with ⟨rfl, hh, htr⟩ | ⟨pg, rfl, hbuilt⟩
  · exact .inl (bad_failed hc.fs hc.own hwalk htr hh hsame h)
  obtain ⟨o, M2, h2, h⟩ := bind_ok.1 h
  obtain ⟨s2, fs2, hld, rfl, -, hsame2⟩ := loadSegs_follows hi (get32_lt elf 28) _ _ _ hfile h2
  have hrefs := hsame.trans hsame2
  have hld : loadSegs L pg img.reader (get16 elf 44) (get32 elf 28) 0 s1 = .ok (o, s2) := hld
  obtain ⟨hkept, hsome⟩ := (loadSegs_ends _ _ _ (ho0.trans hbuilt.trans) hbuilt.toKernelDir.holds
    (by decide)).ok hld
  have htr := hbuilt.trans.trans hkept.trans
  have hh := hkept.hist.trans hbuilt.hist
  cases o with
  | none =>
    obtain ⟨s3, hfree, h⟩ := bad_some_ok h
    obtain ⟨hh3, ht3⟩ := (freevm_ends (ho0.trans htr)).ok hfree
    exact .inl (bad_failed hc.fs hc.own hwalk (htr.trans ht3) (hh3.trans hh) hrefs h)
  | some k =>
    obtain ⟨segs, hsegs, hvalid, htop, hlt, hholds⟩ := hsome k rfl
    obtain ⟨_, M3, h3, h⟩ := bind_ok.1 h
    obtain ⟨fs3, hput, rfl⟩ := onFs_ok h3
    rw [bind_run endOp_run] at h
    simp only [Nat.add_sub_cancel] at h
    have hload : Loaded L M.vm s2 pg k segs := ⟨htr, hh, hkept.clean hbuilt.clean, fun i hi => by
      obtain ⟨m, hm, hcov⟩ := hi
      rw [hkept.kernel i (covers_kernel hm hcov)]
      exact (hbuilt.pde i).2 ⟨m, hm, hcov⟩, htop, hlt, hholds⟩
    have hargs : ∀ r s', allocuvm L pg (pgroundup k) ((pgroundup k + 2 * PGSIZE) % UINT) s2 =
        .ok (r, s') → r ≠ 0 → Tame L r r argv := fun r s' hal hr => ht r s' (by
      rw [reaches, helf]
      simp only [if_neg hmagic]
      rw [bind_run hset]
      simp only
      rw [bind_run hld]
      simp only
      rw [bind_run hal, if_neg hr]
      rfl)
    rcases finish_ok hc.pgdir hc.own hc.within (fun a hin => (hc.argv a hin).2) hargs helf hsegs hvalid
      hload (release hc.fs hwalk hrefs hput) h with hf | ⟨hr, sz, sp, hrep⟩
    · exact .inl hf
    · exact .inr ⟨hr, pg, sz, sp, hrep⟩

/-- **`exec` fails cleanly, or replaces the process's memory.** -/
theorem exec_outcome {r : Int} (hc : Caller L M p d path argv) (ht : Fits L M p path argv hc.dev)
    (h : exec L p path argv M = .ok (r, M')) : (r = -1 ∧ Failed M M' d) ∨
      r = 0 ∧ ∃ ip pg sz sp, M.fs.resolve (pathStart (M.cwd p) path) (components path) = some ip ∧
        Replaced L M M' p d (image M.fs ip hc.dev) argv pg sz sp := by
  rw [exec, bind_run beginOp_run, bind_run get_run] at h
  obtain ⟨o, M1, h1, h⟩ := bind_ok.1 h
  obtain ⟨fs1, hnamei, rfl⟩ := onFs_ok h1
  obtain ⟨hres, hwalk⟩ := (namei_walks hc.fs hc.cwd hc.path).ok hnamei
  cases o with
  | none =>
    simp only at h
    rw [bind_run endOp_run] at h
    obtain ⟨rfl, rfl⟩ := pure_ok.1 h
    exact .inl ⟨rfl, ⟨Nat.add_sub_cancel .., hwalk.ref, hwalk.locked⟩, rfl, rfl, rfl, rfl, rfl,
      fun _ _ => rfl, fun _ => rfl⟩
  | some ip =>
    have hwalk : Walk M.fs fs1 (single ip) := hwalk
    have hheld : M.fs.Held ip := resolve_held hc.fs (start_held hc.fs hc.cwd) hres.symm
    obtain ⟨_, M2, h2, h⟩ := bind_ok.1 h
    obtain ⟨fs2, hlock, rfl⟩ := onFs_ok h2
    have hlock : ilock ip fs1 = .ok ((), fs2) := hlock
    rw [hwalk.ilock hc.fs hheld] at hlock
    cases hlock
    obtain ⟨o, M3, h3, h⟩ := bind_ok.1 h
    have hi : (image M.fs ip hc.dev).read = contents M.fs ip := rfl
    obtain ⟨k, fs3, hk, rfl, hfile, hsame⟩ := readAll_follows hi (by decide) (by decide)
      _ _ _ (fileOf_lock hc.fs hheld hwalk) h3
    cases readAll_run.symm.trans hk
    cases helf : (image M.fs ip hc.dev).readAll 0 ELFHDR with
    | none =>
      rw [helf] at h
      exact .inl (bad_failed hc.fs hc.own hwalk .refl rfl hsame h)
    | some elf =>
      rw [helf] at h
      simp only [ite_ok] at h
      rcases h with ⟨-, h⟩ | ⟨hmagic, h⟩
      · exact .inl (bad_failed hc.fs hc.own hwalk .refl rfl hsame h)
      rcases execElf_outcome hc hwalk hi helf hmagic (ht ip hres.symm) hfile hsame h with
        hf | ⟨hr, pg, sz, sp, hrep⟩
      · exact .inl hf
      · exact .inr ⟨hr, ip, pg, sz, sp, hres.symm, hrep⟩

end Exec
