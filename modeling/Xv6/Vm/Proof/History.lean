import Xv6.Base.Outcome
import Xv6.Vm.Proof.Ledger

/-!
# What kernel functions leave alone

A relation between states that the changes of pages, of the history variable and of the tables
respect is respected by every kernel function that makes only such changes (`Respects`). So no
function removes an entry of the history (`grows_call`).
-/

namespace Vm

open Bytes Panic

variable {L : Layout} {s s' : Kernel}
  {d f i w n a pa va perm oldsz newsz cur p q sz fd argc sp : Nat} {b c : Bool} {α β : Type}
  {bs : List UInt8} {argv : List (List UInt8)} {img : Image} {o : Option Nat}

/-- The program takes a state to one that `R` relates to it, or panics with a text in `E`. -/
def Respects (R : Kernel → Kernel → Prop) (E : String → Prop) (m : KM α) : Prop :=
  ∀ s, Ends m s (fun _ s' => R s s') E

def Grows (m : KM α) : Prop := ∀ s a s', m s = .ok (a, s') → s.hist <:+ s'.hist

/-- A relation that taking and writing pages does not break; the next ones are for other changes. -/
class Takes (R : Kernel → Kernel → Prop) : Prop where
  refl : ∀ s, R s s
  trans : ∀ {s s' s'' : Kernel}, R s s' → R s' s'' → R s s''
  mem : ∀ s m fs, R s { s with mem := m, fail := fs }
  take : ∀ s f fl fs, s.freelist = f :: fl → R s { s with freelist := fl, fail := fs }

class Pages (R : Kernel → Kernel → Prop) : Prop extends Takes R where
  free : ∀ s m f, R s { s with mem := m, freelist := f :: s.freelist }

class FileTable (R : Kernel → Kernel → Prop) : Prop where
  set : ∀ s F T, R s { s with file := F, pipe := T }

class Dups (R : Kernel → Kernel → Prop) : Prop where
  dup : ∀ f s u s', filedup f s = .ok (u, s') → R s s'

class Closes (L : Layout) (R : Kernel → Kernel → Prop) : Prop where
  close : ∀ f s u s', fileclose L f s = .ok (u, s') → R s s'

class ProcSlot (R : Kernel → Kernel → Prop) (p : Nat) : Prop where
  set : ∀ s v, R s { s with proc := Function.update s.proc p v }

class ProcTable (R : Kernel → Kernel → Prop) : Prop where
  set : ∀ s P k i, R s { s with proc := P, nextpid := k, initproc := i }

class Drops (R : Kernel → Kernel → Prop) : Prop where
  note : ∀ s f, R s { s with hist := .leak f :: s.hist }

class Nulls (R : Kernel → Kernel → Prop) : Prop where
  note : ∀ s, R s { s with hist := .nullPte :: s.hist }

class Mild (E : String → Prop) : Prop where
  trap : E "trap"
  kfree : E "kfree"
  freevm : E "freevm: no pgdir"

class AnyText (E : String → Prop) : Prop extends Mild E where
  any : ∀ e, E e

instance : AnyText fun _ => True where
  trap := trivial
  kfree := trivial
  freevm := trivial
  any _ := trivial

variable {R : Kernel → Kernel → Prop} {E : String → Prop}

instance [ProcTable R] : ProcSlot R p := ⟨fun s _ => ProcTable.set s _ s.nextpid s.initproc⟩

/-! ## Primitives -/

theorem Respects.ok {m : KM α} {r : α} (h : Respects R (fun _ => True) m) (hm : m s = .ok (r, s')) :
    R s s' := (h s).ok hm

theorem Respects.of_ok [AnyText E] {m : KM α} (h : ∀ s r s', m s = .ok (r, s') → R s s') :
    Respects R E m := fun s => by
  cases hm : m s with
  | ok r => exact .of_ok hm (h s r.1 r.2 hm)
  | error e => exact .of_error hm (AnyText.any e)

theorem Respects.panic [AnyText E] {e : String} : Respects R E (throw e : KM α) :=
  fun _ => .of_throw (AnyText.any e)

theorem Respects.throw {e : String} (h : E e) : Respects R E (throw e : KM α) := fun _ => .of_throw h

theorem Respects.modify {g : Kernel → Kernel} (hg : ∀ s, R s (g s)) : Respects R E (modify g) :=
  fun s => .of_modify (hg s)

theorem Respects.ite {c : Prop} [Decidable c] {m m' : KM α} (h : Respects R E m)
    (h' : Respects R E m') : Respects R E (if c then m else m') := by
  split
  · exact h
  · exact h'

section
variable [Takes R]

theorem Respects.pure {a : α} : Respects R E (pure a) := fun s => .of_pure (Takes.refl s)

theorem Respects.get : Respects R E (get : KM Kernel) := fun s => .of_get (Takes.refl s)

theorem Respects.bind {m : KM α} {f : α → KM β} (hm : Respects R E m)
    (hf : ∀ a, Respects R E (f a)) : Respects R E (m >>= f) := fun s =>
  (hm s).bind fun a s1 h => (hf a s1).mono (fun _ _ h' => Takes.trans h h') fun _ => id

theorem Respects.map {m : KM α} {f : α → β} (hm : Respects R E m) : Respects R E (f <$> m) :=
  .bind hm fun _ => .pure

theorem Respects.got {f : Kernel → KM β} (hf : ∀ s, Respects R E (f s)) :
    Respects R E (MonadState.get >>= f) :=
  .bind .get hf

theorem Respects.tried {m : KM (Option α)} {f : Option α → KM β} (hm : Respects R E m)
    (hnone : Respects R E (f none)) (hsome : ∀ a, Respects R E (f (some a))) :
    Respects R E (m >>= f) :=
  .bind hm fun r => by
    cases r with
    | none => exact hnone
    | some a => exact hsome a

theorem Respects.setPage {p : Store} : Respects R E (setPage f p) :=
  .modify fun s => Takes.mem s _ s.fail

theorem Respects.kalloc : Respects R E kalloc := fun s => by
  have hrun : ∃ r s', Vm.kalloc s = .ok (r, s') := by
    unfold Vm.kalloc
    split <;> exact ⟨_, _, rfl⟩
  obtain ⟨r, s', h⟩ := hrun
  obtain ⟨fs, ⟨-, rfl⟩ | ⟨f, fl, -, hfl, rfl⟩⟩ := kalloc_cases h
  · exact .of_ok h (Takes.mem s s.mem fs)
  · exact .of_ok h (Takes.take s f fl fs hfl)

omit [Takes R] in
theorem Respects.leak [Drops R] : Respects R E (note (.leak f)) := .modify fun s => Drops.note s f

theorem Respects.load : Respects R E (load f i) := .got fun _ => .pure

theorem Respects.store : Respects R E (store f i w) := .got fun _ => .setPage

theorem Respects.setBytes {o : Nat} : Respects R E (setBytes f o bs) := .got fun _ => .setPage

/-! ## `vm.c` -/

theorem Respects.walkpgdir : Respects R E (walkpgdir d va b) :=
  .bind .load fun _ => .ite .pure (.ite .pure (.tried .kalloc .pure fun _ =>
    .bind .setPage fun _ => .bind .store fun _ => .pure))

theorem Respects.mapLoop [AnyText E] : Respects R E (mapLoop d perm n a pa) := by
  induction n generalizing a pa with
  | zero =>
    unfold Vm.mapLoop
    exact .tried .walkpgdir .pure fun _ => .bind .load fun _ => .ite .panic (.bind .store fun _ => .pure)
  | succ n ih =>
    unfold Vm.mapLoop
    exact .tried .walkpgdir .pure fun _ => .bind .load fun _ => .ite .panic (.bind .store fun _ => ih)

theorem Respects.mappages [AnyText E] : Respects R E (mappages d va sz pa perm) := .mapLoop

theorem Respects.clearpteu [AnyText E] : Respects R E (clearpteu d va) :=
  .tried .walkpgdir .panic fun _ => .bind .load fun _ => .store

theorem Respects.translate [Mild E] {ok : Nat → Bool} : Respects R E (translate cur va ok) :=
  .bind .load fun _ => .ite (.throw Mild.trap) (.bind .load fun _ => .ite (.throw Mild.trap) .pure)

theorem Respects.kernelFrame [Mild E] : Respects R E (kernelFrame L cur f) :=
  .ite .translate (.ite (.throw Mild.trap) .pure)

theorem Respects.loadLoop [AnyText E] {offset : Nat} :
    Respects R E (loadLoop d a img.reader offset sz n i) := by
  induction n generalizing i with
  | zero => exact .pure
  | succ n ih =>
    exact .tried .walkpgdir .panic fun _ => .bind .load fun _ => .tried .pure .pure fun _ =>
      .bind .setBytes fun _ => .ite .pure ih

theorem Respects.loaduvm [AnyText E] {offset : Nat} : Respects R E (loaduvm d a img.reader offset sz) :=
  .ite .panic .loadLoop

theorem Respects.curdir [Mild E] : Respects R E (curdir p) := by
  refine .got fun s => ?_
  split
  · exact .throw Mild.trap
  · exact .pure

theorem Respects.poke [Mild E] {ok : Nat → Bool} : Respects R E (poke cur ok va bs) := by
  induction bs generalizing va with
  | nil => exact .pure
  | cons b bs ih => exact .bind .translate fun _ => .bind .setBytes fun _ => ih

end

/-! ## Giving pages back -/

section
variable [Pages R]

theorem Respects.kfree [Mild E] : Respects R E (kfree L f) :=
  .ite (.throw Mild.kfree) (.modify fun s => Pages.free s _ f)

theorem Respects.deallocLoop [Mild E] {fuel : Nat} : Respects R E (deallocLoop L d oldsz fuel a) := by
  induction fuel generalizing a with
  | zero => exact .pure
  | succ fuel ih =>
    unfold Vm.deallocLoop
    exact .ite (.tried .walkpgdir ih fun _ => .bind .load fun _ => .ite (.ite (.throw Mild.kfree)
      (.bind .kfree fun _ => .bind .store fun _ => ih)) ih) .pure

theorem Respects.deallocuvm [Mild E] : Respects R E (deallocuvm L d oldsz newsz) :=
  .ite .pure (.bind .deallocLoop fun _ => .pure)

theorem Respects.freeTables [Mild E] : Respects R E (freeTables L d n i) := by
  induction n generalizing i with
  | zero => exact .pure
  | succ n ih => exact .bind .load fun _ => .ite (.bind .kfree fun _ => ih) ih

theorem Respects.freevm [Mild E] : Respects R E (freevm L o) := by
  cases o with
  | none => exact .throw Mild.freevm
  | some d => exact .bind .deallocuvm fun _ => .bind .freeTables fun _ => .kfree

theorem Respects.freeStack [AnyText E] : Respects R E (freeStack L o) := by
  cases o with
  | none => exact .panic
  | some k => exact .kfree

/-! ## Unguarded branches -/

section
variable [Mild E] [Nulls R]

theorem Respects.uva2ka : Respects R E (uva2ka L cur d va) :=
  .tried .walkpgdir
    (.bind (.modify Nulls.note) fun _ => .bind .translate fun _ => .bind .load fun _ =>
      .ite (.bind .kernelFrame fun _ => .pure) .pure)
    fun _ => .bind .load fun _ => .pure

theorem Respects.copyout : Respects R E (copyout L cur d va bs) := by
  induction va, bs using copyout.induct with
  | case1 =>
    rw [Vm.copyout]
    exact .pure
  | case2 va b bs va0 ih =>
    rw [Vm.copyout]
    exact .tried .uva2ka .pure fun _ => .bind .setBytes fun _ => ih

theorem Respects.pushArgs {ustack : List Nat} : Respects R E (pushArgs L cur d argv argc sp ustack) := by
  induction argv generalizing argc sp ustack with
  | nil => exact .pure
  | cons a argv ih => exact .ite .pure (.bind .copyout fun _ => .ite ih .pure)

theorem Respects.pushFrame : Respects R E (pushFrame L cur d sz argv) :=
  .tried .pushArgs .pure fun _ => .bind .copyout fun _ => .ite .pure .pure

end

variable [AnyText E]

theorem Respects.mapKernel {ks : List Kmap} : Respects R E (mapKernel L d ks) := by
  induction ks with
  | nil => exact .pure
  | cons k ks ih => exact .bind .mappages fun _ => .ite ih (.bind .freevm fun _ => .pure)

theorem Respects.setupkvm : Respects R E (setupkvm L) :=
  .tried .kalloc .pure fun _ => .bind .setPage fun _ => .ite .panic .mapKernel

theorem Respects.allocLoop : Respects R E (allocLoop L d oldsz newsz n a) := by
  induction n generalizing a with
  | zero => exact .pure
  | succ n ih =>
    exact .tried .kalloc (.bind .deallocuvm fun _ => .pure) fun _ => .bind .setPage fun _ =>
      .bind .mappages fun _ => .ite ih (.bind .deallocuvm fun _ => .bind .kfree fun _ => .pure)

theorem Respects.allocuvm : Respects R E (allocuvm L d oldsz newsz) :=
  .ite .pure (.ite .pure .allocLoop)

theorem Respects.loadSegs {off : Nat} : Respects R E (loadSegs L d img.reader n off sz) := by
  induction n generalizing off sz with
  | zero => exact .pure
  | succ n ih =>
    exact .tried (.bind .pure fun _ => .pure) .pure fun _ => .ite ih (.ite .pure (.ite .pure
      (.bind .allocuvm fun _ => .ite .pure (.ite .pure (.bind .loaduvm fun _ => .ite ih .pure)))))

theorem Respects.copyLoop [Drops R] {pgdir : Nat} : Respects R E (copyLoop L d pgdir n i) := by
  induction n generalizing i with
  | zero => exact .pure
  | succ n ih =>
    exact .tried .walkpgdir .panic fun _ => .bind .load fun _ => .ite .panic
      (.tried .kalloc (.bind .freevm fun _ => .pure) fun _ => .got fun _ => .bind .setPage fun _ =>
        .bind .mappages fun _ => .ite ih (.bind .leak fun _ => .bind .freevm fun _ => .pure))

theorem Respects.copyuvm [Drops R] : Respects R E (copyuvm L d sz) :=
  .tried .setupkvm .pure fun _ => .copyLoop

theorem Respects.execImage [Nulls R] {elf : Store} : Respects R E (execImage L cur d img elf argv) :=
  .tried .loadSegs .pure fun _ => .bind .allocuvm fun _ => .ite .pure (.bind .clearpteu fun _ =>
    .tried .pushFrame .pure fun _ => .pure)

/-! ## Files and processes -/

section
variable [FileTable R]

omit [Pages R] [AnyText E] in
theorem Respects.setFile {v : File} : Respects R E (setFile f v) :=
  .modify fun s => FileTable.set s _ s.pipe

omit [Pages R] [AnyText E] in
theorem Respects.setPipe {v : Pipe} : Respects R E (setPipe f v) :=
  .modify fun s => FileTable.set s s.file _

omit [AnyText E] in
theorem Respects.filealloc : Respects R E filealloc := by
  refine .got fun s => ?_
  simp only
  split
  · exact .pure
  · exact .bind .setFile fun _ => .pure

instance : Dups R :=
  ⟨fun f _ _ _ h => Respects.ok (.got fun _ => .ite .panic .setFile : Respects R _ (filedup f)) h⟩

theorem Respects.pipeclose : Respects R E (pipeclose L p b) :=
  .got fun _ => .bind .setPipe fun _ => .ite .kfree .pure

instance : Closes L R := by
  refine ⟨fun f _ _ _ h => Respects.ok (m := fileclose L f) ?_ h⟩
  refine .got fun _ => .ite .panic (.ite .setFile (.bind .setFile fun _ => ?_))
  split
  · exact .pipeclose
  · exact .pure
  · exact .pure

end

omit [Pages R] in
theorem Respects.filedup [Dups R] : Respects R E (filedup f) := .of_ok fun s u s' => Dups.dup f s u s'

omit [Pages R] in
theorem Respects.fileclose [Closes L R] : Respects R E (fileclose L f) :=
  .of_ok fun s u s' => Closes.close f s u s'

theorem Respects.resize {n : Int} : Respects R E (resize L d sz n) :=
  .ite .allocuvm (.ite .deallocuvm .pure)

section
variable [ProcSlot R q]

omit [Pages R] [AnyText E] in
theorem Respects.setProc {v : Proc} : Respects R E (setProc q v) := .modify fun s => ProcSlot.set s v

omit [AnyText E] in
theorem Respects.fdalloc : Respects R E (fdalloc q f) := by
  refine .got fun s => ?_
  simp only
  split
  · exact .pure
  · exact .bind .setProc fun _ => .pure

theorem Respects.growproc {n : Int} : Respects R E (growproc L q n) :=
  .bind .curdir fun _ => .got fun _ => .bind .resize fun _ => .ite .pure
    (.got fun _ => .bind .setProc fun _ => .pure)

theorem Respects.sysSbrk {n : Int} : Respects R E (sysSbrk L q n) :=
  .got fun _ => .bind .growproc fun _ => .ite .pure .pure

theorem Respects.sysDup [Dups R] : Respects R E (sysDup q fd) := by
  refine .got fun s => ?_
  simp only
  split
  · exact .pure
  · exact .tried .fdalloc .pure fun _ => .bind .filedup fun _ => .pure

theorem Respects.forkFiles [Dups R] : Respects R E (forkFiles p q n i) := by
  induction n generalizing i with
  | zero => exact .pure
  | succ n ih =>
    refine .got fun s => ?_
    split
    · exact ih
    · exact .bind .filedup fun _ => .got fun _ => .bind .setProc fun _ => ih

theorem Respects.sysClose [Closes L R] : Respects R E (sysClose L q fd) := by
  refine .got fun s => ?_
  simp only
  split
  · exact .pure
  · exact .bind .setProc fun _ => .bind .fileclose fun _ => .pure

theorem Respects.closeFiles [Closes L R] : Respects R E (closeFiles L q n i) := by
  induction n generalizing i with
  | zero => exact .pure
  | succ n ih =>
    refine .got fun s => ?_
    split
    · exact ih
    · exact .bind .fileclose fun _ => .got fun _ => .bind .setProc fun _ => ih

end

section
variable [FileTable R]

theorem Respects.pipealloc : Respects R E (pipealloc L) :=
  .tried .filealloc .pure fun _ => .tried .filealloc (.bind .fileclose fun _ => .pure) fun _ =>
    .tried .kalloc (.bind .fileclose fun _ => .bind .fileclose fun _ => .pure) fun _ =>
      .bind .setPipe fun _ => .got fun _ => .bind .setFile fun _ => .got fun _ =>
        .bind .setFile fun _ => .pure

theorem Respects.sysPipe [ProcSlot R p] : Respects R E (sysPipe L p fd) :=
  .got fun _ => .got fun _ => .ite .pure (.tried .pipealloc .pure fun _ =>
    .tried .fdalloc (.bind .fileclose fun _ => .bind .fileclose fun _ => .pure) fun _ =>
      .tried .fdalloc (.got fun _ => .bind .setProc fun _ => .bind .fileclose fun _ =>
        .bind .fileclose fun _ => .pure) fun _ =>
          .bind .curdir fun _ => .bind .poke fun _ => .pure)

theorem Respects.sysOpen [ProcSlot R p] : Respects R E (sysOpen L p b c) :=
  .tried .filealloc .pure fun _ => .tried .fdalloc (.bind .fileclose fun _ => .pure) fun _ =>
    .got fun _ => .bind .setFile fun _ => .pure

end

section
variable [ProcTable R]

omit [Pages R] [AnyText E] in
theorem Respects.allocproc [Takes R] : Respects R E allocproc := by
  refine .got fun s => ?_
  simp only
  split
  · exact .pure
  · exact .bind .setProc fun _ => .bind (.modify fun s => ProcTable.set s s.proc _ s.initproc) fun _ =>
      .tried .kalloc (.got fun _ => .bind .setProc fun _ => .pure) fun _ => .got fun _ =>
        .bind .setProc fun _ => .pure

theorem Respects.wait : Respects R E (wait L p) := by
  refine .got fun s => ?_
  simp only
  split
  · exact .bind .freeStack fun _ => .got fun _ => .bind .setProc fun _ => .bind .freevm fun _ =>
      .got fun _ => .bind .setProc fun _ => .pure
  · exact .ite .pure .pure

omit [AnyText E] in
theorem Respects.kill {pid : Int} : Respects R E (kill pid) := by
  refine .got fun s => ?_
  simp only
  split
  · exact .pure
  · exact .bind .setProc fun _ => .pure

theorem Respects.exit [Closes L R] : Respects R E (exit L p) :=
  .got fun _ => .ite .panic (.bind .closeFiles fun _ => .bind
    (.modify fun s => ProcTable.set s _ s.nextpid s.initproc) fun _ => .got fun _ => .setProc)

theorem Respects.fork [Dups R] [Drops R] : Respects R E (fork L p) :=
  .tried .allocproc .pure fun _ => .bind .curdir fun _ => .got fun _ =>
    .tried .copyuvm (.got fun _ => .bind .freeStack fun _ => .got fun _ => .bind .setProc fun _ => .pure)
      fun _ => .got fun _ => .got fun _ => .bind .setProc fun _ => .bind .forkFiles fun _ =>
        .got fun _ => .bind .setProc fun _ => .got fun _ => .pure

theorem Respects.exec [Nulls R] {ip : Option Image} : Respects R E (exec L p ip argv) := by
  cases ip with
  | none => exact .pure
  | some img =>
    unfold Vm.exec
    simp only
    split
    · exact .pure
    · exact .ite .pure (.tried .setupkvm .pure fun _ => .bind .curdir fun _ =>
        .tried .execImage (.bind .freevm fun _ => .pure) fun _ => .got fun _ => .bind .setProc fun _ =>
          .bind .freevm fun _ => .pure)

/-- Only `fork` drops a page, and only `exec` reads through a null pointer. -/
theorem Respects.call [FileTable R] {c : Call} (hfork : c = .fork → Drops R)
    (hexec : ∀ ip argv, c = .exec ip argv → Nulls R) : Respects R E (call L p c) := by
  cases c with
  | fork =>
    have := hfork rfl
    exact .map .fork
  | exec ip argv =>
    have := hexec ip argv rfl
    exact .map .exec
  | sbrk n => exact .map .sysSbrk
  | exit => exact .bind .exit fun _ => .pure
  | wait => exact .wait
  | pipe fd => exact .map .sysPipe
  | close fd => exact .map .sysClose
  | dup fd => exact .map .sysDup
  | «open» r w => exact .map .sysOpen
  | kill pid => exact .map .kill
  | store va b => exact .bind .curdir fun _ => .bind .poke fun _ => .pure

end

end

/-! ## The history -/

def Longer (s s' : Kernel) : Prop := s.hist <:+ s'.hist

instance : Pages Longer where
  refl _ := List.suffix_refl _
  trans := List.IsSuffix.trans
  mem _ _ _ := List.suffix_refl _
  take _ _ _ _ _ := List.suffix_refl _
  free _ _ _ := List.suffix_refl _

instance : ProcTable Longer := ⟨fun _ _ _ _ => List.suffix_refl _⟩

instance : FileTable Longer := ⟨fun _ _ _ => List.suffix_refl _⟩

instance : Drops Longer := ⟨fun _ _ => List.suffix_cons _ _⟩

instance : Nulls Longer := ⟨fun _ => List.suffix_cons _ _⟩

def SameHist (s s' : Kernel) : Prop := s'.hist = s.hist

instance : Pages SameHist where
  refl _ := rfl
  trans h h' := h'.trans h
  mem _ _ _ := rfl
  take _ _ _ _ _ := rfl
  free _ _ _ := rfl

instance : FileTable SameHist := ⟨fun _ _ _ => rfl⟩

instance : ProcTable SameHist := ⟨fun _ _ _ _ => rfl⟩

theorem uva2ka_untabled {r : Option Nat} {s1 : Kernel} (hw : walkpgdir d va false s = .ok (none, s1))
    (h : uva2ka L cur d va s = .ok (r, s')) : .nullPte :: s1.hist <:+ s'.hist := by
  rw [uva2ka, bind_run hw] at h
  simp only at h
  rw [bind_run (show note .nullPte s1 = .ok ((), { s1 with hist := .nullPte :: s1.hist }) from rfl)] at h
  refine Respects.ok (R := Longer) (.bind .translate fun _ => .bind .load fun _ => ?_) h
  exact .ite (.bind .kernelFrame fun _ => .pure) .pure

theorem grows_call {c : Call} : Grows (call L p c) := fun _ _ _ h =>
  Respects.ok (R := Longer) (.call (fun _ => inferInstance) fun _ _ _ => inferInstance) h

/-- No read through a null pointer was added. -/
def NoNull (s s' : Kernel) : Prop := .nullPte ∈ s'.hist → .nullPte ∈ s.hist

instance : Pages NoNull where
  refl _ := id
  trans h h' := h ∘ h'
  mem _ _ _ := id
  take _ _ _ _ _ := id
  free _ _ _ := id

instance : ProcTable NoNull := ⟨fun _ _ _ _ => id⟩

instance : FileTable NoNull := ⟨fun _ _ _ => id⟩

instance : Drops NoNull := ⟨fun _ _ h => (List.mem_cons.1 h).resolve_left Slip.noConfusion⟩

/-- The entry `nullPte` of the history comes from `exec`. -/
theorem noNull_call {c : Call} {r : Option Int} (hc : ∀ ip argv, c ≠ .exec ip argv)
    (h : call L p c s = .ok (r, s')) : NoNull s s' :=
  Respects.ok (R := NoNull) (.call (fun _ => inferInstance) fun ip argv he => absurd he (hc ip argv)) h

end Vm
