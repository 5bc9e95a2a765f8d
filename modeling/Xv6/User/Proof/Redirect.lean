import Xv6.User.Proof.Words
import Xv6.User.Runcmd

/-!
# The order of redirections

`parseredirs` puts each redirection around the command, and `runcmd` goes through them from the
outside: the last one written is opened first, and of several for one descriptor the first one written
stays.
-/

namespace Sh

/-- A simple command or a block, with its redirections as written. -/
inductive Redirected : List Token → List Redirection → Cmd → Prop
  | block {ts ts' : List Token} {left right : Token} {c : Cmd} {rs : List Redirection}
    (hl : left.ret = '(') (h : Derives .line ts c) (hr : right.ret = ')') (h' : Redirs ts' rs) :
    Redirected (left :: (ts ++ right :: ts')) rs c
  | simple {ts ts' : List Token} {args : List (Nat × Nat)} {rs rs' : List Redirection}
    (h : Redirs ts rs) (h' : Args ts' args rs') (hn : args.length < MAXARGS) :
    Redirected (ts ++ ts') (rs ++ rs') (.exec args)

def fdOf (mode : Nat) : Nat := if mode = O_RDONLY then 0 else 1

section
variable {ts : List Token} {rs : List Redirection} {args : List (Nat × Nat)} {cmd : Cmd}
  {name : Nat → List Char} {opens : File → Bool}

theorem Redirected.derives (h : Redirected ts rs cmd) : Derives .exec ts (wrap rs cmd) := by
  cases h with
  | block hl h hr h' => exact .block hl h hr h'
  | simple h h' hn => exact .simple h h' hn

theorem Redirs.fd (h : Redirs ts rs) : ∀ r ∈ rs, r.fd = fdOf r.mode := by
  induction h with
  | nil => simp
  | input _ _ _ ih => exact List.forall_mem_cons.2 ⟨rfl, ih⟩
  | output _ _ _ ih => exact List.forall_mem_cons.2 ⟨rfl, ih⟩

theorem Args.fd (h : Args ts args rs) : ∀ r ∈ rs, r.fd = fdOf r.mode := by
  induction h with
  | nil => simp
  | cons _ h _ ih => exact List.forall_mem_append.2 ⟨h.fd, ih⟩

theorem Redirected.fd (h : Redirected ts rs cmd) : ∀ r ∈ rs, r.fd = fdOf r.mode := by
  cases h with
  | block _ _ _ h' => exact h'.fd
  | simple h h' _ => exact List.forall_mem_append.2 ⟨h.fd, h'.fd⟩

def fileOf (name : Nat → List Char) (r : Redirection) : File := (name r.file, r.mode)

def StdOpen (st : Files) : Prop := st.fds 0 ≠ none ∧ st.fds 1 ≠ none

def redirectTo (st : Files) (file : File) : Files :=
  ⟨Function.update st.fds (fdOf file.2) (some file), st.opened ++ [file]⟩

theorem StdOpen.redirectTo {st : Files} (h : StdOpen st) (file : File) :
    StdOpen (Sh.redirectTo st file) := by
  constructor
  all_goals
    simp only [Sh.redirectTo, Function.update_apply]
    split
    · simp
  · exact h.1
  · exact h.2

theorem StdOpen.open {st : Files} (h : StdOpen st) {file : File} (hf : opens file) :
    Files.open opens file { st with fds := Function.update st.fds (fdOf file.2) none } =
      some (Sh.redirectTo st file) := by
  have hfind : (List.range Param.NOFILE).find? (fun fd =>
      (Function.update st.fds (fdOf file.2) none fd).isNone) = some (fdOf file.2) := by
    rw [show List.range Param.NOFILE = 0 :: 1 :: List.range' 2 14 from rfl]
    obtain ⟨f, hf⟩ := Option.ne_none_iff_exists'.1 h.1
    unfold fdOf
    split <;> simp [Function.update_apply, hf]
  simp only [Files.open, hfind, hf, if_true, Function.update_idem, Sh.redirectTo]

theorem runRedirs_wrap {st : Files} (h : StdOpen st) (hfd : ∀ r ∈ rs, r.fd = fdOf r.mode)
    (hop : ∀ r ∈ rs, opens (fileOf name r)) : runRedirs name opens rs.length (wrap rs cmd) st =
      some (cmd, (rs.map (fileOf name)).reverse.foldl redirectTo st) := by
  induction rs using List.reverseRecOn generalizing st with
  | nil => rfl
  | append_singleton rs r ih =>
    rw [List.forall_mem_append] at hfd hop
    have hr := hfd.2 r (by simp)
    have ho : opens (fileOf name r) := hop.2 r (by simp)
    have hw : wrap (rs ++ [r]) cmd = .redir (wrap rs cmd) r.file r.efile r.mode r.fd := wrap_append
    have hopen := h.open ho
    rw [hw, List.length_append, List.length_singleton, runRedirs, hr]
    simp only [fileOf] at hopen ⊢
    rw [hopen]
    exact (ih (h.redirectTo _) hfd.1 hop.1).trans (by simp [fileOf])

theorem foldl_redirectTo (l : List File) (st : Files) :
    (l.foldl redirectTo st).opened = st.opened ++ l ∧ ∀ fd, (l.foldl redirectTo st).fds fd =
        (l.reverse.find? fun f => fdOf f.2 = fd).or (st.fds fd) := by
  induction l using List.reverseRecOn with
  | nil => simp
  | append_singleton l f ih =>
    rw [List.foldl_append, List.foldl_cons, List.foldl_nil]
    refine ⟨?_, fun fd => ?_⟩
    · simp only [redirectTo, ih.1, List.append_assoc]
    · simp only [redirectTo, Function.update_apply, ih.2, List.reverse_append,
        List.reverse_singleton, List.singleton_append, List.find?_cons]
      by_cases hfd : fd = fdOf f.2
      · simp [hfd]
      · simp [hfd, Ne.symm hfd]

end

/-- When `runcmd` reaches the command, the files have been opened in the order written, and a descriptor
refers to the last file written for it. -/
def LeftToRight (name : Nat → List Char) (opens : File → Bool) (rs : List Redirection)
    (cmd tree : Cmd) (st : Files) : Prop :=
  ∃ st', runRedirs name opens rs.length tree st = some (cmd, st') ∧
    st'.opened = st.opened ++ rs.map (fileOf name) ∧
    ∀ fd, st'.fds fd =
      ((rs.map (fileOf name)).reverse.find? fun f => fdOf f.2 = fd).or (st.fds fd)

theorem leftToRight_wrap {name : Nat → List Char} {opens : File → Bool} {rs : List Redirection}
    {st : Files} (cmd : Cmd) (h : StdOpen st) (hfd : ∀ r ∈ rs, r.fd = fdOf r.mode)
    (hop : ∀ r ∈ rs, opens (fileOf name r)) : LeftToRight name opens rs cmd (wrap rs cmd) st ↔
      (rs.map (fileOf name)).reverse = rs.map (fileOf name) := by
  unfold LeftToRight
  rw [runRedirs_wrap h hfd hop]
  obtain ⟨ho, hf⟩ := foldl_redirectTo (rs.map (fileOf name)).reverse st
  constructor
  · rintro ⟨st', he, ho', -⟩
    obtain ⟨-, rfl⟩ := Prod.mk.inj (Option.some.inj he)
    exact List.append_cancel_left (ho.symm.trans ho')
  · intro hp
    refine ⟨_, rfl, ho.trans (by rw [hp]), fun fd => (hf fd).trans ?_⟩
    rw [hp, hp]

/-- The parser finds a simple command or a block with its redirections, and if all the files can be opened
the redirections apply from left to right iff they are the same in the reverse order. -/
theorem redirections_in_order (s : Str) (k : Nat) (ts rest : List Token) (rs : List Redirection)
    (cmd : Cmd) (h : Redirected ts rs cmd) (hat : At s k (ts ++ rest)) (hf : follow .exec rest)
    (name : Nat → List Char) (opens : File → Bool) (st : Files) (hst : StdOpen st)
    (hop : ∀ r ∈ rs, opens (fileOf name r)) :
    ∃ tree k', Returns (fun fuel => parseexec s.chr fuel k) (.ok tree k') ∧
      (LeftToRight name opens rs cmd tree st ↔
        (rs.map (fileOf name)).reverse = rs.map (fileOf name)) := by
  obtain ⟨k', -, hret⟩ := h.derives.complete hat hf
  exact ⟨_, k', hret, leftToRight_wrap cmd hst h.fd hop⟩

def console : Files :=
  ⟨fun fd => if fd < 3 then some (['c', 'o', 'n', 's', 'o', 'l', 'e'], 2) else none, []⟩

theorem stdOpen_console : StdOpen console := by
  constructor <;> decide

/-- `a<b<b` or `a<b<c`. -/
def twice (same : Bool) : Str :=
  .ofList ['a', '<', 'b', '<', if same then 'b' else 'c'] (by cases same <;> decide)

theorem tokens_twice (same : Bool) : tokens (twice same) 5 =
    [⟨'a', 5, 4⟩, ⟨'<', 4, 3⟩, ⟨'a', 3, 2⟩, ⟨'<', 2, 1⟩, ⟨'a', 1, 0⟩] := by
  have h5 : gettoken (twice same).chr 5 = (⟨'a', 5, 4⟩, 4) := by cases same <;> rfl
  have h4 : gettoken (twice same).chr 4 = (⟨'<', 4, 3⟩, 3) := by cases same <;> rfl
  have h3 : gettoken (twice same).chr 3 = (⟨'a', 3, 2⟩, 2) := by cases same <;> rfl
  have h2 : gettoken (twice same).chr 2 = (⟨'<', 2, 1⟩, 1) := by cases same <;> rfl
  have h1 : gettoken (twice same).chr 1 = (⟨'a', 1, 0⟩, 0) := by cases same <;> rfl
  rw [tokens, if_neg (by cases same <;> decide), h5, tokens, if_neg (by cases same <;> decide), h4,
    tokens,
    if_neg (by cases same <;> decide), h3, tokens, if_neg (by cases same <;> decide), h2, tokens,
    if_neg (by cases same <;> decide), h1, tokens, if_pos (by cases same <;> decide)]

theorem redirected_twice (same : Bool) : Redirected (tokens (twice same) 5)
    [⟨3, 2, O_RDONLY, 0⟩, ⟨1, 0, O_RDONLY, 0⟩] (.exec [(5, 4)]) := by
  have hr : Redirs [⟨'<', 4, 3⟩, ⟨'a', 3, 2⟩, ⟨'<', 2, 1⟩, ⟨'a', 1, 0⟩]
      [⟨3, 2, O_RDONLY, 0⟩, ⟨1, 0, O_RDONLY, 0⟩] := .input rfl rfl (.input rfl rfl .nil)
  have ha := Args.cons (w := ⟨'a', 5, 4⟩) rfl hr .nil
  rw [tokens_twice]
  exact .simple .nil ha (by decide)

/-- The same file twice. -/
theorem redirections_in_order_twice : ∃ tree k',
    Returns (fun fuel => parseexec (twice true).chr fuel 5) (.ok tree k') ∧
      LeftToRight (readStr (nulterminate tree (twice true).chr)) (fun _ => true)
        [⟨3, 2, O_RDONLY, 0⟩, ⟨1, 0, O_RDONLY, 0⟩] (.exec [(5, 4)]) tree console := by
  have hat : At (twice true) 5 (tokens (twice true) 5 ++ []) := ⟨Nat.le_refl 5, (List.append_nil _).symm⟩
  obtain ⟨k, -, hret⟩ := (redirected_twice true).derives.complete hat (.inl rfl)
  obtain ⟨tree, k', hret', hiff⟩ :=
    redirections_in_order (twice true) 5 _ [] _ _ (redirected_twice true) hat
    (.inl rfl) (readStr (nulterminate (wrap _ _) (twice true).chr)) (fun _ => true) console
    stdOpen_console (by simp)
  obtain ⟨rfl, -⟩ := Res.ok.inj (hret.unique hret')
  exact ⟨_, k', hret', hiff.2 (by decide)⟩

/-- Of two files for descriptor 0 the second is opened first. -/
theorem redirections_reversed : ∃ rs cmd, Redirected (tokens (twice false) 5) rs cmd ∧
    ¬ LeftToRight (readStr (nulterminate (wrap rs cmd) (twice false).chr)) (fun _ => true) rs cmd
      (wrap rs cmd) console := by
  have hd := redirected_twice false
  refine ⟨_, _, hd, fun hl => ?_⟩
  have hp := (leftToRight_wrap _ stdOpen_console hd.fd (by simp)).1 hl
  exact absurd hp (by decide)

end Sh
