import Xv6.Param
import Xv6.User.Shell

/-!
# Redirections

The case `REDIR` of `runcmd` in `sh.c`, with the process's open files: `close(rcmd->fd)` frees the
descriptor and `open` takes the lowest free one. `name` is the string at a pointer into the command,
and `opens` says which files can be opened.
-/

namespace Sh

/-- An open file: its name and the mode of `open`. -/
abbrev File := List Char × Nat

/-- The descriptors of the process, and the files it has opened so far. -/
structure Files where
  fds : Nat → Option File
  opened : List File

section
variable (name : Nat → List Char) (opens : File → Bool)

/-- `open`: the lowest free descriptor; `none` is the return value -1. -/
def Files.open (file : File) (st : Files) : Option Files :=
  match (List.range Param.NOFILE).find? fun fd => (st.fds fd).isNone with
  | none => none
  | some fd =>
    if opens file then some ⟨Function.update st.fds fd (some file), st.opened ++ [file]⟩ else none

/-- `n` commands of type `REDIR`: the command inside of them that `runcmd` reaches. -/
def runRedirs : Nat → Cmd → Files → Option (Cmd × Files)
  | 0, cmd, st => some (cmd, st)
  | n + 1, .redir cmd file _ mode fd, st =>
    match Files.open opens (name file, mode) { st with fds := Function.update st.fds fd none } with
    | none => none
    | some st => runRedirs n cmd st
  | _ + 1, _, _ => none

end

end Sh
