import Xv6.User.Memmove

/-!
# `grep`

The matcher of `grep.c` (`match`, `matchhere`, `matchstar`) over strings of bytes, the end of the list
being the terminating NUL, and the loop of `grep` over a buffer, a list of the chunks that `read`
returns and the bytes written to descriptor 1.
-/

namespace Grep

open Bytes User

def STAR : UInt8 := 42
def DOT : UInt8 := 46
def DOLLAR : UInt8 := 36
def CARET : UInt8 := 94
def NL : UInt8 := 10

/-! ## The matcher -/

/-- Search for `c*re` at the beginning of the text. -/
def matchstar (here : List UInt8 → Bool) (c : UInt8) : List UInt8 → Bool
  | [] => here []
  | x :: text => here (x :: text) || ((x == c || c == DOT) && matchstar here c text)

/-- Search for `re` at the beginning of the text. -/
def matchhere : List UInt8 → List UInt8 → Bool
  | [], _ => true
  | [c], text =>
    if c = DOLLAR then text.isEmpty
    else match text with
      | [] => false
      | x :: _ => c == DOT || c == x
  | c :: d :: re, text =>
    if d = STAR then matchstar (matchhere re) c text
    else match text with
      | [] => false
      | x :: text => (c == DOT || c == x) && matchhere (d :: re) text

def matchAnywhere (re : List UInt8) : List UInt8 → Bool
  | [] => matchhere re []
  | x :: text => matchhere re (x :: text) || matchAnywhere re text

/-- Search for `re` anywhere in the text. -/
def matchRe (re text : List UInt8) : Bool :=
  match re with
  | [] => matchAnywhere [] text
  | c :: re => if c = CARET then matchhere re text else matchAnywhere (c :: re) text

/-! ## The loop over the input -/

def SIZE : Nat := 1024

def strchr (buf : Store) (c : UInt8) : Nat → Nat → Option Nat
  | 0, _ => none
  | fuel + 1, p =>
    if buf p = 0 then none else if buf p = c then some p else strchr buf c fuel (p + 1)

def cstr (buf : Store) : Nat → Nat → List UInt8
  | 0, _ => []
  | fuel + 1, p => if buf p = 0 then [] else buf p :: cstr buf fuel (p + 1)

/-- `while((q = strchr(p, '\n')) != 0)`: the buffer, `p` and the output after it. -/
def lineLoop (pattern : List UInt8) : Nat → Store → Nat → List UInt8 → Store × Nat × List UInt8
  | 0, buf, p, out => (buf, p, out)
  | fuel + 1, buf, p, out =>
    match strchr buf NL SIZE p with
    | none => (buf, p, out)
    | some q =>
      let buf := put8 buf q 0
      if matchRe pattern (cstr buf SIZE p) then
        let buf := put8 buf q NL
        lineLoop pattern fuel buf (q + 1) (out ++ slice buf p (q + 1 - p))
      else lineLoop pattern fuel buf (q + 1) out

/-- The buffer of `grep`, the bytes in it, and the output. -/
structure State where
  buf : Store
  m : Nat
  out : List UInt8

def start : State := ⟨fill 0, 0, []⟩

/-- The body of the loop, after `read` has put `chunk` at `buf + m`. -/
def round (pattern : List UInt8) (s : State) (chunk : List UInt8) : State :=
  let m := s.m + chunk.length
  let buf := put8 (putList s.buf s.m chunk) m 0
  let (buf, p, out) := lineLoop pattern SIZE buf 0 s.out
  let m := if p = 0 then 0 else m
  if m > 0 then ⟨userMemmove buf 0 p (m - p), m - p, out⟩ else ⟨buf, m, out⟩

/-- `grep(pattern, fd)`, when `read` returns `chunks` and then the end of the file. -/
def grep (pattern : List UInt8) (chunks : List (List UInt8)) : State :=
  chunks.foldl (round pattern) start

end Grep
