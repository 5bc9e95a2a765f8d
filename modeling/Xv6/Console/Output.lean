import Xv6.Console.Input

/-!
# Console output

The model of `consputc` of `console.c` with what it draws: `font_render` of `font.c` and the functions
of `graphic.c`. `log` is a history variable, the memory that is read and written: rows of glyphs,
pixels of the screen, and bytes of the frame buffer. A row of a glyph is what the memory holds there,
also outside `font_bin`.

The characters come from `consolewrite`, from `cprintf` and from the echo of `consoleintr`, in any
order (`Output`).
-/

namespace Console

/-! ## The screen -/

/-- `gpu`, with a frame buffer that holds all lines. -/
structure Gpu where
  horizontal_resolution : Nat
  vertical_resolution : Nat
  pixels_per_line : Nat
  vram_size : Nat
  line : horizontal_resolution ≤ pixels_per_line
  frame : 4 * pixels_per_line * vertical_resolution ≤ vram_size

/-- An access to memory, or to the serial port. -/
inductive Access
  /-- The row `i` of the glyph `font_bin[index]` is read. -/
  | glyph (index : Int) (i : Nat)
  | pixel (x y : Int) (white : Bool)
  /-- The bytes `[lo, hi)` of the frame buffer are written. -/
  | bytes (lo hi : Int)
  | uart (c : Int)

/-- The cursor, `panicked`, and the accesses so far. -/
structure Screen where
  /-- `console_pos`. -/
  pos : Int
  panicked : Bool
  log : List Access

def BACKSPACE : Int := 0x100
def CONSOLE_HORIZONTAL_MAX : Int := 53
def CONSOLE_VERTICAL_MAX : Int := 20
def FONT_WIDTH : Int := 15
def FONT_HEIGHT : Int := 30
def NGLYPH : Int := 95

def Screen.start : Screen := ⟨CONSOLE_HORIZONTAL_MAX * CONSOLE_VERTICAL_MAX, false, []⟩

section
variable (g : Gpu) (font : Int → Nat → Nat)

/-- `graphic_scroll_up(height)`: the `memmove` and the `memset`. -/
def graphicScrollUp (height : Int) : List Access :=
  let diff := 4 * g.pixels_per_line * height
  [.bytes 0 (g.vram_size - diff), .bytes (g.vram_size - diff) g.vram_size]

/-- `font_render(x, y, index)`; `k` is `14 - j`. -/
def fontRender (x y index : Int) : List Access :=
  (List.range 30).flatMap fun (i : Nat) => (List.range 15).flatMap fun (k : Nat) =>
    [.glyph (index - 0x20) i, .pixel (x + k) (y + i) ((font (index - 0x20) i).testBit (14 - k))]

namespace Screen

/-- The end of the screen: one line up. -/
def scroll (s : Screen) : Screen :=
  if CONSOLE_VERTICAL_MAX * CONSOLE_HORIZONTAL_MAX ≤ s.pos then
    { s with pos := s.pos - CONSOLE_HORIZONTAL_MAX, log := s.log ++ graphicScrollUp g 30 }
  else s

/-- `graphic_putc` of a character that is drawn, once there is a line for it. -/
def draw (s : Screen) (c : Int) : Screen :=
  { s with
    pos := s.pos + 1
    log := s.log ++ fontRender font (s.pos.tmod CONSOLE_HORIZONTAL_MAX * FONT_WIDTH + 2)
      (s.pos.tdiv CONSOLE_HORIZONTAL_MAX * FONT_HEIGHT) c }

/-- Draw one character at the cursor. -/
def graphicPutc (s : Screen) (c : Int) : Screen :=
  if c = NEWLINE.toNat then
    { s with pos := s.pos + (CONSOLE_HORIZONTAL_MAX - s.pos.tmod CONSOLE_HORIZONTAL_MAX) }.scroll g
  else if c = BACKSPACE then
    if 0 < s.pos then { s with pos := s.pos - 1 } else s
  else (s.scroll g).draw font c

/-- What `consputc` sends to the serial port. -/
def uart (c : Int) : List Access :=
  if c = BACKSPACE then [.uart 8, .uart 0x20, .uart 8] else [.uart c]

def consputc (s : Screen) (c : Int) : Screen :=
  if s.panicked then s else { s with log := s.log ++ uart c }.graphicPutc g font c

def puts (s : Screen) (cs : List Int) : Screen := cs.foldl (consputc g font) s

end Screen
end

/-! ## Where the characters come from -/

def digit (n : Nat) : Int := if n < 10 then 48 + n else 87 + n

/-- The digits of `x`, the last one first in `buf`; `buf` has 16 bytes. -/
def digits (base : Nat) : Nat → Nat → List Int
  | 0, _ => []
  | n + 1, x => (if x / base = 0 then [] else digits base n (x / base)) ++ [digit (x % base)]

/-- The digits of a number, as `printint` passes them to `consputc`. -/
def printint (x base : Nat) (sign : Bool) : List Int :=
  if sign ∧ 2 ^ 31 ≤ x then 45 :: digits base 16 (2 ^ 32 - x) else digits base 16 x

/-- A `char` is signed. -/
def ofChar (b : UInt8) : Int := if b.toNat < 128 then b.toNat else b.toNat - 256

def null : List UInt8 := [40, 110, 117, 108, 108, 41]

/-- `cprintf`: `str` is the memory that a `%s` reads. -/
def cprintf (str : Nat → List UInt8) : List UInt8 → List Nat → List Int
  | [], _ => []
  | [c], _ => if c = 37 then [] else [(c.toNat : Int)]
  | c :: d :: fmt, args =>
    if c ≠ 37 then c.toNat :: cprintf str (d :: fmt) args
    else if d = 100 then printint (args.headD 0) 10 true ++ cprintf str fmt args.tail
    else if d = 120 ∨ d = 112 then printint (args.headD 0) 16 false ++ cprintf str fmt args.tail
    else if d = 115 then
      (if args.headD 0 = 0 then null else str (args.headD 0)).map ofChar ++ cprintf str fmt args.tail
    else if d = 37 then 37 :: cprintf str fmt args
    -- an unknown sequence is printed as it is
    else 37 :: d.toNat :: cprintf str fmt args

variable {T : Type}

/-- The echo of the kill-line character, which erases what `Data.killLine` erases. -/
def Data.killEcho : Nat → Data T → List Int
  | 0, _ => []
  | n + 1, d => if d.get (d.e + (2 ^ 32 - 1)) ≠ NEWLINE then BACKSPACE :: killEcho n d.back else []

/-- The echo of `consoleintr` for one character. -/
def Data.echo (d : Data T) (c : UInt8) : List Int :=
  if c = CTRL_P then []
  else if c = CTRL_U then d.killEcho ((d.e + 2 ^ 32 - d.w) % 2 ^ 32)
  else if c = CTRL_H ∨ c = DEL then if d.e ≠ d.w then [BACKSPACE] else []
  else if c ≠ 0 ∧ (d.e + 2 ^ 32 - d.r) % 2 ^ 32 < INPUT_BUF then [((newline c).toNat : Int)]
  else []

def Data.echoes (d : Data T) : List UInt8 → List Int
  | [] => []
  | c :: cs => d.echo c ++ (d.key c).1.echoes cs

/-- A call that puts characters on the console. -/
inductive Output (T : Type)
  | consolewrite (buf : List UInt8)
  | cprintf (str : Nat → List UInt8) (fmt : List UInt8) (args : List Nat)
  /-- `consoleintr` with the input buffer as it is at the interrupt. -/
  | consoleintr (d : Data T) (keys : List UInt8)

/-- The characters that reach `consputc`. -/
def Output.chars : Output T → List Int
  | .consolewrite buf => buf.map fun b => (b.toNat : Int)
  | .cprintf str fmt args => Console.cprintf str fmt args
  | .consoleintr d keys => d.echoes keys

def Screen.run (g : Gpu) (font : Int → Nat → Nat) (s : Screen) (calls : List (Output T)) : Screen :=
  s.puts g font (calls.flatMap Output.chars)

end Console
