import K2.TermWire.Grid

/-! # Cells of a terminal's grid

A cell as the terminal keeps it, of its flags those a row's encoding reads, and
the run of one cell. The terminal keeps its extra characters without width, so
none of them is a space, and marks as wide only a glyph that is.
-/

namespace K2.TermGrid

open K2.TermWire

inductive NamedColor where
  | black | red | green | yellow | blue | magenta | cyan | white
  | brightBlack | brightRed | brightGreen | brightYellow
  | brightBlue | brightMagenta | brightCyan | brightWhite
  | foreground | background | cursor
  | dimBlack | dimRed | dimGreen | dimYellow | dimBlue | dimMagenta | dimCyan | dimWhite
  | brightForeground | dimForeground
  deriving Repr, DecidableEq

/-- `n as u32`. -/
def NamedColor.index : NamedColor → Nat
  | black => 0 | red => 1 | green => 2 | yellow => 3
  | blue => 4 | magenta => 5 | cyan => 6 | white => 7
  | brightBlack => 8 | brightRed => 9 | brightGreen => 10 | brightYellow => 11
  | brightBlue => 12 | brightMagenta => 13 | brightCyan => 14 | brightWhite => 15
  | foreground => 256 | background => 257 | cursor => 258
  | dimBlack => 259 | dimRed => 260 | dimGreen => 261 | dimYellow => 262
  | dimBlue => 263 | dimMagenta => 264 | dimCyan => 265 | dimWhite => 266
  | brightForeground => 267 | dimForeground => 268

inductive Color where
  | named (n : NamedColor)
  | spec (r g b : UInt8)
  | indexed (i : UInt8)
  deriving Repr, DecidableEq

/-- Xterm's basic sixteen. -/
def palette16 : List UInt32 :=
  [0x000000, 0xcd0000, 0x00cd00, 0xcdcd00, 0x0000ee, 0xcd00cd, 0x00cdcd, 0xe5e5e5,
    0x7f7f7f, 0xff0000, 0x00ff00, 0xffff00, 0x5c5cff, 0xff00ff, 0x00ffff, 0xffffff]

def rgb (r g b : UInt32) : UInt32 := (r <<< 16) ||| (g <<< 8) ||| b

/-- The sixteen, the colour cube, then the greys. -/
def palette256 (idx : UInt8) : UInt32 :=
  if idx.toNat < 16 then palette16.getD idx.toNat 0
  else if idx < 232 then
    let i := (idx - 16).toUInt32
    let component (x : UInt32) := if x = 0 then 0 else 55 + x * 40
    rgb (component (i / 36)) (component ((i % 36) / 6)) (component (i % 6))
  else
    let v := 8 + (idx.toUInt32 - 232) * 10
    rgb v v v

/-- 0xRRGGBB, or nothing for the terminal's own colours. -/
def resolveColor : Color → Option UInt32
  | .named .foreground | .named .background | .named .cursor
  | .named .brightForeground | .named .dimForeground => none
  | .named n => if n.index < 16 then some (palette16.getD n.index 0) else none
  | .spec r g b => some (rgb r.toUInt32 g.toUInt32 b.toUInt32)
  | .indexed i => some (palette256 i)

structure Flags where
  inverse : Bool := false
  bold : Bool := false
  italic : Bool := false
  underline : Bool := false
  doubleUnderline : Bool := false
  undercurl : Bool := false
  dottedUnderline : Bool := false
  dashedUnderline : Bool := false
  wrapline : Bool := false
  wideChar : Bool := false
  wideCharSpacer : Bool := false
  dim : Bool := false
  strikeout : Bool := false
  deriving Repr, DecidableEq

/-- `flags.intersects(Flags::ALL_UNDERLINES)`. -/
def Flags.anyUnderline (f : Flags) : Bool :=
  f.underline || f.doubleUnderline || f.undercurl || f.dottedUnderline || f.dashedUnderline

structure Cell where
  c : Char
  fg : Color
  bg : Color
  flags : Flags
  zerowidth : Option (List Char)
  zerowidth_noSpace : ∀ zw ∈ zerowidth, ' ' ∉ zw
  wide_glyph : flags.wideChar → c ≠ ' ' ∧ c ≠ Char.ofNat 0

/-- One cell as a run of one character; a blank is a space. -/
def cellToRun (cell : Cell) : CellRun :=
  let ch := if cell.c = Char.ofNat 0 then ' ' else cell.c
  { text := String.ofList [ch]
    fg := resolveColor cell.fg
    bg := resolveColor cell.bg
    bold := cell.flags.bold
    italic := cell.flags.italic
    underline := cell.flags.anyUnderline
    inverse := cell.flags.inverse
    dim := cell.flags.dim
    strikeout := cell.flags.strikeout
    wrapped := none
    cols := none }

end K2.TermGrid
