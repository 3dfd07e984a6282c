import K2.Lib.Machines
import Mathlib.Data.List.Basic

/-! # SGR parameters

`applySgr` flattens the colon sub-parameters into the semicolon list and walks
the result, so that whatever a code does not use up is read as a code of its own.
The standard reads one parameter at a time, its sub-parameters only for it. -/

namespace K2.Term

structure Style where
  fg : Option UInt32
  bg : Option UInt32
  bold : Bool
  italic : Bool
  underline : Bool
deriving DecidableEq, Repr

def Style.default : Style := ⟨none, none, false, false, false⟩

/-- A semicolon group: its code and the sub-parameters behind colons. -/
structure Param where
  code : UInt16
  subs : List UInt16
deriving DecidableEq, Repr

def PALETTE_16 : List UInt32 :=
  [0x000000, 0xcd0000, 0x00cd00, 0xcdcd00, 0x0000ee, 0xcd00cd, 0x00cdcd, 0xe5e5e5,
   0x7f7f7f, 0xff0000, 0x00ff00, 0xffff00, 0x5c5cff, 0xff00ff, 0x00ffff, 0xffffff]

/-- The xterm cube. -/
def LEVELS : List UInt32 := [0, 95, 135, 175, 215, 255]

-- The indices are within both tables on every branch.
def palette (idx : UInt16) : UInt32 := PALETTE_16.getD idx.toNat 0

def level (idx : UInt32) : UInt32 := LEVELS.getD idx.toNat 0

def rgb (r g b : UInt32) : UInt32 := (r <<< 16) ||| (g <<< 8) ||| b

def palette_256 (idx : UInt16) : UInt32 :=
  if idx < 16 then palette idx
  else if idx < 232 then
    let i := (idx - 16).toUInt32
    rgb (level (i / 36)) (level ((i / 6) % 6)) (level (i % 6))
  else
    let v := 8 + (idx - 232).toUInt32 * 10
    rgb v v v

def Style.setColour (style : Style) (isFg : Bool) (colour : UInt32) : Style :=
  if isFg then { style with fg := some colour } else { style with bg := some colour }

/-- The codes that stand alone. -/
def plainCode (code : UInt16) (style : Style) : Style :=
  if code = 0 then Style.default
  else if code = 1 then { style with bold := true }
  else if code = 3 then { style with italic := true }
  else if code = 4 then { style with underline := true }
  else if code = 22 then { style with bold := false }
  else if code = 23 then { style with italic := false }
  else if code = 24 then { style with underline := false }
  else if 30 ≤ code ∧ code ≤ 37 then style.setColour true (palette (code - 30))
  else if code = 39 then { style with fg := none }
  else if 40 ≤ code ∧ code ≤ 47 then style.setColour false (palette (code - 40))
  else if code = 49 then { style with bg := none }
  else if 90 ≤ code ∧ code ≤ 97 then style.setColour true (palette (code - 90 + 8))
  else if 100 ≤ code ∧ code ≤ 107 then style.setColour false (palette (code - 100 + 8))
  else style

/-- The codes that take a colour from what follows. -/
def Extended (code : UInt16) : Prop := code = 38 ∨ code = 48

instance (code : UInt16) : Decidable (Extended code) := inferInstanceAs (Decidable (_ ∨ _))

def flatten (params : List Param) : List UInt16 := params.flatMap fun p => p.code :: p.subs

/-- A style without attributes is stored as none. -/
def Style.stored (style : Style) : Option Style := if style = Style.default then none else some style

namespace Standard

def InRange (component : UInt16) : Prop := component ≤ 255

instance (component : UInt16) : Decidable (InRange component) := inferInstanceAs (Decidable (_ ≤ _))

/-- A palette colour, unless the index is out of range. -/
def indexed (idx : UInt16) : Option UInt32 := if InRange idx then some (palette_256 idx) else none

def direct (r g b : UInt16) : Option UInt32 :=
  if InRange r ∧ InRange g ∧ InRange b then some (rgb r.toUInt32 g.toUInt32 b.toUInt32) else none

/-- The colour that sub-parameters spell. A sixth sub-parameter makes the second
    the colour space. -/
def colonColour : List UInt16 → Option UInt32
  | mode :: comps =>
    if mode = 5 then
      match comps with
      | idx :: _ => indexed idx
      | [] => none
    else if mode = 2 then
      match comps with
      | [r, g, b] => direct r g b
      | _ :: r :: g :: b :: _ => direct r g b
      | _ => none
    else none
  | [] => none

/-- The colour in the parameters behind a 38 or 48 of its own, and how many of
    them belong to it. One cut short takes all that is left. -/
def semicolonColour (more : List Param) : Option UInt32 × Nat :=
  match more with
  | mode :: comps =>
    if mode.code = 5 then
      match comps with
      | idx :: _ => (indexed idx.code, 2)
      | [] => (none, 1)
    else if mode.code = 2 then
      match comps with
      | r :: g :: b :: _ => (direct r.code g.code b.code, 4)
      | _ => (none, more.length)
    else (none, 0)
  | [] => (none, 0)

/-- `4:n` is an underline of some kind, or none for 0. -/
def ownCode (p : Param) (style : Style) : Style :=
  if p.code = 4 ∧ p.subs.head? = some 0 then { style with underline := false } else plainCode p.code style

def applyParam (p : Param) (more : List Param) (style : Style) : Style × Nat :=
  if Extended p.code then
    let spelled := if p.subs = [] then semicolonColour more else (colonColour p.subs, 0)
    (spelled.1.elim style (style.setColour (p.code = 38)), spelled.2)
  else (ownCode p style, 0)

/-- No parameters at all are a reset. -/
def style (params : List Param) (prior : Style) : Style :=
  if params = [] then Style.default else Strides.walk applyParam 0 params prior

end Standard

end K2.Term
