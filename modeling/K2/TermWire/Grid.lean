import Mathlib.Data.List.Basic

/-! # Grid snapshots and deltas

What a server tells a client of a terminal's grid. `usize` fields are natural
numbers. -/

namespace K2.TermWire

structure CursorSnapshot where
  row : Nat
  col : Nat
  visible : Bool
  deriving Repr, DecidableEq

/-- Consecutive cells of one style. -/
structure CellRun where
  text : String
  /-- 0xRRGGBB, or the terminal's default. -/
  fg : Option UInt32
  bg : Option UInt32
  bold : Bool
  italic : Bool
  underline : Bool
  inverse : Bool
  dim : Bool
  strikeout : Bool
  wrapped : Option Bool
  /-- The column span, when it is not the character count. -/
  cols : Option UInt16
  deriving Repr, DecidableEq

structure DamagedRow where
  row : Nat
  runs : List CellRun
  deriving Repr, DecidableEq

structure TermGridSnapshot where
  paneId : String
  cols : Nat
  rows : Nat
  grid : List (List CellRun)
  scrollback : List (List CellRun)
  cursor : CursorSnapshot
  version : UInt64
  displayOffset : Nat
  mouseReport : Bool
  sgrMouse : Bool
  altScreen : Bool
  deriving Repr, DecidableEq

structure TermGridDelta where
  paneId : String
  cols : Nat
  rows : Nat
  damagedRows : List DamagedRow
  scrollbackAppended : List (List CellRun)
  cursor : CursorSnapshot
  version : UInt64
  displayOffset : Nat
  deriving Repr, DecidableEq

inductive WireFrame where
  | snapshot (s : TermGridSnapshot)
  | delta (d : TermGridDelta)
  deriving Repr, DecidableEq

end K2.TermWire
