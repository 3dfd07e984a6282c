import K2.TermWire.RoundTrip
import Mathlib.Data.Nat.Log

/-! # The browser's decoder

The decoder of the client, and the object `JSON.parse` makes of the JSON frame
the same value would have been sent as. -/

namespace K2.TermWire

/-- What both give. A number is a double that holds a natural number, an object
    its keys in insertion order. -/
inductive Js where
  | null
  | bool (b : Bool)
  | number (n : Nat)
  | string (s : String)
  | array (items : List Js)
  | object (members : List (String × Js))
  deriving Repr

/-- The double nearest to `n`, ties to even: `Number` of a bigint, and what
    `JSON.parse` makes of an integer literal. -/
def toDouble (n : Nat) : Nat :=
  if n < 2 ^ 53 then n
  else
    let unit := 2 ^ (Nat.log 2 n - 52)
    let below := n / unit * unit
    let rest := n - below
    if 2 * rest < unit ∨ (2 * rest = unit ∧ n / unit % 2 = 0) then below else below + unit

/-! ## The JSON frame

The derived `Serialize` in camel case; `wrapped` and `cols` are skipped when
`None`. -/

def colorJs (c : Option UInt32) : Js :=
  match c with
  | some v => .number v.toNat
  | none => .null

def CellRun.js (run : CellRun) : Js := .object <|
  [("text", .string run.text), ("fg", colorJs run.fg), ("bg", colorJs run.bg), ("bold", .bool run.bold),
    ("italic", .bool run.italic), ("underline", .bool run.underline), ("inverse", .bool run.inverse),
    ("dim", .bool run.dim), ("strikeout", .bool run.strikeout)] ++
  run.wrapped.toList.map (fun b => ("wrapped", .bool b)) ++
  run.cols.toList.map (fun c => ("cols", .number c.toNat))

def rowJs (row : List CellRun) : Js := .array (row.map CellRun.js)

def rowsJs (rows : List (List CellRun)) : Js := .array (rows.map rowJs)

def CursorSnapshot.js (c : CursorSnapshot) : Js :=
  .object [("row", .number (toDouble c.row)), ("col", .number (toDouble c.col)), ("visible", .bool c.visible)]

def DamagedRow.js (dr : DamagedRow) : Js :=
  .object [("row", .number (toDouble dr.row)), ("runs", rowJs dr.runs)]

def TermGridSnapshot.js (s : TermGridSnapshot) : Js := .object
  [("paneId", .string s.paneId), ("cols", .number (toDouble s.cols)), ("rows", .number (toDouble s.rows)),
    ("grid", rowsJs s.grid), ("scrollback", rowsJs s.scrollback), ("cursor", s.cursor.js),
    ("version", .number (toDouble s.version.toNat)), ("displayOffset", .number (toDouble s.displayOffset)),
    ("mouseReport", .bool s.mouseReport), ("sgrMouse", .bool s.sgrMouse), ("altScreen", .bool s.altScreen)]

def TermGridDelta.js (d : TermGridDelta) : Js := .object
  [("paneId", .string d.paneId), ("cols", .number (toDouble d.cols)), ("rows", .number (toDouble d.rows)),
    ("damagedRows", .array (d.damagedRows.map DamagedRow.js)), ("scrollbackAppended", rowsJs d.scrollbackAppended),
    ("cursor", d.cursor.js), ("version", .number (toDouble d.version.toNat)),
    ("displayOffset", .number (toDouble d.displayOffset))]

/-- The kind of a frame and the object of its JSON text. -/
def jsonParse : WireFrame → String × Js
  | .snapshot s => ("snapshot", s.js)
  | .delta d => ("delta", d.js)

/-! ## `decodeGridFrame` -/

/-- `TextDecoder('utf-8', { fatal: true }).decode`, after the UTF-8 decoding:
    without `ignoreBOM` a leading U+FEFF is dropped. -/
def stripBom (s : String) : String :=
  match s.toList with
  | c :: rest => if c = '\uFEFF' then String.ofList rest else s
  | [] => s

namespace GridWire

def STYLE_BOLD : Nat := 1 <<< 0
def STYLE_ITALIC : Nat := 1 <<< 1
def STYLE_UNDERLINE : Nat := 1 <<< 2
def STYLE_INVERSE : Nat := 1 <<< 3
def STYLE_DIM : Nat := 1 <<< 4
def STYLE_STRIKEOUT : Nat := 1 <<< 5
def STYLE_WRAPPED : Nat := 1 <<< 6
def STYLE_HAS_COLS : Nat := 1 <<< 7
def MODE_MOUSE_REPORT : Nat := 1 <<< 0
def MODE_SGR_MOUSE : Nat := 1 <<< 1
def MODE_ALT_SCREEN : Nat := 1 <<< 2

/-- `throw new Error(e)`. -/
def fail {α : Type} (e : String) : Reader α := fun _ => .error e

def need (n : Nat) : Reader (List UInt8) :=
  ByteReader.take
    (fun n pos => s!"k1 wire decode error: truncated frame, need {n} bytes at offset {pos}") n

def u8 : Reader Nat := do
  let b ← need 1
  pure (ofLe b)

def u16 : Reader Nat := do
  let b ← need 2
  pure (ofLe b)

def u32 : Reader Nat := do
  let b ← need 4
  pure (ofLe b)

def u64 : Reader Nat := do
  let b ← need 8
  pure (toDouble (ofLe b))

def decodeText (bytes : List UInt8) : Reader String :=
  match fromUtf8 bytes with
  | some s => pure (stripBom s)
  | none => fail "TypeError"

def str : Reader String := do
  let len ← u16
  let bytes ← need len
  decodeText bytes

def color : Reader Js := do
  let v ← u32
  pure (if v = 0xFFFFFFFF then .null else .number v)

def colsOf (bits : Nat) : Reader (Option Nat) :=
  if bits &&& STYLE_HAS_COLS ≠ 0 then do
    let c ← u16
    pure (some c)
  else pure none

def run : Reader Js := do
  let text ← str
  let fg ← color
  let bg ← color
  let bits ← u8
  let cols ← colsOf bits
  pure (.object (
    [("text", .string text), ("fg", fg), ("bg", bg), ("bold", .bool (bits &&& STYLE_BOLD ≠ 0)),
      ("italic", .bool (bits &&& STYLE_ITALIC ≠ 0)), ("underline", .bool (bits &&& STYLE_UNDERLINE ≠ 0)),
      ("inverse", .bool (bits &&& STYLE_INVERSE ≠ 0)), ("dim", .bool (bits &&& STYLE_DIM ≠ 0)),
      ("strikeout", .bool (bits &&& STYLE_STRIKEOUT ≠ 0))] ++
    (if bits &&& STYLE_WRAPPED ≠ 0 then [("wrapped", .bool true)] else []) ++
    match cols with
    | some c => [("cols", .number c)]
    | none => []))

def row : Reader Js := do
  let n ← u16
  let out ← ByteReader.many run n
  pure (.array out)

def rows : Reader Js := do
  let n ← u32
  let out ← ByteReader.many row n
  pure (.array out)

def cursor : Reader Js := do
  let row ← u16
  let col ← u16
  let visible ← u8
  pure (.object [("row", .number row), ("col", .number col), ("visible", .bool (visible ≠ 0))])

def damaged : Reader Js := do
  let index ← u16
  let runs ← row
  pure (.object [("row", .number index), ("runs", runs)])

def snapshot : Reader (String × Js) := do
  let paneId ← str
  let cols ← u16
  let rows ← u16
  let frameVersion ← u64
  let displayOffset ← u32
  let cursor ← cursor
  let mode ← u8
  let grid ← GridWire.rows
  let scrollback ← GridWire.rows
  pure ("snapshot", .object
    [("paneId", .string paneId), ("cols", .number cols), ("rows", .number rows), ("grid", grid),
      ("scrollback", scrollback), ("cursor", cursor), ("version", .number frameVersion),
      ("displayOffset", .number displayOffset), ("mouseReport", .bool (mode &&& MODE_MOUSE_REPORT ≠ 0)),
      ("sgrMouse", .bool (mode &&& MODE_SGR_MOUSE ≠ 0)), ("altScreen", .bool (mode &&& MODE_ALT_SCREEN ≠ 0))])

def delta : Reader (String × Js) := do
  let paneId ← str
  let cols ← u16
  let rows ← u16
  let frameVersion ← u64
  let displayOffset ← u32
  let cursor ← cursor
  let damagedCount ← u32
  let damagedRows ← ByteReader.many damaged damagedCount
  let scrollbackAppended ← GridWire.rows
  pure ("delta", .object
    [("paneId", .string paneId), ("cols", .number cols), ("rows", .number rows), ("damagedRows", .array damagedRows),
      ("scrollbackAppended", scrollbackAppended), ("cursor", cursor), ("version", .number frameVersion),
      ("displayOffset", .number displayOffset)])

def frame : Reader (String × Js) := do
  let magic ← u8
  if magic ≠ 0x6B then fail s!"k1 wire decode error: bad magic 0x{String.ofList (Nat.toDigits 16 magic)}"
  else do
    let version ← u8
    if version ≠ 1 then fail s!"k1 wire decode error: unsupported wire version {version}"
    else do
      let kind ← u8
      if kind = 1 then snapshot
      else if kind = 2 then delta
      else fail s!"k1 wire decode error: unknown frame kind {kind}"

end GridWire

def decodeGridFrame (bytes : List UInt8) : Except String (String × Js) :=
  (GridWire.frame { rest := bytes, pos := 0 }).map Prod.fst

end K2.TermWire
