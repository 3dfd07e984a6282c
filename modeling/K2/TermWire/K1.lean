import K2.Json
import K2.Lib.ByteReader
import K2.TermWire.Chunks
import K2.TermWire.Grid

/-! # The k1 wire format

Snapshots and deltas as bytes, all integers little-endian, and the decoder of
the same crate. -/

namespace K2.TermWire

def WIRE_MAGIC : UInt8 := 0x6B
def WIRE_VERSION : UInt8 := 1
def KIND_SNAPSHOT : UInt8 := 1
def KIND_DELTA : UInt8 := 2

/-- The color that stands for the terminal's default. -/
def COLOR_NONE : UInt32 := 0xFFFFFFFF

def STYLE_BOLD : UInt8 := (1 : UInt8) <<< 0
def STYLE_ITALIC : UInt8 := (1 : UInt8) <<< 1
def STYLE_UNDERLINE : UInt8 := (1 : UInt8) <<< 2
def STYLE_INVERSE : UInt8 := (1 : UInt8) <<< 3
def STYLE_DIM : UInt8 := (1 : UInt8) <<< 4
def STYLE_STRIKEOUT : UInt8 := (1 : UInt8) <<< 5
def STYLE_WRAPPED : UInt8 := (1 : UInt8) <<< 6
def STYLE_HAS_COLS : UInt8 := (1 : UInt8) <<< 7

def MODE_MOUSE_REPORT : UInt8 := (1 : UInt8) <<< 0
def MODE_SGR_MOUSE : UInt8 := (1 : UInt8) <<< 1
def MODE_ALT_SCREEN : UInt8 := (1 : UInt8) <<< 2

/-! ## Encoding

Each function gives the bytes it appends. -/

def putU16 (v : UInt16) : List UInt8 := leBytes 2 v.toNat
def putU32 (v : UInt32) : List UInt8 := leBytes 4 v.toNat
def putU64 (v : UInt64) : List UInt8 := leBytes 8 v.toNat

def u16Sat (v : Nat) : UInt16 := UInt16.ofNat (min v 65535)
def u32Sat (v : Nat) : UInt32 := UInt32.ofNat (min v 4294967295)

def putStr (s : String) : List UInt8 := putU16 (u16Sat (utf8 s).length) ++ utf8 s

def putColor (c : Option UInt32) : List UInt8 := putU32 (c.getD COLOR_NONE)

/-- `if flag { bits |= bit; }` -/
def setBit (bits : UInt8) (flag : Bool) (bit : UInt8) : UInt8 := if flag then bits ||| bit else bits

def styleBits (run : CellRun) : UInt8 :=
  let b := setBit 0 run.bold STYLE_BOLD
  let b := setBit b run.italic STYLE_ITALIC
  let b := setBit b run.underline STYLE_UNDERLINE
  let b := setBit b run.inverse STYLE_INVERSE
  let b := setBit b run.dim STYLE_DIM
  let b := setBit b run.strikeout STYLE_STRIKEOUT
  setBit b (run.wrapped == some true) STYLE_WRAPPED

/-- One piece of a run, under the run's style. -/
def putPiece (run : CellRun) (cols : Option UInt16) (chunk : String) : List UInt8 :=
  putStr chunk ++ putColor run.fg ++ putColor run.bg ++
    match cols with
    | some c => (styleBits run ||| STYLE_HAS_COLS) :: putU16 c
    | none => [styleBits run]

/-- The column span of a run that is split cannot be told of its pieces. -/
def pieceCols (run : CellRun) : Option UInt16 :=
  if (utf8 run.text).length > 65535 then none else run.cols

def putRun (run : CellRun) : List UInt8 := (utf8Chunks run.text).flatMap (putPiece run (pieceCols run))

/-- `n = n.saturating_add(1)` for every piece. -/
def countPieces (row : List CellRun) : UInt16 := u16Sat (row.flatMap (utf8Chunks ·.text)).length

/-- The count is patched in once the runs are out. -/
def putRow (row : List CellRun) : List UInt8 := putU16 (countPieces row) ++ row.flatMap putRun

def putRows (rows : List (List CellRun)) : List UInt8 := putU32 (u32Sat rows.length) ++ rows.flatMap putRow

def putCursor (c : CursorSnapshot) : List UInt8 :=
  putU16 (u16Sat c.row) ++ putU16 (u16Sat c.col) ++ [if c.visible then 1 else 0]

def putHeader (kind : UInt8) : List UInt8 := [WIRE_MAGIC, WIRE_VERSION, kind]

def modeBits (s : TermGridSnapshot) : UInt8 :=
  let mode := setBit 0 s.mouseReport MODE_MOUSE_REPORT
  let mode := setBit mode s.sgrMouse MODE_SGR_MOUSE
  setBit mode s.altScreen MODE_ALT_SCREEN

def encodeSnapshot (s : TermGridSnapshot) : List UInt8 :=
  putHeader KIND_SNAPSHOT ++ (putStr s.paneId ++ (putU16 (u16Sat s.cols) ++ (putU16 (u16Sat s.rows) ++
    (putU64 s.version ++ (putU32 (u32Sat s.displayOffset) ++ (putCursor s.cursor ++ ([modeBits s] ++
      (putRows s.grid ++ putRows s.scrollback))))))))

def putDamaged (dr : DamagedRow) : List UInt8 := putU16 (u16Sat dr.row) ++ putRow dr.runs

def encodeDelta (d : TermGridDelta) : List UInt8 :=
  putHeader KIND_DELTA ++ (putStr d.paneId ++ (putU16 (u16Sat d.cols) ++ (putU16 (u16Sat d.rows) ++
    (putU64 d.version ++ (putU32 (u32Sat d.displayOffset) ++ (putCursor d.cursor ++
      (putU32 (u32Sat d.damagedRows.length) ++ (d.damagedRows.flatMap putDamaged ++
        putRows d.scrollbackAppended))))))))

def encode : WireFrame → List UInt8
  | .snapshot s => encodeSnapshot s
  | .delta d => encodeDelta d

/-! ## Decoding -/

abbrev Reader (α : Type) := ByteReader String α

namespace Reader

def fail {α : Type} (e : String) : Reader α := fun _ => .error e

def take (n : Nat) : Reader (List UInt8) :=
  ByteReader.take (fun n pos => s!"truncated frame: need {n} bytes at offset {pos}") n

def u8 : Reader UInt8 := do
  let b ← take 1
  pure (UInt8.ofNat (ofLe b))

def u16 : Reader UInt16 := do
  let b ← take 2
  pure (UInt16.ofNat (ofLe b))

def u32 : Reader UInt32 := do
  let b ← take 4
  pure (UInt32.ofNat (ofLe b))

def u64 : Reader UInt64 := do
  let b ← take 8
  pure (UInt64.ofNat (ofLe b))

/-- What `from_utf8` says of bytes that are no text. -/
def text (utf8Error : List UInt8 → String) (bytes : List UInt8) : Reader String :=
  match fromUtf8 bytes with
  | some s => pure s
  | none => fail s!"invalid UTF-8 in str: {utf8Error bytes}"

variable (utf8Error : List UInt8 → String)

def str : Reader String := do
  let len ← u16
  let bytes ← take len.toNat
  text utf8Error bytes

def color : Reader (Option UInt32) := do
  let v ← u32
  pure (if v = COLOR_NONE then none else some v)

def colsOf (bits : UInt8) : Reader (Option UInt16) :=
  if bits &&& STYLE_HAS_COLS ≠ 0 then do
    let c ← u16
    pure (some c)
  else pure none

def run : Reader CellRun := do
  let text ← str utf8Error
  let fg ← color
  let bg ← color
  let bits ← u8
  let cols ← colsOf bits
  pure
    { text, fg, bg
      bold := bits &&& STYLE_BOLD ≠ 0
      italic := bits &&& STYLE_ITALIC ≠ 0
      underline := bits &&& STYLE_UNDERLINE ≠ 0
      inverse := bits &&& STYLE_INVERSE ≠ 0
      dim := bits &&& STYLE_DIM ≠ 0
      strikeout := bits &&& STYLE_STRIKEOUT ≠ 0
      wrapped := if bits &&& STYLE_WRAPPED ≠ 0 then some true else none
      cols }

def row : Reader (List CellRun) := do
  let n ← u16
  ByteReader.many (run utf8Error) n.toNat

def rows : Reader (List (List CellRun)) := do
  let n ← u32
  ByteReader.many (row utf8Error) n.toNat

def cursor : Reader CursorSnapshot := do
  let row ← u16
  let col ← u16
  let visible ← u8
  pure { row := row.toNat, col := col.toNat, visible := visible ≠ 0 }

def damaged : Reader DamagedRow := do
  let row ← u16
  let runs ← Reader.row utf8Error
  pure { row := row.toNat, runs }

def snapshot : Reader WireFrame := do
  let paneId ← str utf8Error
  let cols ← u16
  let rows ← u16
  let version ← u64
  let displayOffset ← u32
  let cursor ← cursor
  let mode ← u8
  let grid ← Reader.rows utf8Error
  let scrollback ← Reader.rows utf8Error
  pure (.snapshot
    { paneId, cols := cols.toNat, rows := rows.toNat, grid, scrollback, cursor, version
      displayOffset := displayOffset.toNat
      mouseReport := mode &&& MODE_MOUSE_REPORT ≠ 0
      sgrMouse := mode &&& MODE_SGR_MOUSE ≠ 0
      altScreen := mode &&& MODE_ALT_SCREEN ≠ 0 })

def delta : Reader WireFrame := do
  let paneId ← str utf8Error
  let cols ← u16
  let rows ← u16
  let version ← u64
  let displayOffset ← u32
  let cursor ← cursor
  let damagedCount ← u32
  let damagedRows ← ByteReader.many (damaged utf8Error) damagedCount.toNat
  let scrollbackAppended ← Reader.rows utf8Error
  pure (.delta
    { paneId, cols := cols.toNat, rows := rows.toNat, damagedRows, scrollbackAppended, cursor, version
      displayOffset := displayOffset.toNat })

/-- A byte as two hex digits. -/
def hex2 (b : UInt8) : String := String.ofList [hexDigit (b.toNat / 16), hexDigit (b.toNat % 16)]

def frame : Reader WireFrame := do
  let magic ← u8
  if magic ≠ WIRE_MAGIC then fail s!"bad magic 0x{hex2 magic}"
  else do
    let version ← u8
    if version ≠ WIRE_VERSION then fail s!"unsupported wire version {version.toNat}"
    else do
      let kind ← u8
      if kind = KIND_SNAPSHOT then snapshot utf8Error
      else if kind = KIND_DELTA then delta utf8Error
      else fail s!"unknown frame kind {kind.toNat}"

end Reader

/-- What follows the frame is not looked at. -/
def decodeFrame (utf8Error : List UInt8 → String) (bytes : List UInt8) : Except String WireFrame :=
  (Reader.frame utf8Error { rest := bytes, pos := 0 }).map Prod.fst

end K2.TermWire
