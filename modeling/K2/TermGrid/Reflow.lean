import K2.Lib.Checked
import K2.Text

/-! # Reflow

A screen wrapped again at another width: softly wrapped rows are joined, padding
off, and each logical line is cut in rows of the target width. Positions in a row
are `u16`; steps say where one overflows.
-/

namespace K2.TermGrid

structure StyleSpan where
  /-- The first column and the last. -/
  s : Nat
  e : Nat
  fg : Option UInt32
  bg : Option UInt32
  fl : Option UInt8
  deriving Repr, DecidableEq

structure CompactLine where
  row : Nat
  text : String
  spans : List StyleSpan
  /-- The next row goes on with this one. -/
  wrapped : Bool
  deriving Repr, DecidableEq

structure PerfInfo where
  snapshotUs : UInt64
  lineCount : UInt16
  textBytes : UInt32
  spanCount : UInt16
  deriving Repr, DecidableEq

structure GridUpdate where
  cols : Nat
  rows : Nat
  cursorCol : Nat
  cursorRow : Nat
  cursorVisible : Bool
  cursorShape : String
  lines : List CompactLine
  full : Bool
  mode : UInt32
  displayOffset : Nat
  selection : Option (UInt16 × UInt16 × UInt16 × UInt16)
  perf : Option PerfInfo
  seqno : UInt64
  deriving Repr, DecidableEq

/-- One or more rows joined. -/
structure LogicalLine where
  text : String
  spans : List StyleSpan
  deriving Repr, DecidableEq

/-- `s.chars().count()`. -/
def charCount (s : String) : Nat := s.toList.length

/-- `str::trim_end`. -/
def trimEnd (s : String) : String := String.ofList (s.toList.rdropWhile Text.isWhitespace)

/-! ## Joining -/

/-- A span no longer than the trimmed text. -/
def clampSpan (trimmedChars : Nat) (span : StyleSpan) : StyleSpan :=
  if span.e ≥ trimmedChars then { span with e := trimmedChars - 1 } else span

/-- A line without the blanks at its end, its spans clamped to what is left. -/
def trimLine (line : LogicalLine) : LogicalLine :=
  let trimmed := trimEnd line.text
  if Text.byteLen trimmed < Text.byteLen line.text then
    let trimmedChars := Exact.asU16 (charCount trimmed)
    { text := trimmed, spans := (line.spans.filter (·.s < trimmedChars)).map (clampSpan trimmedChars) }
  else line

def shiftSpan (offset : Nat) (span : StyleSpan) : Exact StyleSpan := do
  let s ← Exact.addU16 span.s offset
  let e ← Exact.addU16 span.e offset
  pure { span with s := s, e := e }

/-- Append a row to a line. -/
def appendRow (cur : LogicalLine) (line : CompactLine) : Exact LogicalLine := do
  let shifted ← Exact.traverse (shiftSpan (Exact.asU16 (charCount cur.text))) line.spans
  pure { text := cur.text ++ line.text, spans := cur.spans ++ shifted }

/-- One row: the lines that are done, and the one that goes on. -/
def joinStep (acc : List LogicalLine × Option LogicalLine) (line : CompactLine) :
    Exact (List LogicalLine × Option LogicalLine) :=
  match acc.2 with
  | some cur => do
      let cur ← appendRow (trimLine cur) line
      pure (if !line.wrapped then (acc.1 ++ [cur], none) else (acc.1, some cur))
  | none =>
      let logical : LogicalLine := ⟨line.text, line.spans⟩
      pure (if line.wrapped then (acc.1, some logical) else (acc.1 ++ [logical], none))

/-- The lines that are done, and then the one that goes on. -/
def flush (acc : List LogicalLine × Option LogicalLine) : List LogicalLine :=
  match acc.2 with
  | some cur => acc.1 ++ [cur]
  | none => acc.1

def joinWrappedLines (lines : List CompactLine) : Exact (List LogicalLine) := do
  let acc ← Exact.fold joinStep ([], none) lines
  pure ((flush acc).map trimLine)

/-! ## Wrapping -/

/-- The last column of a span within a chunk. -/
def chunkSpanEnd (chunkStart chunkEnd e : Nat) : Exact Nat :=
  if e < chunkEnd then Exact.subU16 e chunkStart
  else do
    let width ← Exact.subU16 chunkEnd chunkStart
    Exact.subU16 width 1

/-- A span as a chunk of the line has it. -/
def chunkSpan (chunkStart chunkEnd : Nat) (span : StyleSpan) : Exact (Option StyleSpan) :=
  if span.e < chunkStart ∨ span.s ≥ chunkEnd then pure none
  else do
    let localE ← chunkSpanEnd chunkStart chunkEnd span.e
    pure (some { span with s := span.s - chunkStart, e := localE })

/-- The rows from `charOffset` on. A round takes a character at least, so `fuel` of
    as many as are left is enough. -/
def wrapFrom (logical : LogicalLine) (target : Nat) : (fuel charOffset : Nat) → Exact (List CompactLine)
  | 0, _ => pure []
  | fuel + 1, charOffset =>
      let chars := logical.text.toList
      if charOffset < chars.length then do
        let stop := min (charOffset + target) chars.length
        let chunkText := String.ofList ((chars.drop charOffset).take (stop - charOffset))
        let isLast := stop ≥ chars.length
        let chunkSpans ← Exact.traverse (chunkSpan (Exact.asU16 charOffset) (Exact.asU16 stop)) logical.spans
        let rest ← wrapFrom logical target fuel stop
        pure ({ row := 0, text := trimEnd chunkText, spans := chunkSpans.reduceOption, wrapped := !isLast } :: rest)
      else pure []

def wrapLogicalLine (logical : LogicalLine) (targetCols : Nat) : Exact (List CompactLine) :=
  if charCount logical.text ≤ targetCols then
    pure [{ row := 0, text := logical.text, spans := logical.spans, wrapped := false }]
  else wrapFrom logical targetCols (charCount logical.text) 0

/-- All rows, before the top is cut off. -/
def reflowLines (lines : List CompactLine) (targetCols : Nat) : Exact (List CompactLine) := do
  let logicalLines ← joinWrappedLines lines
  let wrapped ← Exact.traverse (wrapLogicalLine · targetCols) logicalLines
  pure wrapped.flatten

def reflowGrid (grid : GridUpdate) (targetCols targetRows : Nat) : Exact GridUpdate :=
  if targetCols = 0 ∨ targetRows = 0 then pure grid
  else do
    let reflowed ← reflowLines grid.lines targetCols
    let start := reflowed.length - targetRows
    let visible := (reflowed.drop start).mapIdx fun i line => { line with row := Exact.asU16 i }
    pure
      { cols := targetCols
        rows := targetRows
        cursorCol := min grid.cursorCol (targetCols - 1)
        cursorRow := min grid.cursorRow (targetRows - 1)
        cursorVisible := grid.cursorVisible
        cursorShape := grid.cursorShape
        lines := visible
        full := true
        mode := grid.mode
        displayOffset := start
        selection := none
        perf := none
        seqno := grid.seqno }

end K2.TermGrid
