import K2.TermWire.K1

/-! # Frames read back

Every part of a frame is read back from the bytes it is written as, whatever
follows them. A run too long for its length field comes back in pieces. -/

namespace K2.TermWire

open ByteReader (Reads Stable)

variable {utf8Error : List UInt8 → String}

/-! ## Integers and texts -/

theorem reads_take {bytes : List UInt8} {n : Nat} (length : bytes.length = n) :
    Reads (Reader.take n) bytes bytes := Reads.take _ length

theorem reads_u8 (b : UInt8) : Reads Reader.u8 [b] b := by
  have read := (reads_take (show [b].length = 1 from rfl)).map (f := fun b => UInt8.ofNat (ofLe b))
  exact read.of_eq rfl (by simp [ofLe])

theorem reads_u16 (v : UInt16) : Reads Reader.u16 (putU16 v) v := by
  have read := (reads_take (length_leBytes 2 v.toNat)).map (f := fun b => UInt16.ofNat (ofLe b))
  exact read.of_eq rfl (by rw [ofLe_leBytes v.toNat_lt, UInt16.ofNat_toNat])

theorem reads_u32 (v : UInt32) : Reads Reader.u32 (putU32 v) v := by
  have read := (reads_take (length_leBytes 4 v.toNat)).map (f := fun b => UInt32.ofNat (ofLe b))
  exact read.of_eq rfl (by rw [ofLe_leBytes v.toNat_lt, UInt32.ofNat_toNat])

theorem reads_u64 (v : UInt64) : Reads Reader.u64 (putU64 v) v := by
  have read := (reads_take (length_leBytes 8 v.toNat)).map (f := fun b => UInt64.ofNat (ofLe b))
  exact read.of_eq rfl (by rw [ofLe_leBytes v.toNat_lt, UInt64.ofNat_toNat])

theorem u16Sat_toNat {v : Nat} (fits : v ≤ 65535) : (u16Sat v).toNat = v := by
  rw [u16Sat, Nat.min_eq_left fits, UInt16.toNat_ofNat']
  omega

theorem u32Sat_toNat {v : Nat} (fits : v ≤ 4294967295) : (u32Sat v).toNat = v := by
  rw [u32Sat, Nat.min_eq_left fits, UInt32.toNat_ofNat']
  omega

theorem reads_text (s : String) : Reads (Reader.text utf8Error (utf8 s)) [] s := by
  rw [Reader.text, fromUtf8_utf8]
  exact Reads.pure s

theorem reads_str {s : String} (fits : (utf8 s).length ≤ 65535) : Reads (Reader.str utf8Error) (putStr s) s := by
  have bytes : Reads (Reader.take (u16Sat (utf8 s).length).toNat) (utf8 s) (utf8 s) :=
    reads_take (u16Sat_toNat fits).symm
  exact ((reads_u16 _).bind (bytes.bind (reads_text s))).of_eq (by rw [List.append_nil]; rfl) rfl

theorem reads_color {c : Option UInt32} (rgb : c ≠ some COLOR_NONE) : Reads Reader.color (putColor c) c := by
  have read := (reads_u32 (c.getD COLOR_NONE)).map (f := fun v => if v = COLOR_NONE then none else some v)
  refine read.of_eq rfl ?_
  cases c with
  | none => exact if_pos rfl
  | some v => exact if_neg fun same => rgb (congrArg some same)

/-! ## Style bits -/

/-- Each bit of a style says what its flag says, under the has-cols bit. -/
theorem styleBits_spec (run : CellRun) (spanned : Bool) :
    let bits := setBit (styleBits run) spanned STYLE_HAS_COLS
    (decide (bits &&& STYLE_BOLD ≠ 0) = run.bold) ∧ (decide (bits &&& STYLE_ITALIC ≠ 0) = run.italic) ∧
    (decide (bits &&& STYLE_UNDERLINE ≠ 0) = run.underline) ∧ (decide (bits &&& STYLE_INVERSE ≠ 0) = run.inverse) ∧
    (decide (bits &&& STYLE_DIM ≠ 0) = run.dim) ∧ (decide (bits &&& STYLE_STRIKEOUT ≠ 0) = run.strikeout) ∧
    (decide (bits &&& STYLE_WRAPPED ≠ 0) = (run.wrapped == some true)) ∧
    (decide (bits &&& STYLE_HAS_COLS ≠ 0) = spanned) := by
  unfold styleBits
  generalize run.bold = bold, run.italic = italic, run.underline = underline, run.inverse = inverse,
    run.dim = dim, run.strikeout = strikeout, (run.wrapped == some true) = wrapped
  revert bold italic underline inverse dim strikeout wrapped spanned
  decide

/-! ## Runs -/

/-- What the format can say of a run: colors are 24 bits, and `wrapped` is
    never `Some(false)`. -/
structure CellRun.Fits (run : CellRun) : Prop where
  fg_rgb : ∀ c, run.fg = some c → c ≤ 0xFFFFFF
  bg_rgb : ∀ c, run.bg = some c → c ≤ 0xFFFFFF
  wrapped : run.wrapped ≠ some false

theorem ne_none_of_rgb {c : Option UInt32} (rgb : ∀ v, c = some v → v ≤ 0xFFFFFF) : c ≠ some COLOR_NONE := by
  intro same
  exact absurd (rgb _ same) (by decide)

/-- The bytes after the colors, for any span. -/
def putStyle (run : CellRun) (cols : Option UInt16) : List UInt8 :=
  match cols with
  | some c => (styleBits run ||| STYLE_HAS_COLS) :: putU16 c
  | none => [styleBits run]

theorem reads_colsOf (run : CellRun) (cols : Option UInt16) :
    Reads (Reader.colsOf (setBit (styleBits run) cols.isSome STYLE_HAS_COLS)) (cols.elim [] putU16) cols := by
  have spanned := (styleBits_spec run cols.isSome).2.2.2.2.2.2.2
  cases cols with
  | none =>
    rw [Reader.colsOf, if_neg (by simpa using spanned)]
    exact Reads.pure none
  | some c =>
    rw [Reader.colsOf, if_pos (by simpa using spanned)]
    exact (reads_u16 c).map

theorem putStyle_eq (run : CellRun) (cols : Option UInt16) :
    putStyle run cols = setBit (styleBits run) cols.isSome STYLE_HAS_COLS :: cols.elim [] putU16 := by
  cases cols <;> rfl

theorem wrapped_eq {run : CellRun} (fits : run.Fits) :
    (if (run.wrapped == some true) = true then some true else none) = run.wrapped := by
  have never := fits.wrapped
  cases same : run.wrapped with
  | none => rfl
  | some b =>
    cases b with
    | true => rfl
    | false => exact absurd same never

theorem reads_piece {run : CellRun} (fits : run.Fits) (cols : Option UInt16) {chunk : String}
    (short : (utf8 chunk).length ≤ 65535) :
    Reads (Reader.run utf8Error) (putPiece run cols chunk) { run with text := chunk, cols } := by
  have bytes : putPiece run cols chunk = putStr chunk ++ (putColor run.fg ++ (putColor run.bg ++
      ([setBit (styleBits run) cols.isSome STYLE_HAS_COLS] ++ (cols.elim [] putU16 ++ [])))) := by
    have style := putStyle_eq run cols
    simp only [putPiece, List.append_assoc, List.append_nil, List.singleton_append]
    rw [← style]
    rfl
  rw [bytes, Reader.run]
  refine (reads_str short).bind ?_
  refine (reads_color (ne_none_of_rgb fits.fg_rgb)).bind ?_
  refine (reads_color (ne_none_of_rgb fits.bg_rgb)).bind ?_
  refine (reads_u8 _).bind ?_
  refine (reads_colsOf run cols).bind ?_
  refine (Reads.pure _).of_eq rfl ?_
  obtain ⟨bold, italic, underline, inverse, dim, strikeout, wrapped, -⟩ := styleBits_spec run cols.isSome
  have wraps : (if setBit (styleBits run) cols.isSome STYLE_HAS_COLS &&& STYLE_WRAPPED ≠ 0 then some true else none)
      = run.wrapped := by
    rw [← wrapped_eq fits, ← wrapped]
    simp only [decide_eq_true_eq]
  simp only [bold, italic, underline, inverse, dim, strikeout, wraps]

/-- What a run comes back as. -/
def splitRun (run : CellRun) : List CellRun :=
  (utf8Chunks run.text).map fun chunk => { run with text := chunk, cols := pieceCols run }

def splitRow (row : List CellRun) : List CellRun := row.flatMap splitRun

/-- Every run fits, and a `u16` counts the row's pieces. -/
structure RowFits (row : List CellRun) : Prop where
  runs : ∀ run ∈ row, run.Fits
  pieces : (row.flatMap (utf8Chunks ·.text)).length ≤ 65535

theorem reads_row {row : List CellRun} (fits : RowFits row) :
    Reads (Reader.row utf8Error) (putRow row) (splitRow row) := by
  -- the pieces of the whole row, each with its run
  obtain ⟨pieces, known⟩ :
      ∃ pieces : List (CellRun × String), pieces = row.flatMap fun run => (utf8Chunks run.text).map (run, ·) :=
    ⟨_, rfl⟩
  have count : (row.flatMap (utf8Chunks ·.text)).length = pieces.length := by
    simp [known, List.length_flatMap]
  have each : ∀ piece ∈ pieces, Reads (Reader.run utf8Error) (putPiece piece.1 (pieceCols piece.1) piece.2)
      { piece.1 with text := piece.2, cols := pieceCols piece.1 } := by
    intro piece mem
    rw [known] at mem
    obtain ⟨run, inRow, mem⟩ := List.mem_flatMap.mp mem
    obtain ⟨chunk, inRun, rfl⟩ := List.mem_map.mp mem
    exact reads_piece (fits.runs run inRow) (pieceCols run) (length_utf8Chunks inRun)
  rw [Reader.row, putRow]
  refine (reads_u16 (countPieces row)).bind ?_
  rw [countPieces, u16Sat_toNat fits.pieces, count]
  refine (Reads.many each).of_eq ?_ ?_
  · rw [known, List.flatMap_assoc]
    simp only [List.flatMap_map]
    rfl
  · rw [known, List.map_flatMap]
    simp only [List.map_map]
    rfl

/-- Rows, as many as a `u32` counts. -/
structure RowsFit (rows : List (List CellRun)) : Prop where
  each : ∀ row ∈ rows, RowFits row
  count : rows.length ≤ 4294967295

theorem reads_rows {rows : List (List CellRun)} (fits : RowsFit rows) :
    Reads (Reader.rows utf8Error) (putRows rows) (rows.map splitRow) := by
  rw [Reader.rows, putRows]
  refine (reads_u32 _).bind ?_
  rw [u32Sat_toNat fits.count]
  exact Reads.many fun row mem => reads_row (fits.each row mem)

theorem reads_cursor {c : CursorSnapshot} (row : c.row ≤ 65535) (col : c.col ≤ 65535) :
    Reads Reader.cursor (putCursor c) c := by
  rw [Reader.cursor, putCursor, List.append_assoc]
  refine (reads_u16 _).bind ((reads_u16 _).bind ((reads_u8 _).map.of_eq rfl ?_))
  rw [u16Sat_toNat row, u16Sat_toNat col]
  obtain ⟨_, _, visible⟩ := c
  cases visible <;> rfl

theorem reads_damaged {dr : DamagedRow} (row : dr.row ≤ 65535) (runs : RowFits dr.runs) :
    Reads (Reader.damaged utf8Error) (putDamaged dr) { dr with runs := splitRow dr.runs } := by
  rw [Reader.damaged, putDamaged]
  refine (reads_u16 _).bind ((reads_row runs).map.of_eq rfl ?_)
  rw [u16Sat_toNat row]

/-! ## Frames -/

/-- The bounds of a frame's geometry. Nothing in it bounds how many rows a
    frame holds. -/
structure Geometry (paneId : String) (cols rows : Nat) (cursor : CursorSnapshot) (displayOffset : Nat) : Prop where
  paneId : (utf8 paneId).length ≤ 65535
  cols : cols ≤ 65535
  rows : rows ≤ 65535
  row : cursor.row ≤ 65535
  col : cursor.col ≤ 65535
  displayOffset : displayOffset ≤ 4294967295

namespace WireFrame

def Fits : WireFrame → Prop
  | .snapshot s => Geometry s.paneId s.cols s.rows s.cursor s.displayOffset ∧
      (∀ row ∈ s.grid, RowFits row) ∧ ∀ row ∈ s.scrollback, RowFits row
  | .delta d => Geometry d.paneId d.cols d.rows d.cursor d.displayOffset ∧
      (∀ dr ∈ d.damagedRows, dr.row ≤ 65535 ∧ RowFits dr.runs) ∧ ∀ row ∈ d.scrollbackAppended, RowFits row

/-- A `u32` counts each list of rows. -/
def Counted : WireFrame → Prop
  | .snapshot s => s.grid.length ≤ 4294967295 ∧ s.scrollback.length ≤ 4294967295
  | .delta d => d.damagedRows.length ≤ 4294967295 ∧ d.scrollbackAppended.length ≤ 4294967295

/-- The frame with every run that is too long in pieces. -/
def split : WireFrame → WireFrame
  | .snapshot s => .snapshot { s with grid := s.grid.map splitRow, scrollback := s.scrollback.map splitRow }
  | .delta d => .delta
      { d with
        damagedRows := d.damagedRows.map fun dr => { dr with runs := splitRow dr.runs }
        scrollbackAppended := d.scrollbackAppended.map splitRow }

end WireFrame

theorem modeBits_spec (s : TermGridSnapshot) :
    (decide (modeBits s &&& MODE_MOUSE_REPORT ≠ 0) = s.mouseReport) ∧
    (decide (modeBits s &&& MODE_SGR_MOUSE ≠ 0) = s.sgrMouse) ∧
    (decide (modeBits s &&& MODE_ALT_SCREEN ≠ 0) = s.altScreen) := by
  unfold modeBits
  generalize s.mouseReport = mouseReport, s.sgrMouse = sgrMouse, s.altScreen = altScreen
  revert mouseReport sgrMouse altScreen
  decide

theorem reads_frame {kind : UInt8} {body : List UInt8} {x : WireFrame}
    (read : Reads (if kind = KIND_SNAPSHOT then Reader.snapshot utf8Error
      else if kind = KIND_DELTA then Reader.delta utf8Error
      else Reader.fail s!"unknown frame kind {kind.toNat}") body x) :
    Reads (Reader.frame utf8Error) (putHeader kind ++ body) x := by
  have bytes : putHeader kind ++ body = [WIRE_MAGIC] ++ ([WIRE_VERSION] ++ ([kind] ++ body)) := rfl
  rw [Reader.frame, bytes]
  refine (reads_u8 WIRE_MAGIC).bind ?_
  rw [if_neg (fun differs => differs rfl)]
  refine (reads_u8 WIRE_VERSION).bind ?_
  rw [if_neg (fun differs => differs rfl)]
  exact (reads_u8 kind).bind read

theorem reads_snapshot {s : TermGridSnapshot} (fits : (WireFrame.snapshot s).Fits)
    (counted : (WireFrame.snapshot s).Counted) :
    Reads (Reader.frame utf8Error) (encodeSnapshot s) (WireFrame.snapshot s).split := by
  obtain ⟨geometry, grid, scrollback⟩ := fits
  refine reads_frame ?_
  rw [if_pos rfl, Reader.snapshot]
  refine (reads_str geometry.paneId).bind ?_
  refine (reads_u16 _).bind ((reads_u16 _).bind ?_)
  refine (reads_u64 _).bind ((reads_u32 _).bind ?_)
  refine (reads_cursor geometry.row geometry.col).bind ?_
  refine (reads_u8 _).bind ?_
  refine (reads_rows ⟨grid, counted.1⟩).bind ?_
  refine (reads_rows ⟨scrollback, counted.2⟩).map.of_eq rfl ?_
  obtain ⟨mouseReport, sgrMouse, altScreen⟩ := modeBits_spec s
  simp only [mouseReport, sgrMouse, altScreen, u16Sat_toNat geometry.cols, u16Sat_toNat geometry.rows,
    u32Sat_toNat geometry.displayOffset, WireFrame.split]

theorem reads_delta {d : TermGridDelta} (fits : (WireFrame.delta d).Fits) (counted : (WireFrame.delta d).Counted) :
    Reads (Reader.frame utf8Error) (encodeDelta d) (WireFrame.delta d).split := by
  obtain ⟨geometry, damaged, scrollback⟩ := fits
  refine reads_frame ?_
  rw [if_neg (by decide), if_pos rfl, Reader.delta]
  refine (reads_str geometry.paneId).bind ?_
  refine (reads_u16 _).bind ((reads_u16 _).bind ?_)
  refine (reads_u64 _).bind ((reads_u32 _).bind ?_)
  refine (reads_cursor geometry.row geometry.col).bind ?_
  refine (reads_u32 _).bind ?_
  rw [u32Sat_toNat counted.1]
  refine (Reads.many fun dr mem => reads_damaged (damaged dr mem).1 (damaged dr mem).2).bind ?_
  refine (reads_rows ⟨scrollback, counted.2⟩).map.of_eq rfl ?_
  simp only [u16Sat_toNat geometry.cols, u16Sat_toNat geometry.rows, u32Sat_toNat geometry.displayOffset,
    WireFrame.split]

theorem reads_encode (utf8Error : List UInt8 → String) {f : WireFrame} (fits : f.Fits) (counted : f.Counted) :
    Reads (Reader.frame utf8Error) (encode f) f.split := by
  cases f with
  | snapshot s => exact reads_snapshot fits counted
  | delta d => exact reads_delta fits counted

/-! ## The same value -/

/-- What a run may come back as: itself, or, when its text is too long for its
    length field, runs of its style whose texts put together are its text. -/
def Pieces (run : CellRun) (runs : List CellRun) : Prop :=
  if (utf8 run.text).length ≤ 65535 then runs = [run]
  else (∀ r ∈ runs, r = { run with text := r.text, cols := none }) ∧
    (runs.map CellRun.text).foldr (· ++ ·) "" = run.text

def RowRestored (row back : List CellRun) : Prop :=
  ∃ parts, List.Forall₂ Pieces row parts ∧ back = parts.flatten

def DamagedRestored (dr back : DamagedRow) : Prop := back.row = dr.row ∧ RowRestored dr.runs back.runs

/-- `back` is the frame, but for the pieces of its long runs. -/
def WireFrame.Restored : WireFrame → WireFrame → Prop
  | .snapshot s, .snapshot back =>
      back = { s with grid := back.grid, scrollback := back.scrollback } ∧
      List.Forall₂ RowRestored s.grid back.grid ∧ List.Forall₂ RowRestored s.scrollback back.scrollback
  | .delta d, .delta back =>
      back = { d with damagedRows := back.damagedRows, scrollbackAppended := back.scrollbackAppended } ∧
      List.Forall₂ DamagedRestored d.damagedRows back.damagedRows ∧
      List.Forall₂ RowRestored d.scrollbackAppended back.scrollbackAppended
  | _, _ => False

theorem splitRun_pieces (run : CellRun) : Pieces run (splitRun run) := by
  unfold Pieces
  split
  next fits =>
    rw [splitRun, utf8Chunks_of_fits fits, pieceCols, if_neg (by omega)]
    rfl
  next long =>
    refine ⟨fun r mem => ?_, ?_⟩
    · obtain ⟨chunk, -, rfl⟩ := List.mem_map.mp mem
      rw [pieceCols, if_pos (by omega)]
    · rw [splitRun, List.map_map]
      exact (congrArg (List.foldr _ _) (List.map_id _)).trans (utf8Chunks_join run.text)

theorem splitRow_restored (row : List CellRun) : RowRestored row (splitRow row) := by
  refine ⟨row.map splitRun, ?_, List.flatMap_def⟩
  exact List.forall₂_map_right_iff.mpr (List.forall₂_same.mpr fun run _ => splitRun_pieces run)

theorem splitRows_restored (rows : List (List CellRun)) : List.Forall₂ RowRestored rows (rows.map splitRow) :=
  List.forall₂_map_right_iff.mpr (List.forall₂_same.mpr fun row _ => splitRow_restored row)

theorem split_restored (f : WireFrame) : f.Restored f.split := by
  cases f with
  | snapshot s => exact ⟨rfl, splitRows_restored s.grid, splitRows_restored s.scrollback⟩
  | delta d =>
    refine ⟨rfl, ?_, splitRows_restored d.scrollbackAppended⟩
    exact List.forall₂_map_right_iff.mpr (List.forall₂_same.mpr fun dr _ => ⟨rfl, splitRow_restored dr.runs⟩)

/-- A frame within the bounds, each of its lists of rows short enough to be
    counted, is read back from its own encoding, which is taken whole. -/
theorem decodeFrame_encode (utf8Error : List UInt8 → String) (f : WireFrame) (fits : f.Fits)
    (counted : f.Counted) :
    ∃ back, Reader.frame utf8Error { rest := encode f, pos := 0 }
        = .ok (back, { rest := [], pos := (encode f).length }) ∧
      decodeFrame utf8Error (encode f) = .ok back ∧ f.Restored back := by
  have read := reads_encode utf8Error fits counted [] 0
  rw [List.append_nil, Nat.zero_add] at read
  exact ⟨f.split, read, by rw [decodeFrame, read]; rfl, split_restored f⟩

/-- One row of one bold run that wraps. -/
def boldFrame : WireFrame := .snapshot
  { paneId := "p1", cols := 80, rows := 1
    grid := [[{ text := "hi", fg := some 0xCD0000, bg := none, bold := true, italic := false, underline := false,
                inverse := false, dim := false, strikeout := false, wrapped := some true, cols := some 3 }]]
    scrollback := [], cursor := { row := 0, col := 2, visible := true }, version := 7, displayOffset := 0
    mouseReport := false, sgrMouse := true, altScreen := false }

theorem utf8_short (cs : List Char) (few : byteLen cs ≤ 65535) : (utf8 (String.ofList cs)).length ≤ 65535 := by
  rwa [length_utf8_eq, String.toList_ofList]

theorem boldFrame_fits : boldFrame.Fits := by
  have pane : (utf8 "p1").length ≤ 65535 := utf8_short ['p', '1'] (by decide)
  have text : (utf8 "hi").length ≤ 65535 := utf8_short ['h', 'i'] (by decide)
  refine ⟨⟨pane, by decide, by decide, by decide, by decide, by decide⟩, ?_, fun row mem => nomatch mem⟩
  intro row mem
  obtain rfl := List.mem_singleton.mp mem
  refine ⟨?_, ?_⟩
  · intro run mem
    obtain rfl := List.mem_singleton.mp mem
    exact ⟨fun c known => by cases known; decide, (fun c known => nomatch known), by decide⟩
  · rw [List.flatMap_singleton, utf8Chunks_of_fits text]
    decide

theorem decodeFrame_boldFrame :
    ∃ back, Reader.frame (fun _ => "") { rest := encode boldFrame, pos := 0 }
        = .ok (back, { rest := [], pos := (encode boldFrame).length }) ∧
      decodeFrame (fun _ => "") (encode boldFrame) = .ok back ∧ boldFrame.Restored back :=
  decodeFrame_encode (fun _ => "") boldFrame boldFrame_fits ⟨by decide, by decide⟩

/-! ## More rows than can be counted -/

/-- A grid of `n` empty rows. -/
def tallFrame (n : Nat) : WireFrame := .snapshot
  { paneId := "", cols := 0, rows := 0, grid := List.replicate n [], scrollback := []
    cursor := { row := 0, col := 0, visible := false }, version := 0, displayOffset := 0
    mouseReport := false, sgrMouse := false, altScreen := false }

theorem tallFrame_fits (n : Nat) : (tallFrame n).Fits := by
  have pane : (utf8 "").length ≤ 65535 := utf8_short [] (by decide)
  refine ⟨⟨pane, Nat.zero_le _, Nat.zero_le _, Nat.zero_le _, Nat.zero_le _, Nat.zero_le _⟩, ?_,
    fun row mem => nomatch mem⟩
  intro row mem
  obtain rfl := (List.mem_replicate.mp mem).2
  exact ⟨(fun run mem => nomatch mem), Nat.zero_le _⟩

theorem grid_length_le : ByteReader.Yields (Reader.frame utf8Error) fun
    | .snapshot s => s.grid.length ≤ 4294967295
    | .delta _ => True := by
  have rows : ByteReader.Yields (Reader.rows utf8Error) (·.length ≤ 4294967295) := by
    rw [Reader.rows]
    refine ByteReader.Yields.after fun n => ?_
    intro c xs c' read
    have length := ByteReader.Yields.many _ _ _ _ _ read
    have := n.toNat_lt
    omega
  have snapshot : ByteReader.Yields (Reader.snapshot utf8Error) fun
      | .snapshot s => s.grid.length ≤ 4294967295
      | .delta _ => True := by
    rw [Reader.snapshot]
    iterate 7 refine ByteReader.Yields.after fun _ => ?_
    exact rows.bind fun grid short => ByteReader.Yields.after fun _ => ByteReader.Yields.pure short
  have delta : ByteReader.Yields (Reader.delta utf8Error) fun
      | .snapshot s => s.grid.length ≤ 4294967295
      | .delta _ => True := by
    rw [Reader.delta]
    iterate 9 refine ByteReader.Yields.after fun _ => ?_
    exact ByteReader.Yields.pure trivial
  rw [Reader.frame]
  refine ByteReader.Yields.after fun magic => ByteReader.Yields.ite (ByteReader.Yields.error _ _) ?_
  refine ByteReader.Yields.after fun version => ByteReader.Yields.ite (ByteReader.Yields.error _ _) ?_
  exact ByteReader.Yields.after fun kind => ByteReader.Yields.ite snapshot
    (ByteReader.Yields.ite delta (ByteReader.Yields.error _ _))

theorem not_decoded_of_tall {n : Nat} (tall : 4294967295 < n) :
    ¬ ∃ back, decodeFrame utf8Error (encode (tallFrame n)) = .ok back ∧ (tallFrame n).Restored back := by
  rintro ⟨back, decoded, restored⟩
  cases back with
  | delta d => exact restored
  | snapshot s =>
    obtain ⟨-, grid, -⟩ := restored
    have length := grid.length_eq
    rw [List.length_replicate] at length
    rw [decodeFrame] at decoded
    obtain ⟨⟨frame, c⟩, read, same⟩ : ∃ r, Reader.frame utf8Error { rest := encode (tallFrame n), pos := 0 } = .ok r ∧
        r.1 = .snapshot s := by
      cases answer : Reader.frame utf8Error { rest := encode (tallFrame n), pos := 0 } with
      | error e =>
        rw [answer] at decoded
        cases decoded
      | ok r =>
        rw [answer] at decoded
        exact ⟨r, rfl, Except.ok.inj decoded⟩
    have short := grid_length_le _ _ _ read
    simp only at same
    rw [same] at short
    omega

/-- A grid of 2^32 rows fits every other bound and is not read back. -/
theorem decodeFrame_tall :
    (tallFrame 4294967296).Fits ∧
      ¬ ∃ back, decodeFrame (fun _ => "") (encode (tallFrame 4294967296)) = .ok back ∧
        (tallFrame 4294967296).Restored back :=
  ⟨tallFrame_fits _, not_decoded_of_tall (by decide)⟩

end K2.TermWire
