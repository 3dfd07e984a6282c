import K2.TermWire.GridWire

/-! # The two decoders side by side

Step by step the browser's decoder takes the bytes the crate's takes and gives
what the JSON frame would have given, but for the texts, which lose a leading
byte order mark. -/

namespace K2.TermWire

open ByteReader (Follows)

variable {utf8Error : List UInt8 → String}

theorem toDouble_small {n : Nat} (small : n < 2 ^ 53) : toDouble n = n := if_pos small

/-! ## What the browser's decoder drops -/

def CellRun.stripBom (run : CellRun) : CellRun := { run with text := TermWire.stripBom run.text }

def stripRow (row : List CellRun) : List CellRun := row.map CellRun.stripBom

/-- Every text of the frame without a leading byte order mark. -/
def WireFrame.stripBom : WireFrame → WireFrame
  | .snapshot s => .snapshot
      { s with
        paneId := TermWire.stripBom s.paneId
        grid := s.grid.map stripRow
        scrollback := s.scrollback.map stripRow }
  | .delta d => .delta
      { d with
        paneId := TermWire.stripBom d.paneId
        damagedRows := d.damagedRows.map fun dr => { dr with runs := stripRow dr.runs }
        scrollbackAppended := d.scrollbackAppended.map stripRow }

/-! ## Step by step -/

theorem follows_integer {α β : Type} {n : Nat} {keep : Nat → α} (kept : Nat → β) {f : α → β}
    (same : ∀ v, v < 256 ^ n → kept v = f (keep v)) :
    Follows (Reader.take n >>= fun b => pure (keep (ofLe b))) (GridWire.need n >>= fun b => pure (kept (ofLe b))) f := by
  refine (Follows.take _ _ n).bind_of (ByteReader.Yields.take _ n) fun b length => Follows.pure ?_
  exact same _ (length ▸ ofLe_lt b)

theorem follows_u8 : Follows Reader.u8 GridWire.u8 UInt8.toNat :=
  follows_integer (fun v => v) fun v small => by
    rw [UInt8.toNat_ofNat']
    omega

theorem follows_u16 : Follows Reader.u16 GridWire.u16 UInt16.toNat :=
  follows_integer (fun v => v) fun v small => by
    rw [UInt16.toNat_ofNat']
    omega

theorem follows_u32 : Follows Reader.u32 GridWire.u32 UInt32.toNat :=
  follows_integer (fun v => v) fun v small => by
    rw [UInt32.toNat_ofNat']
    omega

theorem follows_u64 : Follows Reader.u64 GridWire.u64 fun v => toDouble v.toNat :=
  follows_integer toDouble fun v small => by
    rw [UInt64.toNat_ofNat']
    congr 1
    omega

theorem follows_text (bytes : List UInt8) :
    Follows (Reader.text utf8Error bytes) (GridWire.decodeText bytes) stripBom := by
  rw [Reader.text, GridWire.decodeText]
  cases fromUtf8 bytes with
  | some s => exact Follows.pure rfl
  | none => exact Follows.fail _ _ _

theorem follows_str : Follows (Reader.str utf8Error) GridWire.str stripBom :=
  follows_u16.bind fun len => (Follows.take _ _ len.toNat).bind follows_text

theorem follows_color : Follows Reader.color GridWire.color colorJs := by
  refine follows_u32.bind fun v => Follows.pure ?_
  have sentinel : v.toNat = 0xFFFFFFFF ↔ v = COLOR_NONE := by
    rw [← UInt32.toNat_inj]
    rfl
  by_cases default : v = COLOR_NONE
  · rw [if_pos (sentinel.mpr default), if_pos default, colorJs]
  · rw [if_neg (mt sentinel.mp default), if_neg default, colorJs]

theorem testBit_iff (bits bit : UInt8) : bits.toNat &&& bit.toNat ≠ 0 ↔ bits &&& bit ≠ 0 := by
  rw [← UInt8.toNat_and, not_iff_not]
  exact UInt8.toNat_inj (b := 0)

theorem testBit_eq (bits bit : UInt8) :
    decide (bits.toNat &&& bit.toNat ≠ 0) = decide (bits &&& bit ≠ 0) :=
  decide_eq_decide.mpr (testBit_iff bits bit)

theorem follows_colsOf (bits : UInt8) :
    Follows (Reader.colsOf bits) (GridWire.colsOf bits.toNat) (Option.map UInt16.toNat) := by
  have test : bits.toNat &&& GridWire.STYLE_HAS_COLS ≠ 0 ↔ bits &&& STYLE_HAS_COLS ≠ 0 :=
    testBit_iff bits STYLE_HAS_COLS
  rw [Reader.colsOf, GridWire.colsOf]
  by_cases spanned : bits &&& STYLE_HAS_COLS ≠ 0
  · rw [if_pos spanned, if_pos (test.mpr spanned)]
    exact follows_u16.bind fun c => Follows.pure rfl
  · rw [if_neg spanned, if_neg (mt test.mp spanned)]
    exact Follows.pure rfl

theorem follows_run : Follows (Reader.run utf8Error) GridWire.run fun run => run.stripBom.js := by
  refine follows_str.bind fun text => follows_color.bind fun fg => follows_color.bind fun bg => ?_
  refine follows_u8.bind fun bits => (follows_colsOf bits).bind fun cols => Follows.pure ?_
  have bold := testBit_eq bits STYLE_BOLD
  have italic := testBit_eq bits STYLE_ITALIC
  have underline := testBit_eq bits STYLE_UNDERLINE
  have inverse := testBit_eq bits STYLE_INVERSE
  have dim := testBit_eq bits STYLE_DIM
  have strikeout := testBit_eq bits STYLE_STRIKEOUT
  have test : bits.toNat &&& GridWire.STYLE_WRAPPED ≠ 0 ↔ bits &&& STYLE_WRAPPED ≠ 0 :=
    testBit_iff bits STYLE_WRAPPED
  have wrapped : (if bits.toNat &&& GridWire.STYLE_WRAPPED ≠ 0 then [("wrapped", Js.bool true)] else []) =
      (if bits &&& STYLE_WRAPPED ≠ 0 then some true else none).toList.map fun b => ("wrapped", Js.bool b) := by
    by_cases wraps : bits &&& STYLE_WRAPPED ≠ 0
    · rw [if_pos (test.mpr wraps), if_pos wraps, Option.toList_some, List.map_singleton]
    · rw [if_neg (mt test.mp wraps), if_neg wraps, Option.toList_none, List.map_nil]
  rw [CellRun.js, wrapped, ← bold, ← italic, ← underline, ← inverse, ← dim, ← strikeout]
  cases cols <;> rfl

theorem follows_row : Follows (Reader.row utf8Error) GridWire.row fun row => rowJs (stripRow row) := by
  refine follows_u16.bind fun n => ?_
  refine (Follows.many follows_run n.toNat).map ?_
  intro runs
  rw [rowJs, stripRow, List.map_map]
  rfl

theorem follows_rows :
    Follows (Reader.rows utf8Error) GridWire.rows fun rows => rowsJs (rows.map stripRow) := by
  refine follows_u32.bind fun n => ?_
  refine (Follows.many follows_row n.toNat).map ?_
  intro rows
  rw [rowsJs, List.map_map]
  rfl

theorem u16_small (v : UInt16) : toDouble v.toNat = v.toNat :=
  toDouble_small (Nat.lt_trans v.toNat_lt (by decide))

theorem u32_small (v : UInt32) : toDouble v.toNat = v.toNat :=
  toDouble_small (Nat.lt_trans v.toNat_lt (by decide))

theorem follows_cursor : Follows Reader.cursor GridWire.cursor CursorSnapshot.js := by
  refine follows_u16.bind fun row => follows_u16.bind fun col => follows_u8.bind fun visible => Follows.pure ?_
  have shown : decide (visible.toNat ≠ 0) = decide (visible ≠ 0) :=
    decide_eq_decide.mpr (not_congr (UInt8.toNat_inj (b := 0)))
  rw [CursorSnapshot.js, shown]
  simp only [u16_small]

theorem follows_damaged :
    Follows (Reader.damaged utf8Error) GridWire.damaged fun dr => { dr with runs := stripRow dr.runs }.js := by
  refine follows_u16.bind fun index => follows_row.bind fun runs => Follows.pure ?_
  simp only [DamagedRow.js, u16_small]

theorem follows_snapshot :
    Follows (Reader.snapshot utf8Error) GridWire.snapshot fun f => jsonParse f.stripBom := by
  refine follows_str.bind fun paneId => follows_u16.bind fun cols => follows_u16.bind fun rows => ?_
  refine follows_u64.bind fun version => follows_u32.bind fun displayOffset => follows_cursor.bind fun cursor => ?_
  refine follows_u8.bind fun mode => follows_rows.bind fun grid => follows_rows.bind fun scrollback => ?_
  refine Follows.pure ?_
  have mouseReport := testBit_eq mode MODE_MOUSE_REPORT
  have sgrMouse := testBit_eq mode MODE_SGR_MOUSE
  have altScreen := testBit_eq mode MODE_ALT_SCREEN
  simp only [WireFrame.stripBom, jsonParse, TermGridSnapshot.js, u16_small, u32_small]
  rw [← mouseReport, ← sgrMouse, ← altScreen]
  rfl

theorem follows_delta : Follows (Reader.delta utf8Error) GridWire.delta fun f => jsonParse f.stripBom := by
  refine follows_str.bind fun paneId => follows_u16.bind fun cols => follows_u16.bind fun rows => ?_
  refine follows_u64.bind fun version => follows_u32.bind fun displayOffset => follows_cursor.bind fun cursor => ?_
  refine follows_u32.bind fun n => (Follows.many follows_damaged n.toNat).bind fun damagedRows => ?_
  refine follows_rows.bind fun scrollbackAppended => Follows.pure ?_
  simp only [WireFrame.stripBom, jsonParse, TermGridDelta.js, u16_small, u32_small, List.map_map]
  rfl

theorem follows_frame : Follows (Reader.frame utf8Error) GridWire.frame fun f => jsonParse f.stripBom := by
  refine follows_u8.bind fun magic => ?_
  have isMagic : magic.toNat ≠ 0x6B ↔ magic ≠ WIRE_MAGIC := not_congr (UInt8.toNat_inj (b := WIRE_MAGIC))
  refine Follows.ite_of isMagic (Follows.fail _ _ _) ?_
  refine follows_u8.bind fun version => ?_
  have isVersion : version.toNat ≠ 1 ↔ version ≠ WIRE_VERSION := not_congr (UInt8.toNat_inj (b := WIRE_VERSION))
  refine Follows.ite_of isVersion (Follows.fail _ _ _) ?_
  refine follows_u8.bind fun kind => ?_
  have isSnapshot : kind.toNat = 1 ↔ kind = KIND_SNAPSHOT := UInt8.toNat_inj (b := KIND_SNAPSHOT)
  have isDelta : kind.toNat = 2 ↔ kind = KIND_DELTA := UInt8.toNat_inj (b := KIND_DELTA)
  exact Follows.ite_of isSnapshot follows_snapshot (Follows.ite_of isDelta follows_delta (Follows.fail _ _ _))

theorem decodeGridFrame_of_decodeFrame {bytes : List UInt8} {f : WireFrame}
    (decoded : decodeFrame utf8Error bytes = .ok f) : decodeGridFrame bytes = .ok (jsonParse f.stripBom) := by
  rw [decodeFrame] at decoded
  cases answer : Reader.frame utf8Error { rest := bytes, pos := 0 } with
  | error e =>
    rw [answer] at decoded
    cases decoded
  | ok result =>
    rw [answer] at decoded
    obtain rfl := Except.ok.inj decoded
    rw [decodeGridFrame, follows_frame.ok _ _ _ answer]
    rfl

/-! ## Texts that begin with a byte order mark -/

/-- `s` does not begin with U+FEFF. -/
def BomFree (s : String) : Prop := s.toList.head? ≠ some '\uFEFF'

instance (s : String) : Decidable (BomFree s) := inferInstanceAs (Decidable (_ ≠ _))

theorem stripBom_eq_iff (s : String) : stripBom s = s ↔ BomFree s := by
  rw [stripBom, BomFree]
  cases chars : s.toList with
  | nil => simp
  | cons c rest =>
    by_cases mark : c = '\uFEFF'
    · have shorter : String.ofList rest ≠ s := by
        intro same
        have lengths := congrArg (fun s => s.toList.length) same
        simp [chars] at lengths
      simp [mark, shorter]
    · simp [mark]

def RowBomFree (row : List CellRun) : Prop := ∀ run ∈ row, BomFree run.text

/-- No text of the frame begins with U+FEFF. -/
def WireFrame.BomFree : WireFrame → Prop
  | .snapshot s => TermWire.BomFree s.paneId ∧ (∀ row ∈ s.grid, RowBomFree row) ∧ ∀ row ∈ s.scrollback, RowBomFree row
  | .delta d => TermWire.BomFree d.paneId ∧ (∀ dr ∈ d.damagedRows, RowBomFree dr.runs) ∧
      ∀ row ∈ d.scrollbackAppended, RowBomFree row

theorem run_js_iff (run : CellRun) : run.stripBom.js = run.js ↔ BomFree run.text := by
  rw [← stripBom_eq_iff]
  constructor
  · intro same
    have members := Js.object.inj same
    exact Js.string.inj (Prod.mk.inj (List.cons.inj members).1).2
  · intro same
    rw [CellRun.stripBom, same]

theorem row_js_iff (row : List CellRun) : rowJs (stripRow row) = rowJs row ↔ RowBomFree row := by
  rw [rowJs, rowJs, stripRow, List.map_map, Js.array.injEq, List.map_inj_left]
  exact forall₂_congr fun run _ => run_js_iff run

theorem rows_js_iff (rows : List (List CellRun)) :
    rowsJs (rows.map stripRow) = rowsJs rows ↔ ∀ row ∈ rows, RowBomFree row := by
  rw [rowsJs, rowsJs, List.map_map, Js.array.injEq, List.map_inj_left]
  exact forall₂_congr fun row _ => row_js_iff row

theorem damaged_js_iff (dr : DamagedRow) :
    { dr with runs := stripRow dr.runs }.js = dr.js ↔ RowBomFree dr.runs := by
  rw [← row_js_iff]
  simp [DamagedRow.js]

/-- The browser's object is the JSON frame's, just when no text loses a mark. -/
theorem jsonParse_stripBom (f : WireFrame) : jsonParse f.stripBom = jsonParse f ↔ f.BomFree := by
  cases f with
  | snapshot s =>
    have paneId := stripBom_eq_iff s.paneId
    have grid := rows_js_iff s.grid
    have scrollback := rows_js_iff s.scrollback
    simp [WireFrame.stripBom, jsonParse, TermGridSnapshot.js, WireFrame.BomFree, paneId, grid, scrollback]
  | delta d =>
    have paneId := stripBom_eq_iff d.paneId
    have scrollback := rows_js_iff d.scrollbackAppended
    simp [WireFrame.stripBom, jsonParse, TermGridDelta.js, WireFrame.BomFree, paneId, damaged_js_iff, scrollback]

/-! ## Frames that need no pieces -/

def RowShort (row : List CellRun) : Prop := ∀ run ∈ row, (utf8 run.text).length ≤ 65535

/-- Every run's text fits its length field. -/
def WireFrame.Short : WireFrame → Prop
  | .snapshot s => (∀ row ∈ s.grid, RowShort row) ∧ ∀ row ∈ s.scrollback, RowShort row
  | .delta d => (∀ dr ∈ d.damagedRows, RowShort dr.runs) ∧ ∀ row ∈ d.scrollbackAppended, RowShort row

theorem splitRun_short {run : CellRun} (short : (utf8 run.text).length ≤ 65535) : splitRun run = [run] := by
  rw [splitRun, utf8Chunks_of_fits short, pieceCols, if_neg (by omega)]
  rfl

theorem splitRow_short {row : List CellRun} (short : RowShort row) : splitRow row = row := by
  have same : splitRow row = row.flatMap ([·]) := by
    rw [splitRow, List.flatMap_def, List.flatMap_def]
    exact congrArg List.flatten (List.map_congr_left fun run mem => splitRun_short (short run mem))
  rw [same, List.flatMap_singleton']

theorem splitRows_short {rows : List (List CellRun)} (short : ∀ row ∈ rows, RowShort row) :
    rows.map splitRow = rows := by
  rw [List.map_congr_left fun row mem => splitRow_short (short row mem), List.map_id']

theorem split_short {f : WireFrame} (short : f.Short) : f.split = f := by
  cases f with
  | snapshot s => rw [WireFrame.split, splitRows_short short.1, splitRows_short short.2]
  | delta d =>
    have same : d.damagedRows.map (fun dr => { dr with runs := splitRow dr.runs }) = d.damagedRows := by
      have each := List.map_congr_left fun dr mem => (congrArg (fun runs => { dr with runs })
        (splitRow_short (short.1 dr mem)) : ({ dr with runs := splitRow dr.runs } : DamagedRow) = dr)
      rw [each, List.map_id']
    rw [WireFrame.split, same, splitRows_short short.2]

theorem decodeGridFrame_encode (f : WireFrame) (fits : f.Fits) (counted : f.Counted) (short : f.Short) :
    decodeGridFrame (encode f) = .ok (jsonParse f.stripBom) := by
  have read := reads_encode (fun _ => "") fits counted [] 0
  rw [List.append_nil, split_short short] at read
  have decoded : decodeFrame (fun _ => "") (encode f) = .ok f := by
    rw [decodeFrame, read]
    rfl
  exact decodeGridFrame_of_decodeFrame decoded

/-- The bytes of a frame give the browser what the JSON frame gives it, and both
    decoders give the same frame, just when no text begins with U+FEFF. -/
theorem agree_iff_bomFree (utf8Error : List UInt8 → String) :
    (∀ f : WireFrame, f.Fits → f.Counted → f.Short →
      (decodeGridFrame (encode f) = .ok (jsonParse f) ↔ f.BomFree)) ∧
    ∀ bytes f g, decodeFrame utf8Error bytes = .ok f → decodeGridFrame bytes = .ok g →
      (g = jsonParse f ↔ f.BomFree) := by
  constructor
  · intro f fits counted short
    rw [decodeGridFrame_encode f fits counted short, ← jsonParse_stripBom]
    exact ⟨Except.ok.inj, congrArg Except.ok⟩
  · intro bytes f g rust browser
    obtain rfl := Except.ok.inj ((decodeGridFrame_of_decodeFrame rust).symm.trans browser)
    exact jsonParse_stripBom f

theorem boldFrame_short : boldFrame.Short := by
  refine ⟨?_, fun row mem => nomatch mem⟩
  intro row mem run inRow
  obtain rfl := List.mem_singleton.mp mem
  obtain rfl := List.mem_singleton.mp inRow
  exact utf8_short ['h', 'i'] (by decide)

theorem boldFrame_bomFree : boldFrame.BomFree := by
  refine ⟨by decide, ?_, fun row mem => nomatch mem⟩
  intro row mem run inRow
  obtain rfl := List.mem_singleton.mp mem
  obtain rfl := List.mem_singleton.mp inRow
  exact (by decide : BomFree "hi")

theorem agree_boldFrame : decodeGridFrame (encode boldFrame) = .ok (jsonParse boldFrame) :=
  ((agree_iff_bomFree fun _ => "").1 boldFrame boldFrame_fits ⟨by decide, by decide⟩ boldFrame_short).mpr
    boldFrame_bomFree

/-- A run whose text begins with U+FEFF, in a grid of one row. -/
def markedFrame : WireFrame := .snapshot
  { paneId := "p1", cols := 80, rows := 1
    grid := [[{ text := "\uFEFFhi", fg := none, bg := none, bold := false, italic := false, underline := false,
                inverse := false, dim := false, strikeout := false, wrapped := none, cols := none }]]
    scrollback := [], cursor := { row := 0, col := 2, visible := true }, version := 7, displayOffset := 0
    mouseReport := false, sgrMouse := false, altScreen := false }

/-- It is a frame within the bounds, and the browser loses the mark. -/
theorem markedFrame_differs :
    markedFrame.Fits ∧ markedFrame.Counted ∧ markedFrame.Short ∧
      decodeGridFrame (encode markedFrame) ≠ .ok (jsonParse markedFrame) := by
  have pane : (utf8 "p1").length ≤ 65535 := utf8_short ['p', '1'] (by decide)
  have text : (utf8 "\uFEFFhi").length ≤ 65535 := utf8_short ['\uFEFF', 'h', 'i'] (by decide)
  have fits : markedFrame.Fits := by
    refine ⟨⟨pane, by decide, by decide, by decide, by decide, by decide⟩, ?_, fun row mem => nomatch mem⟩
    intro row mem
    obtain rfl := List.mem_singleton.mp mem
    refine ⟨?_, ?_⟩
    · intro run mem
      obtain rfl := List.mem_singleton.mp mem
      exact ⟨(fun c known => nomatch known), (fun c known => nomatch known), by decide⟩
    · rw [List.flatMap_singleton, utf8Chunks_of_fits text]
      decide
  have short : markedFrame.Short := by
    refine ⟨?_, fun row mem => nomatch mem⟩
    intro row mem run inRow
    obtain rfl := List.mem_singleton.mp mem
    obtain rfl := List.mem_singleton.mp inRow
    exact text
  have counted : markedFrame.Counted := ⟨by decide, by decide⟩
  refine ⟨fits, counted, short, ?_⟩
  rw [decodeGridFrame_encode _ fits counted short]
  intro same
  have free := (jsonParse_stripBom markedFrame).mp (Except.ok.inj same)
  exact free.2.1 _ (List.mem_singleton.mpr rfl) _ (List.mem_singleton.mpr rfl) (by decide)

end K2.TermWire
