import K2.Lib.Lines
import K2.TermGrid.Cells
import K2.Text
import Mathlib.Algebra.Order.BigOperators.Group.List

/-! # A row as runs

A row's cells are joined while their style stays, and the end of the row that
would paint nothing is cut off. The runs are then the runs of the kept cells:
their texts, and the columns the encoder counts for them.
-/

namespace K2.TermGrid

open K2.TermWire

/-- Same style; texts differ by definition. -/
def styleEq (a b : CellRun) : Bool :=
  a.fg = b.fg && a.bg = b.bg && a.bold = b.bold && a.italic = b.italic && a.underline = b.underline &&
    a.inverse = b.inverse && a.dim = b.dim && a.strikeout = b.strikeout

/-- Would spaces of this run show? -/
def runDecoratesBlanks (run : CellRun) : Bool :=
  run.bg.isSome || run.inverse || run.underline || run.strikeout

/-- `text.trim_end_matches(' ')`. -/
def trimEndSpaces (text : String) : String := String.ofList (text.toList.rdropWhile (· = ' '))

/-! ## The encoder

Both vectors are kept with their last element first. -/

/-- One cell of the row. -/
def pushCell (acc : List CellRun × List Nat) (cell : Cell) : List CellRun × List Nat :=
  if cell.flags.wideCharSpacer then acc
  else
    let run := cellToRun cell
    let run := match cell.zerowidth with
      | some zw => { run with text := run.text ++ String.ofList zw }
      | none => run
    let cellCols := if cell.flags.wideChar then 2 else 1
    match acc.1 with
    | last :: before =>
        if styleEq last run then
          ({ last with text := last.text ++ run.text } :: before, acc.2.modifyHead (· + cellCols))
        else (run :: last :: before, cellCols :: acc.2)
    | [] => ([run], cellCols :: acc.2)

/-- Cut the invisible tail. -/
def trimTail : List CellRun → List Nat → List CellRun × List Nat
  | [], runCols => ([], runCols)
  | last :: before, runCols =>
      if runDecoratesBlanks last then (last :: before, runCols)
      else
        let trimmed := trimEndSpaces last.text
        if Text.byteLen trimmed = 0 then trimTail before runCols.tail
        else
          let removed := Text.byteLen last.text - Text.byteLen trimmed
          ({ last with text := trimmed } :: before, runCols.modifyHead (· - removed))

/-- The column spans that are not the character counts. -/
def stampCols : List CellRun → List Nat → List CellRun
  | run :: runs, span :: spans =>
      (if run.text.toList.length ≠ span then { run with cols := some (UInt16.ofNat (min span 65535)) } else run) ::
        stampCols runs spans
  | runs, _ => runs

/-- `last.wrapped = Some(true)`. -/
def markLast : List CellRun → List CellRun
  | [] => []
  | [last] => [{ last with wrapped := some true }]
  | run :: next :: runs => run :: markLast (next :: runs)

/-- The row's last cell says it goes on in the next row. -/
def wrapped (row : List Cell) : Bool := row.getLast?.any (·.flags.wrapline)

def encodeRowRuns (row : List Cell) : List CellRun :=
  let acc := row.foldl pushCell ([], [])
  let acc := if !wrapped row then trimTail acc.1 acc.2 else acc
  let out := stampCols acc.1.reverse acc.2.reverse
  if wrapped row then markLast out else out

/-! ## What a row holds -/

/-- A run's style: all it has but its text and its marks. -/
def style (run : CellRun) : CellRun := { run with text := "", wrapped := none, cols := none }

theorem styleEq_iff (a b : CellRun) : styleEq a b ↔ style a = style b := by
  obtain ⟨_, _, _, _, _, _, _, _, _, _, _⟩ := a
  simp [styleEq, style, and_assoc]

namespace Cell

/-- The character, a blank as a space, and what lies on it. -/
def text (cell : Cell) : List Char :=
  (if cell.c = Char.ofNat 0 then ' ' else cell.c) :: cell.zerowidth.getD []

def style (cell : Cell) : CellRun := TermGrid.style (cellToRun cell)

/-- The columns the encoder counts for a cell. -/
def width (cell : Cell) : Nat := if cell.flags.wideChar then 2 else 1

/-- A blank that paints nothing. -/
def blank (cell : Cell) : Bool := cell.text = [' '] && !runDecoratesBlanks cell.style

theorem ends_of_not_space {cell : Cell} (more : cell.text ≠ [' ']) :
    ∃ l b, cell.text = l ++ [b] ∧ (b = ' ' : Bool) = false := by
  obtain nothing | ⟨l, b, ends⟩ := (cell.zerowidth.getD []).eq_nil_or_concat
  · refine ⟨[], _, by rw [text, nothing]; rfl, decide_eq_false fun space => more ?_⟩
    rw [text, nothing, space]
  · refine ⟨_ :: l, b, by rw [text, ends, List.concat_eq_append]; rfl, decide_eq_false fun space => ?_⟩
    subst space
    cases given : cell.zerowidth with
    | none => simp [given] at ends
    | some zw =>
        refine cell.zerowidth_noSpace zw given ?_
        rw [given, Option.getD_some] at ends
        simp [ends]

theorem width_of_space {cell : Cell} (space : cell.text = [' ']) : cell.width = 1 := by
  unfold width
  split
  · rename_i wide
    obtain ⟨apart, filled⟩ := cell.wide_glyph wide
    rw [text, if_neg filled, List.cons.injEq] at space
    exact absurd space.1 apart
  · rfl

end Cell

/-- A cell with its column. -/
abbrev Glyph := Cell × Nat

def glyphs (row : List Cell) : List Glyph := row.zipIdx.filter (!·.1.flags.wideCharSpacer)

/-- The cells a row's runs hold. -/
def kept (row : List Cell) : List Glyph :=
  if wrapped row then glyphs row else (glyphs row).rdropWhile (·.1.blank)

def glyphsText (g : List Glyph) : List Char := g.flatMap (·.1.text)

def span (g : List Glyph) : Nat := (g.map (·.1.width)).sum

/-- The columns of the grid that cells take: their own, and the spacers after them. -/
def gridColumns (row : List Cell) (g : List Glyph) : Nat :=
  (g.map fun glyph => 1 + ((row.drop (glyph.2 + 1)).takeWhile (·.flags.wideCharSpacer)).length).sum

/-- The spacers right behind a cell. -/
def spacersBehind (row : List Cell) (glyph : Glyph) : Nat :=
  ((row.drop (glyph.2 + 1)).takeWhile (·.flags.wideCharSpacer)).length

/-- In each stretch of one style there are as many wide glyphs as spacers behind its cells. -/
def Balanced (row : List Cell) : Prop :=
  ∀ g ∈ (kept row).splitBy (·.1.style = ·.1.style), g.countP (·.1.flags.wideChar) = (g.map (spacersBehind row)).sum

/-- Each wide glyph has its spacer, and no other cell has one. -/
def Paired (row : List Cell) : Prop := ∀ glyph ∈ glyphs row, gridColumns row [glyph] = glyph.1.width

instance (row : List Cell) : Decidable (Paired row) :=
  inferInstanceAs (Decidable (∀ glyph ∈ glyphs row, gridColumns row [glyph] = glyph.1.width))

/-- A run's column span. -/
def runColumns (run : CellRun) : Nat :=
  match run.cols with
  | some n => n.toNat
  | none => run.text.toList.length

/-- `runs` are the runs of the row's kept cells. -/
def Encodes (columns : CellRun → List Glyph → Prop) (row : List Cell) (runs : List CellRun) : Prop :=
  runs.flatMap (·.text.toList) = glyphsText (kept row) ∧ ∃ groups, Runs.Cut (·.1.style) (kept row) groups ∧
    List.Forall₂ (fun run g => run.text.toList = glyphsText g ∧ (∀ glyph ∈ g, style run = glyph.1.style) ∧
      columns run g) runs groups ∧
    runs.IsChain (fun a b => styleEq a b = false) ∧
    (∀ run ∈ runs.dropLast, run.wrapped = none) ∧
    ∀ last ∈ runs.getLast?, last.wrapped = if wrapped row then some true else none

/-! ## The runs so far -/

/-- A run of these cells, with nothing on it yet. -/
structure Holds (run : CellRun) (g : List Glyph) : Prop where
  text : run.text.toList = glyphsText g
  style : ∀ glyph ∈ g, TermGrid.style run = glyph.1.style
  unmarked : run.wrapped = none ∧ run.cols = none

/-- The two vectors hold these cells, in these runs. -/
structure Tracks (acc : List CellRun × List Nat) (cells : List Glyph) (groups : List (List Glyph)) : Prop where
  runs : List.Forall₂ Holds acc.1 groups
  spans : acc.2 = groups.map span
  cut : Runs.Cut (·.1.style) cells groups.reverse

theorem span_append (g h : List Glyph) : span (g ++ h) = span g + span h := by
  simp [span]

theorem glyphsText_append (g h : List Glyph) : glyphsText (g ++ h) = glyphsText g ++ glyphsText h :=
  List.flatMap_append

theorem cellToRun_text (cell : Cell) :
    (match cell.zerowidth with
      | some zw => { cellToRun cell with text := (cellToRun cell).text ++ String.ofList zw }
      | none => cellToRun cell) = { cellToRun cell with text := String.ofList cell.text } := by
  cases given : cell.zerowidth <;> simp [cellToRun, Cell.text, given]

theorem Tracks.pushCell {acc : List CellRun × List Nat} {cells : List Glyph} {groups : List (List Glyph)}
    (before : Tracks acc cells groups) (glyph : Glyph) (seen : glyph.1.flags.wideCharSpacer = false) :
    ∃ groups', Tracks (TermGrid.pushCell acc glyph.1) (cells ++ [glyph]) groups' := by
  obtain ⟨out, runCols⟩ := acc
  obtain ⟨runs, spans, cut⟩ := before
  obtain rfl : runCols = groups.map span := spans
  have single : Holds { cellToRun glyph.1 with text := String.ofList glyph.1.text } [glyph] :=
    ⟨by simp [glyphsText], by simp [TermGrid.style, Cell.style], rfl, rfl⟩
  have widths : (if glyph.1.flags.wideChar then 2 else 1) = span [glyph] := by simp [span, Cell.width]
  simp only [TermGrid.pushCell, seen, Bool.false_eq_true, if_false, cellToRun_text]
  cases runs with
  | nil =>
      obtain rfl : [] = cells := cut.joined
      exact ⟨[[glyph]], .cons single .nil, by simp_all, Runs.Cut.single glyph⟩
  | @cons last g out groups holds earlier =>
      rw [List.reverse_cons] at cut
      dsimp only
      split
      · rename_i same
        have styles : ∀ a ∈ g, a.1.style = glyph.1.style := fun a member =>
          (holds.style a member).symm.trans ((styleEq_iff _ _).mp same)
        refine ⟨(g ++ [glyph]) :: groups, .cons ⟨?_, ?_, holds.unmarked⟩ earlier, ?_, ?_⟩
        · simp [holds.text, glyphsText]
        · intro a member
          rcases List.mem_append.mp member with old | new
          · exact holds.style a old
          · obtain rfl : a = glyph := by simpa using new
            exact (styleEq_iff _ _).mp same
        · simp only [List.map_cons, List.modifyHead_cons, span_append, widths]
        · rw [List.reverse_cons]
          exact cut.extend styles
      · rename_i other
        have styles : ∀ a ∈ g, a.1.style ≠ glyph.1.style := fun a member same =>
          other ((styleEq_iff _ _).mpr ((holds.style a member).trans same))
        refine ⟨[glyph] :: g :: groups, .cons single (.cons holds earlier), ?_, ?_⟩
        · simp only [List.map_cons, widths]
        · rw [List.reverse_cons, List.reverse_cons]
          exact cut.fresh styles

theorem tracks_row (cells : List Glyph) :
    ∃ groups, Tracks (cells.foldl (fun acc glyph => pushCell acc glyph.1) ([], []))
      (cells.filter (!·.1.flags.wideCharSpacer)) groups := by
  induction cells using List.reverseRecOn with
  | nil => exact ⟨[], .nil, rfl, Runs.Cut.nil⟩
  | append_singleton cells glyph ih =>
      obtain ⟨groups, before⟩ := ih
      rw [List.foldl_append, List.foldl_cons, List.foldl_nil, List.filter_append]
      cases seen : glyph.1.flags.wideCharSpacer with
      | true =>
          refine ⟨groups, ?_⟩
          rw [pushCell, if_pos seen, List.filter_singleton, seen]
          simpa using before
      | false =>
          rw [List.filter_singleton, seen]
          exact before.pushCell glyph seen

/-! ## The end of the row -/

theorem byteLen_spaces (l : List Char) (n : Nat) :
    Text.byteLen (String.ofList (l ++ List.replicate n ' ')) = Text.byteLen (String.ofList l) + n := by
  induction n with
  | zero => rw [List.replicate_zero, List.append_nil, Nat.add_zero]
  | succ n ih =>
      have one : (String.ofList [' ']).utf8ByteSize = 1 := rfl
      rw [List.replicate_succ', ← List.append_assoc, String.ofList_append, Text.byteLen,
        String.utf8ByteSize_append, one, ← Nat.add_assoc, ← ih, Text.byteLen]

theorem glyphs_of_spaces {g : List Glyph} (spaces : ∀ glyph ∈ g, glyph.1.text = [' ']) :
    glyphsText g = List.replicate g.length ' ' ∧ span g = g.length := by
  induction g with
  | nil => exact ⟨rfl, rfl⟩
  | cons glyph rest ih =>
      obtain ⟨texts, widths⟩ := ih fun other member => spaces other (List.mem_cons_of_mem _ member)
      have space := spaces glyph List.mem_cons_self
      constructor
      · rw [glyphsText, List.flatMap_cons, space, ← glyphsText, texts]
        rfl
      · rw [span, List.map_cons, List.sum_cons, ← span, widths, Cell.width_of_space space,
          List.length_cons, Nat.add_comm]

/-- Blanks at the end of a run go from its text and its span together. -/
theorem trimEndSpaces_holds {run : CellRun} {g : List Glyph} (holds : Holds run g) :
    (trimEndSpaces run.text).toList = glyphsText (g.rdropWhile (·.1.text = [' '])) ∧
      Text.byteLen run.text - Text.byteLen (trimEndSpaces run.text) + span (g.rdropWhile (·.1.text = [' '])) =
        span g := by
  have parts : g.rdropWhile (·.1.text = [' ']) ++ g.rtakeWhile (·.1.text = [' ']) = g :=
    List.rdropWhile_append_rtakeWhile
  obtain ⟨texts, widths⟩ := glyphs_of_spaces (g := g.rtakeWhile (·.1.text = [' ']))
    fun glyph member => by simpa using List.mem_rtakeWhile_imp member
  have trimmed : (trimEndSpaces run.text).toList = glyphsText (g.rdropWhile (·.1.text = [' '])) := by
    rw [trimEndSpaces, String.toList_ofList, holds.text]
    exact Runs.rdropWhile_flatMap (fun glyph _ space => by simp_all)
      fun glyph _ more => Cell.ends_of_not_space (by simpa using more)
  refine ⟨trimmed, ?_⟩
  have whole : run.text = String.ofList ((trimEndSpaces run.text).toList ++
      List.replicate (g.rtakeWhile (·.1.text = [' '])).length ' ') := by
    rw [trimmed, ← texts, ← glyphsText_append, parts, ← holds.text, String.ofList_toList]
  have bytes := byteLen_spaces (trimEndSpaces run.text).toList (g.rtakeWhile (·.1.text = [' '])).length
  rw [← whole, String.ofList_toList] at bytes
  have spans := span_append (g.rdropWhile (·.1.text = [' '])) (g.rtakeWhile (·.1.text = [' ']))
  rw [parts, widths] at spans
  omega

theorem text_ne_nil (cell : Cell) : cell.text ≠ [] := List.cons_ne_nil _ _

theorem Tracks.trimTail {out : List CellRun} {runCols : List Nat} {cells : List Glyph}
    {groups : List (List Glyph)} (before : Tracks (out, runCols) cells groups) :
    ∃ groups', Tracks (TermGrid.trimTail out runCols) (cells.rdropWhile (·.1.blank)) groups' := by
  induction out generalizing runCols cells groups with
  | nil =>
      obtain ⟨runs, spans, cut⟩ := before
      cases runs
      obtain rfl : [] = cells := cut.joined
      exact ⟨[], .nil, spans, Runs.Cut.nil⟩
  | cons last out ih =>
      obtain ⟨runs, spans, cut⟩ := before
      obtain rfl : runCols = groups.map span := spans
      cases runs with
      | @cons _ g _ groups holds earlier =>
      rw [List.reverse_cons] at cut
      have cells_eq : groups.reverse.flatten ++ g = cells := by
        rw [← cut.joined, List.flatten_append, List.flatten_singleton]
      have inhabited := cut.nonempty g (by simp)
      have decorates : ∀ glyph ∈ g, runDecoratesBlanks glyph.1.style = runDecoratesBlanks last :=
        fun glyph member => by rw [← holds.style glyph member]; rfl
      rw [TermGrid.trimTail]
      cases decorated : runDecoratesBlanks last with
      | true =>
          -- The last run's last cell shows, so the row ends there.
          rw [if_pos rfl]
          obtain nothing | ⟨init, glyph, ends⟩ := g.eq_nil_or_concat
          · exact absurd nothing inhabited
          rw [List.concat_eq_append] at ends
          have shows : glyph.1.blank = false := by
            rw [Cell.blank, decorates glyph (by simp [ends]), decorated]
            simp
          have stays : cells.rdropWhile (·.1.blank) = cells := by
            rw [← cells_eq, ends, ← List.append_assoc]
            exact List.rdropWhile_concat_neg _ _ _ (by simp [shows])
          refine ⟨g :: groups, ?_⟩
          rw [stays]
          exact ⟨.cons holds earlier, rfl, by rw [List.reverse_cons]; exact cut⟩
      | false =>
          have blanks : ∀ glyph ∈ g, glyph.1.blank = (glyph.1.text = [' '] : Bool) := fun glyph member => by
            rw [Cell.blank, decorates glyph member, decorated, Bool.not_false, Bool.and_true]
          have within : g.rdropWhile (·.1.blank) = g.rdropWhile (·.1.text = [' ']) :=
            Runs.rdropWhile_congr blanks
          obtain ⟨trimmed, bytes⟩ := trimEndSpaces_holds holds
          simp only [Bool.false_eq_true, if_false]
          split
          · rename_i empty
            have gone : g.rdropWhile (·.1.blank) = [] := by
              rw [String.utf8ByteSize_eq_zero_iff.mp empty] at trimmed
              rw [within]
              by_contra some
              obtain ⟨glyph, member⟩ := List.exists_mem_of_ne_nil _ some
              exact text_ne_nil glyph.1 (List.flatMap_eq_nil_iff.mp trimmed.symm glyph member)
            have shorter : Tracks (out, groups.map span) groups.reverse.flatten groups := ⟨earlier, rfl, cut.init⟩
            obtain ⟨groups', after⟩ := ih shorter
            refine ⟨groups', ?_⟩
            rwa [← cells_eq, Runs.rdropWhile_append_of_all (List.rdropWhile_eq_nil_iff.mp gone)]
          · rename_i more
            have stays : g.rdropWhile (·.1.blank) ≠ [] := fun gone => by
              rw [← within, gone] at trimmed
              exact more (String.utf8ByteSize_eq_zero_iff.mpr (String.toList_eq_nil_iff.mp trimmed))
            have parts : g.rdropWhile (·.1.blank) ++ g.rtakeWhile (·.1.blank) = g :=
              List.rdropWhile_append_rtakeWhile
            rw [← parts] at cut
            have shorter := cut.shorten stays
            rw [List.flatten_append, List.flatten_singleton, ← List.reverse_cons] at shorter
            refine ⟨g.rdropWhile (·.1.blank) :: groups, .cons ⟨?_, ?_, holds.unmarked⟩ earlier, ?_, ?_⟩
            · rw [within]
              exact trimmed
            · exact fun glyph member => holds.style glyph ((List.rdropWhile_prefix _ g).subset member)
            · rw [← within] at bytes
              rw [List.map_cons, List.map_cons, List.modifyHead_cons]
              refine List.cons_eq_cons.mpr ⟨?_, rfl⟩
              omega
            · rwa [← cells_eq, Runs.rdropWhile_append_of_any stays]

/-! ## The whole row -/

/-- A run with its columns stamped, where they are not its characters. -/
structure Stamped (run : CellRun) (g : List Glyph) : Prop where
  text : run.text.toList = glyphsText g
  style : ∀ glyph ∈ g, TermGrid.style run = glyph.1.style
  columns : runColumns run = if (glyphsText g).length = span g then span g else min (span g) 65535

theorem stampCols_holds {runs : List CellRun} {groups : List (List Glyph)}
    (holds : List.Forall₂ Holds runs groups) :
    List.Forall₂ (fun run g => Stamped run g ∧ run.wrapped = none) (stampCols runs (groups.map span)) groups := by
  induction holds with
  | nil => exact .nil
  | @cons run g runs groups here _ ih =>
      rw [List.map_cons, stampCols]
      refine .cons ?_ ih
      have count : run.text.toList.length = (glyphsText g).length := congrArg List.length here.text
      split
      · rename_i other
        refine ⟨⟨here.text, here.style, ?_⟩, here.unmarked.1⟩
        rw [runColumns, if_neg (count ▸ other)]
        exact UInt16.toNat_ofNat_of_lt' (by rw [UInt16.size]; omega)
      · rename_i same
        rw [not_not] at same
        refine ⟨⟨here.text, here.style, ?_⟩, here.unmarked.1⟩
        rw [runColumns, here.unmarked.2, if_pos (count ▸ same), same]

theorem pushRow (row : List Cell) :
    row.foldl pushCell ([], []) = row.zipIdx.foldl (fun acc glyph => pushCell acc glyph.1) ([], []) := by
  conv_lhs => rw [← List.zipIdx_map_fst 0 row, List.foldl_map]

/-- The runs of the kept cells, before anything is stamped on them. -/
theorem tracks_kept (row : List Cell) :
    ∃ groups, Tracks (if !wrapped row then trimTail (row.foldl pushCell ([], [])).1 (row.foldl pushCell ([], [])).2
      else row.foldl pushCell ([], [])) (kept row) groups := by
  obtain ⟨groups, tracks⟩ := tracks_row row.zipIdx
  rw [← pushRow] at tracks
  unfold kept
  cases wrapped row with
  | true => exact ⟨groups, tracks⟩
  | false => exact tracks.trimTail

theorem isChain_of_apart {runs : List CellRun} {groups : List (List Glyph)}
    (nonempty : ∀ g ∈ groups, g ≠ [])
    (apart : groups.IsChain fun g h => ∀ a ∈ g, ∀ b ∈ h, a.1.style ≠ b.1.style)
    (stamped : List.Forall₂ Stamped runs groups) : runs.IsChain (fun a b => styleEq a b = false) := by
  induction stamped with
  | nil => exact .nil
  | @cons run g runs groups here later ih =>
      cases later with
      | nil => exact .singleton _
      | @cons next h runs groups there _ =>
          obtain ⟨border, rest⟩ := List.isChain_cons_cons.mp apart
          refine List.isChain_cons_cons.mpr ⟨?_, ih (fun k member => nonempty k (List.mem_cons_of_mem _ member)) rest⟩
          obtain ⟨a, inside⟩ := List.exists_mem_of_ne_nil g (nonempty g (by simp))
          obtain ⟨b, within⟩ := List.exists_mem_of_ne_nil h (nonempty h (by simp))
          refine Bool.eq_false_iff.mpr fun same => border a inside b within ?_
          exact (here.style a inside).symm.trans (((styleEq_iff _ _).mp same).trans (there.style b within))

theorem markLast_holds {runs : List CellRun} {groups : List (List Glyph)}
    (stamped : List.Forall₂ (fun run g => Stamped run g ∧ run.wrapped = none) runs groups) :
    List.Forall₂ Stamped (markLast runs) groups ∧ (∀ run ∈ (markLast runs).dropLast, run.wrapped = none) ∧
      ∀ last ∈ (markLast runs).getLast?, last.wrapped = some true := by
  induction stamped with
  | nil => exact ⟨.nil, by simp [markLast], by simp [markLast]⟩
  | @cons run g runs groups here later ih =>
      obtain ⟨⟨text, styles, columns⟩, plain⟩ := here
      cases later with
      | nil => exact ⟨.cons ⟨text, styles, columns⟩ .nil, by simp [markLast], by simp [markLast]⟩
      | @cons next h runs groups _ _ =>
          obtain ⟨holds, unmarked, marked⟩ := ih
          have some : markLast (next :: runs) ≠ [] := by cases runs <;> simp [markLast]
          rw [markLast, List.dropLast_cons_of_ne_nil some, List.getLast?_cons_of_ne_nil some]
          refine ⟨.cons ⟨text, styles, columns⟩ holds, List.forall_mem_cons.mpr ⟨plain, unmarked⟩, marked⟩

theorem unmarked_of_stamped {runs : List CellRun} {groups : List (List Glyph)}
    (stamped : List.Forall₂ (fun run g => Stamped run g ∧ run.wrapped = none) runs groups) :
    ∀ run ∈ runs, run.wrapped = none := by
  induction stamped with
  | nil => exact fun _ member => by cases member
  | cons here _ ih => exact List.forall_mem_cons.mpr ⟨here.2, ih⟩

theorem text_of_stamped {runs : List CellRun} {groups : List (List Glyph)}
    (stamped : List.Forall₂ Stamped runs groups) :
    runs.flatMap (·.text.toList) = glyphsText groups.flatten := by
  induction stamped with
  | nil => rfl
  | cons here _ ih => rw [List.flatMap_cons, List.flatten_cons, glyphsText_append, here.text, ih]

/-- Where each wide glyph has its spacer, cells take the columns counted for
    them. -/
theorem span_of_paired {row : List Cell} (paired : Paired row) {g : List Glyph}
    (inside : ∀ glyph ∈ g, glyph ∈ glyphs row) : span g = gridColumns row g := by
  rw [span, gridColumns]
  refine congrArg List.sum (List.map_congr_left fun glyph member => ?_)
  simpa [gridColumns] using (paired glyph (inside glyph member)).symm

/-- A row's runs are the runs of its cells without the blank end, and their columns what the encoder counts, as
far as a `u16` does. -/
theorem encodes_row (row : List Cell) :
    Encodes (fun run g =>
      runColumns run = (if (glyphsText g).length = span g then span g else min (span g) 65535) ∧
        (Paired row → span g = gridColumns row g)) row (encodeRowRuns row) := by
  obtain ⟨groups, runs, spans, cut⟩ := tracks_kept row
  have stamped := stampCols_holds (List.rel_reverse runs)
  rw [List.map_reverse, ← spans] at stamped
  obtain ⟨out, stamped, encodes⟩ : ∃ out,
      List.Forall₂ (fun run g => Stamped run g ∧ run.wrapped = none) out groups.reverse ∧
      encodeRowRuns row = if wrapped row then markLast out else out := ⟨_, stamped, rfl⟩
  have marks : List.Forall₂ Stamped (encodeRowRuns row) groups.reverse ∧
      (∀ run ∈ (encodeRowRuns row).dropLast, run.wrapped = none) ∧
      ∀ last ∈ (encodeRowRuns row).getLast?, last.wrapped = if wrapped row then some true else none := by
    rw [encodes]
    cases wrapped row with
    | true => exact markLast_holds stamped
    | false =>
        have plain := unmarked_of_stamped stamped
        exact ⟨stamped.imp fun _ _ h => h.1, fun run member => plain run (List.dropLast_subset _ member),
          fun last member => plain last (List.mem_of_getLast? member)⟩
  obtain ⟨holds, plain, marked⟩ := marks
  have kept_row : ∀ g ∈ groups.reverse, ∀ glyph ∈ g, glyph ∈ glyphs row := fun g member glyph within => by
    have there : glyph ∈ kept row := cut.joined ▸ List.mem_flatten_of_mem member within
    rw [kept] at there
    split at there
    · exact there
    · exact (List.rdropWhile_prefix _ _).subset there
  refine ⟨(text_of_stamped holds).trans (congrArg glyphsText cut.joined), groups.reverse, cut, ?_,
    isChain_of_apart cut.nonempty cut.apart holds, plain, marked⟩
  have both := (List.forall₂_and_left (p := fun g => ∀ glyph ∈ g, glyph ∈ glyphs row) _ _).mpr ⟨kept_row, holds.flip⟩
  refine both.flip.imp fun run g ⟨inside, text, styles, columns⟩ => ?_
  exact ⟨text, styles, columns, fun paired => span_of_paired paired inside⟩

/-! ### Rows where the count is the grid's -/

theorem gridColumns_eq (row : List Cell) (g : List Glyph) :
    gridColumns row g = g.length + (g.map (spacersBehind row)).sum := by
  induction g with
  | nil => rfl
  | cons glyph g ih =>
      rw [gridColumns, List.map_cons, List.sum_cons, ← gridColumns, ih, List.map_cons, List.sum_cons, List.length_cons,
        spacersBehind]
      omega

theorem span_eq (g : List Glyph) : span g = g.length + g.countP (·.1.flags.wideChar) := by
  induction g with
  | nil => rfl
  | cons glyph g ih =>
      rw [span, List.map_cons, List.sum_cons, ← span, ih, List.countP_cons, List.length_cons, Cell.width]
      split <;> omega

theorem gridColumns_le (row cells : List Cell) (k : Nat) (rest : row.drop k = cells) :
    gridColumns row ((cells.zipIdx k).filter (!·.1.flags.wideCharSpacer)) +
      (cells.takeWhile (·.flags.wideCharSpacer)).length = cells.length := by
  induction cells generalizing k with
  | nil => rfl
  | cons cell cells ih =>
      have next : row.drop (k + 1) = cells := by rw [← List.drop_drop, rest, List.drop_one, List.tail_cons]
      have ih := ih (k + 1) next
      rw [List.zipIdx_cons]
      cases seen : cell.flags.wideCharSpacer with
      | true =>
          rw [List.filter_cons_of_neg (by simp [seen]), List.takeWhile_cons, if_pos seen, List.length_cons, List.length_cons]
          omega
      | false =>
          rw [List.filter_cons_of_pos (by simp [seen]), List.takeWhile_cons, if_neg (by simp [seen]), List.length_cons,
            List.length_nil, gridColumns, List.map_cons, List.sum_cons, ← gridColumns, next]
          omega

theorem kept_sublist (row : List Cell) : (kept row).Sublist (glyphs row) := by
  unfold kept
  split
  · exact List.Sublist.refl _
  · exact (List.rdropWhile_prefix _ _).sublist

theorem gridColumns_kept {row : List Cell} {g : List Glyph} (part : g.Sublist (kept row)) :
    gridColumns row g ≤ row.length := by
  have most : gridColumns row g ≤ gridColumns row (glyphs row) :=
    ((part.trans (kept_sublist row)).map _).sum_le_sum fun _ _ => Nat.zero_le _
  have whole := gridColumns_le row row 0 rfl
  rw [← glyphs] at whole
  omega

theorem map_runColumns {count : List Glyph → Nat} {runs : List CellRun} {groups : List (List Glyph)}
    (each : List.Forall₂ (fun run g => runColumns run = count g) runs groups) : runs.map runColumns = groups.map count := by
  rw [← List.forall₂_eq_eq_eq, List.forall₂_map_left_iff, List.forall₂_map_right_iff]
  exact each

/-- Encoding is faithful, the columns of every run the grid's own, just where the stretches of the row are balanced,
as they are where each wide glyph has its spacer. -/
theorem encodes_row_iff {row : List Cell} (narrow : row.length < 65535) :
    (Encodes (fun run g => runColumns run = gridColumns row g) row (encodeRowRuns row) ↔ Balanced row) ∧
      (Paired row → Balanced row) := by
  obtain ⟨text, groups, cut, runs, chain, marks⟩ := encodes_row row
  obtain rfl := cut.eq_splitBy
  have part : ∀ g ∈ (kept row).splitBy (·.1.style = ·.1.style), g.Sublist (kept row) := fun g member =>
    cut.joined ▸ List.sublist_flatten_of_mem member
  have counts {g : List Glyph} : g.countP (·.1.flags.wideChar) = (g.map (spacersBehind row)).sum ↔
      span g = gridColumns row g := by
    rw [span_eq, gridColumns_eq]
    omega
  refine ⟨⟨?_, fun balanced => ⟨text, _, cut, ?_, chain, marks⟩⟩, fun paired g member => counts.mpr ?_⟩
  · rintro ⟨-, groups, cut', runs', -⟩ g member
    obtain rfl := cut'.eq_splitBy
    -- The encoder's count of each run is the grid's, and too small to be capped.
    have columns := (map_runColumns (runs.imp fun _ _ h => h.2.2.1)).symm.trans
      (map_runColumns (runs'.imp fun _ _ h => h.2.2))
    have same := List.map_inj_left.mp columns g member
    have := gridColumns_kept (part g member)
    refine counts.mpr ?_
    split at same <;> omega
  · have both := (List.forall₂_and_left (p := fun g => g.Sublist (kept row) ∧ span g = gridColumns row g) _ _).mpr
      ⟨fun g member => ⟨part g member, counts.mp (balanced g member)⟩, runs.flip⟩
    refine both.flip.imp fun run g ⟨⟨inside, same⟩, text, styles, columns, _⟩ => ⟨text, styles, ?_⟩
    have := gridColumns_kept inside
    show runColumns run = gridColumns row g
    rw [columns, ← same]
    split <;> omega
  · exact span_of_paired paired fun glyph inside => (kept_sublist row).subset ((part g member).subset inside)

/-! ### A wide glyph without its spacer -/

/-- A cell in the terminal's own colours. -/
def plainCell (c : Char) (wide : Bool) (glyph : wide → c ≠ ' ' ∧ c ≠ Char.ofNat 0) : Cell where
  c := c
  fg := .named .foreground
  bg := .named .background
  flags := { wideChar := wide }
  zerowidth := none
  zerowidth_noSpace := by simp
  wide_glyph := glyph

/-- The spacer after the glyph was erased to a blank. -/
def orphanRow : List Cell :=
  [plainCell '日' true (by decide), plainCell ' ' false (by decide), plainCell 'x' false (by decide)]

/-- With the spacer in its place the count is right. -/
theorem encodes_row_iff_paired : ∃ row : List Cell, row.length = 4 ∧ Paired row ∧
    Encodes (fun run g => runColumns run = gridColumns row g) row (encodeRowRuns row) := by
  let row := [plainCell 'x' false (by decide), plainCell '日' true (by decide),
    { plainCell ' ' false (by decide) with flags := { wideCharSpacer := true }, wide_glyph := by simp },
    plainCell 'y' false (by decide)]
  have paired : Paired row := by decide +kernel
  obtain ⟨faithful, balanced⟩ := encodes_row_iff (show row.length < 65535 by decide)
  exact ⟨row, rfl, paired, faithful.mpr (balanced paired)⟩

/-- The encoder counts four columns where the row has three. -/
theorem orphan_overcounts :
    ¬ Encodes (fun run g => runColumns run = gridColumns orphanRow g) orphanRow (encodeRowRuns orphanRow) := by
  rintro ⟨-, groups, cut, runs, -⟩
  have counts : (encodeRowRuns orphanRow).map runColumns = [4] := by decide +kernel
  have total : gridColumns orphanRow (kept orphanRow) = 3 := by decide +kernel
  obtain ⟨run, one⟩ := List.length_eq_one_iff.mp ((List.length_map _).symm.trans (congrArg List.length counts))
  rw [one] at runs counts
  obtain ⟨g, rest, ⟨-, -, columns⟩, none, rfl⟩ := List.forall₂_cons_left_iff.mp runs
  obtain rfl : rest = [] := List.forall₂_nil_left_iff.mp none
  have joined := cut.joined
  rw [List.flatten_singleton] at joined
  rw [joined, total, (List.cons.inj counts).1] at columns
  exact absurd columns (by decide)

end K2.TermGrid
