import K2.Lib.Lines
import K2.TermGrid.Reflow

/-! # Reflow and text

What the two passes make of the text: the rows of a logical line are joined, and
cut again. The characters that are not blank stay, line by line; blanks stay too
where no row of either wrapping ends in one.
-/

namespace K2.TermGrid

open SoftWrap

/-! ## What the passes compute -/

theorem byteLen_append (a b : String) : Text.byteLen (a ++ b) = Text.byteLen a + Text.byteLen b :=
  String.utf8ByteSize_append

theorem trimEnd_toList (s : String) : (trimEnd s).toList = s.toList.rdropWhile Text.isWhitespace := by
  rw [trimEnd, String.toList_ofList]

theorem trimEnd_eq_self {s : String} (kept : ¬ Text.byteLen (trimEnd s) < Text.byteLen s) : trimEnd s = s := by
  have parts : s = trimEnd s ++ String.ofList (s.toList.rtakeWhile Text.isWhitespace) := by
    rw [trimEnd, ← String.ofList_append, List.rdropWhile_append_rtakeWhile, String.ofList_toList]
  have bytes := congrArg Text.byteLen parts
  rw [byteLen_append] at bytes
  have nothing : String.ofList (s.toList.rtakeWhile Text.isWhitespace) = "" :=
    String.utf8ByteSize_eq_zero_iff.mp (show Text.byteLen _ = 0 by omega)
  rw [nothing, String.append_empty] at parts
  exact parts.symm

theorem trimLine_text (line : LogicalLine) : (trimLine line).text = trimEnd line.text := by
  unfold trimLine
  dsimp only
  split
  · rfl
  · rename_i kept
    exact (trimEnd_eq_self kept).symm

/-- The rows of one line, joined but for the blanks at its end. -/
def joinOpen (first : LogicalLine) (rest : List CompactLine) : LogicalLine :=
  rest.foldl (fun cur line => (appendRow (trimLine cur) line).value) first

/-- The rows of one line, joined. -/
def joinOpenRows : List CompactLine → LogicalLine
  | [] => ⟨"", []⟩
  | row :: rest => joinOpen ⟨row.text, row.spans⟩ rest

def joinRows (rows : List CompactLine) : LogicalLine := trimLine (joinOpenRows rows)

/-- The lines to come, the first of which may go on with `current`. -/
def joinFrom : Option LogicalLine → List (List CompactLine) → List LogicalLine
  | none, lines => lines.map joinOpenRows
  | some cur, [] => [cur]
  | some cur, line :: lines => joinOpen cur line :: lines.map joinOpenRows

theorem fold_joinStep (lines : List CompactLine) (done : List LogicalLine) (current : Option LogicalLine) :
    flush (lines.foldl (fun acc line => (joinStep acc line).value) (done, current)) =
      done ++ joinFrom current (logicalLines (·.wrapped) lines) := by
  induction lines generalizing done current with
  | nil => cases current <;> simp [flush, logicalLines, joinFrom]
  | cons row rest ih =>
      rw [List.foldl_cons, logicalLines]
      cases current with
      | none =>
          cases goes : row.wrapped with
          | true =>
              have step : (joinStep (done, none) row).value = (done, some ⟨row.text, row.spans⟩) := by
                simp [joinStep, goes]
              rw [step, ih]
              cases logicalLines (·.wrapped) rest <;> rfl
          | false =>
              have step : (joinStep (done, none) row).value = (done ++ [⟨row.text, row.spans⟩], none) := by
                simp [joinStep, goes]
              rw [step, ih, List.append_assoc]
              rfl
      | some cur =>
          cases goes : row.wrapped with
          | true =>
              have step : (joinStep (done, some cur) row).value =
                  (done, some (appendRow (trimLine cur) row).value) := by
                simp [joinStep, goes]
              rw [step, ih]
              cases logicalLines (·.wrapped) rest <;> rfl
          | false =>
              have step : (joinStep (done, some cur) row).value =
                  (done ++ [(appendRow (trimLine cur) row).value], none) := by
                simp [joinStep, goes]
              rw [step, ih, List.append_assoc]
              rfl

theorem joinWrappedLines_value (lines : List CompactLine) :
    (joinWrappedLines lines).value = (logicalLines (·.wrapped) lines).map joinRows := by
  have joined := fold_joinStep lines [] none
  rw [List.nil_append, joinFrom] at joined
  rw [joinWrappedLines, Exact.value_bind, Exact.value_pure, Exact.value_fold, joined, List.map_map]
  rfl

theorem wrapFrom_value {logical : LogicalLine} {w : Nat} (wide : 0 < w) {fuel offset : Nat}
    (inside : offset < logical.text.toList.length) (enough : logical.text.toList.length ≤ offset + fuel) :
    ((wrapFrom logical w fuel offset).value.map fun row => row.text.toList) =
        (pieces w (logical.text.toList.drop offset)).map (·.rdropWhile Text.isWhitespace) ∧
      Closed (·.wrapped) (wrapFrom logical w fuel offset).value := by
  induction fuel generalizing offset with
  | zero => omega
  | succ fuel ih =>
      simp only [wrapFrom, if_pos inside, Exact.value_bind, Exact.value_pure, List.map_cons, trimEnd_toList,
        String.toList_ofList]
      have left : (logical.text.toList.drop offset).length = logical.text.toList.length - offset :=
        List.length_drop
      by_cases more : offset + w < logical.text.toList.length
      · have stop : min (offset + w) logical.text.toList.length = offset + w := by omega
        obtain ⟨texts, init, last, rows, goes, ends⟩ := ih more (by omega)
        have cut : pieces w (logical.text.toList.drop offset) =
            (logical.text.toList.drop offset).take w :: pieces w (logical.text.toList.drop (offset + w)) := by
          rw [pieces_long wide (by omega), List.drop_drop]
        rw [stop, texts, cut, List.map_cons, Nat.add_sub_cancel_left]
        refine ⟨rfl, _ :: init, last, by rw [rows]; rfl, List.forall_mem_cons.mpr ⟨?_, goes⟩, ends⟩
        simpa using more
      · have stop : min (offset + w) logical.text.toList.length = logical.text.toList.length := by omega
        have done : (wrapFrom logical w fuel logical.text.toList.length).value = [] := by
          cases fuel <;> simp [wrapFrom]
        rw [stop, done, pieces_short (by omega), List.take_of_length_le (by omega)]
        exact ⟨rfl, [], _, rfl, by simp, by simp⟩

theorem wrapLogicalLine_value {logical : LogicalLine} {w : Nat} (wide : 0 < w)
    (trimmed : logical.text.toList.rdropWhile Text.isWhitespace = logical.text.toList) :
    ((wrapLogicalLine logical w).value.map fun row => row.text.toList) =
        (pieces w logical.text.toList).map (·.rdropWhile Text.isWhitespace) ∧
      Closed (·.wrapped) (wrapLogicalLine logical w).value := by
  unfold wrapLogicalLine
  split
  · rename_i fits
    rw [pieces_short fits, List.map_singleton, trimmed]
    exact ⟨rfl, [], _, rfl, by simp, rfl⟩
  · rename_i long
    rw [charCount] at long ⊢
    exact wrapFrom_value wide (show 0 < logical.text.toList.length by omega) (by omega)

theorem reflowLines_value {w : Nat} (wide : 0 < w) (lines : List CompactLine) :
    logicalLines (·.wrapped) (reflowLines lines w).value =
      (logicalLines (·.wrapped) lines).map fun rows => (wrapLogicalLine (joinRows rows) w).value := by
  rw [reflowLines, Exact.value_bind, Exact.value_bind, Exact.value_pure, Exact.value_traverse,
    joinWrappedLines_value, List.map_map]
  refine logicalLines_flatten fun rows member => ?_
  obtain ⟨line, -, rfl⟩ := List.mem_map.mp member
  refine (wrapLogicalLine_value wide ?_).2
  rw [joinRows, trimLine_text, trimEnd_toList]
  exact List.rdropWhile_idempotent _ _

/-! ## The rows that are shown -/

/-- A row but for its number. -/
def plain (row : CompactLine) : CompactLine := { row with row := 0 }

theorem reflowGrid_lines (grid : GridUpdate) {w rows : Nat} (wide : 0 < w) (tall : 0 < rows) :
    (reflowGrid grid w rows).value.lines.map plain =
      ((reflowLines grid.lines w).value.drop ((reflowLines grid.lines w).value.length - rows)).map plain := by
  rw [reflowGrid, if_neg (by omega), Exact.value_bind, Exact.value_pure]
  refine List.ext_getElem? fun i => ?_
  simp only [List.getElem?_map, List.getElem?_mapIdx, Option.map_map]
  rfl

/-- The text of a logical line. -/
def lineText (rows : List CompactLine) : List Char := rows.flatMap (·.text.toList)

/-- What the rows of a logical line come to, each without the blanks before the
    next and the line without those at its end. -/
def joinedText (rows : List CompactLine) : List Char :=
  (joined Text.isWhitespace (rows.map (·.text.toList))).rdropWhile Text.isWhitespace

theorem joinRows_text (rows : List CompactLine) : (joinRows rows).text.toList = joinedText rows := by
  have opened : ∀ (rest : List CompactLine) (first : LogicalLine),
      (joinOpen first rest).text.toList = (rest.map (·.text.toList)).foldl
        (fun text row => text.rdropWhile Text.isWhitespace ++ row) first.text.toList := by
    intro rest
    induction rest with
    | nil => exact fun first => rfl
    | cons row rest ih =>
        intro first
        rw [joinOpen, List.foldl_cons, ← joinOpen, ih, List.map_cons, List.foldl_cons]
        simp [appendRow, trimLine_text, trimEnd_toList]
  rw [joinRows, trimLine_text, trimEnd_toList, joinedText]
  cases rows with
  | nil => rfl
  | cons row rest => rw [joinOpenRows, opened, joined, List.map_cons, List.foldl_cons]; rfl

theorem solid_joinedText (rows : List CompactLine) :
    solid Text.isWhitespace (joinedText rows) = solid Text.isWhitespace (lineText rows) := by
  rw [joinedText, solid_rdropWhile, solid_joined, lineText, List.flatMap_def]

theorem lineText_wrapLogicalLine {w : Nat} (wide : 0 < w) (rows : List CompactLine) :
    lineText (wrapLogicalLine (joinRows rows) w).value =
      (pieces w (joinedText rows)).flatMap (·.rdropWhile Text.isWhitespace) := by
  have trimmed : (joinRows rows).text.toList.rdropWhile Text.isWhitespace = (joinRows rows).text.toList := by
    rw [joinRows_text, joinedText, List.rdropWhile_idempotent]
  have texts := (wrapLogicalLine_value wide trimmed).1
  rw [joinRows_text] at texts
  rw [lineText, List.flatMap_def, texts, List.flatMap_def]

/-- What a row says but for its number is seen in the rows shown. -/
theorem logicalLines_shown {β : Type} {f : CompactLine → β} (unnumbered : ∀ row, f (plain row) = f row)
    (grid : GridUpdate) {w rows : Nat} (wide : 0 < w) (tall : 0 < rows)
    (room : (reflowLines grid.lines w).value.length ≤ rows) :
    (logicalLines (·.wrapped) (reflowGrid grid w rows).value.lines).map (List.map f) =
      (logicalLines (·.wrapped) grid.lines).map fun line => (wrapLogicalLine (joinRows line) w).value.map f := by
  have shown := reflowGrid_lines grid wide tall
  rw [Nat.sub_eq_zero_of_le room, List.drop_zero] at shown
  have lines := congrArg (logicalLines (·.wrapped)) shown
  rw [logicalLines_map, logicalLines_map] at lines
  have each := congrArg (List.map (List.map f)) lines
  have fields : List.map f ∘ List.map plain = List.map f := by
    funext rows
    rw [Function.comp_apply, List.map_map]
    exact List.map_congr_left fun row _ => unnumbered row
  rw [List.map_map, List.map_map, fields] at each
  exact each.trans (by rw [show ((·.wrapped) ∘ plain : CompactLine → Bool) = (·.wrapped) from rfl,
    reflowLines_value wide, List.map_map]; rfl)

/-- A line with no row that goes on in a blank is its rows' text. -/
theorem joinedText_of_trimmed {line : List CompactLine}
    (trimmed : ∀ row ∈ line.dropLast, trimEnd row.text = row.text) :
    joinedText line = (lineText line).rdropWhile Text.isWhitespace := by
  cases line using List.reverseRecOn with
  | nil => rfl
  | append_singleton init last =>
      rw [List.dropLast_concat] at trimmed
      have rows : ∀ text ∈ init.map (·.text.toList), text.rdropWhile Text.isWhitespace = text := by
        intro text member
        obtain ⟨row, here, rfl⟩ := List.mem_map.mp member
        rw [← trimEnd_toList, trimmed row here]
      obtain ⟨whole, ends⟩ := joined_of_trimmed rows
      rw [joinedText, List.map_append, List.map_singleton, joined_concat, whole, ends, lineText,
        List.flatMap_append, List.flatMap_singleton, List.flatMap_def]

theorem eq_nil_of_reflowLines {lines : List CompactLine} {w : Nat} (wide : 0 < w)
    (nothing : (reflowLines lines w).value = []) : lines = [] := by
  have none := reflowLines_value wide lines
  rw [nothing, logicalLines, eq_comm, List.map_eq_nil_iff] at none
  rw [← flatten_logicalLines (·.wrapped) lines, none, List.flatten_nil]

/-- Reflow keeps the text: no row is wider than the target, each logical line keeps
    the characters that are not blank, and a line that no cut meets right after a
    blank is its rows joined, each without its blank end. -/
theorem reflow_text (grid : GridUpdate) {w rows : Nat} (wide : 1 ≤ w)
    (room : (reflowLines grid.lines w).value.length ≤ rows) :
    (∀ row ∈ (reflowGrid grid w rows).value.lines, charCount row.text ≤ w) ∧
      List.Forall₂ (fun line text =>
        solid Text.isWhitespace text = solid Text.isWhitespace (lineText line) ∧
        (Unbroken Text.isWhitespace w (joinedText line) → text = joinedText line) ∧
        ((∀ row ∈ line.dropLast, trimEnd row.text = row.text) →
          joinedText line = (lineText line).rdropWhile Text.isWhitespace))
        (logicalLines (·.wrapped) grid.lines)
        ((logicalLines (·.wrapped) (reflowGrid grid w rows).value.lines).map lineText) := by
  cases Nat.eq_zero_or_pos rows with
  | inl none =>
      have nothing := List.length_eq_zero_iff.mp (Nat.le_zero.mp (none ▸ room))
      have empty := eq_nil_of_reflowLines wide nothing
      rw [reflowGrid, if_pos (.inr none), Exact.value_pure, empty]
      exact ⟨fun row member => absurd member List.not_mem_nil, .nil⟩
  | inr tall =>
      have texts := logicalLines_shown (f := fun row => row.text.toList) (fun _ => rfl) grid wide tall room
      constructor
      · intro row member
        have there : row.text.toList ∈ ((logicalLines (·.wrapped)
            (reflowGrid grid w rows).value.lines).map (List.map fun row => row.text.toList)).flatten := by
          rw [← List.map_flatten, flatten_logicalLines]
          exact List.mem_map_of_mem member
        rw [texts] at there
        obtain ⟨wrapped, inside, found⟩ := List.mem_flatten.mp there
        obtain ⟨line, -, rfl⟩ := List.mem_map.mp inside
        have trimmed : (joinRows line).text.toList.rdropWhile Text.isWhitespace = (joinRows line).text.toList := by
          rw [joinRows_text, joinedText, List.rdropWhile_idempotent]
        rw [(wrapLogicalLine_value wide trimmed).1] at found
        obtain ⟨piece, cut, same⟩ := List.mem_map.mp found
        rw [charCount, ← same]
        exact (List.rdropWhile_prefix _ _).length_le.trans (length_of_mem_pieces wide cut)
      · have lines : (logicalLines (·.wrapped) (reflowGrid grid w rows).value.lines).map lineText =
            (logicalLines (·.wrapped) grid.lines).map fun line =>
              (pieces w (joinedText line)).flatMap (·.rdropWhile Text.isWhitespace) := by
          have flat := congrArg (List.map List.flatten) texts
          rw [List.map_map, List.map_map] at flat
          exact flat.trans (List.map_congr_left fun line _ => lineText_wrapLogicalLine wide line)
        rw [lines, List.forall₂_map_right_iff, List.forall₂_same]
        intro line member
        refine ⟨?_, fun unbroken => flatMap_pieces_of_unbroken wide unbroken ?_, joinedText_of_trimmed⟩
        · rw [solid_flatMap_rdropWhile, flatten_pieces, solid_joinedText]
        · rw [joinedText, List.rdropWhile_idempotent]

/-! ### Padding and words -/

/-- A screen of these rows, as they wrap. -/
def screen (rows : List (String × Bool)) : GridUpdate where
  cols := 80
  rows := 24
  cursorCol := 0
  cursorRow := 0
  cursorVisible := true
  cursorShape := "block"
  lines := rows.map fun row => { row := 0, text := row.1, spans := [], wrapped := row.2 }
  full := true
  mode := 0
  displayOffset := 0
  selection := none
  perf := none
  seqno := 1

/-- Two rows, the second of which starts a word. -/
theorem reflow_text_screen :
    (∀ row ∈ (reflowGrid (screen [("a b", true), ("cd", false)]) 4 2).value.lines, charCount row.text ≤ 4) ∧
      List.Forall₂ (fun line text =>
        solid Text.isWhitespace text = solid Text.isWhitespace (lineText line) ∧
        (Unbroken Text.isWhitespace 4 (joinedText line) → text = joinedText line) ∧
        ((∀ row ∈ line.dropLast, trimEnd row.text = row.text) →
          joinedText line = (lineText line).rdropWhile Text.isWhitespace))
        (logicalLines (·.wrapped) (screen [("a b", true), ("cd", false)]).lines)
        ((logicalLines (·.wrapped)
          (reflowGrid (screen [("a b", true), ("cd", false)]) 4 2).value.lines).map lineText) :=
  reflow_text _ (by decide) (by decide +kernel)

/-- Each logical line has its text again, up to the blanks at its end. -/
def KeepsText (grid : GridUpdate) (w rows : Nat) : Prop :=
  List.Forall₂ (fun line text => text.rdropWhile Text.isWhitespace = (lineText line).rdropWhile Text.isWhitespace)
    (logicalLines (·.wrapped) grid.lines)
    ((logicalLines (·.wrapped) (reflowGrid grid w rows).value.lines).map lineText)

instance (grid : GridUpdate) (w rows : Nat) : Decidable (KeepsText grid w rows) :=
  inferInstanceAs (Decidable (List.Forall₂ _ _ _))

/-- The blanks that a row ends in before it goes on are gone from the middle of its
    line, and so is a blank that a new row would end in. -/
theorem reflow_drops_blanks :
    ¬ KeepsText (screen [("ab  ", true), ("c", false)]) 10 5 ∧
      ¬ KeepsText (screen [("hello world", false)]) 6 5 := by
  decide +kernel

end K2.TermGrid
