import K2.TermGrid.ReflowText
import Mathlib.Algebra.GroupWithZero.Nat

/-! # Reflow and styles

A row as its characters, each with the styles of the spans over it. Trimming,
joining and cutting move the spans so that each character keeps its styles, in
their order, and no position leaves a `u16`.
-/

namespace K2.TermGrid

open SoftWrap

abbrev Style := Option UInt32 × Option UInt32 × Option UInt8

/-- A character and the styles over it. -/
abbrev Styled := Char × List Style

namespace StyleSpan

def style (span : StyleSpan) : Style := (span.fg, span.bg, span.fl)

def covers (span : StyleSpan) (i : Nat) : Bool := span.s ≤ i && i ≤ span.e

end StyleSpan

def stylesAt (spans : List StyleSpan) (i : Nat) : List Style := (spans.filter (·.covers i)).map (·.style)

def styledChars (text : List Char) (spans : List StyleSpan) : List Styled :=
  text.mapIdx fun i c => (c, stylesAt spans i)

def styledRow (row : CompactLine) : List Styled := styledChars row.text.toList row.spans

def styledLine (rows : List CompactLine) : List Styled := rows.flatMap styledRow

def blank (c : Styled) : Bool := Text.isWhitespace c.1

/-- Spans are ordered, and lie in a row of `n` characters. -/
def Inside (n : Nat) (spans : List StyleSpan) : Prop := ∀ span ∈ spans, span.s ≤ span.e ∧ span.e < n

/-! ## Moving spans -/

theorem stylesAt_append (first second : List StyleSpan) (i : Nat) :
    stylesAt (first ++ second) i = stylesAt first i ++ stylesAt second i := by
  rw [stylesAt, List.filter_append, List.map_append]
  rfl

theorem stylesAt_of_outside (spans : List StyleSpan) {i : Nat}
    (outside : ∀ span ∈ spans, span.covers i = false) : stylesAt spans i = [] := by
  rw [stylesAt, List.filter_eq_nil_iff.mpr fun span member => by simp [outside span member], List.map_nil]

/-- Spans that cover one place after a move where they covered another before give
    it the same styles. -/
theorem stylesAt_moved {spans : List StyleSpan} {f : StyleSpan → Option StyleSpan} {i j : Nat}
    (covers : ∀ span ∈ spans, (f span).any (·.covers j) = span.covers i)
    (styles : ∀ span ∈ spans, ∀ moved ∈ f span, moved.style = span.style) :
    stylesAt (spans.filterMap f) j = stylesAt spans i := by
  induction spans with
  | nil => rfl
  | cons span rest ih =>
      have later := ih (fun other member => covers other (List.mem_cons_of_mem _ member))
        fun other member => styles other (List.mem_cons_of_mem _ member)
      have here := covers span List.mem_cons_self
      have same := styles span List.mem_cons_self
      rw [stylesAt] at later ⊢
      rw [stylesAt, List.filterMap_cons, List.filter_cons]
      cases moved : f span with
      | none =>
          rw [moved, Option.any_none] at here
          rw [← here]
          exact later
      | some span' =>
          rw [moved, Option.any_some] at here
          rw [← here, List.filter_cons]
          cases span'.covers j with
          | true => exact List.cons_eq_cons.mpr ⟨same span' moved, later⟩
          | false => exact later

theorem styledChars_part (text : List Char) (spans : List StyleSpan) (start : Nat) {part : List Char}
    {moved : List StyleSpan} (chars : ∀ i < part.length, text[start + i]? = part[i]?)
    (same : ∀ i < part.length, stylesAt moved i = stylesAt spans (start + i)) :
    styledChars part moved = ((styledChars text spans).drop start).take part.length := by
  refine List.ext_getElem? fun i => ?_
  rw [styledChars, styledChars, List.getElem?_mapIdx, List.getElem?_take]
  split
  · rename_i inside
    rw [List.getElem?_drop, List.getElem?_mapIdx, chars i inside, same i inside]
  · rename_i outside
    rw [List.getElem?_eq_none (by omega), Option.map_none]

theorem length_styledChars (text : List Char) (spans : List StyleSpan) :
    (styledChars text spans).length = text.length := List.length_mapIdx

theorem map_styledChars (text : List Char) (spans : List StyleSpan) :
    (styledChars text spans).map Prod.fst = text := by
  refine List.ext_getElem? fun i => ?_
  rw [List.getElem?_map, styledChars, List.getElem?_mapIdx, Option.map_map]
  exact Option.map_id'

/-! ## The three moves -/

/-- A line read as styled characters, its spans inside it. -/
structure Reads (line : LogicalLine) (chars : List Styled) : Prop where
  styled : styledChars line.text.toList line.spans = chars
  inside : Inside (charCount line.text) line.spans

theorem Reads.length {line : LogicalLine} {chars : List Styled} (reads : Reads line chars) :
    charCount line.text = chars.length := by
  rw [← reads.styled, length_styledChars]
  rfl

theorem rdropWhile_blank (text : List Char) (spans : List StyleSpan) :
    (styledChars text spans).rdropWhile blank =
      (styledChars text spans).take (text.rdropWhile Text.isWhitespace).length := by
  have chars := Runs.map_rdropWhile Text.isWhitespace Prod.fst (styledChars text spans)
  rw [map_styledChars] at chars
  rw [← chars, List.length_map]
  exact List.prefix_iff_eq_take.mp (List.rdropWhile_prefix _ _)

theorem styles_clampSpan (m : Nat) (span : StyleSpan) : (clampSpan m span).style = span.style := by
  unfold clampSpan
  split <;> rfl

theorem covers_clampSpan {m i : Nat} (before : i < m) (span : StyleSpan) :
    (clampSpan m span).covers i = span.covers i := by
  unfold clampSpan StyleSpan.covers
  split
  · rename_i past
    rw [decide_eq_true (show i ≤ m - 1 by omega), decide_eq_true (show i ≤ span.e by omega)]
  · rfl

theorem stylesAt_clamped (spans : List StyleSpan) {m i : Nat} (before : i < m) :
    stylesAt ((spans.filter (·.s < m)).map (clampSpan m)) i = stylesAt spans i := by
  rw [← List.filterMap_eq_filter, List.map_filterMap]
  refine stylesAt_moved (fun span _ => ?_) fun span _ moved found => ?_
  · rw [Option.guard_apply]
    split
    · exact covers_clampSpan before span
    · rename_i late
      have past : ¬ span.s < m := by simpa using late
      rw [Option.map_none, Option.any_none, StyleSpan.covers, decide_eq_false (show ¬ span.s ≤ i by omega),
        Bool.false_and]
  · obtain ⟨_, guarded, rfl⟩ := Option.map_eq_some_iff.mp found
    rw [styles_clampSpan, (Option.guard_eq_some_iff.mp guarded).1]

theorem inside_clamped {n m : Nat} {spans : List StyleSpan} (inside : Inside n spans) :
    Inside m ((spans.filter (·.s < m)).map (clampSpan m)) := by
  intro moved member
  obtain ⟨span, kept, rfl⟩ := List.mem_map.mp member
  obtain ⟨there, starts⟩ := List.mem_filter.mp kept
  have starts : span.s < m := by simpa using starts
  obtain ⟨ordered, -⟩ := inside span there
  unfold clampSpan
  split
  · exact ⟨show span.s ≤ m - 1 by omega, show m - 1 < m by omega⟩
  · exact ⟨ordered, by omega⟩

theorem Reads.trimLine {line : LogicalLine} {chars : List Styled} (reads : Reads line chars)
    (short : chars.length < 65536) : Reads (TermGrid.trimLine line) (chars.rdropWhile blank) := by
  have count := reads.length
  obtain ⟨rfl, inside⟩ := reads
  rw [rdropWhile_blank]
  unfold TermGrid.trimLine
  dsimp only
  split
  · have begins := List.rdropWhile_prefix Text.isWhitespace line.text.toList
    have fewer := begins.length_le
    have trimmed : Exact.asU16 (charCount (trimEnd line.text)) =
        (line.text.toList.rdropWhile Text.isWhitespace).length := by
      rw [charCount, trimEnd_toList, Exact.asU16_eq]
      rw [charCount] at count
      omega
    rw [trimmed]
    constructor
    · dsimp only
      rw [trimEnd_toList, styledChars_part line.text.toList line.spans 0, List.drop_zero]
      · intro i before
        rw [Nat.zero_add, List.prefix_iff_getElem?.mp begins i before, List.getElem?_eq_getElem before]
      · intro i before
        rw [Nat.zero_add, stylesAt_clamped line.spans before]
    · dsimp only
      rw [charCount, trimEnd_toList]
      exact inside_clamped inside
  · rename_i kept
    have whole := trimEnd_toList line.text
    rw [trimEnd_eq_self kept] at whole
    rw [← whole, List.take_of_length_le (length_styledChars _ _).le]
    exact ⟨rfl, inside⟩

/-- A span of a row that starts `offset` characters into the line. -/
def shifted (offset : Nat) (span : StyleSpan) : StyleSpan :=
  { span with s := span.s + offset, e := span.e + offset }

theorem shiftSpan_eq {offset : Nat} {span : StyleSpan} (ordered : span.s ≤ span.e)
    (small : span.e + offset < 65536) : shiftSpan offset span = pure (shifted offset span) := by
  rw [shiftSpan, Exact.addU16_eq (by omega), Exact.addU16_eq small]
  rfl

theorem stylesAt_shifted (offset : Nat) (spans : List StyleSpan) (i : Nat) :
    stylesAt (spans.map (shifted offset)) (i + offset) = stylesAt spans i := by
  rw [← List.filterMap_eq_map]
  refine stylesAt_moved (fun span _ => ?_) fun span _ moved found => ?_
  · simp only [Function.comp_apply, Option.any_some, StyleSpan.covers, shifted, Nat.add_le_add_iff_right]
  · obtain rfl : shifted offset span = moved := Option.some.inj found
    rfl

theorem Reads.appendRow {cur : LogicalLine} {chars : List Styled} (reads : Reads cur chars) {row : CompactLine}
    (inside : Inside (charCount row.text) row.spans) (short : chars.length + charCount row.text < 65536) :
    (TermGrid.appendRow cur row).exact = true ∧
      Reads (TermGrid.appendRow cur row).value (chars ++ styledRow row) := by
  have count := reads.length
  obtain ⟨rfl, within⟩ := reads
  have offset : Exact.asU16 (charCount cur.text) = charCount cur.text := Exact.asU16_eq (by omega)
  have moves : ∀ span ∈ row.spans, shiftSpan (charCount cur.text) span = pure (shifted (charCount cur.text) span) :=
    fun span member => shiftSpan_eq (inside span member).1 (by have := (inside span member).2; omega)
  have spans : (row.spans.map fun span => (shiftSpan (charCount cur.text) span).value) =
      row.spans.map (shifted (charCount cur.text)) := List.map_congr_left fun span member => by
    rw [moves span member]
    rfl
  refine ⟨?_, ?_, ?_⟩
  · rw [TermGrid.appendRow, Exact.exact_bind, Exact.exact_pure, Bool.and_true, offset, Exact.exact_traverse,
      List.all_eq_true]
    exact fun span member => by rw [moves span member]; rfl
  · rw [TermGrid.appendRow, Exact.value_bind, Exact.value_pure, Exact.value_traverse, offset, spans]
    dsimp only
    rw [String.toList_append, styledChars, List.mapIdx_append, styledRow, styledChars, styledChars]
    congr 1
    · refine List.mapIdx_eq_mapIdx_iff.mpr fun i before => ?_
      have before : i < charCount cur.text := before
      rw [stylesAt_append, stylesAt_of_outside (row.spans.map _), List.append_nil]
      intro moved member
      obtain ⟨span, -, rfl⟩ := List.mem_map.mp member
      rw [StyleSpan.covers, shifted, decide_eq_false (by dsimp only; omega), Bool.false_and]
    · refine List.mapIdx_eq_mapIdx_iff.mpr fun i before => ?_
      have after : cur.text.toList.length = charCount cur.text := rfl
      rw [stylesAt_append, stylesAt_of_outside cur.spans, List.nil_append, after, stylesAt_shifted]
      intro span member
      have ends := (within span member).2
      rw [StyleSpan.covers, decide_eq_false (show ¬ i + cur.text.toList.length ≤ span.e by omega), Bool.and_false]
  · rw [TermGrid.appendRow, Exact.value_bind, Exact.value_pure, Exact.value_traverse, offset, spans]
    dsimp only
    have total : charCount (cur.text ++ row.text) = charCount cur.text + charCount row.text := by
      rw [charCount, String.toList_append, List.length_append]
      rfl
    rw [total]
    refine List.forall_mem_append.mpr ⟨fun span member => ?_, fun moved member => ?_⟩
    · obtain ⟨ordered, ends⟩ := within span member
      exact ⟨ordered, by omega⟩
    · obtain ⟨span, there, rfl⟩ := List.mem_map.mp member
      obtain ⟨ordered, ends⟩ := inside span there
      exact ⟨Nat.add_le_add_right ordered _, by dsimp only [shifted]; omega⟩

/-! ## Joining -/

/-- Rows that can be read: their spans lie in them. -/
def Readable (rows : List CompactLine) : Prop := ∀ row ∈ rows, Inside (charCount row.text) row.spans

/-- The characters of a line's rows. -/
def lineLength (rows : List CompactLine) : Nat := (rows.map fun row => charCount row.text).sum

theorem length_styledRow (row : CompactLine) : (styledRow row).length = charCount row.text :=
  length_styledChars _ _

/-- The rest of a line's rows, appended one by one. -/
def appendRows : LogicalLine → List CompactLine → Exact LogicalLine :=
  Exact.fold fun cur line => appendRow (trimLine cur) line

theorem Reads.appendRows {first : LogicalLine} {chars : List Styled} (reads : Reads first chars)
    {rest : List CompactLine} (readable : Readable rest) (short : chars.length + lineLength rest < 65536) :
    (TermGrid.appendRows first rest).exact = true ∧
      Reads (joinOpen first rest) ((rest.map styledRow).foldl (fun text row => text.rdropWhile blank ++ row) chars) := by
  induction rest generalizing first chars with
  | nil => exact ⟨rfl, reads⟩
  | cons row rest ih =>
      rw [lineLength, List.map_cons, List.sum_cons, ← lineLength] at short
      have fewer := (List.rdropWhile_prefix blank chars).length_le
      obtain ⟨precise, next⟩ := (reads.trimLine (by omega)).appendRow (readable row List.mem_cons_self) (by omega)
      have length : (chars.rdropWhile blank ++ styledRow row).length + lineLength rest < 65536 := by
        rw [List.length_append, length_styledRow]
        omega
      obtain ⟨later, whole⟩ := ih next (fun other member => readable other (List.mem_cons_of_mem _ member)) length
      refine ⟨?_, whole⟩
      rw [TermGrid.appendRows, Exact.fold, Exact.exact_bind, precise, Bool.true_and]
      exact later

/-- The steps of joining, by line. -/
def exactFrom : Option LogicalLine → List (List CompactLine) → Bool
  | none, lines => lines.all fun
      | [] => true
      | row :: rest => (appendRows ⟨row.text, row.spans⟩ rest).exact
  | some _, [] => true
  | some cur, line :: lines => (appendRows cur line).exact && exactFrom none lines

theorem exact_joinStep (lines : List CompactLine) (done : List LogicalLine) (current : Option LogicalLine) :
    (Exact.fold joinStep (done, current) lines).exact = exactFrom current (logicalLines (·.wrapped) lines) := by
  induction lines generalizing done current with
  | nil => cases current <;> rfl
  | cons row rest ih =>
      rw [Exact.fold, Exact.exact_bind, logicalLines]
      cases current with
      | none =>
          cases goes : row.wrapped with
          | true =>
              have step : joinStep (done, none) row = pure (done, some ⟨row.text, row.spans⟩) := by
                simp [joinStep, goes]
              rw [step, Exact.exact_pure, Exact.value_pure, ih, Bool.true_and]
              cases logicalLines (·.wrapped) rest <;> simp [exactFrom, appendRows, Exact.fold]
          | false =>
              have step : joinStep (done, none) row = pure (done ++ [⟨row.text, row.spans⟩], none) := by
                simp [joinStep, goes]
              rw [step, Exact.exact_pure, Exact.value_pure, ih, Bool.true_and]
              simp [exactFrom, appendRows, Exact.fold]
      | some cur =>
          have precise : (joinStep (done, some cur) row).exact = (appendRow (trimLine cur) row).exact := by
            simp [joinStep]
          cases goes : row.wrapped with
          | true =>
              have step : (joinStep (done, some cur) row).value =
                  (done, some (appendRow (trimLine cur) row).value) := by
                simp [joinStep, goes]
              rw [precise, step, ih]
              cases logicalLines (·.wrapped) rest with
              | nil => simp [exactFrom, appendRows, Exact.fold]
              | cons line lines => simp [exactFrom, appendRows, Exact.fold, Bool.and_assoc]
          | false =>
              have step : (joinStep (done, some cur) row).value =
                  (done ++ [(appendRow (trimLine cur) row).value], none) := by
                simp [joinStep, goes]
              rw [precise, step, ih]
              simp [exactFrom, appendRows, Exact.fold]

theorem length_joined_rows (rows : List CompactLine) :
    (joined blank (rows.map styledRow)).length ≤ lineLength rows := by
  have most : (joined blank (rows.map styledRow)).length ≤ ((rows.map styledRow).map List.length).sum :=
    length_joined_le _
  have lengths : (rows.map styledRow).map List.length = rows.map fun row => charCount row.text := by
    rw [List.map_map]
    exact List.map_congr_left fun row _ => length_styledRow row
  rwa [lengths] at most

theorem joinRows_reads {rows : List CompactLine} (readable : Readable rows) (short : lineLength rows < 65536) :
    Reads (joinRows rows) ((joined blank (rows.map styledRow)).rdropWhile blank) := by
  have most := length_joined_rows rows
  cases rows with
  | nil => exact ⟨rfl, fun span member => absurd member List.not_mem_nil⟩
  | cons row rest =>
      have first : Reads ⟨row.text, row.spans⟩ (styledRow row) := ⟨rfl, readable row List.mem_cons_self⟩
      have length : (styledRow row).length + lineLength rest < 65536 := by
        rw [lineLength, List.map_cons, List.sum_cons, ← lineLength] at short
        rwa [length_styledRow]
      obtain ⟨-, whole⟩ := first.appendRows (fun other member => readable other (List.mem_cons_of_mem _ member)) length
      exact whole.trimLine (lt_of_le_of_lt most short)

theorem joinWrappedLines_exact {lines : List CompactLine} (readable : Readable lines)
    (short : ∀ line ∈ logicalLines (·.wrapped) lines, lineLength line < 65536) :
    (joinWrappedLines lines).exact = true := by
  rw [joinWrappedLines, Exact.exact_bind, Exact.exact_pure, Bool.and_true, exact_joinStep, exactFrom,
    List.all_eq_true]
  intro line member
  have rows : Readable line := fun row inside => readable row (by
    rw [← flatten_logicalLines (·.wrapped) lines]
    exact List.mem_flatten_of_mem member inside)
  have length := short line member
  cases line with
  | nil => rfl
  | cons row rest =>
      rw [lineLength, List.map_cons, List.sum_cons, ← lineLength] at length
      have first : Reads ⟨row.text, row.spans⟩ (styledRow row) := ⟨rfl, rows row List.mem_cons_self⟩
      have count := length_styledRow row
      exact (first.appendRows (fun other inside => rows other (List.mem_cons_of_mem _ inside)) (by omega)).1

/-! ## Wrapping -/

/-- The part of a span in the characters from `start` up to `stop`. -/
def clipped (start stop : Nat) (span : StyleSpan) : Option StyleSpan :=
  if span.e < start ∨ span.s ≥ stop then none
  else some { span with s := span.s - start, e := min span.e (stop - 1) - start }

theorem chunkSpan_eq {start stop : Nat} (proper : start < stop) (small : stop < 65536) (span : StyleSpan) :
    chunkSpan start stop span = pure (clipped start stop span) := by
  unfold chunkSpan clipped
  split
  · rfl
  · rename_i overlap
    have ends : chunkSpanEnd start stop span.e = pure (min span.e (stop - 1) - start) := by
      unfold chunkSpanEnd
      split
      · rw [Exact.subU16_eq (by omega) (by omega)]
        congr 1
        omega
      · rw [Exact.subU16_eq small proper.le]
        refine (Exact.subU16_eq (a := stop - start) (b := 1) (by omega) (by omega)).trans ?_
        congr 1
        omega
    rw [ends]
    rfl

theorem stylesAt_clipped (spans : List StyleSpan) {start stop i : Nat} (inside : start + i < stop) :
    stylesAt (spans.filterMap (clipped start stop)) i = stylesAt spans (start + i) := by
  refine stylesAt_moved (fun span _ => ?_) fun span _ moved found => ?_
  · rw [Bool.eq_iff_iff]
    unfold clipped StyleSpan.covers
    split <;> simp <;> omega
  · unfold clipped at found
    split at found
    · cases found
    · obtain rfl := Option.some.inj found
      rfl

theorem inside_clipped {n start stop w : Nat} {spans : List StyleSpan} (inside : Inside n spans)
    (proper : start < stop) (narrow : stop ≤ start + w) : Inside w (spans.filterMap (clipped start stop)) := by
  intro moved member
  obtain ⟨span, there, found⟩ := List.mem_filterMap.mp member
  obtain ⟨ordered, -⟩ := inside span there
  unfold clipped at found
  split at found
  · cases found
  · obtain rfl := Option.some.inj found
    exact ⟨by dsimp only; omega, by dsimp only; omega⟩

theorem styledChars_trim (text : List Char) (spans : List StyleSpan) :
    styledChars (text.rdropWhile Text.isWhitespace) spans = (styledChars text spans).rdropWhile blank := by
  have begins := List.rdropWhile_prefix Text.isWhitespace text
  rw [rdropWhile_blank, styledChars_part text spans 0, List.drop_zero]
  · intro i before
    rw [Nat.zero_add, List.prefix_iff_getElem?.mp begins i before, List.getElem?_eq_getElem before]
  · intro i _
    rw [Nat.zero_add]

theorem styledChars_chunk (text : List Char) (spans : List StyleSpan) (start : Nat) {stop : Nat} (le : stop ≤ text.length) :
    styledChars (((text.drop start).take (stop - start)).rdropWhile Text.isWhitespace)
        (spans.filterMap (clipped start stop)) =
      (((styledChars text spans).drop start).take (stop - start)).rdropWhile blank := by
  have length : ((text.drop start).take (stop - start)).length = stop - start := by
    rw [List.length_take, List.length_drop]
    omega
  rw [styledChars_trim, styledChars_part text spans start, length]
  · intro i before
    rw [length] at before
    rw [List.getElem?_take_of_lt before, List.getElem?_drop]
  · intro i before
    rw [length] at before
    exact stylesAt_clipped spans (by omega)

theorem value_chunkSpans {start stop : Nat} (proper : start < stop) (small : stop < 65536)
    (spans : List StyleSpan) :
    (Exact.traverse (chunkSpan (Exact.asU16 start) (Exact.asU16 stop)) spans).exact = true ∧
      (Exact.traverse (chunkSpan (Exact.asU16 start) (Exact.asU16 stop)) spans).value.reduceOption =
        spans.filterMap (clipped start stop) := by
  have moves : chunkSpan start stop = fun span => pure (clipped start stop span) :=
    funext (chunkSpan_eq proper small)
  rw [Exact.asU16_eq small, Exact.asU16_eq (proper.trans small), moves, Exact.exact_traverse, Exact.value_traverse]
  constructor
  · exact List.all_eq_true.mpr fun _ _ => rfl
  · exact List.filterMap_map ..

/-- The rows a line is wrapped in, and the pieces of its styled characters. -/
theorem Reads.wrapFrom {line : LogicalLine} {chars : List Styled} (reads : Reads line chars)
    (short : chars.length < 65536) {w : Nat} (wide : 0 < w) {fuel offset : Nat}
    (inside : offset < chars.length) (enough : chars.length ≤ offset + fuel) :
    (TermGrid.wrapFrom line w fuel offset).exact = true ∧
      (TermGrid.wrapFrom line w fuel offset).value.map styledRow =
        (pieces w (chars.drop offset)).map (·.rdropWhile blank) ∧
      ∀ row ∈ (TermGrid.wrapFrom line w fuel offset).value, Inside w row.spans := by
  have count : line.text.toList.length = chars.length := reads.length
  induction fuel generalizing offset with
  | zero => omega
  | succ fuel ih =>
      have proper : offset < min (offset + w) line.text.toList.length := by omega
      have le : min (offset + w) line.text.toList.length ≤ line.text.toList.length := by omega
      obtain ⟨precise, spans⟩ := value_chunkSpans proper (by omega) line.spans
      have chunk := styledChars_chunk line.text.toList line.spans offset le
      rw [reads.styled] at chunk
      have left : (chars.drop offset).length = chars.length - offset := List.length_drop
      have within := inside_clipped reads.inside proper (w := w) (by omega)
      simp only [TermGrid.wrapFrom, if_pos (count ▸ inside), Exact.exact_bind, Exact.exact_pure, precise,
        Bool.true_and, Bool.and_true, Exact.value_bind, Exact.value_pure, spans, List.map_cons, styledRow,
        trimEnd_toList, String.toList_ofList, chunk, List.forall_mem_cons]
      by_cases more : offset + w < chars.length
      · have stop : min (offset + w) line.text.toList.length = offset + w := by omega
        rw [stop] at within ⊢
        obtain ⟨later, rows, fits⟩ := ih more (by omega)
        have cut : pieces w (chars.drop offset) =
            (chars.drop offset).take w :: pieces w (chars.drop (offset + w)) := by
          rw [pieces_long wide (by omega), List.drop_drop]
        refine ⟨later, ?_, within, fits⟩
        rw [cut, List.map_cons, Nat.add_sub_cancel_left]
        exact congrArg _ rows
      · have stop : min (offset + w) line.text.toList.length = chars.length := by omega
        have done : TermGrid.wrapFrom line w fuel chars.length = pure [] := by
          cases fuel <;> simp [TermGrid.wrapFrom, ← count]
        rw [stop] at within ⊢
        rw [done, pieces_short (by omega), List.take_of_length_le (by omega)]
        exact ⟨rfl, rfl, within, fun row member => absurd member List.not_mem_nil⟩

theorem Reads.wrapLogicalLine {line : LogicalLine} {chars : List Styled} (reads : Reads line chars)
    (short : chars.length < 65536) (trimmed : chars.rdropWhile blank = chars) {w : Nat} (wide : 0 < w) :
    (TermGrid.wrapLogicalLine line w).exact = true ∧
      (TermGrid.wrapLogicalLine line w).value.map styledRow = (pieces w chars).map (·.rdropWhile blank) ∧
      ∀ row ∈ (TermGrid.wrapLogicalLine line w).value, Inside w row.spans := by
  have count := reads.length
  unfold TermGrid.wrapLogicalLine
  split
  · rename_i fits
    rw [pieces_short (by omega), List.map_singleton, trimmed]
    refine ⟨rfl, ?_, fun row member => ?_⟩
    · rw [Exact.value_pure, List.map_singleton]
      exact congrArg (fun c => [c]) reads.styled
    · obtain rfl := List.mem_singleton.mp member
      exact fun span member => ⟨(reads.inside span member).1, lt_of_lt_of_le (reads.inside span member).2 fits⟩
  · rename_i long
    exact reads.wrapFrom short wide (show 0 < chars.length by omega) (by omega)

/-! ## Reflow -/

section Reflow

variable {lines : List CompactLine} {w : Nat} (wide : 1 ≤ w) (readable : Readable lines)
  (short : ∀ line ∈ logicalLines (·.wrapped) lines, lineLength line < 65536)

theorem readable_line {line : List CompactLine} (readable : Readable lines)
    (member : line ∈ logicalLines (·.wrapped) lines) : Readable line := fun row inside => readable row (by
  rw [← flatten_logicalLines (·.wrapped) lines]
  exact List.mem_flatten_of_mem member inside)

include wide readable short

theorem wrapped_line {line : List CompactLine} (member : line ∈ logicalLines (·.wrapped) lines) :
    (wrapLogicalLine (joinRows line) w).exact = true ∧
      (wrapLogicalLine (joinRows line) w).value.map styledRow =
        (pieces w ((joined blank (line.map styledRow)).rdropWhile blank)).map (·.rdropWhile blank) ∧
      ∀ row ∈ (wrapLogicalLine (joinRows line) w).value, Inside w row.spans := by
  have reads := joinRows_reads (readable_line readable member) (short line member)
  have fewer := (List.rdropWhile_prefix blank (joined blank (line.map styledRow))).length_le
  have most := length_joined_rows line
  have length := short line member
  exact reads.wrapLogicalLine (by omega) (List.rdropWhile_idempotent _ _) wide

theorem reflowLines_exact : (reflowLines lines w).exact = true := by
  rw [reflowLines, Exact.exact_bind, joinWrappedLines_exact readable short, Exact.exact_bind, Exact.exact_pure,
    Bool.and_true, Bool.true_and, Exact.exact_traverse, joinWrappedLines_value, List.all_map, List.all_eq_true]
  exact fun line member => (wrapped_line wide readable short member).1

theorem inside_reflowLines : ∀ row ∈ (reflowLines lines w).value, Inside w row.spans := by
  intro row member
  rw [← flatten_logicalLines (·.wrapped) (reflowLines lines w).value, reflowLines_value wide] at member
  obtain ⟨rows, there, inside⟩ := List.mem_flatten.mp member
  obtain ⟨line, of, rfl⟩ := List.mem_map.mp there
  exact (wrapped_line wide readable short of).2.2 row inside

/-- Each logical line has its characters back, each with its styles, but for blanks. -/
theorem solid_reflowLines :
    (logicalLines (·.wrapped) (reflowLines lines w).value).map (fun line => solid blank (styledLine line)) =
      (logicalLines (·.wrapped) lines).map fun line => solid blank (styledLine line) := by
  rw [reflowLines_value wide, List.map_map]
  refine List.map_congr_left fun line member => ?_
  have rows := (wrapped_line wide readable short member).2.1
  rw [Function.comp_apply, styledLine, List.flatMap_def, rows, ← List.flatMap_def, solid_flatMap_rdropWhile,
    flatten_pieces, solid_rdropWhile, solid_joined, styledLine, List.flatMap_def]

end Reflow

/-- Reflow keeps styles on their characters: no position overflows, spans lie in the
    target width, and of the rows, whose last ones are shown, each logical line has
    its characters that are not blank under the styles they had. -/
theorem reflow_styles (grid : GridUpdate) {w rows : Nat} (wide : 1 ≤ w) (tall : 1 ≤ rows)
    (readable : ∀ row ∈ grid.lines, ∀ span ∈ row.spans, span.s ≤ span.e ∧ span.e < charCount row.text)
    (short : ∀ line ∈ logicalLines (·.wrapped) grid.lines, lineLength line < 65536) :
    (reflowGrid grid w rows).exact = true ∧
      (∀ row ∈ (reflowGrid grid w rows).value.lines, ∀ span ∈ row.spans, span.s ≤ span.e ∧ span.e < w) ∧
      ∃ all : List CompactLine,
        (reflowGrid grid w rows).value.lines.map plain = (all.drop (all.length - rows)).map plain ∧
        (logicalLines (·.wrapped) all).map (fun line => solid blank (styledLine line)) =
          (logicalLines (·.wrapped) grid.lines).map fun line => solid blank (styledLine line) := by
  have shown := reflowGrid_lines grid wide tall
  refine ⟨?_, fun row member => ?_, (reflowLines grid.lines w).value, shown,
    solid_reflowLines wide readable short⟩
  · rw [reflowGrid, if_neg (by omega), Exact.exact_bind, Exact.exact_pure, Bool.and_true]
    exact reflowLines_exact wide readable short
  · have there := List.mem_map_of_mem (f := plain) member
    rw [shown] at there
    obtain ⟨other, kept, same⟩ := List.mem_map.mp there
    have spans : (plain other).spans = (plain row).spans := congrArg CompactLine.spans same
    have inside := inside_reflowLines wide readable short other (List.mem_of_mem_drop kept)
    exact spans ▸ inside

/-! ### A target without columns -/

/-- One coloured row. -/
def coloured : GridUpdate :=
  { screen [] with lines := [{ row := 0, text := "ab", spans := [⟨0, 1, some 0xff0000, none, none⟩], wrapped := false }] }

theorem reflow_styles_coloured :
    (reflowGrid coloured 1 1).exact = true ∧
      (∀ row ∈ (reflowGrid coloured 1 1).value.lines, ∀ span ∈ row.spans, span.s ≤ span.e ∧ span.e < 1) ∧
      ∃ all : List CompactLine,
        (reflowGrid coloured 1 1).value.lines.map plain = (all.drop (all.length - 1)).map plain ∧
        (logicalLines (·.wrapped) all).map (fun line => solid blank (styledLine line)) =
          (logicalLines (·.wrapped) coloured.lines).map fun line => solid blank (styledLine line) :=
  reflow_styles coloured (by decide) (by decide) (by decide) (by decide)

/-- Without a column, or without a row, the screen is answered as it was. -/
theorem unreflowed_outside :
    ¬ (∀ row ∈ (reflowGrid coloured 0 5).value.lines, ∀ span ∈ row.spans, span.s ≤ span.e ∧ span.e < 0) ∧
      ¬ ∀ row ∈ (reflowGrid coloured 1 0).value.lines, ∀ span ∈ row.spans, span.s ≤ span.e ∧ span.e < 1 := by
  decide

end K2.TermGrid
