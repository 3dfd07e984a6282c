import K2.Term.Apc
import Mathlib.Algebra.Order.Ring.Nat

/-! # Which APC sequences are missed

A terminal starts a sequence over at every ESC. The extractor takes the byte
after an ESC with it, whatever it is, so that of several in a row every second
one is lost: an introducer behind an odd number of them is passed through, and
content that ends in an odd number of them hides its terminator. -/

namespace K2.Term

/-- How many ESC the bytes end in. -/
def escRun (bytes : List UInt8) : Nat := (bytes.reverse.takeWhile (· = ESC)).length

/-- No terminator yet. -/
def Unterminated (content : List UInt8) : Prop := BEL ∉ content ∧ ¬[ESC, ST_TERM] <:+: content

/-- BEL, or `ESC \`. -/
def Terminator (term : List UInt8) : Prop := term = [BEL] ∨ term = [ESC, ST_TERM]

def sequence (content term : List UInt8) : List UInt8 := [ESC, APC_INTRO] ++ content ++ term

/-- What a terminal has read when it is outside an APC. -/
inductive Outside : List UInt8 → Prop
  | start : Outside []
  | byte {pre : List UInt8} (b : UInt8) : Outside pre → (escRun pre ≠ 0 → b ≠ APC_INTRO) → Outside (pre ++ [b])
  | closed {pre content term : List UInt8} :
      Outside pre → Unterminated content → Terminator term → Outside (pre ++ sequence content term)

/-- A complete sequence in a stream. -/
structure Occurs (stream pre content term post : List UInt8) : Prop where
  stream : stream = pre ++ sequence content term ++ post
  outside : Outside pre
  content : Unterminated content
  term : Terminator term

/-- The ESC an extractor holds back before it knows what follows. -/
def ApcExtractor.held (ext : ApcExtractor) : List Seen := if ext.state = .afterEsc then [.byte ESC] else []

/-- Of all the bytes of a sequence none is passed through, and what they come to
    is the one event or the one drop that the content is read as. -/
def Removed (formats : Formats) (pre content term : List UInt8) : Prop :=
  ∃ ext before ext' out report, ApcExtractor.new.feed formats pre = some (ext, before) ∧
    ext.feed formats (sequence content term) = some (ext', out) ∧
    Framed.outcome formats (.content content) = some report ∧ observe [out] = (ext.held ++ report.1, report.2)

def NoneMissed (formats : Formats) (stream : List UInt8) : Prop :=
  ∀ pre content term post, Occurs stream pre content term post → Removed formats pre content term

/-! ## Runs of ESC -/

theorem escRun_esc (bytes : List UInt8) : escRun (bytes ++ [ESC]) = escRun bytes + 1 := by
  unfold escRun
  rw [List.reverse_append, List.reverse_singleton, List.singleton_append, List.takeWhile_cons_of_pos (by decide),
    List.length_cons]

theorem escRun_other (bytes : List UInt8) {b : UInt8} (plain : b ≠ ESC) : escRun (bytes ++ [b]) = 0 := by
  unfold escRun
  rw [List.reverse_append, List.reverse_singleton, List.singleton_append,
    List.takeWhile_cons_of_neg (by simpa using plain), List.length_nil]

theorem escRun_sequence {pre content term : List UInt8} (closing : Terminator term) :
    escRun (pre ++ sequence content term) = 0 := by
  rcases closing with rfl | rfl
  · have whole : pre ++ sequence content [BEL] = (pre ++ [ESC, APC_INTRO] ++ content) ++ [BEL] := by
      simp [sequence]
    rw [whole, escRun_other _ (by decide)]
  · have whole : pre ++ sequence content [ESC, ST_TERM] = (pre ++ [ESC, APC_INTRO] ++ content ++ [ESC]) ++ [ST_TERM] := by
      simp [sequence]
    rw [whole, escRun_other _ (by decide)]

theorem Unterminated.front {content : List UInt8} {b : UInt8} (h : Unterminated (content ++ [b])) :
    Unterminated content :=
  ⟨fun mem => h.1 (List.mem_append_left _ mem), fun inside => h.2 (inside.trans (List.prefix_append ..).isInfix)⟩

theorem dropLast_of_escRun {content : List UInt8} (odd : escRun content % 2 = 1) :
    ∃ front, content = front ++ [ESC] := by
  induction content using List.reverseRecOn with
  | nil => exact absurd odd (by decide)
  | append_singleton front b _ =>
      by_cases esc : b = ESC
      · exact ⟨front, by rw [esc]⟩
      · rw [escRun_other _ esc] at odd
        exact absurd odd (by decide)

/-! ## Inside a sequence -/

theorem run_concat (ext : ApcExtractor) (bytes : List UInt8) (b : UInt8) :
    frames.run ext (bytes ++ [b])
      = ((frameByte (frames.run ext bytes).1 b).1, (frames.run ext bytes).2 ++ (frameByte (frames.run ext bytes).1 b).2) := by
  rw [Mealy.run_append, Mealy.run_cons, Mealy.run_nil, List.append_nil]
  rfl

/-- After content without a terminator the machine waits for one, or for the
    second byte of a pair. -/
theorem run_content {content : List UInt8} (opened : Unterminated content) :
    frames.run { state := .inApc, buf := [] } content
      = (if escRun content % 2 = 0 then { state := .inApc, buf := content }
        else { state := .inApcAfterEsc, buf := content.dropLast }, []) := by
  induction content using List.reverseRecOn with
  | nil => rfl
  | append_singleton front b ih =>
      have bel : b ≠ BEL := fun same => opened.1 (by rw [same]; simp)
      rw [run_concat, ih opened.front]
      by_cases even : escRun front % 2 = 0
      · simp only [if_pos even]
        by_cases esc : b = ESC
        · subst esc
          rw [escRun_esc, if_neg (by omega), List.dropLast_concat]
          simp only [frameByte, if_neg bel, if_true, List.append_nil]
        · rw [escRun_other _ esc, if_pos rfl]
          simp only [frameByte, if_neg bel, if_neg esc, List.append_nil]
      · obtain ⟨rest, rfl⟩ := dropLast_of_escRun (show escRun front % 2 = 1 by omega)
        have st : b ≠ ST_TERM := by
          rintro rfl
          exact opened.2 ⟨rest, [], by simp⟩
        simp only [if_neg even, List.dropLast_concat, frameByte, if_neg st, List.append_nil]
        have pair : escRun (rest ++ [ESC] ++ [b]) % 2 = 0 := by
          by_cases esc : b = ESC
          · subst esc
            rw [escRun_esc]
            omega
          · rw [escRun_other _ esc]
        rw [if_pos pair, List.append_assoc]
        rfl

theorem run_intro {ext : ApcExtractor} (idle : ext.state = .normal) (bytes : List UInt8) :
    frames.run ext ([ESC, APC_INTRO] ++ bytes) = frames.run { state := .inApc, buf := [] } bytes := by
  obtain ⟨state, buf⟩ := ext
  obtain rfl : state = .normal := idle
  rfl

/-- From rest, a sequence whose content ends in no half pair is all taken. -/
theorem run_even {ext : ApcExtractor} {content term : List UInt8} (idle : ext.state = .normal)
    (opened : Unterminated content) (closing : Terminator term) (even : escRun content % 2 = 0) :
    frames.run ext (sequence content term) = (ApcExtractor.new, [.content content]) := by
  rw [sequence, List.append_assoc, run_intro idle, Mealy.run_append, run_content opened, if_pos even]
  rcases closing with rfl | rfl <;> rfl

theorem run_odd {ext : ApcExtractor} {content term : List UInt8} (idle : ext.state = .normal)
    (opened : Unterminated content) (closing : Terminator term) (odd : escRun content % 2 ≠ 0) :
    (frames.run ext (sequence content term)).2 = [] := by
  rw [sequence, List.append_assoc, run_intro idle, Mealy.run_append, run_content opened, if_neg odd]
  rcases closing with rfl | rfl <;> rfl

theorem run_afterEsc {ext : ApcExtractor} {content term : List UInt8} (waiting : ext.state = .afterEsc) :
    ∃ later, (frames.run ext (sequence content term)).2 = .byte ESC :: .byte ESC :: later := by
  obtain ⟨state, buf⟩ := ext
  obtain rfl : state = .afterEsc := waiting
  exact ⟨_, rfl⟩

/-! ## Between sequences -/

variable {formats : Formats}

/-- The extractor waits where an odd number of ESC precedes, and is at rest
    otherwise; nothing it has read panicked. -/
structure InStep (formats : Formats) (pre : List UInt8) : Prop where
  state : (frames.run ApcExtractor.new pre).1.state = if escRun pre % 2 = 0 then .normal else .afterEsc
  shown : outcomes formats (frames.run ApcExtractor.new pre).2 ≠ none

theorem InStep.byte {pre : List UInt8} {b : UInt8} (step : InStep formats pre)
    (plain : escRun pre ≠ 0 → b ≠ APC_INTRO) : InStep formats (pre ++ [b]) := by
  have passing (bs : List UInt8) : outcomes formats ((frames.run ApcExtractor.new pre).2 ++ bs.map .byte) ≠ none := by
    obtain ⟨shown, all⟩ := Option.ne_none_iff_exists'.mp step.shown
    rw [outcomes_append, all, outcomes_bytes]
    exact Option.some_ne_none _
  obtain ⟨state, -⟩ := step
  by_cases even : escRun pre % 2 = 0
  · rw [if_pos even] at state
    by_cases esc : b = ESC
    · subst esc
      constructor
      · rw [run_concat, escRun_esc, if_neg (by omega), frameByte, state]
        rfl
      · rw [run_concat, frameByte, state]
        exact passing []
    · constructor
      · rw [run_concat, escRun_other _ esc, frameByte, state]
        simp only [if_neg esc, Nat.zero_mod, if_true, state]
      · rw [run_concat, frameByte, state]
        simp only [if_neg esc]
        exact passing [b]
  · rw [if_neg even] at state
    have differs : b ≠ APC_INTRO := plain (by omega)
    constructor
    · rw [run_concat, frameByte, state]
      simp only [if_neg differs]
      by_cases esc : b = ESC
      · subst esc
        rw [escRun_esc, if_pos (by omega)]
      · rw [escRun_other _ esc, if_pos (by decide)]
    · rw [run_concat, frameByte, state]
      simp only [if_neg differs]
      exact passing [ESC, b]

/-- Whatever brings the extractor over each sequence keeps it in step. -/
theorem Outside.inStep {pre : List UInt8} (outside : Outside pre)
    (through : ∀ front content term post, Occurs pre front content term post → InStep formats front →
      InStep formats (front ++ sequence content term)) : InStep formats pre := by
  induction outside with
  | start => exact ⟨rfl, by simp [ApcExtractor.new, outcomes]⟩
  | @byte pre b _ plain ih =>
      refine (ih fun front content term post occurs => through front content term (post ++ [b]) ?_).byte plain
      exact ⟨by rw [occurs.stream, List.append_assoc], occurs.outside, occurs.content, occurs.term⟩
  | @closed pre content term outside opened closing ih =>
      refine through pre content term [] ⟨(List.append_nil _).symm, outside, opened, closing⟩ (ih ?_)
      intro front content' term' post occurs
      refine through front content' term' (post ++ sequence content term) ?_
      exact ⟨by rw [occurs.stream, List.append_assoc], occurs.outside, occurs.content, occurs.term⟩

section removed

variable {pre content term : List UInt8} (opened : Unterminated content) (closing : Terminator term)
include opened closing

/-- In step, a sequence is removed when no half pair stands before it or ends its
    content and its content can be read. -/
theorem InStep.removed_iff (step : InStep formats pre) :
    Removed formats pre content term ↔
      escRun pre % 2 = 0 ∧ escRun content % 2 = 0 ∧ ¬WideSpace content := by
  obtain ⟨state, shown⟩ := step
  rcases ApcExtractor.feed_spec formats ApcExtractor.new pre with ⟨-, panicked⟩ | ⟨before, fed, -⟩
  · exact absurd panicked shown
  constructor
  · rintro ⟨ext, _, ext', out, report, fed', read, outcome, seen⟩
    rw [fed] at fed'
    cases fed'
    rcases ApcExtractor.feed_spec formats (frames.run ApcExtractor.new pre).1 (sequence content term) with
      ⟨none, -⟩ | ⟨out', read', shown'⟩
    · rw [none] at read
      cases read
    rw [read'] at read
    cases read
    by_cases even : escRun pre % 2 = 0
    · rw [if_pos even] at state
      have held : (frames.run ApcExtractor.new pre).1.held = [] := by
        rw [ApcExtractor.held, state]
        rfl
      have single : Framed.outcome formats (.content content) ≠ some ([], []) := by
        intro same
        obtain ⟨result, -, empty⟩ := Option.map_eq_some_iff.mp same
        cases result with
        | ok event => cases empty
        | error drop => cases empty
      by_cases odd : escRun content % 2 = 0
      · refine ⟨even, odd, fun wide => ?_⟩
        rw [Framed.outcome, parseApcContent_eq_none.mpr wide] at outcome
        cases outcome
      · rw [run_odd state opened closing odd] at shown'
        rw [seen, held, List.nil_append] at shown'
        exact absurd (outcome.trans shown'.symm) single
    · rw [if_neg even] at state
      obtain ⟨later, ran⟩ : ∃ later, (frames.run _ (sequence content term)).2 = .byte ESC :: .byte ESC :: later :=
        run_afterEsc state
      have two : ∃ rest, (observe [out]).1 = .byte ESC :: .byte ESC :: rest := by
        rw [ran, show Framed.byte ESC :: .byte ESC :: later = [ESC, ESC].map .byte ++ later from rfl, outcomes_append,
          outcomes_bytes] at shown'
        obtain ⟨rest, _, same⟩ := Option.map_eq_some_iff.mp shown'
        exact ⟨rest.1, by rw [← same]; rfl⟩
      obtain ⟨rest, two⟩ := two
      rw [seen, ApcExtractor.held, state] at two
      -- the second ESC would have to be the event
      unfold Framed.outcome at outcome
      obtain ⟨result, -, same⟩ := Option.map_eq_some_iff.mp outcome
      cases result with
      | ok event =>
          subst same
          cases two
      | error drop =>
          subst same
          cases two
  · rintro ⟨even, even', narrow⟩
    rw [if_pos even] at state
    have readable : Framed.outcome formats (.content content) ≠ none := by
      rw [Framed.outcome, Ne, Option.map_eq_none_iff, parseApcContent_eq_none]
      exact narrow
    obtain ⟨report, outcome⟩ := Option.ne_none_iff_exists'.mp readable
    have alone : outcomes formats [.content content] = some report := by
      simp only [outcomes, outcome, Option.bind_eq_bind, Option.bind_some, List.append_nil]
    rcases ApcExtractor.feed_spec formats (frames.run ApcExtractor.new pre).1 (sequence content term) with
      ⟨-, panicked⟩ | ⟨out, read, shown'⟩
    · rw [run_even state opened closing even', alone] at panicked
      cases panicked
    rw [run_even state opened closing even', alone] at shown'
    refine ⟨_, before, _, out, report, fed, read, outcome, ?_⟩
    rw [← Option.some.inj shown', ApcExtractor.held, state]
    rfl

theorem InStep.after (step : InStep formats pre) (removed : Removed formats pre content term) :
    InStep formats (pre ++ sequence content term) := by
  obtain ⟨even, even', narrow⟩ := (step.removed_iff opened closing).mp removed
  obtain ⟨state, shown⟩ := step
  rw [if_pos even] at state
  constructor
  · rw [Mealy.run_append, run_even state opened closing even', escRun_sequence closing]
    rfl
  · rw [Mealy.run_append, run_even state opened closing even']
    intro panicked
    obtain ⟨raw, mem, wide⟩ := outcomes_eq_none.mp panicked
    rw [List.filterMap_append, List.mem_append] at mem
    rcases mem with early | here
    · exact shown (outcomes_eq_none.mpr ⟨raw, early, wide⟩)
    · obtain rfl : raw = content := List.mem_singleton.mp here
      exact narrow wide

end removed

/-! ## Missed -/

theorem Occurs.earlier {stream pre content term post front content' term' post' : List UInt8}
    (occurs : Occurs stream pre content term post) (inside : Occurs pre front content' term' post') :
    Occurs stream front content' term' (post' ++ sequence content term ++ post) := by
  refine ⟨?_, inside.outside, inside.content, inside.term⟩
  rw [occurs.stream, inside.stream]
  simp only [List.append_assoc]

theorem NoneMissed.even {stream pre content term post : List UInt8} (all : NoneMissed formats stream)
    (occurs : Occurs stream pre content term post) :
    escRun pre % 2 = 0 ∧ escRun content % 2 = 0 ∧ ¬WideSpace content := by
  have step : InStep formats pre := occurs.outside.inStep fun front content' term' post' inside step =>
    step.after inside.content inside.term (all front content' term' _ (occurs.earlier inside))
  exact (step.removed_iff occurs.content occurs.term).mp (all pre content term post occurs)

/-- No sequence of a stream is missed when, and only when, each introducer stands
    behind an even number of ESC, each content ends in an even number of them and
    none is of the kind that cannot be read. -/
theorem noneMissed_iff (formats : Formats) (stream : List UInt8) :
    NoneMissed formats stream ↔ ∀ pre content term post, Occurs stream pre content term post →
      escRun pre % 2 = 0 ∧ escRun content % 2 = 0 ∧ ¬WideSpace content := by
  refine ⟨fun all pre content term post occurs => all.even occurs, fun all pre content term post occurs => ?_⟩
  have step : InStep formats pre := occurs.outside.inStep fun front content' term' post' inside step =>
    step.after inside.content inside.term
      ((step.removed_iff inside.content inside.term).mpr (all front content' term' _ (occurs.earlier inside)))
  exact (step.removed_iff occurs.content occurs.term).mpr (all pre content term post occurs)

/-- `k2so:msg` -/
def bareMsg : List UInt8 := [0x6B, 0x32, 0x73, 0x6F, 0x3A, 0x6D, 0x73, 0x67]

/-- A message behind one ESC more. -/
theorem doubledEsc_missed : ¬NoneMissed ⟨fun _ => .error "", id⟩ ([ESC, ESC, APC_INTRO] ++ bareMsg ++ [BEL]) := by
  intro none
  have occurs : Occurs ([ESC, ESC, APC_INTRO] ++ bareMsg ++ [BEL]) [ESC] bareMsg [BEL] [] :=
    ⟨by decide, @Outside.byte [] ESC .start (by decide), ⟨by decide, by decide⟩, .inl rfl⟩
  exact absurd (none.even occurs).1 (by decide)

end K2.Term
