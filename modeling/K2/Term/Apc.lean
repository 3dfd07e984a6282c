import K2.Lib.Machines
import K2.Term.ApcContent
import Mathlib.Data.List.Infix

/-! # Taking APC sequences out of a terminal's output

The extractor reads a byte at a time and keeps its state between calls, so a
sequence may span any number of reads. `frames` is the same machine without the
batching of one call and without the reading of what a sequence says. -/

namespace K2.Term

def ESC : UInt8 := 0x1B
def BEL : UInt8 := 0x07
def APC_INTRO : UInt8 := 0x5F
def ST_TERM : UInt8 := 0x5C

inductive ApcState where
  /-- Passing bytes through. -/
  | normal
  /-- Just saw ESC. -/
  | afterEsc
  /-- Between `ESC _` and its terminator. -/
  | inApc
  /-- Inside an APC and just saw ESC. -/
  | inApcAfterEsc
  deriving Repr, DecidableEq

structure ApcExtractor where
  state : ApcState
  buf : List UInt8
  deriving Repr, DecidableEq

inductive ApcChunk where
  | bytes (bs : List UInt8)
  | event (e : ApcEvent)
  deriving Repr

structure ApcOutput where
  chunks : List ApcChunk
  drops : List ApcDrop
  deriving Repr

namespace ApcExtractor

def new : ApcExtractor := { state := .normal, buf := [] }

end ApcExtractor

/-- One call of `feed` under way. -/
structure Feeding where
  ext : ApcExtractor
  chunks : List ApcChunk
  drops : List ApcDrop
  pending : List UInt8

namespace Feeding

/-- A terminator: what was accumulated becomes an event or a drop. -/
def close (formats : Formats) (w : Feeding) : Option Feeding :=
  (parseApcContent formats w.ext.buf).map fun
    | .ok event => { w with chunks := w.chunks ++ [.event event], ext := { state := .normal, buf := [] } }
    | .error drop => { w with drops := w.drops ++ [drop], ext := { state := .normal, buf := [] } }

def byte (formats : Formats) (w : Feeding) (byte : UInt8) : Option Feeding :=
  match w.ext.state with
  | .normal =>
      if byte = ESC then some { w with ext := { w.ext with state := .afterEsc } }
      else some { w with pending := w.pending ++ [byte] }
  | .afterEsc =>
      if byte = APC_INTRO then
        -- flush what is pending so that the event lands in its place
        let w := if !w.pending.isEmpty then { w with chunks := w.chunks ++ [.bytes w.pending], pending := [] } else w
        some { w with ext := { state := .inApc, buf := [] } }
      else
        some { w with pending := w.pending ++ [ESC, byte], ext := { w.ext with state := .normal } }
  | .inApc =>
      if byte = BEL then w.close formats
      else if byte = ESC then some { w with ext := { w.ext with state := .inApcAfterEsc } }
      else some { w with ext := { w.ext with buf := w.ext.buf ++ [byte] } }
  | .inApcAfterEsc =>
      if byte = ST_TERM then w.close formats
      else some { w with ext := { state := .inApc, buf := w.ext.buf ++ [ESC, byte] } }

def bytes (formats : Formats) (w : Feeding) : List UInt8 → Option Feeding
  | [] => some w
  | b :: rest => (w.byte formats b).bind (·.bytes formats rest)

end Feeding

/-- `none` is a panic. -/
def ApcExtractor.feed (formats : Formats) (ext : ApcExtractor) (bytes : List UInt8) :
    Option (ApcExtractor × ApcOutput) :=
  (Feeding.bytes formats { ext, chunks := [], drops := [], pending := [] } bytes).map fun w =>
    let chunks := if !w.pending.isEmpty then w.chunks ++ [.bytes w.pending] else w.chunks
    (w.ext, { chunks, drops := w.drops })

/-- A stream handed over in several calls. -/
def ApcExtractor.feedAll (formats : Formats) (ext : ApcExtractor) :
    List (List UInt8) → Option (ApcExtractor × List ApcOutput)
  | [] => some (ext, [])
  | part :: parts => do
      let (ext, out) ← ext.feed formats part
      let (ext, outs) ← feedAll formats ext parts
      some (ext, out :: outs)

/-! ## What can be told of an output -/

/-- A byte that passed through, or an event at its place among them. -/
inductive Seen where
  | byte (b : UInt8)
  | event (e : ApcEvent)
  deriving Repr

def ApcChunk.seen : ApcChunk → List Seen
  | .bytes bs => bs.map .byte
  | .event e => [.event e]

/-- The events in order, with the bytes between any two of them run together,
    and the drops in order. -/
def observe (outs : List ApcOutput) : List Seen × List ApcDrop :=
  (outs.flatMap fun out => out.chunks.flatMap ApcChunk.seen, outs.flatMap ApcOutput.drops)

/-! ## The framing alone -/

/-- A byte that passes through, or the content of a sequence just closed. -/
inductive Framed where
  | byte (b : UInt8)
  | content (raw : List UInt8)
  deriving Repr, DecidableEq

def frameByte (ext : ApcExtractor) (byte : UInt8) : ApcExtractor × List Framed :=
  match ext.state with
  | .normal =>
      if byte = ESC then ({ ext with state := .afterEsc }, []) else (ext, [.byte byte])
  | .afterEsc =>
      if byte = APC_INTRO then ({ state := .inApc, buf := [] }, [])
      else ({ ext with state := .normal }, [.byte ESC, .byte byte])
  | .inApc =>
      if byte = BEL then ({ state := .normal, buf := [] }, [.content ext.buf])
      else if byte = ESC then ({ ext with state := .inApcAfterEsc }, [])
      else ({ ext with buf := ext.buf ++ [byte] }, [])
  | .inApcAfterEsc =>
      if byte = ST_TERM then ({ state := .normal, buf := [] }, [.content ext.buf])
      else ({ state := .inApc, buf := ext.buf ++ [ESC, byte] }, [])

def frames : Mealy ApcExtractor UInt8 Framed := { step := frameByte }

def Framed.raw : Framed → Option (List UInt8)
  | .byte _ => none
  | .content raw => some raw

/-- The contents of the sequences a stream completes. -/
def contents (stream : List UInt8) : List (List UInt8) :=
  (frames.run ApcExtractor.new stream).2.filterMap Framed.raw

/-- What a framed piece comes to. -/
def Framed.outcome (formats : Formats) : Framed → Option (List Seen × List ApcDrop)
  | .byte b => some ([.byte b], [])
  | .content raw =>
      (parseApcContent formats raw).map fun
        | .ok event => ([.event event], [])
        | .error drop => ([], [drop])

def outcomes (formats : Formats) : List Framed → Option (List Seen × List ApcDrop)
  | [] => some ([], [])
  | f :: rest => do
      let (seen, drops) ← f.outcome formats
      let (later, laterDrops) ← outcomes formats rest
      some (seen ++ later, drops ++ laterDrops)

variable {formats : Formats}

theorem outcomes_bytes (bs : List UInt8) : outcomes formats (bs.map .byte) = some (bs.map .byte, []) := by
  induction bs with
  | nil => rfl
  | cons b rest ih =>
    rw [List.map_cons, outcomes, ih]
    rfl

theorem outcomes_append (a b : List Framed) :
    outcomes formats (a ++ b) = (outcomes formats a).bind fun x =>
      (outcomes formats b).map fun y => (x.1 ++ y.1, x.2 ++ y.2) := by
  induction a with
  | nil => simp [outcomes]
  | cons f rest ih =>
    simp only [List.cons_append, outcomes, ih, Option.bind_eq_bind]
    cases f.outcome formats with
    | none => rfl
    | some first =>
      cases outcomes formats rest with
      | none => rfl
      | some more =>
        cases outcomes formats b with
        | none => rfl
        | some last => simp

theorem outcomes_eq_none {framed : List Framed} :
    outcomes formats framed = none ↔ ∃ raw ∈ framed.filterMap Framed.raw, WideSpace raw := by
  induction framed with
  | nil => simp [outcomes]
  | cons f rest ih =>
    have either : outcomes formats (f :: rest) = none ↔ f.outcome formats = none ∨ outcomes formats rest = none := by
      rw [outcomes, Option.bind_eq_bind]
      cases f.outcome formats with
      | none => simp
      | some first => simp [Option.bind_eq_none_iff, ← Option.eq_none_iff_forall_ne_some]
    rw [either, ih]
    cases f with
    | byte b => simp [Framed.outcome, Framed.raw]
    | content raw => simp [Framed.outcome, Framed.raw, parseApcContent_eq_none]

/-! ## A call follows the framing -/

namespace Feeding

/-- Everything emitted so far, in order. -/
def seen (w : Feeding) : List Seen := w.chunks.flatMap ApcChunk.seen ++ w.pending.map .byte

/-- Inside a sequence nothing is pending, so an event lands in its place. -/
def Flushed (w : Feeding) : Prop :=
  w.ext.state = .inApc ∨ w.ext.state = .inApcAfterEsc → w.pending = []

/-- `w'` is `w` after `framed`, in a state the framing gives. -/
structure After (formats : Formats) (w : Feeding) (ext : ApcExtractor) (framed : List Framed)
    (w' : Feeding) : Prop where
  ext_eq : w'.ext = ext
  shown : ∃ seen drops, outcomes formats framed = some (seen, drops) ∧
    w'.seen = w.seen ++ seen ∧ w'.drops = w.drops ++ drops
  flushed : w'.Flushed

theorem close_spec {w : Feeding} (empty : w.pending = []) :
    (w.close formats = none ∧ outcomes formats [.content w.ext.buf] = none) ∨
    ∃ w', w.close formats = some w' ∧
      After formats w { state := .normal, buf := [] } [.content w.ext.buf] w' := by
  cases parsed : parseApcContent formats w.ext.buf with
  | none =>
    left
    simp [close, outcomes, Framed.outcome, parsed]
  | some result =>
    right
    refine ⟨_, by rw [close, parsed, Option.map_some], ?_⟩
    cases result with
    | ok event =>
      refine ⟨rfl, ⟨[.event event], [], by simp [outcomes, Framed.outcome, parsed], ?_, ?_⟩, ?_⟩
      · simp [seen, empty, ApcChunk.seen]
      · simp
      · simp [Flushed]
    | error drop =>
      refine ⟨rfl, ⟨[], [drop], by simp [outcomes, Framed.outcome, parsed], ?_, ?_⟩, ?_⟩
      · simp [seen]
      · simp
      · simp [Flushed]

/-- A byte that only moves the machine, with what it passes through. -/
theorem After.plain {w w' : Feeding} {ext : ApcExtractor} {framed : List Framed} (passed : List UInt8)
    (moved : w'.ext = ext) (pieces : framed = passed.map .byte) (drops : w'.drops = w.drops)
    (seen : w'.seen = w.seen ++ passed.map .byte) (flushed : w'.Flushed) : After formats w ext framed w' := by
  subst pieces
  exact ⟨moved, ⟨passed.map .byte, [], outcomes_bytes passed, seen, by rw [drops, List.append_nil]⟩, flushed⟩

theorem byte_spec {w : Feeding} (flushed : w.Flushed) (b : UInt8) :
    (w.byte formats b = none ∧ outcomes formats (frameByte w.ext b).2 = none) ∨
    ∃ w', w.byte formats b = some w' ∧ After formats w (frameByte w.ext b).1 (frameByte w.ext b).2 w' := by
  obtain ⟨⟨state, buf⟩, chunks, drops, pending⟩ := w
  cases state with
  | normal =>
    right
    by_cases esc : b = ESC
    · refine ⟨_, if_pos esc, ?_⟩
      simp only [frameByte, if_pos esc]
      refine After.plain [] rfl rfl rfl ?_ ?_
      · simp [seen]
      · simp [Flushed]
    · refine ⟨_, if_neg esc, ?_⟩
      simp only [frameByte, if_neg esc]
      refine After.plain [b] rfl rfl rfl ?_ ?_
      · simp [seen]
      · simp [Flushed]
  | afterEsc =>
    right
    by_cases intro : b = APC_INTRO
    · refine ⟨_, if_pos intro, ?_⟩
      simp only [frameByte, if_pos intro]
      -- flushing moves bytes from what is pending to the chunks
      cases pending with
      | nil =>
        refine After.plain [] rfl rfl rfl ?_ ?_
        · simp [seen]
        · simp [Flushed]
      | cons first more =>
        refine After.plain [] rfl rfl rfl ?_ ?_
        · simp [seen, ApcChunk.seen]
        · simp [Flushed]
    · refine ⟨_, if_neg intro, ?_⟩
      simp only [frameByte, if_neg intro]
      refine After.plain [ESC, b] rfl rfl rfl ?_ ?_
      · simp [seen]
      · simp [Flushed]
  | inApc =>
    have empty : pending = [] := flushed (.inl rfl)
    by_cases bel : b = BEL
    · simp only [byte, frameByte, if_pos bel]
      exact close_spec empty
    · right
      by_cases esc : b = ESC
      · refine ⟨_, (if_neg bel).trans (if_pos esc), ?_⟩
        simp only [frameByte, if_neg bel, if_pos esc]
        refine After.plain [] rfl rfl rfl ?_ fun _ => empty
        simp [seen]
      · refine ⟨_, (if_neg bel).trans (if_neg esc), ?_⟩
        simp only [frameByte, if_neg bel, if_neg esc]
        refine After.plain [] rfl rfl rfl ?_ fun _ => empty
        simp [seen]
  | inApcAfterEsc =>
    have empty : pending = [] := flushed (.inr rfl)
    by_cases st : b = ST_TERM
    · simp only [byte, frameByte, if_pos st]
      exact close_spec empty
    · right
      refine ⟨_, if_neg st, ?_⟩
      simp only [frameByte, if_neg st]
      refine After.plain [] rfl rfl rfl ?_ fun _ => empty
      simp [seen]

theorem After.trans {w mid w' : Feeding} {ext ext' : ApcExtractor} {a b : List Framed}
    (first : After formats w ext a mid) (second : After formats mid ext' b w') :
    After formats w ext' (a ++ b) w' := by
  obtain ⟨seen, drops, shown, seenMid, dropsMid⟩ := first.shown
  obtain ⟨later, laterDrops, shownLater, seenLast, dropsLast⟩ := second.shown
  refine ⟨second.ext_eq, ⟨seen ++ later, drops ++ laterDrops, ?_, ?_, ?_⟩, second.flushed⟩
  · rw [outcomes_append, shown, shownLater]
    rfl
  · rw [seenLast, seenMid, List.append_assoc]
  · rw [dropsLast, dropsMid, List.append_assoc]

/-- A whole call: it panics when a content it closes does, and otherwise shows
    what the framing's pieces come to. -/
theorem bytes_spec {w : Feeding} (flushed : w.Flushed) (bs : List UInt8) :
    (w.bytes formats bs = none ∧ outcomes formats (frames.run w.ext bs).2 = none) ∨
    ∃ w', w.bytes formats bs = some w' ∧ After formats w (frames.run w.ext bs).1 (frames.run w.ext bs).2 w' := by
  induction bs generalizing w with
  | nil => exact .inr ⟨w, rfl, After.plain [] rfl rfl rfl (by simp) flushed⟩
  | cons b rest ih =>
    have split : (frames.run w.ext (b :: rest)).2 = (frameByte w.ext b).2 ++ (frames.run (frameByte w.ext b).1 rest).2 :=
      rfl
    rw [bytes, split]
    rcases byte_spec flushed b with ⟨panicked, none⟩ | ⟨mid, ran, first⟩
    · exact .inl ⟨by rw [panicked, Option.bind_none], by rw [outcomes_append, none, Option.bind_none]⟩
    · have later := ih first.flushed
      rw [first.ext_eq] at later
      rw [ran, Option.bind_some]
      rcases later with ⟨panicked, none⟩ | ⟨w', ranRest, second⟩
      · obtain ⟨seen, drops, shown, -⟩ := first.shown
        exact .inl ⟨panicked, by rw [outcomes_append, shown, none]; rfl⟩
      · exact .inr ⟨w', ranRest, first.trans second⟩

end Feeding

namespace ApcExtractor

theorem feed_spec (formats : Formats) (ext : ApcExtractor) (bs : List UInt8) :
    (ext.feed formats bs = none ∧ outcomes formats (frames.run ext bs).2 = none) ∨
    ∃ out, ext.feed formats bs = some ((frames.run ext bs).1, out) ∧
      outcomes formats (frames.run ext bs).2 = some (observe [out]) := by
  have started : Feeding.Flushed { ext, chunks := [], drops := [], pending := [] } := fun _ => rfl
  rcases Feeding.bytes_spec started bs with ⟨panicked, none⟩ | ⟨w, ran, after⟩
  · exact .inl ⟨by rw [feed, panicked, Option.map_none], none⟩
  · obtain ⟨seen, drops, shown, seenAll, dropsAll⟩ := after.shown
    refine .inr ⟨_, by rw [feed, ran, Option.map_some, after.ext_eq], ?_⟩
    rw [shown, Option.some.injEq]
    simp only [Feeding.seen, List.flatMap_nil, List.map_nil, List.nil_append] at seenAll dropsAll
    rw [← seenAll, ← dropsAll]
    -- what is pending at the end becomes the last chunk
    cases pending : w.pending <;> simp [observe, ApcChunk.seen]

theorem feedAll_spec (formats : Formats) (ext : ApcExtractor) (parts : List (List UInt8)) :
    (ext.feedAll formats parts = none ∧ outcomes formats (frames.runParts ext parts).2 = none) ∨
    ∃ outs, ext.feedAll formats parts = some ((frames.runParts ext parts).1, outs) ∧
      outcomes formats (frames.runParts ext parts).2 = some (observe outs) := by
  induction parts generalizing ext with
  | nil => exact .inr ⟨[], rfl, rfl⟩
  | cons part parts ih =>
    rw [feedAll, Mealy.runParts, outcomes_append]
    rcases ext.feed_spec formats part with ⟨panicked, none⟩ | ⟨out, fed, shown⟩
    · exact .inl ⟨by rw [panicked]; rfl, by rw [none, Option.bind_none]⟩
    · rw [fed, shown]
      rcases ih (frames.run ext part).1 with ⟨panicked, none⟩ | ⟨outs, fedRest, shownRest⟩
      · left
        simp [panicked, none]
      · right
        refine ⟨out :: outs, by simp [fedRest], ?_⟩
        simp [shownRest, observe]

end ApcExtractor

/-! ## A stream without an introducer -/

/-- `ESC _` occurs nowhere. -/
def NoIntro (stream : List UInt8) : Prop := ¬ [ESC, APC_INTRO] <:+: stream

theorem NoIntro.tail {b : UInt8} {rest : List UInt8} (none : NoIntro (b :: rest)) : NoIntro rest :=
  fun inside => none (inside.trans (List.suffix_cons b rest).isInfix)

/-- A run that passes its stream through, but for a last ESC it may hold. -/
def Passes (ext : ApcExtractor) (stream : List UInt8) : Prop :=
  ∃ passed, (frames.run ext stream).2 = passed.map .byte ∧ (passed = stream ∨ passed ++ [ESC] = stream)

/-- The same for a machine that holds an ESC already. -/
def PassesHeld (ext : ApcExtractor) (stream : List UInt8) : Prop :=
  ∃ passed, (frames.run ext stream).2 = passed.map .byte ∧
    (passed = ESC :: stream ∨ passed ++ [ESC] = ESC :: stream)

theorem Passes.cons {buf stream : List UInt8} {b : UInt8} (plain : b ≠ ESC)
    (passes : Passes { state := .normal, buf } stream) : Passes { state := .normal, buf } (b :: stream) := by
  obtain ⟨passed, ran, whole⟩ := passes
  have step : frames.step { state := .normal, buf } b = ({ state := .normal, buf }, [.byte b]) := if_neg plain
  refine ⟨b :: passed, by rw [Mealy.run_cons, step, ran]; rfl, ?_⟩
  rcases whole with all | held
  · exact .inl (by rw [all])
  · exact .inr (by rw [List.cons_append, held])

theorem PassesHeld.cons {buf stream : List UInt8} {b : UInt8} (plain : b ≠ APC_INTRO)
    (passes : Passes { state := .normal, buf } stream) : PassesHeld { state := .afterEsc, buf } (b :: stream) := by
  obtain ⟨passed, ran, whole⟩ := passes
  have step : frames.step { state := .afterEsc, buf } b = ({ state := .normal, buf }, [.byte ESC, .byte b]) :=
    if_neg plain
  refine ⟨ESC :: b :: passed, by rw [Mealy.run_cons, step, ran]; rfl, ?_⟩
  rcases whole with all | held
  · exact .inl (by rw [all])
  · exact .inr (by rw [List.cons_append, List.cons_append, held])

theorem run_noIntro (stream buf : List UInt8) :
    (NoIntro stream → Passes { state := .normal, buf } stream) ∧
    (NoIntro (ESC :: stream) → PassesHeld { state := .afterEsc, buf } stream) := by
  induction stream with
  | nil => exact ⟨fun _ => ⟨[], rfl, .inl rfl⟩, fun _ => ⟨[], rfl, .inr rfl⟩⟩
  | cons b rest ih =>
    constructor
    · intro none
      by_cases esc : b = ESC
      · subst esc
        exact ih.2 none
      · exact (ih.1 none.tail).cons esc
    · intro none
      have plain : b ≠ APC_INTRO := by
        rintro rfl
        exact none ⟨[], rest, rfl⟩
      exact PassesHeld.cons plain (ih.1 none.tail.tail)

/-! ## Read boundaries -/

/-- Fed whole, the stream gives an output; fed in any parts it gives the same
    events, drops and bytes between events; and without an introducer it is
    passed through, but for a last ESC that may be held. -/
structure Unsplit (formats : Formats) (stream : List UInt8) (ext : ApcExtractor) (out : ApcOutput) : Prop where
  fed : ApcExtractor.new.feed formats stream = some (ext, out)
  parts : ∀ parts : List (List UInt8), parts.flatten = stream →
    ∃ outs, ApcExtractor.new.feedAll formats parts = some (ext, outs) ∧ observe outs = observe [out]
  passes : NoIntro stream →
    ∃ passed : List UInt8, observe [out] = (passed.map .byte, []) ∧ (passed = stream ∨ passed ++ [ESC] = stream)

/-- Extraction is independent of read boundaries exactly when no sequence the
    stream completes has a wide space after its verb: on one that has, the call
    that closes it panics. -/
theorem unsplit_iff (formats : Formats) (stream : List UInt8) :
    (∃ ext out, Unsplit formats stream ext out) ↔ ∀ raw ∈ contents stream, ¬ WideSpace raw := by
  have panics : outcomes formats (frames.run ApcExtractor.new stream).2 = none ↔
      ∃ raw ∈ contents stream, WideSpace raw := outcomes_eq_none
  constructor
  · rintro ⟨ext, out, unsplit⟩ raw mem wide
    rcases ApcExtractor.new.feed_spec formats stream with ⟨panicked, -⟩ | ⟨out', -, shown⟩
    · rw [unsplit.fed] at panicked
      cases panicked
    · rw [panics.mpr ⟨raw, mem, wide⟩] at shown
      cases shown
  · intro narrow
    have reads : outcomes formats (frames.run ApcExtractor.new stream).2 ≠ none := fun none => by
      obtain ⟨raw, mem, wide⟩ := panics.mp none
      exact narrow raw mem wide
    rcases ApcExtractor.new.feed_spec formats stream with ⟨-, none⟩ | ⟨out, fed, shown⟩
    · exact absurd none reads
    refine ⟨_, out, fed, ?_, ?_⟩
    · rintro parts rfl
      rcases ApcExtractor.new.feedAll_spec formats parts with ⟨-, none⟩ | ⟨outs, fedAll, shownAll⟩
      · rw [Mealy.runParts_eq] at none
        exact absurd none reads
      · rw [Mealy.runParts_eq] at fedAll shownAll
        exact ⟨outs, fedAll, Option.some.inj (shownAll.symm.trans shown)⟩
    · intro none
      obtain ⟨passed, ran, whole⟩ := (run_noIntro stream []).1 none
      refine ⟨passed, ?_, whole⟩
      rw [ApcExtractor.new, ran, outcomes_bytes] at shown
      exact (Option.some.inj shown).symm

/-- `k2so:msg`, a no-break space, and `{}`. -/
def noBreakSpace : List UInt8 :=
  [0x6B, 0x32, 0x73, 0x6F, 0x3A, 0x6D, 0x73, 0x67, 0xC2, 0xA0, 0x7B, 0x7D]

theorem wideSpace_noBreakSpace : WideSpace noBreakSpace := by
  have text : utf8 (String.ofList ['k', '2', 's', 'o', ':', 'm', 's', 'g', '\u00a0', '{', '}']) = noBreakSpace := by
    rw [utf8_ofList]
    decide
  have plain : ∀ x ∈ ['m', 's', 'g'], Text.isWhitespace x = false := by
    simp only [List.forall_mem_cons]
    exact ⟨rfl, rfl, rfl, fun _ mem => nomatch mem⟩
  exact ⟨_, ['m', 's', 'g'], '\u00a0', ['{', '}'], fromUtf8_eq_some.mpr text, String.toList_ofList, plain,
    rfl, by decide⟩

theorem feed_noBreakSpace :
    ¬ ∃ ext out, Unsplit { fromStr := fun _ => .ok .null, debug := id }
      ([ESC, APC_INTRO] ++ noBreakSpace ++ [BEL]) ext out := by
  rintro ⟨ext, out, unsplit⟩
  rcases ApcExtractor.new.feed_spec _ ([ESC, APC_INTRO] ++ noBreakSpace ++ [BEL]) with ⟨panicked, -⟩ | ⟨_, -, shown⟩
  · rw [unsplit.fed] at panicked
    cases panicked
  · rw [outcomes_eq_none.mpr ⟨noBreakSpace, by decide, wideSpace_noBreakSpace⟩] at shown
    cases shown

end K2.Term
