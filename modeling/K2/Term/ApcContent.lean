import K2.Json
import K2.Text

/-! # What an APC sequence says

The content between `ESC _` and its terminator is a verb of the `k2so:`
namespace with a JSON payload, or it is dropped with a reason. -/

namespace K2.Term

open K2 (Value)

inductive AgentAddress where
  | agent (workspace name : String)
  | broadcast
  deriving Repr, DecidableEq

inductive Priority where
  | low
  | normal
  | high
  | urgent
  deriving Repr, DecidableEq

inductive ReservationAction where
  | claim
  | release
  deriving Repr, DecidableEq

inductive PresenceState where
  | active
  | idle
  | away
  | stuck
  deriving Repr, DecidableEq

inductive TaskPhase where
  | started
  | done
  | blocked
  deriving Repr, DecidableEq

inductive Delivery where
  | live
  | inbox
  deriving Repr, DecidableEq

inductive SignalKind where
  | msg (text : String)
  | status (text : String)
  | reservation (paths : List String) (action : ReservationAction)
  | presence (state : PresenceState)
  | taskLifecycle (phase : TaskPhase) (taskRef : Option String)
  deriving Repr, DecidableEq

/-- A signal before it is stamped: the random id and the clock reading are
    fresh for every signal, and nothing here reads them. -/
structure AgentSignal where
  session : Option String
  frm : AgentAddress
  «to» : AgentAddress
  kind : SignalKind
  priority : Priority
  delivery : Delivery
  replyTo : Option String
  deriving Repr, DecidableEq

inductive SemanticKind where
  | toolCall
  | toolResult
  deriving Repr, DecidableEq

inductive ApcEvent where
  | signal (s : AgentSignal)
  | semantic (kind : SemanticKind) (payload : Value)
  deriving Repr

/-- Why an APC was discarded instead of emitted. -/
inductive ApcDrop where
  | notOurNamespace
  | unknownVerb (verb : String)
  | badPayload (verb err : String)
  | nonUtf8
  deriving Repr, DecidableEq

/-- `serde_json::from_str`, with its error text, and `{:?}` of a string. -/
structure Formats where
  fromStr : String → Except String Value
  debug : String → String

/-- `Value::get(name)` on any value. -/
def field (value : Value) (name : String) : Option Value := value.asObject.bind (·.get name)

def strField (value : Value) (name : String) : Option String := (field value name).bind Value.asStr

/-- Unknown or missing means `live`. -/
def parseDelivery (value : Value) : Delivery :=
  match strField value "delivery" with
  | some "inbox" => .inbox
  | some "live" | none => .live
  | some _ => .live

def newSignal («to» : AgentAddress) (kind : SignalKind) : AgentSignal :=
  { session := none, frm := .broadcast, «to», kind, priority := .normal, delivery := .live, replyTo := none }

def AgentSignal.withDelivery (s : AgentSignal) (delivery : Delivery) : AgentSignal := { s with delivery }

inductive DispatchErr where
  | unknown
  | payload (text : String)
  deriving Repr, DecidableEq

def asArray : Value → Option (List Value)
  | .array items => some items
  | _ => none

def dispatchVerb (formats : Formats) (verb : String) (value : Value) : Except DispatchErr ApcEvent :=
  let delivery := parseDelivery value
  match verb with
  | "msg" =>
      let name := (strField value "to").getD ""
      let text := (strField value "text").getD ""
      .ok (.signal ((newSignal (.agent "" name) (.msg text)).withDelivery delivery))
  | "status" =>
      let text := (strField value "text").getD ""
      .ok (.signal ((newSignal .broadcast (.status text)).withDelivery delivery))
  | "presence" => do
      let state ← match (strField value "state").getD "" with
        | "active" => .ok .active
        | "idle" => .ok .idle
        | "away" => .ok .away
        | "stuck" => .ok .stuck
        | other => .error (.payload ("unknown presence state " ++ formats.debug other))
      .ok (.signal ((newSignal .broadcast (.presence state)).withDelivery delivery))
  | "reserve" | "release" =>
      let paths := (((field value "paths").bind asArray).map fun items => items.filterMap Value.asStr).getD []
      let action := if verb = "reserve" then .claim else .release
      .ok (.signal ((newSignal .broadcast (.reservation paths action)).withDelivery delivery))
  | "task" => do
      let phase ← match (strField value "phase").getD "" with
        | "started" => .ok .started
        | "done" => .ok .done
        | "blocked" => .ok .blocked
        | other => .error (.payload ("unknown task phase " ++ formats.debug other))
      .ok (.signal ((newSignal .broadcast (.taskLifecycle phase (strField value "ref"))).withDelivery delivery))
  | "tool" => .ok (.semantic .toolCall value)
  | "tool-result" => .ok (.semantic .toolResult value)
  | _ => .error .unknown

/-- `str::strip_prefix("k2so:")`, over characters. -/
def stripNamespace : List Char → Option (List Char)
  | 'k' :: '2' :: 's' :: 'o' :: ':' :: rest => some rest
  | _ => none

/-- The verb and the payload text around the first whitespace. The payload
    starts one byte after it: `none` is the panic of a slice that starts inside
    a longer character. -/
def splitVerb (rest : List Char) : Option (List Char × List Char) :=
  match rest.dropWhile (!Text.isWhitespace ·) with
  | [] => some (rest, [])
  | c :: after =>
      if c.utf8Size = 1 then
        some (rest.takeWhile (!Text.isWhitespace ·), after.dropWhile Text.isWhitespace)
      else none

/-- `none` is a panic. -/
def parseApcContent (formats : Formats) (raw : List UInt8) : Option (Except ApcDrop ApcEvent) :=
  match fromUtf8 raw with
  | none => some (.error .nonUtf8)
  | some content =>
    match stripNamespace content.toList with
    | none => some (.error .notOurNamespace)
    | some rest =>
      (splitVerb rest).map fun (verb, payload) =>
        let verb := String.ofList verb
        let value := if payload.isEmpty then .ok .null else formats.fromStr (String.ofList payload)
        match value with
        | .error err => .error (.badPayload verb err)
        | .ok value =>
          match dispatchVerb formats verb value with
          | .ok event => .ok event
          | .error .unknown => .error (.unknownVerb verb)
          | .error (.payload text) => .error (.badPayload verb text)

/-- The content is a text of the namespace whose first whitespace takes more
    than one byte. -/
def WideSpace (raw : List UInt8) : Prop :=
  ∃ content verb c after, fromUtf8 raw = some content ∧
    content.toList = "k2so:".toList ++ verb ++ c :: after ∧
    (∀ x ∈ verb, Text.isWhitespace x = false) ∧ Text.isWhitespace c = true ∧ c.utf8Size ≠ 1

theorem stripNamespace_eq_some {text rest : List Char} :
    stripNamespace text = some rest ↔ text = "k2so:".toList ++ rest := by
  constructor
  · intro stripped
    unfold stripNamespace at stripped
    split at stripped
    next => rw [Option.some.inj stripped]; rfl
    next => cases stripped
  · rintro rfl
    rfl

theorem dropWhile_eq_cons {rest after : List Char} {c : Char}
    (found : rest.dropWhile (!Text.isWhitespace ·) = c :: after) :
    rest = rest.takeWhile (!Text.isWhitespace ·) ++ c :: after ∧
      (∀ x ∈ rest.takeWhile (!Text.isWhitespace ·), Text.isWhitespace x = false) ∧
      Text.isWhitespace c = true := by
  refine ⟨by rw [← found, List.takeWhile_append_dropWhile], fun x mem => ?_, ?_⟩
  · simpa using List.mem_takeWhile_imp mem
  · have stopped := List.head?_dropWhile_not (!Text.isWhitespace ·) rest
    rw [found] at stopped
    simpa using stopped

theorem splitVerb_eq_none {rest : List Char} :
    splitVerb rest = none ↔ ∃ verb c after, rest = verb ++ c :: after ∧
      (∀ x ∈ verb, Text.isWhitespace x = false) ∧ Text.isWhitespace c = true ∧ c.utf8Size ≠ 1 := by
  constructor
  · intro panicked
    unfold splitVerb at panicked
    split at panicked
    next => cases panicked
    next c after found =>
      obtain ⟨split, verb, space⟩ := dropWhile_eq_cons found
      refine ⟨_, c, after, split, verb, space, fun narrow => ?_⟩
      rw [if_pos narrow] at panicked
      cases panicked
  · rintro ⟨verb, c, after, rfl, plain, space, wide⟩
    have dropped : (verb ++ c :: after).dropWhile (!Text.isWhitespace ·) = c :: after := by
      rw [List.dropWhile_append_of_pos (by simpa using plain), List.dropWhile_cons_of_neg (by simp [space])]
    rw [splitVerb, dropped]
    exact if_neg wide

theorem parseApcContent_eq_none {formats : Formats} {raw : List UInt8} :
    parseApcContent formats raw = none ↔ WideSpace raw := by
  unfold parseApcContent WideSpace
  cases fromUtf8 raw with
  | none => simp
  | some content =>
    cases stripped : stripNamespace content.toList with
    | none =>
      refine iff_of_false (by simp [stripped]) ?_
      rintro ⟨_, verb, c, after, same, text, -⟩
      obtain rfl := Option.some.inj same
      rw [List.append_assoc, ← stripNamespace_eq_some, stripped] at text
      cases text
    | some rest =>
      have text := stripNamespace_eq_some.mp stripped
      simp only [stripped, Option.map_eq_none_iff, splitVerb_eq_none]
      constructor
      · rintro ⟨verb, c, after, rfl, plain, wide⟩
        exact ⟨content, verb, c, after, rfl, by rw [text, List.append_assoc], plain, wide⟩
      · rintro ⟨_, verb, c, after, same, text', plain, wide⟩
        obtain rfl := Option.some.inj same
        rw [text, List.append_assoc] at text'
        exact ⟨verb, c, after, List.append_cancel_left text', plain, wide⟩

end K2.Term
