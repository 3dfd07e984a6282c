import K2.Json
import Mathlib.Data.List.SplitBy

/-! # Heartbeat schedules

When a heartbeat is due, and when the daemon should wake for it. A time is the
nanoseconds since the epoch.
-/

namespace K2.Heartbeats

/-- At most this many seconds late is still on time. -/
def onTimeGraceSecs : Int := 15 * 60

/-- A missed occurrence is caught up when it is at most this many seconds late. -/
def missedRunGraceSecs : Int := 12 * 60 * 60

/-- How many occurrences the backward walk looks at. -/
def walkCap : Nat := 5000

/-- How many occurrences the forward walk looks at. -/
def nextWalkCap : Nat := 400

/-- Nanoseconds of a number of seconds. -/
def ofSecs (n : Int) : Int := n * 1000000000

/-- `Duration::num_seconds`: whole seconds, toward zero. -/
def numSeconds (d : Int) : Int := d.tdiv 1000000000

inductive DueStatus where
  | due (scheduledFor : Int)
  | dueCatchUp (missedAt : Int)
  | holdWindow (scheduledFor : Int)
  | skippedMissed (missedAt : Int)
  | notYet (next : Option Int)
  | invalid (reason : String)
  deriving Repr, DecidableEq

/-- The row of a heartbeat, as far as its schedule goes. -/
structure AgentHeartbeat where
  frequency : String
  specJson : String
  lastFired : Option String
  scheduleAnchorAt : Option String
  nextRetryAt : Option String
  createdAt : Int
  deriving Repr, DecidableEq

/-! ## Firing windows -/

/-- A daily window in minutes of the day; one that starts after its end runs overnight. -/
structure FiringWindow where
  startMins : Fin 1440
  endMins : Fin 1440
  deriving Repr, DecidableEq

/-- `str::parse::<u32>`. -/
def parseU32 (cs : List Char) : Option Nat :=
  let digits : List Char := match cs with
    | '+' :: rest => rest
    | cs => cs
  let n : Nat := digits.foldl (fun n c => 10 * n + (c.toNat - 48)) 0
  if digits ≠ [] ∧ digits.all Char.isDigit ∧ n < 2 ^ 32 then some n else none

/-- `HH:MM` as the minute of the day. -/
def parseHhmmMins (s : String) : Option (Fin 1440) :=
  match s.toList.splitOn ':' with
  | [hour, minute] => do
      let h ← parseU32 hour
      let m ← parseU32 minute
      if small : h ≤ 23 ∧ m ≤ 59 then some ⟨h * 60 + m, by omega⟩ else none
  | _ => none

/-- `spec.get(name)`. -/
def specGet (spec : Value) (name : String) : Option Value := spec.asObject.bind (·.get name)

namespace FiringWindow

def parseMins (which : String) (absent : Fin 1440) : Option String → Except String (Fin 1440)
  | none => .ok absent
  | some s => okOr (parseHhmmMins s) ("firing window " ++ which ++ " '" ++ s ++ "' is not HH:MM")

def parse (spec : Value) : Except String (Option FiringWindow) :=
  let start := (specGet spec "start").bind Value.asStr
  let endText := (specGet spec "end").bind Value.asStr
  if start.isNone && endText.isNone then .ok none
  else do
    let startMins ← parseMins "start" 0 start
    let endMins ← parseMins "end" (24 * 60 - 1) endText
    .ok (some ⟨startMins, endMins⟩)

end FiringWindow

/-- What chrono, serde and croner answer in the local zone. -/
structure Zone where
  /-- How far east of UTC the local clock is at a time. -/
  offset : Int → Int
  /-- `Local::from_local_datetime(..).earliest()`: the first time that the local clock shows this. -/
  fromLocal : Int → Option Int
  /-- `Local::now`, read when a row's creation time is no time. -/
  localNow : Int
  parseFromRfc3339 : String → Option Int
  toRfc3339 : Int → String
  fromStr : String → Except String Value
  /-- The schedules that go through cron. -/
  evaluateCron : Value → String → Int → Int → Option FiringWindow → DueStatus

/-- The time that is stamped is read back. -/
def Zone.Stamps (zone : Zone) (t : Int) : Prop := zone.parseFromRfc3339 (zone.toRfc3339 t) = some t

/-- A zone whose clock is never changed. -/
structure Zone.Fixed (zone : Zone) (east : Int) : Prop where
  offset : ∀ t, zone.offset t = east
  fromLocal : ∀ t, zone.fromLocal t = some (t - east)

variable (zone : Zone)

def nsPerMinute : Int := 60 * 1000000000
def nsPerDay : Int := 1440 * nsPerMinute

/-- `hour * 60 + minute` on the local clock. -/
def minuteOfDay (t : Int) : Int := (t + zone.offset t) / nsPerMinute % 1440

namespace FiringWindow

def contains (w : FiringWindow) (t : Int) : Bool :=
  let mins := minuteOfDay zone t
  if w.startMins ≤ w.endMins then (w.startMins : Nat) ≤ mins && mins < (w.endMins : Nat)
  else (w.startMins : Nat) ≤ mins || mins < (w.endMins : Nat)

end FiringWindow

/-- In the window, or there is none. -/
def inWindow (window : Option FiringWindow) (t : Int) : Bool := window.all (·.contains zone t)

/-! ## Walks -/

/-- Up to `steps` more occurrences `t, advance t, …` until one is in the window. -/
def walkForward (advance : Int → Int) (w : FiringWindow) : (steps : Nat) → (t : Int) → Option Int
  | 0, _ => none
  | steps + 1, t =>
      if w.contains zone t then some t
      else if advance t ≤ t then none
      else walkForward advance w steps (advance t)

/-- The next occurrence in the window, from `start` on. -/
def nextInWindow (start : Int) (advance : Int → Int) (window : Option FiringWindow) : Option Int :=
  match window with
  | none => some start
  | some w => walkForward zone advance w nextWalkCap start

/-- Back from occurrence `k`: the latest in the window, and whether there is another. -/
def walkBack (occurrence : Int → Int) (window : Option FiringWindow) :
    (steps : Nat) → (k : Int) → (latest : Option Int) → Option Int × Bool
  | 0, _, latest => (latest, false)
  | steps + 1, k, latest =>
      if k < 1 then (latest, false)
      else if inWindow zone window (occurrence k) then
        match latest with
        | none => walkBack occurrence window steps (k - 1) (some (occurrence k))
        | some latest => (some latest, true)
      else walkBack occurrence window steps (k - 1) latest

/-! ## Due or not -/

/-- An occurrence is due: skip it, hold it, or fire. -/
def classify (occurrence now : Int) (window : Option FiringWindow) (multiplePending : Bool) : DueStatus :=
  if numSeconds (now - occurrence) > missedRunGraceSecs then .skippedMissed occurrence
  else if !inWindow zone window now then .holdWindow occurrence
  else if !multiplePending && numSeconds (now - occurrence) ≤ onTimeGraceSecs then .due occurrence
  else .dueCatchUp occurrence

/-- Occurrence `k` of an interval. -/
def occurrence (reference every k : Int) : Int := reference + ofSecs (k * every)

/-- `evaluate_interval` once `every_seconds` is read. -/
def evaluateEvery (every reference now : Int) (window : Option FiringWindow) : DueStatus :=
  let kMax := (numSeconds (now - reference)).tdiv every
  if kMax < 1 then .notYet (nextInWindow zone (occurrence reference every 1) (· + ofSecs every) window)
  else
    match walkBack zone (occurrence reference every) window walkCap kMax none with
    | (some latest, multiplePending) => classify zone latest now window multiplePending
    | (none, _) => .notYet (nextInWindow zone (occurrence reference every (kMax + 1)) (· + ofSecs every) window)

/-- The interval of an `hourly` spec in seconds. -/
def everySeconds (spec : Value) : Int := ((specGet spec "every_seconds").bind Value.asI64).getD 3600

def evaluateInterval (spec : Value) (reference now : Int) (window : Option FiringWindow) : DueStatus :=
  let every := everySeconds spec
  if every < 1 then .invalid ("every_seconds must be >= 1 (got " ++ toString every ++ ")")
  else evaluateEvery zone every reference now window

/-- `Local::timestamp_opt`: the seconds that chrono has a time for. -/
def timestampOpt (secs : Int) : Option Int :=
  if -8334601228800 ≤ secs ∧ secs ≤ 8210266876799 then some (ofSecs secs) else none

/-- The point that occurrences come after. -/
def scheduleReference (hb : AgentHeartbeat) : Int :=
  match hb.lastFired.bind zone.parseFromRfc3339, hb.scheduleAnchorAt.bind zone.parseFromRfc3339 with
  | some fired, some anchor => max fired anchor
  | some t, none => t
  | none, some t => t
  | none, none => (timestampOpt hb.createdAt).getD zone.localNow

def evaluateWithNow (hb : AgentHeartbeat) (now : Int) : DueStatus :=
  match zone.fromStr hb.specJson with
  | .error e => .invalid ("spec_json is not valid JSON: " ++ e)
  | .ok spec =>
      match FiringWindow.parse spec with
      | .error reason => .invalid reason
      | .ok window =>
          let reference := scheduleReference zone hb
          if hb.frequency = "hourly" then evaluateInterval zone spec reference now window
          else if hb.frequency ∈ ["daily", "weekly", "monthly", "yearly", "scheduled"] then
            zone.evaluateCron spec hb.frequency reference now window
          else .invalid ("unknown frequency '" ++ hb.frequency ++ "'")

/-! ## Wake planning -/

/-- When the window starts on a day. -/
def atDay (w : FiringWindow) (day : Int) : Option Int :=
  zone.fromLocal (day * nsPerDay + (w.startMins : Nat) * nsPerMinute)

/-- The next time after `now` that the window opens. -/
def windowOpensAfter (w : FiringWindow) (now : Int) : Int :=
  let today := (now + zone.offset now) / nsPerDay
  match (atDay zone w today).filter (now < ·) with
  | some t => t
  | none => (atDay zone w (today + 1)).getD (now + nsPerDay)

/-- The row with its schedule anchored at `now`. -/
def anchored (hb : AgentHeartbeat) (now : Int) : AgentHeartbeat :=
  { hb with scheduleAnchorAt := some (zone.toRfc3339 now) }

/-- When the row will fire on its own, its backoff aside. -/
def nextSlot (hb : AgentHeartbeat) (now : Int) : Option Int :=
  match evaluateWithNow zone hb now with
  | .due _ | .dueCatchUp _ => some now
  | .notYet next => next
  | .holdWindow _ => do
      let spec ← (zone.fromStr hb.specJson).toOption
      let w ← (← (FiringWindow.parse spec).toOption)
      some (windowOpensAfter zone w now)
  | .skippedMissed _ =>
      match evaluateWithNow zone (anchored zone hb now) now with
      | .notYet next => next
      | _ => none
  | .invalid _ => none

/-- When this row will next fire on its own. -/
def nextFireEstimate (hb : AgentHeartbeat) (now : Int) : Option Int := do
  let slotTime ← nextSlot zone hb now
  match hb.nextRetryAt.bind zone.parseFromRfc3339 with
  | some retry => some (if retry > slotTime then retry else slotTime)
  | none => some slotTime

end K2.Heartbeats
