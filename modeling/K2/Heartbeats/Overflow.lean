import K2.Heartbeats.MissPolicy

/-! # Overflow

The evaluator with the dates chrono has: a `Duration` or a date that does not fit stops
the program, and `none` says so. -/

namespace K2.Heartbeats

/-! ## Dates and durations -/

/-- The times chrono has a date for. -/
def InRange (t : Int) : Prop := ofSecs (-8334601228800) ≤ t ∧ t < ofSecs 8210266876800

instance : DecidablePred InRange := fun _ => inferInstanceAs (Decidable (_ ∧ _))

/-- What chrono reads is a date it has. -/
structure Zone.Ranged (zone : Zone) : Prop where
  parsed : ∀ s t, zone.parseFromRfc3339 s = some t → InRange t
  localNow : InRange zone.localNow

namespace Checked

/-- `Duration::seconds`: at most `i64::MAX` milliseconds, either way. -/
def durationSeconds (n : Int) : Option Int := if -9223372036854775 ≤ n ∧ n ≤ 9223372036854775 then some (ofSecs n) else none

/-- `DateTime + Duration`. -/
def addDuration (t d : Int) : Option Int := if InRange (t + d) then some (t + d) else none

/-- `t + Duration::seconds(n)`. -/
def addSeconds (t n : Int) : Option Int := do addDuration t (← durationSeconds n)

/-- A product of two `i64`. -/
def mulI64 (a b : Int) : Option Int := if -(2 ^ 63) ≤ a * b ∧ a * b < 2 ^ 63 then some (a * b) else none

/-! ## The evaluator -/

variable (zone : Zone)

def occurrence (reference every k : Int) : Option Int := do addSeconds reference (← mulI64 k every)

def walkForward (advance : Int → Option Int) (w : FiringWindow) : (steps : Nat) → (t : Int) → Option (Option Int)
  | 0, _ => some none
  | steps + 1, t =>
      if w.contains zone t then some (some t)
      else do
        let n ← advance t
        if n ≤ t then some none else walkForward advance w steps n

def nextInWindow (start : Int) (advance : Int → Option Int) (window : Option FiringWindow) : Option (Option Int) :=
  match window with
  | none => some (some start)
  | some w => walkForward zone advance w nextWalkCap start

def walkBack (occurrence : Int → Option Int) (window : Option FiringWindow) :
    (steps : Nat) → (k : Int) → (latest : Option Int) → Option (Option Int × Bool)
  | 0, _, latest => some (latest, false)
  | steps + 1, k, latest =>
      if k < 1 then some (latest, false)
      else do
        let occ ← occurrence k
        if inWindow zone window occ then
          match latest with
          | none => walkBack occurrence window steps (k - 1) (some occ)
          | some latest => some (some latest, true)
        else walkBack occurrence window steps (k - 1) latest

def evaluateEvery (every reference now : Int) (window : Option FiringWindow) : Option DueStatus := do
  let kMax := (numSeconds (now - reference)).tdiv every
  if kMax < 1 then
    let first ← occurrence reference every 1
    return .notYet (← nextInWindow zone first (addSeconds · every) window)
  else
    match ← walkBack zone (occurrence reference every) window walkCap kMax none with
    | (some latest, multiplePending) => return classify zone latest now window multiplePending
    | (none, _) =>
        let next ← occurrence reference every (kMax + 1)
        return .notYet (← nextInWindow zone next (addSeconds · every) window)

def evaluateInterval (spec : Value) (reference now : Int) (window : Option FiringWindow) : Option DueStatus :=
  let every := everySeconds spec
  if every < 1 then some (.invalid ("every_seconds must be >= 1 (got " ++ toString every ++ ")"))
  else evaluateEvery zone every reference now window

def evaluateWithNow (hb : AgentHeartbeat) (now : Int) : Option DueStatus :=
  match zone.fromStr hb.specJson with
  | .error e => some (.invalid ("spec_json is not valid JSON: " ++ e))
  | .ok spec =>
      match FiringWindow.parse spec with
      | .error reason => some (.invalid reason)
      | .ok window =>
          let reference := scheduleReference zone hb
          if hb.frequency = "hourly" then evaluateInterval zone spec reference now window
          else if hb.frequency ∈ ["daily", "weekly", "monthly", "yearly", "scheduled"] then
            some (zone.evaluateCron spec hb.frequency reference now window)
          else some (.invalid ("unknown frequency '" ++ hb.frequency ++ "'"))

/-- The first slot in the window after the reference. -/
def firstSlotAfterReference (hb : AgentHeartbeat) : Option (Option Int) := do
  match ← evaluateWithNow zone hb (scheduleReference zone hb) with
  | .notYet next => return next
  | _ => return none

/-! ## Wake planning -/

/-- The start of the window on a day, when both its local and its UTC time are dates. -/
def atDay (w : FiringWindow) (day : Int) : Option Int :=
  if InRange (day * nsPerDay + (w.startMins : Nat) * nsPerMinute) then (Heartbeats.atDay zone w day).filter (InRange ·)
  else none

def windowOpensAfter (w : FiringWindow) (now : Int) : Option Int :=
  -- `date_naive` needs a local date
  if InRange (now + zone.offset now) then
    let today := (now + zone.offset now) / nsPerDay
    match (atDay zone w today).filter (now < ·) with
    | some t => some t
    -- the fallback is computed whether it is needed or not
    | none => (addDuration now nsPerDay).map ((atDay zone w (today + 1)).getD ·)
  else none

def nextSlot (hb : AgentHeartbeat) (now : Int) : Option (Option Int) := do
  match ← evaluateWithNow zone hb now with
  | .due _ | .dueCatchUp _ => return some now
  | .notYet next => return next
  | .holdWindow _ =>
      match (zone.fromStr hb.specJson).toOption.bind fun spec => (FiringWindow.parse spec).toOption.bind id with
      | some w => return some (← windowOpensAfter zone w now)
      | none => return none
  | .skippedMissed _ =>
      match ← evaluateWithNow zone (anchored zone hb now) now with
      | .notYet next => return next
      | _ => return none
  | .invalid _ => return none

def nextFireEstimate (hb : AgentHeartbeat) (now : Int) : Option (Option Int) := do
  let slot ← nextSlot zone hb now
  return slot.map fun slotTime =>
    match hb.nextRetryAt.bind zone.parseFromRfc3339 with
    | some retry => if retry > slotTime then retry else slotTime
    | none => slotTime

/-- The next occurrence of a row, its window aside; `cronNext` is croner's answer. -/
def nextFireTimeAfter (cronNext : Value → String → Int → Option Int) (hb : AgentHeartbeat) (after : Int) :
    Option (Option Int) :=
  match zone.fromStr hb.specJson with
  | .error _ => some none
  | .ok spec =>
      if hb.frequency = "hourly" then (addSeconds after (everySeconds spec)).map some
      else if hb.frequency ∈ ["daily", "weekly", "monthly", "yearly", "scheduled"] then
        some (cronNext spec hb.frequency after)
      else some none

/-! ## Additions that fit -/

variable {zone} {every reference now : Int} {window : Option FiringWindow}

theorem addSeconds_eq {t n : Int} (start : InRange t) :
    addSeconds t n = if InRange (t + ofSecs n) then some (t + ofSecs n) else none := by
  rw [addSeconds, durationSeconds]
  split
  · rfl
  next wide =>
    rw [if_neg ?_]
    · rfl
    · unfold InRange ofSecs at *
      omega

theorem occurrence_eq {k : Int} (start : InRange reference) : occurrence reference every k =
    if InRange (Heartbeats.occurrence reference every k) then some (Heartbeats.occurrence reference every k) else none := by
  rw [occurrence, mulI64]
  split
  · exact addSeconds_eq start
  next wide =>
    rw [if_neg ?_]
    · rfl
    · unfold InRange Heartbeats.occurrence ofSecs at *
      omega

theorem occurrence_of_le {k : Int} (start : InRange reference) (here : InRange now) (pos : 1 ≤ every) (first : 1 ≤ k)
    (came : Heartbeats.occurrence reference every k ≤ now) :
    occurrence reference every k = some (Heartbeats.occurrence reference every k) := by
  have step : 1 ≤ k * every := Int.mul_le_mul first pos (by omega) (by omega)
  rw [occurrence_eq start, if_pos]
  unfold InRange Heartbeats.occurrence ofSecs at *
  omega

/-! ## The walks -/

theorem walkBack_eq {occ : Int → Option Int} {occ' : Int → Int} {steps : Nat} {k : Int} {latest : Option Int}
    (same : ∀ j, 1 ≤ j → j ≤ k → occ j = some (occ' j)) :
    walkBack zone occ window steps k latest = some (Heartbeats.walkBack zone occ' window steps k latest) := by
  induction steps generalizing k latest with
  | zero => rfl
  | succ steps ih =>
    have before (latest : Option Int) : walkBack zone occ window steps (k - 1) latest =
        some (Heartbeats.walkBack zone occ' window steps (k - 1) latest) := ih fun j first le => same j first (by omega)
    cases latest
    all_goals
      rw [walkBack, Heartbeats.walkBack]
      split
      · rfl
      rw [same k (by omega) (Int.le_refl k), Option.bind_eq_bind, Option.bind_some]
      split
    · exact before (some (occ' k))
    · exact before none
    · rfl
    · exact before (some _)

theorem step_shift (t d : Int) (n : Nat) : t + d + n * d = t + (n + 1 : Nat) * d := by
  rw [Nat.cast_add, Int.add_mul]
  omega

theorem walkForward_eq {w : FiringWindow} {steps : Nat} {t : Int} (start : InRange t)
    (fits : ∀ m : Nat, m ≤ steps → (∀ i < m, w.contains zone (t + i * ofSecs every) = false) → InRange (t + m * ofSecs every)) :
    walkForward zone (addSeconds · every) w steps t = some (Heartbeats.walkForward zone (· + ofSecs every) w steps t) := by
  induction steps generalizing t with
  | zero => rfl
  | succ steps ih =>
    rw [walkForward, Heartbeats.walkForward]
    split
    · rfl
    next closed =>
      have next : InRange (t + ofSecs every) := by
        have := fits 1 (by omega) fun i lt => by
          obtain rfl : i = 0 := by omega
          simpa using closed
        simpa using this
      rw [addSeconds_eq start, if_pos next, Option.bind_eq_bind, Option.bind_some]
      split
      · rfl
      · refine ih next fun m le before => ?_
        rw [step_shift]
        refine fits (m + 1) (by omega) fun i lt => ?_
        cases i with
        | zero => simpa using closed
        | succ i =>
          rw [← step_shift]
          exact before i (by omega)

theorem walkForward_stops {w : FiringWindow} (pos : 1 ≤ every) {steps : Nat} {t : Int} (start : InRange t) {m : Nat}
    (le : m ≤ steps) (closed : ∀ i < m, w.contains zone (t + i * ofSecs every) = false)
    (out : ¬InRange (t + m * ofSecs every)) : walkForward zone (addSeconds · every) w steps t = none := by
  induction m generalizing t steps with
  | zero => exact absurd (by simpa using start) out
  | succ m ih =>
    obtain ⟨steps, rfl⟩ : ∃ s, steps = s + 1 := ⟨steps - 1, by omega⟩
    have here : w.contains zone t = false := by simpa using closed 0 (by omega)
    rw [walkForward, if_neg (by simp [here]), addSeconds_eq start]
    split
    next next =>
      rw [Option.bind_eq_bind, Option.bind_some, if_neg (by unfold ofSecs; omega)]
      refine ih next (by omega) (fun i lt => ?_) ?_
      · rw [step_shift]
        exact closed (i + 1) (by omega)
      · rw [step_shift]
        exact out
    · rfl

/-! ## When they return -/

/-- The slots that the forward walk visits are dates. -/
def SlotsFit (zone : Zone) (every reference now : Int) (window : Option FiringWindow) : Prop :=
  ∀ m ≤ nextWalkCap, (∀ i < m, inWindow zone window (slotAfter every reference now i) = false) →
    InRange (slotAfter every reference now m)

theorem nextInWindow_eq (fits : SlotsFit zone every reference now window) :
    nextInWindow zone (slotAfter every reference now 0) (addSeconds · every) window =
      some (Heartbeats.nextInWindow zone (slotAfter every reference now 0) (· + ofSecs every) window) := by
  cases window with
  | none => rfl
  | some w =>
    refine walkForward_eq (fits 0 (by decide) fun i lt => absurd lt (Nat.not_lt_zero i)) fun m le closed => ?_
    rw [← slotAfter_step]
    refine fits m le fun i lt => ?_
    rw [slotAfter_step]
    exact closed i lt

theorem nextInWindow_stops (pos : 1 ≤ every) (start : InRange (slotAfter every reference now 0))
    (out : ¬SlotsFit zone every reference now window) :
    nextInWindow zone (slotAfter every reference now 0) (addSeconds · every) window = none := by
  unfold SlotsFit at out
  push Not at out
  obtain ⟨m, le, closed, out⟩ := out
  cases window with
  | none =>
    cases m with
    | zero => exact absurd start out
    | succ m => exact absurd (closed 0 (by omega)) (by simp [inWindow])
  | some w =>
    refine walkForward_stops pos start le (fun i lt => ?_) ?_
    · rw [← slotAfter_step]
      exact closed i lt
    · rw [← slotAfter_step]
      exact out

/-- The answer when nothing is pending, with the slots after `now`. -/
def nextAnswer (zone : Zone) (every reference now : Int) (window : Option FiringWindow) : Option DueStatus := do
  let first ← occurrence reference every (max (kMax every reference now) 0 + 1)
  return .notYet (← nextInWindow zone first (addSeconds · every) window)

theorem nextAnswer_eq (start : InRange reference) (fits : SlotsFit zone every reference now window) :
    nextAnswer zone every reference now window =
      some (.notYet (Heartbeats.nextInWindow zone (slotAfter every reference now 0) (· + ofSecs every) window)) := by
  have first : InRange (slotAfter every reference now 0) := fits 0 (by decide) fun i lt => absurd lt (Nat.not_lt_zero i)
  have same : Heartbeats.occurrence reference every (max (kMax every reference now) 0 + 1) = slotAfter every reference now 0 := by
    rw [slotAfter, Nat.cast_zero, Int.add_zero]
  rw [nextAnswer, occurrence_eq start, same, if_pos first, Option.bind_eq_bind, Option.bind_some, nextInWindow_eq fits]
  rfl

theorem nextAnswer_stops (pos : 1 ≤ every) (start : InRange reference) (out : ¬SlotsFit zone every reference now window) :
    nextAnswer zone every reference now window = none := by
  have same : Heartbeats.occurrence reference every (max (kMax every reference now) 0 + 1) = slotAfter every reference now 0 := by
    rw [slotAfter, Nat.cast_zero, Int.add_zero]
  rw [nextAnswer, occurrence_eq start, same]
  split
  next first =>
    rw [Option.bind_eq_bind, Option.bind_some, nextInWindow_stops pos first out]
    rfl
  · rfl

theorem walkBack_returns (zone : Zone) (window : Option FiringWindow) (pos : 1 ≤ every) (start : InRange reference)
    (here : InRange now) :
    walkBack zone (occurrence reference every) window walkCap (kMax every reference now) none =
      some (Heartbeats.walkBack zone (Heartbeats.occurrence reference every) window walkCap (kMax every reference now) none) :=
  walkBack_eq fun _ first le => occurrence_of_le start here pos first ((le_kMax pos first).mp le)

theorem evaluateEvery_pending (pos : 1 ≤ every) (start : InRange reference) (here : InRange now) {k : Int}
    (pending : Pending zone every reference window now k) :
    evaluateEvery zone every reference now window = some (Heartbeats.evaluateEvery zone every reference now window) := by
  obtain ⟨first, le, near, allowed⟩ := (pending_iff pos).mp pending
  have late : ¬kMax every reference now < 1 := not_lt.mpr (first.trans le)
  have back := walkBack_returns zone window pos start here
  rw [kMax] at late back
  simp only [evaluateEvery, Heartbeats.evaluateEvery, if_neg late, back, Option.bind_eq_bind, Option.bind_some]
  cases found : Heartbeats.walkBack zone (Heartbeats.occurrence reference every) window walkCap
      ((numSeconds (now - reference)).tdiv every) none with
  | mk latest more =>
    cases latest with
    | none =>
      rw [walkBack_none (congrArg Prod.fst found) first le near] at allowed
      cases allowed
    | some latest => rfl

theorem evaluateEvery_not_pending (pos : 1 ≤ every) (start : InRange reference) (here : InRange now)
    (calm : ∀ k, ¬Pending zone every reference window now k) :
    evaluateEvery zone every reference now window = nextAnswer zone every reference now window := by
  have back := walkBack_returns zone window pos start here
  by_cases early : kMax every reference now < 1
  · rw [nextAnswer, show max (kMax every reference now) 0 + 1 = 1 by omega]
    rw [kMax] at early
    simp only [evaluateEvery, if_pos early]
  · rw [nextAnswer, show max (kMax every reference now) 0 + 1 = kMax every reference now + 1 by omega]
    rw [kMax] at early back ⊢
    simp only [evaluateEvery, if_neg early, back, Option.bind_eq_bind, Option.bind_some]
    cases found : Heartbeats.walkBack zone (Heartbeats.occurrence reference every) window walkCap
        ((numSeconds (now - reference)).tdiv every) none with
    | mk latest more =>
      cases latest with
      | none => rfl
      | some latest =>
        obtain ⟨j, first, le, near, -, allowed⟩ := walkBack_some (congrArg Prod.fst found)
        exact absurd ((pending_iff pos).mpr ⟨first, le, near, allowed⟩) (calm j)

theorem unchecked_not_pending (pos : 1 ≤ every) (calm : ∀ k, ¬Pending zone every reference window now k) :
    Heartbeats.evaluateEvery zone every reference now window =
      .notYet (Heartbeats.nextInWindow zone (slotAfter every reference now 0) (· + ofSecs every) window) := by
  obtain ⟨next, notYet⟩ := (evaluateEvery_notYet_iff pos).mpr calm
  rw [notYet, (evaluateEvery_notYet notYet).2]

/-! ## Rows -/

variable {hb : AgentHeartbeat} {spec : Value}

theorem scheduleReference_inRange (ranged : zone.Ranged) (hb : AgentHeartbeat) : InRange (scheduleReference zone hb) := by
  have read {s : Option String} {t : Int} (parsed : s.bind zone.parseFromRfc3339 = some t) : InRange t := by
    obtain ⟨s, -, parsed⟩ := Option.bind_eq_some_iff.mp parsed
    exact ranged.parsed s t parsed
  unfold scheduleReference
  cases fired : hb.lastFired.bind zone.parseFromRfc3339 with
  | some f =>
    cases anchor : hb.scheduleAnchorAt.bind zone.parseFromRfc3339 with
    | some a => exact max_rec (fun _ => read fired) (fun _ => read anchor)
    | none => exact read fired
  | none =>
    cases anchor : hb.scheduleAnchorAt.bind zone.parseFromRfc3339 with
    | some a => exact read anchor
    | none =>
      cases created : timestampOpt hb.createdAt with
      | none => exact ranged.localNow
      | some t =>
        unfold timestampOpt at created
        split at created
        · cases created
          unfold InRange ofSecs
          simp only [Option.getD_some]
          omega
        · cases created

/-- Nothing is pending and a slot the forward walk visits is no date: only then `evaluate_with_now` stops. -/
def EvaluateFits (zone : Zone) (hb : AgentHeartbeat) (now : Int) : Prop :=
  ∀ spec window, Hourly zone hb spec window →
    (∀ k, ¬Pending zone (everySeconds spec) (scheduleReference zone hb) window now k) →
      SlotsFit zone (everySeconds spec) (scheduleReference zone hb) now window

theorem hourly_checked (hourly : Hourly zone hb spec window) (t : Int) :
    evaluateWithNow zone hb t = evaluateEvery zone (everySeconds spec) (scheduleReference zone hb) t window := by
  simp only [evaluateWithNow, hourly.parsed, hourly.windowed, if_pos hourly.frequency, evaluateInterval]
  rw [if_neg (not_lt.mpr hourly.pos)]

theorem not_hourly_checked (frequency : hb.frequency = "hourly") (other : ∀ spec window, ¬Hourly zone hb spec window) (t : Int) :
    ∃ reason, evaluateWithNow zone hb t = some (.invalid reason) ∧ Heartbeats.evaluateWithNow zone hb t = .invalid reason := by
  cases parsed : zone.fromStr hb.specJson with
  | error e => exact ⟨"spec_json is not valid JSON: " ++ e, by simp only [evaluateWithNow, parsed],
      by simp only [Heartbeats.evaluateWithNow, parsed]⟩
  | ok spec =>
    cases windowed : FiringWindow.parse spec with
    | error reason => exact ⟨reason, by simp only [evaluateWithNow, parsed, windowed],
        by simp only [Heartbeats.evaluateWithNow, parsed, windowed]⟩
    | ok w =>
      have low : everySeconds spec < 1 := not_le.mp fun pos => other spec w ⟨frequency, parsed, windowed, pos⟩
      refine ⟨"every_seconds must be >= 1 (got " ++ toString (everySeconds spec) ++ ")", ?_, ?_⟩
      · simp only [evaluateWithNow, parsed, windowed, if_pos frequency, evaluateInterval, if_pos low]
      · simp only [Heartbeats.evaluateWithNow, parsed, windowed, if_pos frequency, Heartbeats.evaluateInterval, if_pos low]

theorem hourly_unique {spec' : Value} {window' : Option FiringWindow} (hourly : Hourly zone hb spec window)
    (again : Hourly zone hb spec' window') : spec = spec' ∧ window = window' := by
  obtain rfl := Except.ok.inj (hourly.parsed.symm.trans again.parsed)
  exact ⟨rfl, Except.ok.inj (hourly.windowed.symm.trans again.windowed)⟩

/-- While dates fit, the evaluator answers as it would without bounds on them. -/
theorem evaluateWithNow_eq (ranged : zone.Ranged) (frequency : hb.frequency = "hourly") (here : InRange now)
    (fits : EvaluateFits zone hb now) : evaluateWithNow zone hb now = some (Heartbeats.evaluateWithNow zone hb now) := by
  by_cases known : ∃ spec window, Hourly zone hb spec window
  · obtain ⟨spec, window, hourly⟩ := known
    have start := scheduleReference_inRange ranged hb
    rw [hourly_checked hourly, hourly.evaluate]
    by_cases pending : ∃ k, Pending zone (everySeconds spec) (scheduleReference zone hb) window now k
    · obtain ⟨k, pending⟩ := pending
      exact evaluateEvery_pending hourly.pos start here pending
    · have calm := not_exists.mp pending
      rw [evaluateEvery_not_pending hourly.pos start here calm, nextAnswer_eq start (fits spec window hourly calm),
        unchecked_not_pending hourly.pos calm]
  · obtain ⟨reason, checked, unchecked⟩ := not_hourly_checked frequency (fun spec window hourly => known ⟨spec, window, hourly⟩) now
    rw [checked, unchecked]

theorem evaluateWithNow_stops (ranged : zone.Ranged) (here : InRange now) (out : ¬EvaluateFits zone hb now) :
    evaluateWithNow zone hb now = none := by
  unfold EvaluateFits at out
  push Not at out
  obtain ⟨spec, window, hourly, calm, out⟩ := out
  have start := scheduleReference_inRange ranged hb
  rw [hourly_checked hourly, evaluateEvery_not_pending hourly.pos start here calm, nextAnswer_stops hourly.pos start out]

theorem evaluateWithNow_isSome (ranged : zone.Ranged) (frequency : hb.frequency = "hourly") (here : InRange now) :
    (evaluateWithNow zone hb now).isSome ↔ EvaluateFits zone hb now := by
  by_cases fits : EvaluateFits zone hb now
  · simp [evaluateWithNow_eq ranged frequency here fits, fits]
  · simp [evaluateWithNow_stops ranged here fits, fits]

theorem firstSlotAfterReference_isSome : (firstSlotAfterReference zone hb).isSome =
    (evaluateWithNow zone hb (scheduleReference zone hb)).isSome := by
  rw [firstSlotAfterReference]
  cases evaluateWithNow zone hb (scheduleReference zone hb) with
  | none => rfl
  | some status => cases status <;> rfl

theorem nextFireTimeAfter_isSome {cronNext : Value → String → Int → Option Int} {after : Int} (here : InRange after)
    (frequency : hb.frequency = "hourly") : (nextFireTimeAfter zone cronNext hb after).isSome ↔
      ∀ spec, zone.fromStr hb.specJson = .ok spec → InRange (after + ofSecs (everySeconds spec)) := by
  cases parsed : zone.fromStr hb.specJson with
  | error e => simp [nextFireTimeAfter, parsed]
  | ok spec => simp [nextFireTimeAfter, parsed, frequency, addSeconds_eq here, apply_ite]

/-! ## The estimate -/

/-- The next day is a date, unless the window opens today. -/
def Opens (zone : Zone) (w : FiringWindow) (now : Int) : Prop :=
  InRange (now + zone.offset now) ∧
    ((∃ t, atDay zone w ((now + zone.offset now) / nsPerDay) = some t ∧ now < t) ∨ InRange (now + nsPerDay))

theorem windowOpensAfter_isSome {w : FiringWindow} : (windowOpensAfter zone w now).isSome ↔ Opens zone w now := by
  unfold windowOpensAfter Opens
  split
  next here =>
    cases found : (atDay zone w ((now + zone.offset now) / nsPerDay)).filter (now < ·) with
    | some t =>
      obtain ⟨today, later⟩ := Option.filter_eq_some_iff.mp found
      simp only [found, here, Option.isSome_some, true_and, true_iff]
      exact .inl ⟨t, today, of_decide_eq_true later⟩
    | none =>
      have not_today : ¬∃ t, atDay zone w ((now + zone.offset now) / nsPerDay) = some t ∧ now < t := by
        rintro ⟨t, today, later⟩
        rw [today, Option.filter_some, if_pos (decide_eq_true later)] at found
        cases found
      simp [found, here, not_today, addDuration, apply_ite]
  next away => simp [away]

/-- The estimate stops where the evaluation does, on a skipped row's own evaluation from
`now`, or on the next day of a held one. -/
def EstimateFits (zone : Zone) (hb : AgentHeartbeat) (now : Int) : Prop :=
  EvaluateFits zone hb now ∧ ∀ spec window k, Hourly zone hb spec window →
    Latest (Pending zone (everySeconds spec) (scheduleReference zone hb) window now) k →
      let age := numSeconds (now - Heartbeats.occurrence (scheduleReference zone hb) (everySeconds spec) k)
      (age > missedRunGraceSecs → EvaluateFits zone (anchored zone hb now) now) ∧
        (¬age > missedRunGraceSecs → ∀ w, window = some w → w.contains zone now = false → Opens zone w now)

theorem estimateFits_iff (hourly : Hourly zone hb spec window) {k : Int}
    (latest : Latest (Pending zone (everySeconds spec) (scheduleReference zone hb) window now) k) :
    let age := numSeconds (now - Heartbeats.occurrence (scheduleReference zone hb) (everySeconds spec) k)
    EstimateFits zone hb now ↔ EvaluateFits zone hb now ∧
      (age > missedRunGraceSecs → EvaluateFits zone (anchored zone hb now) now) ∧
        (¬age > missedRunGraceSecs → ∀ w, window = some w → w.contains zone now = false → Opens zone w now) := by
  refine and_congr_right fun _ => ⟨fun all => all spec window k hourly latest, fun one => ?_⟩
  rintro spec' window' k' again latest'
  obtain ⟨rfl, rfl⟩ := hourly_unique hourly again
  obtain rfl : k = k' := Int.le_antisymm (latest'.2 k latest.1) (latest.2 k' latest'.1)
  exact one

theorem nextFireEstimate_isSome_nextSlot : (nextFireEstimate zone hb now).isSome = (nextSlot zone hb now).isSome := by
  rw [nextFireEstimate]
  cases nextSlot zone hb now <;> rfl

theorem nextSlot_isSome (ranged : zone.Ranged) (frequency : hb.frequency = "hourly") (here : InRange now) :
    (nextSlot zone hb now).isSome ↔ EstimateFits zone hb now := by
  by_cases fits : EvaluateFits zone hb now
  swap
  · simp [nextSlot, evaluateWithNow_stops ranged here fits, EstimateFits, fits]
  have answer := evaluateWithNow_eq ranged frequency here fits
  by_cases known : ∃ spec window, Hourly zone hb spec window
  swap
  · obtain ⟨reason, checked, -⟩ := not_hourly_checked frequency (fun spec window hourly => known ⟨spec, window, hourly⟩) now
    simp only [nextSlot, checked, Option.bind_eq_bind, Option.bind_some, EstimateFits]
    refine ⟨fun _ => ⟨fits, fun spec window _ hourly _ => absurd ⟨spec, window, hourly⟩ known⟩, fun _ => rfl⟩
  obtain ⟨spec, window, hourly⟩ := known
  have policy := evaluateEvery_missPolicy zone (scheduleReference zone hb) now window hourly.pos
  rw [← hourly.evaluate] at policy
  by_cases pending : ∃ k, Pending zone (everySeconds spec) (scheduleReference zone hb) window now k
  swap
  · obtain ⟨next, notYet⟩ := policy.notYet.mpr (not_exists.mp pending)
    rw [notYet] at answer
    simp only [nextSlot, answer, Option.bind_eq_bind, Option.bind_some, EstimateFits]
    refine ⟨fun _ => ⟨fits, fun spec' window' k again latest => ?_⟩, fun _ => rfl⟩
    obtain ⟨rfl, rfl⟩ := hourly_unique hourly again
    exact absurd ⟨k, latest.1⟩ pending
  obtain ⟨j, pending⟩ := pending
  obtain ⟨k, latest⟩ := policy.some_latest j pending
  refine Iff.trans ?_ (estimateFits_iff hourly latest).symm
  rw [and_iff_right fits]
  by_cases old : numSeconds (now - Heartbeats.occurrence (scheduleReference zone hb) (everySeconds spec) k) > missedRunGraceSecs
  · rw [policy.skipped k latest old] at answer
    rw [and_iff_left fun young => absurd old young, forall_prop_of_true old,
      ← evaluateWithNow_isSome ranged (show (anchored zone hb now).frequency = _ from frequency) here]
    simp only [nextSlot, answer, Option.bind_eq_bind, Option.bind_some]
    cases evaluateWithNow zone (anchored zone hb now) now with
    | none => exact Iff.rfl
    | some status => cases status <;> exact Iff.rfl
  rw [and_iff_right fun older => absurd older old, forall_prop_of_true old]
  cases allowed : inWindow zone window now with
  | true =>
    refine ⟨fun _ w same closed => ?_, fun _ => ?_⟩
    · rw [same, inWindow, Option.all_some, closed] at allowed
      cases allowed
    · by_cases only : (∀ j, Pending zone (everySeconds spec) (scheduleReference zone hb) window now j → j = k) ∧
          numSeconds (now - Heartbeats.occurrence (scheduleReference zone hb) (everySeconds spec) k) ≤ onTimeGraceSecs
      · rw [policy.due k latest old allowed only.1 only.2] at answer
        simp [nextSlot, answer]
      · rw [policy.catchUp k latest old allowed only] at answer
        simp [nextSlot, answer]
  | false =>
    rw [policy.held k latest old allowed] at answer
    cases window with
    | none => cases allowed
    | some w =>
      simp only [nextSlot, answer, Option.bind_eq_bind, Option.bind_some, hourly.parsed, hourly.windowed, Except.toOption, id]
      refine Iff.trans ?_ (windowOpensAfter_isSome.trans ⟨fun opens w' same _ => Option.some.inj same ▸ opens, fun all => ?_⟩)
      · cases windowOpensAfter zone w now <;> exact Iff.rfl
      · exact all w rfl allowed

/-- The window starts on dates today and tomorrow. -/
def DaysFit (zone : Zone) (w : FiringWindow) (now : Int) : Prop :=
  let today := (now + zone.offset now) / nsPerDay
  atDay zone w today = Heartbeats.atDay zone w today ∧ atDay zone w (today + 1) = Heartbeats.atDay zone w (today + 1)

theorem windowOpensAfter_eq {w : FiringWindow} (opens : Opens zone w now) (days : DaysFit zone w now) :
    windowOpensAfter zone w now = some (Heartbeats.windowOpensAfter zone w now) := by
  obtain ⟨today, tomorrow⟩ := days
  unfold windowOpensAfter Heartbeats.windowOpensAfter
  rw [if_pos opens.1]
  simp only [today, tomorrow]
  cases found : (Heartbeats.atDay zone w ((now + zone.offset now) / nsPerDay)).filter (now < ·) with
  | some t => rfl
  | none =>
    have next_day : InRange (now + nsPerDay) := by
      refine opens.2.resolve_left ?_
      rintro ⟨t, here, later⟩
      rw [← today, here, Option.filter_some, if_pos (decide_eq_true later)] at found
      cases found
    simp only [addDuration, if_pos next_day, Option.map_some]

theorem nextSlot_eq (ranged : zone.Ranged) (frequency : hb.frequency = "hourly") (here : InRange now)
    (fits : EstimateFits zone hb now) (days : ∀ w, DaysFit zone w now) :
    nextSlot zone hb now = some (Heartbeats.nextSlot zone hb now) := by
  have returns := (nextSlot_isSome ranged frequency here).mpr fits
  have answer := evaluateWithNow_eq ranged frequency here fits.1
  simp only [nextSlot, answer, Option.bind_eq_bind, Option.bind_some] at returns ⊢
  rw [Heartbeats.nextSlot]
  generalize Heartbeats.evaluateWithNow zone hb now = status at returns ⊢
  cases status with
  | due _ | dueCatchUp _ | notYet _ | invalid _ => rfl
  | holdWindow occ =>
    simp only at returns ⊢
    cases parsed : (zone.fromStr hb.specJson).toOption with
    | none => rfl
    | some spec =>
      cases windowed : (FiringWindow.parse spec).toOption with
      | none => simp [windowed]
      | some window =>
        cases window with
        | none => simp [windowed]
        | some w =>
          simp only [parsed, windowed, Option.bind_some, id] at returns ⊢
          have opens : (windowOpensAfter zone w now).isSome := by
            cases opened : windowOpensAfter zone w now with
            | none =>
              rw [opened] at returns
              cases returns
            | some t => rfl
          rw [windowOpensAfter_eq (windowOpensAfter_isSome.mp opens) (days w)]
          simp [windowed]
  | skippedMissed occ =>
    simp only at returns ⊢
    cases again : evaluateWithNow zone (anchored zone hb now) now with
    | none =>
      rw [again] at returns
      cases returns
    | some status =>
      have hourly' : (anchored zone hb now).frequency = "hourly" := frequency
      have fits' := (evaluateWithNow_isSome ranged hourly' here).mp (by rw [again]; rfl)
      cases again.symm.trans (evaluateWithNow_eq ranged hourly' here fits')
      cases Heartbeats.evaluateWithNow zone (anchored zone hb now) now <;> rfl

/-- While dates fit, the estimate is what it would be without bounds on them. -/
theorem nextFireEstimate_eq (ranged : zone.Ranged) (frequency : hb.frequency = "hourly") (here : InRange now)
    (fits : EstimateFits zone hb now) (days : ∀ w, DaysFit zone w now) :
    nextFireEstimate zone hb now = some (Heartbeats.nextFireEstimate zone hb now) := by
  rw [nextFireEstimate, nextSlot_eq ranged frequency here fits days, Heartbeats.nextFireEstimate]
  cases Heartbeats.nextSlot zone hb now with
  | none => rfl
  | some t => cases hb.nextRetryAt.bind zone.parseFromRfc3339 <;> simp

/-- When each of the four returns. -/
theorem returns_iff (ranged : zone.Ranged) (frequency : hb.frequency = "hourly") (here : InRange now) {after : Int}
    (later : InRange after) (cronNext : Value → String → Int → Option Int) :
    ((evaluateWithNow zone hb now).isSome ↔ EvaluateFits zone hb now) ∧
      ((nextFireEstimate zone hb now).isSome ↔ EstimateFits zone hb now) ∧
      ((firstSlotAfterReference zone hb).isSome ↔ EvaluateFits zone hb (scheduleReference zone hb)) ∧
      ((nextFireTimeAfter zone cronNext hb after).isSome ↔
        ∀ spec, zone.fromStr hb.specJson = .ok spec → InRange (after + ofSecs (everySeconds spec))) := by
  refine ⟨evaluateWithNow_isSome ranged frequency here, ?_, ?_, nextFireTimeAfter_isSome later frequency⟩
  · rw [nextFireEstimate_isSome_nextSlot]
    exact nextSlot_isSome ranged frequency here
  · rw [firstSlotAfterReference_isSome]
    exact evaluateWithNow_isSome ranged frequency (scheduleReference_inRange ranged hb)

def endless : String := "\x7b\"every_seconds\":9223372036854775807\x7d"

def endlessFromStr (s : String) : Except String Value :=
  if s = endless then .ok (.object [("every_seconds", .number (.int 9223372036854775807))]) else officeFromStr s

def utcDates : Zone := { utc with parseFromRfc3339 := fun s => s.toInt?.filter (InRange ·), fromStr := endlessFromStr }

theorem utcDates_ranged : utcDates.Ranged where
  parsed s t read := of_decide_eq_true (Option.filter_eq_some_iff.mp read).2
  localNow := by decide

theorem returns_iff_eachHour :
    ((evaluateWithNow utcDates (officeRow eachHour) pastTen).isSome ↔ EvaluateFits utcDates (officeRow eachHour) pastTen) ∧
      ((nextFireEstimate utcDates (officeRow eachHour) pastTen).isSome ↔
        EstimateFits utcDates (officeRow eachHour) pastTen) ∧
      ((firstSlotAfterReference utcDates (officeRow eachHour)).isSome ↔
        EvaluateFits utcDates (officeRow eachHour) (scheduleReference utcDates (officeRow eachHour))) ∧
      ((nextFireTimeAfter utcDates (fun _ _ _ => none) (officeRow eachHour) pastTen).isSome ↔
        ∀ spec, utcDates.fromStr (officeRow eachHour).specJson = .ok spec →
          InRange (pastTen + ofSecs (everySeconds spec))) :=
  returns_iff utcDates_ranged rfl (by decide) (by decide) _

/-- The policy of an interval row while dates fit, and its rest after a fire. -/
theorem hourly_missPolicy (ranged : zone.Ranged) (hourly : Hourly zone hb spec window) (here : InRange now)
    (stamps : zone.Stamps now) :
    (EvaluateFits zone hb now → ∃ status, evaluateWithNow zone hb now = some status ∧
      MissPolicy (Pending zone (everySeconds spec) (scheduleReference zone hb) window now)
        (fun k => numSeconds (now - Heartbeats.occurrence (scheduleReference zone hb) (everySeconds spec) k) > missedRunGraceSecs)
        (fun k => numSeconds (now - Heartbeats.occurrence (scheduleReference zone hb) (everySeconds spec) k) ≤ onTimeGraceSecs)
        (Heartbeats.occurrence (scheduleReference zone hb) (everySeconds spec)) (inWindow zone window now) status) ∧
    ∀ t status, InRange t → t < now + ofSecs (everySeconds spec) →
      evaluateWithNow zone (fired zone hb now) t = some status → status.fires = false := by
  constructor
  · intro fits
    refine ⟨_, evaluateWithNow_eq ranged hourly.frequency here fits, ?_⟩
    rw [hourly.evaluate]
    exact evaluateEvery_missPolicy _ _ _ _ hourly.pos
  · intro t status there soon answer
    have frequency : (fired zone hb now).frequency = "hourly" := hourly.frequency
    have fits := (evaluateWithNow_isSome ranged frequency there).mp (by rw [answer]; rfl)
    cases answer.symm.trans (evaluateWithNow_eq ranged frequency there fits)
    exact fired_waits stamps hourly soon

theorem eachHour_missPolicy : ∃ status, evaluateWithNow utcDates (officeRow eachHour) pastTen = some status ∧
    MissPolicy (Pending utcDates 3600 (ofSecs 1782950400) (some ⟨540, 1020⟩) pastTen)
      (fun k => numSeconds (pastTen - Heartbeats.occurrence (ofSecs 1782950400) 3600 k) > missedRunGraceSecs)
      (fun k => numSeconds (pastTen - Heartbeats.occurrence (ofSecs 1782950400) 3600 k) ≤ onTimeGraceSecs)
      (Heartbeats.occurrence (ofSecs 1782950400) 3600) (inWindow utcDates (some ⟨540, 1020⟩) pastTen) status := by
  have parsed : endlessFromStr eachHour = .ok (officeSpec 3600) := (if_neg (by decide)).trans fromStr_eachHour
  have hourly : Hourly utcDates (officeRow eachHour) (officeSpec 3600) (some ⟨540, 1020⟩) :=
    ⟨rfl, parsed, by decide +kernel, by decide⟩
  have stamps : utcDates.Stamps pastTen := by
    have read : (toString pastTen).toInt? = some pastTen := Int.toInt?_repr pastTen
    simp only [Zone.Stamps, utcDates, utc, read]
    rfl
  refine (hourly_missPolicy utcDates_ranged hourly (by decide) stamps).1 fun spec window again calm => ?_
  obtain ⟨rfl, rfl⟩ := hourly_unique hourly again
  exact absurd ⟨by decide, by decide, by decide, by decide +kernel⟩ (calm 10)

/-- `every_seconds` at the end of `i64`: each of the four stops. -/
theorem endless_stops :
    utcDates.Ranged ∧ InRange pastTen ∧ evaluateWithNow utcDates (officeRow endless) pastTen = none ∧
      nextFireEstimate utcDates (officeRow endless) pastTen = none ∧
      firstSlotAfterReference utcDates (officeRow endless) = none ∧
      nextFireTimeAfter utcDates (fun _ _ _ => none) (officeRow endless) pastTen = none :=
  ⟨utcDates_ranged, by decide, by decide +kernel, by decide +kernel, by decide +kernel, by decide +kernel⟩

end Checked

end K2.Heartbeats
