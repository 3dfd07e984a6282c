import K2.Heartbeats.Slots
import Mathlib

/-! # Waking in time

The wake estimate of an interval row against the instants at which the row fires.
-/

namespace K2.Heartbeats

variable {zone : Zone} {every reference now : Int} {window : Option FiringWindow}

/-! ## The evaluator's answer -/

/-- The answers on which the tick fires. -/
def DueStatus.fires : DueStatus → Bool
  | due _ | dueCatchUp _ => true
  | _ => false

theorem classify_fires {occ t : Int} {multiple : Bool}
    (fires : (classify zone occ t window multiple).fires = true) : inWindow zone window t = true := by
  unfold classify at fires
  split at fires
  · cases fires
  split at fires
  · cases fires
  next here => simpa using here

theorem classify_on_time {t : Int} {multiple : Bool} (here : inWindow zone window t = true) :
    (classify zone t t window multiple).fires = true := by
  have fresh : ¬ numSeconds (t - t) > missedRunGraceSecs := by rw [Int.sub_self]; decide
  rw [classify, if_neg fresh, if_neg (by simp [here])]
  split <;> rfl

theorem evaluateEvery_fires (pos : 1 ≤ every) {t : Int} (fires : (evaluateEvery zone every reference t window).fires = true) :
    inWindow zone window t = true ∧ ∃ j, 1 ≤ j ∧ occurrence reference every j ≤ t ∧
      kMax every reference t - walkCap < j ∧ inWindow zone window (occurrence reference every j) = true := by
  unfold evaluateEvery at fires
  dsimp only at fires
  split at fires
  · cases fires
  split at fires
  next latest multiple found =>
    obtain ⟨j, first, le, near, -, here⟩ := walkBack_some (congrArg Prod.fst found)
    exact ⟨classify_fires fires, j, first, (le_kMax pos first).mp le, near, here⟩
  · cases fires

theorem evaluateEvery_slot (pos : 1 ≤ every) {k : Int} (first : 1 ≤ k)
    (here : inWindow zone window (occurrence reference every k) = true) :
    (evaluateEvery zone every reference (occurrence reference every k) window).fires = true := by
  have index : (numSeconds (occurrence reference every k - reference)).tdiv every = k := kMax_occurrence pos first
  have latest : (walkBack zone (occurrence reference every) window walkCap k none).1 = some (occurrence reference every k) := by
    rw [walkCap, walkBack, if_neg (by omega), if_pos here]
    exact walkBack_keeps
  unfold evaluateEvery
  rw [index]
  dsimp only
  rw [if_neg (by omega)]
  split
  next found =>
    rw [found] at latest
    cases latest
    exact classify_on_time here
  next found =>
    rw [found] at latest
    cases latest

theorem evaluateEvery_notYet {next : Option Int} (notYet : evaluateEvery zone every reference now window = .notYet next) :
    (∀ j, 1 ≤ j → j ≤ kMax every reference now → kMax every reference now - walkCap < j →
      inWindow zone window (occurrence reference every j) = false) ∧
    next = nextInWindow zone (slotAfter every reference now 0) (· + ofSecs every) window := by
  unfold evaluateEvery at notYet
  dsimp only at notYet
  have start {k : Int} (eq : max (kMax every reference now) 0 + 1 = k) :
      slotAfter every reference now 0 = occurrence reference every k := by
    rw [slotAfter, eq, Nat.cast_zero, Int.add_zero]
  split at notYet
  next early =>
    have early : kMax every reference now < 1 := early
    rw [start (by omega : max (kMax every reference now) 0 + 1 = 1)]
    exact ⟨fun j first le => by omega, (DueStatus.notYet.inj notYet).symm⟩
  next late =>
    have late : ¬ kMax every reference now < 1 := late
    split at notYet
    · unfold classify at notYet
      repeat' split at notYet
      all_goals cases notYet
    next found =>
      rw [start (by omega : max (kMax every reference now) 0 + 1 = kMax every reference now + 1)]
      exact ⟨fun j first le near => walkBack_none (congrArg Prod.fst found) first le near,
        (DueStatus.notYet.inj notYet).symm⟩

theorem evaluateEvery_holdWindow {occ : Int} (hold : evaluateEvery zone every reference now window = .holdWindow occ) :
    inWindow zone window now = false := by
  unfold evaluateEvery at hold
  dsimp only at hold
  split at hold
  · cases hold
  split at hold
  · unfold classify at hold
    split at hold
    · cases hold
    split at hold
    next closed => simpa using closed
    · split at hold <;> cases hold
  · cases hold

/-- A slot that was missed lies before `now`, and so does the reference. -/
theorem evaluateEvery_skippedMissed (pos : 1 ≤ every) {occ : Int}
    (skipped : evaluateEvery zone every reference now window = .skippedMissed occ) : reference < now := by
  unfold evaluateEvery at skipped
  dsimp only at skipped
  split at skipped
  · cases skipped
  next late =>
    have late : 1 ≤ kMax every reference now := not_lt.mp late
    have first := (le_kMax pos (Int.le_refl 1)).mp late
    rw [occurrence, ofSecs] at first
    omega

theorem evaluateEvery_ne_invalid (reason : String) : evaluateEvery zone every reference now window ≠ .invalid reason := by
  unfold evaluateEvery
  dsimp only
  split
  · nofun
  split
  · unfold classify
    repeat' split
    all_goals nofun
  · nofun

/-! ## Slots and fires -/

/-- While the row is not yet due, the first fire is the next slot in the window. -/
theorem slot_le_fire (pos : 1 ≤ every) {next : Option Int} (notYet : evaluateEvery zone every reference now window = .notYet next)
    {t : Int} (later : now ≤ t) (fires : (evaluateEvery zone every reference t window).fires = true) :
    ∃ n, inWindow zone window (slotAfter every reference now n) = true ∧ slotAfter every reference now n ≤ t := by
  obtain ⟨-, j, first, le, near, here⟩ := evaluateEvery_fires pos fires
  have closed := (evaluateEvery_notYet notYet).1
  have later_index : kMax every reference now ≤ max (kMax every reference t) 0 := by
    by_cases begun : 1 ≤ kMax every reference now
    · have reached := ((le_kMax pos begun).mp (Int.le_refl _)).trans later
      exact ((le_kMax pos begun).mpr reached).trans (Int.le_max_left ..)
    · omega
  have ahead : max (kMax every reference now) 0 < j := by
    by_contra behind
    have old := closed j first (by omega) (by
      have := (le_kMax pos first).mpr le
      omega)
    rw [here] at old
    cases old
  have index : max (kMax every reference now) 0 + 1 + ((j - (max (kMax every reference now) 0 + 1)).toNat : Int) = j := by omega
  refine ⟨(j - (max (kMax every reference now) 0 + 1)).toNat, ?_, ?_⟩
  · rw [slotAfter, index]
    exact here
  · rw [slotAfter, index]
    exact le

theorem slotAfter_mono (pos : 1 ≤ every) {m n : Nat} (le : m ≤ n) :
    slotAfter every reference now m ≤ slotAfter every reference now n :=
  occurrence_mono pos (by omega)

theorem slotAfter_later (pos : 1 ≤ every) (n : Nat) : now < slotAfter every reference now n := by
  by_contra reached
  have index := (le_kMax pos (by omega)).mpr (not_lt.mp reached)
  omega

/-! ## The window opens -/

variable {east : Int}

/-- The local minute that a time lies in. -/
def minute (zone : Zone) (t : Int) : Int := (t + zone.offset t) / nsPerMinute

theorem minute_le (fixed : zone.Fixed east) {m t : Int} : m ≤ minute zone t ↔ m * nsPerMinute - east ≤ t := by
  rw [minute, fixed.offset, Int.le_ediv_iff_mul_le (by decide)]
  omega

theorem contains_iff {w : FiringWindow} {t : Int} : w.contains zone t = true ↔
    if w.startMins ≤ w.endMins then
      (w.startMins : Nat) ≤ minute zone t % 1440 ∧ minute zone t % 1440 < (w.endMins : Nat)
    else (w.startMins : Nat) ≤ minute zone t % 1440 ∨ minute zone t % 1440 < (w.endMins : Nat) := by
  have mins : minuteOfDay zone t = minute zone t % 1440 := rfl
  simp only [FiringWindow.contains, mins]
  split <;> simp

theorem windowOpensAfter_minute (fixed : zone.Fixed east) (now : Int) (w : FiringWindow) :
    ∃ m : Int, windowOpensAfter zone w now = m * nsPerMinute - east ∧
    m = (if minute zone now / 1440 * 1440 + (w.startMins : Nat) > minute zone now then minute zone now / 1440 * 1440 + (w.startMins : Nat)
      else (minute zone now / 1440 + 1) * 1440 + (w.startMins : Nat)) := by
  have today : (now + zone.offset now) / nsPerDay = minute zone now / 1440 := by
    rw [minute, Int.ediv_ediv_of_nonneg (by decide)]
    rfl
  have day (d : Int) : atDay zone w d = some ((d * 1440 + (w.startMins : Nat)) * nsPerMinute - east) := by
    rw [atDay, fixed.fromLocal, nsPerDay, Int.add_mul, Int.mul_assoc]
  have opens : now < (minute zone now / 1440 * 1440 + (w.startMins : Nat)) * nsPerMinute - east ↔
      minute zone now / 1440 * 1440 + (w.startMins : Nat) > minute zone now := by
    rw [gt_iff_lt, ← not_le, ← not_le, not_iff_not, minute_le fixed]
  refine ⟨_, ?_, rfl⟩
  simp only [windowOpensAfter, today, day, Option.filter_some, decide_eq_true_eq, opens]
  by_cases later : minute zone now / 1440 * 1440 + (w.startMins : Nat) > minute zone now
  · simp only [if_pos later]
  · simp only [if_neg later, Option.getD_some]

theorem windowOpensAfter_le (fixed : zone.Fixed east) {w : FiringWindow} {t : Int} (closed : w.contains zone now = false) (later : now ≤ t)
    (here : w.contains zone t = true) : windowOpensAfter zone w now ≤ t := by
  have closed : ¬ w.contains zone now = true := by simp [closed]
  rw [contains_iff] at closed here
  have order : minute zone now ≤ minute zone t := by
    rw [minute, minute, fixed.offset, fixed.offset]
    exact Int.ediv_le_ediv (by decide) (by omega)
  obtain ⟨m, opens, eq⟩ := windowOpensAfter_minute fixed now w
  rw [opens, ← minute_le fixed, eq]
  have bound := w.startMins.isLt
  generalize minute zone now = a at *
  generalize minute zone t = b at *
  split at closed
  next ordered =>
    rw [if_pos ordered] at here
    split <;> omega
  next overnight =>
    rw [if_neg overnight] at here
    split <;> omega

/-! ## Rows -/

variable {hb : AgentHeartbeat}

/-- The interval schedule that a row's spec describes. -/
structure Hourly (zone : Zone) (hb : AgentHeartbeat) (spec : Value) (window : Option FiringWindow) : Prop where
  frequency : hb.frequency = "hourly"
  parsed : zone.fromStr hb.specJson = .ok spec
  windowed : FiringWindow.parse spec = .ok window
  pos : 1 ≤ everySeconds spec

theorem Hourly.evaluate {spec : Value} (hourly : Hourly zone hb spec window) (t : Int) :
    evaluateWithNow zone hb t = evaluateEvery zone (everySeconds spec) (scheduleReference zone hb) t window := by
  simp only [evaluateWithNow, hourly.parsed, hourly.windowed, if_pos hourly.frequency, evaluateInterval]
  rw [if_neg (not_lt.mpr hourly.pos)]

theorem Hourly.anchored {spec : Value} (hourly : Hourly zone hb spec window) (now : Int) :
    Hourly zone (anchored zone hb now) spec window := ⟨hourly.frequency, hourly.parsed, hourly.windowed, hourly.pos⟩

/-- A row either has an interval schedule or is invalid at every time. -/
theorem hourly_or_invalid (zone : Zone) (frequency : hb.frequency = "hourly") :
    (∃ spec window, Hourly zone hb spec window) ∨ ∃ reason, ∀ t, evaluateWithNow zone hb t = .invalid reason := by
  cases parsed : zone.fromStr hb.specJson with
  | error e => exact .inr ⟨"spec_json is not valid JSON: " ++ e, fun t => by simp only [evaluateWithNow, parsed]⟩
  | ok spec =>
      cases window : FiringWindow.parse spec with
      | error reason => exact .inr ⟨reason, fun t => by simp only [evaluateWithNow, parsed, window]⟩
      | ok w =>
          by_cases pos : 1 ≤ everySeconds spec
          · exact .inl ⟨spec, w, frequency, parsed, window, pos⟩
          · refine .inr ⟨"every_seconds must be >= 1 (got " ++ toString (everySeconds spec) ++ ")", fun t => ?_⟩
            simp only [evaluateWithNow, parsed, window, if_pos frequency, evaluateInterval]
            rw [if_pos (not_le.mp pos)]

theorem scheduleReference_anchored (stamps : zone.Stamps now) (later : scheduleReference zone hb < now) :
    scheduleReference zone (anchored zone hb now) = now := by
  unfold scheduleReference at later ⊢
  rw [Zone.Stamps] at stamps
  simp only [anchored, Option.bind_some, stamps]
  cases fired : hb.lastFired.bind zone.parseFromRfc3339 with
  | none => rfl
  | some f =>
      rw [fired] at later
      cases anchor : hb.scheduleAnchorAt.bind zone.parseFromRfc3339 with
      | none =>
          simp only [anchor] at later
          exact max_eq_right later.le
      | some a =>
          simp only [anchor] at later
          exact max_eq_right ((le_max_left f a).trans_lt later).le

/-! ## The estimate -/

/-- The row whose fires are awaited: a row whose miss is skipped is anchored at `now`. -/
def planned (zone : Zone) (hb : AgentHeartbeat) (now : Int) : AgentHeartbeat :=
  match evaluateWithNow zone hb now with
  | .skippedMissed _ => anchored zone hb now
  | _ => hb

/-- The first instant from `now` on at which a row fires. -/
def FirstFire (zone : Zone) (hb : AgentHeartbeat) (now t : Int) : Prop :=
  now ≤ t ∧ (evaluateWithNow zone hb t).fires = true ∧
    ∀ u, now ≤ u → (evaluateWithNow zone hb u).fires = true → t ≤ u

/-- The daemon wakes for the row's next fire, or for the end of its backoff. -/
def WakesInTime (zone : Zone) (hb : AgentHeartbeat) (now : Int) : Prop :=
  ∀ t, FirstFire zone (planned zone hb now) now t → ∃ e, nextFireEstimate zone hb now = some e ∧
    (e ≤ t ∨ ∃ retry, hb.nextRetryAt.bind zone.parseFromRfc3339 = some retry ∧ e ≤ retry)

/-- Of the slots after `now`, one of the first 400 is in the window if any is, as long
    as the row is not yet due. -/
def SlotNear (zone : Zone) (hb : AgentHeartbeat) (now : Int) : Prop :=
  ∀ spec window next, Hourly zone (planned zone hb now) spec window →
    evaluateWithNow zone (planned zone hb now) now = .notYet next →
    (∃ n, inWindow zone window
      (slotAfter (everySeconds spec) (scheduleReference zone (planned zone hb now)) now n) = true) →
    ∃ n < nextWalkCap, inWindow zone window
      (slotAfter (everySeconds spec) (scheduleReference zone (planned zone hb now)) now n) = true

theorem estimate_of_slot {slotTime t : Int} (slot : nextSlot zone hb now = some slotTime) (le : slotTime ≤ t) :
    ∃ e, nextFireEstimate zone hb now = some e ∧
      (e ≤ t ∨ ∃ retry, hb.nextRetryAt.bind zone.parseFromRfc3339 = some retry ∧ e ≤ retry) := by
  cases backoff : hb.nextRetryAt.bind zone.parseFromRfc3339 with
  | none => exact ⟨slotTime, by simp [nextFireEstimate, slot, backoff], .inl le⟩
  | some retry =>
      by_cases later : retry > slotTime
      · exact ⟨retry, by simp [nextFireEstimate, slot, backoff, later], .inr ⟨retry, rfl, le_rfl⟩⟩
      · exact ⟨slotTime, by simp [nextFireEstimate, slot, backoff, later], .inl le⟩

theorem estimate_none (slot : nextSlot zone hb now = none) : nextFireEstimate zone hb now = none := by
  rw [nextFireEstimate, slot]
  rfl

/-- While a row is not yet due, the estimate is right if and only if the forward walk
    reaches the next slot in the window. -/
theorem wakes_iff_near {row : AgentHeartbeat} {spec : Value} (hourly : Hourly zone row spec window) {next : Option Int}
    (notYet : evaluateWithNow zone row now = .notYet next) (slot : nextSlot zone hb now = next) :
    (∀ t, FirstFire zone row now t → ∃ e, nextFireEstimate zone hb now = some e ∧
      (e ≤ t ∨ ∃ retry, hb.nextRetryAt.bind zone.parseFromRfc3339 = some retry ∧ e ≤ retry)) ↔
    ((∃ n, inWindow zone window (slotAfter (everySeconds spec) (scheduleReference zone row) now n) = true) →
      ∃ n < nextWalkCap, inWindow zone window (slotAfter (everySeconds spec) (scheduleReference zone row) now n) = true) := by
  rw [hourly.evaluate] at notYet
  obtain ⟨-, rfl⟩ := evaluateEvery_notYet notYet
  constructor
  · -- with the next slot out of the walk's reach there is no estimate, and the slot fires
    intro wakes some_slot
    by_contra far
    classical
    have least := Nat.find_spec some_slot
    have reach : nextWalkCap ≤ Nat.find some_slot := by
      by_contra near
      exact far ⟨_, not_le.mp near, least⟩
    have first : FirstFire zone row now
        (slotAfter (everySeconds spec) (scheduleReference zone row) now (Nat.find some_slot)) := by
      refine ⟨(slotAfter_later hourly.pos _).le, ?_, fun u later fires => ?_⟩
      · rw [hourly.evaluate]
        exact evaluateEvery_slot hourly.pos (by omega) least
      · rw [hourly.evaluate] at fires
        obtain ⟨n, here, le⟩ := slot_le_fire hourly.pos notYet later fires
        exact (slotAfter_mono hourly.pos (Nat.find_min' some_slot here)).trans le
    obtain ⟨e, estimate, -⟩ := wakes _ first
    rw [nextInWindow_none fun n lt => by simpa using Nat.find_min some_slot (lt.trans_le reach)] at slot
    rw [estimate_none slot] at estimate
    cases estimate
  · rintro near t ⟨later, fires, -⟩
    rw [hourly.evaluate] at fires
    obtain ⟨n, here, le⟩ := slot_le_fire hourly.pos notYet later fires
    classical
    have some_slot : ∃ n, inWindow zone window (slotAfter (everySeconds spec) (scheduleReference zone row) now n) = true :=
      ⟨n, here⟩
    obtain ⟨m, reach, found⟩ := near some_slot
    have least := nextInWindow_least hourly.pos ((Nat.find_min' some_slot found).trans_lt reach) (Nat.find_spec some_slot)
      fun k lt => by simpa using Nat.find_min some_slot lt
    exact estimate_of_slot (slot.trans least) ((slotAfter_mono hourly.pos (Nat.find_min' some_slot here)).trans le)

theorem held_opens (fixed : zone.Fixed east) {spec : Value} (hourly : Hourly zone hb spec window) {occ : Int}
    (held : evaluateWithNow zone hb now = .holdWindow occ) {t : Int} (later : now ≤ t)
    (fires : (evaluateWithNow zone hb t).fires = true) : ∃ slotTime, nextSlot zone hb now = some slotTime ∧ slotTime ≤ t := by
  have closed : inWindow zone window now = false := by
    rw [hourly.evaluate] at held
    exact evaluateEvery_holdWindow held
  have here : inWindow zone window t = true := by
    rw [hourly.evaluate] at fires
    exact (evaluateEvery_fires hourly.pos fires).1
  cases window with
  | none => cases closed
  | some w =>
      refine ⟨windowOpensAfter zone w now, ?_, windowOpensAfter_le fixed closed later here⟩
      simp [nextSlot, held, hourly.parsed, hourly.windowed, Except.toOption]

theorem wakesInTime_iff {row : AgentHeartbeat} (plan : planned zone hb now = row) {spec : Value}
    (hourly : Hourly zone row spec window) {next : Option Int} (notYet : evaluateWithNow zone row now = .notYet next)
    (slot : nextSlot zone hb now = next) : WakesInTime zone hb now ↔ SlotNear zone hb now := by
  unfold WakesInTime SlotNear
  rw [plan]
  refine (wakes_iff_near hourly notYet slot).trans
    ⟨fun near spec' window' next' hourly' _ => ?_, fun near => near spec window next hourly notYet⟩
  obtain rfl := Except.ok.inj (hourly.parsed.symm.trans hourly'.parsed)
  obtain rfl := Except.ok.inj (hourly.windowed.symm.trans hourly'.windowed)
  exact near

theorem evaluateEvery_anchored (zone : Zone) (every now : Int) (window : Option FiringWindow) :
    ∃ next, evaluateEvery zone every now now window = .notYet next := by
  have none_yet : (numSeconds (now - now)).tdiv every < 1 := by simp [numSeconds]
  unfold evaluateEvery
  rw [if_pos none_yet]
  exact ⟨_, rfl⟩

theorem estimate_iff_near (fixed : zone.Fixed east) (hb : AgentHeartbeat) (frequency : hb.frequency = "hourly")
    (now : Int) (stamps : zone.Stamps now) :
    WakesInTime zone hb now ↔ SlotNear zone hb now := by
  rcases hourly_or_invalid zone frequency with ⟨spec, window, hourly⟩ | ⟨reason, invalid⟩
  · cases status : evaluateWithNow zone hb now with
    | due occ | dueCatchUp occ =>
        have row : planned zone hb now = hb := by rw [planned, status]
        refine iff_of_true (fun t first => ?_) fun spec window next _ notYet => ?_
        · exact estimate_of_slot (by rw [nextSlot, status]) first.1
        · rw [row, status] at notYet
          cases notYet
    | holdWindow occ =>
        have row : planned zone hb now = hb := by rw [planned, status]
        refine iff_of_true (fun t first => ?_) fun spec window next _ notYet => ?_
        · rw [row] at first
          obtain ⟨slotTime, slot, le⟩ := held_opens fixed hourly status first.1 first.2.1
          exact estimate_of_slot slot le
        · rw [row, status] at notYet
          cases notYet
    | notYet next =>
        have row : planned zone hb now = hb := by rw [planned, status]
        exact wakesInTime_iff row hourly status (by rw [nextSlot, status])
    | skippedMissed occ =>
        have row : planned zone hb now = anchored zone hb now := by rw [planned, status]
        have missed : evaluateEvery zone (everySeconds spec) (scheduleReference zone hb) now window = .skippedMissed occ := by
          rw [← hourly.evaluate, status]
        have reference := scheduleReference_anchored stamps (evaluateEvery_skippedMissed hourly.pos missed)
        obtain ⟨next, notYet⟩ := evaluateEvery_anchored zone (everySeconds spec) now window
        have notYet : evaluateWithNow zone (anchored zone hb now) now = .notYet next := by
          rw [(hourly.anchored now).evaluate, reference, notYet]
        exact wakesInTime_iff row (hourly.anchored now) notYet (by rw [nextSlot, status, notYet])
    | invalid reason =>
        rw [hourly.evaluate] at status
        exact absurd status (evaluateEvery_ne_invalid reason)
  · have row : planned zone hb now = hb := by rw [planned, invalid]
    refine iff_of_true (fun t first => ?_) fun spec window next _ notYet => ?_
    · have fires := first.2.1
      rw [row, invalid] at fires
      cases fires
    · rw [row, invalid] at notYet
      cases notYet

/-! ## Office hours -/

def officeSpec (every : Int) : Value :=
  .object [("end", .string "17:00"), ("every_seconds", .number (.int every)), ("start", .string "09:00")]

/-- A row from midnight on 2 July 2026, every `every` seconds from 9 to 5. -/
def officeRow (specJson : String) : AgentHeartbeat := ⟨"hourly", specJson, none, none, none, 1782950400⟩

def eachHour : String := "\x7b\"every_seconds\":3600,\"start\":\"09:00\",\"end\":\"17:00\"\x7d"
def eachMinute : String := "\x7b\"every_seconds\":60,\"start\":\"09:00\",\"end\":\"17:00\"\x7d"

def officeFromStr (s : String) : Except String Value :=
  if s = eachHour then .ok (officeSpec 3600)
  else if s = eachMinute then .ok (officeSpec 60)
  else .error "expected value at line 1 column 1"

def utc : Zone where
  offset _ := 0
  fromLocal := some
  localNow := ofSecs 1782950400
  parseFromRfc3339 := String.toInt?
  toRfc3339 t := toString t
  fromStr := officeFromStr
  evaluateCron _ _ _ _ _ := .invalid "no cron here"

theorem utc_fixed : utc.Fixed 0 := ⟨fun _ => rfl, fun t => congrArg some (Int.sub_zero t).symm⟩

theorem utc_stamps (t : Int) : utc.Stamps t := Int.toInt?_repr t

def halfPastMidnight : Int := ofSecs (1782950400 + 30)

theorem fromStr_eachHour : officeFromStr eachHour = .ok (officeSpec 3600) := if_pos rfl

theorem fromStr_eachMinute : officeFromStr eachMinute = .ok (officeSpec 60) :=
  (if_neg (by decide)).trans (if_pos rfl)

theorem eachHour_hourly : Hourly utc (officeRow eachHour) (officeSpec 3600) (some ⟨540, 1020⟩) :=
  ⟨rfl, fromStr_eachHour, by decide +kernel, by decide⟩

theorem eachMinute_hourly : Hourly utc (officeRow eachMinute) (officeSpec 60) (some ⟨540, 1020⟩) :=
  ⟨rfl, fromStr_eachMinute, by decide +kernel, by decide⟩

theorem estimate_each_hour : WakesInTime utc (officeRow eachHour) halfPastMidnight := by
  have notYet : evaluateWithNow utc (officeRow eachHour) halfPastMidnight =
      .notYet (some (ofSecs (1782950400 + 9 * 3600))) := by decide +kernel
  have plan : planned utc (officeRow eachHour) halfPastMidnight = officeRow eachHour := by rw [planned, notYet]
  refine (estimate_iff_near utc_fixed _ rfl _ (utc_stamps _)).mpr fun spec window next hourly _ _ => ?_
  rw [plan] at hourly ⊢
  obtain rfl := Except.ok.inj (eachHour_hourly.parsed.symm.trans hourly.parsed)
  obtain rfl := Except.ok.inj (eachHour_hourly.windowed.symm.trans hourly.windowed)
  exact ⟨8, by decide, by decide +kernel⟩

/-- Every minute from 9 to 5: at midnight the walk gives up at 6:40 and there is no estimate. -/
theorem estimate_gives_up : ¬ WakesInTime utc (officeRow eachMinute) halfPastMidnight := by
  have notYet : evaluateWithNow utc (officeRow eachMinute) halfPastMidnight = .notYet none := by decide +kernel
  have plan : planned utc (officeRow eachMinute) halfPastMidnight = officeRow eachMinute := by rw [planned, notYet]
  rw [wakesInTime_iff plan eachMinute_hourly notYet (by rw [nextSlot, notYet])]
  intro near
  rw [SlotNear, plan] at near
  obtain ⟨n, reach, here⟩ := near _ _ _ eachMinute_hourly notYet ⟨539, by decide +kernel⟩
  have closed : ∀ n < nextWalkCap, inWindow utc (some ⟨540, 1020⟩)
      (slotAfter (everySeconds (officeSpec 60)) (scheduleReference utc (officeRow eachMinute)) halfPastMidnight n) = false := by
    decide +kernel
  rw [closed n reach] at here
  cases here

end K2.Heartbeats
