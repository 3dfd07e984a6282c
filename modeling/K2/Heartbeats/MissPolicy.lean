import K2.Heartbeats.Estimate

/-! # The miss policy

What an interval row does about the occurrences that came: skip, hold, fire or catch
up the latest one in the window, once. -/

namespace K2.Heartbeats

variable {zone : Zone} {every reference now : Int} {window : Option FiringWindow}

/-! ## The backward walk to its end -/

theorem walkBack_again {occ : Int → Int} {steps : Nat} {k latest : Int} :
    (walkBack zone occ window steps k (some latest)).2 = true ↔
      ∃ j, 1 ≤ j ∧ j ≤ k ∧ k - steps < j ∧ inWindow zone window (occ j) = true := by
  induction steps generalizing k with
  | zero =>
      refine ⟨fun more => absurd more Bool.false_ne_true, ?_⟩
      rintro ⟨j, first, le, near, -⟩
      omega
  | succ steps ih =>
      rw [walkBack]
      split
      next before =>
        refine ⟨fun more => absurd more Bool.false_ne_true, ?_⟩
        rintro ⟨j, first, le, near, -⟩
        omega
      split
      next here => exact ⟨fun _ => ⟨k, by omega, by omega, by omega, here⟩, fun _ => rfl⟩
      next closed =>
        rw [ih]
        constructor
        · rintro ⟨j, first, le, near, here⟩
          exact ⟨j, first, by omega, by omega, here⟩
        · rintro ⟨j, first, le, near, here⟩
          have : j ≠ k := fun same => closed (same ▸ here)
          exact ⟨j, first, by omega, by omega, here⟩

/-- The walk finds the latest occurrence in the window, and whether there is an earlier one. -/
theorem walkBack_latest {occ : Int → Int} {steps : Nat} {k j : Int} (first : 1 ≤ j) (le : j ≤ k) (near : k - steps < j)
    (here : inWindow zone window (occ j) = true)
    (after : ∀ i, j < i → i ≤ k → inWindow zone window (occ i) = false) :
    ∃ more, walkBack zone occ window steps k none = (some (occ j), more) ∧
      (more = true ↔ ∃ i, 1 ≤ i ∧ i < j ∧ k - steps < i ∧ inWindow zone window (occ i) = true) := by
  induction steps generalizing k with
  | zero => omega
  | succ steps ih =>
      rw [walkBack, if_neg (by omega)]
      rcases Int.lt_or_eq_of_le le with before | rfl
      · rw [if_neg (by simp [after k before (Int.le_refl k)])]
        obtain ⟨more, found, earlier⟩ := ih (k := k - 1) (by omega) (by omega) fun i later le => after i later (by omega)
        refine ⟨more, found, earlier.trans ⟨?_, ?_⟩⟩
        all_goals
          rintro ⟨i, pos, lt, close, there⟩
          exact ⟨i, pos, lt, by omega, there⟩
      · rw [if_pos here]
        refine ⟨_, Prod.ext walkBack_keeps rfl, walkBack_again.trans ⟨?_, ?_⟩⟩
        all_goals
          rintro ⟨i, pos, lt, close, there⟩
          exact ⟨i, pos, by omega, by omega, there⟩

/-! ## The policy -/

/-- The latest of the pending occurrences. -/
def Latest (pending : Int → Prop) (k : Int) : Prop := pending k ∧ ∀ j, pending j → j ≤ k

/-- What becomes of the pending occurrences: nothing without one, and one answer about the latest. -/
structure MissPolicy (pending tooOld fresh : Int → Prop) (occ : Int → Int) (isOpen : Bool) (status : DueStatus) : Prop where
  notYet : (∃ next, status = .notYet next) ↔ ∀ k, ¬pending k
  some_latest : ∀ j, pending j → ∃ k, Latest pending k
  skipped : ∀ k, Latest pending k → tooOld k → status = .skippedMissed (occ k)
  held : ∀ k, Latest pending k → ¬tooOld k → isOpen = false → status = .holdWindow (occ k)
  due : ∀ k, Latest pending k → ¬tooOld k → isOpen = true → (∀ j, pending j → j = k) → fresh k → status = .due (occ k)
  catchUp : ∀ k, Latest pending k → ¬tooOld k → isOpen = true → ¬((∀ j, pending j → j = k) ∧ fresh k) →
    status = .dueCatchUp (occ k)

/-- Occurrence `k` came, in the window, and fewer than 5000 came after it. -/
def Pending (zone : Zone) (every reference : Int) (window : Option FiringWindow) (now k : Int) : Prop :=
  1 ≤ k ∧ occurrence reference every k ≤ now ∧ now < occurrence reference every (k + walkCap) ∧
    inWindow zone window (occurrence reference every k) = true

theorem pending_iff (pos : 1 ≤ every) {k : Int} : Pending zone every reference window now k ↔
    1 ≤ k ∧ k ≤ kMax every reference now ∧ kMax every reference now - walkCap < k ∧
      inWindow zone window (occurrence reference every k) = true := by
  constructor
  · rintro ⟨first, came, near, here⟩
    refine ⟨first, (le_kMax pos first).mpr came, ?_, here⟩
    by_contra far
    have far : k + walkCap ≤ kMax every reference now := not_lt.mp fun lt => far (by omega)
    exact absurd ((le_kMax pos (by omega)).mp far) (not_le.mpr near)
  · rintro ⟨first, came, near, here⟩
    refine ⟨first, (le_kMax pos first).mp came, ?_, here⟩
    by_contra far
    have := (le_kMax pos (by omega)).mpr (not_lt.mp far)
    omega

theorem latest_of_pending (pos : 1 ≤ every) {j : Int} (pending : Pending zone every reference window now j) :
    ∃ k, Latest (Pending zone every reference window now) k := by
  obtain ⟨k, here, most⟩ := Int.exists_greatest_of_bdd (P := Pending zone every reference window now)
    ⟨kMax every reference now, fun i came => ((pending_iff pos).mp came).2.1⟩ ⟨j, pending⟩
  exact ⟨k, here, most⟩

theorem evaluateEvery_latest (pos : 1 ≤ every) {k : Int} (latest : Latest (Pending zone every reference window now) k) :
    ∃ more, evaluateEvery zone every reference now window = classify zone (occurrence reference every k) now window more ∧
      (more = false ↔ ∀ j, Pending zone every reference window now j → j = k) := by
  obtain ⟨first, came, near, here⟩ := (pending_iff pos).mp latest.1
  have after (i : Int) (later : k < i) (le : i ≤ kMax every reference now) :
      inWindow zone window (occurrence reference every i) = false := by
    by_contra there
    have := latest.2 i ((pending_iff pos).mpr ⟨by omega, le, by omega, by simpa using there⟩)
    omega
  obtain ⟨more, found, earlier⟩ := walkBack_latest first came near here after
  have found : walkBack zone (occurrence reference every) window walkCap ((numSeconds (now - reference)).tdiv every) none =
    (some (occurrence reference every k), more) := found
  have started : ¬(numSeconds (now - reference)).tdiv every < 1 := not_lt.mpr (first.trans came)
  refine ⟨more, ?_, ?_⟩
  · simp only [evaluateEvery, found, if_neg started]
  · rw [← Bool.not_eq_true, earlier]
    constructor
    · intro none j pending
      obtain ⟨pos', le, close, there⟩ := (pending_iff pos).mp pending
      have := latest.2 j pending
      by_contra other
      exact none ⟨j, pos', by omega, close, there⟩
    · rintro only ⟨i, pos', lt, close, there⟩
      have := only i ((pending_iff pos).mpr ⟨pos', by omega, close, there⟩)
      omega

theorem evaluateEvery_notYet_iff (pos : 1 ≤ every) : (∃ next, evaluateEvery zone every reference now window = .notYet next) ↔
    ∀ k, ¬Pending zone every reference window now k := by
  constructor
  · rintro ⟨next, notYet⟩ k pending
    obtain ⟨first, came, near, here⟩ := (pending_iff pos).mp pending
    rw [(evaluateEvery_notYet notYet).1 k first came near] at here
    cases here
  · intro none
    unfold evaluateEvery
    dsimp only
    split
    · exact ⟨_, rfl⟩
    split
    next latest more found =>
      obtain ⟨j, first, le, near, -, here⟩ := walkBack_some (congrArg Prod.fst found)
      exact absurd ((pending_iff pos).mpr ⟨first, le, near, here⟩) (none j)
    · exact ⟨_, rfl⟩

/-- The policy over the last 5000 occurrences, with ages in whole seconds. -/
theorem evaluateEvery_missPolicy (zone : Zone) (reference now : Int) (window : Option FiringWindow) (pos : 1 ≤ every) :
    MissPolicy (Pending zone every reference window now)
      (fun k => numSeconds (now - occurrence reference every k) > missedRunGraceSecs)
      (fun k => numSeconds (now - occurrence reference every k) ≤ onTimeGraceSecs)
      (occurrence reference every) (inWindow zone window now) (evaluateEvery zone every reference now window) where
  notYet := evaluateEvery_notYet_iff pos
  some_latest j pending := latest_of_pending pos pending
  skipped k latest old := by
    obtain ⟨more, answer, -⟩ := evaluateEvery_latest pos latest
    rw [answer, classify, if_pos old]
  held k latest young closed := by
    obtain ⟨more, answer, -⟩ := evaluateEvery_latest pos latest
    rw [answer, classify, if_neg young, if_pos (by simp [closed])]
  due k latest young opened only fresh := by
    obtain ⟨more, answer, alone⟩ := evaluateEvery_latest pos latest
    rw [answer, classify, if_neg young, if_neg (by simp [opened]), if_pos (by simp [alone.mpr only, fresh])]
  catchUp k latest young opened other := by
    obtain ⟨more, answer, alone⟩ := evaluateEvery_latest pos latest
    rw [answer, classify, if_neg young, if_neg (by simp [opened]), if_neg ?_]
    intro both
    obtain ⟨single, fresh⟩ := (Bool.and_eq_true _ _).mp both
    exact other ⟨alone.mp (by simpa using single), of_decide_eq_true fresh⟩

/-! ## Rows -/

variable {hb : AgentHeartbeat} {spec : Value}

/-- The row after a fire at `now`. -/
def fired (zone : Zone) (hb : AgentHeartbeat) (now : Int) : AgentHeartbeat :=
  { hb with lastFired := some (zone.toRfc3339 now) }

theorem le_scheduleReference_fired (stamps : zone.Stamps now) (hb : AgentHeartbeat) :
    now ≤ scheduleReference zone (fired zone hb now) := by
  rw [Zone.Stamps] at stamps
  unfold scheduleReference
  simp only [fired, Option.bind_some, stamps]
  cases hb.scheduleAnchorAt.bind zone.parseFromRfc3339 with
  | none => exact Int.le_refl now
  | some anchor => exact le_max_left now anchor

theorem fired_waits (stamps : zone.Stamps now) (hourly : Hourly zone hb spec window) {t : Int}
    (soon : t < now + ofSecs (everySeconds spec)) : (evaluateWithNow zone (fired zone hb now) t).fires = false := by
  have again : Hourly zone (fired zone hb now) spec window := ⟨hourly.frequency, hourly.parsed, hourly.windowed, hourly.pos⟩
  rw [again.evaluate]
  by_contra fires
  obtain ⟨-, j, first, came, -⟩ := evaluateEvery_fires hourly.pos (Bool.of_not_eq_false fires)
  have due := (occurrence_mono hourly.pos first).trans came
  have after := le_scheduleReference_fired stamps hb
  rw [occurrence, Int.one_mul] at due
  omega

/-- Half a minute past ten. -/
def pastTen : Int := ofSecs (1782950400 + 36030)

/-- The policy over all occurrences, with exact ages. -/
def ExactPolicy (zone : Zone) (every reference : Int) (window : Option FiringWindow) (now : Int) (status : DueStatus) : Prop :=
  MissPolicy
    (fun k => 1 ≤ k ∧ occurrence reference every k ≤ now ∧ inWindow zone window (occurrence reference every k) = true)
    (fun k => now - occurrence reference every k > ofSecs missedRunGraceSecs)
    (fun k => now - occurrence reference every k ≤ ofSecs onTimeGraceSecs)
    (occurrence reference every) (inWindow zone window now) status

def eachFiveSeconds : String := "\x7b\"every_seconds\":5,\"start\":\"09:00\",\"end\":\"17:00\"\x7d"

def fiveFromStr (s : String) : Except String Value :=
  if s = eachFiveSeconds then .ok (officeSpec 5) else officeFromStr s

def utcFive : Zone := { utc with fromStr := fiveFromStr }

theorem fromStr_eachFiveSeconds : fiveFromStr eachFiveSeconds = .ok (officeSpec 5) := if_pos rfl

theorem eachFiveSeconds_hourly : Hourly utcFive (officeRow eachFiveSeconds) (officeSpec 5) (some ⟨540, 1020⟩) :=
  ⟨rfl, fromStr_eachFiveSeconds, by decide +kernel, by decide⟩

theorem office_open {zone : Zone} (utc : ∀ t, zone.offset t = 0) (every : Int) {k : Int} :
    inWindow zone (some ⟨540, 1020⟩) (occurrence (ofSecs 1782950400) every k) = true ↔
      540 ≤ (k * every) / 60 % 1440 ∧ (k * every) / 60 % 1440 < 1020 := by
  have minutes : minuteOfDay zone (occurrence (ofSecs 1782950400) every k) = (k * every) / 60 % 1440 := by
    rw [minuteOfDay, occurrence, utc, ofSecs, ofSecs, nsPerMinute]
    omega
  simp [inWindow, FiringWindow.contains, minutes]

/-- At one in the morning the last 5000 occurrences are all after 17:00; at four, the one of
16:00 is half a second too old to catch up, and is held. -/
theorem not_exactPolicy :
    ¬ExactPolicy utcFive 5 (ofSecs 1782950400) (some ⟨540, 1020⟩) (ofSecs (1782950400 + 25 * 3600))
        (evaluateWithNow utcFive (officeRow eachFiveSeconds) (ofSecs (1782950400 + 25 * 3600))) ∧
      ¬ExactPolicy utc 3600 (ofSecs 1782950400) (some ⟨540, 1020⟩) (ofSecs (1782950400 + 28 * 3600) + 500000000)
        (evaluateWithNow utc (officeRow eachHour) (ofSecs (1782950400 + 28 * 3600) + 500000000)) := by
  constructor
  · intro policy
    obtain ⟨next, notYet⟩ : ∃ next, evaluateWithNow utcFive (officeRow eachFiveSeconds) (ofSecs (1782950400 + 25 * 3600)) =
        .notYet next := by
      rw [eachFiveSeconds_hourly.evaluate]
      refine (evaluateEvery_notYet_iff eachFiveSeconds_hourly.pos).mpr ?_
      rintro k ⟨-, came, near, here⟩
      have here := (office_open (fun _ => rfl) 5).mp here
      change ofSecs 1782950400 + ofSecs (k * 5) ≤ _ at came
      change _ < ofSecs 1782950400 + ofSecs ((k + 5000) * 5) at near
      simp only [ofSecs] at came near
      omega
    have latest := policy.held 12239 ⟨⟨by decide, by decide, (office_open (fun _ => rfl) _).mpr (by decide)⟩, fun j => ?_⟩
      (by decide) (by decide +kernel)
    · rw [notYet] at latest
      cases latest
    · rintro ⟨-, came, here⟩
      have here := (office_open (fun _ => rfl) _).mp here
      simp only [occurrence, ofSecs] at came
      omega
  · intro policy
    have held : evaluateWithNow utc (officeRow eachHour) (ofSecs (1782950400 + 28 * 3600) + 500000000) =
      .holdWindow (ofSecs (1782950400 + 16 * 3600)) := by decide +kernel
    have latest := policy.skipped 16 ⟨⟨by decide, by decide, (office_open (fun _ => rfl) _).mpr (by decide)⟩, fun j => ?_⟩ (by decide)
    · rw [held] at latest
      cases latest
    · rintro ⟨-, came, here⟩
      have here := (office_open (fun _ => rfl) _).mp here
      simp only [occurrence, ofSecs] at came
      omega

end K2.Heartbeats
