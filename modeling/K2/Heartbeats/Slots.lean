import K2.Heartbeats.Cron
import Mathlib.Data.Int.Order.Basic
import Mathlib.Tactic.Linarith

/-! # The slots of an interval

The two capped walks over the occurrences of an interval, and what the evaluator's
answer says about the occurrences around a time.
-/

namespace K2.Heartbeats

variable {zone : Zone} {every reference now : Int} {window : Option FiringWindow}

/-! ## Occurrences -/

/-- The last occurrence at or before `now`. -/
def kMax (every reference now : Int) : Int := (numSeconds (now - reference)).tdiv every

theorem tdiv_nonpos {a b : Int} (ha : a ≤ 0) (hb : 0 ≤ b) : a.tdiv b ≤ 0 := by
  have negated : 0 ≤ (-a).tdiv b := Int.tdiv_nonneg (by omega) hb
  rw [Int.neg_tdiv] at negated
  omega

theorem le_kMax {k : Int} (pos : 1 ≤ every) (first : 1 ≤ k) :
    k ≤ kMax every reference now ↔ occurrence reference every k ≤ now := by
  have step : 1 ≤ k * every := Int.mul_le_mul first pos (by omega) (by omega)
  rcases Int.le_total reference now with later | earlier
  · have seconds : numSeconds (now - reference) = (now - reference) / 1000000000 :=
      Int.tdiv_eq_ediv_of_nonneg (by omega)
    have whole : 0 ≤ (now - reference) / 1000000000 := Int.ediv_nonneg (by omega) (by omega)
    rw [kMax, seconds, Int.tdiv_eq_ediv_of_nonneg whole, Int.le_ediv_iff_mul_le (by omega),
      Int.le_ediv_iff_mul_le (by omega), occurrence, ofSecs]
    omega
  · have seconds : numSeconds (now - reference) ≤ 0 := tdiv_nonpos (by omega) (by omega)
    have none_yet : kMax every reference now ≤ 0 := tdiv_nonpos seconds (by omega)
    rw [occurrence, ofSecs]
    omega

theorem kMax_occurrence {k : Int} (pos : 1 ≤ every) (first : 1 ≤ k) :
    kMax every reference (occurrence reference every k) = k := by
  have reached : k ≤ kMax every reference (occurrence reference every k) := (le_kMax pos first).mpr (Int.le_refl _)
  by_contra beyond
  have next : k + 1 ≤ kMax every reference (occurrence reference every k) := by omega
  have late := (le_kMax pos (by omega)).mp next
  rw [occurrence, occurrence, ofSecs, ofSecs, Int.add_mul] at late
  omega

theorem occurrence_mono {j k : Int} (pos : 1 ≤ every) (le : j ≤ k) :
    occurrence reference every j ≤ occurrence reference every k := by
  have := Int.mul_le_mul_of_nonneg_right le (by omega : 0 ≤ every)
  rw [occurrence, occurrence, ofSecs, ofSecs]
  omega

/-! ## The forward walk -/

theorem walkForward_least {w : FiringWindow} {d : Int} (pos : 0 < d) {n : Nat} :
    ∀ {steps : Nat} {t : Int}, n < steps → w.contains zone (t + n * d) = true →
      (∀ m < n, w.contains zone (t + m * d) = false) → walkForward zone (· + d) w steps t = some (t + n * d) := by
  induction n with
  | zero =>
      intro steps t room here _
      obtain ⟨steps, rfl⟩ : ∃ s, steps = s + 1 := ⟨steps - 1, by omega⟩
      simp only [Nat.cast_zero, Int.zero_mul, Int.add_zero] at here ⊢
      rw [walkForward, if_pos here]
  | succ n ih =>
      intro steps t room here before
      obtain ⟨steps, rfl⟩ : ∃ s, steps = s + 1 := ⟨steps - 1, by omega⟩
      have shift (m : Nat) : t + d + m * d = t + (m + 1 : Nat) * d := by
        rw [Nat.cast_add, Int.add_mul]
        omega
      have closed : w.contains zone t = false := by simpa using before 0 (by omega)
      rw [walkForward, if_neg (by simp [closed]), if_neg (by omega), ← shift]
      refine ih (by omega) (by rw [shift]; exact here) fun m le => ?_
      rw [shift]
      exact before (m + 1) (by omega)

theorem walkForward_none {w : FiringWindow} {d : Int} {steps : Nat} {t : Int}
    (closed : ∀ n < steps, w.contains zone (t + n * d) = false) : walkForward zone (· + d) w steps t = none := by
  induction steps generalizing t with
  | zero => rfl
  | succ steps ih =>
      have here : w.contains zone t = false := by simpa using closed 0 (by omega)
      rw [walkForward, if_neg (by simp [here])]
      split
      · rfl
      · refine ih fun n le => ?_
        have shift : t + d + n * d = t + (n + 1 : Nat) * d := by
          rw [Nat.cast_add, Int.add_mul]
          omega
        rw [shift]
        exact closed (n + 1) (by omega)

/-- The occurrences after `now`. -/
def slotAfter (every reference now : Int) (n : Nat) : Int :=
  occurrence reference every (max (kMax every reference now) 0 + 1 + n)

theorem slotAfter_step (n : Nat) :
    slotAfter every reference now n = slotAfter every reference now 0 + n * ofSecs every := by
  simp only [slotAfter, occurrence, ofSecs, Nat.cast_zero, Int.add_zero, Int.add_mul]
  have assoc : (n : Int) * every * 1000000000 = n * (every * 1000000000) := Int.mul_assoc ..
  omega

theorem nextInWindow_least (pos : 1 ≤ every) {n : Nat} (near : n < nextWalkCap)
    (here : inWindow zone window (slotAfter every reference now n) = true)
    (before : ∀ m < n, inWindow zone window (slotAfter every reference now m) = false) :
    nextInWindow zone (slotAfter every reference now 0) (· + ofSecs every) window =
      some (slotAfter every reference now n) := by
  cases window with
  | none =>
      cases n with
      | zero => rfl
      | succ n => exact absurd (before 0 (by omega)) (by simp [inWindow])
  | some w =>
      rw [slotAfter_step n]
      refine walkForward_least (by unfold ofSecs; omega) near ?_ fun m le => ?_
      · rw [← slotAfter_step]
        exact here
      · rw [← slotAfter_step]
        exact before m le

theorem nextInWindow_none (closed : ∀ n < nextWalkCap, inWindow zone window (slotAfter every reference now n) = false) :
    nextInWindow zone (slotAfter every reference now 0) (· + ofSecs every) window = none := by
  cases window with
  | none => exact absurd (closed 0 (by decide)) (by simp [inWindow])
  | some w =>
      refine walkForward_none fun n le => ?_
      rw [← slotAfter_step]
      exact closed n le

/-! ## The backward walk -/

theorem walkBack_keeps {occ : Int → Int} {steps : Nat} {k latest : Int} :
    (walkBack zone occ window steps k (some latest)).1 = some latest := by
  induction steps generalizing k with
  | zero => rfl
  | succ steps ih =>
      rw [walkBack]
      split
      · rfl
      split
      · rfl
      · exact ih

theorem walkBack_none {occ : Int → Int} {steps : Nat} {k : Int} (none_found : (walkBack zone occ window steps k none).1 = none)
    {j : Int} (first : 1 ≤ j) (le : j ≤ k) (near : k - steps < j) : inWindow zone window (occ j) = false := by
  induction steps generalizing k with
  | zero => omega
  | succ steps ih =>
      rw [walkBack, if_neg (by omega)] at none_found
      split at none_found
      · rw [walkBack_keeps] at none_found
        cases none_found
      next closed =>
        rcases Int.lt_or_eq_of_le le with before | rfl
        · exact ih none_found (by omega) (by omega)
        · simpa using closed

theorem walkBack_some {occ : Int → Int} {steps : Nat} {k latest : Int}
    (found : (walkBack zone occ window steps k none).1 = some latest) :
    ∃ j, 1 ≤ j ∧ j ≤ k ∧ k - steps < j ∧ latest = occ j ∧ inWindow zone window (occ j) = true := by
  induction steps generalizing k with
  | zero => cases found
  | succ steps ih =>
      rw [walkBack] at found
      split at found
      · cases found
      next some_left =>
        split at found
        next here =>
          rw [walkBack_keeps] at found
          exact ⟨k, by omega, by omega, by omega, (Option.some.inj found).symm, here⟩
        next =>
          obtain ⟨j, first, le, near, rest⟩ := ih found
          exact ⟨j, first, by omega, by omega, rest⟩

end K2.Heartbeats
