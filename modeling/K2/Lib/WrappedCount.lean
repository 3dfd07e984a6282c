import Mathlib.Data.Nat.ModEq
import Mathlib.Tactic.Common

/-! # Counts that wrap

A word shows a count: 0 before the first, then 1 to `top`, and 1 again. Two
counts less than `top` apart show the same only if they are the same. -/

namespace WrappedCount

/-- What a word shows after `n` steps. -/
def shown (top n : Nat) : Nat := if n = 0 then 0 else (n - 1) % top + 1

variable {top m n : Nat}

@[simp] theorem shown_zero : shown top 0 = 0 := rfl

theorem shown_add_one : shown top (n + 1) = n % top + 1 := by simp [shown]

theorem shown_le (bounded : 0 < top) : shown top n ≤ top := by
  cases n with
  | zero => exact Nat.zero_le _
  | succ n => exact shown_add_one ▸ Nat.mod_lt n bounded

theorem shown_pos (counted : n ≠ 0) : 0 < shown top n := by
  rw [shown, if_neg counted]
  exact Nat.succ_pos _

theorem shown_eq_zero : shown top n = 0 ↔ n = 0 := by
  refine ⟨fun none => ?_, fun none => by rw [none, shown_zero]⟩
  by_contra counted
  have positive : 0 < shown top n := shown_pos counted
  omega

/-- Before it wraps, a word shows the count itself. -/
theorem shown_of_le (low : n ≤ top) : shown top n = n := by
  cases n with
  | zero => rfl
  | succ n => rw [shown_add_one, Nat.mod_eq_of_lt low]

theorem shown_next (bounded : 0 < top) : shown top (n + 1) = if shown top n < top then shown top n + 1 else 1 := by
  cases n with
  | zero => rw [shown_zero, if_pos bounded, shown_add_one, Nat.zero_mod]
  | succ n =>
      rw [shown_add_one, shown_add_one]
      have below := Nat.mod_lt n bounded
      have parts := Nat.div_add_mod n top
      split
      next more =>
        have successor : n + 1 = n % top + 1 + top * (n / top) := by omega
        rw [successor, Nat.add_mul_mod_self_left, Nat.mod_eq_of_lt more]
      next last =>
        have last : n % top + 1 = top := by omega
        have successor : n + 1 = top * (n / top + 1) := by rw [Nat.mul_add, Nat.mul_one]; omega
        rw [successor, Nat.mul_mod_right]

/-- Counts that show the same are the same, unless one has gone all around. -/
theorem eq_of_shown_eq (same : shown top m = shown top n) (order : m ≤ n) (near : n < m + top) : m = n := by
  cases m with
  | zero => exact (shown_eq_zero.mp same.symm).symm
  | succ m =>
      obtain ⟨n, rfl⟩ := Nat.exists_eq_add_of_le' (Nat.le_trans (Nat.succ_pos m) order)
      rw [shown_add_one, shown_add_one] at same
      have same : m ≡ n [MOD top] := by exact Nat.succ.inj same
      have apart : n - m = 0 := Nat.eq_zero_of_dvd_of_lt ((Nat.modEq_iff_dvd' (by omega)).mp same) (by omega)
      omega

/-! ## Odd and even -/

theorem shown_mod_two (even : top % 2 = 0) : shown top n % 2 = n % 2 := by
  cases n with
  | zero => rfl
  | succ n =>
      have halves : n % top % 2 = n % 2 := Nat.mod_mod_of_dvd n (Nat.dvd_of_mod_eq_zero even)
      rw [shown_add_one]
      omega

/-! ## A writer's turns

A word is odd while something is written and even when it is whole. A writer
counts on from a word of at most `max`, else from 0, so the words go up to
`max + 2`; it takes an odd word found for its own. -/

variable {max turn : Nat}

/-- The turn a writer opens. -/
def opened (max turn : Nat) : Nat :=
  if turn % 2 = 0 then turn + 1 else if shown (max + 2) turn ≤ max then turn else turn + 2

/-- A turn, or the one that ends it. -/
def closing (turn : Nat) : Nat := turn + turn % 2

theorem opened_odd : opened max turn % 2 = 1 := by
  unfold opened
  split
  next => omega
  next => split <;> omega

theorem le_opened : turn ≤ opened max turn := by
  unfold opened
  split
  next => omega
  next => split <;> omega

theorem closing_opened : closing (opened max turn) ≤ closing turn + 2 := by
  unfold closing opened
  split
  next => omega
  next => split <;> omega

theorem closing_mono (order : m ≤ n) : closing m ≤ closing n := by
  unfold closing
  omega

theorem or_one (v : Nat) : v ||| 1 = v / 2 * 2 + 1 := by
  have low : (v ||| 1) % 2 = 1 := Nat.or_mod_two_eq_one.mpr (.inr rfl)
  have high : (v ||| 1) / 2 = v / 2 := by rw [Nat.or_div_two, show 1 / 2 = 0 from rfl, Nat.or_zero]
  omega

/-- What the writer stores to open its turn. -/
theorem shown_opened (even : max % 2 = 0) :
    (if shown (max + 2) turn > max then 0 else shown (max + 2) turn) ||| 1 = shown (max + 2) (opened max turn) := by
  have parity := shown_mod_two (n := turn) (show (max + 2) % 2 = 0 by omega)
  have bound : shown (max + 2) turn ≤ max + 2 := shown_le (by omega)
  have next := shown_next (n := turn) (show 0 < max + 2 by omega)
  have after_next := shown_next (n := turn + 1) (show 0 < max + 2 by omega)
  rw [or_one, opened]
  by_cases whole : turn % 2 = 0
  · rw [if_pos whole, next]
    split <;> split <;> omega
  · rw [if_neg whole]
    by_cases low : shown (max + 2) turn ≤ max
    · rw [if_pos low, if_neg (by omega)]
      omega
    · -- the last odd word: a killed writer's, and the next starts over
      have last : shown (max + 2) turn = max + 1 := by omega
      have full : shown (max + 2) (turn + 1) = max + 2 := by rw [next, if_pos (by omega), last]
      have first : shown (max + 2) (turn + 2) = 1 := by rw [after_next, if_neg (by omega)]
      rw [if_neg low, if_pos (Nat.lt_of_not_le low), first]

theorem shown_closed (even : max % 2 = 0) (writing : turn % 2 = 1) :
    shown (max + 2) (turn + 1) = shown (max + 2) turn + 1 := by
  have parity := shown_mod_two (n := turn) (show (max + 2) % 2 = 0 by omega)
  have bound : shown (max + 2) turn ≤ max + 2 := shown_le (by omega)
  rw [shown_next (by omega), if_pos (by omega)]

end WrappedCount
