import Mathlib.Algebra.Order.Field.Basic
import Mathlib.Tactic.FieldSimp
import Mathlib.Tactic.Linarith
import Mathlib.Tactic.Positivity
import Mathlib.Tactic.Ring

/-! # Binary interval coding

A message of bits is coded by an interval. Each bit cuts the current range in
two, keeps one part and doubles it back to full size. What a coder emits is a
point of the last interval; a decoder finds the bits again by asking on which
side of each cut the point lies. Nothing here knows how either side keeps its
numbers. -/

/-- How ranges are cut and brought back to size. `Ready` holds of a range
    between two bits. -/
structure IntervalCoder (P : Type*) where
  /-- The part of the range a `false` bit keeps. -/
  split : Nat → P → Nat
  /-- By how many doublings a part is brought back. -/
  doublings : Nat → Nat
  Ready : Nat → Prop
  split_pos : ∀ {r}, Ready r → ∀ p, 0 < split r p
  split_lt : ∀ {r}, Ready r → ∀ p, split r p < r
  ready_pos : ∀ {r}, Ready r → 0 < r
  ready_split : ∀ {r}, Ready r → ∀ p, Ready (split r p * 2 ^ doublings (split r p))
  ready_rest : ∀ {r}, Ready r → ∀ p, Ready ((r - split r p) * 2 ^ doublings (r - split r p))

namespace IntervalCoder

variable {P : Type*} (c : IntervalCoder P) {r : Nat}

/-- What is left of the range once the bit is known. -/
def part (r : Nat) (p : P) (bit : Bool) : Nat :=
  if bit then r - c.split r p else c.split r p

/-- How far the low end moves. -/
def offset (r : Nat) (p : P) (bit : Bool) : Nat :=
  if bit then c.split r p else 0

/-- The range the next bit starts from. -/
def next (r : Nat) (p : P) (bit : Bool) : Nat :=
  c.part r p bit * 2 ^ c.doublings (c.part r p bit)

theorem ready_next (ready : c.Ready r) (p : P) (bit : Bool) : c.Ready (c.next r p bit) := by
  cases bit with
  | false => exact c.ready_split ready p
  | true => exact c.ready_rest ready p

theorem offset_add_part (ready : c.Ready r) (p : P) (bit : Bool) :
    c.offset r p bit + c.part r p bit ≤ r := by
  have inside := c.split_lt ready p
  cases bit with
  | false =>
    show 0 + c.split r p ≤ r
    omega
  | true =>
    show c.split r p + (r - c.split r p) ≤ r
    omega

/-! ## The interval of a message -/

/-- The range after a message. -/
def final (r : Nat) : List (P × Bool) → Nat
  | [] => r
  | (p, bit) :: rest => final (c.next r p bit) rest

/-- All the doublings of a message. -/
def scale (r : Nat) : List (P × Bool) → Nat
  | [] => 0
  | (p, bit) :: rest => c.doublings (c.part r p bit) + scale (c.next r p bit) rest

variable {K : Type*} [Field K]

/-- The low end of a message's interval, in units of the first range. -/
def low (r : Nat) : List (P × Bool) → K
  | [] => 0
  | (p, bit) :: rest =>
      c.offset r p bit + low (c.next r p bit) rest / 2 ^ c.doublings (c.part r p bit)

theorem next_cast (r : Nat) (p : P) (bit : Bool) :
    (c.next r p bit : K) = c.part r p bit * 2 ^ c.doublings (c.part r p bit) := by
  rw [next]
  push_cast
  rfl

/-- The high end of a message, from the high end of its rest. -/
theorem high_cons (r : Nat) (p : P) (bit : Bool) (message : List (P × Bool)) :
    (c.low r ((p, bit) :: message) + c.final r ((p, bit) :: message) / 2 ^ c.scale r ((p, bit) :: message) : K)
      = c.offset r p bit
        + (c.low (c.next r p bit) message
            + c.final (c.next r p bit) message / 2 ^ c.scale (c.next r p bit) message)
          / 2 ^ c.doublings (c.part r p bit) := by
  simp only [low, final, scale]
  rw [add_div, div_div, add_assoc, ← pow_add, Nat.add_comm (c.scale _ _)]

variable [LinearOrder K]

/-- The point `w` lies in the interval of the message. -/
structure Holds (r : Nat) (w : K) (message : List (P × Bool)) : Prop where
  low_le : c.low r message ≤ w
  lt_high : w < c.low r message + c.final r message / 2 ^ c.scale r message

variable [IsStrictOrderedRing K] {w : K} {p : P} {bit : Bool} {message : List (P × Bool)}

theorem low_nonneg (r : Nat) (message : List (P × Bool)) : (0 : K) ≤ c.low r message := by
  induction message generalizing r with
  | nil => exact le_rfl
  | cons head rest ih =>
    have := ih (c.next r head.1 head.2)
    simp only [low]
    positivity

/-- The interval of a message lies inside the part its first bit keeps. -/
theorem high_cons_le {message : List (P × Bool)}
    (inner : (c.low (c.next r p bit) message
      + c.final (c.next r p bit) message / 2 ^ c.scale (c.next r p bit) message : K) ≤ c.next r p bit) :
    (c.low r ((p, bit) :: message) + c.final r ((p, bit) :: message) / 2 ^ c.scale r ((p, bit) :: message) : K)
      ≤ c.offset r p bit + c.part r p bit := by
  have unit : (0 : K) < 2 ^ c.doublings (c.part r p bit) := by positivity
  rw [next_cast] at inner
  have scaled := (div_le_iff₀ unit).mpr inner
  rw [high_cons]
  linarith

/-- The interval of a message lies inside the range it starts from. -/
theorem high_le (ready : c.Ready r) (message : List (P × Bool)) :
    (c.low r message + c.final r message / 2 ^ c.scale r message : K) ≤ r := by
  induction message generalizing r with
  | nil => simp [low, final, scale]
  | cons head rest ih =>
    obtain ⟨p, bit⟩ := head
    have inside : (c.offset r p bit + c.part r p bit : K) ≤ r := by
      exact_mod_cast c.offset_add_part ready p bit
    exact (c.high_cons_le (ih (c.ready_next ready p bit))).trans inside

/-! ## Decoding -/

namespace Holds

variable {c}

/-- The first bit of a message is the side of the cut the point lies on. -/
theorem bit_iff (ready : c.Ready r) (held : c.Holds r w ((p, bit) :: message)) :
    bit = true ↔ (c.split r p : K) ≤ w := by
  have inner := c.low_nonneg (K := K) (c.next r p bit) message
  have shifted : (0 : K) ≤ c.low (c.next r p bit) message / 2 ^ c.doublings (c.part r p bit) := by
    positivity
  cases bit with
  | true =>
    have above := held.low_le
    simp only [low, offset, if_true] at above
    exact iff_of_true rfl (by linarith)
  | false =>
    have below := c.high_cons_le (K := K) (c.high_le (c.ready_next ready p false) message)
    have under := held.lt_high
    simp only [offset, part, Bool.false_eq_true, if_false, Nat.cast_zero, zero_add] at below
    exact iff_of_false (by simp) (by linarith)

/-- Taking the cut off and doubling gives a point of the rest. -/
theorem tail (held : c.Holds r w ((p, bit) :: message)) :
    c.Holds (c.next r p bit) ((w - c.offset r p bit) * 2 ^ c.doublings (c.part r p bit)) message where
  low_le := by
    have above := held.low_le
    simp only [low] at above
    rw [← div_le_iff₀ (by positivity)]
    linarith
  lt_high := by
    have under := held.lt_high
    rw [high_cons] at under
    rw [← lt_div_iff₀ (by positivity)]
    linarith

end Holds

end IntervalCoder
