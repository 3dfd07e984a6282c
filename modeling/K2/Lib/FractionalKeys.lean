import Mathlib.Data.Nat.Log
import Mathlib.Data.List.Basic

/-! # Keys between keys

A key is a list of digits below a base, compared in dictionary order, not ending
in the digit zero. Between two keys there is always another; how many can be
laid one after the other before they need more digits than allowed is their room.
-/

namespace FractionalKeys

variable {base : Nat}

structure Key (base : Nat) (a : List Nat) : Prop where
  digits : ∀ d ∈ a, d < base
  last : a.getLast? ≠ some 0

/-- The digit halfway from `d` up to `e`. -/
def halfway (d e : Nat) : Nat := (d + e + 1) / 2

/-- A key above `a`. -/
def above (base : Nat) : List Nat → List Nat
  | [] => [halfway 0 base]
  | d :: rest => if 1 < base - d then [halfway d base] else d :: above base rest

/-- A key above `a` and below `b`. -/
def between (base : Nat) (a : List Nat) : List Nat → List Nat
  | [] => above base a
  | e :: b =>
      if a.headD 0 = e then e :: between base a.tail b
      else if 1 < e - a.headD 0 then [halfway (a.headD 0) e]
      else if b = [] then a.headD 0 :: above base a.tail
      else [e]

theorem halfway_gt {d e : Nat} (wide : 1 < e - d) : d < halfway d e ∧ halfway d e < e := by
  unfold halfway
  omega

/-- Half of the gap is left. -/
theorem gap_halfway {d e : Nat} (wide : 1 < e - d) : e - halfway d e = (e - d) / 2 := by
  unfold halfway
  omega

theorem log_gap {d e : Nat} (wide : 1 < e - d) : Nat.log 2 (e - d) = Nat.log 2 (e - halfway d e) + 1 := by
  rw [gap_halfway wide]
  exact Nat.log_of_one_lt_of_le (by decide) wide

/-! ## Dictionary order -/

theorem Key.tail {d : Nat} {a : List Nat} (key : Key base (d :: a)) : Key base a where
  digits e mem := key.digits e (List.mem_cons_of_mem _ mem)
  last := by
    intro last
    have nonempty : a ≠ [] := by
      rintro rfl
      cases last
    obtain ⟨e, rest, rfl⟩ := List.exists_cons_of_ne_nil nonempty
    exact key.last (by rw [List.getLast?_cons_cons]; exact last)

theorem Key.tail' {a : List Nat} (key : Key base a) : Key base a.tail := by
  cases a with
  | nil => exact key
  | cons d rest => exact key.tail

theorem key_nil : Key base [] where
  digits := by intro d mem; cases mem
  last := by intro last; cases last

theorem key_singleton {d : Nat} (positive : 0 < d) (below : d < base) : Key base [d] where
  digits e mem := by
    rw [List.mem_singleton.mp mem]
    exact below
  last := by
    intro last
    cases last
    exact absurd positive (Nat.lt_irrefl 0)

theorem Key.cons {d : Nat} {a : List Nat} (below : d < base) (key : Key base a) (nonempty : a ≠ []) : Key base (d :: a) where
  digits e mem := by
    rcases List.mem_cons.mp mem with rfl | mem
    · exact below
    · exact key.digits e mem
  last := by
    obtain ⟨e, rest, rfl⟩ := List.exists_cons_of_ne_nil nonempty
    rw [List.getLast?_cons_cons]
    exact key.last

/-- A key whose first digit is zero goes on. -/
theorem Key.ne_nil_of_zero {a : List Nat} (key : Key base (0 :: a)) : a ≠ [] := by
  rintro rfl
  exact key.last rfl

theorem cons_lt_cons {d e : Nat} {a b : List Nat} : d :: a < e :: b ↔ d < e ∨ d = e ∧ a < b := List.cons_lt_cons_iff

theorem nil_lt_of_ne {a : List Nat} (nonempty : a ≠ []) : [] < a := by
  obtain ⟨d, rest, rfl⟩ := List.exists_cons_of_ne_nil nonempty
  exact List.nil_lt_cons ..

/-- Compared with a key, a missing digit is a zero. -/
theorem lt_cons_iff {a b : List Nat} {e : Nat} (key : Key base (e :: b)) :
    a < e :: b ↔ a.headD 0 < e ∨ a.headD 0 = e ∧ a.tail < b := by
  cases a with
  | nil =>
      refine iff_of_true (List.nil_lt_cons ..) ?_
      rcases Nat.eq_zero_or_pos e with rfl | positive
      · exact .inr ⟨rfl, nil_lt_of_ne key.ne_nil_of_zero⟩
      · exact .inl positive
  | cons d rest => exact cons_lt_cons

theorem headD_le_of_lt {a x : List Nat} {f : Nat} (less : a < f :: x) : a.headD 0 ≤ f := by
  cases a with
  | nil => exact Nat.zero_le f
  | cons d rest =>
      rcases cons_lt_cons.mp less with less | ⟨same, -⟩
      · exact less.le
      · exact same.le

theorem not_lt_nil {a : List Nat} : ¬a < [] := List.not_lt_nil a

theorem ne_nil_of_lt {a x : List Nat} (less : a < x) : x ≠ [] := by
  rintro rfl
  exact not_lt_nil less

/-! ## The key between is one -/

theorem above_ne_nil (a : List Nat) : above base a ≠ [] := by
  cases a with
  | nil => exact List.cons_ne_nil _ _
  | cons d rest =>
      rw [above]
      split <;> exact List.cons_ne_nil _ _

theorem above_key (two : 1 < base) {a : List Nat} (digits : ∀ d ∈ a, d < base) : Key base (above base a) := by
  induction a with
  | nil =>
      have half := halfway_gt (show 1 < base - 0 by omega)
      exact key_singleton half.1 half.2
  | cons d rest ih =>
      rw [above]
      split
      next wide =>
        have half := halfway_gt wide
        exact key_singleton (Nat.zero_lt_of_lt half.1) half.2
      next =>
        exact (ih fun e mem => digits e (List.mem_cons_of_mem _ mem)).cons (digits d (List.mem_cons_self ..))
          (above_ne_nil rest)

theorem lt_above (a : List Nat) : a < above base a := by
  induction a with
  | nil => exact List.nil_lt_cons ..
  | cons d rest ih =>
      rw [above]
      split
      next wide => exact cons_lt_cons.mpr (.inl (halfway_gt wide).1)
      next => exact cons_lt_cons.mpr (.inr ⟨rfl, ih⟩)

theorem between_ne_nil (a b : List Nat) : between base a b ≠ [] := by
  cases b with
  | nil => exact above_ne_nil a
  | cons e b =>
      rw [between]
      repeat' split
      all_goals exact List.cons_ne_nil _ _

theorem between_key (two : 1 < base) {a b : List Nat} (first : Key base a) (second : Key base b) (less : a < b) :
    Key base (between base a b) := by
  induction b generalizing a with
  | nil => exact absurd less not_lt_nil
  | cons e b ih =>
      have below := second.digits e (List.mem_cons_self ..)
      rw [between]
      rcases (lt_cons_iff second).mp less with smaller | ⟨same, rest⟩
      · rw [if_neg smaller.ne]
        split
        next wide =>
          have half := halfway_gt wide
          exact key_singleton (Nat.zero_lt_of_lt half.1) (half.2.trans below)
        next =>
          split
          next =>
            exact (above_key two first.tail'.digits).cons (smaller.trans below) (above_ne_nil _)
          next => exact key_singleton (Nat.zero_lt_of_lt smaller) below
      · rw [if_pos same]
        exact (ih first.tail' second.tail rest).cons below (between_ne_nil _ _)

theorem lt_between {a b : List Nat} (second : Key base b) (less : a < b) : a < between base a b := by
  induction b generalizing a with
  | nil => exact absurd less not_lt_nil
  | cons e b ih =>
      rw [between]
      have padded (d : Nat) (k : List Nat) (nonempty : k ≠ []) (greater : a.headD 0 < d ∨ a.headD 0 = d ∧ a.tail < k) : a < d :: k := by
        cases a with
        | nil => exact List.nil_lt_cons ..
        | cons c rest => exact cons_lt_cons.mpr greater
      rcases (lt_cons_iff second).mp less with smaller | ⟨same, rest⟩
      · rw [if_neg smaller.ne]
        have single (d : Nat) (bigger : a.headD 0 < d) : a < [d] := by
          cases a with
          | nil => exact List.nil_lt_cons ..
          | cons c rest => exact cons_lt_cons.mpr (.inl bigger)
        split
        next wide => exact single _ (halfway_gt wide).1
        next =>
          split
          next => exact padded _ _ (above_ne_nil _) (.inr ⟨rfl, lt_above _⟩)
          next => exact single _ smaller
      · rw [if_pos same]
        exact padded _ _ (between_ne_nil _ _) (.inr ⟨same, ih second.tail rest⟩)

theorem between_lt {a b : List Nat} (second : Key base b) (less : a < b) : between base a b < b := by
  induction b generalizing a with
  | nil => exact absurd less not_lt_nil
  | cons e b ih =>
      rw [between]
      rcases (lt_cons_iff second).mp less with smaller | ⟨same, rest⟩
      · rw [if_neg smaller.ne]
        split
        next wide => exact cons_lt_cons.mpr (.inl (halfway_gt wide).2)
        next =>
          split
          next => exact cons_lt_cons.mpr (.inl smaller)
          next nonempty => exact cons_lt_cons.mpr (.inr ⟨rfl, nil_lt_of_ne nonempty⟩)
      · rw [if_pos same]
        exact cons_lt_cons.mpr (.inr ⟨rfl, ih second.tail rest⟩)

/-! ## No key between is shorter than it must be -/

theorem length_above_le {a x : List Nat} (key : Key base x) (less : a < x) :
    (above base a).length ≤ max x.length a.length := by
  induction a generalizing x with
  | nil =>
      obtain ⟨f, x, rfl⟩ := List.exists_cons_of_ne_nil (ne_nil_of_lt less)
      rw [above, List.length_cons, List.length_cons, List.length_nil]
      omega
  | cons d rest ih =>
      obtain ⟨f, x, rfl⟩ := List.exists_cons_of_ne_nil (ne_nil_of_lt less)
      rw [above]
      split
      next => rw [List.length_cons, List.length_cons, List.length_cons, List.length_nil]; omega
      next narrow =>
        have below := key.digits f (List.mem_cons_self ..)
        rcases cons_lt_cons.mp less with smaller | ⟨-, remaining⟩
        · omega
        · have := ih key.tail remaining
          rw [List.length_cons, List.length_cons, List.length_cons]
          omega

/-- If some key lies between `a` and `b`, one no longer than the longest of the
    three is the one laid there. -/
theorem length_between_le {a b x : List Nat} (first : Key base a) (second : Key base b) (key : Key base x) (low : a < x)
    (high : x < b) : (between base a b).length ≤ max x.length (max a.length b.length) := by
  induction b generalizing a x with
  | nil => exact absurd high not_lt_nil
  | cons e b ih =>
      obtain ⟨f, x, rfl⟩ := List.exists_cons_of_ne_nil (ne_nil_of_lt low)
      have head := headD_le_of_lt low
      have tail : a.tail.length = a.length - 1 := List.length_tail
      have further (same : a.headD 0 = f) : a.tail < x := by
        rcases (lt_cons_iff key).mp low with smaller | ⟨-, rest⟩
        · exact absurd same smaller.ne
        · exact rest
      rw [between, List.length_cons, List.length_cons]
      rcases cons_lt_cons.mp high with smaller | ⟨rfl, rest⟩
      · rw [if_neg (head.trans_lt smaller).ne]
        split
        next => rw [List.length_singleton]; omega
        next narrow =>
          split
          next =>
            have := length_above_le key.tail (further (by omega))
            rw [List.length_cons]
            omega
          next => rw [List.length_singleton]; omega
      · split
        next same =>
          have := ih first.tail' second.tail key.tail (further same) rest
          rw [List.length_cons]
          omega
        next other =>
          split
          next => rw [List.length_singleton]; omega
          next =>
            split
            next none => exact absurd (none ▸ rest) not_lt_nil
            next => rw [List.length_singleton]; omega

/-- A key of at most `n` digits is laid exactly if there is one. -/
theorem length_above_le_iff (two : 1 < base) {n : Nat} {a : List Nat} (first : Key base a) (short : a.length ≤ n) :
    (above base a).length ≤ n ↔ ∃ x, Key base x ∧ x.length ≤ n ∧ a < x := by
  constructor
  · intro fits
    exact ⟨_, above_key two first.digits, fits, lt_above a⟩
  · rintro ⟨x, key, fits, low⟩
    exact (length_above_le key low).trans (max_le fits short)

theorem length_between_le_iff (two : 1 < base) {n : Nat} {a b : List Nat} (first : Key base a) (second : Key base b)
    (less : a < b) (short : a.length ≤ n) (short' : b.length ≤ n) :
    (between base a b).length ≤ n ↔ ∃ x, Key base x ∧ x.length ≤ n ∧ a < x ∧ x < b := by
  constructor
  · intro fits
    exact ⟨_, between_key two first second less, fits, lt_between second less, between_lt second less⟩
  · rintro ⟨x, key, fits, low, high⟩
    exact (length_between_le first second key low high).trans (max_le fits (max_le short short'))

/-! ## Room -/

/-- How many keys of at most `n` digits can be laid above `a`, each above the last. -/
def roomAbove (base : Nat) : Nat → List Nat → Nat
  | 0, _ => 0
  | n + 1, [] => (n + 1) * Nat.log 2 base
  | n + 1, d :: rest => Nat.log 2 (base - d) + if base - d = 1 then roomAbove base n rest else n * Nat.log 2 base

/-- How many can be laid between `a` and `b`, each above the last. -/
def room (base : Nat) : Nat → List Nat → List Nat → Nat
  | n, a, [] => roomAbove base n a
  | n, a, e :: b =>
      if a.headD 0 = e then room base (n - 1) a.tail b
      else
        Nat.log 2 (e - a.headD 0) +
          if b = [] then roomAbove base (n - 1) (if e - a.headD 0 = 1 then a.tail else [])
          else 1 + room base (n - 1) [] b

theorem roomAbove_nil (n : Nat) : roomAbove base n [] = n * Nat.log 2 base := by
  cases n with
  | zero => rw [roomAbove, Nat.zero_mul]
  | succ n => rfl

theorem length_singleton_le {d : Nat} (n : Nat) : [d].length ≤ n + 1 := Nat.succ_le_succ (Nat.zero_le n)

/-- The room above one digit. -/
theorem roomAbove_singleton (n d : Nat) : roomAbove base (n + 1) [d] = Nat.log 2 (base - d) + n * Nat.log 2 base := by
  rw [roomAbove, roomAbove_nil, ite_self]

theorem roomAbove_step {n : Nat} {a : List Nat} (two : 1 < base) (digits : ∀ d ∈ a, d < base) :
    roomAbove base n a = if (above base a).length ≤ n then roomAbove base n (above base a) + 1 else 0 := by
  induction a generalizing n with
  | nil =>
      cases n with
      | zero => rfl
      | succ n =>
          have gap := log_gap (show 1 < base - 0 by omega)
          rw [Nat.sub_zero] at gap
          rw [above, if_pos (length_singleton_le n), roomAbove_singleton, roomAbove_nil, Nat.succ_mul, gap]
          omega
  | cons d rest ih =>
      have below := digits d (List.mem_cons_self ..)
      cases n with
      | zero =>
          rw [roomAbove, if_neg]
          exact fun none => above_ne_nil _ (List.length_eq_zero_iff.mp (Nat.le_zero.mp none))
      | succ n =>
          rw [above, roomAbove]
          by_cases wide : 1 < base - d
          · rw [if_pos wide, if_neg wide.ne', if_pos (length_singleton_le n), roomAbove_singleton, log_gap wide]
            omega
          · have one : base - d = 1 := by omega
            rw [if_neg wide, if_pos one, ih fun e mem => digits e (List.mem_cons_of_mem _ mem), List.length_cons, roomAbove,
              if_pos one, one, Nat.log_one_right]
            simp only [Nat.add_le_add_iff_right]
            split <;> omega

/-- The first of the keys there is room for takes one place of it. -/
theorem room_step {n : Nat} {a b : List Nat} (two : 1 < base) (first : Key base a) (second : Key base b) (less : a < b)
    (fits : b.length ≤ n) :
    room base n a b = if (between base a b).length ≤ n then room base n (between base a b) b + 1 else 0 := by
  induction b generalizing a n with
  | nil => exact absurd less not_lt_nil
  | cons e b ih =>
      obtain ⟨n, rfl⟩ : ∃ m, n = m + 1 := ⟨n - 1, by rw [List.length_cons] at fits; omega⟩
      rw [List.length_cons] at fits
      rcases (lt_cons_iff second).mp less with smaller | ⟨same, rest⟩
      · rw [between, room, if_neg smaller.ne, if_neg smaller.ne, Nat.add_sub_cancel]
        by_cases wide : 1 < e - a.headD 0
        · have half := halfway_gt wide
          have single : room base (n + 1) [halfway (a.headD 0) e] (e :: b) =
              Nat.log 2 (e - halfway (a.headD 0) e) +
                if b = [] then roomAbove base n [] else 1 + room base n [] b := by
            rw [room, List.headD_cons, if_neg half.2.ne, List.tail_cons, ite_self, Nat.add_sub_cancel]
          rw [if_pos wide, if_pos (length_singleton_le n), single, if_neg wide.ne', log_gap wide]
          omega
        · have one : e - a.headD 0 = 1 := by omega
          rw [if_neg wide, one, if_pos rfl, Nat.log_one_right]
          by_cases none : b = []
          · rw [if_pos none, if_pos none, room, List.headD_cons, if_neg smaller.ne, if_pos none, List.tail_cons, one,
              if_pos rfl, Nat.log_one_right, Nat.add_sub_cancel, List.length_cons, roomAbove_step two first.tail'.digits]
            simp only [Nat.add_le_add_iff_right]
            split <;> omega
          · rw [if_neg none, if_neg none, if_pos (length_singleton_le n), room, List.headD_cons, if_pos rfl, List.tail_cons,
              Nat.add_sub_cancel]
            omega
      · rw [between, room, if_pos same, if_pos same, List.length_cons, room, List.headD_cons, if_pos rfl, List.tail_cons,
          Nat.add_sub_cancel, ih first.tail' second.tail rest (by omega)]
        simp only [Nat.add_le_add_iff_right]

end FractionalKeys
