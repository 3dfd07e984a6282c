import Mathlib.Algebra.Order.Field.Basic
import Mathlib.Algebra.Order.Field.Rat
import Mathlib.Data.Finset.Card
import Mathlib.Data.List.Induction
import Mathlib.Data.Prod.Lex
import Mathlib.Order.BooleanAlgebra.Basic
import Mathlib.Tactic.Common
import Mathlib.Tactic.Linarith
import Mathlib.Tactic.Ring

/-! # Sharing one thing among many

Turns by least charge per weight, and turns after a cursor. -/

/-! ## Weighted fair share

Parties with weights take turns that cost something. If every turn goes to a
party charged least per weight of those that still have one to come, then two
parties with turns to come are never further apart than one turn.
-/

namespace FairShare

variable {ι : Type*}

/-- Whose turn, and what it costs. -/
structure Turn (ι : Type*) where
  who : ι
  cost : Nat

/-- The largest cost of one turn. -/
def largest (turns : List (Turn ι)) : Nat := (turns.map (·.cost)).foldr max 0

@[simp] theorem largest_nil : largest ([] : List (Turn ι)) = 0 := rfl

theorem le_largest {turns : List (Turn ι)} {x : Turn ι} (member : x ∈ turns) : x.cost ≤ largest turns := by
  induction turns with
  | nil => cases member
  | cons y rest ih =>
      change x.cost ≤ max y.cost (largest rest)
      rcases List.mem_cons.mp member with rfl | later
      · exact le_max_left _ _
      · exact (ih later).trans (le_max_right _ _)

theorem largest_le {turns : List (Turn ι)} {cost : Nat} (bound : ∀ x ∈ turns, x.cost ≤ cost) :
    largest turns ≤ cost := by
  induction turns with
  | nil => exact Nat.zero_le _
  | cons y rest ih =>
      exact max_le (bound y List.mem_cons_self) (ih fun x hx => bound x (List.mem_cons_of_mem y hx))

theorem largest_le_append (front back : List (Turn ι)) : largest front ≤ largest (front ++ back) :=
  largest_le fun _ hx => le_largest (List.mem_append_left back hx)

/-- Has the party one of the turns? -/
def Waits (turns : List (Turn ι)) (i : ι) : Prop := ∃ x ∈ turns, x.who = i

theorem Waits.cons {turns : List (Turn ι)} {i : ι} (waits : Waits turns i) (x : Turn ι) :
    Waits (x :: turns) i :=
  waits.imp fun _ its => ⟨List.mem_cons_of_mem x its.1, its.2⟩

variable [DecidableEq ι]

/-- What a party's turns cost. -/
def charged (turns : List (Turn ι)) (i : ι) : Nat := ((turns.filter (·.who = i)).map (·.cost)).sum

@[simp] theorem charged_nil (i : ι) : charged [] i = 0 := rfl

theorem charged_cons (x : Turn ι) (turns : List (Turn ι)) (i : ι) :
    charged (x :: turns) i = (if x.who = i then x.cost else 0) + charged turns i := by
  unfold charged
  by_cases its : x.who = i
  · simp [its]
  · simp [its]

theorem charged_append (front back : List (Turn ι)) (i : ι) :
    charged (front ++ back) i = charged front i + charged back i := by
  simp [charged, List.filter_append]

theorem charged_eq_count {turns : List (Turn ι)} {cost : Nat} (equal : ∀ x ∈ turns, x.cost = cost) (i : ι) :
    charged turns i = turns.countP (·.who = i) * cost := by
  induction turns with
  | nil => simp
  | cons x rest ih =>
      rw [charged_cons, ih fun y hy => equal y (List.mem_cons_of_mem _ hy), equal x List.mem_cons_self,
        List.countP_cons]
      by_cases its : x.who = i
      · simp [its, Nat.add_mul, Nat.add_comm]
      · simp [its]

/-- Every turn goes to a party charged least per weight of those that still have
    one to come. -/
def LeastFirst (weight : ι → Nat) (turns : List (Turn ι)) : Prop :=
  ∀ before x after, turns = before ++ x :: after → ∀ y ∈ after,
    charged before x.who * weight y.who ≤ charged before y.who * weight x.who

section Bound

variable {weight : ι → Nat} {turns before after : List (Turn ι)} {a b : ι}

/-- Two parties with turns to come are never further apart than the largest turn
    yet. -/
theorem LeastFirst.within (fair : LeastFirst weight turns) (split : turns = before ++ after)
    (more_a : Waits after a) (more_b : Waits after b) :
    charged before a * weight b ≤ charged before b * weight a + largest before * weight b := by
  induction before using List.reverseRecOn generalizing after with
  | nil => simp
  | append_singleton before x ih =>
      have split' : turns = before ++ x :: after := by simpa using split
      have earlier := ih split' (more_a.cons x) (more_b.cons x)
      obtain ⟨y, later, rfl⟩ := more_b
      rw [charged_append, charged_append, charged_cons, charged_cons, charged_nil]
      by_cases its : x.who = a
      · -- The party was charged least when it got the turn.
        subst its
        have least := fair before x after split' y later
        have cost : x.cost ≤ largest (before ++ [x]) := le_largest (by simp)
        calc (charged before x.who + ((if x.who = x.who then x.cost else 0) + 0)) * weight y.who
            = charged before x.who * weight y.who + x.cost * weight y.who := by
              rw [if_pos rfl, Nat.add_zero, Nat.add_mul]
          _ ≤ charged before y.who * weight x.who + largest (before ++ [x]) * weight y.who :=
              Nat.add_le_add least (Nat.mul_le_mul_right _ cost)
          _ ≤ _ := Nat.add_le_add_right (Nat.mul_le_mul_right _ (Nat.le_add_right _ _)) _
      · rw [if_neg its]
        calc charged before a * weight y.who
            ≤ charged before y.who * weight a + largest before * weight y.who := earlier
          _ ≤ _ := Nat.add_le_add (Nat.mul_le_mul_right _ (Nat.le_add_right _ _))
              (Nat.mul_le_mul_right _ (largest_le_append _ _))

/-- The same per weight. -/
theorem LeastFirst.ratio (fair : LeastFirst weight turns) (split : turns = before ++ after)
    (more_a : Waits after a) (more_b : Waits after b) (pos_a : 0 < weight a) (pos_b : 0 < weight b) :
    (charged before a : ℚ) / weight a ≤ charged before b / weight b + largest before / weight a := by
  have bound := fair.within split more_a more_b
  have wa : (0 : ℚ) < weight a := by exact_mod_cast pos_a
  have wb : (0 : ℚ) < weight b := by exact_mod_cast pos_b
  have cast : (charged before a : ℚ) * weight b ≤
      charged before b * weight a + largest before * weight b := by exact_mod_cast bound
  rw [div_add_div _ _ wb.ne' wa.ne', div_le_div_iff₀ wa (mul_pos wb wa)]
  have scaled := mul_le_mul_of_nonneg_right cast wa.le
  linarith

/-- Where all turns cost the same, their numbers are as the weights up to one turn. -/
theorem LeastFirst.counts (fair : LeastFirst weight turns) (split : turns = before ++ after)
    (more_a : Waits after a) (more_b : Waits after b) (pos_b : 0 < weight b) {cost : Nat}
    (pos : 0 < cost) (equal : ∀ x ∈ before, x.cost = cost) :
    (before.countP (·.who = a) : ℚ) ≤ before.countP (·.who = b) * (weight a / weight b) + 1 := by
  have bound := fair.within split more_a more_b
  rw [charged_eq_count equal, charged_eq_count equal] at bound
  have turns_bound : before.countP (·.who = a) * weight b ≤
      before.countP (·.who = b) * weight a + weight b := by
    have largest_eq : largest before ≤ cost := largest_le fun x hx => (equal x hx).le
    refine Nat.le_of_mul_le_mul_left ?_ pos
    calc cost * (before.countP (·.who = a) * weight b)
        = before.countP (·.who = a) * cost * weight b := by ring
      _ ≤ before.countP (·.who = b) * cost * weight a + largest before * weight b := bound
      _ ≤ before.countP (·.who = b) * cost * weight a + cost * weight b :=
          Nat.add_le_add_left (Nat.mul_le_mul_right _ largest_eq) _
      _ = cost * (before.countP (·.who = b) * weight a + weight b) := by ring
  have wb : (0 : ℚ) < weight b := by exact_mod_cast pos_b
  have cast : (before.countP (·.who = a) : ℚ) * weight b ≤
      before.countP (·.who = b) * weight a + weight b := by exact_mod_cast turns_bound
  rw [mul_div_assoc', div_add_one wb.ne', le_div_iff₀ wb]
  exact cast

end Bound

end FairShare

/-! ## Taking turns after a cursor

Keys take turns in their order, starting after the key that was served last and
wrapping around. `turn last` is the order of one round; the next key is its
least one. A key that waits is overtaken only by keys strictly ahead of it, and
each one served so leaves the set of them: `Overtakes.own_le`.

A cursor may also be moved from outside the rotation. As long as no such move
puts it onto or past a waiting key, the key has its turn within as many turns as
there are keys: `TakesTurns.served`.
-/

namespace RoundRobin

variable {α : Type*} [LinearOrder α]

/-- Where a key stands in the round after `last`: the keys above it first, then
    the rest. -/
def turn (last : Option α) (k : α) : Bool ×ₗ α := toLex (last.any (k ≤ ·), k)

theorem turn_injective (last : Option α) : Function.Injective (turn last) := by
  intro a b same
  simp only [turn, toLex_inj, Prod.mk.injEq] at same
  exact same.2

/-- The key whose turn it is. -/
structure IsNext (keys : α → Prop) (last : Option α) (x : α) : Prop where
  mem : keys x
  le : ∀ k, keys k → turn last x ≤ turn last k

theorem IsNext.unique {keys : α → Prop} {last : Option α} {x y : α} (hx : IsNext keys last x)
    (hy : IsNext keys last y) : x = y :=
  turn_injective last (le_antisymm (hx.le y hy.mem) (hy.le x hx.mem))

/-- A waiting key other than the next one is behind it. -/
theorem IsNext.lt {keys : α → Prop} {last : Option α} {x w : α} (next : IsNext keys last x)
    (waits : keys w) (different : x ≠ w) : turn last x < turn last w :=
  lt_of_le_of_ne (next.le w waits) fun same => different (turn_injective last same)

/-- Once the cursor stands on a key ahead of `w`, what is still ahead of `w` was
    ahead before, and the key itself no longer is. -/
theorem ahead_of_served {last : Option α} {x w y : α} (ahead : turn last x < turn last w)
    (still : turn (some x) y < turn (some x) w) : turn last y < turn last w ∧ y ≠ x := by
  cases last with
  | none =>
      simp only [turn, Option.any_none, Option.any_some, Prod.Lex.toLex_lt_toLex, Bool.lt_iff,
        decide_eq_false_iff_not, decide_eq_true_eq, decide_eq_decide] at ahead still ⊢
      grind
  | some c =>
      simp only [turn, Option.any_some, Prod.Lex.toLex_lt_toLex, Bool.lt_iff,
        decide_eq_false_iff_not, decide_eq_true_eq, decide_eq_decide] at ahead still ⊢
      grind

/-- The keys of `all` ahead of `w` in the round after `last`. -/
def ahead (all : Finset α) (last : Option α) (w : α) : Finset α :=
  all.filter fun y => turn last y < turn last w

theorem ahead_card_lt {all : Finset α} {w : α} (member : w ∈ all) (last : Option α) :
    (ahead all last w).card < all.card :=
  Finset.card_lt_card (Finset.filter_ssubset.mpr ⟨w, member, lt_irrefl _⟩)

/-- One move of the cursor: by a turn of the rotation (`own`), or from outside. -/
structure Move (α : Type*) where
  own : Bool
  target : α

/-- `w` waits through the moves from `last`: every turn goes to a key ahead of
    it, and a move from outside leaves the cursor or puts it ahead of `w`. -/
inductive Overtakes (w : α) : Option α → List (Move α) → Prop where
  | nil {last} : Overtakes w last []
  | own {last x rest} (ahead : turn last x < turn last w) (later : Overtakes w (some x) rest) :
      Overtakes w last (⟨true, x⟩ :: rest)
  | outside {last x rest} (unpassed : last = some x ∨ turn last x < turn last w)
      (later : Overtakes w (some x) rest) : Overtakes w last (⟨false, x⟩ :: rest)

/-- A waiting key sits through no more turns than there are keys ahead of it. -/
theorem Overtakes.own_le {w : α} {all : Finset α} {last : Option α} {moves : List (Move α)}
    (overtakes : Overtakes w last moves) (known : ∀ m ∈ moves, m.target ∈ all) :
    moves.countP (·.own) ≤ (RoundRobin.ahead all last w).card := by
  induction overtakes with
  | nil => exact Nat.zero_le _
  | @own last x rest before later ih =>
      have tail := ih fun m hm => known m (List.mem_cons_of_mem _ hm)
      have fewer : RoundRobin.ahead all (some x) w ⊂ RoundRobin.ahead all last w := by
        refine Finset.ssubset_iff_of_subset (fun y hy => ?_) |>.mpr ⟨x, ?_, ?_⟩
        · obtain ⟨member, still⟩ := Finset.mem_filter.mp hy
          exact Finset.mem_filter.mpr ⟨member, (ahead_of_served before still).1⟩
        · exact Finset.mem_filter.mpr ⟨known ⟨true, x⟩ (by simp), before⟩
        · intro hx
          exact (ahead_of_served before (Finset.mem_filter.mp hx).2).2 rfl
      have := Finset.card_lt_card fewer
      simp only [List.countP_cons_of_pos]
      omega
  | @outside last x rest unpassed later ih =>
      have tail := ih fun m hm => known m (List.mem_cons_of_mem _ hm)
      have no_more : RoundRobin.ahead all (some x) w ⊆ RoundRobin.ahead all last w := by
        rcases unpassed with rfl | before
        · exact subset_rfl
        · intro y hy
          obtain ⟨member, still⟩ := Finset.mem_filter.mp hy
          exact Finset.mem_filter.mpr ⟨member, (ahead_of_served before still).1⟩
      have := Finset.card_le_card no_more
      simp only [List.countP_cons, Bool.false_eq_true, if_false]
      omega

/-- The cursor's moves from `last` while `w` waits: each own one goes to the key
    whose turn it is, and one from outside leaves the cursor or puts it ahead of
    `w`. -/
inductive TakesTurns (w : α) : Option α → List (Move α) → Prop where
  | nil {last} : TakesTurns w last []
  | own {keys : α → Prop} {last x rest} (next : IsNext keys last x) (waits : keys w)
      (later : TakesTurns w (some x) rest) : TakesTurns w last (⟨true, x⟩ :: rest)
  | outside {last x rest} (unpassed : last = some x ∨ turn last x < turn last w)
      (later : TakesTurns w (some x) rest) : TakesTurns w last (⟨false, x⟩ :: rest)

theorem TakesTurns.overtakes {w : α} {last : Option α} {moves : List (Move α)} (turns : TakesTurns w last moves)
    (unserved : ∀ m ∈ moves, m.own = true → m.target ≠ w) : Overtakes w last moves := by
  induction turns with
  | nil => exact .nil
  | @own _ _ x _ next waits later ih =>
      exact .own (next.lt waits (unserved ⟨true, x⟩ List.mem_cons_self rfl))
        (ih fun m hm => unserved m (List.mem_cons_of_mem _ hm))
  | outside unpassed later ih =>
      exact .outside unpassed (ih fun m hm => unserved m (List.mem_cons_of_mem _ hm))

/-- A waiting key has its turn within as many turns as there are keys. -/
theorem TakesTurns.served {w : α} {all : Finset α} {last : Option α} {moves : List (Move α)}
    (turns : TakesTurns w last moves) (member : w ∈ all) (known : ∀ m ∈ moves, m.target ∈ all)
    (enough : all.card ≤ moves.countP (·.own)) : ∃ m ∈ moves, m.own = true ∧ m.target = w := by
  by_contra none_served
  simp only [not_exists, not_and] at none_served
  have few := (turns.overtakes none_served).own_le known
  have fewer := ahead_card_lt member last
  omega

end RoundRobin
