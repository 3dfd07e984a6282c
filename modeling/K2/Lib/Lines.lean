import Mathlib.Algebra.GroupWithZero.Nat
import Mathlib.Data.List.Chain
import Mathlib.Data.List.DropRight
import Mathlib.Data.List.SplitBy
import Mathlib.Tactic.Common

/-! # Lists cut into runs, lines cut into rows

How a list falls into parts, and what is found again when the parts are put together. -/

/-! ## Lists cut into runs

A list falls into runs of elements with one key, neighbours under different
keys. A cut grows by an element at the end, in the last run or in a run of its
own, and shrinks from the end. -/

namespace Runs

variable {α β κ : Type} {key : α → κ}

/-- `groups` are the runs of `xs`. -/
structure Cut (key : α → κ) (xs : List α) (groups : List (List α)) : Prop where
  joined : groups.flatten = xs
  nonempty : ∀ g ∈ groups, g ≠ []
  uniform : ∀ g ∈ groups, ∀ a ∈ g, ∀ b ∈ g, key a = key b
  apart : groups.IsChain fun g h => ∀ a ∈ g, ∀ b ∈ h, key a ≠ key b

namespace Cut

variable {xs : List α} {x : α} {groups : List (List α)} {g tail : List α}

theorem nil : Cut key [] [] := ⟨rfl, by simp, by simp, .nil⟩

/-- Without its last run. -/
theorem init (cut : Cut key xs (groups ++ [g])) : Cut key groups.flatten groups where
  joined := rfl
  nonempty h member := cut.nonempty h (List.mem_append_left _ member)
  uniform h member := cut.uniform h (List.mem_append_left _ member)
  apart := (List.isChain_append.mp cut.apart).1

/-- An element under another key begins a run. -/
theorem fresh (cut : Cut key xs (groups ++ [g])) (other : ∀ a ∈ g, key a ≠ key x) :
    Cut key (xs ++ [x]) (groups ++ [g] ++ [[x]]) where
  joined := by rw [List.flatten_append, cut.joined]; simp
  nonempty := List.forall_mem_append.mpr ⟨cut.nonempty, by simp⟩
  uniform := List.forall_mem_append.mpr ⟨cut.uniform, by simp⟩
  apart := by
    refine cut.apart.append (.singleton _) fun h last first begins => ?_
    obtain rfl : g = h := by simpa using last
    obtain rfl : [x] = first := by simpa using begins
    simpa using other

theorem single (x : α) : Cut key [x] [[x]] := ⟨rfl, by simp, by simp, .singleton _⟩

/-- A run of the same key takes the element in. -/
theorem extend (cut : Cut key xs (groups ++ [g])) (same : ∀ a ∈ g, key a = key x) :
    Cut key (xs ++ [x]) (groups ++ [g ++ [x]]) where
  joined := by
    rw [← cut.joined]
    simp
  nonempty := List.forall_mem_append.mpr ⟨cut.init.nonempty, by simp⟩
  uniform := List.forall_mem_append.mpr ⟨cut.init.uniform, by
    have last := cut.uniform g (by simp)
    simp only [List.mem_singleton, forall_eq, List.mem_append]
    rintro a (old | rfl) b (old' | rfl)
    · exact last a old b old'
    · exact same a old
    · exact (same b old').symm
    · rfl⟩
  apart := by
    have nonempty := cut.nonempty g (by simp)
    obtain ⟨early, -, border⟩ := List.isChain_append.mp cut.apart
    refine early.append (.singleton _) fun h last first begins a old b new => ?_
    obtain rfl : g ++ [x] = first := by simpa using begins
    have apart := border h last g (by simp) a old
    rcases List.mem_append.mp new with there | here
    · exact apart b there
    · obtain rfl : b = x := by simpa using here
      obtain ⟨c, inside⟩ := List.exists_mem_of_ne_nil g nonempty
      exact same c inside ▸ apart c inside

/-- With the end of its last run gone, but not all of it. -/
theorem shorten (cut : Cut key xs (groups ++ [g ++ tail])) (rest : g ≠ []) :
    Cut key (groups ++ [g]).flatten (groups ++ [g]) where
  joined := rfl
  nonempty := List.forall_mem_append.mpr ⟨cut.init.nonempty, by simpa using rest⟩
  uniform := List.forall_mem_append.mpr ⟨cut.init.uniform, by
    have last := cut.uniform (g ++ tail) (by simp)
    simp only [List.mem_singleton, forall_eq]
    exact fun a here b there => last a (List.mem_append_left _ here) b (List.mem_append_left _ there)⟩
  apart := by
    obtain ⟨early, -, border⟩ := List.isChain_append.mp cut.apart
    refine early.append (.singleton _) fun h last first begins a old b new => ?_
    obtain rfl : g = first := by simpa using begins
    exact border h last (g ++ tail) (by simp) a old b (List.mem_append_left _ new)

/-- A list falls into runs in one way. -/
theorem eq_splitBy [DecidableEq κ] (cut : Cut key xs groups) : groups = xs.splitBy (key · = key ·) := by
  refine (List.splitBy_eq_iff.mpr ⟨cut.joined.symm, fun empty => cut.nonempty [] empty rfl, fun g member => ?_, ?_⟩).symm
  · refine List.isChain_iff_getElem.mpr fun i inside => decide_eq_true ?_
    exact cut.uniform g member _ (List.getElem_mem _) _ (List.getElem_mem _)
  · refine cut.apart.imp_of_mem_imp fun g h member member' border => ?_
    exact ⟨cut.nonempty g member, cut.nonempty h member', decide_eq_false (border _ (List.getLast_mem _) _ (List.head_mem _))⟩

end Cut

/-! ## Ends -/

/-- What all of a list's end satisfies goes with it. -/
theorem rdropWhile_append_of_all {p : α → Bool} {ys : List α} (all : ∀ y ∈ ys, p y) (xs : List α) :
    (xs ++ ys).rdropWhile p = xs.rdropWhile p := by
  induction ys using List.reverseRecOn generalizing xs with
  | nil => rw [List.append_nil]
  | append_singleton ys y ih =>
      rw [← List.append_assoc, List.rdropWhile_concat_pos _ _ _ (all y (by simp))]
      exact ih (fun z member => all z (List.mem_append_left _ member)) xs

/-- Once one of the end stays, nothing before the end goes. -/
theorem rdropWhile_append_of_any {p : α → Bool} {ys : List α} (stays : ys.rdropWhile p ≠ []) (xs : List α) :
    (xs ++ ys).rdropWhile p = xs ++ ys.rdropWhile p := by
  induction ys using List.reverseRecOn with
  | nil => exact absurd rfl stays
  | append_singleton ys y ih =>
      rw [← List.append_assoc]
      by_cases goes : p y
      · rw [List.rdropWhile_concat_pos _ _ _ goes] at stays ⊢
        rw [List.rdropWhile_concat_pos _ _ _ goes]
        exact ih stays
      · rw [List.rdropWhile_concat_neg _ _ _ goes, List.rdropWhile_concat_neg _ _ _ goes,
          List.append_assoc]

theorem rdropWhile_congr {p q : α → Bool} {xs : List α} (same : ∀ x ∈ xs, p x = q x) :
    xs.rdropWhile p = xs.rdropWhile q := by
  induction xs using List.reverseRecOn with
  | nil => rfl
  | append_singleton xs x ih =>
      rw [List.rdropWhile_concat, List.rdropWhile_concat, same x (by simp),
        ih fun y member => same y (List.mem_append_left _ member)]

theorem map_rdropWhile (p : β → Bool) (f : α → β) (xs : List α) :
    (xs.rdropWhile (p ∘ f)).map f = (xs.map f).rdropWhile p := by
  induction xs using List.reverseRecOn with
  | nil => rfl
  | append_singleton xs x ih =>
      rw [List.map_append, List.map_singleton, List.rdropWhile_concat, List.rdropWhile_concat, ← ih]
      simp only [Function.comp_apply]
      split
      · rfl
      · rw [List.map_append, List.map_singleton]

/-- Dropping from the end of pieces drops whole pieces, when a piece goes whole or
    ends in what stays. -/
theorem rdropWhile_flatMap {p : β → Bool} {q : α → Bool} {f : α → List β} {xs : List α}
    (goes : ∀ x ∈ xs, q x → ∀ b ∈ f x, p b) (stays : ∀ x ∈ xs, q x = false → ∃ l b, f x = l ++ [b] ∧ p b = false) :
    (xs.flatMap f).rdropWhile p = (xs.rdropWhile q).flatMap f := by
  induction xs using List.reverseRecOn with
  | nil => rfl
  | append_singleton xs x ih =>
      rw [List.flatMap_append, List.flatMap_singleton]
      cases last : q x with
      | true =>
          rw [List.rdropWhile_concat_pos _ _ _ last,
            rdropWhile_append_of_all (goes x (by simp) last)]
          exact ih (fun y member => goes y (List.mem_append_left _ member))
            fun y member => stays y (List.mem_append_left _ member)
      | false =>
          obtain ⟨l, b, ends, kept⟩ := stays x (by simp) last
          rw [List.rdropWhile_concat_neg _ _ _ (by simp [last]), ends, ← List.append_assoc,
            List.rdropWhile_concat_neg _ _ _ (by simp [kept]), List.flatMap_append,
            List.flatMap_singleton, ends, List.append_assoc]

end Runs

/-! ## Softly wrapped lines

Rows say whether they go on in the next row; a logical line is the rows up to
one that does not. Content is cut in pieces of a width, and a row loses the
blanks at its end: what is not blank stays, and so does all of a line that no
cut meets at a blank. -/

namespace SoftWrap

variable {α β : Type}

/-- Rows by logical line; the last line may be left open. -/
def logicalLines (continues : β → Bool) : List β → List (List β)
  | [] => []
  | row :: rest =>
      if continues row then
        match logicalLines continues rest with
        | [] => [[row]]
        | line :: lines => (row :: line) :: lines
      else [row] :: logicalLines continues rest

section Lines

variable {continues : β → Bool}

/-- Rows that go on up to the last are one line. -/
theorem logicalLines_closed {init : List β} {last : β} (continued : ∀ row ∈ init, continues row)
    (closed : continues last = false) (rest : List β) :
    logicalLines continues (init ++ last :: rest) = (init ++ [last]) :: logicalLines continues rest := by
  induction init with
  | nil => simp [logicalLines, closed]
  | cons row init ih =>
      rw [List.cons_append, logicalLines, if_pos (continued row List.mem_cons_self),
        ih fun other member => continued other (List.mem_cons_of_mem _ member)]
      rfl

/-- Rows that go on, up to the one row that does not. -/
def Closed (continues : β → Bool) (rows : List β) : Prop :=
  ∃ init last, rows = init ++ [last] ∧ (∀ row ∈ init, continues row) ∧ continues last = false

/-- Closed lines, one after another, are the lines of their rows. -/
theorem logicalLines_flatten {lines : List (List β)} (closed : ∀ line ∈ lines, Closed continues line) :
    logicalLines continues lines.flatten = lines := by
  induction lines with
  | nil => rfl
  | cons line lines ih =>
      obtain ⟨init, last, rfl, continued, ends⟩ := closed line List.mem_cons_self
      rw [List.flatten_cons, List.append_assoc, List.singleton_append, logicalLines_closed continued ends,
        ih fun other member => closed other (List.mem_cons_of_mem _ member)]

theorem logicalLines_map (f : α → β) (rows : List α) :
    logicalLines continues (rows.map f) = (logicalLines (continues ∘ f) rows).map (List.map f) := by
  induction rows with
  | nil => rfl
  | cons row rest ih =>
      rw [List.map_cons, logicalLines, logicalLines, ih]
      simp only [Function.comp_apply]
      split
      · cases logicalLines (continues ∘ f) rest <;> rfl
      · rfl

variable (continues) in
/-- No row is lost. -/
theorem flatten_logicalLines (rows : List β) : (logicalLines continues rows).flatten = rows := by
  induction rows with
  | nil => rfl
  | cons row rest ih =>
      rw [logicalLines]
      split
      · split
        · rename_i none
          rw [none] at ih
          rw [← ih]
          rfl
        · rename_i line lines more
          rw [more] at ih
          rw [← ih]
          rfl
      · rw [List.flatten_cons, ih]
        rfl

end Lines

/-! ## Pieces -/

/-- Content in pieces of at most `w`. -/
def pieces (w : Nat) (xs : List α) : List (List α) :=
  if 0 < w ∧ w < xs.length then xs.take w :: pieces w (xs.drop w) else [xs]
termination_by xs.length
decreasing_by
  rename_i long
  rw [List.length_drop]
  omega

section Pieces

variable {w : Nat} {xs : List α}

theorem pieces_long (wide : 0 < w) (long : w < xs.length) :
    pieces w xs = xs.take w :: pieces w (xs.drop w) := by
  rw [pieces, if_pos ⟨wide, long⟩]

theorem pieces_short (short : xs.length ≤ w) : pieces w xs = [xs] := by
  rw [pieces, if_neg (by omega)]

theorem flatten_pieces (w : Nat) (xs : List α) : (pieces w xs).flatten = xs := by
  induction xs using pieces.induct w with
  | case1 xs long ih => rw [pieces, if_pos long, List.flatten_cons, ih, List.take_append_drop]
  | case2 xs short => rw [pieces, if_neg short, List.flatten_singleton]

theorem length_of_mem_pieces (wide : 0 < w) {piece : List α} (member : piece ∈ pieces w xs) :
    piece.length ≤ w := by
  induction xs using pieces.induct w with
  | case1 xs long ih =>
      rw [pieces, if_pos long] at member
      rcases List.mem_cons.mp member with rfl | later
      · exact List.length_take_le _ _
      · exact ih later
  | case2 xs short =>
      rw [pieces, if_neg short] at member
      obtain rfl : piece = xs := by simpa using member
      omega

end Pieces

/-! ## Blanks -/

section Blanks

variable {blank : α → Bool}

/-- What is not blank. -/
def solid (blank : α → Bool) (xs : List α) : List α := xs.filter (!blank ·)

theorem solid_append (xs ys : List α) : solid blank (xs ++ ys) = solid blank xs ++ solid blank ys :=
  List.filter_append ..

theorem solid_rdropWhile (xs : List α) : solid blank (xs.rdropWhile blank) = solid blank xs := by
  have gone : solid blank (xs.rtakeWhile blank) = [] :=
    List.filter_eq_nil_iff.mpr fun x member => by simp [List.mem_rtakeWhile_imp member]
  conv_rhs => rw [← List.rdropWhile_append_rtakeWhile (p := blank) (l := xs), solid_append, gone,
    List.append_nil]

theorem solid_flatMap_rdropWhile (rows : List (List α)) :
    solid blank (rows.flatMap (·.rdropWhile blank)) = solid blank rows.flatten := by
  induction rows with
  | nil => rfl
  | cons row rest ih => rw [List.flatMap_cons, List.flatten_cons, solid_append, solid_append, solid_rdropWhile, ih]

/-- Rows joined, each without the blanks before the next. -/
def joined (blank : α → Bool) (rows : List (List α)) : List α :=
  rows.foldl (fun text row => text.rdropWhile blank ++ row) []

theorem joined_concat (rows : List (List α)) (row : List α) :
    joined blank (rows ++ [row]) = (joined blank rows).rdropWhile blank ++ row := by
  rw [joined, List.foldl_append]
  rfl

theorem length_joined_le (rows : List (List α)) : (joined blank rows).length ≤ (rows.map List.length).sum := by
  induction rows using List.reverseRecOn with
  | nil => exact Nat.le_refl 0
  | append_singleton rows row ih =>
      have fewer := (List.rdropWhile_prefix blank (joined blank rows)).length_le
      rw [joined_concat, List.length_append, List.map_append, List.sum_append, List.map_singleton,
        List.sum_singleton]
      omega

theorem solid_joined (rows : List (List α)) : solid blank (joined blank rows) = solid blank rows.flatten := by
  induction rows using List.reverseRecOn with
  | nil => rfl
  | append_singleton rows row ih =>
      rw [joined_concat, solid_append, solid_rdropWhile, ih, List.flatten_append, solid_append,
        List.flatten_singleton]

theorem rdropWhile_append_self {xs ys : List α} (first : xs.rdropWhile blank = xs)
    (second : ys.rdropWhile blank = ys) : (xs ++ ys).rdropWhile blank = xs ++ ys := by
  cases ys using List.reverseRecOn with
  | nil => rw [List.append_nil, first]
  | append_singleton ys y => rw [Runs.rdropWhile_append_of_any (by rw [second]; simp), second]

/-- Rows that end in no blank are joined as they are. -/
theorem joined_of_trimmed {rows : List (List α)} (trimmed : ∀ row ∈ rows, row.rdropWhile blank = row) :
    joined blank rows = rows.flatten ∧ rows.flatten.rdropWhile blank = rows.flatten := by
  induction rows using List.reverseRecOn with
  | nil => exact ⟨rfl, rfl⟩
  | append_singleton rows row ih =>
      obtain ⟨whole, ends⟩ := ih fun other member => trimmed other (List.mem_append_left _ member)
      rw [joined_concat, whole, ends, List.flatten_append, List.flatten_singleton]
      exact ⟨rfl, rdropWhile_append_self ends (trimmed row (by simp))⟩

/-- No cut of a line falls right after a blank. -/
def Unbroken (blank : α → Bool) (w : Nat) (xs : List α) : Prop :=
  ∀ i x, 0 < i → i % w = 0 → i < xs.length → xs[i - 1]? = some x → blank x = false

theorem Unbroken.drop {w : Nat} {xs : List α} (unbroken : Unbroken blank w xs) :
    Unbroken blank w (xs.drop w) := by
  intro i x positive whole inside found
  rw [List.length_drop] at inside
  rw [List.getElem?_drop] at found
  refine unbroken (w + i) x (by omega) (by rw [Nat.add_mod_left, whole]) (by omega) ?_
  rw [← found]
  congr 1
  omega

/-- A list that ends in what is not blank keeps its end. -/
theorem rdropWhile_of_getLast? {xs : List α} (ends : ∀ x, xs.getLast? = some x → blank x = false) :
    xs.rdropWhile blank = xs := by
  rw [List.rdropWhile_eq_self_iff]
  intro some
  simp [ends _ (List.getLast?_eq_getLast_of_ne_nil some)]

/-- Then the pieces lose nothing. -/
theorem flatMap_pieces_of_unbroken {w : Nat} (wide : 0 < w) {xs : List α} (unbroken : Unbroken blank w xs)
    (ends : xs.rdropWhile blank = xs) : (pieces w xs).flatMap (·.rdropWhile blank) = xs := by
  induction xs using pieces.induct w with
  | case1 xs long ih =>
      have cut : (xs.take w).rdropWhile blank = xs.take w := rdropWhile_of_getLast? fun x last => by
        refine unbroken w x wide (Nat.mod_self w) long.2 ?_
        rw [List.getLast?_eq_getElem?, List.length_take, Nat.min_eq_left long.2.le,
          List.getElem?_take_of_lt (by omega)] at last
        exact last
      have more : xs.drop w ≠ [] := fun none => by
        have short := congrArg List.length none
        rw [List.length_drop, List.length_nil] at short
        omega
      have tail : (xs.drop w).rdropWhile blank = xs.drop w := by
        rw [List.rdropWhile_eq_self_iff] at ends ⊢
        intro some
        rw [List.getLast_drop]
        exact ends fun none => some (by rw [none, List.drop_nil])
      rw [pieces_long wide long.2, List.flatMap_cons, cut, ih unbroken.drop tail, List.take_append_drop]
  | case2 xs short => rw [pieces, if_neg short, List.flatMap_singleton, ends]

end Blanks

end SoftWrap
