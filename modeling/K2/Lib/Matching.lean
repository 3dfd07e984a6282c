import Mathlib.Data.List.Infix
import Mathlib.Data.List.TakeWhile
import Mathlib.Tactic.Common

/-! # Searching for many patterns at once

At every position not inside an earlier match the longest pattern that starts
there is taken, the earliest of equally long ones. Where no pattern can still
grow past the end of what was read, the search does not depend on what comes
next. -/

namespace Matching

variable {α β : Type} [DecidableEq α]

structure Match where
  pattern : Nat
  start : Nat
  stop : Nat
  deriving Repr, DecidableEq

/-- The longest pattern `rest` starts with, and its length. -/
def longestAt (rest : List α) : List (List α) → Option (Nat × Nat)
  | [] => none
  | p :: later =>
      match longestAt rest later with
      | none => if p <+: rest then some (0, p.length) else none
      | some (k, n) => if p <+: rest ∧ n ≤ p.length then some (0, p.length) else some (k + 1, n)

/-- The matches from position `pos` on, when the next `skip` elements belong to
    the last one. -/
def matchesFrom (pats : List (List α)) : Nat → Nat → List α → List Match
  | _, _, [] => []
  | pos, skip + 1, _ :: rest => matchesFrom pats (pos + 1) skip rest
  | pos, 0, x :: rest =>
      match longestAt (x :: rest) pats with
      | some (k, n) => { pattern := k, start := pos, stop := pos + n } :: matchesFrom pats (pos + 1) (n - 1) rest
      | none => matchesFrom pats (pos + 1) 0 rest

/-- The non-overlapping leftmost-longest matches of an input. -/
def leftmostLongest (pats : List (List α)) (input : List α) : List Match := matchesFrom pats 0 0 input

theorem longestAt_mem {rest : List α} {pats : List (List α)} {k n : Nat} (found : longestAt rest pats = some (k, n)) :
    ∃ p, pats[k]? = some p ∧ p.length = n ∧ p <+: rest := by
  induction pats generalizing k with
  | nil => cases found
  | cons p later ih =>
      rw [longestAt] at found
      rcases tail : longestAt rest later with _ | ⟨j, m⟩
      · rw [tail] at found
        dsimp only at found
        split at found
        next starts =>
          cases found
          exact ⟨p, rfl, rfl, starts⟩
        next => cases found
      · rw [tail] at found
        dsimp only at found
        split at found
        next starts =>
          cases found
          exact ⟨p, rfl, rfl, starts.1⟩
        next =>
          cases found
          exact ih tail

/-- A pattern that starts here is not longer than what is taken. -/
theorem longestAt_ge {rest p : List α} {pats : List (List α)} (mem : p ∈ pats) (starts : p <+: rest) :
    ∃ k n, longestAt rest pats = some (k, n) ∧ p.length ≤ n := by
  induction pats with
  | nil => cases mem
  | cons q later ih =>
      rw [longestAt]
      rcases List.mem_cons.mp mem with rfl | mem
      · rcases longestAt rest later with _ | ⟨k, n⟩
        · exact ⟨0, p.length, if_pos starts, le_rfl⟩
        · dsimp only
          by_cases longer : p <+: rest ∧ n ≤ p.length
          · exact ⟨0, p.length, if_pos longer, le_rfl⟩
          · refine ⟨k + 1, n, if_neg longer, ?_⟩
            have := not_and.mp longer starts
            omega
      · obtain ⟨k, n, tail, reach⟩ := ih mem
        rw [tail]
        dsimp only
        by_cases longer : q <+: rest ∧ n ≤ q.length
        · exact ⟨0, q.length, if_pos longer, by omega⟩
        · exact ⟨k + 1, n, if_neg longer, reach⟩

theorem longestAt_congr {rest other : List α} {pats : List (List α)} (same : ∀ p ∈ pats, p <+: rest ↔ p <+: other) :
    longestAt rest pats = longestAt other pats := by
  induction pats with
  | nil => rfl
  | cons p later ih =>
      rw [longestAt, longestAt, ih fun q mem => same q (List.mem_cons_of_mem _ mem)]
      simp only [same p (List.mem_cons_self ..)]

/-- No pattern reaches past the end of what was read. -/
def Closed (pats : List (List α)) (rest : List α) : Prop := ∀ p ∈ pats, ¬(rest.length < p.length ∧ rest <+: p)

/-- Then what comes next does not matter. -/
theorem longestAt_append {rest : List α} {pats : List (List α)} (closed : Closed pats rest) (more : List α) :
    longestAt (rest ++ more) pats = longestAt rest pats := by
  refine longestAt_congr fun p mem => ⟨fun whole => ?_, fun part => part.trans (List.prefix_append ..)⟩
  rcases Nat.lt_or_ge rest.length p.length with longer | fits
  · exact absurd ⟨longer, List.prefix_of_prefix_length_le (List.prefix_append ..) whole longer.le⟩ (closed p mem)
  · exact List.prefix_of_prefix_length_le whole (List.prefix_append ..) fits

/-! ## Replacing -/

/-- Every match replaced, up to the first position at or after `safe` that is
    not inside one; and what is left there. -/
def rewriteUpTo (pats : List (List α)) (put : Nat → List α) : Nat → Nat → List α → List α × List α
  | _, _, [] => ([], [])
  | safe, skip + 1, _ :: rest => rewriteUpTo pats put (safe - 1) skip rest
  | 0, 0, x :: rest => ([], x :: rest)
  | safe + 1, 0, x :: rest =>
      match longestAt (x :: rest) pats with
      | some (k, n) =>
          let (out, left) := rewriteUpTo pats put safe (n - 1) rest
          (put k ++ out, left)
      | none =>
          let (out, left) := rewriteUpTo pats put safe 0 rest
          (x :: out, left)

/-- Every match replaced. -/
def rewrite (pats : List (List α)) (put : Nat → List α) (skip : Nat) (input : List α) : List α :=
  (rewriteUpTo pats put input.length skip input).1

variable {pats : List (List α)} {put : Nat → List α}

theorem rewrite_cons_skip (skip : Nat) (x : α) (rest : List α) :
    rewrite pats put (skip + 1) (x :: rest) = rewrite pats put skip rest := by
  rw [rewrite, rewriteUpTo]
  rfl

theorem rewrite_cons_found {x : α} {rest : List α} {k n : Nat} (found : longestAt (x :: rest) pats = some (k, n)) :
    rewrite pats put 0 (x :: rest) = put k ++ rewrite pats put (n - 1) rest := by
  rw [rewrite, List.length_cons, rewriteUpTo, found]
  rfl

theorem rewrite_cons_none {x : α} {rest : List α} (none : longestAt (x :: rest) pats = none) :
    rewrite pats put 0 (x :: rest) = x :: rewrite pats put 0 rest := by
  rw [rewrite, List.length_cons, rewriteUpTo, none]
  rfl

theorem rewrite_no_patterns (input : List α) : rewrite [] put 0 input = input := by
  induction input with
  | nil => rfl
  | cons x rest ih => rw [rewrite_cons_none rfl, ih]

/-- What was rewritten up to a safe place goes before what the rest is rewritten
    to, whatever the rest turns out to be. -/
theorem rewrite_append {hold safe skip : Nat} {buf : List α} (counted : safe = buf.length - hold)
    (closed : ∀ tail, tail <:+ buf → hold < tail.length → Closed pats tail) (inside : skip ≤ buf.length) (more : List α) :
    rewrite pats put skip (buf ++ more) =
      (rewriteUpTo pats put safe skip buf).1 ++ rewrite pats put 0 ((rewriteUpTo pats put safe skip buf).2 ++ more) := by
  induction buf generalizing safe skip with
  | nil =>
      obtain rfl : skip = 0 := Nat.le_zero.mp inside
      rw [rewriteUpTo]
      rfl
  | cons x rest ih =>
      rw [List.length_cons] at counted inside
      have later (tail : List α) (mem : tail <:+ rest) := closed tail (mem.trans (List.suffix_cons x rest))
      match safe, skip with
      | safe, skip + 1 =>
          rw [List.cons_append, rewrite_cons_skip, rewriteUpTo]
          exact ih (by omega) later (by omega)
      | 0, 0 => rfl
      | safe + 1, 0 =>
          have same := longestAt_append (closed _ List.suffix_rfl (by rw [List.length_cons]; omega)) more
          rw [List.cons_append] at same
          rw [List.cons_append]
          rcases found : longestAt (x :: rest) pats with _ | ⟨k, n⟩
          · rw [rewrite_cons_none (same.trans found), ih (show safe = rest.length - hold by omega) later (Nat.zero_le _), rewriteUpTo,
              found]
            rfl
          · obtain ⟨p, -, size, starts⟩ := longestAt_mem found
            have fits := starts.length_le
            rw [List.length_cons] at fits
            rw [rewrite_cons_found (same.trans found), ih (show safe = rest.length - hold by omega) later (by omega), rewriteUpTo, found]
            exact (List.append_assoc ..).symm

/-! ## Cutting the input -/

/-- No pattern that starts before a cut reaches past it. -/
def Apart (pats : List (List α)) (before after : List α) : Prop :=
  ∀ i < before.length, ∀ p ∈ pats, p <+: (before ++ after).drop i → i + p.length ≤ before.length

omit [DecidableEq α] in
theorem Apart.tail {x : α} {before after : List α} (apart : Apart pats (x :: before) after) : Apart pats before after := by
  intro i below p mem starts
  have := apart (i + 1) (Nat.succ_lt_succ below) p mem starts
  rw [List.length_cons] at this
  omega

theorem Apart.longestAt {x : α} {before after : List α} (apart : Apart pats (x :: before) after) :
    longestAt (x :: before ++ after) pats = Matching.longestAt (x :: before) pats := by
  refine longestAt_congr fun p mem => ⟨fun whole => ?_, fun part => part.trans (List.prefix_append ..)⟩
  have fits := apart 0 (Nat.succ_pos _) p mem whole
  exact List.prefix_of_prefix_length_le whole (List.prefix_append ..) (by omega)

/-- Then what is before the cut and what is after it are searched on their own. -/
theorem matchesFrom_append {before after : List α} (apart : Apart pats before after) (pos : Nat) {skip : Nat}
    (inside : skip ≤ before.length) :
    matchesFrom pats pos skip (before ++ after) =
      matchesFrom pats pos skip before ++ matchesFrom pats (pos + before.length) 0 after := by
  induction before generalizing pos skip with
  | nil =>
      obtain rfl : skip = 0 := Nat.le_zero.mp inside
      rfl
  | cons x before ih =>
      have place : pos + 1 + before.length = pos + (x :: before).length := by rw [List.length_cons]; omega
      have inside' : skip ≤ before.length + 1 := inside
      match skip with
      | skip + 1 => rw [List.cons_append, matchesFrom, matchesFrom, ih apart.tail _ (by omega), place]
      | 0 =>
          have same := apart.longestAt
          rw [List.cons_append] at same ⊢
          rw [matchesFrom, matchesFrom, same]
          rcases found : longestAt (x :: before) pats with _ | ⟨k, n⟩
          · dsimp only
            rw [ih apart.tail _ (Nat.zero_le _), place]
          · obtain ⟨p, -, size, starts⟩ := longestAt_mem found
            have fits := starts.length_le
            rw [List.length_cons] at fits
            dsimp only
            rw [ih apart.tail _ (by omega), place, List.cons_append]

theorem rewrite_cut {before after : List α} (apart : Apart pats before after) {skip : Nat} (inside : skip ≤ before.length) :
    rewrite pats put skip (before ++ after) = rewrite pats put skip before ++ rewrite pats put 0 after := by
  induction before generalizing skip with
  | nil =>
      obtain rfl : skip = 0 := Nat.le_zero.mp inside
      rfl
  | cons x before ih =>
      have inside' : skip ≤ before.length + 1 := inside
      match skip with
      | skip + 1 => rw [List.cons_append, rewrite_cons_skip, rewrite_cons_skip, ih apart.tail (by omega)]
      | 0 =>
          have same := apart.longestAt
          rw [List.cons_append] at same ⊢
          rcases found : longestAt (x :: before) pats with _ | ⟨k, n⟩
          · rw [rewrite_cons_none (same.trans found), rewrite_cons_none found, ih apart.tail (Nat.zero_le _), List.cons_append]
          · obtain ⟨p, -, size, starts⟩ := longestAt_mem found
            have fits := starts.length_le
            rw [List.length_cons] at fits
            rw [rewrite_cons_found (same.trans found), rewrite_cons_found found, ih apart.tail (by omega), List.append_assoc]

theorem rewrite_skip (skip : Nat) (input : List α) : rewrite pats put skip input = rewrite pats put 0 (input.drop skip) := by
  induction input generalizing skip with
  | nil => cases skip <;> rfl
  | cons x input ih =>
      cases skip with
      | zero => rfl
      | succ skip => rw [rewrite_cons_skip, ih, List.drop_succ_cons]

theorem rewrite_found {rest : List α} {k n : Nat} (found : longestAt rest pats = some (k, n)) (grows : 0 < n) :
    rewrite pats put 0 rest = put k ++ rewrite pats put 0 (rest.drop n) := by
  obtain ⟨p, -, size, starts⟩ := longestAt_mem found
  have fits := starts.length_le
  obtain ⟨x, rest, rfl⟩ := List.exists_cons_of_length_pos (show 0 < rest.length by omega)
  obtain ⟨n, rfl⟩ := Nat.exists_eq_add_of_lt grows
  rw [rewrite_cons_found found, rewrite_skip]
  simp only [Nat.zero_add, Nat.add_sub_cancel, List.drop_succ_cons]

theorem mem_matchesFrom {rest : List α} {k n : Nat} (found : longestAt rest pats = some (k, n)) (grows : 0 < n) (pos : Nat) :
    { pattern := k, start := pos, stop := pos + n } ∈ matchesFrom pats pos 0 rest := by
  obtain ⟨p, -, size, starts⟩ := longestAt_mem found
  have fits := starts.length_le
  obtain ⟨x, rest, rfl⟩ := List.exists_cons_of_length_pos (show 0 < rest.length by omega)
  rw [matchesFrom, found]
  exact List.mem_cons_self ..

/-! ## Replacing from a list of matches -/

/-- The output so far and the end of the last match, one match later. -/
def replaceOne (put : Nat → List α) (input : List α) (s : List α × Nat) (m : Match) : List α × Nat :=
  (s.1 ++ (input.drop s.2).take (m.start - s.2) ++ put m.pattern, m.stop)

/-- The matches that start before `safe` replaced in order, then the text up to
    there; and what is left. -/
def replaceUpTo (put : Nat → List α) (input : List α) (safe : Nat) (ms : List Match) (s : List α × Nat) :
    List α × List α :=
  let (out, pos) := (ms.takeWhile fun m => m.start < safe).foldl (replaceOne put input) s
  (out ++ (input.drop pos).take (max pos safe - pos), input.drop (max pos safe))

theorem start_le {pos skip : Nat} {rest : List α} {m : Match} (mem : m ∈ matchesFrom pats pos skip rest) :
    pos ≤ m.start ∧ m.start < pos + rest.length := by
  induction rest generalizing pos skip with
  | nil => simp [matchesFrom] at mem
  | cons x rest ih =>
      rw [List.length_cons]
      match skip with
      | skip + 1 =>
          rw [matchesFrom] at mem
          have := ih mem
          omega
      | 0 =>
          rw [matchesFrom] at mem
          split at mem
          · rcases List.mem_cons.mp mem with rfl | mem
            · exact ⟨le_rfl, by dsimp only; omega⟩
            · have := ih mem
              omega
          · have := ih mem
            omega

/-- The matches, taken in order, rewrite the input. -/
theorem replaceUpTo_eq (nonempty : ∀ p ∈ pats, p ≠ []) {input rest out : List α} {p pos safe skip : Nat}
    (here : rest = input.drop p) (before : skip = 0 → pos ≤ p)
    (inside : 0 < skip → pos = p + skip) (reach : p ≤ max pos safe) (low : p ≤ input.length) :
    replaceUpTo put input safe (matchesFrom pats p skip rest) (out, pos) =
      (out ++ (input.drop pos).take (p - pos) ++ (rewriteUpTo pats put (safe - p) skip rest).1,
        (rewriteUpTo pats put (safe - p) skip rest).2) := by
  induction rest generalizing p pos skip out with
  | nil =>
      have ends : input.length ≤ p := List.drop_eq_nil_iff.mp here.symm
      have past : input.length ≤ max pos safe := by omega
      rw [matchesFrom, rewriteUpTo, replaceUpTo, List.append_nil]
      dsimp only [List.takeWhile_nil, List.foldl_nil]
      rw [List.drop_eq_nil_of_le past]
      congr 2
      rcases Nat.lt_or_ge p pos with after | upTo
      · rw [List.drop_eq_nil_of_le (by omega), List.take_nil, List.take_nil]
      · rw [List.take_of_length_le (by rw [List.length_drop]; omega), List.take_of_length_le (by rw [List.length_drop]; omega)]
  | cons x rest ih =>
      have next : rest = input.drop (p + 1) := by rw [← List.tail_drop, ← here]; rfl
      have less : p < input.length := by
        by_contra past
        rw [List.drop_eq_nil_of_le (by omega)] at here
        cases here
      match skip with
      | skip + 1 =>
          have pos_eq := inside (Nat.succ_pos skip)
          rw [matchesFrom, rewriteUpTo, ih next (p := p + 1) (by omega) (by omega) (by omega) (by omega)]
          rw [show p + 1 - pos = 0 by omega, show p - pos = 0 by omega, Nat.sub_sub]
      | 0 =>
          have pos_le := before rfl
          by_cases overrun : safe ≤ p
          · have same : p = max pos safe := by omega
            have none : (matchesFrom pats p 0 (x :: rest)).takeWhile (fun m => decide (m.start < safe)) = [] := by
              rw [List.takeWhile_eq_nil_iff]
              intro pos'
              have := start_le (List.get_mem _ ⟨0, pos'⟩)
              simp only [decide_eq_true_eq]
              omega
            rw [replaceUpTo, none, show safe - p = 0 by omega, rewriteUpTo, List.append_nil]
            dsimp only [List.foldl_nil]
            rw [← same, here]
          · obtain ⟨more, inhabited⟩ : ∃ more, safe - p = more + 1 := ⟨safe - p - 1, by omega⟩
            have rest_safe : safe - (p + 1) = more := by omega
            rw [inhabited, matchesFrom, rewriteUpTo]
            have grown : (input.drop pos).take (p + 1 - pos) = (input.drop pos).take (p - pos) ++ [x] := by
              have placed : (input.drop pos)[p - pos]? = some x := by
                rw [List.getElem?_drop, Nat.add_sub_cancel' pos_le]
                have : (input.drop p)[0]? = some x := by rw [← here]; rfl
                rwa [List.getElem?_drop, Nat.add_zero] at this
              rw [show p + 1 - pos = p - pos + 1 by omega, List.take_add_one, placed]
              rfl
            rcases found : longestAt (x :: rest) pats with _ | ⟨k, n⟩
            · dsimp only
              rw [ih next (p := p + 1) (by omega) (by omega) (by omega) (by omega), rest_safe, grown]
              simp only [List.append_assoc, List.cons_append, List.nil_append]
            · obtain ⟨q, there, size, starts⟩ := longestAt_mem found
              have positive : 0 < n := by
                rw [← size, List.length_pos_iff]
                exact nonempty q (List.mem_of_getElem? there)
              dsimp only
              have step : replaceUpTo put input safe
                  ({ pattern := k, start := p, stop := p + n } :: matchesFrom pats (p + 1) (n - 1) rest) (out, pos) =
                  replaceUpTo put input safe (matchesFrom pats (p + 1) (n - 1) rest)
                    (out ++ (input.drop pos).take (p - pos) ++ put k, p + n) := by
                rw [replaceUpTo, List.takeWhile_cons_of_pos (by simp only [decide_eq_true_eq]; omega), List.foldl_cons]
                rfl
              rw [step, ih next (p := p + 1) (by omega) (by omega) (by omega) (by omega), rest_safe,
                show p + 1 - (p + n) = 0 by omega]
              simp only [List.take_zero, List.append_nil, List.append_assoc]

/-- All matches replaced, and what follows the last of them. -/
theorem replace_all (nonempty : ∀ p ∈ pats, p ≠ []) (input : List α) :
    let s := (leftmostLongest pats input).foldl (replaceOne put input) ([], 0)
    s.1 ++ input.drop s.2 = rewrite pats put 0 input := by
  have all : (matchesFrom pats 0 0 input).takeWhile (fun m => decide (m.start < input.length))
      = matchesFrom pats 0 0 input := by
    rw [List.takeWhile_eq_self_iff]
    intro m mem
    have := (start_le mem).2
    simp only [decide_eq_true_eq]
    omega
  have whole : replaceUpTo put input input.length (matchesFrom pats 0 0 input) ([], 0) =
      ([] ++ (input.drop 0).take (0 - 0) ++ (rewriteUpTo pats put (input.length - 0) 0 input).1,
        (rewriteUpTo pats put (input.length - 0) 0 input).2) :=
    replaceUpTo_eq nonempty rfl (fun _ => le_rfl) (fun h => absurd h (Nat.lt_irrefl 0)) (Nat.zero_le _)
      (Nat.zero_le _)
  have first := congrArg Prod.fst whole
  rw [replaceUpTo, all] at first
  dsimp only [leftmostLongest]
  rw [show rewrite pats put 0 input = _ from first.symm]
  congr 1
  rw [List.take_of_length_le]
  rw [List.length_drop]
  omega

/-- The matches before a safe place replaced. -/
theorem replace_safe (nonempty : ∀ p ∈ pats, p ≠ []) (input : List α) (safe : Nat) :
    replaceUpTo put input safe (leftmostLongest pats input) ([], 0) = rewriteUpTo pats put safe 0 input :=
  replaceUpTo_eq nonempty rfl (fun _ => le_rfl) (fun h => absurd h (Nat.lt_irrefl 0)) (Nat.zero_le _)
    (Nat.zero_le _)

end Matching

/-! # Where a word is found in a text

A text that is put together from pieces holds a word where a piece does, when no
separator between two pieces is a letter of the word. -/

namespace Occurrences

variable {α : Type} {word a b text : List α} {sep letter : α} {i : Nat}

/-- `word` is found in `text` at `i`. -/
def At (word text : List α) (i : Nat) : Prop := word <+: text.drop i

theorem lt_of_at (found : At word text i) (inhabited : word ≠ []) : i < text.length := by
  by_contra outside
  rw [At, List.drop_eq_nil_of_le (Nat.le_of_not_lt outside)] at found
  exact inhabited (List.prefix_nil.mp found)

theorem exists_at : (∃ i, At word text i) ↔ ∃ after, word ++ after <:+ text := by
  constructor
  · rintro ⟨i, after, same⟩
    exact ⟨after, same ▸ List.drop_suffix i text⟩
  · rintro ⟨after, before, rfl⟩
    exact ⟨before.length, after, by rw [List.drop_left]⟩

theorem prefix_piece (single : sep ∉ word) : word <+: a ++ sep :: b ↔ word <+: a := by
  refine ⟨fun found => ?_, fun found => found.trans (List.prefix_append _ _)⟩
  have piece : a ++ [sep] <+: a ++ sep :: b := ⟨b, List.append_assoc ..⟩
  rcases List.prefix_or_prefix_of_prefix found piece with shorter | longer
  · rcases List.prefix_concat_iff.mp shorter with rfl | inside
    · exact absurd (List.mem_append_right a (List.mem_singleton_self sep)) single
    · exact inside
  · exact absurd (longer.subset (List.mem_append_right a (List.mem_singleton_self sep))) single

theorem at_pieces (single : sep ∉ word) (inhabited : word ≠ []) :
    At word (a ++ sep :: b) i ↔ At word a i ∨ ∃ j, i = a.length + 1 + j ∧ At word b j := by
  unfold At
  by_cases inside : i ≤ a.length
  · rw [List.drop_append_of_le_length inside, prefix_piece single]
    refine ⟨.inl, fun found => found.resolve_right ?_⟩
    rintro ⟨j, rfl, -⟩
    omega
  · obtain ⟨j, rfl⟩ : ∃ j, i = a.length + 1 + j := ⟨i - (a.length + 1), by omega⟩
    have rest : (a ++ sep :: b).drop (a.length + 1 + j) = b.drop j := by
      rw [List.append_cons, ← List.drop_drop, List.drop_left' (by rw [List.length_append, List.length_singleton])]
    rw [rest]
    constructor
    · exact fun found => .inr ⟨j, rfl, found⟩
    · rintro (found | ⟨k, same, found⟩)
      · exact absurd (lt_of_at found inhabited) (by omega)
      · rwa [Nat.add_left_cancel same]

/-- A word is not found where its first letter is not. -/
theorem not_at (missing : letter ∉ text) : ¬At (letter :: word) text i :=
  fun found => missing (List.mem_of_mem_drop (found.subset List.mem_cons_self))

/-- A piece whose first letter comes once has the word at its start, if at all. -/
theorem at_start (missing : letter ∉ a) : At (letter :: word) (letter :: a) i ↔ i = 0 ∧ word <+: a := by
  cases i with
  | zero => simp [At]
  | succ i =>
      have none : ¬At (letter :: word) a i := not_at missing
      exact ⟨fun found => absurd found none, fun both => absurd both.1 (Nat.succ_ne_zero i)⟩

end Occurrences
