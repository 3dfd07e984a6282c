import Mathlib.Data.List.Nodup
import Mathlib.Logic.Function.Basic
import Mathlib.Order.Lattice
import Mathlib.Order.Nat
import Mathlib.Tactic.Common

/-! # Longest increasing subsequences

Patience sorting: every key goes on the first pile whose top is not below it, and
remembers the top of the pile before. The chain down from the last top is a
longest strictly increasing subsequence. -/

namespace Patience

variable {κ : Type} [LinearOrder κ]

/-- The first position from `lo` on and below `hi` where `less` does not hold. -/
def search (less : Nat → Bool) (lo hi : Nat) : Nat :=
  if lo < hi then
    let middle := (lo + hi) / 2
    if less middle then search less (middle + 1) hi else search less lo middle
  else lo
termination_by hi - lo

theorem search_spec {less : Nat → Bool} (down : ∀ t t', t ≤ t' → less t' → less t) {lo hi : Nat} (range : lo ≤ hi)
    (before : ∀ t < lo, less t) (after : ∀ t, hi ≤ t → ¬less t) :
    search less lo hi ≤ hi ∧ (∀ t < search less lo hi, less t) ∧ ∀ t, search less lo hi ≤ t → ¬less t := by
  induction lo, hi using search.induct less with
  | case1 lo hi inside middle holds ih =>
      rw [search, if_pos inside, if_pos holds]
      refine ih (by omega) (fun t below => ?_) after
      exact down t middle (Nat.lt_succ_iff.mp below) holds
  | case2 lo hi inside middle fails ih =>
      rw [search, if_pos inside, if_neg fails]
      obtain ⟨upto, low, high⟩ := ih (by omega) before fun t beyond holds => fails (down middle t beyond holds)
      exact ⟨upto.trans (by omega), low, high⟩
  | case3 lo hi outside =>
      rw [search, if_neg outside]
      obtain rfl : lo = hi := by omega
      exact ⟨le_rfl, before, after⟩

/-- The top of each pile, and below which top each entry was laid. -/
structure Piles where
  tails : List Nat
  prev : Nat → Option Nat

def Piles.below (key : Nat → Option κ) (s : Piles) (k : κ) (t : Nat) : Bool :=
  (s.tails[t]?.bind key).any fun top => top < k

def Piles.step (key : Nat → Option κ) (s : Piles) (i : Nat) : Piles :=
  match key i with
  | none => s
  | some k =>
      let lo := search (s.below key k) 0 s.tails.length
      { tails := if lo < s.tails.length then s.tails.set lo i else s.tails ++ [i]
        prev := if 0 < lo then Function.update s.prev i s.tails[lo - 1]? else s.prev }

def piles (key : Nat → Option κ) (n : Nat) : Piles :=
  (List.range n).foldl (Piles.step key) { tails := [], prev := fun _ => none }

/-- From an entry down. -/
def walk (prev : Nat → Option Nat) : Nat → Option Nat → List Nat
  | 0, _ => []
  | _ + 1, none => []
  | fuel + 1, some i => i :: walk prev fuel (prev i)

/-- The entries of a longest increasing subsequence, the last one first. -/
def longest (key : Nat → Option κ) (n : Nat) : List Nat := walk (piles key n).prev n (piles key n).tails.getLast?

/-! ## What the piles say -/

/-- `rank` is the pile every entry went on. -/
structure Sorted (key : Nat → Option κ) (n : Nat) (s : Piles) (rank : Nat → Nat) : Prop where
  /-- The top of an entry's pile is not above it. -/
  pile : ∀ j < n, ∀ k, key j = some k → ∃ p k', s.tails[rank j]? = some p ∧ key p = some k' ∧ k' ≤ k
  top : ∀ t p, s.tails[t]? = some p → p < n ∧ rank p = t ∧ ∃ k, key p = some k
  increasing : ∀ (t t' p p' : Nat) (k k' : κ), t < t' → s.tails[t]? = some p → s.tails[t']? = some p' → key p = some k →
    key p' = some k' → k < k'
  link : ∀ j < n, ∀ k, key j = some k → rank j = 0 ∧ s.prev j = none ∨
    ∃ p k', s.prev j = some p ∧ p < j ∧ key p = some k' ∧ k' < k ∧ rank p + 1 = rank j
  /-- A larger key later went on a later pile. -/
  climb : ∀ (j j' : Nat) (k k' : κ), j < j' → j' < n → key j = some k → key j' = some k' → k < k' → rank j < rank j'
  untouched : ∀ j, n ≤ j → s.prev j = none

variable {key : Nat → Option κ} {n : Nat} {s : Piles} {rank : Nat → Nat}

theorem sorted_empty : Sorted key 0 { tails := [], prev := fun _ => none } rank where
  pile j below := absurd below (Nat.not_lt_zero j)
  top := by intro t p found; cases found
  increasing := by intro t t' p p' k k' less found; cases found
  link j below := absurd below (Nat.not_lt_zero j)
  climb _ j' _ _ _ below := absurd below (Nat.not_lt_zero j')
  untouched _ _ := rfl

/-- Which tops are below a key: the first ones. -/
theorem below_down (sorted : Sorted key n s rank) (k : κ) (t t' : Nat) (le : t ≤ t') (holds : s.below key k t') :
    s.below key k t := by
  rcases le.eq_or_lt with rfl | less
  · exact holds
  · unfold Piles.below at holds ⊢
    obtain ⟨k', found, smaller⟩ := (Option.any_eq_true ..).mp holds
    obtain ⟨p', top', key'⟩ := Option.bind_eq_some_iff.mp found
    have inside : t < s.tails.length := less.trans (List.getElem?_eq_some_iff.mp top').1
    have top := List.getElem?_eq_getElem inside
    obtain ⟨-, -, k'', key''⟩ := sorted.top t _ top
    rw [top, Option.bind_some, key'', Option.any_some]
    have := sorted.increasing t t' _ p' k'' k' less top top' key'' key'
    exact decide_eq_true (this.trans (of_decide_eq_true smaller))

/-- Where a key goes. -/
theorem search_below (sorted : Sorted key n s rank) (k : κ) :
    let lo := search (s.below key k) 0 s.tails.length
    lo ≤ s.tails.length ∧ (∀ t < lo, ∃ p k', s.tails[t]? = some p ∧ key p = some k' ∧ k' < k) ∧
      ∀ t p k', lo ≤ t → s.tails[t]? = some p → key p = some k' → k ≤ k' := by
  obtain ⟨upto, low, high⟩ := search_spec (below_down sorted k) (Nat.zero_le s.tails.length)
    (fun t less => absurd less (Nat.not_lt_zero t))
    (fun t beyond holds => by
      rw [Piles.below, List.getElem?_eq_none beyond] at holds
      cases holds)
  refine ⟨upto, fun t less => ?_, fun t p k' beyond top keyed => ?_⟩
  · obtain ⟨k', found, smaller⟩ := (Option.any_eq_true ..).mp (low t less)
    obtain ⟨p, top, keyed⟩ := Option.bind_eq_some_iff.mp found
    exact ⟨p, k', top, keyed, of_decide_eq_true smaller⟩
  · by_contra smaller
    refine high t beyond ?_
    rw [Piles.below, top, Option.bind_some, keyed, Option.any_some]
    exact decide_eq_true (lt_of_not_ge smaller)

/-- Laying one more entry keeps what the piles say. -/
theorem sorted_step (sorted : Sorted key n s rank) : ∃ rank', Sorted key (n + 1) (s.step key n) rank' := by
  rcases here : key n with _ | k
  · refine ⟨rank, ?_⟩
    have same : s.step key n = s := by rw [Piles.step, here]
    have older {j : Nat} {k : κ} (below : j < n + 1) (valued : key j = some k) : j < n := by
      rcases Nat.lt_succ_iff_lt_or_eq.mp below with less | rfl
      · exact less
      · rw [here] at valued
        cases valued
    rw [same]
    exact
      { pile := fun j below k valued => sorted.pile j (older below valued) k valued
        top := fun t p found =>
          have old := sorted.top t p found
          ⟨old.1.trans (Nat.lt_succ_self n), old.2⟩
        increasing := sorted.increasing
        link := fun j below k valued => sorted.link j (older below valued) k valued
        climb := fun j j' k k' less below valued keyed' => sorted.climb j j' k k' less (older below keyed') valued keyed'
        untouched := fun j beyond => sorted.untouched j (Nat.le_of_succ_le beyond) }
  · obtain ⟨upto, low, high⟩ := search_below sorted k
    generalize found : search (s.below key k) 0 s.tails.length = lo at upto low high
    have step : s.step key n =
        { tails := if lo < s.tails.length then s.tails.set lo n else s.tails ++ [n]
          prev := if 0 < lo then Function.update s.prev n s.tails[lo - 1]? else s.prev } := by
      rw [Piles.step, here]
      dsimp only
      rw [found]
    rw [step]
    have tails (t : Nat) : (if lo < s.tails.length then s.tails.set lo n else s.tails ++ [n])[t]? =
        if t = lo then some n else s.tails[t]? := by
      split
      next inside =>
        rw [List.getElem?_set]
        split
        next same => rw [if_pos same.symm]
        next other => rw [if_neg (Ne.symm other)]
      next outside =>
        have last : lo = s.tails.length := by omega
        rw [List.getElem?_append]
        split
        next less => rw [if_neg (by omega)]
        next =>
          split
          next same => rw [same, last, Nat.sub_self]; rfl
          next other =>
            rw [List.getElem?_eq_none (by rw [List.length_singleton]; omega), List.getElem?_eq_none (by omega)]
    refine ⟨Function.update rank n lo, ?_⟩
    have older {j : Nat} (below : j < n) : Function.update rank n lo j = rank j := Function.update_of_ne below.ne _ _
    have newest : Function.update rank n lo n = lo := Function.update_self ..
    constructor
    case pile =>
      intro j below kj valued
      rcases Nat.lt_succ_iff_lt_or_eq.mp below with less | rfl
      · obtain ⟨p, k', top, keyed, le⟩ := sorted.pile j less kj valued
        rw [older less, tails]
        split
        next same => exact ⟨n, k, rfl, here, (high _ p k' same.ge top keyed).trans le⟩
        next => exact ⟨p, k', top, keyed, le⟩
      · rw [newest, tails, if_pos rfl]
        exact ⟨j, kj, rfl, valued, le_rfl⟩
    case top =>
      intro t p top
      rw [tails] at top
      split at top
      next same =>
        cases top
        exact ⟨Nat.lt_succ_self n, newest.trans same.symm, k, here⟩
      next =>
        obtain ⟨less, ranked, valued⟩ := sorted.top t p top
        exact ⟨less.trans (Nat.lt_succ_self n), (older less).trans ranked, valued⟩
    case increasing =>
      intro t t' p p' k₁ k₂ less top top' keyed key'
      rw [tails] at top top'
      split at top
      next same =>
        cases top
        rw [if_neg (by omega)] at top'
        have inside : lo < s.tails.length := by
          have := (List.getElem?_eq_some_iff.mp top').1
          omega
        have old := List.getElem?_eq_getElem inside
        obtain ⟨-, -, k₀, key₀⟩ := sorted.top lo _ old
        have above := sorted.increasing lo t' _ p' k₀ k₂ (by omega) old top' key₀ key'
        obtain rfl : k = k₁ := Option.some.inj (here.symm.trans keyed)
        exact (high lo _ k₀ le_rfl old key₀).trans_lt above
      next other =>
        split at top'
        next same =>
          cases top'
          obtain ⟨p₀, k₀, old, key₀, smaller⟩ := low t (by omega)
          obtain rfl : p = p₀ := Option.some.inj (top.symm.trans old)
          obtain rfl : k₁ = k₀ := Option.some.inj (keyed.symm.trans key₀)
          obtain rfl : k = k₂ := Option.some.inj (here.symm.trans key')
          exact smaller
        next => exact sorted.increasing t t' p p' k₁ k₂ less top top' keyed key'
    case link =>
      intro j below kj valued
      dsimp only
      rcases Nat.lt_succ_iff_lt_or_eq.mp below with less | rfl
      · have same : (if 0 < lo then Function.update s.prev n s.tails[lo - 1]? else s.prev) j = s.prev j := by
          split
          · exact Function.update_of_ne less.ne _ _
          · rfl
        rw [older less, same]
        rcases sorted.link j less kj valued with bottom | ⟨p, k', prev, earlier, rest⟩
        · exact .inl bottom
        · exact .inr ⟨p, k', prev, earlier, by rw [older (earlier.trans less)]; exact rest⟩
      · rw [newest]
        split
        next positive =>
          obtain ⟨p, k', top, keyed, smaller⟩ := low (lo - 1) (by omega)
          obtain ⟨earlier, ranked, -⟩ := sorted.top _ p top
          obtain rfl : k = kj := Option.some.inj (here.symm.trans valued)
          exact .inr ⟨p, k', by rw [Function.update_self, top], earlier, keyed, smaller, by rw [older earlier, ranked]; omega⟩
        next zero => exact .inl ⟨by omega, sorted.untouched j le_rfl⟩
    case climb =>
      intro j j' kj kj' less below valued keyed' smaller
      rcases Nat.lt_succ_iff_lt_or_eq.mp below with older' | rfl
      · rw [older (less.trans older'), older older']
        exact sorted.climb j j' kj kj' less older' valued keyed' smaller
      · rw [older less, newest]
        obtain ⟨p, k', top, keyed, le⟩ := sorted.pile j less kj valued
        by_contra beyond
        have := high _ p k' (Nat.le_of_not_lt beyond) top keyed
        obtain rfl : k = kj' := Option.some.inj (here.symm.trans keyed')
        exact absurd (this.trans le) smaller.not_ge
    case untouched =>
      intro j beyond
      dsimp only
      split
      · exact (Function.update_of_ne (by omega) _ _).trans (sorted.untouched j (by omega))
      · exact sorted.untouched j (by omega)

theorem sorted_piles (key : Nat → Option κ) (n : Nat) : ∃ rank, Sorted key n (piles key n) rank := by
  induction n with
  | zero => exact ⟨fun _ => 0, sorted_empty⟩
  | succ n ih =>
      obtain ⟨rank, sorted⟩ := ih
      rw [piles, List.range_succ, List.foldl_append]
      exact sorted_step sorted

/-! ## The chain down from the last pile -/

/-- Entries with keys, each before and below the one that follows it. -/
def Increasing (key : Nat → Option κ) (n : Nat) (l : List Nat) : Prop :=
  (∀ i ∈ l, i < n ∧ ∃ k, key i = some k) ∧ l.Pairwise fun i j => i < j ∧ ∀ k k', key i = some k → key j = some k' → k < k'

theorem Increasing.lt {l : List Nat} (increasing : Increasing key n l) {i j : Nat} (first : i ∈ l) (second : j ∈ l)
    (less : i < j) {k k' : κ} (here : key i = some k) (there : key j = some k') : k < k' := by
  obtain ⟨a, below, rfl⟩ := List.getElem_of_mem first
  obtain ⟨b, below', rfl⟩ := List.getElem_of_mem second
  have steps := List.pairwise_iff_getElem.mp increasing.2
  rcases Nat.lt_trichotomy a b with before | rfl | after
  · exact (steps a b below below' before).2 k k' here there
  · exact absurd less (Nat.lt_irrefl _)
  · exact absurd less (steps b a below' below after).1.not_gt

/-- From an entry of rank `r` there are `r + 1` down to the first pile. -/
theorem walk_spec (sorted : Sorted key n s rank) {fuel i : Nat} {k : κ} (below : i < n) (valued : key i = some k)
    (enough : i < fuel) :
    (walk s.prev fuel (some i)).length = rank i + 1 ∧
      (∀ j ∈ walk s.prev fuel (some i), j ≤ i ∧ ∃ k', key j = some k' ∧ k' ≤ k) ∧
      Increasing key n (walk s.prev fuel (some i)).reverse := by
  induction fuel generalizing i k with
  | zero => exact absurd enough (Nat.not_lt_zero i)
  | succ fuel ih =>
      rw [walk]
      rcases sorted.link i below k valued with ⟨bottom, none⟩ | ⟨p, k', prev, earlier, keyed, smaller, ranked⟩
      · have stop : walk s.prev fuel (s.prev i) = [] := by
          rw [none]
          cases fuel <;> rfl
        rw [stop, bottom]
        refine ⟨rfl, fun j mem => ?_, fun j mem => ?_, List.pairwise_singleton _ _⟩
        · rw [List.mem_singleton.mp mem]
          exact ⟨le_rfl, k, valued, le_rfl⟩
        · rw [List.mem_singleton.mp (List.mem_reverse.mp mem)]
          exact ⟨below, k, valued⟩
      · obtain ⟨length, bounded, entries, chain⟩ := ih (earlier.trans below) keyed (by omega)
        rw [prev]
        refine ⟨by rw [List.length_cons, length]; omega, fun j mem => ?_, fun j mem => ?_, ?_⟩
        · rcases List.mem_cons.mp mem with rfl | mem
          · exact ⟨le_rfl, k, valued, le_rfl⟩
          · obtain ⟨le, k'', key'', le'⟩ := bounded j mem
            exact ⟨by omega, k'', key'', le'.trans smaller.le⟩
        · rw [List.reverse_cons, List.mem_append, List.mem_singleton] at mem
          rcases mem with mem | rfl
          · exact entries j mem
          · exact ⟨below, k, valued⟩
        · rw [List.reverse_cons, List.pairwise_append]
          refine ⟨chain, List.pairwise_singleton _ _, fun j mem j' last => ?_⟩
          obtain rfl := List.mem_singleton.mp last
          obtain ⟨le, k'', key'', le'⟩ := bounded j (List.mem_reverse.mp mem)
          refine ⟨by omega, fun k₁ k₂ key₁ key₂ => ?_⟩
          obtain rfl : k'' = k₁ := Option.some.inj (key''.symm.trans key₁)
          obtain rfl : k = k₂ := Option.some.inj (valued.symm.trans key₂)
          exact le'.trans_lt smaller

/-- Ranks climb along an increasing list, so that it has at most as many entries as there
    are piles. -/
theorem length_le_piles (sorted : Sorted key n s rank) {l : List Nat} (increasing : Increasing key n l) :
    l.length ≤ s.tails.length := by
  have ranks : (l.map rank).Pairwise (· < ·) := by
    rw [List.pairwise_map]
    refine increasing.2.imp_of_mem fun mem mem' step => ?_
    obtain ⟨-, k, keyed⟩ := increasing.1 _ mem
    obtain ⟨below, k', key'⟩ := increasing.1 _ mem'
    exact sorted.climb _ _ k k' step.1 below keyed key' (step.2 k k' keyed key')
  have inside : ∀ r ∈ l.map rank, r ∈ List.range s.tails.length := by
    intro r mem
    obtain ⟨i, listed, rfl⟩ := List.mem_map.mp mem
    obtain ⟨below, k, keyed⟩ := increasing.1 i listed
    obtain ⟨p, k', top, -, -⟩ := sorted.pile i below k keyed
    exact List.mem_range.mpr (List.getElem?_eq_some_iff.mp top).1
  have distinct : (l.map rank).Nodup := ranks.imp Nat.ne_of_lt
  have := List.Nodup.length_le_of_subset distinct inside
  rwa [List.length_map, List.length_range] at this

/-- What patience sorting gives: an increasing subsequence, and none is longer. -/
theorem longest_spec (key : Nat → Option κ) (n : Nat) :
    Increasing key n (longest key n).reverse ∧ ∀ l, Increasing key n l → l.length ≤ (longest key n).length := by
  obtain ⟨rank, sorted⟩ := sorted_piles key n
  rw [longest]
  rcases last : (piles key n).tails.getLast? with _ | i
  · have none : walk (piles key n).prev n none = [] := by cases n <;> rfl
    rw [none]
    refine ⟨⟨fun i mem => (nomatch mem), List.Pairwise.nil⟩, fun l increasing => ?_⟩
    have := length_le_piles sorted increasing
    rwa [List.getLast?_eq_none_iff.mp last] at this
  · rw [List.getLast?_eq_getElem?] at last
    obtain ⟨below, ranked, k, keyed⟩ := sorted.top _ i last
    obtain ⟨length, -, increasing⟩ := walk_spec sorted below keyed below
    refine ⟨increasing, fun l increasing => ?_⟩
    have valued := (List.getElem?_eq_some_iff.mp last).1
    have := length_le_piles sorted increasing
    omega

end Patience
