import Mathlib.Data.List.Infix
import Mathlib.Data.Set.Basic
import Mathlib.Tactic.Common

/-! # Public suffixes

A domain is its labels, the most specific first. Rules name the domains under which
anyone can register: the longest rule that matches says how many labels are public,
an exception takes one label back, and the last label is public without any rule. -/

namespace PublicSuffix

variable {α : Type*}

/-- A wildcard rule is what stands under its star. -/
structure Rules (α : Type*) where
  plain : Set (List α)
  wildcard : Set (List α)
  exception : Set (List α)

namespace Rules

variable (R : Rules α) {d : List α} {x : α} {k n : Nat}

def Excepted (d : List α) (n : Nat) : Prop := ∃ r ∈ R.exception, r <:+ d ∧ r.length = n

def Matches (d : List α) (n : Nat) : Prop :=
  ∃ r, r <:+ d ∧ r.length = n ∧ (r ∈ R.plain ∨ r ≠ [] ∧ r.tail ∈ R.wildcard)

/-- The last `k` labels of `d` are its public suffix. -/
def IsSuffix (d : List α) (k : Nat) : Prop :=
  R.Excepted d (k + 1) ∧ (∀ n, R.Excepted d n → n ≤ k + 1) ∨
    (∀ n, ¬R.Excepted d n) ∧ (k = 1 ∨ R.Matches d k) ∧ 1 ≤ k ∧ ∀ n, R.Matches d n → n ≤ k

/-- The public suffix and one label more. -/
def Registrable (d r : List α) : Prop := ∃ k, R.IsSuffix d k ∧ k < d.length ∧ r = d.drop (d.length - (k + 1))

variable {R}

theorem IsSuffix.unique (first : R.IsSuffix d k) (second : R.IsSuffix d n) : k = n := by
  rcases first with ⟨matched, most⟩ | ⟨none, here, pos, most⟩ <;> rcases second with ⟨some', most'⟩ | ⟨none', here', pos', most'⟩
  · have := most _ some'
    have := most' _ matched
    omega
  · exact absurd matched (none' _)
  · exact absurd some' (none _)
  · have le : k ≤ n := here.elim (fun one => one ▸ pos') (most' k)
    have ge : n ≤ k := here'.elim (fun one => one ▸ pos) (most n)
    omega

theorem excepted_cons : R.Excepted (x :: d) n ↔ x :: d ∈ R.exception ∧ n = d.length + 1 ∨ R.Excepted d n := by
  constructor
  · rintro ⟨r, rule, inside, rfl⟩
    rcases List.suffix_cons_iff.mp inside with rfl | later
    · exact .inl ⟨rule, List.length_cons⟩
    · exact .inr ⟨r, rule, later, rfl⟩
  · rintro (⟨rule, rfl⟩ | ⟨r, rule, inside, rfl⟩)
    · exact ⟨x :: d, rule, List.suffix_rfl, List.length_cons⟩
    · exact ⟨r, rule, inside.trans (List.suffix_cons x d), rfl⟩

theorem matches_cons :
    R.Matches (x :: d) n ↔ (x :: d ∈ R.plain ∨ d ∈ R.wildcard) ∧ n = d.length + 1 ∨ R.Matches d n := by
  constructor
  · rintro ⟨r, inside, rfl, rule⟩
    rcases List.suffix_cons_iff.mp inside with rfl | later
    · exact .inl ⟨rule.imp_right And.right, List.length_cons⟩
    · exact .inr ⟨r, later, rfl, rule⟩
  · rintro (⟨rule, rfl⟩ | ⟨r, inside, rfl, rule⟩)
    · exact ⟨x :: d, List.suffix_rfl, List.length_cons, rule.imp_right fun under => ⟨List.cons_ne_nil _ _, under⟩⟩
    · exact ⟨r, inside.trans (List.suffix_cons x d), rfl, rule⟩

theorem excepted_le (excepted : R.Excepted d n) : n ≤ d.length := by
  obtain ⟨r, -, inside, rfl⟩ := excepted
  exact inside.length_le

theorem matches_le (found : R.Matches d n) : n ≤ d.length := by
  obtain ⟨r, inside, rfl, -⟩ := found
  exact inside.length_le

variable (R) in
/-- No rule tells `x :: d` from the names beside it. -/
def Shared (d : List α) (x : α) : Prop :=
  x :: d ∉ R.exception ∧ ((∃ n, R.Excepted d n) ∨ d ∉ R.wildcard ∧ x :: d ∉ R.plain)

/-- One more label that no rule names leaves the public suffix as it is. -/
theorem Shared.isSuffix (shared : R.Shared d x) (suffix : R.IsSuffix d k) : R.IsSuffix (x :: d) k := by
  have excepted {n : Nat} : R.Excepted (x :: d) n ↔ R.Excepted d n :=
    excepted_cons.trans (or_iff_right fun rule => shared.1 rule.1)
  rcases suffix with ⟨matched, most⟩ | ⟨none, here, pos, most⟩
  · exact .inl ⟨excepted.mpr matched, fun n found => most n (excepted.mp found)⟩
  · obtain ⟨unlisted, plain⟩ := shared.2.resolve_left fun ⟨n, found⟩ => none n found
    have found {n : Nat} : R.Matches (x :: d) n ↔ R.Matches d n :=
      matches_cons.trans (or_iff_right fun rule => rule.1.elim plain unlisted)
    exact .inr ⟨fun n => excepted.not.mpr (none n), here.imp_right found.mpr, pos, fun n hit => most n (found.mp hit)⟩

/-- A name is registered where its parent is, unless a rule names it. -/
theorem registrable_cons_iff (suffix : R.IsSuffix d k) (below : k < d.length) :
    (∃ r, R.Registrable d r ∧ R.Registrable (x :: d) r) ↔ R.Shared d x := by
  constructor
  · rintro ⟨_, ⟨k₁, suffix₁, -, rfl⟩, k₂, suffix₂, below₂, same⟩
    have length := congrArg List.length same
    rw [List.length_drop, List.length_drop, List.length_cons] at length
    rw [List.length_cons] at below₂
    obtain rfl := suffix.unique suffix₁
    have notRule : x :: d ∉ R.exception := by
      intro rule
      have own : R.IsSuffix (x :: d) d.length :=
        .inl ⟨excepted_cons.mpr (.inl ⟨rule, rfl⟩), fun n found => excepted_le found⟩
      have := own.unique suffix₂
      omega
    refine ⟨notRule, ?_⟩
    by_contra none
    push Not at none
    obtain ⟨none, rules⟩ := none
    have own : R.IsSuffix (x :: d) (d.length + 1) := by
      refine .inr ⟨fun n found => ?_, .inr ?_, by omega, fun n found => matches_le found⟩
      · exact (excepted_cons.mp found).elim (fun rule => notRule rule.1) (none n)
      · exact matches_cons.mpr (.inl ⟨(Classical.em (d ∈ R.wildcard)).elim .inr fun other => .inl (rules other), rfl⟩)
    have := own.unique suffix₂
    omega
  · intro shared
    refine ⟨_, ⟨k, suffix, below, rfl⟩, k, shared.isSuffix suffix, by rw [List.length_cons]; omega, ?_⟩
    rw [List.length_cons, show d.length + 1 - (k + 1) = d.length - (k + 1) + 1 by omega, List.drop_succ_cons]

end Rules

end PublicSuffix
