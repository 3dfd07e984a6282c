import K2.Homes.AssignOrders
import Mathlib.Data.List.Perm.Subperm

/-! # When keys are assigned, and assigned again

Keys are assigned unless one gets too long with another fresh entry right after
it. They are in order, and where they are the known ones they are given again.
-/

namespace K2.Homes.FractionalIndex

open FractionalKeys

/-- No entry whose key gets too long is followed by another fresh one. -/
def Spaced (known : Nat → Option String) (count : Nat) : Prop :=
  ∀ i, i + 1 < count → i + 1 ∉ longestIncreasing (validKey known) count →
    Roomy (validKey known) (longestIncreasing (validKey known) count) count i

section Assign

variable {keys : Nat → Option String} {keep : List Nat} {count : Nat}

/-- The last key lies before the next kept one, and a fresh entry can start from it. -/
structure Paced (keys : Nat → Option String) (keep : List Nat) (count i : Nat) (before : Option String) : Prop where
  low : ∀ x ∈ before, ∀ y ∈ nextKept keys keep count i, x < y
  ready : i < count → i ∉ keep → Ready keys keep count i before

theorem paced_of_ready {i : Nat} {before : Option String} (ready : Ready keys keep count i before) :
    Paced keys keep count i before := ⟨ready.ends.less, fun _ _ => ready⟩

theorem paced_step (keeps : Keeps keys keep count) {i : Nat} {before : Option String}
    (paced : Paced keys keep count i before) (below : i < count) :
    ∃ k, assignOne keys keep count i before = .ok k ∧ (∀ x ∈ before, x < k) ∧ Digits k.toList ∧
      (i ∈ keep → keys i = some k) ∧ (validOrder k = true ↔ Roomy keys keep count i) ∧
      ((i + 1 < count → i + 1 ∉ keep → validOrder k = true) → Paced keys keep count (i + 1) (some k)) := by
  by_cases mem : i ∈ keep
  · obtain ⟨-, k, key⟩ := keeps.keyed i mem
    have valid := keeps.valid i k key
    refine ⟨k, by rw [assignOne, if_pos mem, key]; rfl, fun x there => ?_, (validOrder_iff.mp valid).1, fun _ => key,
      iff_of_true valid fun fresh => absurd mem fresh, fun _ => paced_of_ready (ready_kept keeps mem key)⟩
    exact paced.low x there k (by rw [nextKept_of_mem below mem, key]; rfl)
  · have ready := paced.ready below mem
    obtain ⟨k, made, less, valid, next⟩ := fresh_spec ready mem
    obtain ⟨k', -, made', spelled⟩ := orderBetween_eq ready.ends
    obtain rfl : k' = k := by
      rw [assignOne, if_neg mem, ← nextKept_of_not_mem mem] at made
      exact Except.ok.inj (made'.symm.trans made)
    refine ⟨k', made, less, spelled.digits, fun kept => absurd kept mem, valid, fun accepted => ⟨?_, fun below' fresh => ?_⟩⟩
    · rintro _ ⟨⟩ y there
      exact (laid_lies ready.ends spelled).2 y (nextKept_of_not_mem mem ▸ there)
    · exact next (accepted below' fresh)

theorem orderBetween_invalid {k : String} (invalid : validOrder k = false) (after : Option String) :
    orderBetween (some k) after = .error (.invalid k) := by
  have found : ((some k).toList ++ after.toList).find? (fun k => !isValidOrder k) = some k := by
    rw [Option.toList_some, List.singleton_append, List.find?_cons_of_pos]
    rw [isValidOrder_eq, invalid]
    rfl
  have refused : checkEnds isValidOrder (some k) after = .error (.invalid k) := by
    unfold checkEnds
    rw [found]
  rw [orderBetween, refused]
  rfl

/-- Keys that are given again: a key that is none is the one between its neighbours,
    and the one after it is a key. -/
def Settled : Option String → List String → Prop
  | _, [] => True
  | before, k :: rest =>
      (validOrder k = true ∨ orderBetween before rest.head? = .ok k ∧ ∀ y ∈ rest.head?, validOrder y = true) ∧
        Settled (some k) rest

/-- Keys as they are given from an entry on. -/
structure Laid (n : Nat) (before : Option String) (out : List String) : Prop where
  length : out.length = n
  digits : ∀ k ∈ out, Digits k.toList
  ordered : out.Pairwise (· < ·)
  after : ∀ x ∈ before, ∀ k ∈ out, x < k
  settled : Settled before out

theorem assignFrom_laid (keeps : Keeps keys keep count) {n i : Nat} {before : Option String} {out : List String}
    (paced : Paced keys keep count i before) (reaches : i + n = count)
    (made : assignFrom keys keep count n i before = .ok out) :
    Laid n before out ∧ (∀ j, i ≤ j → j + 1 < count → j + 1 ∉ keep → Roomy keys keep count j) := by
  induction n generalizing i before out with
  | zero =>
      obtain rfl : [] = out := Except.ok.inj made
      refine ⟨?_, fun j le below => absurd below (by omega)⟩
      constructor
      case length => rfl
      case digits => exact fun k mem => absurd mem List.not_mem_nil
      case ordered => exact List.Pairwise.nil
      case after => exact fun x _ k mem => absurd mem List.not_mem_nil
      case settled => trivial
  | succ n ih =>
      obtain ⟨k, rest, here, later, rfl⟩ := assignFrom_succ.mp made
      obtain ⟨k', here', less, digits, key, valid, next⟩ := paced_step keeps paced (by omega)
      obtain rfl : k' = k := Except.ok.inj (here'.symm.trans here)
      have accepted : i + 1 < count → i + 1 ∉ keep → validOrder k' = true := by
        intro below fresh
        by_contra invalid
        obtain ⟨m, rfl⟩ : ∃ m, n = m + 1 := ⟨n - 1, by omega⟩
        obtain ⟨_, _, here₂, -, -⟩ := assignFrom_succ.mp later
        rw [assignOne, if_neg fresh, orderBetween_invalid (Bool.eq_false_iff.mpr invalid)] at here₂
        cases here₂
      obtain ⟨laid, spaced⟩ := ih (next accepted) (by omega) later
      refine ⟨?_, fun j le below fresh => ?_⟩
      · constructor
        case length => exact congrArg (· + 1) laid.length
        case digits => exact List.forall_mem_cons.mpr ⟨digits, laid.digits⟩
        case ordered => exact List.pairwise_cons.mpr ⟨laid.after k' rfl, laid.ordered⟩
        case after =>
          exact fun x there => List.forall_mem_cons.mpr
            ⟨less x there, fun k₂ mem => (less x there).trans (laid.after k' rfl k₂ mem)⟩
        case settled =>
          refine ⟨?_, laid.settled⟩
          by_cases ok : validOrder k' = true
          · exact .inl ok
          · have fresh : i ∉ keep := fun kept => ok (keeps.valid i k' (key kept))
            rw [assignOne, if_neg fresh] at here
            cases n with
            | zero =>
                obtain rfl : [] = rest := Except.ok.inj later
                rw [nextKept, show count - (i + 1) = 0 by omega] at here
                exact .inr ⟨here, fun y mem => absurd mem (Option.not_mem_none y)⟩
            | succ m =>
                have kept : i + 1 ∈ keep := by
                  by_contra fresh'
                  exact ok (accepted (by omega) fresh')
                obtain ⟨-, k₂, key₂⟩ := keeps.keyed (i + 1) kept
                obtain ⟨k₃, rest', here₂, -, rfl⟩ := assignFrom_succ.mp later
                rw [assignOne, if_pos kept, key₂] at here₂
                obtain rfl : k₂ = k₃ := Except.ok.inj here₂
                rw [nextKept_of_mem (by omega) kept, key₂] at here
                refine .inr ⟨here, ?_⟩
                rintro _ ⟨⟩
                exact keeps.valid (i + 1) k₂ key₂
      · rcases le.eq_or_lt with rfl | less'
        · exact valid.mp (accepted below fresh)
        · exact spaced j less' below fresh

theorem assignFrom_made (keeps : Keeps keys keep count) {n i : Nat} {before : Option String}
    (paced : Paced keys keep count i before) (reaches : i + n = count)
    (spaced : ∀ j, i ≤ j → j + 1 < count → j + 1 ∉ keep → Roomy keys keep count j) :
    ∃ out, assignFrom keys keep count n i before = .ok out := by
  induction n generalizing i before with
  | zero => exact ⟨[], rfl⟩
  | succ n ih =>
      obtain ⟨k, made, -, -, -, valid, next⟩ := paced_step keeps paced (by omega)
      obtain ⟨rest, later⟩ := ih (next fun below fresh => valid.mpr (spaced i le_rfl below fresh)) (by omega)
        fun j le => spaced j (Nat.le_of_succ_le le)
      exact ⟨k :: rest, assignFrom_succ.mpr ⟨k, rest, made, later, rfl⟩⟩

end Assign

/-! ## The whole list -/

section Whole

variable {known : Nat → Option String} {count : Nat} {out : List String}

/-- Every entry gets a key unless one gets too long before another fresh one. -/
theorem assignOrders_ok_iff : (∃ out, assignOrders count known = .ok out) ↔ Spaced known count := by
  have keeps := keeps_longest known count
  have paced := paced_of_ready (ready_start keeps)
  constructor
  · rintro ⟨out, made⟩ i
    exact (assignFrom_laid keeps paced (Nat.zero_add count) made).2 i (Nat.zero_le i)
  · intro spaced
    exact assignFrom_made keeps paced (Nat.zero_add count) fun j _ => spaced j

theorem assignOrders_laid (made : assignOrders count known = .ok out) : Laid count none out :=
  (assignFrom_laid (keeps_longest known count) (paced_of_ready (ready_start (keeps_longest known count)))
    (Nat.zero_add count) made).1

theorem mem_longest_ordered (ordered : out.Pairwise (· < ·)) {i : Nat} :
    i ∈ longestIncreasing (validKey (out[·]?)) out.length ↔ ∃ k, out[i]? = some k ∧ validOrder k = true := by
  have told (i : Nat) : (∃ k, validKey (out[·]?) i = some k) ↔ ∃ k, out[i]? = some k ∧ validOrder k = true :=
    exists_congr fun k => by rw [validKey_eq, isValidOrder_eq]
  rw [← told]
  obtain ⟨increasing, longest⟩ := Patience.longest_spec (validKey (out[·]?)) out.length
  constructor
  · intro mem
    exact (increasing.1 i (List.mem_reverse.mpr mem)).2
  · rintro ⟨k, key⟩
    -- the valid ones are an increasing run themselves
    have all : Patience.Increasing (validKey (out[·]?)) out.length
        ((List.range out.length).filter fun i => (validKey (out[·]?) i).isSome) := by
      refine ⟨fun j mem => ?_, (List.pairwise_lt_range.filter _).imp fun less => ⟨less, fun k k' here there => ?_⟩⟩
      · obtain ⟨below, keyed⟩ := List.mem_filter.mp mem
        exact ⟨List.mem_range.mp below, Option.isSome_iff_exists.mp keyed⟩
      · obtain ⟨below, rfl⟩ := List.getElem?_eq_some_iff.mp (validKey_eq.mp here).1
        obtain ⟨below', rfl⟩ := List.getElem?_eq_some_iff.mp (validKey_eq.mp there).1
        exact List.pairwise_iff_getElem.mp ordered _ _ below below' less
    have distinct : (Patience.longest (validKey (out[·]?)) out.length).reverse.Nodup := increasing.2.imp fun step => step.1.ne
    have inside : (Patience.longest (validKey (out[·]?)) out.length).reverse ⊆
        (List.range out.length).filter fun i => (validKey (out[·]?) i).isSome := fun j mem => by
      obtain ⟨below, keyed⟩ := increasing.1 j mem
      exact List.mem_filter.mpr ⟨List.mem_range.mpr below, Option.isSome_iff_exists.mpr keyed⟩
    have whole := (List.subperm_of_subset distinct inside).perm_of_length_le (by
      rw [List.length_reverse]
      exact longest _ all)
    obtain ⟨below, -⟩ := List.getElem?_eq_some_iff.mp (validKey_eq.mp key).1
    refine List.mem_reverse.mp (whole.mem_iff.mpr (List.mem_filter.mpr ⟨List.mem_range.mpr below, ?_⟩))
    rw [key]
    rfl

/-- Where the keys given are the known ones, they are given again. -/
theorem assignOrders_again (made : assignOrders count known = .ok out) : assignOrders count (out[·]?) = .ok out := by
  have laid := assignOrders_laid made
  obtain rfl := laid.length
  have again : ∀ n i before, i + n = out.length → Settled before (out.drop i) →
      assignFrom (validKey (out[·]?)) (longestIncreasing (validKey (out[·]?)) out.length) out.length n i before =
        .ok (out.drop i) := by
    intro n
    induction n with
    | zero =>
        intro i before reaches _
        rw [List.drop_of_length_le (by omega)]
        rfl
    | succ n ih =>
        intro i before reaches settled
        have below : i < out.length := by omega
        rw [List.drop_eq_getElem_cons below] at settled ⊢
        refine assignFrom_succ.mpr ⟨out[i], _, ?_, ih (i + 1) (some out[i]) (by omega) settled.2, rfl⟩
        by_cases valid : validOrder out[i] = true
        · have mem := (mem_longest_ordered laid.ordered).mpr ⟨out[i], List.getElem?_eq_getElem below, valid⟩
          have key : validKey (out[·]?) i = some out[i] :=
            validKey_eq.mpr ⟨List.getElem?_eq_getElem below, (isValidOrder_eq _).trans valid⟩
          rw [assignOne, if_pos mem, key]
          rfl
        · have fresh : i ∉ longestIncreasing (validKey (out[·]?)) out.length := by
            intro mem
            obtain ⟨k, placed, valid'⟩ := (mem_longest_ordered laid.ordered).mp mem
            rw [List.getElem?_eq_getElem below] at placed
            exact valid (Option.some.inj placed ▸ valid')
          obtain ⟨between, next⟩ := settled.1.resolve_left valid
          rw [List.head?_drop] at between next
          rw [assignOne, if_neg fresh]
          suffices nextKept (validKey (out[·]?)) (longestIncreasing (validKey (out[·]?)) out.length) out.length (i + 1) =
              out[i + 1]? by rw [this, between]
          rcases Nat.lt_or_ge (i + 1) out.length with inside | beyond
          · have there := List.getElem?_eq_getElem inside
            have valid' := next out[i + 1] there
            rw [nextKept_of_mem inside ((mem_longest_ordered laid.ordered).mpr ⟨_, there, valid'⟩), there]
            exact validKey_eq.mpr ⟨there, (isValidOrder_eq _).trans valid'⟩
          · rw [nextKept, show out.length - (i + 1) = 0 by omega, List.getElem?_eq_none beyond]
            rfl
  exact again out.length 0 none (Nat.zero_add _) laid.settled

end Whole

end K2.Homes.FractionalIndex
