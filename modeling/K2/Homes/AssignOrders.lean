import K2.Homes.OrderKeys
import K2.Lib.Patience
import Mathlib.Data.String.Basic

/-! # A key for every entry

The clients' helper that turns an ordered list and the keys already known into a
key per entry: the keys of a longest run that is already in order are kept, every
other entry gets a fresh key between its neighbours. -/

namespace K2.Homes.FractionalIndex

open FractionalKeys

/-- The known key of an entry, if it is one. -/
def validKey (known : Nat → Option String) (i : Nat) : Option String := (known i).filter isValidOrder

/-- Indices of the longest strictly increasing run of the keys (nulls skipped). -/
def longestIncreasing (keys : Nat → Option String) (count : Nat) : List Nat := Patience.longest keys count

/-- The key of the first kept entry from `i` on. -/
def nextKept (keys : Nat → Option String) (keep : List Nat) (count i : Nat) : Option String :=
  ((List.range' i (count - i)).find? (· ∈ keep)).bind keys

/-- The key of entry `i`, after `before`. -/
def assignOne (keys : Nat → Option String) (keep : List Nat) (count i : Nat) (before : Option String) :
    Except OrderError String :=
  if i ∈ keep then .ok ((keys i).getD "") else orderBetween before (nextKept keys keep count (i + 1))

/-- The keys of the entries from `i` on. -/
def assignFrom (keys : Nat → Option String) (keep : List Nat) (count : Nat) :
    Nat → Nat → Option String → Except OrderError (List String)
  | 0, _, _ => .ok []
  | n + 1, i, before => do
      let k ← assignOne keys keep count i before
      let rest ← assignFrom keys keep count n (i + 1) (some k)
      .ok (k :: rest)

/-- A key for every entry of an ordered list. -/
def assignOrders (count : Nat) (known : Nat → Option String) : Except OrderError (List String) :=
  let keys := validKey known
  assignFrom keys (longestIncreasing keys count) count count 0 none

/-! ## What is asked of the keys -/

/-- An entry has its known key. -/
def Kept (known : Nat → Option String) (out : List String) (i : Nat) : Prop :=
  ∃ k, known i = some k ∧ isValidOrder k = true ∧ out[i]? = some k

instance (known : Nat → Option String) (out : List String) (i : Nat) : Decidable (Kept known out i) :=
  decidable_of_iff ((known i).any (fun k => isValidOrder k && out[i]? == some k) = true) (by
    rw [Option.any_eq_true]
    simp only [Kept, Bool.and_eq_true, beq_iff_eq])

/-- Valid keys in order, with as many known keys as can be. -/
structure Assigned (count : Nat) (known : Nat → Option String) (out : List String) : Prop where
  length : out.length = count
  ordered : out.Pairwise (· < ·)
  valid : ∀ k ∈ out, isValidOrder k = true
  /-- A longest increasing run of the valid known keys is kept. -/
  longest : ∃ run, Patience.Increasing (validKey known) count run ∧ (∀ i ∈ run, Kept known out i) ∧
    ∀ l, Patience.Increasing (validKey known) count l → l.length ≤ run.length
  /-- No other keys in order keep more. -/
  most : ∀ other : List String, other.length = count → other.Pairwise (· < ·) →
    ((List.range count).filter fun i => Kept known other i).length ≤ ((List.range count).filter fun i => Kept known out i).length

/-! ## Room -/

/-- How many keys fit one after the other between two keys. -/
def roomBetween (a b : Option String) : Nat :=
  match b with
  | none => roomAbove 62 orderMax (values (a.getD "").toList)
  | some y => room 62 orderMax (values (a.getD "").toList) (values y.toList)

/-- The key of the last kept entry before `i`. -/
def lastKept (keys : Nat → Option String) (keep : List Nat) : Nat → Option String
  | 0 => none
  | i + 1 => if i ∈ keep then keys i else lastKept keys keep i

/-- How many entries in a row before `i` are fresh. -/
def freshBefore (keep : List Nat) : Nat → Nat
  | 0 => 0
  | i + 1 => if i ∈ keep then 0 else freshBefore keep i + 1

/-- Every run of fresh entries fits between the kept keys around it. -/
def Roomy (keys : Nat → Option String) (keep : List Nat) (count i : Nat) : Prop :=
  i ∉ keep → freshBefore keep (i + 1) ≤ roomBetween (lastKept keys keep i) (nextKept keys keep count i)

variable {keys : Nat → Option String} {keep : List Nat} {count : Nat}

theorem nextKept_of_mem {i : Nat} (below : i < count) (mem : i ∈ keep) : nextKept keys keep count i = keys i := by
  obtain ⟨m, rest⟩ : ∃ m, count - i = m + 1 := ⟨count - i - 1, by omega⟩
  rw [nextKept, rest, List.range'_succ, List.find?_cons_of_pos (by simpa using mem)]
  rfl

theorem nextKept_of_not_mem {i : Nat} (fresh : i ∉ keep) : nextKept keys keep count i = nextKept keys keep count (i + 1) := by
  rw [nextKept, nextKept]
  rcases Nat.lt_or_ge i count with below | beyond
  · obtain ⟨m, rest⟩ : ∃ m, count - i = m + 1 := ⟨count - i - 1, by omega⟩
    rw [rest, List.range'_succ, List.find?_cons_of_neg (by simpa using fresh), show count - (i + 1) = m by omega]
  · rw [show count - i = 0 by omega, show count - (i + 1) = 0 by omega]
    rfl

theorem nextKept_spec {i : Nat} {y : String} (next : nextKept keys keep count i = some y) :
    ∃ j ∈ keep, i ≤ j ∧ j < count ∧ keys j = some y := by
  obtain ⟨j, found, key⟩ := Option.bind_eq_some_iff.mp next
  have mem := List.mem_range'_1.mp (List.mem_of_find?_eq_some found)
  have kept := List.find?_some found
  exact ⟨j, of_decide_eq_true kept, mem.1, by omega, key⟩

/-! ## One entry after the other -/

/-- The kept entries are in order, with valid keys. -/
structure Keeps (keys : Nat → Option String) (keep : List Nat) (count : Nat) : Prop where
  valid : ∀ i k, keys i = some k → validOrder k = true
  keyed : ∀ i ∈ keep, i < count ∧ ∃ k, keys i = some k
  less : ∀ i ∈ keep, ∀ j ∈ keep, i < j → ∀ k k', keys i = some k → keys j = some k' → k < k'

/-- The last key lies before the next kept one, and the fresh ones so far have taken
    their places. -/
structure Ready (keys : Nat → Option String) (keep : List Nat) (count i : Nat) (before : Option String) : Prop where
  ends : Ends before (nextKept keys keep count i)
  room : roomBetween before (nextKept keys keep count i) + freshBefore keep i =
    roomBetween (lastKept keys keep i) (nextKept keys keep count i)

theorem roomBetween_step {a b : Option String} (ends : Ends a b) {k : String} (spelled : Spells k.toList (laid a b)) :
    roomBetween a b = if (laid a b).length ≤ orderMax then roomBetween (some k) b + 1 else 0 := by
  obtain ⟨digits, key, -⟩ := values_start ends.first
  rcases b with _ | y
  · rw [roomBetween, roomAbove_step (by decide) key.digits]
    rw [roomBetween, Option.getD_some, spelled.values]
    rfl
  · obtain ⟨second, -, short, key'⟩ := validOrder_iff.mp (ends.second y rfl)
    have fits : (values y.toList).length ≤ orderMax := by
      rw [values, List.length_map]
      exact short
    rw [roomBetween, room_step (by decide) key key' ((values_lt_values digits second).mpr (start_lt ends rfl)) fits]
    rw [roomBetween, Option.getD_some, spelled.values]
    rfl

theorem ready_start (keeps : Keeps keys keep count) : Ready keys keep count 0 none where
  ends :=
    { first := fun x mem => nomatch mem
      second := by
        intro y mem
        obtain ⟨j, -, -, -, key⟩ := nextKept_spec mem
        exact keeps.valid j y key
      less := fun x mem => nomatch mem }
  room := rfl

/-- A fresh entry gets a key, a valid one exactly if there is room. -/
theorem fresh_spec {i : Nat} {before : Option String} (ready : Ready keys keep count i before) (fresh : i ∉ keep) :
    ∃ k, assignOne keys keep count i before = .ok k ∧ (∀ x ∈ before, x < k) ∧
      (validOrder k = true ↔ Roomy keys keep count i) ∧
      (validOrder k = true → Ready keys keep count (i + 1) (some k)) := by
  obtain ⟨k, -, made, spelled⟩ := orderBetween_eq ready.ends
  have step := roomBetween_step ready.ends spelled
  have valid := laid_valid_iff ready.ends spelled
  have lies := laid_lies ready.ends spelled
  have counts : freshBefore keep (i + 1) = freshBefore keep i + 1 := if_neg fresh
  have room := ready.room
  refine ⟨k, ?_, lies.1, ?_, fun accepted => ?_⟩
  · rw [assignOne, if_neg fresh, ← nextKept_of_not_mem fresh]
    exact made
  · rw [valid, Roomy, counts]
    constructor
    · intro fits _
      rw [if_pos fits] at step
      omega
    · intro roomy
      by_contra long
      rw [if_neg long] at step
      have := roomy fresh
      omega
  · rw [if_pos (valid.mp accepted)] at step
    have last : lastKept keys keep (i + 1) = lastKept keys keep i := if_neg fresh
    constructor
    · rw [← nextKept_of_not_mem fresh]
      exact
        { first := by rintro _ ⟨⟩; exact accepted
          second := ready.ends.second
          less := by rintro _ ⟨⟩ y mem; exact lies.2 y mem }
    · rw [← nextKept_of_not_mem fresh, counts, last]
      omega

theorem ready_kept (keeps : Keeps keys keep count) {i : Nat} (mem : i ∈ keep) {k : String} (key : keys i = some k) :
    Ready keys keep count (i + 1) (some k) where
  ends :=
    { first := by rintro _ ⟨⟩; exact keeps.valid i k key
      second := by
        intro y next
        obtain ⟨j, -, -, -, key'⟩ := nextKept_spec next
        exact keeps.valid j y key'
      less := by
        rintro _ ⟨⟩ y next
        obtain ⟨j, kept, later, -, key'⟩ := nextKept_spec next
        exact keeps.less i mem j kept (by omega) k y key key' }
  room := by rw [freshBefore, if_pos mem, lastKept, if_pos mem, key, Nat.add_zero]

theorem kept_spec (keeps : Keeps keys keep count) {i : Nat} {before : Option String} (ready : Ready keys keep count i before)
    (mem : i ∈ keep) :
    ∃ k, assignOne keys keep count i before = .ok k ∧ keys i = some k ∧ (∀ x ∈ before, x < k) ∧ validOrder k = true ∧
      Ready keys keep count (i + 1) (some k) := by
  obtain ⟨below, k, key⟩ := keeps.keyed i mem
  refine ⟨k, by rw [assignOne, if_pos mem, key]; rfl, key, fun x there => ?_, keeps.valid i k key, ready_kept keeps mem key⟩
  exact ready.ends.less x there k (by rw [nextKept_of_mem below mem, key]; rfl)

/-- The keys from entry `i` on, as they should be. -/
structure Given (keys : Nat → Option String) (keep : List Nat) (n i : Nat) (before : Option String) (out : List String) :
    Prop where
  length : out.length = n
  valid : ∀ k ∈ out, validOrder k = true
  ordered : out.Pairwise (· < ·)
  after : ∀ x ∈ before, ∀ k ∈ out, x < k
  kept : ∀ j, i + j ∈ keep → j < n → out[j]? = keys (i + j)

theorem given_cons {n i : Nat} {before : Option String} {k : String} {rest : List String} (less : ∀ x ∈ before, x < k)
    (valid : validOrder k = true) (here : i ∈ keep → keys i = some k) (later : Given keys keep n (i + 1) (some k) rest) :
    Given keys keep (n + 1) i before (k :: rest) where
  length := congrArg (· + 1) later.length
  valid k' mem := by
    rcases List.mem_cons.mp mem with rfl | mem
    · exact valid
    · exact later.valid k' mem
  ordered := List.pairwise_cons.mpr ⟨later.after k rfl, later.ordered⟩
  after x there k' mem := by
    rcases List.mem_cons.mp mem with rfl | mem
    · exact less x there
    · exact (less x there).trans (later.after k rfl k' mem)
  kept j mem below := by
    cases j with
    | zero => exact (here mem).symm
    | succ j =>
        rw [List.getElem?_cons_succ, later.kept j (by rwa [Nat.add_assoc, Nat.add_comm 1 j]) (by omega), Nat.add_assoc,
          Nat.add_comm 1 j]

theorem assignFrom_succ {n i : Nat} {before : Option String} {out : List String} :
    assignFrom keys keep count (n + 1) i before = .ok out ↔
      ∃ k rest, assignOne keys keep count i before = .ok k ∧ assignFrom keys keep count n (i + 1) (some k) = .ok rest ∧
        out = k :: rest := by
  rw [assignFrom, bind_eq_ok]
  refine exists_congr fun k => ?_
  rw [bind_eq_ok]
  constructor
  · rintro ⟨here, rest, later, same⟩
    exact ⟨rest, here, later, (Except.ok.inj same).symm⟩
  · rintro ⟨rest, here, later, rfl⟩
    exact ⟨here, rest, later, rfl⟩

theorem assignFrom_ok (keeps : Keeps keys keep count) {n i : Nat} {before : Option String}
    (ready : Ready keys keep count i before) (reaches : i + n = count)
    (roomy : ∀ j, i ≤ j → j < count → Roomy keys keep count j) :
    ∃ out, assignFrom keys keep count n i before = .ok out ∧ Given keys keep n i before out := by
  induction n generalizing i before with
  | zero =>
      refine ⟨[], rfl, ?_⟩
      constructor
      case length => rfl
      case valid => exact fun k mem => nomatch mem
      case ordered => exact List.Pairwise.nil
      case after => exact fun x _ k mem => nomatch mem
      case kept => exact fun j _ below => absurd below (Nat.not_lt_zero j)
  | succ n ih =>
      have remaining {before : Option String} (next : Ready keys keep count (i + 1) before) :=
        ih next (by omega) fun j le => roomy j (Nat.le_of_succ_le le)
      by_cases mem : i ∈ keep
      · obtain ⟨k, made, key, less, valid, next⟩ := kept_spec keeps ready mem
        obtain ⟨rest, later, given⟩ := remaining next
        exact ⟨k :: rest, assignFrom_succ.mpr ⟨k, rest, made, later, rfl⟩,
          given_cons less valid (fun _ => key) given⟩
      · obtain ⟨k, made, less, valid, next⟩ := fresh_spec ready mem
        have accepted := valid.mpr (roomy i le_rfl (by omega))
        obtain ⟨rest, later, given⟩ := remaining (next accepted)
        exact ⟨k :: rest, assignFrom_succ.mpr ⟨k, rest, made, later, rfl⟩,
          given_cons less accepted (fun kept => absurd kept mem) given⟩

theorem roomy_of_ok (keeps : Keeps keys keep count) {n i : Nat} {before : Option String} {out : List String}
    (ready : Ready keys keep count i before) (reaches : i + n = count) (made : assignFrom keys keep count n i before = .ok out)
    (valid : ∀ k ∈ out, validOrder k = true) : ∀ j, i ≤ j → j < count → Roomy keys keep count j := by
  induction n generalizing i before out with
  | zero => exact fun j le below => absurd (reaches ▸ below) (by omega)
  | succ n ih =>
      obtain ⟨k, rest, here, later, rfl⟩ := assignFrom_succ.mp made
      have accepted := valid k (List.mem_cons_self ..)
      have others (k' : String) (mem : k' ∈ rest) := valid k' (List.mem_cons_of_mem _ mem)
      intro j le below
      by_cases mem : i ∈ keep
      · obtain ⟨k', here', -, -, -, next⟩ := kept_spec keeps ready mem
        obtain rfl : k' = k := Except.ok.inj (here'.symm.trans here)
        rcases le.eq_or_lt with rfl | less
        · exact fun fresh => absurd mem fresh
        · exact ih next (by omega) later others j less below
      · obtain ⟨k', here', -, room, next⟩ := fresh_spec ready mem
        obtain rfl : k' = k := Except.ok.inj (here'.symm.trans here)
        rcases le.eq_or_lt with rfl | less
        · exact room.mp accepted
        · exact ih (next accepted) (by omega) later others j less below

/-! ## The whole list -/

theorem validKey_eq {known : Nat → Option String} {i : Nat} {k : String} :
    validKey known i = some k ↔ known i = some k ∧ isValidOrder k = true := Option.filter_eq_some_iff

theorem keeps_longest (known : Nat → Option String) (count : Nat) :
    Keeps (validKey known) (longestIncreasing (validKey known) count) count where
  valid _ k key := (isValidOrder_eq k).symm.trans (validKey_eq.mp key).2
  keyed i mem := (Patience.longest_spec (validKey known) count).1.1 i (List.mem_reverse.mpr mem)
  less _ mem _ mem' less _ _ here there :=
    (Patience.longest_spec (validKey known) count).1.lt (List.mem_reverse.mpr mem) (List.mem_reverse.mpr mem') less here there

theorem increasing_kept {known : Nat → Option String} {count : Nat} {out : List String} (ordered : out.Pairwise (· < ·)) :
    Patience.Increasing (validKey known) count ((List.range count).filter fun i => Kept known out i) := by
  refine ⟨fun i mem => ?_, (List.pairwise_lt_range.filter _).imp_of_mem fun mem mem' less => ⟨less, ?_⟩⟩
  · obtain ⟨below, kept⟩ := List.mem_filter.mp mem
    obtain ⟨k, key, valid, -⟩ := of_decide_eq_true kept
    exact ⟨List.mem_range.mp below, k, validKey_eq.mpr ⟨key, valid⟩⟩
  · intro k k' here there
    obtain ⟨l, key, -, placed⟩ := of_decide_eq_true (List.mem_filter.mp mem).2
    obtain ⟨l', key', -, at'⟩ := of_decide_eq_true (List.mem_filter.mp mem').2
    obtain rfl : k = l := Option.some.inj ((validKey_eq.mp here).1.symm.trans key)
    obtain rfl : k' = l' := Option.some.inj ((validKey_eq.mp there).1.symm.trans key')
    obtain ⟨below, rfl⟩ := List.getElem?_eq_some_iff.mp placed
    obtain ⟨below', rfl⟩ := List.getElem?_eq_some_iff.mp at'
    exact List.pairwise_iff_getElem.mp ordered _ _ below below' less

theorem assigned_of_given {known : Nat → Option String} {count : Nat} {out : List String}
    (given : Given (validKey known) (longestIncreasing (validKey known) count) count 0 none out) : Assigned count known out := by
  obtain ⟨increasing, longest⟩ := Patience.longest_spec (validKey known) count
  have kept (i : Nat) (mem : i ∈ (Patience.longest (validKey known) count).reverse) : Kept known out i := by
    obtain ⟨below, k, key⟩ := increasing.1 i mem
    have placed := given.kept i (by rw [Nat.zero_add]; exact List.mem_reverse.mp mem) below
    rw [Nat.zero_add, key] at placed
    exact ⟨k, (validKey_eq.mp key).1, (validKey_eq.mp key).2, placed⟩
  constructor
  case length => exact given.length
  case ordered => exact given.ordered
  case valid => exact fun k mem => (isValidOrder_eq k).trans (given.valid k mem)
  case longest =>
    refine ⟨_, increasing, kept, fun l other => ?_⟩
    rw [List.length_reverse]
    exact longest l other
  case most =>
    intro other _ ordered
    have distinct : (Patience.longest (validKey known) count).reverse.Nodup := increasing.2.imp fun step => step.1.ne
    refine (longest _ (increasing_kept ordered)).trans ?_
    rw [← List.length_reverse]
    refine List.Nodup.length_le_of_subset distinct fun i mem => List.mem_filter.mpr ⟨?_, decide_eq_true (kept i mem)⟩
    exact List.mem_range.mpr (increasing.1 i mem).1

theorem assigned_iff_roomy (count : Nat) (known : Nat → Option String) :
    (∃ out, assignOrders count known = .ok out ∧ Assigned count known out) ↔
      ∀ i < count, Roomy (validKey known) (longestIncreasing (validKey known) count) count i := by
  have keeps := keeps_longest known count
  constructor
  · rintro ⟨out, made, assigned⟩ i below
    refine roomy_of_ok keeps (ready_start keeps) (Nat.zero_add count) made (fun k mem => ?_) i (Nat.zero_le i) below
    exact (isValidOrder_eq k).symm.trans (assigned.valid k mem)
  · intro roomy
    obtain ⟨out, made, given⟩ := assignFrom_ok keeps (ready_start keeps) (Nat.zero_add count) fun j _ => roomy j
    exact ⟨out, made, assigned_of_given given⟩

/-- Every entry gets a key, and as many as can be keep theirs, exactly if every run of
    fresh entries has room between the kept keys around it. -/
theorem assignOrders_assigns_iff (count : Nat) (known : Nat → Option String) :
    (∃ out, assignOrders count known = .ok out ∧ Assigned count known out) ↔
      ∀ i < count, Roomy (validKey known) (longestIncreasing (validKey known) count) count i :=
  assigned_iff_roomy count known

/-! ## Without known keys -/

theorem longest_unknown (count : Nat) : longestIncreasing (validKey fun _ => none) count = [] := by
  rcases List.eq_nil_or_concat (longestIncreasing (validKey fun _ => none) count) with none | ⟨l, i, keyed⟩
  · exact none
  · obtain ⟨-, k, key⟩ := (keeps_longest (fun _ => none) count).keyed i (by rw [keyed]; simp)
    cases key

theorem freshBefore_nil (i : Nat) : freshBefore [] i = i := by
  induction i with
  | zero => rfl
  | succ i ih => rw [freshBefore, if_neg List.not_mem_nil, ih]

theorem roomy_unknown_iff (count : Nat) :
    (∀ i < count, Roomy (validKey fun _ => none) (longestIncreasing (validKey fun _ => none) count) count i) ↔ count ≤ 640 := by
  have room (i : Nat) : roomBetween (lastKept (validKey fun _ => none) [] i) (nextKept (validKey fun _ => none) [] count i) = 640 := by
    have last : lastKept (validKey fun _ => none) [] i = none := by
      induction i with
      | zero => rfl
      | succ i ih => rw [lastKept, if_neg List.not_mem_nil, ih]
    have next : nextKept (validKey fun _ => none) [] count i = none := by
      rw [nextKept, List.find?_eq_none.mpr (by simp)]
      rfl
    rw [last, next, roomBetween, Option.getD_none, show values "".toList = [] from rfl, roomAbove_nil]
    decide
  rw [longest_unknown]
  constructor
  · intro roomy
    rcases Nat.eq_zero_or_pos count with rfl | positive
    · exact Nat.zero_le _
    · have := roomy (count - 1) (by omega) List.not_mem_nil
      rw [freshBefore_nil, room] at this
      omega
  · intro few i below _
    rw [freshBefore_nil, room]
    omega

/-- The 641st key in a row is too long. -/
theorem assignOrders_too_many :
    ¬∀ count known, ∃ out, assignOrders count known = .ok out ∧ Assigned count known out := by
  intro always
  have := (roomy_unknown_iff 641).mp ((assigned_iff_roomy 641 _).mp (always 641 fun _ => none))
  omega

end K2.Homes.FractionalIndex
