import K2.Homes.Item
import K2.Lib.FractionalKeys
import K2.Text

/-! # Order keys

The key of a Home or a row between two others, as the server's crate and as the
clients' helper make it. Keys are ASCII, so that bytes, UTF-16 units and
characters are the same; they are lists of characters here. -/

namespace K2.Homes

open FractionalKeys

/-- The fractional-index digits, in ASCII (= string compare) order. -/
def orderDigits : List Char := "0123456789ABCDEFGHIJKLMNOPQRSTUVWXYZabcdefghijklmnopqrstuvwxyz".toList

inductive OrderError where
  | invalid (key : String)
  | outOfOrder (a b : String)
  | panicked
  deriving Repr, DecidableEq

/-- How many digits of `b` the digits of `a`, then zeros, agree with. -/
def agreeing : List Char → List Char → Nat
  | _, [] => 0
  | a, e :: b => if a.headD '0' = e then agreeing a.tail b + 1 else 0

/-- The position of the first digit, or another number without one. -/
def firstDigit (other : Nat) : List Char → Option Nat
  | [] => some other
  | c :: _ => orderDigits.idxOf? c

/-- `usize` subtraction. -/
def checkedSub (a b : Nat) : Option Nat := if b ≤ a then some (a - b) else none

/-- A panic is `none`, and so is a recursion deeper than the fuel. -/
def mid : Nat → List Char → Option (List Char) → Option (List Char)
  | 0, _, _ => none
  | fuel + 1, a, b =>
      let n := b.elim 0 (agreeing a)
      if 0 < n then do
        let rest ← mid fuel (a.drop n) (b.map fun b => b.drop n)
        some ((b.getD []).take n ++ rest)
      else do
        let da ← firstDigit 0 a
        let db ← firstDigit orderDigits.length (b.getD [])
        let gap ← checkedSub db da
        if 1 < gap then do
          let d ← orderDigits[(da + db + 1) / 2]?
          some [d]
        else
          match b with
          | some (c :: _ :: _) => some [c]
          | _ => do
              let d ← orderDigits[da]?
              let rest ← mid fuel a.tail none
              some (d :: rest)

/-- Both ends are keys, in order. -/
def checkEnds (valid : String → Bool) (a b : Option String) : Except OrderError Unit :=
  match (a.toList ++ b.toList).find? fun k => !valid k with
  | some k => .error (.invalid k)
  | none =>
      match a, b with
      | some x, some y => if y ≤ x then .error (.outOfOrder x y) else .ok ()
      | _, _ => .ok ()

def enough (a b : Option String) : Nat := (a.getD "").length + (b.getD "").length + 3

/-- A key strictly between `a` and `b` (none is an open end). -/
def orderBetween (a b : Option String) : Except OrderError String := do
  checkEnds validOrder a b
  let k ← okOr (mid (enough a b) (a.getD "").toList (b.map String.toList)) .panicked
  .ok (String.ofList k)

/-! ## The clients' helper -/

namespace FractionalIndex

/-- `key.length`, in UTF-16 units. -/
def utf16Length (s : String) : Nat := (s.toList.map fun c => if c.toNat < 0x10000 then 1 else 2).sum

def isValidOrder (key : String) : Bool :=
  0 < utf16Length key && utf16Length key ≤ orderMax && (!key.isEmpty && key.toList.all Text.isAsciiAlphanumeric) &&
    key.toList.getLast? != some '0'

/-- `ORDER_DIGITS.indexOf`. -/
def indexOf (c : Char) : Int := (orderDigits.idxOf? c).elim (-1) Int.ofNat

def firstIndex (other : Int) : List Char → Int
  | [] => other
  | c :: _ => indexOf c

/-- `ORDER_DIGITS[i]`, none where undefined. -/
def digitAt (i : Int) : Option Char := if 0 ≤ i then orderDigits[i.toNat]? else none

def midpoint : Nat → List Char → Option (List Char) → Option (List Char)
  | 0, _, _ => none
  | fuel + 1, a, b =>
      let n := b.elim 0 (agreeing a)
      if 0 < n then do
        let rest ← midpoint fuel (a.drop n) (b.map fun b => b.drop n)
        some ((b.getD []).take n ++ rest)
      else
        let da := firstIndex 0 a
        let db := firstIndex orderDigits.length (b.getD [])
        if 1 < db - da then do
          let d ← digitAt ((da + db + 1) / 2)
          some [d]
        else
          match b with
          | some (c :: _ :: _) => some [c]
          | _ => do
              let d ← digitAt da
              let rest ← midpoint fuel a.tail none
              some (d :: rest)

/-- A key strictly between `a` and `b` (null is an open end); throws on an invalid key
    or ends out of order. -/
def orderBetween (a b : Option String) : Except OrderError String := do
  checkEnds isValidOrder a b
  let k ← okOr (midpoint (enough a b) (a.getD "").toList (b.map String.toList)) .panicked
  .ok (String.ofList k)

end FractionalIndex

/-! ## Digits -/

def value (c : Char) : Nat := orderDigits.idxOf c

def values (s : List Char) : List Nat := s.map value

/-- The digits of a key, by themselves. -/
def Digits (s : List Char) : Prop := ∀ c ∈ s, c ∈ orderDigits

theorem mem_orderDigits {c : Char} (alphanumeric : Text.isAsciiAlphanumeric c = true) : c ∈ orderDigits := by
  have all : ∀ n < 128, Text.isAsciiAlphanumeric (Char.ofNat n) = true → Char.ofNat n ∈ orderDigits := by
    decide +kernel
  have small : c.toNat < 128 := by
    simp only [Text.isAsciiAlphanumeric, Bool.or_eq_true, Bool.and_eq_true, decide_eq_true_eq, Char.le_def, UInt32.le_iff_toNat_le] at alphanumeric
    have low : 'Z'.val.toNat < 128 ∧ 'z'.val.toNat < 128 ∧ '9'.val.toNat < 128 := by decide
    have same : c.toNat = c.val.toNat := rfl
    omega
  have self := Char.ofNat_toNat c
  rw [← self] at alphanumeric ⊢
  exact all _ small alphanumeric

theorem alphanumeric_of_mem : ∀ c ∈ orderDigits, Text.isAsciiAlphanumeric c = true := List.all_eq_true.mp (by decide)

theorem orderDigits_sorted : orderDigits.Pairwise (· < ·) := by decide

theorem value_lt {c : Char} (digit : c ∈ orderDigits) : value c < 62 := List.idxOf_lt_length_iff.mpr digit

theorem digit_value {c : Char} (digit : c ∈ orderDigits) : orderDigits[value c]? = some c :=
  List.getElem?_idxOf digit

theorem idxOf?_eq : ∀ c ∈ orderDigits, orderDigits.idxOf? c = some (value c) := by
  have all : orderDigits.all fun c => orderDigits.idxOf? c = some (value c) := by decide +kernel
  exact fun c mem => of_decide_eq_true (List.all_eq_true.mp all c mem)

theorem value_injective {c d : Char} (digit : c ∈ orderDigits) (digit' : d ∈ orderDigits) (same : value c = value d) : c = d := by
  have := digit_value digit
  rw [same, digit_value digit'] at this
  exact (Option.some.inj this).symm

theorem lt_of_value_lt {c d : Char} (digit : c ∈ orderDigits) (digit' : d ∈ orderDigits) (less : value c < value d) : c < d := by
  have sorted := List.pairwise_iff_getElem.mp orderDigits_sorted (value c) (value d) (value_lt digit) (value_lt digit') less
  have left := List.getElem?_eq_some_iff.mp (digit_value digit)
  have right := List.getElem?_eq_some_iff.mp (digit_value digit')
  exact left.2 ▸ right.2 ▸ sorted

theorem value_lt_value {c d : Char} (digit : c ∈ orderDigits) (digit' : d ∈ orderDigits) : value c < value d ↔ c < d := by
  refine ⟨lt_of_value_lt digit digit', fun less => ?_⟩
  rcases Nat.lt_trichotomy (value c) (value d) with smaller | same | bigger
  · exact smaller
  · exact absurd less (value_injective digit digit' same ▸ lt_irrefl c)
  · exact absurd less (lt_of_value_lt digit' digit bigger).not_gt

theorem value_zero : value '0' = 0 := by decide

theorem Digits.tail {c : Char} {s : List Char} (digits : Digits (c :: s)) : Digits s :=
  fun d mem => digits d (List.mem_cons_of_mem _ mem)

theorem Digits.drop {s : List Char} (digits : Digits s) (n : Nat) : Digits (s.drop n) :=
  fun d mem => digits d (List.mem_of_mem_drop mem)

theorem values_lt_values {a b : List Char} (first : Digits a) (second : Digits b) : values a < values b ↔ a < b := by
  induction a generalizing b with
  | nil =>
      cases b with
      | nil => exact iff_of_false (List.not_lt_nil _) (List.not_lt_nil _)
      | cons e b => exact iff_of_true (List.nil_lt_cons ..) (List.nil_lt_cons ..)
  | cons d a ih =>
      cases b with
      | nil => exact iff_of_false (List.not_lt_nil _) (List.not_lt_nil _)
      | cons e b =>
          have left := first d (List.mem_cons_self ..)
          have right := second e (List.mem_cons_self ..)
          rw [values, values, List.map_cons, List.map_cons, List.cons_lt_cons_iff, List.cons_lt_cons_iff,
            value_lt_value left right]
          refine or_congr_right (and_congr ⟨value_injective left right, fun same => same ▸ rfl⟩ ?_)
          exact ih first.tail second.tail

/-! ## The two functions are the library's -/

theorem headD_value {a : List Char} : (values a).headD 0 = value (a.headD '0') := by
  cases a <;> rfl

theorem tail_values (a : List Char) : (values a).tail = values a.tail := by
  cases a <;> rfl

theorem between_agreeing {a b : List Char} (first : Digits a) (second : Digits b) (less : values a < values b)
    (key : Key 62 (values b)) :
    between 62 (values a) (values b) =
        values (b.take (agreeing a b)) ++ between 62 (values (a.drop (agreeing a b))) (values (b.drop (agreeing a b))) ∧
      values (a.drop (agreeing a b)) < values (b.drop (agreeing a b)) ∧
      (values (a.drop (agreeing a b))).headD 0 < (values (b.drop (agreeing a b))).headD 0 := by
  induction b generalizing a with
  | nil => exact absurd less (List.not_lt_nil _)
  | cons e b ih =>
      have digit := second e (List.mem_cons_self ..)
      have padded : a.headD '0' ∈ orderDigits := by
        cases a with
        | nil => decide
        | cons d rest => exact first d (List.mem_cons_self ..)
      have rest_digits : Digits a.tail := fun c mem => first c (List.mem_of_mem_tail mem)
      rw [agreeing]
      have compare := (lt_cons_iff (a := values a) key).mp less
      rw [headD_value, tail_values] at compare
      split
      next same =>
        have rest := (compare.resolve_left (by rw [same]; exact Nat.lt_irrefl _)).2
        obtain ⟨parts, lower, differ⟩ := ih rest_digits second.tail rest key.tail
        have drop : a.drop (agreeing a.tail b + 1) = a.tail.drop (agreeing a.tail b) := by
          cases a with
          | nil => rw [List.drop_nil, List.tail_nil, List.drop_nil]
          | cons d rest => rfl
        rw [drop, List.drop_succ_cons, List.take_succ_cons]
        refine ⟨?_, lower, differ⟩
        rw [show values (e :: b) = value e :: values b from rfl, between, headD_value, if_pos (congrArg value same), tail_values,
          parts]
        rfl
      next other =>
        refine ⟨rfl, less, ?_⟩
        rcases compare with smaller | ⟨same, -⟩
        · rw [List.drop_zero, List.drop_zero, headD_value]
          exact smaller
        · exact absurd (value_injective padded digit same) other

theorem value_get : ∀ i : Fin orderDigits.length, value (orderDigits.get i) = i.val := by decide +kernel

theorem exists_digit {i : Nat} (below : i < 62) : ∃ d ∈ orderDigits, orderDigits[i]? = some d ∧ value d = i :=
  ⟨orderDigits.get ⟨i, below⟩, List.get_mem _ _, List.getElem?_eq_getElem below, value_get ⟨i, below⟩⟩

theorem firstDigit_eq {a : List Char} (digits : Digits a) (other : Nat) :
    firstDigit other a = some (if a = [] then other else value (a.headD '0')) := by
  cases a with
  | nil => rfl
  | cons c rest => exact idxOf?_eq c (digits c (List.mem_cons_self ..))

theorem agreeing_zero {a b : List Char} (differ : (values a).headD 0 < (values b).headD 0) : agreeing a b = 0 := by
  cases b with
  | nil => rfl
  | cons e b =>
      rw [headD_value, headD_value] at differ
      rw [agreeing, if_neg]
      intro same
      rw [same] at differ
      exact Nat.lt_irrefl _ differ

/-- What a key is to the library. -/
structure Spells (k : List Char) (ds : List Nat) : Prop where
  digits : Digits k
  values : values k = ds

theorem spells_cons {c : Char} {k : List Char} {ds : List Nat} (digit : c ∈ orderDigits) (rest : Spells k ds) :
    Spells (c :: k) (value c :: ds) where
  digits d mem := by
    rcases List.mem_cons.mp mem with rfl | mem
    · exact digit
    · exact rest.digits d mem
  values := by
    rw [← rest.values]
    rfl

theorem spells_nil : Spells [] [] where
  digits := by intro d mem; cases mem
  values := rfl

theorem mid_open {a : List Char} (digits : Digits a) {fuel : Nat} (enough : a.length < fuel) :
    ∃ k, mid fuel a none = some k ∧ Spells k (above 62 (values a)) := by
  induction a generalizing fuel with
  | nil =>
      obtain ⟨fuel, rfl⟩ := Nat.exists_eq_add_one_of_ne_zero enough.ne'
      exact ⟨['V'], rfl, spells_cons (by decide) spells_nil⟩
  | cons c rest ih =>
      obtain ⟨fuel, rfl⟩ := Nat.exists_eq_add_one_of_ne_zero (Nat.zero_lt_of_lt enough).ne'
      have digit := digits c (List.mem_cons_self ..)
      have below := value_lt digit
      have gap : checkedSub 62 (value c) = some (62 - value c) := if_pos below.le
      rw [mid, show values (c :: rest) = value c :: values rest from rfl, above, firstDigit_eq digits]
      simp only [Option.elim_none, Nat.lt_irrefl, if_false, reduceCtorEq, List.headD_cons, Option.bind_eq_bind, Option.bind_some,
        Option.getD_none]
      rw [show firstDigit orderDigits.length [] = some 62 from rfl, Option.bind_some, gap, Option.bind_some]
      split
      next wide =>
        obtain ⟨d, mem, found, same⟩ := exists_digit (halfway_gt wide).2
        rw [show (value c + 62 + 1) / 2 = halfway (value c) 62 from rfl, found, Option.bind_some, ← same]
        exact ⟨_, rfl, spells_cons mem spells_nil⟩
      next =>
        obtain ⟨k, made, spelled⟩ := ih digits.tail (Nat.lt_of_succ_lt_succ enough)
        rw [digit_value digit, Option.bind_some, List.tail_cons, made, Option.bind_some]
        exact ⟨_, rfl, spells_cons digit spelled⟩

theorem mid_apart {a b : List Char} (first : Digits a) (second : Digits b)
    (differ : (values a).headD 0 < (values b).headD 0) {fuel : Nat} (enough : a.length + 1 < fuel) :
    ∃ k, mid fuel a (some b) = some k ∧ Spells k (between 62 (values a) (values b)) := by
  obtain ⟨fuel, rfl⟩ := Nat.exists_eq_add_one_of_ne_zero (Nat.zero_lt_of_lt enough).ne'
  cases b with
  | nil => exact absurd differ (Nat.not_lt_zero _)
  | cons e b =>
      have digit := second e (List.mem_cons_self ..)
      have below := value_lt digit
      have da : firstDigit 0 a = some (value (a.headD '0')) := by
        rw [firstDigit_eq first]
        cases a <;> rfl
      have db : firstDigit orderDigits.length (e :: b) = some (value e) := idxOf?_eq e digit
      rw [headD_value, headD_value, List.headD_cons] at differ
      have gap : checkedSub (value e) (value (a.headD '0')) = some (value e - value (a.headD '0')) := if_pos differ.le
      rw [mid, show values (e :: b) = value e :: values b from rfl, between, headD_value, if_neg differ.ne, tail_values]
      simp only [Option.elim_some, agreeing_zero (a := a) (b := e :: b) (by rw [headD_value, headD_value]; exact differ),
        Nat.lt_irrefl, if_false, Option.getD_some, da, db, gap, Option.bind_eq_bind, Option.bind_some]
      split
      next wide =>
        have half := (halfway_gt wide).2
        obtain ⟨d, mem, found, same⟩ := exists_digit (half.trans below)
        rw [show (value (a.headD '0') + value e + 1) / 2 = halfway (value (a.headD '0')) (value e) from rfl, found,
          Option.bind_some, ← same]
        exact ⟨_, rfl, spells_cons mem spells_nil⟩
      next =>
        cases b with
        | nil =>
            have padded : a.headD '0' ∈ orderDigits := by
              cases a with
              | nil => decide
              | cons d rest => exact first d (List.mem_cons_self ..)
            have rest_digits : Digits a.tail := fun c mem => first c (List.mem_of_mem_tail mem)
            have less : a.tail.length < fuel := by rw [List.length_tail]; omega
            obtain ⟨k, made, spelled⟩ := mid_open rest_digits less
            dsimp only
            rw [digit_value padded, Option.bind_some, made, Option.bind_some, if_pos (show values [] = [] from rfl)]
            exact ⟨_, rfl, spells_cons padded spelled⟩
        | cons f b => exact ⟨_, rfl, spells_cons digit spells_nil⟩

theorem mid_closed {a b : List Char} (first : Digits a) (second : Digits b) (key : Key 62 (values b)) (less : a < b)
    {fuel : Nat} (enough : a.length + 2 < fuel) :
    ∃ k, mid fuel a (some b) = some k ∧ Spells k (between 62 (values a) (values b)) := by
  obtain ⟨parts, lower, differ⟩ := between_agreeing first second ((values_lt_values first second).mpr less) key
  obtain ⟨fuel, rfl⟩ := Nat.exists_eq_add_one_of_ne_zero (Nat.zero_lt_of_lt enough).ne'
  by_cases positive : 0 < agreeing a b
  · obtain ⟨k, made, spelled⟩ := mid_apart (first.drop (agreeing a b)) (second.drop (agreeing a b)) differ
      (show (a.drop (agreeing a b)).length + 1 < fuel by rw [List.length_drop]; omega)
    rw [mid]
    simp only [Option.elim_some, positive, if_true, Option.map_some, made, Option.bind_eq_bind, Option.bind_some, Option.getD_some]
    refine ⟨_, rfl, fun c mem => ?_, ?_⟩
    · rcases List.mem_append.mp mem with early | late
      · exact second c (List.mem_of_mem_take early)
      · exact spelled.digits c late
    · rw [parts, ← spelled.values, values, List.map_append]
      rfl
  · have none : agreeing a b = 0 := Nat.eq_zero_of_not_pos positive
    rw [none, List.drop_zero, List.drop_zero] at differ
    exact mid_apart first second differ (by omega)

theorem firstIndex_eq {other da : Nat} {a : List Char} (found : firstDigit other a = some da) :
    FractionalIndex.firstIndex other a = da := by
  cases a with
  | nil => exact congrArg Int.ofNat (Option.some.inj found)
  | cons c rest =>
      rw [FractionalIndex.firstIndex, FractionalIndex.indexOf, show orderDigits.idxOf? c = some da from found]
      rfl

theorem digitAt_natCast (i : Nat) : FractionalIndex.digitAt i = orderDigits[i]? := if_pos (Int.natCast_nonneg i)

/-- Where the crate's function gives a key the clients' helper gives the same. -/
theorem midpoint_of_mid {fuel : Nat} {a k : List Char} {b : Option (List Char)} (made : mid fuel a b = some k) :
    FractionalIndex.midpoint fuel a b = some k := by
  induction fuel generalizing a b k with
  | zero => cases made
  | succ fuel ih =>
      rw [mid] at made
      rw [FractionalIndex.midpoint]
      dsimp only at made ⊢
      split at made
      next positive =>
        obtain ⟨rest, inner, whole⟩ := Option.bind_eq_some_iff.mp made
        rw [if_pos positive, ih inner]
        exact whole
      next level =>
        rw [if_neg level]
        obtain ⟨da, first, made⟩ := Option.bind_eq_some_iff.mp made
        obtain ⟨db, second, made⟩ := Option.bind_eq_some_iff.mp made
        obtain ⟨gap, apart, made⟩ := Option.bind_eq_some_iff.mp made
        rw [checkedSub] at apart
        split at apart
        next ordered =>
          cases apart
          rw [show FractionalIndex.firstIndex 0 a = da from @firstIndex_eq 0 da a first, firstIndex_eq second]
          split at made
          next wide =>
            rw [if_pos (by omega)]
            have half : ((da : Int) + db + 1) / 2 = ((da + db + 1) / 2 : Nat) := by omega
            rw [half, digitAt_natCast]
            exact made
          next narrow =>
            rw [if_neg (by omega), digitAt_natCast]
            split at made
            next => exact made
            next =>
              obtain ⟨d, digit, made⟩ := Option.bind_eq_some_iff.mp made
              obtain ⟨rest, inner, whole⟩ := Option.bind_eq_some_iff.mp made
              rw [digit]
              show (do let rest ← FractionalIndex.midpoint fuel a.tail none; some (d :: rest)) = some k
              rw [ih inner]
              exact whole
        next => cases apart

/-! ## Valid keys -/

theorem digits_iff {s : List Char} : s.all Text.isAsciiAlphanumeric = true ↔ Digits s := by
  rw [List.all_eq_true]
  exact ⟨fun all c mem => mem_orderDigits (all c mem), fun digits c mem => alphanumeric_of_mem c (digits c mem)⟩

theorem byteLen_of_digits {s : String} (digits : Digits s.toList) : Text.byteLen s = s.toList.length := by
  rw [Text.byteLen, ← length_utf8, ← String.ofList_toList (s := s), utf8_ofList, String.toList_ofList]
  have all : orderDigits.all fun c => (String.utf8EncodeChar c).length = 1 := by decide +kernel
  have one : ∀ c ∈ orderDigits, (String.utf8EncodeChar c).length = 1 := fun c mem =>
    of_decide_eq_true (List.all_eq_true.mp all c mem)
  generalize s.toList = cs at digits
  induction cs with
  | nil => rfl
  | cons c rest ih =>
      rw [List.flatMap_cons, List.length_append, one c (digits c (List.mem_cons_self ..)), ih digits.tail, List.length_cons,
        Nat.add_comm]

theorem utf16Length_of_digits {s : String} (digits : Digits s.toList) : FractionalIndex.utf16Length s = s.toList.length := by
  have all : orderDigits.all fun c => (if c.toNat < 0x10000 then 1 else 2) = 1 := by decide +kernel
  have one : ∀ c ∈ orderDigits, (if c.toNat < 0x10000 then 1 else 2) = 1 := fun c mem =>
    of_decide_eq_true (List.all_eq_true.mp all c mem)
  rw [FractionalIndex.utf16Length]
  generalize s.toList = cs at digits
  induction cs with
  | nil => rfl
  | cons c rest ih =>
      rw [List.map_cons, List.sum_cons, one c (digits c (List.mem_cons_self ..)), ih digits.tail, List.length_cons, Nat.add_comm]

theorem last_ne_zero_iff {s : List Char} (digits : Digits s) : s.getLast? ≠ some '0' ↔ (values s).getLast? ≠ some 0 := by
  rw [values, List.getLast?_map, ne_eq, ne_eq, not_iff_not]
  rcases last : s.getLast? with _ | c
  · exact iff_of_false (nomatch ·) (nomatch ·)
  · have digit := digits c (List.mem_of_getLast? last)
    rw [Option.map_some, Option.some.injEq, Option.some.injEq]
    exact ⟨fun same => same ▸ value_zero, fun same => value_injective digit (by decide) (same.trans value_zero.symm)⟩

theorem key_values {s : List Char} (digits : Digits s) : Key 62 (values s) ↔ s.getLast? ≠ some '0' := by
  rw [last_ne_zero_iff digits]
  refine ⟨Key.last, fun last => { digits := fun d mem => ?_, last }⟩
  obtain ⟨c, listed, rfl⟩ := List.mem_map.mp mem
  exact value_lt (digits c listed)

theorem validOrder_iff {s : String} :
    validOrder s = true ↔
      Digits s.toList ∧ s.toList ≠ [] ∧ s.toList.length ≤ orderMax ∧ Key 62 (values s.toList) := by
  have empty : s.isEmpty = true ↔ s.toList = [] := by
    rw [String.isEmpty_iff, ← String.toList_eq_nil_iff]
  simp only [validOrder, Bool.and_eq_true, Bool.not_eq_true', decide_eq_true_eq, digits_iff, bne_iff_ne]
  constructor
  · rintro ⟨⟨⟨positive, short⟩, digits⟩, last⟩
    rw [byteLen_of_digits digits] at short
    exact ⟨digits, fun none => absurd (empty.mpr none) (by rw [positive]; exact Bool.false_ne_true), short,
      (key_values digits).mpr last⟩
  · rintro ⟨digits, positive, short, key⟩
    rw [byteLen_of_digits digits]
    exact ⟨⟨⟨Bool.eq_false_iff.mpr fun none => positive (empty.mp none), short⟩, digits⟩, (key_values digits).mp key⟩

theorem isValidOrder_eq (s : String) : FractionalIndex.isValidOrder s = validOrder s := by
  rw [FractionalIndex.isValidOrder, validOrder]
  by_cases all : s.toList.all Text.isAsciiAlphanumeric = true
  · have digits := digits_iff.mp all
    rw [utf16Length_of_digits digits, byteLen_of_digits digits]
    have positive : decide (0 < s.toList.length) = !s.isEmpty := by
      rw [Bool.eq_iff_iff, decide_eq_true_eq, Bool.not_eq_true', Bool.eq_false_iff, ne_eq, String.isEmpty_iff,
        ← String.toList_eq_nil_iff, List.length_pos_iff]
    rw [positive, all]
    cases s.isEmpty <;> simp
  · rw [Bool.eq_false_iff.mpr all]
    simp

/-! ## The key between two keys -/

/-- Ends a key is asked for: valid keys, in order. -/
structure Ends (a b : Option String) : Prop where
  first : ∀ x ∈ a, validOrder x = true
  second : ∀ y ∈ b, validOrder y = true
  less : ∀ x ∈ a, ∀ y ∈ b, x < y

/-- Strictly between the ends, as strings. -/
def Between (a b : Option String) (k : String) : Prop := (∀ x ∈ a, x < k) ∧ ∀ y ∈ b, k < y

theorem checkEnds_ok {valid : String → Bool} (same : ∀ s, valid s = validOrder s) {a b : Option String} (ends : Ends a b) :
    checkEnds valid a b = .ok () := by
  have none : (a.toList ++ b.toList).find? (fun k => !valid k) = none := by
    rw [List.find?_eq_none]
    intro k mem
    rw [same k]
    rcases List.mem_append.mp mem with left | right
    · rw [ends.first k (Option.mem_toList.mp left)]
      decide
    · rw [ends.second k (Option.mem_toList.mp right)]
      decide
  unfold checkEnds
  rw [none]
  rcases a with _ | x
  · rfl
  · rcases b with _ | y
    · rfl
    · exact if_neg (ends.less x rfl y rfl).not_ge

/-- What is laid between the ends, in digits. -/
def laid (a b : Option String) : List Nat :=
  match b with
  | none => above 62 (values (a.getD "").toList)
  | some y => between 62 (values (a.getD "").toList) (values y.toList)

theorem values_start {a : Option String} (first : ∀ x ∈ a, validOrder x = true) :
    Digits (a.getD "").toList ∧ Key 62 (values (a.getD "").toList) ∧ (a.getD "").toList.length ≤ orderMax := by
  cases a with
  | none => exact ⟨spells_nil.digits, key_nil, Nat.zero_le _⟩
  | some x =>
      obtain ⟨digits, -, short, key⟩ := validOrder_iff.mp (first x rfl)
      exact ⟨digits, key, short⟩

theorem start_lt {a b : Option String} (ends : Ends a b) {y : String} (there : b = some y) : (a.getD "").toList < y.toList := by
  cases a with
  | none =>
      obtain ⟨-, positive, -, -⟩ := validOrder_iff.mp (ends.second y there)
      obtain ⟨c, rest, same⟩ := List.exists_cons_of_ne_nil positive
      rw [same]
      exact List.nil_lt_cons ..
  | some x => exact String.lt_iff_toList_lt.mp (ends.less x rfl y there)

theorem orderBetween_eq {a b : Option String} (ends : Ends a b) :
    ∃ k : String, orderBetween a b = .ok k ∧ FractionalIndex.orderBetween a b = .ok k ∧
      Spells k.toList (laid a b) := by
  obtain ⟨digits, -, -⟩ := values_start ends.first
  have made : ∃ k, mid (enough a b) (a.getD "").toList (b.map String.toList) = some k ∧ Spells k (laid a b) := by
    have fuel : (a.getD "").toList.length + 2 < enough a b := by
      rw [enough, String.length_toList]
      omega
    cases there : b with
    | none => exact mid_open digits (by rw [there] at fuel; omega)
    | some y =>
        obtain ⟨second, -, -, key⟩ := validOrder_iff.mp (ends.second y there)
        exact mid_closed digits second key (start_lt ends there) (by rw [there] at fuel; exact fuel)
  obtain ⟨k, made, spelled⟩ := made
  refine ⟨String.ofList k, ?_, ?_, by rw [String.toList_ofList]; exact spelled⟩
  · rw [orderBetween, checkEnds_ok (fun _ => rfl) ends, made]
    rfl
  · rw [FractionalIndex.orderBetween, checkEnds_ok isValidOrder_eq ends, midpoint_of_mid made]
    rfl

theorem laid_key {a b : Option String} (ends : Ends a b) : Key 62 (laid a b) ∧ laid a b ≠ [] := by
  obtain ⟨digits, key, -⟩ := values_start ends.first
  cases there : b with
  | none => exact ⟨above_key (by decide) key.digits, above_ne_nil _⟩
  | some y =>
      obtain ⟨second, -, -, key'⟩ := validOrder_iff.mp (ends.second y there)
      exact ⟨between_key (by decide) key key' ((values_lt_values digits second).mpr (start_lt ends there)), between_ne_nil _ _⟩

theorem between_iff {a b : Option String} (ends : Ends a b) {k : String} (digits : Digits k.toList) (positive : k.toList ≠ []) :
    Between a b k ↔ values (a.getD "").toList < values k.toList ∧ ∀ y ∈ b, values k.toList < values y.toList := by
  obtain ⟨start, -, -⟩ := values_start ends.first
  rw [values_lt_values start digits, Between]
  refine and_congr ?_ (forall₂_congr fun y there => ?_)
  · cases a with
    | none =>
        obtain ⟨c, rest, same⟩ := List.exists_cons_of_ne_nil positive
        refine iff_of_true (fun x mem => nomatch mem) ?_
        rw [same]
        exact List.nil_lt_cons ..
    | some x =>
        refine ⟨fun low => String.lt_iff_toList_lt.mp (low x rfl), fun low x' mem => ?_⟩
        cases mem
        exact String.lt_iff_toList_lt.mpr low
  · obtain ⟨second, -, -, -⟩ := validOrder_iff.mp (ends.second y there)
    rw [values_lt_values digits second]
    exact String.lt_iff_toList_lt

theorem laid_between {a b : Option String} (ends : Ends a b) :
    values (a.getD "").toList < laid a b ∧ ∀ y ∈ b, laid a b < values y.toList := by
  obtain ⟨digits, key, -⟩ := values_start ends.first
  rcases b with _ | y
  · exact ⟨lt_above _, fun y mem => nomatch mem⟩
  · obtain ⟨second, -, -, key'⟩ := validOrder_iff.mp (ends.second y rfl)
    have less := (values_lt_values digits second).mpr (start_lt ends rfl)
    refine ⟨lt_between key' less, fun y' mem => ?_⟩
    cases mem
    exact between_lt key' less

theorem exists_spelling {ds : List Nat} (key : Key 62 ds) : ∃ s : String, Spells s.toList ds := by
  suffices ∃ k, Spells k ds by
    obtain ⟨k, spelled⟩ := this
    exact ⟨String.ofList k, by rw [String.toList_ofList]; exact spelled⟩
  have below := key.digits
  clear key
  induction ds with
  | nil => exact ⟨[], spells_nil⟩
  | cons d rest ih =>
      obtain ⟨k, spelled⟩ := ih fun e mem => below e (List.mem_cons_of_mem _ mem)
      obtain ⟨c, mem, -, same⟩ := exists_digit (below d (List.mem_cons_self ..))
      exact ⟨c :: k, same ▸ spells_cons mem spelled⟩

/-- What is laid has at most 128 digits exactly if a valid key lies there. -/
theorem laid_fits_iff {a b : Option String} (ends : Ends a b) :
    (laid a b).length ≤ orderMax ↔ ∃ x, validOrder x = true ∧ Between a b x := by
  obtain ⟨digits, key, short⟩ := values_start ends.first
  have length (s : List Char) : (values s).length = s.length := List.length_map ..
  have room : (laid a b).length ≤ orderMax ↔
      ∃ x, Key 62 x ∧ x.length ≤ orderMax ∧ values (a.getD "").toList < x ∧ ∀ y ∈ b, x < values y.toList := by
    rcases b with _ | y
    · rw [laid, length_above_le_iff (by decide) key (by rw [length]; exact short)]
      exact exists_congr fun x => and_congr_right fun _ => and_congr_right fun _ =>
        ⟨fun low => ⟨low, fun y mem => nomatch mem⟩, fun low => low.1⟩
    · obtain ⟨second, -, short', key'⟩ := validOrder_iff.mp (ends.second y rfl)
      rw [laid, length_between_le_iff (by decide) key key' ((values_lt_values digits second).mpr (start_lt ends rfl))
        (by rw [length]; exact short) (by rw [length]; exact short')]
      refine exists_congr fun x => and_congr_right fun _ => and_congr_right fun _ => and_congr_right fun _ => ?_
      refine ⟨fun high y' mem => ?_, fun high => high y rfl⟩
      cases mem
      exact high
  rw [room]
  constructor
  · rintro ⟨x, key_x, short_x, low, high⟩
    obtain ⟨s, spelled⟩ := exists_spelling key_x
    have positive : s.toList ≠ [] := by
      intro none
      have := spelled.values
      rw [none] at this
      exact ne_nil_of_lt low this.symm
    refine ⟨s, validOrder_iff.mpr ⟨spelled.digits, positive, ?_, spelled.values ▸ key_x⟩, ?_⟩
    · rw [← length, spelled.values]
      exact short_x
    · rw [between_iff ends spelled.digits positive, spelled.values]
      exact ⟨low, high⟩
  · rintro ⟨s, valid, lies⟩
    obtain ⟨digits_s, positive, short_s, key_s⟩ := validOrder_iff.mp valid
    obtain ⟨low, high⟩ := (between_iff ends digits_s positive).mp lies
    exact ⟨values s.toList, key_s, by rw [length]; exact short_s, low, high⟩

/-- The string that spells what is laid is not empty, and a key. -/
theorem laid_string {a b : Option String} (ends : Ends a b) {k : String} (spelled : Spells k.toList (laid a b)) :
    k.toList ≠ [] ∧ Key 62 (values k.toList) := by
  obtain ⟨key, positive⟩ := laid_key ends
  refine ⟨fun none => ?_, spelled.values ▸ key⟩
  have := spelled.values
  rw [none] at this
  exact positive this.symm

theorem laid_lies {a b : Option String} (ends : Ends a b) {k : String} (spelled : Spells k.toList (laid a b)) :
    Between a b k := by
  rw [between_iff ends spelled.digits (laid_string ends spelled).1, spelled.values]
  exact laid_between ends

theorem laid_valid_iff {a b : Option String} (ends : Ends a b) {k : String} (spelled : Spells k.toList (laid a b)) :
    validOrder k = true ↔ (laid a b).length ≤ orderMax := by
  obtain ⟨positive, key⟩ := laid_string ends spelled
  rw [← spelled.values, values, List.length_map]
  exact ⟨fun valid => (validOrder_iff.mp valid).2.2.1, fun short => validOrder_iff.mpr ⟨spelled.digits, positive, short, key⟩⟩

/-- A key of digits that lies between the ends, does not end in zero and is accepted
    if any key there is; the clients' helper gives the same. -/
theorem orderBetween_lies_between {a b : Option String} (ends : Ends a b) :
    ∃ k, orderBetween a b = .ok k ∧ FractionalIndex.orderBetween a b = .ok k ∧ Between a b k ∧
      (∀ c ∈ k.toList, Text.isAsciiAlphanumeric c = true) ∧ k.toList.getLast? ≠ some '0' ∧
      (validOrder k = true ↔ ∃ x, validOrder x = true ∧ Between a b x) := by
  obtain ⟨k, rust, client, spelled⟩ := orderBetween_eq ends
  refine ⟨k, rust, client, laid_lies ends spelled, fun c mem => alphanumeric_of_mem c (spelled.digits c mem),
    (key_values spelled.digits).mp (laid_string ends spelled).2, ?_⟩
  rw [laid_valid_iff ends spelled]
  exact laid_fits_iff ends

/-- 128 times the last digit: every key after it is too long. -/
def topKey : String := String.ofList (List.replicate 128 'z')

theorem topKey_valid : validOrder topKey = true := by decide +kernel

theorem after_topKey : (orderBetween (some topKey) none).toOption.map validOrder = some false := by decide +kernel

theorem orderBetween_too_long :
    ¬∀ a b : Option String, (∀ x ∈ a, validOrder x = true) → (∀ y ∈ b, validOrder y = true) →
      (∀ x ∈ a, ∀ y ∈ b, x < y) →
      ∃ k, orderBetween a b = .ok k ∧ (∀ x ∈ a, x < k) ∧ (∀ y ∈ b, k < y) ∧ validOrder k = true ∧
        FractionalIndex.orderBetween a b = .ok k := by
  intro always
  obtain ⟨k, made, -, -, valid, -⟩ := always (some topKey) none (fun x mem => Option.some.inj mem ▸ topKey_valid)
    (fun y mem => nomatch mem) (fun x _ y mem => nomatch mem)
  have long := after_topKey
  rw [made] at long
  rw [show (Except.ok k : Except OrderError String).toOption.map validOrder = some (validOrder k) from rfl, valid] at long
  cases long

theorem orderBetween_lies_between_touching :
    ∃ k, orderBetween (some "a") (some "b") = .ok k ∧ FractionalIndex.orderBetween (some "a") (some "b") = .ok k ∧
      Between (some "a") (some "b") k ∧
      (∀ c ∈ k.toList, Text.isAsciiAlphanumeric c = true) ∧ k.toList.getLast? ≠ some '0' ∧
      (validOrder k = true ↔ ∃ x, validOrder x = true ∧ Between (some "a") (some "b") x) :=
  orderBetween_lies_between
    { first := by intro x mem; cases mem; decide
      second := by intro y mem; cases mem; decide
      less := by intro x mem y mem'; cases mem; cases mem'; decide }

end K2.Homes
