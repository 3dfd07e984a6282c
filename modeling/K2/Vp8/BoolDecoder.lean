import K2.Vp8.BoolEncoder
import Mathlib.Data.Int.Order.Basic
import Mathlib.Algebra.Order.Field.Power

/-! # The boolean entropy decoder

The decoder keeps a 64-bit window of its input, left-aligned, and refills it a
byte at a time. Past the end of the input it reads zeros. -/

namespace K2.Vp8

structure BoolDecoder where
  data : List UInt8
  pos : Nat
  /-- The window. Its top 8 bits are compared with the split. -/
  value : Nat
  /-- Valid bits in `value` below the top 8. -/
  count : Int
  range : Nat
  deriving Repr, DecidableEq

/-- `u32::leading_zeros`. -/
def leadingZeros (x : Nat) : Nat := if x = 0 then 32 else 31 - Nat.log 2 x

namespace BoolDecoder

/-- The loop of `fill`. Every round lowers `shift` by 8, so `shift / 8 + 1`
    rounds always suffice. -/
def fillLoop : Nat → BoolDecoder → Int → BoolDecoder
  | 0, d, _ => d
  | rounds + 1, d, shift =>
      if shift ≥ 0 then
        match d.data[d.pos]? with
        | some b =>
            fillLoop rounds
              { d with
                value := d.value ||| (b.toNat <<< shift.toNat) % 2 ^ 64
                pos := d.pos + 1
                count := d.count + 8 }
              (shift - 8)
        | none => { d with count := 0x40000000 }
      else d

def fill (d : BoolDecoder) : BoolDecoder :=
  let shift := 64 - 8 - (d.count + 8)
  fillLoop (shift / 8 + 1).toNat d shift

def new (data : List UInt8) : BoolDecoder :=
  fill { data, pos := 0, value := 0, count := -8, range := 255 }

/-- Bring the range back to 128..255, and the window with it. -/
def normalise (d : BoolDecoder) : BoolDecoder :=
  let shift := leadingZeros d.range - 24
  { d with
    range := d.range <<< shift
    value := (d.value <<< shift) % 2 ^ 64
    count := d.count - shift }

/-- One bool whose probability of being 0 is `prob / 256`. -/
def read (d : BoolDecoder) (prob : UInt8) : Bool × BoolDecoder :=
  let cut := split d.range prob
  let d := if d.count < 0 then d.fill else d
  let bigSplit := cut <<< 56
  if d.value ≥ bigSplit then
    (true, { d with range := d.range - cut, value := d.value - bigSplit }.normalise)
  else
    (false, { d with range := cut }.normalise)

def readBit (d : BoolDecoder) : Bool × BoolDecoder := d.read 128

/-- The loop of `read_literal`. -/
def readLiteralOnto (v : Nat) : Nat → BoolDecoder → Nat × BoolDecoder
  | 0, d => (v, d)
  | n + 1, d =>
      let (bit, d) := d.readBit
      readLiteralOnto ((v <<< 1) % 2 ^ 32 ||| bit.toNat) n d

/-- An unsigned `n`-bit literal, most significant bit first. -/
def readLiteral (d : BoolDecoder) (n : Nat) : Nat × BoolDecoder := readLiteralOnto 0 n d

/-- `as i32`, and what an `i32` operation keeps of its result. -/
def asI32 (v : Int) : Int := v.bmod (2 ^ 32)

/-- A flag, then (if set) an `n`-bit magnitude and a sign bit; 0 if unset. -/
def readOptionalSigned (d : BoolDecoder) (n : Nat) : Int × BoolDecoder :=
  let (flag, d) := d.readBit
  if !flag then (0, d)
  else
    let (magnitude, d) := d.readLiteral n
    let v := asI32 magnitude
    let (sign, d) := d.readBit
    (if sign then asI32 (-v) else v, d)

/-- `none` is an index out of the tree or its probabilities, or a descent that
    `fuel` steps do not end. -/
def readTreeFrom (tree : List Int) (probs : List UInt8) : Nat → BoolDecoder → Nat → Option (UInt8 × BoolDecoder)
  | 0, _, _ => none
  | fuel + 1, d, i => do
      let prob ← probs[i >>> 1]?
      let (bit, d) := d.read prob
      let n ← tree[i + bit.toNat]?
      if n ≤ 0 then some (UInt8.ofNat (-n).toNat, d)
      else readTreeFrom tree probs fuel d n.toNat

def readTree (fuel : Nat) (d : BoolDecoder) (tree : List Int) (probs : List UInt8) :
    Option (UInt8 × BoolDecoder) :=
  readTreeFrom tree probs fuel d 0

/-! ## What the window means -/

/-- The number some bytes write with the point after the first byte. -/
def fraction : List UInt8 → ℚ
  | [] => 0
  | b :: rest => b.toNat + fraction rest / 256

theorem fraction_nonneg (bytes : List UInt8) : 0 ≤ fraction bytes := by
  induction bytes with
  | nil => exact le_rfl
  | cons b rest ih =>
    rw [fraction]
    positivity

theorem fraction_lt (bytes : List UInt8) : fraction bytes < 256 := by
  induction bytes with
  | nil => norm_num [fraction]
  | cons b rest ih =>
    have byte : (b.toNat : ℚ) ≤ 255 := by exact_mod_cast Nat.le_of_lt_succ b.toNat_lt
    rw [fraction]
    linarith

/-- The unread bytes. -/
def rest (d : BoolDecoder) : List UInt8 := d.data.drop d.pos

/-- The window and the unread bytes together are the number `w`. While bytes
    are left, the window holds nothing below its valid bits. -/
structure At (d : BoolDecoder) (w : ℚ) : Prop where
  value_eq : d.value / 2 ^ 56 + fraction d.rest * 2 ^ (-8 - d.count) = w
  count_ge : -8 ≤ d.count
  aligned : d.rest ≠ [] → d.count ≤ 56 ∧ 2 ^ (56 - d.count).toNat ∣ d.value

namespace At

variable {d : BoolDecoder} {w : ℚ}

theorem take (here : d.At w) {b : UInt8} (byte : d.data[d.pos]? = some b) (room : d.count ≤ 48) :
    At { d with
      value := d.value ||| (b.toNat <<< (48 - d.count).toNat) % 2 ^ 64
      pos := d.pos + 1
      count := d.count + 8 } w := by
  obtain ⟨n, shift⟩ := Int.eq_ofNat_of_zero_le (show 0 ≤ 48 - d.count by omega)
  have count : d.count = 48 - n := by omega
  have low := here.count_ge
  have split : d.rest = b :: d.data.drop (d.pos + 1) := by
    obtain ⟨bound, same⟩ := List.getElem?_eq_some_iff.mp byte
    rw [rest, ← same]
    exact List.drop_eq_getElem_cons bound
  obtain ⟨-, q, multiple⟩ := here.aligned (by rw [split]; exact List.cons_ne_nil _ _)
  rw [show (56 - d.count).toNat = n + 8 by omega] at multiple
  have small : b.toNat * 2 ^ n < 2 ^ (n + 8) := by
    rw [pow_add, Nat.mul_comm]
    exact Nat.mul_lt_mul_of_pos_left b.toNat_lt (Nat.two_pow_pos n)
  have word : 2 ^ (n + 8) ≤ 2 ^ 64 := Nat.pow_le_pow_right (by decide) (by omega)
  have joined : d.value ||| (b.toNat <<< (48 - d.count).toNat) % 2 ^ 64 = d.value + b.toNat * 2 ^ n := by
    rw [shift, Int.toNat_natCast, Nat.shiftLeft_eq, Nat.mod_eq_of_lt (by omega), multiple,
      Nat.two_pow_add_eq_or_of_lt small]
  rw [joined]
  refine ⟨?_, by show -8 ≤ d.count + 8; omega, ?_⟩
  · have value := here.value_eq
    rw [split, fraction, count, show (-8 - (48 - n) : Int) = n - 56 by omega, zpow_sub₀ two_ne_zero,
      zpow_natCast] at value
    show ((d.value + b.toNat * 2 ^ n : Nat) : ℚ) / 2 ^ 56
      + fraction (d.data.drop (d.pos + 1)) * 2 ^ (-8 - (d.count + 8)) = w
    rw [count, show (-8 - (48 - n + 8) : Int) = n - 64 by omega, zpow_sub₀ two_ne_zero, zpow_natCast, ← value]
    push_cast
    norm_num
    ring
  · intro
    refine ⟨by show d.count + 8 ≤ 56; omega, ?_⟩
    show 2 ^ (56 - (d.count + 8)).toNat ∣ d.value + b.toNat * 2 ^ n
    rw [show (56 - (d.count + 8)).toNat = n by omega]
    refine Nat.dvd_add ?_ (Nat.dvd_mul_left _ _)
    rw [multiple, pow_add, Nat.mul_assoc]
    exact Nat.dvd_mul_right _ _

theorem exhaust (here : d.At w) (past : d.data[d.pos]? = none) :
    At { d with count := 0x40000000 } w := by
  have empty : d.rest = [] := List.drop_eq_nil_of_le (List.getElem?_eq_none_iff.mp past)
  refine ⟨?_, by show (-8 : Int) ≤ 0x40000000; decide, fun some => absurd empty some⟩
  have value := here.value_eq
  rw [empty, fraction, zero_mul] at value
  show (d.value : ℚ) / 2 ^ 56 + fraction d.rest * 2 ^ (-8 - 0x40000000 : Int) = w
  rw [empty, fraction, zero_mul, value]

theorem fillLoop (here : d.At w) {rounds : Nat} {shift : Int} (agree : shift = 48 - d.count)
    (enough : shift / 8 < rounds) :
    (BoolDecoder.fillLoop rounds d shift).At w ∧ 0 ≤ (BoolDecoder.fillLoop rounds d shift).count ∧
      (BoolDecoder.fillLoop rounds d shift).range = d.range := by
  induction rounds generalizing d shift with
  | zero => exact ⟨here, by show 0 ≤ d.count; omega, rfl⟩
  | succ rounds ih =>
    rw [BoolDecoder.fillLoop]
    by_cases more : shift ≥ 0
    · rw [if_pos more]
      split
      next b byte =>
        rw [agree]
        exact ih (here.take byte (by omega)) (by show 48 - d.count - 8 = 48 - (d.count + 8); omega) (by omega)
      next past => exact ⟨here.exhaust past, by show (0 : Int) ≤ 0x40000000; decide, rfl⟩
    · rw [if_neg more]
      exact ⟨here, by omega, rfl⟩

theorem fill (here : d.At w) : d.fill.At w ∧ 0 ≤ d.fill.count ∧ d.fill.range = d.range :=
  here.fillLoop (by omega) (by have := here.count_ge; omega)

theorem new (data : List UInt8) :
    (BoolDecoder.new data).At (fraction data) ∧ (BoolDecoder.new data).range = 255 := by
  have start : At { data, pos := 0, value := 0, count := -8, range := 255 } (fraction data) := by
    refine ⟨?_, Int.le_refl _, fun _ => ⟨by show (-8 : Int) ≤ 56; decide, Nat.dvd_zero _⟩⟩
    simp [rest]
  exact ⟨start.fill.1, start.fill.2.2⟩

/-- What is unread is worth less than the last valid bit of the window. -/
theorem lt_of_aligned (here : d.At w) {m : Nat} (bits : d.count = 56 - m) :
    w < (d.value + 2 ^ m : Nat) / 2 ^ 56 := by
  have value := here.value_eq
  have below := fraction_lt d.rest
  rw [bits, show (-8 - (56 - m) : Int) = m - 64 by omega, zpow_sub₀ two_ne_zero, zpow_natCast] at value
  have unread : fraction d.rest * (2 ^ m / 2 ^ 64) < 256 * (2 ^ m / 2 ^ 64) :=
    mul_lt_mul_of_pos_right below (by positivity)
  have last : (256 * (2 ^ m / 2 ^ 64) : ℚ) = 2 ^ m / 2 ^ 56 := by ring
  have unread' : fraction d.rest * (2 ^ m / 2 ^ (64 : ℤ)) < 2 ^ m / 2 ^ 56 := by
    rw [← last]
    exact unread
  rw [← value]
  push_cast
  rw [add_div]
  linarith

/-- With the window filled, it lies past a cut exactly when the number does. -/
theorem cut_le_iff (here : d.At w) (filled : 0 ≤ d.count) (cut : Nat) :
    d.value ≥ cut <<< 56 ↔ (cut : ℚ) ≤ w := by
  have value := here.value_eq
  rw [ge_iff_le, Nat.shiftLeft_eq]
  constructor
  · intro above
    have tail : 0 ≤ fraction d.rest * 2 ^ (-8 - d.count) :=
      mul_nonneg (fraction_nonneg _) (by positivity)
    have : (cut : ℚ) * 2 ^ 56 ≤ d.value := by exact_mod_cast above
    have : (cut : ℚ) ≤ d.value / 2 ^ 56 := (le_div_iff₀ (by positivity)).mpr this
    linarith
  · intro above
    by_contra under
    rw [Nat.not_le] at under
    by_cases empty : d.rest = []
    · rw [empty, fraction, zero_mul, add_zero] at value
      rw [← value, le_div_iff₀ (by positivity)] at above
      exact absurd (by exact_mod_cast above) (Nat.not_le.mpr under)
    · -- the window misses the cut by at least its last valid bit
      obtain ⟨most, q, multiple⟩ := here.aligned empty
      obtain ⟨m, bits⟩ := Int.eq_ofNat_of_zero_le (show 0 ≤ 56 - d.count by omega)
      rw [bits, Int.toNat_natCast] at multiple
      have whole : cut * 2 ^ 56 = 2 ^ m * (cut * 2 ^ (56 - m)) := by
        rw [Nat.mul_left_comm, ← pow_add, Nat.add_sub_cancel' (by omega)]
      have missed : d.value + 2 ^ m ≤ cut * 2 ^ 56 := by
        rw [multiple, whole] at under
        rw [multiple, whole, ← Nat.mul_succ]
        exact Nat.mul_le_mul_left _ (Nat.lt_of_mul_lt_mul_left under)
      have short := here.lt_of_aligned (m := m) (by omega)
      have missed' : ((d.value + 2 ^ m : Nat) : ℚ) / 2 ^ 56 ≤ cut := by
        rw [div_le_iff₀ (by positivity)]
        exact_mod_cast missed
      linarith

theorem minus (here : d.At w) (filled : 0 ≤ d.count) {cut v : Nat} (taken : v + cut * 2 ^ 56 = d.value)
    (range : Nat) : At { d with range, value := v } (w - cut) := by
  refine ⟨?_, here.count_ge, fun some => ?_⟩
  · have value := here.value_eq
    show (v : ℚ) / 2 ^ 56 + fraction d.rest * 2 ^ (-8 - d.count) = w - cut
    rw [← value, ← taken]
    push_cast
    ring
  · obtain ⟨most, multiple⟩ := here.aligned some
    refine ⟨most, ?_⟩
    have cuts : 2 ^ (56 - d.count).toNat ∣ cut * 2 ^ 56 :=
      Nat.dvd_mul_left_of_dvd (Nat.pow_dvd_pow 2 (by omega)) cut
    exact (Nat.dvd_add_left cuts).mp (taken ▸ multiple)

/-- Nothing falls off the top of the window when the doubled number is small. -/
theorem shifted_fits (here : d.At w) {n : Nat} (room : w * 2 ^ n < 256) :
    (d.value <<< n) % 2 ^ 64 = d.value * 2 ^ n := by
  have value := here.value_eq
  have tail : 0 ≤ fraction d.rest * 2 ^ (-8 - d.count) :=
    mul_nonneg (fraction_nonneg _) (by positivity)
  rw [Nat.shiftLeft_eq]
  refine Nat.mod_eq_of_lt ?_
  have head : (d.value : ℚ) / 2 ^ 56 ≤ w := by linarith
  rw [div_le_iff₀ (by positivity)] at head
  have head' : (d.value : ℚ) * 2 ^ n ≤ w * 2 ^ 56 * 2 ^ n := mul_le_mul_of_nonneg_right head (by positivity)
  have : (d.value * 2 ^ n : ℚ) < 2 ^ 64 := by linarith
  exact_mod_cast this

theorem shift (here : d.At w) (filled : 0 ≤ d.count) {n v : Nat} (few : n < 8) (moved : v = d.value * 2 ^ n)
    (range : Nat) : At { d with range, value := v, count := d.count - n } (w * 2 ^ n) := by
  refine ⟨?_, by show -8 ≤ d.count - n; omega, fun some => ?_⟩
  · have value := here.value_eq
    show (v : ℚ) / 2 ^ 56 + fraction d.rest * 2 ^ (-8 - (d.count - n)) = w * 2 ^ n
    rw [moved, show -8 - (d.count - n) = -8 - d.count + n by omega, zpow_add₀ two_ne_zero, zpow_natCast, ← value]
    push_cast
    ring
  · obtain ⟨most, q, multiple⟩ := here.aligned some
    refine ⟨by show d.count - n ≤ 56; omega, ?_⟩
    show 2 ^ (56 - (d.count - n)).toNat ∣ v
    rw [moved, multiple, show (56 - (d.count - n)).toNat = (56 - d.count).toNat + n by omega, pow_add]
    exact ⟨q, by ring⟩

theorem leadingZeros_sub {range : Nat} (pos : 0 < range) (byte : range ≤ 255) :
    leadingZeros range - 24 = doublings range := by
  have : Nat.log 2 range < 8 := Nat.log_lt_of_lt_pow (by omega) (by omega)
  rw [leadingZeros, if_neg (by omega), doublings]
  omega

theorem normalise (here : d.At w) (filled : 0 ≤ d.count) (pos : 0 < d.range) (byte : d.range ≤ 255)
    (below : w < d.range) :
    d.normalise.At (w * 2 ^ doublings d.range) ∧ d.normalise.range = d.range * 2 ^ doublings d.range := by
  unfold BoolDecoder.normalise
  rw [leadingZeros_sub pos byte]
  refine ⟨here.shift filled ?_ (here.shifted_fits ?_) _, Nat.shiftLeft_eq _ _⟩
  · unfold doublings
    omega
  · have size : (d.range * 2 ^ doublings d.range : ℚ) ≤ 255 := by exact_mod_cast (ready_doubled pos byte).2
    have : w * 2 ^ doublings d.range < d.range * 2 ^ doublings d.range :=
      mul_lt_mul_of_pos_right below (by positivity)
    linarith

/-- One bit read: the side of the cut the number lies on, and the rest of the
    number doubled back to size. -/
theorem read (here : d.At w) (ready : coder.Ready d.range) (below : w < d.range) (prob : UInt8) :
    ∃ bit d', d.read prob = (bit, d') ∧ (bit = true ↔ (split d.range prob : ℚ) ≤ w) ∧
      d'.range = coder.next d.range prob bit ∧
      d'.At ((w - coder.offset d.range prob bit) * 2 ^ doublings (coder.part d.range prob bit)) := by
  have inside : split d.range prob < d.range := coder.split_lt ready prob
  have pos : 0 < split d.range prob := coder.split_pos ready prob
  have byte : d.range ≤ 255 := ready.2
  obtain ⟨f, full, there, filled, range⟩ :
      ∃ f, (if d.count < 0 then d.fill else d) = f ∧ f.At w ∧ 0 ≤ f.count ∧ f.range = d.range := by
    refine ⟨_, rfl, ?_⟩
    split
    · exact here.fill
    next some => exact ⟨here, by omega, rfl⟩
  have side := there.cut_le_iff filled (split d.range prob)
  simp only [BoolDecoder.read, full]
  by_cases above : f.value ≥ split d.range prob <<< 56
  · rw [if_pos above]
    have taken : f.value - split d.range prob <<< 56 + split d.range prob * 2 ^ 56 = f.value := by
      rw [Nat.shiftLeft_eq] at above ⊢
      exact Nat.sub_add_cancel above
    have kept := there.minus filled taken (f.range - split d.range prob)
    obtain ⟨last, size⟩ := kept.normalise filled
      (by show 0 < f.range - split d.range prob; omega)
      (by show f.range - split d.range prob ≤ 255; omega)
      (by
        show w - split d.range prob < ((f.range - split d.range prob : Nat) : ℚ)
        rw [range, Nat.cast_sub (Nat.le_of_lt inside)]
        linarith)
    rw [range] at last size ⊢
    exact ⟨true, _, rfl, iff_of_true rfl (side.mp above), size, last⟩
  · rw [if_neg above]
    have under : w < split d.range prob := not_le.mp fun past => above (side.mpr past)
    have kept : At { f with range := split d.range prob } w := ⟨there.value_eq, there.count_ge, there.aligned⟩
    obtain ⟨last, size⟩ := kept.normalise filled pos
      (by show split d.range prob ≤ 255; omega) under
    refine ⟨false, _, rfl, iff_of_false (by simp) (by linarith), size, ?_⟩
    show At _ ((w - (0 : Nat)) * 2 ^ doublings (split d.range prob))
    rw [Nat.cast_zero, sub_zero]
    exact last

end At

end BoolDecoder

end K2.Vp8
