import K2.Lib.IntervalCoder
import Mathlib.Data.Nat.Log
import Mathlib.Algebra.Order.Ring.Rat

/-! # The boolean entropy encoder

The encoder keeps the low end of an interval: whole bytes in `out`, the rest in
the 32-bit `bottom`. A carry out of `bottom` is only found when its bit is
about to be shifted out, and is then added to the bytes already written. -/

namespace K2.Vp8

/-! ## Numbers written in bytes -/

/-- The number some bytes write, most significant byte first. -/
def number : List UInt8 → Nat
  | [] => 0
  | b :: rest => b.toNat * 256 ^ rest.length + number rest

@[simp] theorem number_nil : number [] = 0 := rfl

theorem number_append (a b : List UInt8) :
    number (a ++ b) = number a * 256 ^ b.length + number b := by
  induction a with
  | nil => simp
  | cons head rest ih =>
    simp only [List.cons_append, number, ih, List.length_append, pow_add]
    ring

theorem number_concat (a : List UInt8) (b : UInt8) : number (a ++ [b]) = number a * 256 + b.toNat := by
  rw [number_append]
  simp [number]

/-! ## The encoder -/

structure BoolEncoder where
  out : List UInt8
  range : Nat
  bottom : Nat
  bitCount : Nat
  deriving Repr, DecidableEq

/-- Where a range is cut for a bit whose probability of being 0 is
    `prob / 256`. -/
def split (range : Nat) (prob : UInt8) : Nat :=
  1 + ((range - 1) * prob.toNat) >>> 8

namespace BoolEncoder

def new : BoolEncoder := { out := [], range := 255, bottom := 0, bitCount := 24 }

/-- Add one to a number whose last byte comes first. -/
def addOneReversed : List UInt8 → List UInt8
  | [] => []
  | b :: rest => if b = 255 then 0 :: addOneReversed rest else (b + 1) :: rest

/-- Propagate a carry into the bytes already written. -/
def addOneToOutput (out : List UInt8) : List UInt8 := (addOneReversed out.reverse).reverse

/-- One round of the loop of `write`. -/
def shiftOnce (e : BoolEncoder) : BoolEncoder :=
  let out := if e.bottom.testBit 31 then addOneToOutput e.out else e.out
  let bottom := (e.bottom <<< 1) % 2 ^ 32
  let bitCount := e.bitCount - 1
  if bitCount = 0 then
    { range := e.range <<< 1
      out := out ++ [UInt8.ofNat (bottom >>> 24)]
      bottom := bottom % 2 ^ 24
      bitCount := 8 }
  else
    { range := e.range <<< 1, out, bottom, bitCount }

/-- The loop of `write`. A range of 1 to 127 reaches 128 in at most 7 rounds;
    `none` stands for a loop that does not end, which only range 0 gives. -/
def normalise : Nat → BoolEncoder → Option BoolEncoder
  | 0, _ => none
  | fuel + 1, e => if e.range < 128 then normalise fuel e.shiftOnce else some e

def write (e : BoolEncoder) (prob : UInt8) (bit : Bool) : Option BoolEncoder :=
  let cut := split e.range prob
  if bit then
    normalise 8 { e with bottom := (e.bottom + cut) % 2 ^ 32, range := e.range - cut }
  else
    normalise 8 { e with range := cut }

def writeBit (e : BoolEncoder) (bit : Bool) : Option BoolEncoder := e.write 128 bit

/-- The low `n` bits of `v`, most significant first. `none` is the overflow of
    `v >> i`. -/
def writeLiteral (e : BoolEncoder) (v : Nat) : Nat → Option BoolEncoder
  | 0 => some e
  | i + 1 =>
      if i < 32 then (e.write 128 ((v >>> i) &&& 1 == 1)).bind (·.writeLiteral v i) else none

/-- A flag, then a magnitude of `n` bits and a sign bit. -/
def writeOptionalSigned (e : BoolEncoder) (v : Int) (n : Nat) : Option BoolEncoder := do
  let e ← e.writeBit (v ≠ 0)
  if v ≠ 0 then
    let e ← e.writeLiteral v.natAbs n
    e.writeBit (v < 0)
  else
    some e

/-- One branch of `treePath`: a leaf, or a descent. -/
def treeBranch (tree : List Int) (value : UInt8) (descend : Nat → Option (Option (List (Nat × Bool))))
    (node : Nat) (bit : Bool) : Option (Option (List (Nat × Bool))) := do
  let next ← tree[node + bit.toNat]?
  if next ≤ 0 then
    some (if UInt8.ofNat (-next).toNat = value then some [(node, bit)] else none)
  else
    let path ← descend next.toNat
    some (path.map ((node, bit) :: ·))

/-- The path of branches from `node` to the leaf `value`, with `slots` entries
    left in the path. The outer `none` is a panic: an index out of the tree or
    past the last slot. -/
def treePath (tree : List Int) (value : UInt8) : Nat → Nat → Option (Option (List (Nat × Bool)))
  | 0, _ => none
  | slots + 1, node => do
      match ← treeBranch tree value (treePath tree value slots) node false with
      | some path => some (some path)
      | none => treeBranch tree value (treePath tree value slots) node true

def writePath (e : BoolEncoder) (probs : List UInt8) : List (Nat × Bool) → Option BoolEncoder
  | [] => some e
  | (node, bit) :: rest => do
      let prob ← probs[node >>> 1]?
      let e ← e.write prob bit
      e.writePath probs rest

/-- Leaves are stored as `-value`. `none` is a panic, which a value that is no
    leaf gives. -/
def writeTree (e : BoolEncoder) (tree : List Int) (probs : List UInt8) (value : UInt8) :
    Option BoolEncoder := do
  let path ← (← treePath tree value 16 0)
  e.writePath probs path

/-- `v <<= 8`, `n` times. -/
def shiftBytes : Nat → Nat → Nat
  | 0, v => v
  | n + 1, v => shiftBytes n ((v <<< 8) % 2 ^ 32)

/-- Push the top byte of `v` and shift it out, `n` times. -/
def pushBytes : Nat → List UInt8 → Nat → List UInt8
  | 0, out, _ => out
  | n + 1, out, v => pushBytes n (out ++ [UInt8.ofNat (v >>> 24)]) ((v <<< 8) % 2 ^ 32)

def finish (e : BoolEncoder) : List UInt8 :=
  let c := e.bitCount
  let out := if e.bottom.testBit (32 - c) then addOneToOutput e.out else e.out
  let v := (e.bottom <<< (c % 8)) % 2 ^ 32
  pushBytes 4 out (shiftBytes (c / 8) v)

end BoolEncoder

/-! ## The coder behind it -/

/-- By how many doublings a range of 1 to 255 reaches 128. -/
def doublings (range : Nat) : Nat := 7 - Nat.log 2 range

theorem doublings_of_large {range : Nat} (large : 128 ≤ range) : doublings range = 0 := by
  have : 7 ≤ Nat.log 2 range := Nat.le_log_of_pow_le (by decide) large
  unfold doublings
  omega

theorem doublings_of_small {range : Nat} (pos : 0 < range) (small : range < 128) :
    doublings range = doublings (range * 2) + 1 := by
  have : Nat.log 2 range < 7 := Nat.log_lt_of_lt_pow (by omega) small
  have : Nat.log 2 (range * 2) = Nat.log 2 range + 1 := Nat.log_mul_base (by decide) (by omega)
  unfold doublings
  omega

/-- Doubling brings every part of a byte-sized range back to 128..255. -/
theorem ready_doubled {range : Nat} (pos : 0 < range) (byte : range ≤ 255) :
    128 ≤ range * 2 ^ doublings range ∧ range * 2 ^ doublings range ≤ 255 := by
  have low : 2 ^ Nat.log 2 range ≤ range := Nat.pow_log_le_self 2 (by omega)
  have high : range < 2 ^ (Nat.log 2 range + 1) := Nat.lt_pow_succ_log_self (by decide) range
  have few : Nat.log 2 range < 8 := Nat.log_lt_of_lt_pow (by omega) (by omega)
  have low' := Nat.mul_le_mul_right (2 ^ doublings range) low
  have high' := Nat.mul_lt_mul_of_pos_right high (Nat.two_pow_pos (doublings range))
  rw [← pow_add] at low' high'
  rw [show Nat.log 2 range + doublings range = 7 by unfold doublings; omega] at low'
  rw [show Nat.log 2 range + 1 + doublings range = 8 by unfold doublings; omega] at high'
  omega

theorem split_pos (range : Nat) (prob : UInt8) : 0 < split range prob := by
  unfold split
  omega

theorem split_lt {range : Nat} (two : 2 ≤ range) (prob : UInt8) : split range prob < range := by
  have scaled : (range - 1) * prob.toNat < 2 ^ 8 * (range - 1) := by
    rw [Nat.mul_comm]
    exact Nat.mul_lt_mul_of_pos_right prob.toNat_lt (by omega)
  have : (range - 1) * prob.toNat / 2 ^ 8 < range - 1 := Nat.div_lt_of_lt_mul scaled
  rw [split, Nat.shiftRight_eq_div_pow]
  omega

/-- The coder both sides follow. Between two bits a range is 128..255. -/
def coder : IntervalCoder UInt8 where
  split := split
  doublings := doublings
  Ready r := 128 ≤ r ∧ r ≤ 255
  split_pos _ p := split_pos _ p
  split_lt ready p := split_lt (by omega) p
  ready_pos ready := by omega
  ready_split ready p := by
    have := split_lt (Nat.le_trans (by decide) ready.1) p
    exact ready_doubled (split_pos _ p) (by omega)
  ready_rest ready p := by
    have := split_lt (Nat.le_trans (by decide) ready.1) p
    exact ready_doubled (by omega) (by omega)

/-! ## What the encoder's numbers mean -/

namespace BoolEncoder

theorem length_addOneReversed (bytes : List UInt8) :
    (addOneReversed bytes).length = bytes.length := by
  induction bytes with
  | nil => rfl
  | cons b rest ih =>
    rw [addOneReversed]
    split
    · rw [List.length_cons, List.length_cons, ih]
    · rfl

@[simp] theorem length_addOneToOutput (out : List UInt8) :
    (addOneToOutput out).length = out.length := by
  rw [addOneToOutput, List.length_reverse, length_addOneReversed, List.length_reverse]

/-- A carry adds one, through any run of 255s, as long as there is a byte left
    to take it. -/
theorem number_addOneReversed (bytes : List UInt8)
    (room : number bytes.reverse + 1 < 256 ^ bytes.length) :
    number (addOneReversed bytes).reverse = number bytes.reverse + 1 := by
  induction bytes with
  | nil => exact absurd room (by decide)
  | cons b rest ih =>
    rw [List.reverse_cons, number_concat] at room ⊢
    rw [List.length_cons, pow_succ] at room
    rw [addOneReversed]
    split
    next full =>
      subst full
      have carried := ih (by simp only [UInt8.reduceToNat] at room; omega)
      rw [List.reverse_cons, number_concat, carried]
      simp only [UInt8.reduceToNat]
      omega
    next some =>
      have below : b.toNat ≠ 255 := fun same => some (UInt8.toNat_inj.mp same)
      have := b.toNat_lt
      rw [List.reverse_cons, number_concat, UInt8.toNat_add]
      simp only [UInt8.reduceToNat]
      omega

theorem number_addOneToOutput {out : List UInt8} (room : number out + 1 < 256 ^ out.length) :
    number (addOneToOutput out) = number out + 1 := by
  have counted := number_addOneReversed out.reverse (by simpa using room)
  rwa [List.reverse_reverse] at counted

/-- The encoder's low end is `low`, scaled by the `shifts` doublings so far.
    Until the first byte is out no carry can be waiting; after that at most one
    is, just above the bits of the byte to come. -/
structure At (e : BoolEncoder) (low shifts : Nat) : Prop where
  range_pos : 0 < e.range
  range_le : e.range ≤ 255
  count_pos : 0 < e.bitCount
  count_le : e.bitCount ≤ 24
  low_eq : number e.out * 2 ^ (32 - e.bitCount) + e.bottom = low
  shifts_eq : shifts + e.bitCount = 24 + 8 * e.out.length
  carry : e.bottom + e.range ≤ 2 ^ (33 - e.bitCount)
  inside : low + e.range ≤ 255 * 2 ^ shifts

namespace At

variable {e e' : BoolEncoder} {low shifts : Nat}

theorem new : At BoolEncoder.new 0 0 where
  range_pos := by decide
  range_le := by decide
  count_pos := by decide
  count_le := by decide
  low_eq := by decide
  shifts_eq := by decide
  carry := by decide
  inside := by decide

/-- The bytes written leave room for the carry that may be waiting. -/
theorem room (here : e.At low shifts) (waiting : 2 ^ (32 - e.bitCount) ≤ e.bottom) :
    number e.out + 1 < 256 ^ e.out.length := by
  have pos := here.count_pos
  have le := here.count_le
  have bound : low < 256 ^ e.out.length * 2 ^ (32 - e.bitCount) := by
    calc low < 255 * 2 ^ shifts := by have := here.inside; have := here.range_pos; omega
      _ ≤ 2 ^ 8 * 2 ^ shifts := Nat.mul_le_mul_right _ (by decide)
      _ = 2 ^ (8 * e.out.length) * 2 ^ (32 - e.bitCount) := by
        rw [← pow_add, ← pow_add]
        congr 1
        have := here.shifts_eq
        omega
      _ = 256 ^ e.out.length * 2 ^ (32 - e.bitCount) := by rw [pow_mul]; rfl
  have carried : (number e.out + 1) * 2 ^ (32 - e.bitCount) < 256 ^ e.out.length * 2 ^ (32 - e.bitCount) := by
    have counted := here.low_eq
    rw [Nat.add_mul, Nat.one_mul]
    omega
  exact Nat.lt_of_mul_lt_mul_right carried

theorem bottom_lt (here : e.At low shifts) : e.bottom < 2 ^ (33 - e.bitCount) := by
  have := here.carry
  have := here.range_pos
  omega

/-- Where the carry bit is looked at, adding it to the bytes written and
    dropping it from `bottom` leaves the number as it was. -/
theorem settle (here : e.At low shifts) :
    ∃ out, (if e.bottom.testBit (32 - e.bitCount) then addOneToOutput e.out else e.out) = out ∧
      out.length = e.out.length ∧
      number out * 2 ^ (32 - e.bitCount) + e.bottom % 2 ^ (32 - e.bitCount) = low := by
  have counted := here.low_eq
  rcases Nat.lt_or_ge e.bottom (2 ^ (32 - e.bitCount)) with none | waiting
  · have bit : e.bottom.testBit (32 - e.bitCount) = false := Nat.testBit_lt_two_pow none
    refine ⟨e.out, by simp [bit], rfl, ?_⟩
    rw [Nat.mod_eq_of_lt none, counted]
  · obtain ⟨rest, split⟩ := Nat.exists_eq_add_of_le waiting
    have small : rest < 2 ^ (32 - e.bitCount) := by
      have := here.bottom_lt
      rw [show 33 - e.bitCount = 32 - e.bitCount + 1 by have := here.count_le; omega, pow_succ] at this
      omega
    have bit : e.bottom.testBit (32 - e.bitCount) = true := by
      rw [split, Nat.testBit_two_pow_add_eq, Nat.testBit_lt_two_pow small]
      rfl
    refine ⟨addOneToOutput e.out, by simp [bit], length_addOneToOutput e.out, ?_⟩
    rw [number_addOneToOutput (here.room waiting), split, Nat.add_mod_left, Nat.mod_eq_of_lt small,
      ← counted, split]
    ring

theorem shiftOnce_within (here : e.At low shifts) (small : e.range < 128) (many : 1 < e.bitCount) :
    At e.shiftOnce (low * 2) (shifts + 1) ∧ e.shiftOnce.range = e.range * 2 := by
  have le := here.count_le
  have smallBottom : e.bottom < 2 ^ 31 :=
    Nat.lt_of_lt_of_le here.bottom_lt (Nat.pow_le_pow_right (by decide) (by omega))
  have noCarry : e.bottom.testBit 31 = false := Nat.testBit_lt_two_pow smallBottom
  have stepped : e.shiftOnce =
      { range := e.range * 2, out := e.out, bottom := e.bottom * 2, bitCount := e.bitCount - 1 } := by
    have fits : e.bottom * 2 % 2 ^ 32 = e.bottom * 2 := Nat.mod_eq_of_lt (by omega)
    simp only [shiftOnce, noCarry, Nat.shiftLeft_eq, pow_one, fits]
    rw [if_neg (by omega)]
    simp
  have unit : 2 ^ (32 - (e.bitCount - 1)) = 2 ^ (32 - e.bitCount) * 2 := by
    rw [← pow_succ]
    congr 1
    omega
  have top : 2 ^ (33 - (e.bitCount - 1)) = 2 ^ (33 - e.bitCount) * 2 := by
    rw [← pow_succ]
    congr 1
    omega
  rw [stepped]
  refine ⟨?_, rfl⟩
  exact {
    range_pos := by have := here.range_pos; show 0 < e.range * 2; omega
    range_le := by show e.range * 2 ≤ 255; omega
    count_pos := by show 0 < e.bitCount - 1; omega
    count_le := by show e.bitCount - 1 ≤ 24; omega
    low_eq := by
      show number e.out * 2 ^ (32 - (e.bitCount - 1)) + e.bottom * 2 = low * 2
      rw [unit, ← here.low_eq]
      ring
    shifts_eq := by
      have := here.shifts_eq
      show shifts + 1 + (e.bitCount - 1) = 24 + 8 * e.out.length
      omega
    carry := by
      have := here.carry
      show e.bottom * 2 + e.range * 2 ≤ 2 ^ (33 - (e.bitCount - 1))
      rw [top]
      omega
    inside := by
      have := here.inside
      show low * 2 + e.range * 2 ≤ 255 * 2 ^ (shifts + 1)
      rw [pow_succ]
      omega }

theorem top_byte_moves (n b : Nat) :
    (n * 256 + b * 2 / 2 ^ 24) * 2 ^ 24 + b * 2 % 2 ^ 24 = (n * 2 ^ 31 + b) * 2 := by
  omega

/-- The round that writes a byte, and settles the carry waiting above it. -/
theorem shiftOnce_byte (here : e.At low shifts) (small : e.range < 128) (last : e.bitCount = 1) :
    At e.shiftOnce (low * 2) (shifts + 1) ∧ e.shiftOnce.range = e.range * 2 := by
  obtain ⟨out, settled, length, counted⟩ := here.settle
  have bottomLt := here.bottom_lt
  have shifts_eq := here.shifts_eq
  simp only [last, Nat.reduceSub] at settled counted bottomLt shifts_eq
  obtain ⟨bottom, dropped⟩ : ∃ bottom, (e.bottom <<< 1) % 2 ^ 32 = bottom := ⟨_, rfl⟩
  have doubled : bottom = e.bottom % 2 ^ 31 * 2 := by
    rw [← dropped, Nat.shiftLeft_eq]
    omega
  have stepped : e.shiftOnce =
      { range := e.range * 2, out := out ++ [UInt8.ofNat (bottom >>> 24)], bottom := bottom % 2 ^ 24,
        bitCount := 8 } := by
    simp only [shiftOnce, settled, dropped, last, Nat.sub_self, if_true, Nat.shiftLeft_eq e.range, pow_one]
  have byte : (UInt8.ofNat (bottom >>> 24)).toNat = bottom / 2 ^ 24 := by
    rw [UInt8.toNat_ofNat', Nat.shiftRight_eq_div_pow]
    omega
  rw [stepped]
  refine ⟨?_, rfl⟩
  exact {
    range_pos := by have := here.range_pos; show 0 < e.range * 2; omega
    range_le := by show e.range * 2 ≤ 255; omega
    count_pos := Nat.succ_pos 7
    count_le := by show 8 ≤ 24; decide
    low_eq := by
      simp only [number_concat, byte, Nat.reduceSub]
      rw [doubled, top_byte_moves, counted]
    shifts_eq := by
      show shifts + 1 + 8 = 24 + 8 * (out ++ [UInt8.ofNat (bottom >>> 24)]).length
      rw [List.length_append, List.length_singleton, length]
      omega
    carry := by
      show bottom % 2 ^ 24 + e.range * 2 ≤ 2 ^ (33 - 8)
      omega
    inside := by
      have := here.inside
      show low * 2 + e.range * 2 ≤ 255 * 2 ^ (shifts + 1)
      rw [pow_succ]
      omega }

theorem shiftOnce (here : e.At low shifts) (small : e.range < 128) :
    At e.shiftOnce (low * 2) (shifts + 1) ∧ e.shiftOnce.range = e.range * 2 := by
  have pos := here.count_pos
  rcases Nat.lt_or_ge 1 e.bitCount with many | one
  · exact here.shiftOnce_within small many
  · exact here.shiftOnce_byte small (by omega)

theorem normalise (here : e.At low shifts) {fuel : Nat} (enough : doublings e.range < fuel) :
    ∃ e', e.normalise fuel = some e' ∧
      e'.At (low * 2 ^ doublings e.range) (shifts + doublings e.range) ∧
      e'.range = e.range * 2 ^ doublings e.range := by
  induction fuel generalizing e low shifts with
  | zero => omega
  | succ fuel ih =>
    rcases Nat.lt_or_ge e.range 128 with small | large
    · obtain ⟨stepped, range⟩ := here.shiftOnce small
      have fewer := doublings_of_small here.range_pos small
      rw [← range] at fewer
      obtain ⟨e', ran, there, size⟩ := ih stepped (by omega)
      refine ⟨e', by rw [BoolEncoder.normalise, if_pos small, ran], ?_, ?_⟩
      · rw [fewer, pow_succ, Nat.mul_comm (2 ^ _), ← Nat.mul_assoc, Nat.add_comm (doublings _), ← Nat.add_assoc]
        exact there
      · rw [size, range, ← range, fewer, pow_succ, range]
        ring
    · rw [doublings_of_large large]
      refine ⟨e, by rw [BoolEncoder.normalise, if_neg (by omega)], ?_, ?_⟩
      · simpa using here
      · simp

theorem doublings_lt (range : Nat) : doublings range < 8 := by
  unfold doublings
  omega

/-- A bit written moves the low end as the coder says, in the units of the
    range before it. -/
theorem write (here : e.At low shifts) (ready : coder.Ready e.range) (prob : UInt8) (bit : Bool) :
    ∃ e', e.write prob bit = some e' ∧
      e'.At ((low + coder.offset e.range prob bit) * 2 ^ doublings (coder.part e.range prob bit))
        (shifts + doublings (coder.part e.range prob bit)) ∧
      e'.range = coder.next e.range prob bit := by
  have inside := coder.split_lt ready prob
  have pos := coder.split_pos ready prob
  have carry := here.carry
  have whole := here.inside
  have range_le := here.range_le
  have top : 2 ^ (33 - e.bitCount) ≤ 2 ^ 32 :=
    Nat.pow_le_pow_right (by decide) (by have := here.count_pos; omega)
  change split e.range prob < e.range at inside
  change 0 < split e.range prob at pos
  cases bit with
  | false =>
    have kept : At { e with range := split e.range prob } low shifts := {
      here with
      range_pos := pos
      range_le := by show split e.range prob ≤ 255; omega
      carry := by show e.bottom + split e.range prob ≤ 2 ^ (33 - e.bitCount); omega
      inside := by show low + split e.range prob ≤ 255 * 2 ^ shifts; omega }
    exact kept.normalise (doublings_lt _)
  | true =>
    have fits : (e.bottom + split e.range prob) % 2 ^ 32 = e.bottom + split e.range prob :=
      Nat.mod_eq_of_lt (by omega)
    have kept : At { e with bottom := e.bottom + split e.range prob, range := e.range - split e.range prob }
        (low + split e.range prob) shifts := {
      here with
      range_pos := by show 0 < e.range - split e.range prob; omega
      range_le := by show e.range - split e.range prob ≤ 255; omega
      low_eq := by
        have := here.low_eq
        show number e.out * 2 ^ (32 - e.bitCount) + (e.bottom + split e.range prob) = low + split e.range prob
        omega
      carry := by
        show e.bottom + split e.range prob + (e.range - split e.range prob) ≤ 2 ^ (33 - e.bitCount)
        omega
      inside := by
        show low + split e.range prob + (e.range - split e.range prob) ≤ 255 * 2 ^ shifts
        omega }
    have ran := kept.normalise (doublings_lt _)
    simp only [BoolEncoder.write, fits, if_true]
    exact ran

end At

/-! ## The flush -/

theorem shiftBytes_eq (n v : Nat) : shiftBytes n (v % 2 ^ 32) = v * 256 ^ n % 2 ^ 32 := by
  induction n generalizing v with
  | zero => rw [shiftBytes, pow_zero, Nat.mul_one]
  | succ n ih =>
    rw [shiftBytes, Nat.shiftLeft_eq, Nat.mod_mul_mod, ih, pow_succ']
    congr 1
    ring

theorem number_pushBytes (out : List UInt8) {v : Nat} (word : v < 2 ^ 32) :
    number (pushBytes 4 out v) = number out * 2 ^ 32 + v ∧ (pushBytes 4 out v).length = out.length + 4 := by
  constructor
  · simp only [pushBytes, number_concat, UInt8.toNat_ofNat', Nat.shiftRight_eq_div_pow, Nat.shiftLeft_eq]
    omega
  · simp only [pushBytes, List.length_append, List.length_singleton]

theorem At.finish {e : BoolEncoder} {low shifts : Nat} (here : e.At low shifts) :
    number e.finish = low * 2 ^ e.bitCount ∧ 8 * e.finish.length = shifts + e.bitCount + 8 := by
  obtain ⟨out, settled, length, counted⟩ := here.settle
  have shifted : shiftBytes (e.bitCount / 8) ((e.bottom <<< (e.bitCount % 8)) % 2 ^ 32)
      = e.bottom % 2 ^ (32 - e.bitCount) * 2 ^ e.bitCount := by
    have whole : 2 ^ 32 = 2 ^ (32 - e.bitCount) * 2 ^ e.bitCount := by
      rw [← pow_add]
      congr 1
      have := here.count_le
      omega
    have bits : 2 ^ (e.bitCount % 8) * 256 ^ (e.bitCount / 8) = 2 ^ e.bitCount := by
      rw [show 256 = 2 ^ 8 by rfl, ← pow_mul, ← pow_add]
      congr 1
      omega
    rw [shiftBytes_eq, Nat.shiftLeft_eq, Nat.mul_assoc, bits, whole, Nat.mul_mod_mul_right]
  have word : e.bottom % 2 ^ (32 - e.bitCount) * 2 ^ e.bitCount < 2 ^ 32 := by
    rw [← shifted, shiftBytes_eq]
    exact Nat.mod_lt _ (by decide)
  obtain ⟨written, size⟩ := number_pushBytes out word
  have finished : e.finish = pushBytes 4 out (e.bottom % 2 ^ (32 - e.bitCount) * 2 ^ e.bitCount) := by
    simp only [BoolEncoder.finish, settled, shifted]
  rw [finished]
  refine ⟨?_, ?_⟩
  · rw [written, ← counted, Nat.add_mul, Nat.mul_assoc, ← pow_add,
      Nat.sub_add_cancel (Nat.le_trans here.count_le (by decide))]
  · have := here.shifts_eq
    rw [size, length]
    omega

/-! ## Whole messages -/

/-- Write the bits of a message in order. -/
def writes (e : BoolEncoder) : List (UInt8 × Bool) → Option BoolEncoder
  | [] => some e
  | (prob, bit) :: rest => (e.write prob bit).bind (·.writes rest)

theorem writes_append (e : BoolEncoder) (a b : List (UInt8 × Bool)) :
    e.writes (a ++ b) = (e.writes a).bind (·.writes b) := by
  induction a generalizing e with
  | nil => rfl
  | cons head rest ih =>
    rw [List.cons_append, writes, writes, Option.bind_assoc]
    congr 1
    funext next
    exact ih next

/-- Writing a message never fails, and adds its low end to the encoder's. -/
theorem At.writes {e : BoolEncoder} {low shifts : Nat} (here : e.At low shifts)
    (ready : coder.Ready e.range) (message : List (UInt8 × Bool)) :
    ∃ e' low' shifts', e.writes message = some e' ∧ e'.At low' shifts' ∧ coder.Ready e'.range ∧
      (low' / 2 ^ shifts' : ℚ) = low / 2 ^ shifts + coder.low e.range message / 2 ^ shifts ∧
      shifts' = shifts + coder.scale e.range message ∧ e'.range = coder.final e.range message := by
  induction message generalizing e low shifts with
  | nil => exact ⟨e, low, shifts, rfl, here, ready, by simp [IntervalCoder.low], rfl, rfl⟩
  | cons head rest ih =>
    obtain ⟨prob, bit⟩ := head
    obtain ⟨mid, written, there, range⟩ := here.write ready prob bit
    obtain ⟨e', low', shifts', ran, last, ready', value, scaled, size⟩ :=
      ih there (by rw [range]; exact coder.ready_next ready prob bit)
    refine ⟨e', low', shifts', by rw [BoolEncoder.writes, written, Option.bind_some, ran], last, ready', ?_, ?_, ?_⟩
    · simp only [range] at value
      rw [value, IntervalCoder.low]
      change _ = _ + (_ + _ / 2 ^ doublings _) / _
      push_cast
      rw [pow_add]
      field_simp
      ring
    · rw [scaled, range, IntervalCoder.scale, Nat.add_assoc]
      rfl
    · rw [size, range, IntervalCoder.final]

end BoolEncoder

end K2.Vp8
