import K2.Lib.Checked
import K2.Vp8.RoundTrip

/-! # Reading bits, with every step checked

The boolean decoder once more, panicking where a build with overflow checks
does: a difference below zero, a shift as wide as its type, an index out of a
tree or its probabilities. From a decoder between two bits no step panics and
the unchecked decoder reads the same. -/

namespace K2.Vp8

open Checked

namespace BoolDecoder

/-- Between two bits. -/
structure Sound (d : BoolDecoder) : Prop where
  range_ge : 128 ≤ d.range
  range_le : d.range ≤ 255
  count_ge : -8 ≤ d.count
  count_le : d.count ≤ 0x40000000

def checkedFillLoop : Nat → BoolDecoder → Int → Option BoolDecoder
  | 0, d, _ => some d
  | rounds + 1, d, shift =>
      if shift ≥ 0 then
        match d.data[d.pos]? with
        | some b => do
            let _ ← fit 0 63 shift
            let count ← i32 (d.count + 8)
            let next ← i32 (shift - 8)
            checkedFillLoop rounds
              { d with
                value := d.value ||| (b.toNat <<< shift.toNat) % 2 ^ 64
                pos := d.pos + 1
                count }
              next
        | none => some { d with count := 0x40000000 }
      else some d

def checkedFill (d : BoolDecoder) : Option BoolDecoder := do
  let valid ← i32 (d.count + 8)
  let shift ← i32 (64 - 8 - valid)
  checkedFillLoop (shift / 8 + 1).toNat d shift

def checkedNormalise (d : BoolDecoder) : Option BoolDecoder := do
  let shift ← sub (leadingZeros d.range) 24
  let _ ← fit 0 31 shift
  let count ← i32 (d.count - shift)
  return { d with range := d.range <<< shift, value := (d.value <<< shift) % 2 ^ 64, count }

/-- The window holds at least its first byte before it is compared. -/
def refill (d : BoolDecoder) : Option BoolDecoder := if d.count < 0 then d.checkedFill else some d

def checkedRead (d : BoolDecoder) (prob : UInt8) : Option (Bool × BoolDecoder) := do
  let less ← sub d.range 1
  let scaled ← u32 (less * prob.toNat)
  let cut := 1 + scaled.toNat >>> 8
  let d ← d.refill
  let bigSplit := cut <<< 56
  if d.value ≥ bigSplit then
    let range ← sub d.range cut
    return (true, ← { d with range, value := d.value - bigSplit }.checkedNormalise)
  else
    return (false, ← { d with range := cut }.checkedNormalise)

theorem checkedFillLoop_eq {d : BoolDecoder} {rounds : Nat} {shift : Int} (agree : shift = 48 - d.count)
    (low : -8 ≤ d.count) (high : d.count ≤ 56) (enough : shift / 8 < rounds) :
    checkedFillLoop rounds d shift = some (fillLoop rounds d shift) ∧
      (fillLoop rounds d shift).range = d.range ∧
      0 ≤ (fillLoop rounds d shift).count ∧ (fillLoop rounds d shift).count ≤ 0x40000000 := by
  induction rounds generalizing d shift with
  | zero => exact ⟨rfl, rfl, by show 0 ≤ d.count; omega, by show d.count ≤ _; omega⟩
  | succ rounds ih =>
      rw [checkedFillLoop, fillLoop]
      by_cases more : shift ≥ 0
      · rw [if_pos more, if_pos more]
        rcases d.data[d.pos]? with _ | b
        · exact ⟨rfl, rfl, by show (0 : Int) ≤ 0x40000000; decide, by show (0x40000000 : Int) ≤ _; decide⟩
        · simp only [fit_eq more (show shift ≤ 63 by omega), i32_eq (v := d.count + 8) (by omega) (by omega),
            i32_eq (v := shift - 8) (by omega) (by omega), Option.bind_eq_bind, Option.bind_some]
          exact ih (by show shift - 8 = 48 - (d.count + 8); omega) (by show -8 ≤ d.count + 8; omega)
            (by show d.count + 8 ≤ 56; omega) (by omega)
      · rw [if_neg more, if_neg more]
        exact ⟨rfl, rfl, by omega, by omega⟩

theorem checkedFill_eq {d : BoolDecoder} (low : -8 ≤ d.count) (empty : d.count < 0) :
    d.checkedFill = some d.fill ∧ d.fill.range = d.range ∧ 0 ≤ d.fill.count ∧ d.fill.count ≤ 0x40000000 := by
  simp only [checkedFill, i32_eq (v := d.count + 8) (by omega) (by omega),
    i32_eq (v := 64 - 8 - (d.count + 8)) (by omega) (by omega), Option.bind_eq_bind, Option.bind_some]
  exact checkedFillLoop_eq (by omega) low (by omega) (by omega)

theorem sound_new (data : List UInt8) : (new data).Sound := by
  have start : (56 : Int) = 48 - -8 := by decide
  have rounds : (56 : Int) / 8 < (8 : Nat) := by decide
  obtain ⟨-, range, low, high⟩ := checkedFillLoop_eq
    (d := { data, pos := 0, value := 0, count := -8, range := 255 }) start (Int.le_refl (-8)) (by show (-8 : Int) ≤ 56; decide) rounds
  exact ⟨by rw [show (new data).range = 255 from range]; decide, by rw [show (new data).range = 255 from range],
    Int.le_trans (by decide) low, high⟩

theorem checkedNormalise_eq {d : BoolDecoder} (pos : 0 < d.range) (byte : d.range ≤ 255) (low : 0 ≤ d.count)
    (high : d.count ≤ 0x40000000) : d.checkedNormalise = some d.normalise ∧ d.normalise.Sound := by
  have wide : 24 ≤ leadingZeros d.range := by
    have : Nat.log 2 d.range < 8 := Nat.log_lt_of_lt_pow (by omega) (by omega)
    rw [leadingZeros, if_neg (by omega)]
    omega
  have few := BoolEncoder.At.doublings_lt d.range
  have shift := At.leadingZeros_sub pos byte
  have ready := ready_doubled pos byte
  simp only [checkedNormalise, sub_eq wide, fit_eq (v := (leadingZeros d.range - 24 : Nat))
    (show (0 : Int) ≤ _ by omega) (show _ ≤ (31 : Int) by omega), i32_eq (v := d.count - (leadingZeros d.range - 24 : Nat)) (by omega) (by omega),
    Option.bind_eq_bind, Option.bind_some]
  refine ⟨rfl, ?_, ?_, by show -8 ≤ d.count - _; omega, by show d.count - _ ≤ _; omega⟩
  · show 128 ≤ d.range <<< (leadingZeros d.range - 24)
    rw [shift, Nat.shiftLeft_eq]
    exact ready.1
  · show d.range <<< (leadingZeros d.range - 24) ≤ 255
    rw [shift, Nat.shiftLeft_eq]
    exact ready.2

theorem checkedRead_eq {d : BoolDecoder} (sound : d.Sound) (prob : UInt8) :
    d.checkedRead prob = some (d.read prob) ∧ (d.read prob).2.Sound := by
  obtain ⟨ge, le, low, high⟩ := sound
  have inside := split_lt (by omega : 2 ≤ d.range) prob
  have pos := split_pos d.range prob
  have prob_le := prob.toNat_lt
  have product : (d.range - 1) * prob.toNat ≤ 254 * 255 := Nat.mul_le_mul (by omega) (by omega)
  have cut : 1 + (((d.range - 1 : Nat) : Int) * prob.toNat).toNat >>> 8 = split d.range prob := by
    rw [split, ← Nat.cast_mul, Int.toNat_natCast]
  obtain ⟨f, full, filled, range, floor, ceil⟩ :
      ∃ f, d.refill = some f ∧ (if d.count < 0 then d.fill else d) = f ∧
        f.range = d.range ∧ 0 ≤ f.count ∧ f.count ≤ 0x40000000 := by
    by_cases empty : d.count < 0
    · obtain ⟨same, range, floor, ceil⟩ := checkedFill_eq low empty
      exact ⟨d.fill, by rw [refill, if_pos empty, same], if_pos empty, range, floor, ceil⟩
    · exact ⟨d, by rw [refill, if_neg empty], if_neg empty, rfl, by omega, high⟩
  simp only [checkedRead, sub_eq (show 1 ≤ d.range by omega), Option.bind_eq_bind, Option.bind_some,
    u32_eq (v := ((d.range - 1 : Nat) : Int) * prob.toNat) (by positivity) (by exact_mod_cast product.trans (by decide)), cut, full, read, filled]
  by_cases above : f.value ≥ split d.range prob <<< 56
  · rw [if_pos above, if_pos above, sub_eq (by omega)]
    obtain ⟨same, sound⟩ := checkedNormalise_eq
      (d := { f with range := f.range - split d.range prob, value := f.value - split d.range prob <<< 56 })
      (by show 0 < f.range - split d.range prob; omega) (by show f.range - split d.range prob ≤ 255; omega) floor ceil
    simp only [Option.bind_some, same]
    exact ⟨rfl, sound⟩
  · rw [if_neg above, if_neg above]
    obtain ⟨same, sound⟩ := checkedNormalise_eq (d := { f with range := split d.range prob }) pos
      (by show split d.range prob ≤ 255; omega) floor ceil
    simp only [Option.bind_some, same]
    exact ⟨rfl, sound⟩

end BoolDecoder

/-! ## Readers -/

abbrev BitReader (α : Type) := StateT BoolDecoder Option α

namespace BitReader

def read (prob : UInt8) : BitReader Bool := fun d => d.checkedRead prob

def readBit : BitReader Bool := read 128

/-! ## No reader panics -/

theorem runs_read (prob : UInt8) : Runs BoolDecoder.Sound (fun _ => True) (read prob) := by
  intro d sound
  obtain ⟨ran, sound'⟩ := BoolDecoder.checkedRead_eq sound prob
  refine ⟨(d.read prob).1, (d.read prob).2, ?_, trivial, sound'⟩
  rw [Prod.mk.eta]
  exact ran

theorem runs_readBit : Runs BoolDecoder.Sound (fun _ => True) readBit := runs_read 128

end BitReader

end K2.Vp8
