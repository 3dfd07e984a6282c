import K2.Vp8.Idct
import K2.Vp8.Tables
import Mathlib.Algebra.Order.Ring.Abs
import Mathlib.Data.List.GetD

/-! # The forward transforms and quantization

The encoder's side of the transforms: a cosine transform in two passes, rows first and
with 3 fractional bits between them, and a Walsh-Hadamard transform of the luma DCs. -/

namespace K2.Vp8

def at16 (l : List Int) (i : Nat) : Int := l.getD i 0

/-! ## Transforms -/

/-- `sqrt(2) * cos(pi / 8)` and `sqrt(2) * sin(pi / 8)`, scaled by `2^12`. -/
def C : Int := 5352
def S : Int := 2217

/-- To the nearest, and away from zero at a half. -/
def roundShift (v : Int) (shift : Nat) : Int :=
  let half := (1 : Int) <<< (shift - 1)
  if 0 ≤ v then (v + half) >>> shift else -((-v + half) >>> shift)

def fdctRow (x0 x1 x2 x3 : Int) : List Int :=
  let a0 := x0 + x3
  let a1 := x1 + x2
  let d0 := x0 - x3
  let d1 := x1 - x2
  [(a0 + a1) <<< (3 : Nat), roundShift (C * d0 + S * d1) 9, (a0 - a1) <<< (3 : Nat), roundShift (S * d0 - C * d1) 9]

def fdctColumn (x0 x1 x2 x3 : Int) : List Int :=
  let a0 := x0 + x3
  let a1 := x1 + x2
  let d0 := x0 - x3
  let d1 := x1 - x2
  [roundShift ((a0 + a1) <<< (12 : Nat)) 16, roundShift (C * d0 + S * d1) 16,
    roundShift ((a0 - a1) <<< (12 : Nat)) 16, roundShift (S * d0 - C * d1) 16]

/-- Row `r` of the first pass over `src`. -/
def fdctTmp (src : List Int) (r : Nat) : List Int :=
  fdctRow (at16 src (r * 4)) (at16 src (r * 4 + 1)) (at16 src (r * 4 + 2)) (at16 src (r * 4 + 3))

/-- Column `c` of the second pass. -/
def fdctOut (src : List Int) (c : Nat) : List Int :=
  fdctColumn (at16 (fdctTmp src 0) c) (at16 (fdctTmp src 1) c) (at16 (fdctTmp src 2) c) (at16 (fdctTmp src 3) c)

/-- The forward DCT of a 4x4 block of residuals, row-major. -/
def fdct4x4 (src : List Int) : List Int := (List.range 16).map fun k => at16 (fdctOut src (k % 4)) (k / 4)

def hadamard (x0 x1 x2 x3 : Int) : List Int := [x0 + x1 + x2 + x3, x0 + x1 - x2 - x3, x0 - x1 - x2 + x3, x0 - x1 + x2 - x3]

def fwhtTmp (src : List Int) (c : Nat) : List Int :=
  hadamard (at16 src c) (at16 src (4 + c)) (at16 src (8 + c)) (at16 src (12 + c))

def fwhtRow (src : List Int) (r : Nat) : List Int :=
  hadamard (at16 (fwhtTmp src 0) r) (at16 (fwhtTmp src 1) r) (at16 (fwhtTmp src 2) r) (at16 (fwhtTmp src 3) r)

/-- Half, to the nearest, and away from zero at a half. -/
def roundHalf (v : Int) : Int := if 0 ≤ v then (v + 1) >>> (1 : Nat) else -((-v + 1) >>> (1 : Nat))

/-- The forward transform of the 16 luma DCs. -/
def fwht4x4 (src : List Int) : List Int := (List.range 16).map fun k => roundHalf (at16 (fwhtRow src (k / 4)) (k % 4))

/-! ## Quantization -/

/-- Steps of one frame: DC and AC of each kind of block. -/
structure Quant where
  y1 : Int × Int
  y2 : Int × Int
  uv : Int × Int
  deriving Repr, DecidableEq

def Quant.new (q : UInt8) : Quant :=
  let dc := at16 dcQuant (min q.toNat 127)
  let ac := at16 acQuant (min q.toNat 127)
  ⟨(dc, ac), (dc * 2, max (ac * 155 / 100) 8), (min dc 132, ac)⟩

/-- The largest level a token can carry. -/
def maxLevel : Nat := 2048 + 66

/-- `2^32 / (256 d)`, rounded up. -/
def reciprocal (d : Nat) : Nat := (2 ^ 32 + max d 1 * 256 - 1) / (max d 1 * 256)

/-- One coefficient, with a rounding offset of `bias / 256` of a step. -/
def quantize (v step bias : Int) : Int :=
  let num := ((v.natAbs * 256 + bias * step) % 2 ^ 64).toNat
  let l : Nat := min ((num * reciprocal step.toNat) >>> 32) maxLevel
  if v < 0 then -l else l

/-! ## Rounding -/

theorem roundShift_near (v : Int) (n : Nat) :
    -(2 ^ n) ≤ 2 ^ (n + 1) * roundShift v (n + 1) - v ∧ 2 ^ (n + 1) * roundShift v (n + 1) - v ≤ 2 ^ n := by
  have near (v : Int) : -(2 ^ n) ≤ 2 ^ (n + 1) * ((v + 2 ^ n) / 2 ^ (n + 1)) - v ∧
      2 ^ (n + 1) * ((v + 2 ^ n) / 2 ^ (n + 1)) - v ≤ 2 ^ n := by
    have pos : (0 : Int) < 2 ^ (n + 1) := by positivity
    have low := Int.mul_ediv_self_le (x := v + 2 ^ n) pos.ne'
    have high := Int.lt_mul_ediv_self_add (x := v + 2 ^ n) pos
    have double : (2 : Int) ^ (n + 1) = 2 ^ n * 2 := pow_succ 2 n
    constructor <;> linarith
  have half : (1 : Int) <<< n = 2 ^ n := by rw [Int.shiftLeft_eq, Int.one_mul]
  unfold roundShift
  simp only [Nat.add_sub_cancel, half, Int.shiftRight_eq_div_pow, Nat.cast_pow, Nat.cast_ofNat]
  split
  · exact near v
  · obtain ⟨low, high⟩ := near (-v)
    constructor <;> linarith

theorem roundHalf_near (v : Int) : -1 ≤ 2 * roundHalf v - v ∧ 2 * roundHalf v - v ≤ 1 := by
  unfold roundHalf
  simp only [Int.shiftRight_eq_div_pow]
  split <;> omega

/-! ## How large a coefficient gets -/

/-- The sum of the magnitudes. -/
def sad (res : List Int) : Int := (res.map fun v => (v.natAbs : Int)).sum

theorem roundShift_bound {v bound : Int} (small : |v| ≤ bound) (n : Nat) :
    2 ^ (n + 1) * |roundShift v (n + 1)| ≤ bound + 2 ^ n := by
  obtain ⟨low, high⟩ := roundShift_near v n
  obtain ⟨below, above⟩ := abs_le.mp small
  have pos : (0 : Int) < 2 ^ (n + 1) := by positivity
  rw [← abs_of_pos pos, ← abs_mul]
  exact abs_le.mpr ⟨by linarith, by linarith⟩

theorem basis_bound (x0 x1 x2 x3 : Int) :
    |(x0 + x3 + (x1 + x2)) * 4096| ≤ C * (|x0| + |x1| + |x2| + |x3|) ∧
      |C * (x0 - x3) + S * (x1 - x2)| ≤ C * (|x0| + |x1| + |x2| + |x3|) ∧
      |(x0 + x3 - (x1 + x2)) * 4096| ≤ C * (|x0| + |x1| + |x2| + |x3|) ∧
      |S * (x0 - x3) - C * (x1 - x2)| ≤ C * (|x0| + |x1| + |x2| + |x3|) := by
  have low (x : Int) := neg_abs_le x
  have high (x : Int) := le_abs_self x
  have := low x0
  have := low x1
  have := low x2
  have := low x3
  have := high x0
  have := high x1
  have := high x2
  have := high x3
  unfold C S
  refine ⟨abs_le.mpr ⟨?_, ?_⟩, abs_le.mpr ⟨?_, ?_⟩, abs_le.mpr ⟨?_, ?_⟩, abs_le.mpr ⟨?_, ?_⟩⟩ <;> linarith

theorem fdctRow_bound {x0 x1 x2 x3 t : Int} (mem : t ∈ fdctRow x0 x1 x2 x3) :
    512 * |t| ≤ C * (|x0| + |x1| + |x2| + |x3|) + 256 := by
  obtain ⟨sum, first, difference, third⟩ := basis_bound x0 x1 x2 x3
  have scaled {v : Int} (small : |v * 4096| ≤ C * (|x0| + |x1| + |x2| + |x3|)) :
      512 * |v * 8| ≤ C * (|x0| + |x1| + |x2| + |x3|) + 256 := by
    rw [abs_mul] at small ⊢
    simp only [Nat.abs_ofNat] at small ⊢
    linarith
  simp only [fdctRow, Int.shiftLeft_eq, List.mem_cons, List.not_mem_nil, or_false] at mem
  rcases mem with rfl | rfl | rfl | rfl
  · exact scaled sum
  · exact roundShift_bound first 8
  · exact scaled difference
  · exact roundShift_bound third 8

theorem fdctColumn_bound {x0 x1 x2 x3 o : Int} (mem : o ∈ fdctColumn x0 x1 x2 x3) :
    65536 * |o| ≤ C * (|x0| + |x1| + |x2| + |x3|) + 32768 := by
  obtain ⟨sum, first, difference, third⟩ := basis_bound x0 x1 x2 x3
  simp only [fdctColumn, Int.shiftLeft_eq, List.mem_cons, List.not_mem_nil, or_false] at mem
  rcases mem with rfl | rfl | rfl | rfl
  · exact roundShift_bound sum 15
  · exact roundShift_bound first 15
  · exact roundShift_bound difference 15
  · exact roundShift_bound third 15

theorem eq_map_at16 {l : List Int} {n : Nat} (length : l.length = n) : l = (List.range n).map (at16 l) := by
  refine List.ext_getElem? fun i => ?_
  by_cases inside : i < n
  · rw [List.getElem?_map, List.getElem?_range inside, Option.map_some, at16, List.getD_eq_getElem?_getD,
      List.getElem?_eq_getElem (by omega), Option.getD_some]
  · rw [List.getElem?_eq_none (by omega), List.getElem?_eq_none (by rw [List.length_map, List.length_range]; omega)]

theorem at16_mem {l : List Int} {i : Nat} (inside : i < l.length) : at16 l i ∈ l := by
  rw [at16, List.getD_eq_getElem?_getD, List.getElem?_eq_getElem inside]
  exact List.getElem_mem inside

/-- The magnitudes of row `r`. -/
def rowSad (res : List Int) (r : Nat) : Int :=
  |at16 res (r * 4)| + |at16 res (r * 4 + 1)| + |at16 res (r * 4 + 2)| + |at16 res (r * 4 + 3)|

theorem sad_rows {res : List Int} (length : res.length = 16) :
    sad res = rowSad res 0 + rowSad res 1 + rowSad res 2 + rowSad res 3 := by
  conv_lhs => rw [sad, eq_map_at16 length, List.map_map]
  simp only [rowSad, Int.abs_eq_natAbs]
  simp [List.range_succ]
  omega

theorem fdct4x4_bound {res : List Int} (length : res.length = 16) {o : Int} (mem : o ∈ fdct4x4 res) :
    2 ^ 25 * |o| ≤ C * C * sad res + 1024 * C + 2 ^ 24 := by
  obtain ⟨k, inside, rfl⟩ := List.mem_map.mp mem
  have inside := List.mem_range.mp inside
  have four (x0 x1 x2 x3 : Int) : (fdctColumn x0 x1 x2 x3).length = 4 := rfl
  have column := fdctColumn_bound (at16_mem (l := fdctOut res (k % 4)) (i := k / 4) (by rw [fdctOut, four]; omega))
  have row (r : Nat) : 512 * |at16 (fdctTmp res r) (k % 4)| ≤ C * rowSad res r + 256 :=
    fdctRow_bound (at16_mem (show k % 4 < (fdctTmp res r).length from Nat.mod_lt k (by decide)))
  have := row 0
  have := row 1
  have := row 2
  have := row 3
  rw [sad_rows length]
  unfold C at *
  omega

/-! ## Which coefficients quantize to zero -/

theorem reciprocal_bounds {d : Nat} (pos : 1 ≤ d) :
    2 ^ 32 ≤ reciprocal d * (d * 256) ∧ reciprocal d * (d * 256) ≤ 2 ^ 32 + d * 256 - 1 := by
  have low := Nat.lt_div_mul_add (a := 2 ^ 32 + d * 256 - 1) (b := d * 256) (by omega)
  have high := Nat.div_mul_le_self (2 ^ 32 + d * 256 - 1) (d * 256)
  rw [reciprocal, max_eq_left pos]
  omega

/-- Away from a boundary the product with a reciprocal rounds as the quotient does. -/
theorem mul_reciprocal_zero {num d : Nat} (pos : 1 ≤ d) (small : d < 512) (under : num + 86 ≤ d * 256) :
    (num * reciprocal d) >>> 32 = 0 := by
  obtain ⟨low, high⟩ := reciprocal_bounds pos
  have large : 32768 ≤ reciprocal d := by
    by_contra less
    have := Nat.mul_le_mul (show reciprocal d ≤ 32767 by omega) (show d * 256 ≤ 131072 by omega)
    omega
  have product := Nat.mul_le_mul_left (reciprocal d) under
  rw [Nat.mul_add, Nat.mul_comm (reciprocal d) num] at product
  rw [Nat.shiftRight_eq_div_pow]
  omega

theorem mul_reciprocal_pos {num d : Nat} (pos : 1 ≤ d) (reach : d * 256 ≤ num) : 1 ≤ (num * reciprocal d) >>> 32 := by
  obtain ⟨low, -⟩ := reciprocal_bounds pos
  have product := Nat.mul_le_mul_left (reciprocal d) reach
  rw [Nat.mul_comm (reciprocal d) num] at product
  rw [Nat.shiftRight_eq_div_pow]
  omega

/-- A step of the encoder: at least one, and a place in the table of reciprocals. -/
def Step (step : Int) : Prop := 1 ≤ step ∧ step < 512

instance : DecidablePred Step := fun _ => inferInstanceAs (Decidable (_ ∧ _))

theorem steps (q : UInt8) : Step (Quant.new q).y1.1 ∧ Step (Quant.new q).y1.2 ∧ Step (Quant.new q).uv.1 ∧
    Step (Quant.new q).uv.2 := by
  have all : ∀ i < 128, Step (at16 dcQuant i) ∧ Step (at16 acQuant i) ∧ Step (min (at16 dcQuant i) 132) := by
    decide +kernel
  obtain ⟨dc, ac, chroma⟩ := all (min q.toNat 127) (by omega)
  exact ⟨dc, ac, chroma, ac⟩

theorem quantize_eq {v step : Int} {bias : Nat} (known : Step step) (fits : 256 * |v| + bias * step < 2 ^ 64) :
    quantize v step bias =
      let l : Nat := min (((v.natAbs * 256 + bias * step.toNat) * reciprocal step.toNat) >>> 32) maxLevel
      if v < 0 then -(l : Int) else l := by
  obtain ⟨pos, -⟩ := known
  lift step to Nat using by omega
  rw [Int.abs_eq_natAbs] at fits
  have num : ((v.natAbs * 256 + bias * step : Int) % 2 ^ 64).toNat = v.natAbs * 256 + bias * step := by
    rw [Int.emod_eq_of_lt (by positivity) (by linarith)]
    exact Int.toNat_natCast (v.natAbs * 256 + bias * step)
  simp only [quantize, num, Int.toNat_natCast]

theorem quantize_zero {v step : Int} (bias : Nat) (known : Step step) (under : 256 * |v| + bias * step + 86 ≤ 256 * step) :
    quantize v step bias = 0 := by
  have known' := known
  obtain ⟨pos, small⟩ := known
  rw [quantize_eq known' (by omega)]
  lift step to Nat using by omega
  rw [Int.abs_eq_natAbs] at under
  rw [Int.toNat_natCast, mul_reciprocal_zero (by omega) (by omega) (by omega)]
  simp

theorem quantize_ne_zero {v step : Int} (bias : Nat) (known : Step step) (fits : 256 * |v| + bias * step < 2 ^ 64)
    (reach : 256 * step ≤ 256 * |v| + bias * step) : quantize v step bias ≠ 0 := by
  rw [quantize_eq known fits]
  obtain ⟨pos, small⟩ := known
  lift step to Nat using by omega
  rw [Int.abs_eq_natAbs] at reach
  have one := mul_reciprocal_pos (show 1 ≤ step by omega) (show step * 256 ≤ v.natAbs * 256 + bias * step by omega)
  rw [Int.toNat_natCast]
  unfold maxLevel
  dsimp only
  split <;> omega

end K2.Vp8

/-! ## Blocks that code to nothing

The encoder skips the transform of a block whose residual is too small for any
coefficient to survive its quantizer. -/

namespace K2.Vp8

open Checked Buffers Buffers.Edit

/-! ## Coding a block -/

/-- The 4x4 residual `src - recon`. -/
def residual (src : List UInt8) (spos sstride : Nat) (recon : List UInt8) (rpos rstride : Nat) : Option (List Int) := do
  let rows ← (List.range 4).mapM fun r => do
    let s ← sliceOf src (spos + r * sstride) 4
    let p ← sliceOf recon (rpos + r * rstride) 4
    return List.zipWith (fun s p => (s.toNat : Int) - (p.toNat : Int)) s p
  return rows.flatten

/-- Every AC coefficient of a residual with these magnitudes quantizes to zero. -/
def acIsZero (sad acStep acBias : Int) : Bool := sad * 875 + 1024 < acStep * (256 - acBias) * 4

/-- The early return of `code_block`. -/
def skipsBlock (res : List Int) (q : Int × Int) (acBias : Int) (first : Nat) : Bool :=
  acIsZero (sad res) q.2 acBias && (0 < first || |res.sum| < q.1)

/-- The level of coefficient `k`. -/
def levelAt (co : List Int) (q : Int × Int) (acBias : Int) (k : Nat) : Int :=
  if k = 0 then quantize (at16 co k) q.1 128 else quantize (at16 co k) q.2 acBias

/-- The full path: the levels from `first` on, and what a decoder adds for them. -/
def codeResidual (res : List Int) (rpos rstride : Nat) (q : Int × Int) (acBias : Int) (first : Nat) (levels : List Int) :
    Edit UInt8 (List Int) := do
  let co := fdct4x4 res
  let deq := (List.range 16).map fun k =>
    if k < first then 0 else Int16.ofInt (levelAt co q acBias k * if k = 0 then q.1 else q.2)
  if (List.range 16).any fun k => first ≤ k && levelAt co q acBias k ≠ 0 then idctAdd deq rpos rstride
  return (List.range 16).map fun k => if k < first then at16 levels k else levelAt co q acBias k

/-- One 4x4 block without a Y2 block: its levels, and the residual a decoder will add. -/
def codeBlock (src : List UInt8) (spos sstride rpos rstride : Nat) (q : Int × Int) (acBias : Int) (first : Nat)
    (levels : List Int) : Edit UInt8 (List Int) := fun recon => do
  let res ← residual src spos sstride recon rpos rstride
  if skipsBlock res q acBias first then return (List.replicate 16 0, recon)
  else codeResidual res rpos rstride q acBias first levels recon

/-! ## Coding the luma of a macroblock -/

/-- The coefficients of one luma block: only the DC when no AC coefficient survives. -/
def lumaCoeffs (res : List Int) (acStep acBias : Int) : List Int :=
  if acIsZero (sad res) acStep acBias then roundHalf res.sum :: List.replicate 15 0 else fdct4x4 res

/-- Adds luma block `b`, whose DC comes from the Y2 block. -/
def addLuma (quant : Quant) (acBias : Int) (rbase rstride b : Nat) (coeffs : List Int) (dc : Int16) : Edit UInt8 (List Int) := do
  let level (k : Nat) := quantize (at16 coeffs k) quant.y1.2 acBias
  let deq := dc :: (List.range 15).map fun k => Int16.ofInt (level (k + 1) * quant.y1.2)
  if dc ≠ 0 ∨ (List.range 15).any fun k => level (k + 1) ≠ 0 then
    idctAdd deq (rbase + b / 4 * 4 * rstride + b % 4 * 4) rstride
  return (List.range 15).map fun k => level (k + 1)

/-- The Y2 block of sixteen blocks of coefficients and their AC levels, and the residuals a decoder will add. -/
def codeCoeffs (rbase rstride : Nat) (quant : Quant) (acBias : Int) (coeffs : List (List Int)) :
    Edit UInt8 (List (List Int) × List Int) := do
  let y2 := fwht4x4 (coeffs.map (at16 · 0))
  let y2Step (k : Nat) := if k = 0 then quant.y2.1 else quant.y2.2
  let y2Levels := (List.range 16).map fun k => quantize (at16 y2 k) (y2Step k) 128
  let y2Deq := (List.range 16).map fun k => Int16.ofInt (at16 y2Levels k * y2Step k)
  let dcs ← if y2Deq.any (· ≠ 0) then inverseWht y2Deq else some (List.replicate 16 0)
  let levels ← (List.range 16).mapM fun b => addLuma quant acBias rbase rstride b (coeffs.getD b []) (dcs.getD b 0)
  return (levels, y2Levels)

/-- A 16x16 luma block with a Y2 block, the coefficients of each residual given by `coeffsOf`: the AC levels of
each block and the levels of Y2. -/
def codeLumaBy (coeffsOf : List Int → List Int) (src : List UInt8) (spos sstride rbase rstride : Nat) (quant : Quant)
    (acBias : Int) : Edit UInt8 (List (List Int) × List Int) := fun recon => do
  let blocks ← (List.range 16).mapM fun b =>
    residual src (spos + b / 4 * 4 * sstride + b % 4 * 4) sstride recon (rbase + b / 4 * 4 * rstride + b % 4 * 4) rstride
  codeCoeffs rbase rstride quant acBias (blocks.map coeffsOf) recon

def codeLumaY2 (src : List UInt8) (spos sstride rbase rstride : Nat) (quant : Quant) (acBias : Int) :
    Edit UInt8 (List (List Int) × List Int) :=
  codeLumaBy (lumaCoeffs · quant.y1.2 acBias) src spos sstride rbase rstride quant acBias

/-! ## What the shortcuts leave out -/

variable {res : List Int}

theorem sum_rows (length : res.length = 16) : res.sum =
    at16 res 0 + at16 res 1 + at16 res 2 + at16 res 3 + (at16 res 4 + at16 res 5 + at16 res 6 + at16 res 7) +
      (at16 res 8 + at16 res 9 + at16 res 10 + at16 res 11) + (at16 res 12 + at16 res 13 + at16 res 14 + at16 res 15) := by
  conv_lhs => rw [eq_map_at16 length]
  simp [List.range_succ]
  omega

theorem fdct4x4_dc (length : res.length = 16) : at16 (fdct4x4 res) 0 = roundHalf res.sum := by
  have dc : at16 (fdct4x4 res) 0 = roundShift (res.sum * 32768) 16 := by
    have rows : at16 (fdct4x4 res) 0 = roundShift ((at16 (fdctTmp res 0) 0 + at16 (fdctTmp res 3) 0 +
        (at16 (fdctTmp res 1) 0 + at16 (fdctTmp res 2) 0)) <<< (12 : Nat)) 16 := rfl
    have row (r : Nat) : at16 (fdctTmp res r) 0 = (at16 res (r * 4) + at16 res (r * 4 + 3) +
        (at16 res (r * 4 + 1) + at16 res (r * 4 + 2))) <<< (3 : Nat) := rfl
    rw [rows, row, row, row, row, sum_rows length]
    simp only [Int.shiftLeft_eq, Nat.reduceMul, Nat.reduceAdd]
    congr 1
    omega
  rw [dc]
  have half : (1 : Int) <<< ((16 : Nat) - 1) = 32768 := rfl
  simp only [roundShift, roundHalf, Int.shiftRight_eq_div_pow, half]
  split
  · rw [if_pos (by omega)]
    omega
  · rw [if_neg (by omega)]
    omega

theorem sad_nonneg (length : res.length = 16) : 0 ≤ sad res := by
  rw [sad_rows length]
  unfold rowSad
  positivity

theorem length_fdct4x4 (res : List Int) : (fdct4x4 res).length = 16 := by rw [fdct4x4, List.length_map, List.length_range]

theorem acIsZero_sound (length : res.length = 16) {step : Int} (known : Step step) {bias : Nat}
    (zero : acIsZero (sad res) step bias = true) {k : Nat} (inside : k < 16) :
    quantize (at16 (fdct4x4 res) k) step bias = 0 := by
  have guarded := of_decide_eq_true zero
  have bound := fdct4x4_bound length (at16_mem (show k < (fdct4x4 res).length by rw [length_fdct4x4]; exact inside))
  have := sad_nonneg length
  refine quantize_zero bias known ?_
  rw [Int.mul_sub, Int.mul_comm step bias] at guarded
  unfold C at bound
  omega

theorem abs_roundHalf (v : Int) : |roundHalf v| = (|v| + 1) / 2 := by
  simp only [roundHalf, Int.shiftRight_eq_div_pow, Int.abs_eq_natAbs]
  split <;> omega

/-- The DC of a sum below its step survives when the step is even and the sum one less. -/
theorem dc_zero_iff {sum step : Int} (known : Step step) (less : |sum| < step) :
    quantize (roundHalf sum) step 128 = 0 ↔ ¬(step % 2 = 0 ∧ |sum| = step - 1) := by
  have half := abs_roundHalf sum
  have bounds := known
  unfold Step at bounds
  constructor
  · rintro zero ⟨even, last⟩
    exact quantize_ne_zero 128 known (by omega) (by omega) zero
  · intro other
    exact quantize_zero 128 known (by omega)

theorem steps_of {index : UInt8} {q : Int × Int} (origin : q = (Quant.new index).y1 ∨ q = (Quant.new index).uv) :
    Step q.1 ∧ Step q.2 := by
  obtain ⟨dc, ac, chromaDc, chromaAc⟩ := steps index
  rcases origin with rfl | rfl
  · exact ⟨dc, ac⟩
  · exact ⟨chromaDc, chromaAc⟩

theorem length_of_sliceOf {α : Type} {l run : List α} {a k : Nat} (found : sliceOf l a k = some run) : run.length = k := by
  unfold sliceOf at found
  split at found
  next inside =>
    obtain rfl := Option.some.inj found
    exact length_run inside
  · exact absurd found (by simp)

theorem mem_of_mapM {α β : Type} {f : α → Option β} {l : List α} {out : List β} (ran : l.mapM f = some out) {b : β}
    (mem : b ∈ out) : ∃ a ∈ l, f a = some b := by
  induction l generalizing out with
  | nil =>
      obtain rfl : out = [] := by simpa using ran.symm
      exact absurd mem (by simp)
  | cons a l ih =>
      simp only [List.mapM_cons, Option.bind_eq_bind, Option.bind_eq_some_iff, Option.pure_def, Option.some.injEq] at ran
      obtain ⟨first, found, rest, ran, rfl⟩ := ran
      rcases List.mem_cons.mp mem with rfl | mem
      · exact ⟨a, List.mem_cons_self, found⟩
      · obtain ⟨a', mem', found'⟩ := ih ran mem
        exact ⟨a', List.mem_cons_of_mem a mem', found'⟩

theorem length_residual {src recon : List UInt8} {spos sstride rpos rstride : Nat}
    (found : residual src spos sstride recon rpos rstride = some res) : res.length = 16 := by
  simp only [residual, List.range_succ, List.range_zero, List.nil_append, List.cons_append, List.mapM_cons, List.mapM_nil,
    Option.bind_eq_bind, Option.pure_def, Option.bind_eq_some_iff, Option.some.injEq] at found
  obtain ⟨_, ⟨_, ⟨s0, hs0, p0, hp0, rfl⟩, _, ⟨_, ⟨s1, hs1, p1, hp1, rfl⟩, _, ⟨_, ⟨s2, hs2, p2, hp2, rfl⟩, _,
    ⟨_, ⟨s3, hs3, p3, hp3, rfl⟩, _, rfl, rfl⟩, rfl⟩, rfl⟩, rfl⟩, rfl⟩ := found
  simp [length_of_sliceOf hs0, length_of_sliceOf hp0, length_of_sliceOf hs1, length_of_sliceOf hp1, length_of_sliceOf hs2,
    length_of_sliceOf hp2, length_of_sliceOf hs3, length_of_sliceOf hp3]

/-! ## What the shortcuts code -/

section coded

variable {src recon : List UInt8} {spos sstride rbase rpos rstride : Nat} {levels : List Int} {q : Int × Int} {quant : Quant}
  {bias first : Nat}

/-- The full path with no level to code leaves the picture and clears the levels. -/
theorem codeResidual_zero (zero : ∀ k, first ≤ k → k < 16 → levelAt (fdct4x4 res) q bias k = 0) :
    codeResidual res rpos rstride q bias first (List.replicate 16 0) recon = some (List.replicate 16 0, recon) := by
  have none : ((List.range 16).any fun k => decide (first ≤ k) && decide (levelAt (fdct4x4 res) q bias k ≠ 0)) = false := by
    simp only [List.any_eq_false, List.mem_range, Bool.and_eq_true, decide_eq_true_eq, not_and]
    exact fun k inside origin survives => survives (zero k origin inside)
  have out : ((List.range 16).map fun k =>
      if k < first then at16 (List.replicate 16 0) k else levelAt (fdct4x4 res) q bias k) = List.replicate 16 0 := by
    refine List.eq_replicate_iff.mpr ⟨by rw [List.length_map, List.length_range], fun l mem => ?_⟩
    obtain ⟨k, inside, rfl⟩ := List.mem_map.mp mem
    split
    · exact List.getD_replicate _ (List.mem_range.mp inside)
    · exact zero k (by omega) (List.mem_range.mp inside)
  simp only [codeResidual, none, out]
  rfl

theorem codeResidual_level {out : List UInt8} {coded : List Int} {k : Nat} (origin : first ≤ k) (inside : k < 16)
    (ran : codeResidual res rpos rstride q bias first levels recon = some (coded, out)) :
    at16 coded k = levelAt (fdct4x4 res) q bias k := by
  have same : (List.range 16).map (fun k => if k < first then at16 levels k else levelAt (fdct4x4 res) q bias k) = coded := by
    unfold codeResidual at ran
    split at ran
    · obtain ⟨_, _, last⟩ := Option.bind_eq_some_iff.mp ran
      exact congrArg Prod.fst (Option.some.inj last)
    · exact congrArg Prod.fst (Option.some.inj ran)
  rw [← same, at16, List.getD_eq_getElem?_getD, List.getElem?_map, List.getElem?_range inside, Option.map_some, Option.getD_some,
    if_neg (by omega)]

/-- Blocks with one DC and the same AC levels. -/
def Alike (quant : Quant) (bias : Int) (c c' : List Int) : Prop :=
  at16 c 0 = at16 c' 0 ∧ ∀ k, quantize (at16 c (k + 1)) quant.y1.2 bias = quantize (at16 c' (k + 1)) quant.y1.2 bias

theorem addLuma_alike {c c' : List Int} (alike : Alike quant bias c c') (b : Nat) (dc : Int16) :
    addLuma quant bias rbase rstride b c dc = addLuma quant bias rbase rstride b c' dc := by
  unfold addLuma
  simp only [alike.2]

/-- Alike coefficients code to the same levels and the same picture. -/
theorem codeLumaBy_alike {f g : List Int → List Int} (alike : ∀ res, res.length = 16 → Alike quant bias (f res) (g res)) :
    codeLumaBy f src spos sstride rbase rstride quant bias = codeLumaBy g src spos sstride rbase rstride quant bias := by
  funext recon
  refine Option.bind_congr fun blocks found => ?_
  have each : ∀ res ∈ blocks, res.length = 16 := fun res mem => by
    obtain ⟨b, -, there⟩ := mem_of_mapM found mem
    exact length_residual there
  have dcs : (blocks.map f).map (at16 · 0) = (blocks.map g).map (at16 · 0) := by
    simp only [List.map_map]
    exact List.map_congr_left fun res mem => (alike res (each res mem)).1
  have levels (b : Nat) (dc : Int16) : addLuma quant bias rbase rstride b ((blocks.map f).getD b []) dc =
      addLuma quant bias rbase rstride b ((blocks.map g).getD b []) dc := by
    simp only [List.getD_eq_getElem?_getD, List.getElem?_map]
    cases there : blocks[b]? with
    | none => rfl
    | some res => exact addLuma_alike (alike res (each res (List.mem_of_getElem? there))) b dc
  unfold codeCoeffs
  simp only [dcs, levels]

/-- A skipped block would code to nothing, unless its sum is one below an even DC step. -/
theorem skips_zero_iff (length : res.length = 16) (dcStep : Step q.1) (acStep : Step q.2) :
    (skipsBlock res q bias first = true → ∀ k, first ≤ k → k < 16 → levelAt (fdct4x4 res) q bias k = 0) ↔
      ¬(skipsBlock res q bias first = true ∧ first = 0 ∧ q.1 % 2 = 0 ∧ |res.sum| = q.1 - 1) := by
  constructor
  · rintro sound ⟨skips, rfl, even, last⟩
    have zero := sound skips 0 (Nat.le_refl 0) (by decide)
    have less : |res.sum| < q.1 := by omega
    rw [levelAt, if_pos rfl, fdct4x4_dc length] at zero
    exact (dc_zero_iff dcStep less).mp zero ⟨even, last⟩
  · intro other skips k from_k inside
    obtain ⟨ac, dc⟩ := (Bool.and_eq_true _ _).mp skips
    rw [levelAt]
    split
    next leading =>
      have none : first = 0 := by omega
      have less : |res.sum| < q.1 := by simpa [none] using dc
      rw [leading, fdct4x4_dc length, dc_zero_iff dcStep less]
      exact fun last => other ⟨skips, none, last⟩
    · exact acIsZero_sound length acStep ac inside

/-- So the early return codes what the full path codes from cleared levels. -/
theorem codeBlock_eq_iff (found : residual src spos sstride recon rpos rstride = some res) (dcStep : Step q.1)
    (acStep : Step q.2) :
    codeBlock src spos sstride rpos rstride q bias first levels recon =
        codeResidual res rpos rstride q bias first
          (if skipsBlock res q bias first then List.replicate 16 0 else levels) recon ↔
      ¬(skipsBlock res q bias first = true ∧ first = 0 ∧ q.1 % 2 = 0 ∧ |res.sum| = q.1 - 1) := by
  have length := length_residual found
  have coded : codeBlock src spos sstride rpos rstride q bias first levels recon =
      if skipsBlock res q bias first then some (List.replicate 16 0, recon)
      else codeResidual res rpos rstride q bias first levels recon := by
    rw [codeBlock, found]
    rfl
  rw [← skips_zero_iff length dcStep acStep, coded]
  cases skips : skipsBlock res q bias first with
  | false => simp
  | true =>
      simp only [if_true, forall_const]
      refine ⟨fun same k origin inside => ?_, fun zero => (codeResidual_zero zero).symm⟩
      rw [← codeResidual_level origin inside same.symm]
      exact List.getD_replicate _ inside

/-- Without AC coefficients the half sum is as good as the full transform. -/
theorem alike_lumaCoeffs (length : res.length = 16) (acStep : Step quant.y1.2) :
    Alike quant bias (lumaCoeffs res quant.y1.2 bias) (fdct4x4 res) := by
  unfold lumaCoeffs
  split
  next zero =>
    refine ⟨(fdct4x4_dc length).symm, fun k => ?_⟩
    have none : at16 (roundHalf res.sum :: List.replicate 15 0) (k + 1) = 0 := by
      rw [at16, List.getD_cons_succ, List.getD_eq_getElem?_getD, List.getElem?_replicate]
      split <;> rfl
    have vanishes : quantize 0 quant.y1.2 bias = 0 := by
      have guarded := of_decide_eq_true zero
      have := sad_nonneg length
      refine quantize_zero bias acStep ?_
      rw [Int.mul_sub, Int.mul_comm _ (bias : Int)] at guarded
      simp only [abs_zero]
      omega
    rw [none, vanishes]
    by_cases inside : k + 1 < 16
    · exact (acIsZero_sound length acStep zero inside).symm
    · rw [at16, List.getD_eq_default _ _ (by rw [length_fdct4x4]; omega), vanishes]
  · exact ⟨rfl, fun _ => rfl⟩

end coded

/-- The two shortcuts against the full transform: the early return codes the same unless the sum is one below an
even DC step, and the luma of a macroblock always does. -/
theorem skipsBlock_sound_iff (length : res.length = 16) (index : UInt8) {q : Int × Int}
    (origin : q = (Quant.new index).y1 ∨ q = (Quant.new index).uv) (bias first : Nat) :
    ((skipsBlock res q bias first = true → ∀ k, first ≤ k → k < 16 → levelAt (fdct4x4 res) q bias k = 0) ↔
        ¬(skipsBlock res q bias first = true ∧ first = 0 ∧ q.1 % 2 = 0 ∧ |res.sum| = q.1 - 1)) ∧
      (∀ src spos sstride recon rpos rstride levels, residual src spos sstride recon rpos rstride = some res →
        (codeBlock src spos sstride rpos rstride q bias first levels recon =
            codeResidual res rpos rstride q bias first
              (if skipsBlock res q bias first then List.replicate 16 0 else levels) recon ↔
          ¬(skipsBlock res q bias first = true ∧ first = 0 ∧ q.1 % 2 = 0 ∧ |res.sum| = q.1 - 1))) ∧
      (acIsZero (sad res) (Quant.new index).y1.2 bias = true →
        at16 (lumaCoeffs res (Quant.new index).y1.2 bias) 0 = at16 (fdct4x4 res) 0 ∧ ∀ k, 1 ≤ k → k < 16 →
          quantize (at16 (lumaCoeffs res (Quant.new index).y1.2 bias) k) (Quant.new index).y1.2 bias = 0 ∧
          quantize (at16 (fdct4x4 res) k) (Quant.new index).y1.2 bias = 0) ∧
      ∀ src spos sstride rbase rstride, codeLumaY2 src spos sstride rbase rstride (Quant.new index) bias =
        codeLumaBy fdct4x4 src spos sstride rbase rstride (Quant.new index) bias := by
  obtain ⟨dcStep, acStep⟩ := steps_of origin
  have lumaStep := (steps index).2.1
  refine ⟨skips_zero_iff length dcStep acStep, fun _ _ _ _ _ _ _ found => codeBlock_eq_iff found dcStep acStep,
    fun zero => ?_, fun _ _ _ _ _ => codeLumaBy_alike fun res length => alike_lumaCoeffs length lumaStep⟩
  obtain ⟨dc, ac⟩ : Alike (Quant.new index) bias _ _ := alike_lumaCoeffs length lumaStep
  refine ⟨dc, fun k one inside => ?_⟩
  have none := acIsZero_sound length lumaStep zero inside
  obtain ⟨j, rfl⟩ : ∃ j, k = j + 1 := ⟨k - 1, by omega⟩
  exact ⟨(ac j).trans none, none⟩

/-- One pixel off by 77, at quantizer index 84. -/
def lonePixel : List Int := 77 :: List.replicate 15 0

/-- The next index has an odd step, and the early return is sound. -/
theorem skipsBlock_sound_iff_lonePixel :
    (skipsBlock lonePixel (Quant.new 85).y1 112 0 = true →
        ∀ k, 0 ≤ k → k < 16 → levelAt (fdct4x4 lonePixel) (Quant.new 85).y1 112 k = 0) ∧
      codeBlock (77 :: List.replicate 15 0) 0 4 0 4 (Quant.new 85).y1 112 0 [] (List.replicate 16 0) =
        codeResidual lonePixel 0 4 (Quant.new 85).y1 112 0
          (if skipsBlock lonePixel (Quant.new 85).y1 112 0 then List.replicate 16 0 else []) (List.replicate 16 0) := by
  have length : lonePixel.length = 16 := rfl
  have other : ¬(skipsBlock lonePixel (Quant.new 85).y1 112 0 = true ∧ 0 = 0 ∧ (Quant.new 85).y1.1 % 2 = 0 ∧
      |lonePixel.sum| = (Quant.new 85).y1.1 - 1) := by decide +kernel
  obtain ⟨sound, coded, -⟩ := skipsBlock_sound_iff length 85 (.inl rfl) 112 0
  exact ⟨sound.mpr other, (coded _ 0 4 _ 0 4 [] (by decide +kernel)).mpr other⟩

/-- The DC of a sum of 77 is 39, half of the step of 78, and its level is 1. -/
theorem lonePixel_survives :
    lonePixel.length = 16 ∧ (∀ v ∈ lonePixel, -255 ≤ v ∧ v ≤ 255) ∧
      skipsBlock lonePixel (Quant.new 84).y1 112 0 = true ∧ levelAt (fdct4x4 lonePixel) (Quant.new 84).y1 112 0 = 1 :=
  ⟨by decide, by decide, by decide +kernel, by decide +kernel⟩

end K2.Vp8
