import K2.Vp8.Forward
import Mathlib.Tactic.IntervalCases

/-! # The forward transforms against the decoder's inverses

Both transforms round after each pass. Column by column and then row by row, what the
decoder gets back is close to what the encoder transformed. -/

namespace K2.Vp8

open Checked Buffers Buffers.Edit

/-! ## The inverse cosine transform without casts -/

def sinMul (x : Int) : Int := (x * 35468) >>> (16 : Nat)
def cosMul (x : Int) : Int := x + (x * 20091) >>> (16 : Nat)

def inverse4 (a b c d : Int) : List Int :=
  [a + c + (cosMul b + sinMul d), a - c + (sinMul b - cosMul d), a - c - (sinMul b - cosMul d),
    a + c - (cosMul b + sinMul d)]

theorem sinMul_near (x : Int) : 65536 * sinMul x ≤ 35468 * x ∧ 35468 * x < 65536 * sinMul x + 65536 := by
  simp only [sinMul, Int.shiftRight_eq_div_pow]
  omega

theorem cosMul_near (x : Int) : 65536 * cosMul x ≤ 85627 * x ∧ 85627 * x < 65536 * cosMul x + 65536 := by
  simp only [cosMul, Int.shiftRight_eq_div_pow]
  omega

/-- A column comes back within 4 of a quarter, its scale between the passes. -/
theorem column_near {t0 t1 t2 t3 : Int} (h0 : |t0| ≤ 10700) (h1 : |t1| ≤ 10700) (h2 : |t2| ≤ 10700) (h3 : |t3| ≤ 10700)
    {X0 X1 X2 X3 : Int} (forward : fdctColumn t0 t1 t2 t3 = [X0, X1, X2, X3]) {Y0 Y1 Y2 Y3 : Int}
    (inverse : inverse4 X0 X1 X2 X3 = [Y0, Y1, Y2, Y3]) :
    |4 * Y0 - t0| ≤ 16 ∧ |4 * Y1 - t1| ≤ 16 ∧ |4 * Y2 - t2| ≤ 16 ∧ |4 * Y3 - t3| ≤ 16 := by
  have near16 (v : Int) : -32768 ≤ 65536 * roundShift v 16 - v ∧ 65536 * roundShift v 16 - v ≤ 32768 := roundShift_near v 15
  simp only [fdctColumn, List.cons.injEq, and_true, Int.shiftLeft_eq] at forward
  obtain ⟨f0, f1, f2, f3⟩ := forward
  have n0 := near16 ((t0 + t3 + (t1 + t2)) * 4096)
  have n1 := near16 (C * (t0 - t3) + S * (t1 - t2))
  have n2 := near16 ((t0 + t3 - (t1 + t2)) * 4096)
  have n3 := near16 (S * (t0 - t3) - C * (t1 - t2))
  have d0 : roundShift ((t0 + t3 + (t1 + t2)) * 4096) 16 = X0 := f0
  have d2 : roundShift ((t0 + t3 - (t1 + t2)) * 4096) 16 = X2 := f2
  rw [d0] at n0
  rw [f1] at n1
  rw [d2] at n2
  rw [f3] at n3
  simp only [inverse4, List.cons.injEq, and_true] at inverse
  obtain ⟨rfl, rfl, rfl, rfl⟩ := inverse
  have s1 := sinMul_near X1
  have s3 := sinMul_near X3
  have c1 := cosMul_near X1
  have c3 := cosMul_near X3
  rw [abs_le] at h0 h1 h2 h3
  unfold C S at n1 n3
  have tight {v : Int} (low : -17 < v) (high : v < 17) : |v| ≤ 16 := abs_le.mpr ⟨by omega, by omega⟩
  refine ⟨tight ?_ ?_, tight ?_ ?_, tight ?_ ?_, tight ?_ ?_⟩ <;> linarith

/-- A row whose coefficients came back so is within 19 of its pixels, 8 to one. -/
theorem row_near {x0 x1 x2 x3 : Int} (h0 : |x0| ≤ 255) (h1 : |x1| ≤ 255) (h2 : |x2| ≤ 255) (h3 : |x3| ≤ 255)
    {t0 t1 t2 t3 : Int} (forward : fdctRow x0 x1 x2 x3 = [t0, t1, t2, t3]) {Y0 Y1 Y2 Y3 : Int}
    (e0 : |4 * Y0 - t0| ≤ 16) (e1 : |4 * Y1 - t1| ≤ 16) (e2 : |4 * Y2 - t2| ≤ 16) (e3 : |4 * Y3 - t3| ≤ 16)
    {V0 V1 V2 V3 : Int} (inverse : inverse4 Y0 Y1 Y2 Y3 = [V0, V1, V2, V3]) :
    |V0 - 8 * x0| ≤ 19 ∧ |V1 - 8 * x1| ≤ 19 ∧ |V2 - 8 * x2| ≤ 19 ∧ |V3 - 8 * x3| ≤ 19 := by
  have near9 (v : Int) : -256 ≤ 512 * roundShift v 9 - v ∧ 512 * roundShift v 9 - v ≤ 256 := roundShift_near v 8
  have n1 := near9 (C * (x0 - x3) + S * (x1 - x2))
  have n3 := near9 (S * (x0 - x3) - C * (x1 - x2))
  simp only [fdctRow, List.cons.injEq, and_true, Int.shiftLeft_eq] at forward
  obtain ⟨rfl, f1, rfl, f3⟩ := forward
  rw [f1] at n1
  rw [f3] at n3
  simp only [inverse4, List.cons.injEq, and_true] at inverse
  obtain ⟨rfl, rfl, rfl, rfl⟩ := inverse
  have s1 := sinMul_near Y1
  have s3 := sinMul_near Y3
  have c1 := cosMul_near Y1
  have c3 := cosMul_near Y3
  rw [abs_le] at h0 h1 h2 h3 e0 e1 e2 e3
  unfold C S at n1 n3
  have tight {v : Int} (low : -20 < v) (high : v < 20) : |v| ≤ 19 := abs_le.mpr ⟨by omega, by omega⟩
  refine ⟨tight ?_ ?_, tight ?_ ?_, tight ?_ ?_, tight ?_ ?_⟩ <;> linarith

/-! ## A whole block -/

/-- Differences of pixels. -/
def IsResidual (res : List Int) : Prop := res.length = 16 ∧ ∀ v ∈ res, |v| ≤ 255

/-- What the inverse stores for column `i` between its passes. -/
def columnStores (coeffs : List Int) (i : Nat) : List Int :=
  inverse4 (at16 coeffs i) (at16 coeffs (4 + i)) (at16 coeffs (8 + i)) (at16 coeffs (12 + i))

def rowSums (coeffs : List Int) (r : Nat) : List Int :=
  inverse4 (at16 (columnStores coeffs 0) r) (at16 (columnStores coeffs 1) r) (at16 (columnStores coeffs 2) r)
    (at16 (columnStores coeffs 3) r)

/-- What it stores for row `r` at the end. -/
def rowStores (coeffs : List Int) (r : Nat) : List Int := (rowSums coeffs r).map fun v : Int => (v + 4) >>> (3 : Nat)

variable {res : List Int}

theorem IsResidual.at16_le (residual : IsResidual res) (i : Nat) : |at16 res i| ≤ 255 := by
  by_cases inside : i < res.length
  · exact residual.2 _ (at16_mem inside)
  · rw [at16, List.getD_eq_default _ _ (not_lt.mp inside)]
    decide

theorem fdctTmp_le (residual : IsResidual res) {r i : Nat} (inside : i < 4) : |at16 (fdctTmp res r) i| ≤ 10700 := by
  have bound : 512 * |at16 (fdctTmp res r) i| ≤ C * rowSad res r + 256 :=
    fdctRow_bound (at16_mem (show i < (fdctTmp res r).length from inside))
  have := residual.at16_le (r * 4)
  have := residual.at16_le (r * 4 + 1)
  have := residual.at16_le (r * 4 + 2)
  have := residual.at16_le (r * 4 + 3)
  unfold C rowSad at bound
  omega

theorem columnStores_near (residual : IsResidual res) {i r : Nat} (column : i < 4) (row : r < 4) :
    |4 * at16 (columnStores (fdct4x4 res) i) r - at16 (fdctTmp res r) i| ≤ 16 := by
  have coeffs : columnStores (fdct4x4 res) i = inverse4 (at16 (fdctOut res i) 0) (at16 (fdctOut res i) 1)
      (at16 (fdctOut res i) 2) (at16 (fdctOut res i) 3) := by
    interval_cases i <;> rfl
  obtain ⟨e0, e1, e2, e3⟩ := column_near (fdctTmp_le residual column) (fdctTmp_le residual column)
    (fdctTmp_le residual column) (fdctTmp_le residual column) (show fdctOut res i = _ from rfl) (show inverse4 _ _ _ _ = _ from rfl)
  rw [coeffs]
  interval_cases r
  · exact e0
  · exact e1
  · exact e2
  · exact e3

theorem rowSums_near (residual : IsResidual res) {r c : Nat} (row : r < 4) (column : c < 4) :
    |at16 (rowSums (fdct4x4 res) r) c - 8 * at16 res (r * 4 + c)| ≤ 19 := by
  have near (i : Nat) (inside : i < 4) := columnStores_near residual inside row
  obtain ⟨e0, e1, e2, e3⟩ := row_near (residual.at16_le (r * 4)) (residual.at16_le (r * 4 + 1))
    (residual.at16_le (r * 4 + 2)) (residual.at16_le (r * 4 + 3)) (show fdctTmp res r = _ from rfl)
    (near 0 (by decide)) (near 1 (by decide)) (near 2 (by decide)) (near 3 (by decide)) (show inverse4 _ _ _ _ = _ from rfl)
  interval_cases c
  · exact e0
  · exact e1
  · exact e2
  · exact e3

/-! ## No store wraps -/

theorem short_of_abs {v : Int} (small : |v| ≤ 32767) : Short v := by
  rw [abs_le] at small
  exact ⟨by omega, small.2⟩

theorem mem_four {l : List Int} (four : l.length = 4) {v : Int} (mem : v ∈ l) : ∃ j < 4, v = at16 l j := by
  obtain ⟨j, inside, rfl⟩ := List.getElem_of_mem mem
  exact ⟨j, by omega, by rw [at16, List.getD_eq_getElem _ _ inside]⟩

theorem fdct4x4_short (residual : IsResidual res) : ∀ v ∈ fdct4x4 res, Short v := by
  intro v mem
  have bound := fdct4x4_bound residual.1 mem
  have total : sad res ≤ 4080 := by
    rw [sad_rows residual.1]
    have row (r : Nat) : rowSad res r ≤ 1020 := by
      have := residual.at16_le (r * 4)
      have := residual.at16_le (r * 4 + 1)
      have := residual.at16_le (r * 4 + 2)
      have := residual.at16_le (r * 4 + 3)
      unfold rowSad
      omega
    have := row 0
    have := row 1
    have := row 2
    have := row 3
    omega
  unfold C at bound
  exact short_of_abs (by omega)

theorem columnStores_short (residual : IsResidual res) {i : Nat} (column : i < 4) :
    ∀ v ∈ columnStores (fdct4x4 res) i, Short v := by
  intro v mem
  obtain ⟨r, row, rfl⟩ := mem_four rfl mem
  have near := columnStores_near residual column row
  have small := fdctTmp_le residual (r := r) column
  rw [abs_le] at near small
  exact ⟨by omega, by omega⟩

theorem rowStores_short (residual : IsResidual res) {r : Nat} (row : r < 4) : ∀ v ∈ rowStores (fdct4x4 res) r, Short v := by
  intro v mem
  obtain ⟨w, sum, rfl⟩ := List.mem_map.mp mem
  obtain ⟨c, column, rfl⟩ := mem_four rfl sum
  have near := rowSums_near residual row column
  have small := residual.at16_le (r * 4 + c)
  rw [abs_le] at near small
  rw [Int.shiftRight_eq_div_pow]
  exact ⟨by omega, by omega⟩

/-! ## The decoder's transform without casts -/

theorem mulSin_eq {x : Int} (short : Short x) : mulSin x = some (sinMul x) := by
  unfold Short at short
  rw [mulSin, i32_eq (by omega) (by omega)]
  rfl

theorem mulCos_eq {x : Int} (short : Short x) : mulCos x = some (cosMul x) := by
  have near := cosMul_near x
  unfold Short at short
  rw [mulCos, i32_eq (v := x * 20091) (by omega) (by omega), Option.bind_eq_bind, Option.bind_some]
  exact i32_eq (v := cosMul x) (by omega) (by omega)

theorem dctButterfly_eq {a b c d : Int} (ha : Short a) (hb : Short b) (hc : Short c) (hd : Short d) :
    dctButterfly a b c d = some (inverse4 a b c d) := by
  have sb := sinMul_near b
  have sd := sinMul_near d
  have cb := cosMul_near b
  have cd := cosMul_near d
  rw [dctButterfly, mulSin_eq hb, mulSin_eq hd, mulCos_eq hb, mulCos_eq hd]
  unfold Short at ha hb hc hd
  rw [i32_eq (v := a + c) (by omega) (by omega), i32_eq (v := a - c) (by omega) (by omega)]
  simp only [Option.bind_eq_bind, Option.bind_some, i32_eq (v := sinMul b - cosMul d) (by omega) (by omega),
    i32_eq (v := cosMul b + sinMul d) (by omega) (by omega),
    i32_eq (v := a + c + (cosMul b + sinMul d)) (by omega) (by omega),
    i32_eq (v := a - c + (sinMul b - cosMul d)) (by omega) (by omega),
    i32_eq (v := a - c - (sinMul b - cosMul d)) (by omega) (by omega),
    i32_eq (v := a + c - (cosMul b + sinMul d)) (by omega) (by omega)]
  rfl

theorem toInt_ofInt {v : Int} (short : Short v) : (Int16.ofInt v).toInt = v :=
  Int16.toInt_ofInt_of_le short.1 (by have := short.2; omega)

theorem getElem?_stored {l : List Int} {i : Nat} (inside : i < l.length) :
    (l.map Int16.ofInt)[i]? = some (Int16.ofInt (at16 l i)) := by
  rw [List.getElem?_map, List.getElem?_eq_getElem inside, Option.map_some, at16, List.getD_eq_getElem _ _ inside]

theorem dctColumn_eq {coeffs : List Int} (length : coeffs.length = 16) (shorts : ∀ v ∈ coeffs, Short v) {i : Nat}
    (column : i < 4) : dctColumn (coeffs.map Int16.ofInt) i = some ((columnStores coeffs i).map Int16.ofInt) := by
  have short (j : Nat) (inside : j < 16) : Short (at16 coeffs j) := shorts _ (at16_mem (by omega))
  have s0 := short i (by omega)
  have s1 := short (4 + i) (by omega)
  have s2 := short (8 + i) (by omega)
  have s3 := short (12 + i) (by omega)
  simp only [dctColumn, getElem?_stored (show i < coeffs.length by omega), getElem?_stored (show 4 + i < coeffs.length by omega),
    getElem?_stored (show 8 + i < coeffs.length by omega), getElem?_stored (show 12 + i < coeffs.length by omega),
    Option.bind_eq_bind, Option.bind_some, toInt_ofInt s0, toInt_ofInt s1, toInt_ofInt s2, toInt_ofInt s3,
    dctButterfly_eq s0 s1 s2 s3]
  rfl

theorem getElem?_range_map {β : Type} (f : Nat → β) {n j : Nat} (inside : j < n) : ((List.range n).map f)[j]? = some (f j) := by
  rw [List.getElem?_map, List.getElem?_range inside, Option.map_some]

theorem mapM_stored {columns : Nat → List Int} {r : Nat} (tall : ∀ i < 4, r < (columns i).length) :
    (((List.range 4).map fun i => (columns i).map Int16.ofInt).mapM (·[r]?)) =
      some ((List.range 4).map fun i => Int16.ofInt (at16 (columns i) r)) := by
  have get (i : Nat) (inside : i < 4) := getElem?_stored (tall i inside)
  change [(columns 0).map Int16.ofInt, (columns 1).map Int16.ofInt, (columns 2).map Int16.ofInt,
    (columns 3).map Int16.ofInt].mapM (·[r]?) = _
  simp only [List.mapM_cons, List.mapM_nil, get 0 (by decide), get 1 (by decide), get 2 (by decide), get 3 (by decide)]
  rfl

theorem dctRow_eq {coeffs : List Int} {r : Nat} (row : r < 4) (columns : ∀ i < 4, ∀ v ∈ columnStores coeffs i, Short v)
    (rows : ∀ v ∈ rowStores coeffs r, Short v) :
    dctRow ((List.range 4).map fun i => (columnStores coeffs i).map Int16.ofInt) r = some (rowStores coeffs r) := by
  have short (i : Nat) (inside : i < 4) : Short (at16 (columnStores coeffs i) r) := columns i inside _ (at16_mem row)
  have get (i : Nat) (inside : i < 4) := getElem?_range_map (fun i => Int16.ofInt (at16 (columnStores coeffs i) r)) inside
  rw [dctRow, mapM_stored fun _ _ => row, Option.bind_eq_bind, Option.bind_some]
  simp only [get 0 (by decide), get 1 (by decide), get 2 (by decide), get 3 (by decide), Option.bind_eq_bind,
    Option.bind_some, toInt_ofInt (short 0 (by decide)), toInt_ofInt (short 1 (by decide)),
    toInt_ofInt (short 2 (by decide)), toInt_ofInt (short 3 (by decide)),
    dctButterfly_eq (short 0 (by decide)) (short 1 (by decide)) (short 2 (by decide)) (short 3 (by decide))]
  refine mapM_eq_some fun v sum => ?_
  have stored := rows _ (List.mem_map_of_mem sum)
  have bounds := stored
  rw [Int.shiftRight_eq_div_pow] at bounds
  unfold Short at bounds
  rw [i32_eq (by omega) (by omega), Option.bind_some]
  exact congrArg some (toInt_ofInt stored)

theorem idctRows_eq {coeffs : List Int} (length : coeffs.length = 16) (shorts : ∀ v ∈ coeffs, Short v)
    (columns : ∀ i < 4, ∀ v ∈ columnStores coeffs i, Short v) (rows : ∀ r < 4, ∀ v ∈ rowStores coeffs r, Short v) :
    idctRows (coeffs.map Int16.ofInt) = some ((List.range 4).map (rowStores coeffs)) := by
  rw [idctRows, mapM_eq_some fun i mem => dctColumn_eq length shorts (List.mem_range.mp mem), Option.bind_eq_bind,
    Option.bind_some]
  exact mapM_eq_some fun r mem => dctRow_eq (List.mem_range.mp mem) columns (rows r (List.mem_range.mp mem))

/-! ## The pixels -/

/-- A pixel with `v` added. -/
def raised (p : UInt8) (v : Int) : UInt8 := clamp255 (p.toNat + v)

theorem addPixels_eq {row : List UInt8} {o : List Int} (shorts : ∀ v ∈ o, Short v) :
    addPixels row o = some (List.zipWith raised row o) := by
  have each : ∀ x ∈ row.zip o, addPixel x.1 x.2 = some (raised x.1 x.2) := by
    rintro ⟨p, v⟩ mem
    have short := shorts v (List.of_mem_zip mem).2
    have := p.toNat_lt
    unfold Short at short
    change addPixel p v = some (raised p v)
    rw [addPixel, i32_eq (by omega) (by omega)]
    rfl
  rw [addPixels, mapM_eq_some each, List.map_zip_eq_zipWith]
  rfl

theorem addRow_eq {b : List UInt8} {pos : Nat} {o : List Int} (four : o.length = 4) (shorts : ∀ v ∈ o, Short v)
    (inside : pos + 4 ≤ b.length) :
    ∃ b', addRow pos o b = some ((), b') ∧ b'.length = b.length ∧
      (∀ c < 4, b'[pos + c]? = (b[pos + c]?).map (raised · (at16 o c))) ∧
      ∀ i, (∀ c < 4, i ≠ pos + c) → b'[i]? = b[i]? := by
  have long : (List.zipWith raised ((b.drop pos).take 4) o).length = 4 := by
    rw [List.length_zipWith, length_run inside, four]
    rfl
  refine ⟨patched b pos (List.zipWith raised ((b.drop pos).take 4) o), ?_, length_patched (by omega), ?_, ?_⟩
  · have row : slice pos 4 b = some ((b.drop pos).take 4, b) := by rw [slice, sliceOf_eq inside, Option.map_some]
    change (slice pos 4 b >>= fun r => ((liftM (addPixels r.1 o) : Edit UInt8 (List UInt8)) >>= splice pos) r.2) = _
    rw [row, Option.bind_eq_bind, Option.bind_some, addPixels_eq shorts]
    exact if_pos (show pos + (List.zipWith raised ((b.drop pos).take 4) o).length ≤ b.length by omega)
  · intro c column
    have added : o[c]? = some (at16 o c) := by
      rw [at16, List.getD_eq_getElem _ _ (by omega), List.getElem?_eq_getElem]
    rw [getElem?_patched (by omega), if_pos (by omega), Nat.add_sub_cancel_left, List.getElem?_zipWith, getElem?_run,
      if_pos column, added]
    cases b[pos + c]? <;> rfl
  · intro i outside
    rw [getElem?_patched (by omega), if_neg]
    rintro ⟨low, high⟩
    exact outside (i - pos) (by omega) (by omega)

theorem row_apart {pos stride r k c d : Nat} (wide : 4 ≤ stride) (before : r < k) (column : c < 4) (column' : d < 4) :
    pos + r * stride + c ≠ pos + k * stride + d := by
  have := Nat.mul_le_mul_right stride (Nat.succ_le_of_lt before)
  rw [Nat.succ_mul] at this
  omega

/-- The first `k` rows of `idct_add`. -/
def addRows (rows : List (List Int)) (pos stride k : Nat) : Edit UInt8 Unit :=
  loop (fun r _ => do addRow (pos + r * stride) (← rows[r]?)) k ()

theorem addRows_eq {rows : Nat → List Int} (four : ∀ r < 4, (rows r).length = 4) (shorts : ∀ r < 4, ∀ v ∈ rows r, Short v)
    {b : List UInt8} {pos stride : Nat} (wide : 4 ≤ stride) (inside : pos + 3 * stride + 4 ≤ b.length) {k : Nat} (le : k ≤ 4) :
    ∃ b', addRows ((List.range 4).map rows) pos stride k b = some ((), b') ∧
      b'.length = b.length ∧
      (∀ r < k, ∀ c < 4, b'[pos + r * stride + c]? = (b[pos + r * stride + c]?).map (raised · (at16 (rows r) c))) ∧
      ∀ i, (∀ r < k, ∀ c < 4, i ≠ pos + r * stride + c) → b'[i]? = b[i]? := by
  induction k with
  | zero => exact ⟨b, rfl, rfl, fun r lt => absurd lt (Nat.not_lt_zero r), fun _ _ => rfl⟩
  | succ k ih =>
    obtain ⟨b₁, ran, same, done, kept⟩ := ih (by omega)
    have room : k * stride ≤ 3 * stride := Nat.mul_le_mul_right stride (by omega)
    obtain ⟨b₂, ran', same', done', kept'⟩ := addRow_eq (four k le) (shorts k le)
      (show pos + k * stride + 4 ≤ b₁.length by omega)
    refine ⟨b₂, ?_, by omega, ?_, ?_⟩
    · have row : ((List.range 4).map rows)[k]? = some (rows k) := getElem?_range_map rows le
      change (addRows ((List.range 4).map rows) pos stride k b >>= fun r =>
        ((liftM ((List.range 4).map rows)[k]? : Edit UInt8 (List Int)) >>= addRow (pos + k * stride)) r.2) = _
      rw [ran, row]
      exact ran'
    · intro r lt c column
      rcases Nat.lt_succ_iff_lt_or_eq.mp lt with before | rfl
      · rw [kept' _ fun d column' => row_apart wide before column column', done r before c column]
      · rw [done' c column, kept _ fun q before d column' => (row_apart wide before column' column).symm]
    · intro i outside
      rw [kept' i (outside k (Nat.lt_succ_self k)), kept i fun r lt => outside r (Nat.lt_succ_of_lt lt)]

theorem raised_toNat (p : UInt8) (v : Int) : ((raised p v).toNat : Int) = max 0 (min (p.toNat + v) 255) := by
  rw [raised, clamp255, UInt8.toNat_ofNat']
  omega

theorem raised_near {v w : Int} (near : |v - w| ≤ 2) (p : UInt8) : |((raised p v).toNat : Int) - (raised p w).toNat| ≤ 2 := by
  rw [raised_toNat, raised_toNat]
  rw [abs_le] at *
  omega

theorem idctAdd_near (residual : IsResidual res) {b : List UInt8} {pos stride : Nat} (wide : 4 ≤ stride)
    (inside : pos + 3 * stride + 4 ≤ b.length) :
    ∃ b', idctAdd ((fdct4x4 res).map Int16.ofInt) pos stride b = some ((), b') ∧ ∀ r < 4, ∀ c < 4, ∃ p p',
      b[pos + r * stride + c]? = some p ∧ b'[pos + r * stride + c]? = some p' ∧
        |(p'.toNat : Int) - (raised p (at16 res (r * 4 + c))).toNat| ≤ 2 := by
  have rows := idctRows_eq (length_fdct4x4 res) (fdct4x4_short residual) (fun i => columnStores_short residual)
    fun r => rowStores_short residual
  obtain ⟨b', ran, -, done, -⟩ := addRows_eq (fun r _ => rfl) (fun r => rowStores_short residual) wide inside (Nat.le_refl 4)
  refine ⟨b', ?_, fun r row c column => ?_⟩
  · change ((liftM (idctRows ((fdct4x4 res).map Int16.ofInt)) : Edit UInt8 _) >>= fun rows => addRows rows pos stride 4) b = _
    rw [rows]
    exact ran
  · have room : r * stride ≤ 3 * stride := Nat.mul_le_mul_right stride (by omega)
    have there : b[pos + r * stride + c]? = some b[pos + r * stride + c] := List.getElem?_eq_getElem (by omega)
    refine ⟨b[pos + r * stride + c], _, there, by rw [done r row c column, there, Option.map_some], raised_near ?_ _⟩
    have near := rowSums_near residual row column
    have stored : at16 (rowStores (fdct4x4 res) r) c = (at16 (rowSums (fdct4x4 res) r) c + 4) >>> (3 : Nat) := by
      interval_cases c <;> rfl
    rw [stored, Int.shiftRight_eq_div_pow]
    rw [abs_le] at *
    omega

/-! ## The Walsh-Hadamard transform -/

/-- A column of the rounded coefficients comes back within 2 of twice its values. -/
theorem hadamard_near {e0 e1 e2 e3 w0 w1 w2 w3 : Int} (forward : hadamard e0 e1 e2 e3 = [w0, w1, w2, w3])
    {Y0 Y1 Y2 Y3 : Int}
    (inverse : hadamard (roundHalf w0) (roundHalf w1) (roundHalf w2) (roundHalf w3) = [Y0, Y1, Y2, Y3]) :
    |Y0 - 2 * e0| ≤ 2 ∧ |Y1 - 2 * e1| ≤ 2 ∧ |Y2 - 2 * e2| ≤ 2 ∧ |Y3 - 2 * e3| ≤ 2 := by
  simp only [hadamard, List.cons.injEq, and_true] at forward inverse
  obtain ⟨rfl, rfl, rfl, rfl⟩ := forward
  obtain ⟨rfl, rfl, rfl, rfl⟩ := inverse
  have n0 := roundHalf_near (e0 + e1 + e2 + e3)
  have n1 := roundHalf_near (e0 + e1 - e2 - e3)
  have n2 := roundHalf_near (e0 - e1 - e2 + e3)
  have n3 := roundHalf_near (e0 - e1 + e2 - e3)
  simp only [abs_le]
  omega

theorem hadamard_twice {d0 d1 d2 d3 e0 e1 e2 e3 : Int} (forward : hadamard d0 d1 d2 d3 = [e0, e1, e2, e3])
    {Y0 Y1 Y2 Y3 V0 V1 V2 V3 : Int} (h0 : |Y0 - 2 * e0| ≤ 2) (h1 : |Y1 - 2 * e1| ≤ 2) (h2 : |Y2 - 2 * e2| ≤ 2)
    (h3 : |Y3 - 2 * e3| ≤ 2) (inverse : hadamard Y0 Y1 Y2 Y3 = [V0, V1, V2, V3]) :
    |V0 - 8 * d0| ≤ 8 ∧ |V1 - 8 * d1| ≤ 8 ∧ |V2 - 8 * d2| ≤ 8 ∧ |V3 - 8 * d3| ≤ 8 := by
  simp only [hadamard, List.cons.injEq, and_true] at forward inverse
  obtain ⟨rfl, rfl, rfl, rfl⟩ := forward
  obtain ⟨rfl, rfl, rfl, rfl⟩ := inverse
  simp only [abs_le] at *
  omega

/-- What the inverse stores for column `c` between its passes. -/
def whtColumnStores (input : List Int) (c : Nat) : List Int :=
  hadamard (at16 input c) (at16 input (4 + c)) (at16 input (8 + c)) (at16 input (12 + c))

def whtRowSums (input : List Int) (r : Nat) : List Int :=
  hadamard (at16 (whtColumnStores input 0) r) (at16 (whtColumnStores input 1) r) (at16 (whtColumnStores input 2) r)
    (at16 (whtColumnStores input 3) r)

/-- What it stores for row `r` at the end. -/
def whtRowStores (input : List Int) (r : Nat) : List Int := (whtRowSums input r).map fun v : Int => (v + 3) >>> (3 : Nat)

/-- A row of the DCs, transformed. -/
def dcRow (dcs : List Int) (r : Nat) : List Int :=
  hadamard (at16 dcs (r * 4)) (at16 dcs (r * 4 + 1)) (at16 dcs (r * 4 + 2)) (at16 dcs (r * 4 + 3))

variable {dcs : List Int}

theorem fwhtRow_comm (dcs : List Int) {c : Nat} (column : c < 4) :
    hadamard (at16 (dcRow dcs 0) c) (at16 (dcRow dcs 1) c) (at16 (dcRow dcs 2) c) (at16 (dcRow dcs 3) c) =
      [at16 (fwhtRow dcs 0) c, at16 (fwhtRow dcs 1) c, at16 (fwhtRow dcs 2) c, at16 (fwhtRow dcs 3) c] := by
  interval_cases c
  all_goals
    simp only [hadamard, dcRow, fwhtRow, fwhtTmp, at16, List.getD_cons_zero, List.getD_cons_succ, List.cons.injEq, and_true,
      Nat.reduceMul, Nat.reduceAdd, Nat.zero_mul, Nat.zero_add, Nat.add_zero]
    omega

theorem whtColumnStores_near (dcs : List Int) {c r : Nat} (column : c < 4) (row : r < 4) :
    |at16 (whtColumnStores (fwht4x4 dcs) c) r - 2 * at16 (dcRow dcs r) c| ≤ 2 := by
  have rounded : whtColumnStores (fwht4x4 dcs) c = hadamard (roundHalf (at16 (fwhtRow dcs 0) c))
      (roundHalf (at16 (fwhtRow dcs 1) c)) (roundHalf (at16 (fwhtRow dcs 2) c)) (roundHalf (at16 (fwhtRow dcs 3) c)) := by
    interval_cases c <;> rfl
  obtain ⟨e0, e1, e2, e3⟩ := hadamard_near (fwhtRow_comm dcs column) (show hadamard _ _ _ _ = _ from rfl)
  rw [rounded]
  interval_cases r
  · exact e0
  · exact e1
  · exact e2
  · exact e3

theorem whtRowSums_near (dcs : List Int) {r c : Nat} (row : r < 4) (column : c < 4) :
    |at16 (whtRowSums (fwht4x4 dcs) r) c - 8 * at16 dcs (r * 4 + c)| ≤ 8 := by
  have near (i : Nat) (inside : i < 4) := whtColumnStores_near dcs inside row
  obtain ⟨e0, e1, e2, e3⟩ := hadamard_twice (show dcRow dcs r = _ from rfl) (near 0 (by decide)) (near 1 (by decide))
    (near 2 (by decide)) (near 3 (by decide)) (show hadamard _ _ _ _ = _ from rfl)
  interval_cases c
  · exact e0
  · exact e1
  · exact e2
  · exact e3

/-- What the DC of a block can be. -/
def AreDcs (dcs : List Int) : Prop := dcs.length = 16 ∧ ∀ d ∈ dcs, |d| ≤ 2040

theorem AreDcs.at16_le (known : AreDcs dcs) (i : Nat) : |at16 dcs i| ≤ 2040 := by
  by_cases inside : i < dcs.length
  · exact known.2 _ (at16_mem inside)
  · rw [at16, List.getD_eq_default _ _ (not_lt.mp inside)]
    decide

theorem dcRow_le (known : AreDcs dcs) {r c : Nat} (column : c < 4) : |at16 (dcRow dcs r) c| ≤ 8160 := by
  have h0 := known.at16_le (r * 4)
  have h1 := known.at16_le (r * 4 + 1)
  have h2 := known.at16_le (r * 4 + 2)
  have h3 := known.at16_le (r * 4 + 3)
  rw [abs_le] at *
  interval_cases c
  all_goals
    simp only [dcRow, hadamard, at16, List.getD_cons_zero, List.getD_cons_succ] at *
    omega

theorem fwht4x4_short (known : AreDcs dcs) : ∀ v ∈ fwht4x4 dcs, Short v := by
  intro v mem
  obtain ⟨k, inside, rfl⟩ := List.mem_map.mp mem
  have column : k % 4 < 4 := Nat.mod_lt k (by decide)
  have row : k / 4 < 4 := by have := List.mem_range.mp inside; omega
  have half := roundHalf_near (at16 (fwhtRow dcs (k / 4)) (k % 4))
  have both := fwhtRow_comm dcs column
  simp only [hadamard, List.cons.injEq, and_true] at both
  obtain ⟨w0, w1, w2, w3⟩ := both
  have h0 := dcRow_le (r := 0) known column
  have h1 := dcRow_le (r := 1) known column
  have h2 := dcRow_le (r := 2) known column
  have h3 := dcRow_le (r := 3) known column
  rw [abs_le] at h0 h1 h2 h3
  have bound : |at16 (fwhtRow dcs (k / 4)) (k % 4)| ≤ 32640 := by
    rw [abs_le]
    interval_cases k / 4 <;> omega
  rw [abs_le] at bound
  exact ⟨by omega, by omega⟩

theorem whtColumnStores_short (known : AreDcs dcs) {c : Nat} (column : c < 4) :
    ∀ v ∈ whtColumnStores (fwht4x4 dcs) c, Short v := by
  intro v mem
  obtain ⟨r, row, rfl⟩ := mem_four rfl mem
  have near := whtColumnStores_near dcs column row
  have small := dcRow_le (r := r) known column
  rw [abs_le] at near small
  exact ⟨by omega, by omega⟩

theorem whtRowStores_short (known : AreDcs dcs) {r : Nat} (row : r < 4) : ∀ v ∈ whtRowStores (fwht4x4 dcs) r, Short v := by
  intro v mem
  obtain ⟨w, sum, rfl⟩ := List.mem_map.mp mem
  obtain ⟨c, column, rfl⟩ := mem_four rfl sum
  have near := whtRowSums_near dcs row column
  have small := known.at16_le (r * 4 + c)
  rw [abs_le] at near small
  rw [Int.shiftRight_eq_div_pow]
  exact ⟨by omega, by omega⟩

theorem whtButterfly_eq {a b c d : Int} (ha : Short a) (hb : Short b) (hc : Short c) (hd : Short d) :
    whtButterfly a b c d = some (hadamard a b c d) := by
  unfold Short at ha hb hc hd
  rw [whtButterfly, i32_eq (v := a + d) (by omega) (by omega), i32_eq (v := b + c) (by omega) (by omega),
    i32_eq (v := b - c) (by omega) (by omega), i32_eq (v := a - d) (by omega) (by omega)]
  simp only [Option.bind_eq_bind, Option.bind_some, i32_eq (v := a + d + (b + c)) (by omega) (by omega),
    i32_eq (v := b - c + (a - d)) (by omega) (by omega), i32_eq (v := a + d - (b + c)) (by omega) (by omega),
    i32_eq (v := a - d - (b - c)) (by omega) (by omega)]
  refine congrArg some ?_
  simp only [hadamard, List.cons.injEq, and_true]
  omega

theorem whtColumn_eq {input : List Int} (length : input.length = 16) (shorts : ∀ v ∈ input, Short v) {c : Nat}
    (column : c < 4) : whtColumn (input.map Int16.ofInt) c = some ((whtColumnStores input c).map Int16.ofInt) := by
  have short (j : Nat) (inside : j < 16) : Short (at16 input j) := shorts _ (at16_mem (by omega))
  have s0 := short c (by omega)
  have s1 := short (4 + c) (by omega)
  have s2 := short (8 + c) (by omega)
  have s3 := short (12 + c) (by omega)
  simp only [whtColumn, getElem?_stored (show c < input.length by omega), getElem?_stored (show 4 + c < input.length by omega),
    getElem?_stored (show 8 + c < input.length by omega), getElem?_stored (show 12 + c < input.length by omega),
    Option.bind_eq_bind, Option.bind_some, toInt_ofInt s0, toInt_ofInt s1, toInt_ofInt s2, toInt_ofInt s3,
    whtButterfly_eq s0 s1 s2 s3]
  rfl

theorem whtRow_eq {input : List Int} {r : Nat} (row : r < 4) (columns : ∀ c < 4, ∀ v ∈ whtColumnStores input c, Short v)
    (rows : ∀ v ∈ whtRowStores input r, Short v) :
    whtRow ((List.range 4).map fun c => (whtColumnStores input c).map Int16.ofInt) r =
      some ((whtRowStores input r).map Int16.ofInt) := by
  have short (c : Nat) (inside : c < 4) : Short (at16 (whtColumnStores input c) r) := columns c inside _ (at16_mem row)
  have get (c : Nat) (inside : c < 4) := getElem?_range_map (fun c => Int16.ofInt (at16 (whtColumnStores input c) r)) inside
  rw [whtRow, mapM_stored fun _ _ => row, Option.bind_eq_bind, Option.bind_some]
  simp only [get 0 (by decide), get 1 (by decide), get 2 (by decide), get 3 (by decide), Option.bind_eq_bind,
    Option.bind_some, toInt_ofInt (short 0 (by decide)), toInt_ofInt (short 1 (by decide)),
    toInt_ofInt (short 2 (by decide)), toInt_ofInt (short 3 (by decide)),
    whtButterfly_eq (short 0 (by decide)) (short 1 (by decide)) (short 2 (by decide)) (short 3 (by decide))]
  rw [whtRowStores, List.map_map]
  refine mapM_eq_some fun v sum => ?_
  have bounds := rows _ (List.mem_map_of_mem sum)
  rw [Int.shiftRight_eq_div_pow] at bounds
  unfold Short at bounds
  rw [i32_eq (by omega) (by omega), Option.bind_some]
  rfl

theorem inverseWht_near (known : AreDcs dcs) : ∃ out, inverseWht ((fwht4x4 dcs).map Int16.ofInt) = some out ∧
    ∀ i < 16, ∃ d, out[i]? = some d ∧ |d.toInt - at16 dcs i| ≤ 1 := by
  have length : (fwht4x4 dcs).length = 16 := by rw [fwht4x4, List.length_map, List.length_range]
  refine ⟨((List.range 4).map fun r => (whtRowStores (fwht4x4 dcs) r).map Int16.ofInt).flatten, ?_, fun i inside => ?_⟩
  · rw [inverseWht, mapM_eq_some fun c mem => whtColumn_eq length (fwht4x4_short known) (List.mem_range.mp mem),
      Option.bind_eq_bind, Option.bind_some, mapM_eq_some fun r mem => whtRow_eq (List.mem_range.mp mem)
        (fun c => whtColumnStores_short known) (whtRowStores_short known (List.mem_range.mp mem)), Option.bind_some]
    rfl
  · obtain ⟨r, c, row, column, rfl⟩ : ∃ r c, r < 4 ∧ c < 4 ∧ i = r * 4 + c := ⟨i / 4, i % 4, by omega, by omega, by omega⟩
    refine ⟨Int16.ofInt (at16 (whtRowStores (fwht4x4 dcs) r) c), ?_, ?_⟩
    · interval_cases r <;> interval_cases c <;> rfl
    · rw [toInt_ofInt (whtRowStores_short known row _ (at16_mem column))]
      have near := whtRowSums_near dcs row column
      have stored : at16 (whtRowStores (fwht4x4 dcs) r) c = (at16 (whtRowSums (fwht4x4 dcs) r) c + 3) >>> (3 : Nat) := by
        interval_cases c <;> rfl
      rw [stored, Int.shiftRight_eq_div_pow]
      rw [abs_le] at *
      omega

/-! ## Both transforms -/

theorem lumaDc_le (residual : IsResidual res) (acStep acBias : Int) : |at16 (lumaCoeffs res acStep acBias) 0| ≤ 2040 := by
  have dc : at16 (lumaCoeffs res acStep acBias) 0 = roundHalf res.sum := by
    rw [lumaCoeffs]
    split
    · rfl
    · exact fdct4x4_dc residual.1
  have each (i : Nat) := abs_le.mp (residual.at16_le i)
  have sum : |res.sum| ≤ 4080 := by
    rw [sum_rows residual.1, abs_le]
    have := each 0
    have := each 1
    have := each 2
    have := each 3
    have := each 4
    have := each 5
    have := each 6
    have := each 7
    have := each 8
    have := each 9
    have := each 10
    have := each 11
    have := each 12
    have := each 13
    have := each 14
    have := each 15
    constructor <;> linarith
  rw [dc, abs_roundHalf]
  omega

/-- The DCs that the luma path hands to the Y2 transform. -/
def lumaDcs (blocks : List (List Int)) (acStep acBias : Int) : List Int :=
  blocks.map fun res => at16 (lumaCoeffs res acStep acBias) 0

theorem areDcs_luma {blocks : List (List Int)} (sixteen : blocks.length = 16) (residuals : ∀ res ∈ blocks, IsResidual res)
    (acStep acBias : Int) : AreDcs (lumaDcs blocks acStep acBias) := by
  refine ⟨by rw [lumaDcs, List.length_map, sixteen], fun d mem => ?_⟩
  obtain ⟨res, inside, rfl⟩ := List.mem_map.mp mem
  exact lumaDc_le (residuals res inside) acStep acBias

/-- No store of the decoder wraps on what the encoder transformed, a residual comes back
within 2 of each pixel and a luma DC within 1. -/
theorem transforms_invert (residual : IsResidual res) {blocks : List (List Int)} (sixteen : blocks.length = 16)
    (residuals : ∀ res ∈ blocks, IsResidual res) (acStep acBias : Int) :
    ((∀ v ∈ fdct4x4 res, Short v) ∧ (∀ i < 4, ∀ v ∈ columnStores (fdct4x4 res) i, Short v) ∧
      (∀ r < 4, ∀ v ∈ rowStores (fdct4x4 res) r, Short v) ∧
      ∀ (b : List UInt8) (pos stride : Nat), 4 ≤ stride → pos + 3 * stride + 4 ≤ b.length →
        ∃ b', idctAdd ((fdct4x4 res).map Int16.ofInt) pos stride b = some ((), b') ∧ ∀ r < 4, ∀ c < 4, ∃ p p',
          b[pos + r * stride + c]? = some p ∧ b'[pos + r * stride + c]? = some p' ∧
            |(p'.toNat : Int) - (raised p (at16 res (r * 4 + c))).toNat| ≤ 2) ∧
    (∀ v ∈ fwht4x4 (lumaDcs blocks acStep acBias), Short v) ∧
      (∀ c < 4, ∀ v ∈ whtColumnStores (fwht4x4 (lumaDcs blocks acStep acBias)) c, Short v) ∧
      (∀ r < 4, ∀ v ∈ whtRowStores (fwht4x4 (lumaDcs blocks acStep acBias)) r, Short v) ∧
      ∃ out, inverseWht ((fwht4x4 (lumaDcs blocks acStep acBias)).map Int16.ofInt) = some out ∧ ∀ i < 16, ∃ d,
        out[i]? = some d ∧ |d.toInt - at16 (lumaDcs blocks acStep acBias) i| ≤ 1 := by
  have known := areDcs_luma sixteen residuals acStep acBias
  refine ⟨⟨fdct4x4_short residual, fun i => columnStores_short residual, fun r => rowStores_short residual, ?_⟩,
    fwht4x4_short known, fun c => whtColumnStores_short known, fun r => whtRowStores_short known, inverseWht_near known⟩
  exact fun b pos stride wide inside => idctAdd_near residual wide inside

/-- A residual that comes back 2 too low at its first pixel. -/
def farResidual : List Int := [-246, -77, 22, -122, 11, -134, 141, -190, 6, 91, 58, -80, -216, 105, -251, -43]

theorem farResidual_residual : IsResidual farResidual := ⟨by decide, by decide⟩

theorem transforms_invert_farResidual :
    ((∀ v ∈ fdct4x4 farResidual, Short v) ∧ (∀ i < 4, ∀ v ∈ columnStores (fdct4x4 farResidual) i, Short v) ∧
      (∀ r < 4, ∀ v ∈ rowStores (fdct4x4 farResidual) r, Short v) ∧
      ∀ (b : List UInt8) (pos stride : Nat), 4 ≤ stride → pos + 3 * stride + 4 ≤ b.length →
        ∃ b', idctAdd ((fdct4x4 farResidual).map Int16.ofInt) pos stride b = some ((), b') ∧ ∀ r < 4, ∀ c < 4, ∃ p p',
          b[pos + r * stride + c]? = some p ∧ b'[pos + r * stride + c]? = some p' ∧
            |(p'.toNat : Int) - (raised p (at16 farResidual (r * 4 + c))).toNat| ≤ 2) ∧
    (∀ v ∈ fwht4x4 (lumaDcs (List.replicate 16 farResidual) 8 112), Short v) ∧
      (∀ c < 4, ∀ v ∈ whtColumnStores (fwht4x4 (lumaDcs (List.replicate 16 farResidual) 8 112)) c, Short v) ∧
      (∀ r < 4, ∀ v ∈ whtRowStores (fwht4x4 (lumaDcs (List.replicate 16 farResidual) 8 112)) r, Short v) ∧
      ∃ out, inverseWht ((fwht4x4 (lumaDcs (List.replicate 16 farResidual) 8 112)).map Int16.ofInt) = some out ∧
        ∀ i < 16, ∃ d, out[i]? = some d ∧ |d.toInt - at16 (lumaDcs (List.replicate 16 farResidual) 8 112) i| ≤ 1 :=
  transforms_invert farResidual_residual (List.length_replicate ..)
    (fun _ mem => List.eq_of_mem_replicate mem ▸ farResidual_residual) 8 112

/-- Its first pixel comes back as 2 where prediction and residual make 4. -/
theorem farResidual_off_by_two :
    ¬∀ res, IsResidual res → ∀ b : List UInt8, b.length = 16 →
      ∃ b', idctAdd ((fdct4x4 res).map Int16.ofInt) 0 4 b = some ((), b') ∧ ∀ i < 16, ∃ p p',
        b[i]? = some p ∧ b'[i]? = some p' ∧ |(p'.toNat : Int) - (raised p (at16 res i)).toNat| ≤ 1 := by
  intro near
  obtain ⟨b', ran, pixels⟩ := near farResidual farResidual_residual (List.replicate 16 250) (List.length_replicate ..)
  obtain ⟨p, p', before, after, close⟩ := pixels 0 (by decide)
  have result : (idctAdd ((fdct4x4 farResidual).map Int16.ofInt) 0 4 (List.replicate 16 250)).map (fun r => r.2[0]?) =
      some (some 2) := by decide +kernel
  rw [ran, Option.map_some, after] at result
  cases before
  cases result
  revert close
  decide

end K2.Vp8
