import K2.Lib.EditPairs
import K2.Vp8.Motion

/-! # Motion compensation, pixel by pixel

What a block is predicted from is a plane without limits, filtered along its rows
and then along its columns in wide arithmetic. The 16-bit lanes give the same
pixel: they sum the positive and the negative taps apart, and where the negative
ones outweigh the others both give 0. -/

namespace K2.Vp8

open Checked Buffers Buffers.Edit

/-! ## The definition -/

/-- The pixel in column `x` of row `y`, edge pixels repeated without limit. -/
def Plane.extended (p : Plane) (x y : Int) : UInt8 :=
  p.data.getD ((max 0 (min y (p.h - 1))).toNat * p.w + (max 0 (min x (p.w - 1))).toNat) 0

/-- Six taps of a line around `i`. -/
def tapped (f : Filter) (line : Int → UInt8) (i : Int) : UInt8 :=
  clamp255 ((((List.range 6).map fun (k : Nat) => f.getD k 0 * (line (i + k - 2)).toNat).sum + 64) >>> (7 : Nat))

/-- One pass. A zero fraction leaves it out. -/
def pass (filters : List Filter) (frac : Nat) (line : Int → UInt8) (i : Int) : UInt8 :=
  if frac = 0 then line i else tapped (filters.getD frac []) line i

/-- Both passes over an image, at a fraction of a pixel each. -/
def resampled (filters : List Filter) (fx fy : Nat) (image : Int → Int → UInt8) (x y : Int) : UInt8 :=
  pass filters fy (fun r => pass filters fx (fun c => image c r) x) y

/-- The plane displaced by a vector in eighth pixels. -/
def Plane.displaced (p : Plane) (filters : List Filter) (mvx mvy x y : Int) : UInt8 :=
  resampled filters (mvx % 8).toNat (mvy % 8).toNat p.extended (x + mvx / 8) (y + mvy / 8)

/-! ## One pixel -/

/-- Taps of the signs the lanes rely on, small enough for 16 bits. -/
structure Split (bilinear : Bool) (f0 f1 f2 f3 f4 f5 : Int) : Prop where
  above : 0 ≤ f0 ∧ 0 ≤ f2 ∧ 0 ≤ f3 ∧ 0 ≤ f5 ∧ f0 + f2 + f3 + f5 ≤ 256
  below : f1 ≤ 0 ∧ f4 ≤ 0 ∧ -256 ≤ f1 + f4
  inner : bilinear = true → f0 = 0 ∧ f1 = 0 ∧ f4 = 0 ∧ f5 = 0 ∧ f2 + f3 ≤ 128

/-- Filters the lanes apply as they are. -/
structure Table (bilinear : Bool) (filters : List Filter) : Prop where
  eight : filters.length = 8
  split : ∀ f ∈ filters, ∃ f0 f1 f2 f3 f4 f5, f = [f0, f1, f2, f3, f4, f5] ∧ Split bilinear f0 f1 f2 f3 f4 f5

theorem sixtap_table : Table false sixtapFilters := by
  refine ⟨rfl, fun f mem => ?_⟩
  simp only [sixtapFilters, List.mem_cons, List.not_mem_nil, or_false] at mem
  rcases mem with h | h | h | h | h | h | h | h <;> rw [h] <;>
    exact ⟨_, _, _, _, _, _, rfl, by decide, by decide, by decide⟩

theorem bilinear_table : Table true bilinearFilters := by
  refine ⟨rfl, fun f mem => ?_⟩
  simp only [bilinearFilters, List.mem_cons, List.not_mem_nil, or_false] at mem
  rcases mem with h | h | h | h | h | h | h | h <;> rw [h] <;>
    exact ⟨_, _, _, _, _, _, rfl, by decide, by decide, by decide⟩

theorem asU16_eq {v : Int} (low : 0 ≤ v) (high : v < 65536) : asU16 v = v := Int.emod_eq_of_lt low high

theorem filterPixel_eq {bilinear : Bool} {f0 f1 f2 f3 f4 f5 : Int} (split : Split bilinear f0 f1 f2 f3 f4 f5)
    (t0 t1 t2 t3 t4 t5 : UInt8) :
    filterPixel bilinear [f0, f1, f2, f3, f4, f5] [t0, t1, t2, t3, t4, t5]
      = some (clamp255 ((f0 * t0.toNat + (f1 * t1.toNat + (f2 * t2.toNat + (f3 * t3.toNat + (f4 * t4.toNat
        + f5 * t5.toNat)))) + 64) >>> (7 : Nat))) := by
  obtain ⟨⟨g0, g2, g3, g5, above⟩, ⟨g1, g4, below⟩, inner⟩ := split
  have h0 := tap_le t0 g0
  have h1 := tap_le t1 (show 0 ≤ -f1 by omega)
  have h2 := tap_le t2 g2
  have h3 := tap_le t3 g3
  have h4 := tap_le t4 (show 0 ≤ -f4 by omega)
  have h5 := tap_le t5 g5
  simp only [filterPixel, Int.shiftRight_eq_div_pow]
  rw [asU16_eq g0 (by omega), asU16_eq (v := -f1) (by omega) (by omega), asU16_eq g2 (by omega),
    asU16_eq g3 (by omega), asU16_eq (v := -f4) (by omega) (by omega), asU16_eq g5 (by omega)]
  rw [Int.mul_neg] at h1 h4
  rw [Int.mul_neg, Int.mul_neg, Int.mul_comm f0, Int.mul_comm f1, Int.mul_comm f2, Int.mul_comm f3, Int.mul_comm f4,
    Int.mul_comm f5]
  cases bilinear with
  | true =>
      obtain ⟨rfl, rfl, rfl, rfl, small⟩ := inner rfl
      simp only [Int.mul_zero, if_true] at *
      generalize (t2.toNat : Int) * f2 = p2 at *
      generalize (t3.toNat : Int) * f3 = p3 at *
      rw [u16_eq (by omega) (by omega)]
      simp only [Option.bind_eq_bind, Option.bind_some, Option.pure_def, clamp255]
      congr 3
      omega
  | false =>
      generalize (t0.toNat : Int) * f0 = p0 at *
      generalize (t1.toNat : Int) * f1 = p1 at *
      generalize (t2.toNat : Int) * f2 = p2 at *
      generalize (t3.toNat : Int) * f3 = p3 at *
      generalize (t4.toNat : Int) * f4 = p4 at *
      generalize (t5.toNat : Int) * f5 = p5 at *
      simp only [Bool.false_eq_true, if_false, u16_eq (v := p0 + p2 + p3 + p5) (by omega) (by omega),
        u16_eq (v := -p1 + -p4) (by omega) (by omega),
        u16_eq (v := max 0 (p0 + p2 + p3 + p5 - (-p1 + -p4)) + 64) (by omega) (by omega), Option.bind_eq_bind,
        Option.bind_some, Option.pure_def, clamp255]
      congr 3
      omega

/-! ## One row -/

theorem sliceOf_getD {l : List UInt8} {a k : Nat} (inside : a + k ≤ l.length) :
    sliceOf l a k = some ((List.range k).map fun c => l.getD (a + c) 0) := by
  rw [sliceOf_eq inside]
  congr 1
  refine List.ext_getElem? fun c => ?_
  rw [getElem?_run]
  split
  next below =>
    rw [List.getElem?_map, List.getElem?_range below, Option.map_some, List.getD_eq_getElem?_getD,
      List.getElem?_eq_getElem (by omega), Option.getD_some]
  next => rw [List.getElem?_eq_none (by rw [List.length_map, List.length_range]; omega)]

theorem filterRow_eq {n : Nat} {bilinear : Bool} {filters : List Filter} (table : Table bilinear filters) {frac : Nat}
    (small : frac < 8) {t : Nat → Nat → UInt8} {l : Nat → Int → UInt8} {a : Nat → Int}
    (taps : ∀ k < 6, ∀ c < n, t k c = l c (a c + k - 2)) :
    filterRow n bilinear ((List.range 6).map fun k => (List.range n).map (t k)) (filters.getD frac [])
      = some ((List.range n).map fun c => tapped (filters.getD frac []) (l c) (a c)) := by
  have inside : frac < filters.length := by rw [table.eight]; exact small
  have entry : filters.getD frac [] ∈ filters := by
    rw [List.getD_eq_getElem?_getD, List.getElem?_eq_getElem inside]
    exact List.getElem_mem inside
  obtain ⟨f0, f1, f2, f3, f4, f5, same, split⟩ := table.split _ entry
  rw [same]
  refine mapM_eq_some fun c mem => ?_
  have below := List.mem_range.mp mem
  have column : ((List.range 6).map fun k => (List.range n).map (t k)).mapM (·[c]?)
      = some ((List.range 6).map fun k => t k c) := by
    rw [List.mapM_map]
    refine mapM_eq_some fun k _ => ?_
    show ((List.range n).map (t k))[c]? = _
    rw [List.getElem?_map, List.getElem?_range below, Option.map_some]
  have six : (List.range 6).map (fun k => t k c) = [t 0 c, t 1 c, t 2 c, t 3 c, t 4 c, t 5 c] := rfl
  rw [column, Option.bind_eq_bind, Option.bind_some, six, filterPixel_eq split, taps 0 (by decide) c below, taps 1 (by decide) c below,
    taps 2 (by decide) c below,
    taps 3 (by decide) c below, taps 4 (by decide) c below, taps 5 (by decide) c below]
  simp only [tapped, show List.range 6 = [0, 1, 2, 3, 4, 5] from rfl, List.map_cons, List.map_nil, List.sum_cons,
    List.sum_nil, Int.add_zero]
  rfl

theorem hTaps_eq {src : List UInt8} {p n : Nat} (low : 2 ≤ p) (high : p + n + 3 ≤ src.length) :
    hTaps src p n
      = some ((List.range 6).map fun k => (List.range n).map fun c => src.getD (p - 2 + k + c) 0) := by
  have room : p - 2 + (n + 5) ≤ src.length := by omega
  unfold hTaps
  simp only [sub_eq low, sliceOf_eq room, Option.bind_eq_bind, Option.bind_some]
  refine mapM_eq_some fun k mem => ?_
  have := List.mem_range.mp mem
  rw [sliceOf_run room (by omega), sliceOf_getD (by omega)]

theorem vTaps_eq {src : List UInt8} {p stride n : Nat} (low : 2 * stride ≤ p)
    (high : p + 3 * stride + n ≤ src.length) :
    vTaps src p stride n
      = some ((List.range 6).map fun k => (List.range n).map fun c => src.getD (p - 2 * stride + k * stride + c) 0) := by
  have room : p - 2 * stride + (5 * stride + n) ≤ src.length := by omega
  unfold vTaps
  simp only [sub_eq low, sliceOf_eq room, Option.bind_eq_bind, Option.bind_some]
  refine mapM_eq_some fun k mem => ?_
  have : k * stride ≤ 5 * stride := Nat.mul_le_mul_right _ (by have := List.mem_range.mp mem; omega)
  rw [sliceOf_run room (by omega), sliceOf_getD (by omega)]

/-! ## One block -/

/-- Around `origin` the source holds an image, two rows and pixels before the
    block to three after it. -/
structure Shows (src : List UInt8) (sstride origin n bh : Nat) (image : Int → Int → UInt8) : Prop where
  window : Window src.length sstride origin n bh
  there : ∀ r < bh + 5, ∀ c < n + 5,
    src.getD (origin - 2 * sstride - 2 + r * sstride + c) 0 = image ((c : Int) - 2) ((r : Int) - 2)

theorem getElem?_of_sizes {filters : List Filter} {frac : Nat} {bilinear : Bool} (table : Table bilinear filters)
    (small : frac < 8) : filters[frac]? = some (filters.getD frac []) := by
  rw [List.getD_eq_getElem?_getD, List.getElem?_eq_getElem (by rw [table.eight]; exact small), Option.getD_some]

section block

variable {src : List UInt8} {sstride origin n bh fx fy : Nat} {image : Int → Int → UInt8} {bilinear : Bool}
  {filters : List Filter} (showing : Shows src sstride origin n bh image) (table : Table bilinear filters)
  (hx : fx < 8) (hy : fy < 8)
include showing

/-- A pixel `c` columns and `r` rows into the window, however it is counted. -/
theorem Shows.at {i r c : Nat} (same : i + 2 * sstride + 2 = origin + r * sstride + c) (inside : r < bh + 5)
    (inside' : c < n + 5) : src.getD i 0 = image ((c : Int) - 2) ((r : Int) - 2) := by
  have low := showing.window.low
  rw [← showing.there r inside c inside']
  congr 1
  omega

include table

/-- A row of the block filtered along it, `r` rows below its second row above. -/
theorem horizontalRow_eq {p r : Nat} (place : p + 2 * sstride = origin + r * sstride) (inside : r < bh + 5)
    (hx : fx < 8) :
    (do filterRow n bilinear (← hTaps src p n) (filters.getD fx []))
      = some ((List.range n).map fun (c : Nat) => tapped (filters.getD fx []) (fun x => image x ((r : Int) - 2)) c) := by
  obtain ⟨low, high⟩ := showing.window
  have rows : r * sstride ≤ (bh + 4) * sstride := Nat.mul_le_mul_right _ (by omega)
  have split : (bh + 4) * sstride = (bh + 2) * sstride + 2 * sstride := by rw [← Nat.add_mul]
  rw [hTaps_eq (by omega) (by omega), Option.bind_eq_bind, Option.bind_some]
  refine filterRow_eq table hx (l := fun _ x => image x ((r : Int) - 2)) fun k below c small => ?_
  rw [showing.at (r := r) (c := k + c) (by omega) inside (by omega)]
  congr 1
  omega

theorem verticalRow_eq {r : Nat} (inside : r < bh) (hy : fy < 8) :
    (do filterRow n bilinear (← vTaps src (origin + r * sstride) sstride n) (filters.getD fy []))
      = some ((List.range n).map fun (c : Nat) => tapped (filters.getD fy []) (fun y => image c y) r) := by
  obtain ⟨low, high⟩ := showing.window
  have rows : (r + 3) * sstride ≤ (bh + 2) * sstride := Nat.mul_le_mul_right _ (by omega)
  rw [Nat.add_mul] at rows
  rw [vTaps_eq (by omega) (by omega), Option.bind_eq_bind, Option.bind_some]
  refine filterRow_eq table hy (l := fun c y => image c y) fun k below c small => ?_
  have down : (r + k) * sstride = r * sstride + k * sstride := Nat.add_mul ..
  rw [showing.at (r := r + k) (c := c + 2) (by omega) (by omega) (by omega)]
  congr 1
  omega

theorem straightRow_eq {r : Nat} (inside : r < bh) (hx : fx < 8) (hy : fy < 8) (straight : fx = 0 ∨ fy = 0) :
    straightRow n bilinear src sstride origin fx fy filters r
      = some ((List.range n).map fun (c : Nat) => resampled filters fx fy image c r) := by
  obtain ⟨low, high⟩ := showing.window
  have rows : (r + 3) * sstride ≤ (bh + 2) * sstride := Nat.mul_le_mul_right _ (by omega)
  have down : (r + 2) * sstride = r * sstride + 2 * sstride := Nat.add_mul ..
  rw [Nat.add_mul] at rows
  unfold straightRow resampled pass
  by_cases whole : fx = 0 ∧ fy = 0
  · obtain ⟨rfl, rfl⟩ := whole
    rw [if_pos ⟨rfl, rfl⟩, sliceOf_getD (by omega)]
    refine congrArg some (List.map_congr_left fun c mem => ?_)
    have := List.mem_range.mp mem
    show src.getD _ 0 = image c r
    rw [showing.at (r := r + 2) (c := c + 2) (by omega) (by omega) (by omega)]
    congr 1 <;> omega
  rw [if_neg whole]
  by_cases level : fy = 0
  · simp only [if_pos level, if_neg (show ¬fx = 0 by omega), getElem?_of_sizes table hx]
    have row := horizontalRow_eq showing table (p := origin + r * sstride) (r := r + 2) (by omega) (by omega) hx
    rw [show (((r + 2 : Nat) : Int) - 2) = r by omega] at row
    exact row
  · simp only [if_neg level, if_pos (straight.resolve_right level), getElem?_of_sizes table hy]
    exact verticalRow_eq showing table inside hy

theorem filterBlock_eq {dstPos dstStride : Nat} {dst : List UInt8} (few : n ≤ 16) (low : bh ≤ 16) (hx : fx < 8)
    (hy : fy < 8) (wide : n ≤ dstStride) (inside : ∀ r < bh, dstPos + r * dstStride + n ≤ dst.length) :
    ∃ dst', filterBlock n bilinear dstPos dstStride src sstride origin bh fx fy filters dst = some ((), dst')
      ∧ Grid.Written dstPos dstStride n bh (fun r c => resampled filters fx fy image c r) dst dst' := by
  unfold filterBlock
  by_cases straight : fx = 0 ∨ fy = 0
  · rw [if_pos straight]
    exact Grid.writeRows_eq wide (fun _ _ => rfl) (fun r below => straightRow_eq showing table below hx hy straight) inside
  rw [if_neg straight]
  have room : ∀ r < bh + 5, 0 + r * n + n ≤ (List.replicate (16 * 21) (0 : UInt8)).length := by
    intro r below
    have : (r + 1) * n ≤ 21 * 16 := Nat.mul_le_mul (by omega) few
    rw [Nat.add_mul, Nat.one_mul] at this
    rw [List.length_replicate]
    omega
  have top := showing.window.low
  obtain ⟨tmp, ran, written⟩ := Grid.writeRows_eq (b := List.replicate (16 * 21) (0 : UInt8)) (p := fun r => r * n)
    (l := fun r (c : Nat) => tapped (filters.getD fx []) (fun x => image x ((r : Int) - 2)) c) le_rfl
    (fun r _ => (Nat.zero_add _).symm)
    (fun r below => horizontalRow_eq showing table (p := origin - 2 * sstride + r * sstride) (by omega) below hx) room
  have first : firstPass n bilinear src sstride origin bh (filters.getD fx []) = some tmp := by
    unfold firstPass
    rw [sub_eq (by omega), Option.bind_eq_bind, Option.bind_some, ran]
    rfl
  rw [getElem?_of_sizes table hx, getElem?_of_sizes table hy]
  simp only [lift_some_bind, first]
  refine Grid.writeRows_eq wide (fun _ _ => rfl) (fun r below => ?_) inside
  have length : tmp.length = 336 := by rw [written.length, List.length_replicate]
  have rows : (r + 6) * n ≤ 21 * 16 := Nat.mul_le_mul (by omega) few
  have down : (r + 2) * n = r * n + 2 * n := Nat.add_mul ..
  rw [Nat.add_mul] at rows
  rw [vTaps_eq (by omega) (by omega), Option.bind_eq_bind, Option.bind_some]
  refine (filterRow_eq (a := fun _ => r) table hy
    (l := fun c y => tapped (filters.getD fx []) (fun x => image x y) c) fun k below' c small => ?_).trans ?_
  · have there := written.there (r + k) (by omega) c small
    have place : (r + k) * n = r * n + k * n := Nat.add_mul ..
    rw [List.getD_eq_getElem?_getD, show (r + 2) * n - 2 * n + k * n + c = 0 + (r + k) * n + c by omega, there,
      Option.getD_some]
    rfl
  · refine congrArg some (List.map_congr_left fun c _ => ?_)
    unfold resampled pass
    rw [if_neg (fun zero => straight (Or.inr zero))]
    simp only [if_neg (show ¬fx = 0 from fun zero => straight (Or.inl zero))]

end block

/-! ## The window -/

/-- A plane as large as it says, of a size that fits the code's integers. -/
structure Plane.Whole (p : Plane) : Prop where
  length : p.data.length = p.h * p.w
  wide : 0 < p.w ∧ p.w < 2147483648
  high : 0 < p.h ∧ p.h < 2147483648

theorem tapped_shift (f : Filter) (line : Int → UInt8) (a i : Int) :
    tapped f (fun c => line (a + c)) i = tapped f line (a + i) := by
  unfold tapped
  congr 4
  refine List.map_congr_left fun k _ => ?_
  show f.getD k 0 * ((line (a + (i + k - 2))).toNat : Int) = _
  rw [show a + (i + (k : Int) - 2) = a + i + k - 2 by omega]

theorem resampled_shift (filters : List Filter) (fx fy : Nat) (image : Int → Int → UInt8) (a b x y : Int) :
    resampled filters fx fy (fun c r => image (a + c) (b + r)) x y = resampled filters fx fy image (a + x) (b + y) := by
  unfold resampled pass
  by_cases across : fx = 0 <;> by_cases down : fy = 0
  · simp only [if_pos across, if_pos down]
  · simp only [if_pos across, if_neg down]
    exact tapped_shift _ (fun r => image (a + x) r) b y
  · simp only [if_neg across, if_pos down]
    exact tapped_shift _ (fun c => image c (b + y)) a x
  · have row (r : Int) : tapped (filters.getD fx []) (fun c => image (a + c) (b + r)) x
        = tapped (filters.getD fx []) (fun c => image c (b + r)) (a + x) :=
      tapped_shift _ (fun c => image c (b + r)) a x
    simp only [if_neg across, if_neg down, row]
    exact tapped_shift _ (fun r => tapped _ (fun c => image c r) (a + x)) b y

theorem extended_inside {p : Plane} {x y : Nat} (across : x < p.w) (down : y < p.h) :
    p.extended x y = p.data.getD (y * p.w + x) 0 := by
  unfold Plane.extended
  congr 2
  · congr 1
    omega
  · omega

theorem shows_inside {p : Plane} {m : Motion} {n bh : Nat} (whole : p.Whole)
    (inside : m.ix ≥ 2 ∧ m.iy ≥ 2 ∧ m.ix.toNat + n + 3 ≤ p.w ∧ m.iy.toNat + bh + 3 ≤ p.h) :
    Shows p.data p.w (m.iy.toNat * p.w + m.ix.toNat) n bh fun c r => p.extended (m.ix + c) (m.iy + r) := by
  obtain ⟨left, top, right, under⟩ := inside
  have rows : 2 * p.w ≤ m.iy.toNat * p.w := Nat.mul_le_mul_right _ (by omega)
  have finish : (m.iy.toNat + (bh + 2)) * p.w + m.ix.toNat + (n + 3) ≤ p.h * p.w := Grid.run_end_le (by omega) (by omega)
  rw [Nat.add_mul] at finish
  refine ⟨⟨by omega, by rw [whole.length]; omega⟩, fun r below c small => ?_⟩
  have place : (m.iy.toNat - 2 + r) * p.w + 2 * p.w = m.iy.toNat * p.w + r * p.w := by
    rw [← Nat.add_mul, ← Nat.add_mul]
    congr 1
    omega
  have x : m.ix + ((c : Int) - 2) = ((m.ix.toNat - 2 + c : Nat) : Int) := by omega
  have y : m.iy + ((r : Int) - 2) = ((m.iy.toNat - 2 + r : Nat) : Int) := by omega
  rw [x, y, extended_inside (by omega) (by omega)]
  congr 1
  omega

/-- Source positions whose neighbours are no further than the code's integers. -/
def Near (v : Int) : Prop := -2147483600 ≤ v ∧ v ≤ 2147483600

theorem windowRow_eq {p : Plane} (whole : p.Whole) {m : Motion} {ew r : Nat} (across : Near m.ix) (down : Near m.iy)
    (few : ew ≤ 21) (low : r ≤ 21) :
    windowRow p m ew r
      = some ((List.range ew).map fun (c : Nat) => p.extended (m.ix + ((c : Int) - 2)) (m.iy + ((r : Int) - 2))) := by
  obtain ⟨length, ⟨w0, w1⟩, h0, h1⟩ := whole
  unfold Near at across down
  unfold windowRow
  rw [asI32_eq (by omega), asI32_eq (by omega)]
  simp only [i32_eq (v := (p.w : Int) - 1) (by omega) (by omega), i32_eq (v := (p.h : Int) - 1) (by omega) (by omega),
    i32_eq (v := m.iy - 2) (by omega) (by omega), i32_eq (v := m.iy - 2 + r) (by omega) (by omega),
    clamp_eq (m.iy - 2 + r) (show 0 ≤ (p.h : Int) - 1 by omega), Option.bind_eq_bind, Option.bind_some]
  refine mapM_eq_some fun c mem => ?_
  have below := List.mem_range.mp mem
  simp only [i32_eq (v := m.ix - 2) (by omega) (by omega), i32_eq (v := m.ix - 2 + c) (by omega) (by omega),
    clamp_eq (m.ix - 2 + c) (show 0 ≤ (p.w : Int) - 1 by omega), Option.bind_some]
  have inside : (max 0 (min (m.iy - 2 + r) ((p.h : Int) - 1))).toNat * p.w
      + (max 0 (min (m.ix - 2 + c) ((p.w : Int) - 1))).toNat + 1 ≤ p.h * p.w :=
    Grid.run_end_le (n := 1) (by omega) (by omega)
  unfold Plane.extended
  rw [show m.ix + ((c : Int) - 2) = m.ix - 2 + c by omega, show m.iy + ((r : Int) - 2) = m.iy - 2 + r by omega,
    List.getD_eq_getElem?_getD, List.getElem?_eq_getElem (by rw [length]; omega), Option.getD_some]

section predicted

variable {p : Plane} {m : Motion} {n bh dstPos dstStride : Nat} {filters : List Filter} {bilinear : Bool}
  {dst : List UInt8}

theorem predictN_eq (whole : p.Whole) (table : Table bilinear filters) (across : Near m.ix) (down : Near m.iy)
    (few : n ≤ 16) (low : bh ≤ 16) (hx : m.fx < 8) (hy : m.fy < 8) (wide : n ≤ dstStride)
    (inside : ∀ r < bh, dstPos + r * dstStride + n ≤ dst.length) :
    ∃ dst', predictN n bilinear dstPos dstStride p m bh filters dst = some ((), dst')
      ∧ Grid.Written dstPos dstStride n bh
        (fun r c => resampled filters m.fx m.fy (fun c r => p.extended (m.ix + c) (m.iy + r)) c r) dst dst' := by
  unfold predictN
  split
  next inRange => exact filterBlock_eq (shows_inside whole inRange) table few low hx hy wide inside
  next =>
    have room : ∀ r < bh + 5, 0 + r * (n + 5) + (n + 5) ≤ (List.replicate (21 * 21) (0 : UInt8)).length := by
      intro r below
      have : (r + 1) * (n + 5) ≤ 21 * 21 := Nat.mul_le_mul (by omega) (by omega)
      rw [Nat.add_mul, Nat.one_mul] at this
      rw [List.length_replicate]
      omega
    obtain ⟨emu, ran, written⟩ := Grid.writeRows_eq (b := List.replicate (21 * 21) (0 : UInt8))
      (p := fun r => r * (n + 5)) le_rfl (fun r _ => (Nat.zero_add _).symm)
      (fun r below => windowRow_eq (r := r) whole across down (show n + 5 ≤ 21 by omega) (by omega)) room
    have length : emu.length = 441 := by rw [written.length, List.length_replicate]
    have showing : Shows emu (n + 5) (2 * (n + 5) + 2) n bh fun c r => p.extended (m.ix + c) (m.iy + r) := by
      have finish : (bh + 5) * (n + 5) ≤ 21 * 21 := Nat.mul_le_mul (by omega) (by omega)
      rw [Nat.add_mul] at finish
      refine ⟨⟨le_rfl, ?_⟩, fun r below c small => ?_⟩
      · rw [length, Nat.add_mul]
        omega
      · rw [List.getD_eq_getElem?_getD,
          show 2 * (n + 5) + 2 - 2 * (n + 5) - 2 + r * (n + 5) + c = 0 + r * (n + 5) + c by omega,
          written.there r below c small, Option.getD_some]
    unfold predictNearEdge
    rw [ran]
    simp only [lift_some_bind]
    exact filterBlock_eq showing table few low hx hy wide inside

/-- A block is predicted from the displaced plane, pixel by pixel. -/
theorem interPredict_displaced {x y mvx mvy : Int} {bw : Nat} (whole : p.Whole)
    (table : filters = sixtapFilters ∧ bilinear = false ∨ filters = bilinearFilters ∧ bilinear = true)
    (block : x.natAbs ≤ 1073741824 ∧ y.natAbs ≤ 1073741824) (size : bw = 16 ∨ bw = 8 ∨ bw = 4) (low : bh ≤ 16)
    (vector : (-2147483648 ≤ mvx ∧ mvx ≤ 2147483647) ∧ -2147483648 ≤ mvy ∧ mvy ≤ 2147483647)
    (wide : bw ≤ dstStride) (inside : ∀ r < bh, dstPos + r * dstStride + bw ≤ dst.length) :
    ∃ dst', interPredict dstPos dstStride p x y bw bh mvx mvy filters bilinear dst = some ((), dst')
      ∧ Grid.Written dstPos dstStride bw bh (fun r c => p.displaced filters mvx mvy (x + c) (y + r)) dst dst' := by
  have known : Table bilinear filters := by
    rcases table with ⟨rfl, rfl⟩ | ⟨rfl, rfl⟩
    · exact sixtap_table
    · exact bilinear_table
  have shiftX : mvx >>> (3 : Nat) = mvx / 8 := by rw [Int.shiftRight_eq_div_pow]; rfl
  have shiftY : mvy >>> (3 : Nat) = mvy / 8 := by rw [Int.shiftRight_eq_div_pow]; rfl
  unfold interPredict
  rw [if_pos ⟨low, size⟩, shiftX, shiftY, i32_eq (by omega) (by omega), i32_eq (by omega) (by omega)]
  simp only [lift_some_bind]
  obtain ⟨dst', ran, written⟩ := predictN_eq
    (m := { ix := x + mvx / 8, iy := y + mvy / 8, fx := (mvx % 8).toNat, fy := (mvy % 8).toNat }) whole known
    ⟨by dsimp only; omega, by dsimp only; omega⟩ ⟨by dsimp only; omega, by dsimp only; omega⟩
    (show bw ≤ 16 by omega) low (by dsimp only; omega) (by dsimp only; omega) wide inside
  refine ⟨dst', ran, ?_⟩
  have same : (fun (r c : Nat) => p.displaced filters mvx mvy (x + c) (y + r)) = fun (r c : Nat) =>
      resampled filters (mvx % 8).toNat (mvy % 8).toNat
        (fun c r => p.extended (x + mvx / 8 + c) (y + mvy / 8 + r)) c r := by
    funext r c
    unfold Plane.displaced
    rw [resampled_shift filters _ _ p.extended (x + mvx / 8) (y + mvy / 8) c r,
      show x + (c : Int) + mvx / 8 = x + mvx / 8 + c by omega, show y + (r : Int) + mvy / 8 = y + mvy / 8 + r by omega]
  rw [same]
  exact written

end predicted

/-- A block over the right edge of a plane of five by three, between pixels both ways. -/
theorem interPredict_displaced_edge :
    ∃ dst', interPredict 0 4 ⟨[7, 90, 13, 201, 44, 5, 66, 250, 31, 0, 18, 77, 140, 9, 255], 5, 3⟩ 2 1 4 4 13 (-5) sixtapFilters false
        (List.replicate 16 0) = some ((), dst')
      ∧ Grid.Written 0 4 4 4
        (fun r c => Plane.displaced ⟨[7, 90, 13, 201, 44, 5, 66, 250, 31, 0, 18, 77, 140, 9, 255], 5, 3⟩ sixtapFilters 13 (-5)
          (2 + (c : Nat)) (1 + (r : Nat)))
        (List.replicate 16 0) dst' :=
  interPredict_displaced ⟨rfl, ⟨by decide, by decide⟩, by decide, by decide⟩ (Or.inl ⟨rfl, rfl⟩)
    ⟨by decide, by decide⟩ (Or.inr (Or.inr rfl)) (by decide) ⟨⟨by decide, by decide⟩, by decide, by decide⟩ le_rfl
    (by decide)

end K2.Vp8
