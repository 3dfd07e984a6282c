import K2.FrameRing.Layout
import K2.Lib.Checked
import Mathlib.Algebra.GroupWithZero.Nat
import Mathlib.Data.List.Range
import Mathlib.Algebra.BigOperators.Ring.List
import Mathlib.Algebra.Group.Action.Defs
import Mathlib.Algebra.Order.BigOperators.Group.List
import Mathlib.Algebra.Order.Ring.Nat

/-! # Scaling a frame into a slot

A frame larger than the ring's box is scaled down as it is written. Reads of the
frame are bounds checked, so that one outside ends in a panic; the writes go
through a raw pointer and are listed here as offsets and bytes, in their order. -/

namespace K2.FrameRing

/-- The largest side of a frame pushed. -/
def maxInputSide : Nat := 16384

/-- A frame as the caller hands it over. -/
structure Nv12Frame where
  y : List UInt8
  yStride : Nat
  uv : List UInt8
  uvStride : Nat
  width : Nat
  height : Nat
  rotation : Nat

def divCeil2 (n : Nat) : Nat := (n + 1) / 2

namespace Nv12Frame

/-- The bytes a plane of `rows` rows `stride` apart needs, the last of them `row`
    long; none on overflow. -/
def need (stride rows row : Nat) : Option Nat :=
  if u64Max < stride * (rows - 1) then none
  else if u64Max < stride * (rows - 1) + row then none
  else some (stride * (rows - 1) + row)

def tooShort (data : List UInt8) (stride rows row : Nat) : Bool :=
  match need stride rows row with
  | none => true
  | some n => data.length < n

def badSide (v : Nat) : Bool := !(1 ≤ v && v ≤ maxInputSide)

def planeError (data : List UInt8) (plane : String) (stride w h : Nat) : RingError :=
  .invalid ("a " ++ toString data.length ++ "-byte " ++ plane ++ " plane for " ++ toString w ++ "x" ++ toString h ++
    ", stride " ++ toString stride)

def validate (f : Nv12Frame) : Except RingError Unit :=
  if badSide f.width || badSide f.height then
    .error (.invalid ("a " ++ toString f.width ++ "x" ++ toString f.height ++ " frame"))
  else if !(f.rotation == 0 || f.rotation == 90 || f.rotation == 180 || f.rotation == 270) then
    .error (.invalid ("a rotation of " ++ toString f.rotation))
  else if f.yStride < f.width then
    .error (.invalid ("a Y stride of " ++ toString f.yStride ++ " for " ++ toString f.width ++ " pixels"))
  else if tooShort f.y f.yStride f.height f.width then .error (planeError f.y "Y" f.yStride f.width f.height)
  else if f.uvStride < 2 * divCeil2 f.width then
    .error (.invalid ("a UV stride of " ++ toString f.uvStride ++ " for " ++ toString f.width ++ " pixels"))
  else if tooShort f.uv f.uvStride (divCeil2 f.height) (2 * divCeil2 f.width) then
    .error (planeError f.uv "UV" f.uvStride f.width f.height)
  else .ok ()

end Nv12Frame

/-- Even, of a `u64` cut to a `u32`, and at least 2. -/
def even (v : Nat) : Nat := max (v % 2 ^ 32 / 2 * 2) 2

/-- The box, turned with the frame. -/
def turnedBox (width height boxW boxH : Nat) : Nat × Nat :=
  if decide (width > height) ≠ decide (boxW > boxH) ∧ width ≠ height ∧ boxW ≠ boxH then (boxH, boxW) else (boxW, boxH)

def fit (width height boxW boxH : Nat) : Nat × Nat :=
  let (bw, bh) := turnedBox width height boxW boxH
  if width ≤ bw ∧ height ≤ bh then (width, height)
  else if width * bh ≥ height * bw then (even bw, even (height * bw / width))
  else (even (width * bh / height), even bh)

/-- One plane: `cols` x `rows` samples of `channels` bytes, rows `stride` apart. -/
structure Src where
  data : List UInt8
  stride : Nat
  cols : Nat
  rows : Nat
  channels : Nat

namespace Src

/-- `&data[y * stride..]`, or a panic. -/
def rowFrom (src : Src) (y : Nat) : Option (List UInt8) :=
  if y * src.stride ≤ src.data.length then some (src.data.drop (y * src.stride)) else none

/-- `&data[y * stride..][..row]`. -/
def rowOf (src : Src) (y row : Nat) : Option (List UInt8) :=
  (src.rowFrom y).bind fun tail => if row ≤ tail.length then some (tail.take row) else none

/-- The samples of one channel in a box of rows and columns. -/
def samples (src : Src) (y0 y1 x0 x1 c : Nat) : Option (List UInt8) :=
  ((List.range' y0 (y1 - y0)).mapM fun y =>
    (src.rowFrom y).bind fun row => (List.range' x0 (x1 - x0)).mapM fun x => row[x * src.channels + c]?).map List.flatten

/-- The rounded mean, as a byte. -/
def average (sum n : Nat) : UInt8 := UInt8.ofNat ((sum + n / 2) / n)

def sum (samples : List UInt8) : Nat := (samples.map UInt8.toNat).sum

/-- Where the box of a destination index begins and ends. -/
def boxStart (len dlen d : Nat) : Nat := d * len / dlen

def boxEnd (len dlen d : Nat) : Nat := max ((d + 1) * len / dlen) (boxStart len dlen d + 1)

/-- The samples under a destination sample. -/
def covered (src : Src) (dcols drows dy dx c : Nat) : Option (List UInt8) :=
  src.samples (boxStart src.rows drows dy) (boxEnd src.rows drows dy) (boxStart src.cols dcols dx)
    (boxEnd src.cols dcols dx) c

def boxSize (src : Src) (dcols drows dy dx : Nat) : Nat :=
  (boxEnd src.rows drows dy - boxStart src.rows drows dy) * (boxEnd src.cols dcols dx - boxStart src.cols dcols dx)

def copied (src : Src) (dcols drows : Nat) : Option (List (Nat × UInt8)) :=
  ((List.range drows).mapM fun y =>
    (src.rowOf y (dcols * src.channels)).map fun source =>
      (List.range (dcols * src.channels)).zipWith (fun i b => (y * (dcols * src.channels) + i, b)) source).map List.flatten

def scaled (src : Src) (dcols drows : Nat) : Option (List (Nat × UInt8)) :=
  ((List.range drows).mapM fun dy =>
    ((List.range dcols).mapM fun dx =>
      (List.range src.channels).mapM fun c =>
        (src.covered dcols drows dy dx c).map fun samples =>
          ((dy * dcols + dx) * src.channels + c, average (sum samples) (src.boxSize dcols drows dy dx))).map
      List.flatten).map List.flatten

/-- The writes of one plane, or a panic. -/
def plane (src : Src) (dcols drows : Nat) : Option (List (Nat × UInt8)) :=
  if (dcols, drows) = (src.cols, src.rows) then src.copied dcols drows else src.scaled dcols drows

end Src

namespace Nv12Frame

def luma (f : Nv12Frame) : Src := ⟨f.y, f.yStride, f.width, f.height, 1⟩

def chroma (f : Nv12Frame) : Src := ⟨f.uv, f.uvStride, divCeil2 f.width, divCeil2 f.height, 2⟩

/-- The writes of a whole frame, the chroma plane behind the luma plane. -/
def writeNv12 (f : Nv12Frame) (dw dh : Nat) : Option (List (Nat × UInt8)) :=
  (f.luma.plane dw dh).bind fun luma =>
    (f.chroma.plane (divCeil2 dw) (divCeil2 dh)).map fun chroma =>
      luma ++ chroma.map fun write => (dw * dh + write.1, write.2)

end Nv12Frame

end K2.FrameRing

/-! ## Scaling stays inside its buffers

A valid frame's planes hold every row up to the last sample of the last, and every
box of samples lies within the rows and columns of its plane. The writes are the
offsets of the scaled frame in ascending order. -/

namespace K2.FrameRing

/-! ## The size -/

namespace Layout

variable {l : Layout}

theorem side_of_not_bad {v : Nat} (good : ¬badSide v = true) : 16 ≤ v ∧ v ≤ maxSide ∧ v % 2 = 0 := by
  simp only [badSide, Bool.or_eq_true, Bool.not_eq_true', not_or, Bool.not_eq_false, Bool.and_eq_true,
    decide_eq_true_eq, not_not] at good
  exact ⟨good.1.1, good.1.2, good.2⟩

theorem Valid.sides (valid : l.Valid) :
    (16 ≤ l.maxWidth ∧ l.maxWidth ≤ maxSide ∧ l.maxWidth % 2 = 0) ∧
      16 ≤ l.maxHeight ∧ l.maxHeight ≤ maxSide ∧ l.maxHeight % 2 = 0 := by
  unfold Valid validate at valid
  by_cases width : badSide l.maxWidth = true
  · rw [if_pos width] at valid
    cases valid
  · by_cases height : badSide l.maxHeight = true
    · rw [if_neg width, if_pos height] at valid
      cases valid
    · exact ⟨side_of_not_bad width, side_of_not_bad height⟩

end Layout

theorem even_le {v box : Nat} (within : v ≤ box) (two : 2 ≤ box) : even v ≤ box := by
  unfold even
  have cut : v % 2 ^ 32 ≤ v := Nat.mod_le ..
  omega

theorem even_pos (v : Nat) : 1 ≤ even v := by
  unfold even
  omega

theorem turnedBox_eq (width height boxW boxH : Nat) :
    turnedBox width height boxW boxH = (boxW, boxH) ∨ turnedBox width height boxW boxH = (boxH, boxW) := by
  unfold turnedBox
  split
  · exact .inr rfl
  · exact .inl rfl

theorem fit_le {width height boxW boxH : Nat} (w_pos : 1 ≤ width) (h_pos : 1 ≤ height) (boxW_two : 2 ≤ boxW)
    (boxH_two : 2 ≤ boxH) :
    (1 ≤ (fit width height boxW boxH).1 ∧ 1 ≤ (fit width height boxW boxH).2) ∧
      (fit width height boxW boxH).1 ≤ (turnedBox width height boxW boxH).1 ∧
      (fit width height boxW boxH).2 ≤ (turnedBox width height boxW boxH).2 := by
  have two : 2 ≤ (turnedBox width height boxW boxH).1 ∧ 2 ≤ (turnedBox width height boxW boxH).2 := by
    rcases turnedBox_eq width height boxW boxH with same | turned
    · rw [same]
      exact ⟨boxW_two, boxH_two⟩
    · rw [turned]
      exact ⟨boxH_two, boxW_two⟩
  unfold fit
  generalize turnedBox width height boxW boxH = box at *
  obtain ⟨bw, bh⟩ := box
  by_cases within : width ≤ bw ∧ height ≤ bh
  · simp only [if_pos within]
    exact ⟨⟨w_pos, h_pos⟩, within⟩
  · by_cases wide : width * bh ≥ height * bw
    · simp only [if_neg within, if_pos wide]
      exact ⟨⟨even_pos _, even_pos _⟩, even_le le_rfl two.1, even_le (Nat.div_le_of_le_mul wide) two.2⟩
    · simp only [if_neg within, if_neg wide]
      have narrow : width * bh ≤ height * bw := Nat.le_of_lt (Nat.lt_of_not_le wide)
      exact ⟨⟨even_pos _, even_pos _⟩, even_le (Nat.div_le_of_le_mul narrow) two.1, even_le le_rfl two.2⟩

theorem fits_fit {l : Layout} (valid : l.Valid) {width height : Nat} (w_pos : 1 ≤ width) (h_pos : 1 ≤ height) :
    (1 ≤ (fit width height l.maxWidth l.maxHeight).1 ∧ 1 ≤ (fit width height l.maxWidth l.maxHeight).2) ∧
      l.fits (fit width height l.maxWidth l.maxHeight).1 (fit width height l.maxWidth l.maxHeight).2 = true := by
  obtain ⟨⟨w_min, _⟩, h_min, _⟩ := valid.sides
  obtain ⟨positive, within⟩ := fit_le w_pos h_pos (show 2 ≤ l.maxWidth by omega) (show 2 ≤ l.maxHeight by omega)
  refine ⟨positive, ?_⟩
  simp only [Layout.fits, Bool.or_eq_true, Bool.and_eq_true, decide_eq_true_eq]
  rcases turnedBox_eq width height l.maxWidth l.maxHeight with same | turned
  · rw [same] at within
    exact .inl within
  · rw [turned] at within
    exact .inr within

/-! ## Boxes -/

namespace Src

section
variable {len dlen d : Nat}

theorem boxStart_lt (some_sample : 1 ≤ len) (inside : d < dlen) : boxStart len dlen d < len := by
  refine Nat.div_lt_of_lt_mul ?_
  exact Nat.mul_lt_mul_of_pos_right inside some_sample

theorem boxStart_lt_boxEnd : boxStart len dlen d < boxEnd len dlen d := Nat.le_max_right ..

theorem boxEnd_le (some_sample : 1 ≤ len) (inside : d < dlen) : boxEnd len dlen d ≤ len := by
  refine Nat.max_le.mpr ⟨?_, boxStart_lt some_sample inside⟩
  exact Nat.div_le_of_le_mul (Nat.mul_le_mul_right len inside)

theorem box_self (inside : d < len) : boxStart len len d = d ∧ boxEnd len len d = d + 1 := by
  have pos : 0 < len := by omega
  have start : boxStart len len d = d := Nat.mul_div_cancel d pos
  rw [boxEnd, start, Nat.mul_div_cancel _ pos]
  exact ⟨rfl, Nat.max_self _⟩

end

/-! ## Means -/

theorem exists_bounds {samples : List UInt8} (filled : samples ≠ []) :
    (∃ lo ∈ samples, lo.toNat * samples.length ≤ sum samples) ∧
      ∃ hi ∈ samples, sum samples ≤ hi.toNat * samples.length := by
  have scaled : (samples.map fun s => s.toNat * samples.length).sum = sum samples * samples.length :=
    List.sum_map_mul_right ..
  have constant : (samples.map fun _ => sum samples).sum = sum samples * samples.length := by
    rw [List.map_const', List.sum_replicate, smul_eq_mul, Nat.mul_comm]
  exact ⟨List.exists_le_of_sum_le filled _ _ (scaled.trans constant.symm).le,
    List.exists_le_of_sum_le filled _ _ (constant.trans scaled.symm).le⟩

theorem average_between {samples : List UInt8} (filled : samples ≠ []) :
    (∃ lo ∈ samples, lo ≤ average (sum samples) samples.length) ∧
      ∃ hi ∈ samples, average (sum samples) samples.length ≤ hi := by
  have pos : 0 < samples.length := List.length_pos_iff.mpr filled
  obtain ⟨⟨lo, lo_mem, low⟩, hi, hi_mem, high⟩ := exists_bounds filled
  have at_least : lo.toNat ≤ (sum samples + samples.length / 2) / samples.length := by
    refine (Nat.le_div_iff_mul_le pos).mpr ?_
    omega
  have at_most : (sum samples + samples.length / 2) / samples.length ≤ hi.toNat := by
    refine Nat.le_of_lt_succ ((Nat.div_lt_iff_lt_mul pos).mpr ?_)
    rw [Nat.succ_mul]
    omega
  have byte : (average (sum samples) samples.length).toNat = (sum samples + samples.length / 2) / samples.length :=
    Nat.mod_eq_of_lt (lt_of_le_of_lt at_most hi.toNat_lt)
  refine ⟨⟨lo, lo_mem, ?_⟩, hi, hi_mem, ?_⟩
  · rw [UInt8.le_iff_toNat_le, byte]
    exact at_least
  · rw [UInt8.le_iff_toNat_le, byte]
    exact at_most

/-! ## Reads -/

/-- A plane with at least one sample, all of whose rows are there. -/
structure Whole (src : Src) : Prop where
  cols : 1 ≤ src.cols
  rows : 1 ≤ src.rows
  bytes : src.stride * (src.rows - 1) + src.cols * src.channels ≤ src.data.length

def sampleAt (src : Src) (y x c : Nat) : UInt8 := src.data.getD (y * src.stride + (x * src.channels + c)) 0

section
variable {src : Src} (whole : src.Whole)
include whole

theorem Whole.row {y : Nat} (below : y < src.rows) :
    y * src.stride + src.cols * src.channels ≤ src.data.length := by
  have rows : y * src.stride ≤ src.stride * (src.rows - 1) := by
    rw [Nat.mul_comm]
    exact Nat.mul_le_mul_left _ (by omega)
  have bytes := whole.bytes
  omega

theorem Whole.rowFrom {y : Nat} (below : y < src.rows) :
    src.rowFrom y = some (src.data.drop (y * src.stride)) := by
  have row := whole.row below
  rw [Src.rowFrom, if_pos (by omega)]

theorem Whole.sample {y x c : Nat} (row : y < src.rows) (col : x < src.cols) (channel : c < src.channels) :
    (src.data.drop (y * src.stride))[x * src.channels + c]? = some (src.sampleAt y x c) := by
  have inside : x * src.channels + c < src.cols * src.channels :=
    calc x * src.channels + c < x * src.channels + src.channels := by omega
      _ = (x + 1) * src.channels := (Nat.succ_mul ..).symm
      _ ≤ src.cols * src.channels := Nat.mul_le_mul_right _ col
  have bytes := whole.row row
  rw [List.getElem?_drop, sampleAt, List.getD_eq_getElem?_getD, List.getElem?_eq_getElem (by omega), Option.getD_some]

theorem Whole.samples {y0 y1 x0 x1 c : Nat} (rows : y1 ≤ src.rows) (cols : x1 ≤ src.cols) (channel : c < src.channels) :
    src.samples y0 y1 x0 x1 c = some (((List.range' y0 (y1 - y0)).map fun y =>
      (List.range' x0 (x1 - x0)).map fun x => src.sampleAt y x c).flatten) := by
  have lines : ((List.range' y0 (y1 - y0)).mapM fun y => (src.rowFrom y).bind fun row =>
      (List.range' x0 (x1 - x0)).mapM fun x => row[x * src.channels + c]?) =
      some ((List.range' y0 (y1 - y0)).map fun y =>
        (List.range' x0 (x1 - x0)).map fun x => src.sampleAt y x c) := by
    refine Checked.mapM_eq_some fun y mem => ?_
    have row : y < src.rows := by
      have bounds := List.mem_range'_1.mp mem
      omega
    rw [whole.rowFrom row, Option.bind_some]
    refine Checked.mapM_eq_some fun x mem => ?_
    have col : x < src.cols := by
      have bounds := List.mem_range'_1.mp mem
      omega
    exact whole.sample row col channel
  rw [Src.samples, lines, Option.map_some]

end

/-! ## Writes -/

theorem range_blocks {n m : Nat} {f : Nat → List Nat} (block : ∀ y < n, f y = (List.range m).map (y * m + ·)) :
    ((List.range n).map f).flatten = List.range (n * m) := by
  induction n with
  | zero => simp
  | succ n ih =>
    rw [List.range_succ, List.map_append, List.flatten_append, ih fun y below => block y (by omega), List.map_singleton,
      List.flatten_singleton, block n (by omega), Nat.succ_mul, List.range_add]

theorem line_offsets (dcols channels dy : Nat) :
    ((List.range dcols).map fun dx => (List.range channels).map fun c => (dy * dcols + dx) * channels + c).flatten =
      (List.range (dcols * channels)).map (dy * (dcols * channels) + ·) := by
  have side_by_side : ((List.range dcols).map fun dx => (List.range channels).map fun c => dx * channels + c).flatten =
      List.range (dcols * channels) := range_blocks fun _ _ => rfl
  rw [← side_by_side, List.map_flatten, List.map_map]
  congr 2
  funext dx
  rw [Function.comp_apply, List.map_map]
  congr 1
  funext c
  rw [Function.comp_apply, Nat.add_mul, Nat.mul_assoc, Nat.add_assoc]

theorem plane_offsets (dcols drows channels : Nat) :
    ((List.range drows).map fun dy => (List.range (dcols * channels)).map (dy * (dcols * channels) + ·)).flatten =
      List.range (dcols * drows * channels) := by
  rw [range_blocks fun _ _ => rfl, Nat.mul_comm dcols drows, Nat.mul_assoc]

/-- Each destination byte is between two of the samples it covers. -/
def Averaged (src : Src) (dcols drows : Nat) (writes : List (Nat × UInt8)) : Prop :=
  ∀ dy < drows, ∀ dx < dcols, ∀ c < src.channels, ∃ samples, src.covered dcols drows dy dx c = some samples ∧
    ∃ b, ((dy * dcols + dx) * src.channels + c, b) ∈ writes ∧ (∃ lo ∈ samples, lo ≤ b) ∧ ∃ hi ∈ samples, b ≤ hi

/-- A plane of the destination is written once, in order. -/
structure Written (src : Src) (dcols drows : Nat) (writes : List (Nat × UInt8)) : Prop where
  once : writes.map Prod.fst = List.range (dcols * drows * src.channels)
  averaged : src.Averaged dcols drows writes

/-- The samples under a destination sample, each within the plane. -/
def box (src : Src) (dcols drows dy dx c : Nat) : List UInt8 :=
  ((List.range' (boxStart src.rows drows dy) (boxEnd src.rows drows dy - boxStart src.rows drows dy)).map fun y =>
    (List.range' (boxStart src.cols dcols dx) (boxEnd src.cols dcols dx - boxStart src.cols dcols dx)).map fun x =>
      src.sampleAt y x c).flatten

theorem length_box (src : Src) (dcols drows dy dx c : Nat) :
    (src.box dcols drows dy dx c).length = src.boxSize dcols drows dy dx := by
  rw [box, List.length_flatten, List.map_map]
  have each : List.length ∘ (fun y => (List.range' (boxStart src.cols dcols dx)
      (boxEnd src.cols dcols dx - boxStart src.cols dcols dx)).map fun x => src.sampleAt y x c) =
      fun _ => boxEnd src.cols dcols dx - boxStart src.cols dcols dx := by
    funext y
    rw [Function.comp_apply, List.length_map, List.length_range']
  rw [each, List.map_const', List.sum_replicate, List.length_range', smul_eq_mul, boxSize]

theorem box_ne_nil (src : Src) (dcols drows dy dx c : Nat) : src.box dcols drows dy dx c ≠ [] := by
  refine List.ne_nil_of_length_pos ?_
  rw [length_box, boxSize]
  exact Nat.mul_pos (Nat.sub_pos_of_lt boxStart_lt_boxEnd) (Nat.sub_pos_of_lt boxStart_lt_boxEnd)

section
variable {src : Src} (whole : src.Whole)
include whole

theorem Whole.covered {dcols drows dy dx c : Nat} (row : dy < drows) (col : dx < dcols) (channel : c < src.channels) :
    src.covered dcols drows dy dx c = some (src.box dcols drows dy dx c) :=
  whole.samples (boxEnd_le whole.rows row) (boxEnd_le whole.cols col) channel

theorem Whole.scaled (dcols drows : Nat) : ∃ writes, src.scaled dcols drows = some writes ∧ src.Written dcols drows writes := by
  let cell (dy dx c : Nat) : Nat × UInt8 :=
    ((dy * dcols + dx) * src.channels + c,
      average (sum (src.box dcols drows dy dx c)) (src.boxSize dcols drows dy dx))
  let line (dy : Nat) : List (Nat × UInt8) :=
    ((List.range dcols).map fun dx => (List.range src.channels).map (cell dy dx)).flatten
  have lines : src.scaled dcols drows = some ((List.range drows).map line).flatten := by
    unfold Src.scaled
    rw [Checked.mapM_eq_some (g := line) fun dy row => ?_, Option.map_some]
    rw [Checked.mapM_eq_some (g := fun dx => (List.range src.channels).map (cell dy dx)) fun dx col => ?_, Option.map_some]
    refine Checked.mapM_eq_some fun c channel => ?_
    rw [whole.covered (List.mem_range.mp row) (List.mem_range.mp col) (List.mem_range.mp channel), Option.map_some]
  refine ⟨_, lines, ?_, fun dy row dx col c channel => ⟨_, whole.covered row col channel, (cell dy dx c).2, ?_, ?_⟩⟩
  · rw [← plane_offsets, List.map_flatten, List.map_map]
    congr 2
    funext dy
    rw [Function.comp_apply, List.map_flatten, List.map_map, ← line_offsets]
    congr 2
    funext dx
    rw [Function.comp_apply, List.map_map]
    rfl
  · refine List.mem_flatten.mpr ⟨line dy, List.mem_map_of_mem (List.mem_range.mpr row), ?_⟩
    refine List.mem_flatten.mpr ⟨_, List.mem_map_of_mem (List.mem_range.mpr col), ?_⟩
    exact List.mem_map_of_mem (f := cell dy dx) (List.mem_range.mpr channel)
  · have between := average_between (src.box_ne_nil dcols drows dy dx c)
    rwa [length_box] at between

theorem Whole.rowOf {y : Nat} (below : y < src.rows) :
    src.rowOf y (src.cols * src.channels) =
      some ((List.range (src.cols * src.channels)).map fun i => src.data.getD (y * src.stride + i) 0) := by
  have row := whole.row below
  rw [Src.rowOf, whole.rowFrom below, Option.bind_some, if_pos (by rw [List.length_drop]; omega)]
  refine congrArg some (List.ext_getElem ?_ fun i left right => ?_)
  · rw [List.length_take, List.length_drop, List.length_map, List.length_range]
    omega
  · rw [List.length_map, List.length_range] at right
    rw [List.getElem_take, List.getElem_drop, List.getElem_map, List.getElem_range, List.getD_eq_getElem?_getD,
      List.getElem?_eq_getElem (by omega), Option.getD_some]

theorem Whole.copied : ∃ writes, src.copied src.cols src.rows = some writes ∧ src.Written src.cols src.rows writes := by
  let line (y : Nat) : List (Nat × UInt8) :=
    (List.range (src.cols * src.channels)).map fun i =>
      (y * (src.cols * src.channels) + i, src.data.getD (y * src.stride + i) 0)
  have lines : src.copied src.cols src.rows = some ((List.range src.rows).map line).flatten := by
    unfold Src.copied
    rw [Checked.mapM_eq_some (g := line) fun y row => ?_, Option.map_some]
    rw [whole.rowOf (List.mem_range.mp row), Option.map_some, List.zipWith_map_right, List.zipWith_self]
  refine ⟨_, lines, ?_, fun dy row dx col c channel => ⟨_, whole.covered row col channel, src.sampleAt dy dx c, ?_, ?_⟩⟩
  · rw [← plane_offsets, List.map_flatten, List.map_map]
    congr 2
    funext y
    rw [Function.comp_apply, List.map_map]
    rfl
  · have inside : dx * src.channels + c < src.cols * src.channels :=
      calc dx * src.channels + c < dx * src.channels + src.channels := by omega
        _ = (dx + 1) * src.channels := (Nat.succ_mul ..).symm
        _ ≤ src.cols * src.channels := Nat.mul_le_mul_right _ col
    refine List.mem_flatten.mpr ⟨line dy, List.mem_map_of_mem (List.mem_range.mpr row), ?_⟩
    refine List.mem_map.mpr ⟨dx * src.channels + c, List.mem_range.mpr inside, ?_⟩
    rw [Nat.add_mul, Nat.mul_assoc, Nat.add_assoc]
    rfl
  · have only : src.box src.cols src.rows dy dx c = [src.sampleAt dy dx c] := by
      rw [box, (box_self row).1, (box_self row).2, (box_self col).1, (box_self col).2, Nat.add_sub_cancel_left,
        Nat.add_sub_cancel_left]
      rfl
    rw [only]
    exact ⟨⟨_, List.mem_singleton_self _, UInt8.le_refl _⟩, _, List.mem_singleton_self _, UInt8.le_refl _⟩

theorem Whole.plane (dcols drows : Nat) : ∃ writes, src.plane dcols drows = some writes ∧ src.Written dcols drows writes := by
  unfold Src.plane
  by_cases same : (dcols, drows) = (src.cols, src.rows)
  · rw [if_pos same]
    cases same
    exact whole.copied
  · rw [if_neg same]
    exact whole.scaled dcols drows

end

end Src

/-! ## Whole frames -/

namespace Nv12Frame

variable {f : Nv12Frame}

theorem le_length_of_not_tooShort {data : List UInt8} {stride rows row : Nat}
    (enough : ¬tooShort data stride rows row = true) : stride * (rows - 1) + row ≤ data.length := by
  unfold tooShort need at enough
  split at enough
  · exact absurd rfl enough
  · rename_i n known
    split at known
    · cases known
    · split at known
      · cases known
      · cases known
        simpa using enough

theorem pos_of_not_badSide {v : Nat} (good : ¬badSide v = true) : 1 ≤ v := by
  simp only [badSide, Bool.not_eq_true', Bool.not_eq_false, Bool.and_eq_true, decide_eq_true_eq] at good
  exact good.1

theorem planes_of_validate (valid : f.validate = .ok ()) : f.luma.Whole ∧ f.chroma.Whole := by
  unfold validate at valid
  split at valid
  next => cases valid
  next sides =>
    split at valid
    next => cases valid
    next =>
      split at valid
      next => cases valid
      next =>
        split at valid
        next => cases valid
        next y_long =>
          split at valid
          next => cases valid
          next =>
            split at valid
            next => cases valid
            next uv_long =>
              rw [Bool.or_eq_true, not_or] at sides
              have width := pos_of_not_badSide sides.1
              have height := pos_of_not_badSide sides.2
              have y_bytes := le_length_of_not_tooShort y_long
              have uv_bytes := le_length_of_not_tooShort uv_long
              refine ⟨⟨width, height, ?_⟩, ⟨?_, ?_, ?_⟩⟩
              · simpa [luma] using y_bytes
              · show 1 ≤ divCeil2 f.width
                unfold divCeil2
                omega
              · show 1 ≤ divCeil2 f.height
                unfold divCeil2
                omega
              · show f.uvStride * (divCeil2 f.height - 1) + divCeil2 f.width * 2 ≤ f.uv.length
                rw [Nat.mul_comm (divCeil2 f.width)]
                exact uv_bytes

theorem sides_of_validate (valid : f.validate = .ok ()) : 1 ≤ f.width ∧ 1 ≤ f.height :=
  have planes := planes_of_validate valid
  ⟨planes.1.cols, planes.1.rows⟩

/-- What a frame scaled to `dw` x `dh` writes: every byte of the two planes once,
    each an average of the samples it covers. -/
structure Scaled (f : Nv12Frame) (dw dh : Nat) (writes : List (Nat × UInt8)) : Prop where
  once : writes.map Prod.fst = List.range (nv12Len dw dh)
  planes : ∃ luma chroma, writes = luma ++ chroma.map (fun write => (dw * dh + write.1, write.2)) ∧
    f.luma.Averaged dw dh luma ∧ f.chroma.Averaged (divCeil2 dw) (divCeil2 dh) chroma

theorem writeNv12_scaled (valid : f.validate = .ok ()) {dw dh : Nat} (small : Layout.nv12 dw dh ≤ u64Max) :
    ∃ writes, f.writeNv12 dw dh = some writes ∧ f.Scaled dw dh writes := by
  obtain ⟨luma_whole, chroma_whole⟩ := planes_of_validate valid
  obtain ⟨luma, luma_eq, luma_once, luma_averaged⟩ := luma_whole.plane dw dh
  obtain ⟨chroma, chroma_eq, chroma_once, chroma_averaged⟩ := chroma_whole.plane (divCeil2 dw) (divCeil2 dh)
  refine ⟨luma ++ chroma.map fun write => (dw * dh + write.1, write.2), ?_, ?_, luma, chroma, rfl, luma_averaged,
    chroma_averaged⟩
  · rw [writeNv12, luma_eq, Option.bind_some, chroma_eq, Option.map_some]
  · have shifted : (chroma.map fun write => (dw * dh + write.1, write.2)).map Prod.fst =
        (List.range (divCeil2 dw * divCeil2 dh * 2)).map (dw * dh + ·) := by
      have chroma_range : chroma.map Prod.fst = List.range (divCeil2 dw * divCeil2 dh * 2) := chroma_once
      rw [← chroma_range, List.map_map, List.map_map]
      rfl
    have luma_range : luma.map Prod.fst = List.range (dw * dh) := by
      rw [luma_once]
      exact congrArg List.range (Nat.mul_one _)
    have total : nv12Len dw dh = dw * dh + divCeil2 dw * divCeil2 dh * 2 := by
      have uncut : nv12Len dw dh = Layout.nv12 dw dh := Nat.min_eq_left small
      rw [uncut, Layout.nv12, Nat.mul_comm 2, Nat.mul_right_comm]
      rfl
    rw [List.map_append, luma_range, shifted, total, List.range_add]

end Nv12Frame

/-- A valid frame goes into a slot of a valid ring: its size fits the box one way
    round or the other and its bytes the slot, nothing outside the frame is read
    (no read panics), every byte of the scaled frame is written once, and each lies
    between two of the samples it covers. -/
theorem scaled_into_slot {f : Nv12Frame} {l : Layout} (valid : f.validate = .ok ()) (ring : l.Valid) :
    (1 ≤ (fit f.width f.height l.maxWidth l.maxHeight).1 ∧ 1 ≤ (fit f.width f.height l.maxWidth l.maxHeight).2) ∧
      l.fits (fit f.width f.height l.maxWidth l.maxHeight).1 (fit f.width f.height l.maxWidth l.maxHeight).2 = true ∧
      nv12Len (fit f.width f.height l.maxWidth l.maxHeight).1 (fit f.width f.height l.maxWidth l.maxHeight).2 ≤
        l.slotBytes ∧
      ∃ writes, f.writeNv12 (fit f.width f.height l.maxWidth l.maxHeight).1
          (fit f.width f.height l.maxWidth l.maxHeight).2 = some writes ∧
        f.Scaled (fit f.width f.height l.maxWidth l.maxHeight).1 (fit f.width f.height l.maxWidth l.maxHeight).2 writes := by
  obtain ⟨width, height⟩ := Nv12Frame.sides_of_validate valid
  obtain ⟨positive, fits⟩ := fits_fit ring width height
  have within := Layout.nv12Len_le_slotBytes fits
  have bounded := within.trans (Layout.slotBytes_le ring.bounds)
  refine ⟨positive, fits, within, Nv12Frame.writeNv12_scaled valid ?_⟩
  rcases Nat.le_total (Layout.nv12 _ _) u64Max with small | large
  · exact small
  · have cut : u64Max ≤ 25165824 := (Nat.le_min.mpr ⟨large, le_rfl⟩).trans bounded
    exact absurd cut (by decide)

/-- A ramp in padded rows, shown turned. -/
def slanted : Nv12Frame where
  y := (List.range 100).map UInt8.ofNat
  yStride := 25
  uv := (List.range 48).map UInt8.ofNat
  uvStride := 24
  width := 24
  height := 4
  rotation := 90

theorem slanted_scaled : ∃ writes, slanted.writeNv12 16 2 = some writes ∧ slanted.Scaled 16 2 writes :=
  (scaled_into_slot (f := slanted) (l := ⟨16, 16, 2, 0⟩) rfl rfl).2.2.2

end K2.FrameRing
