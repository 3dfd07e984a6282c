import K2.Vp8.Modes
import K2.Vp8.Predict

/-! # Inter prediction

A block is predicted from a reference plane by a displacement in eighth pixels,
with sub-pixel interpolation. Pixels outside the plane repeat its edge pixels. -/

namespace K2.Vp8

open Checked Buffers Buffers.Edit

/-- One plane of a frame. Its stride is its width. -/
structure Plane where
  data : List UInt8
  w : Nat
  h : Nat
  deriving Repr, DecidableEq

def Plane.new (w h : Nat) : Plane := { data := List.replicate (w * h) 0, w, h }

abbrev Filter := List Int

def sixtapFilters : List Filter :=
  [[0, 0, 128, 0, 0, 0],
   [0, -6, 123, 12, -1, 0],
   [2, -11, 108, 36, -8, 1],
   [0, -9, 93, 50, -6, 0],
   [3, -16, 77, 77, -16, 3],
   [0, -6, 50, 93, -9, 0],
   [1, -8, 36, 108, -11, 2],
   [0, -1, 12, 123, -6, 0]]

def bilinearFilters : List Filter :=
  [[0, 0, 128, 0, 0, 0],
   [0, 0, 112, 16, 0, 0],
   [0, 0, 96, 32, 0, 0],
   [0, 0, 80, 48, 0, 0],
   [0, 0, 64, 64, 0, 0],
   [0, 0, 48, 80, 0, 0],
   [0, 0, 32, 96, 0, 0],
   [0, 0, 16, 112, 0, 0]]

/-! ## One row -/

/-- `v as u16`. -/
def asU16 (v : Int) : Int := v % 65536

/-- One output pixel from its six taps. The positive and the negative part each
    grow term by term, so that their last sums are checked. -/
def filterPixel (bilinear : Bool) (f : Filter) (t : List UInt8) : Option UInt8 :=
  match f, t with
  | [f0, f1, f2, f3, f4, f5], [t0, t1, t2, t3, t4, t5] =>
      if bilinear then do
        let s ← u16 (t2.toNat * asU16 f2 + t3.toNat * asU16 f3 + 64)
        return UInt8.ofNat (s >>> (7 : Nat)).toNat
      else do
        let pos ← u16 (t0.toNat * asU16 f0 + t2.toNat * asU16 f2 + t3.toNat * asU16 f3 + t5.toNat * asU16 f5)
        let neg ← u16 (t1.toNat * asU16 (-f1) + t4.toNat * asU16 (-f4))
        let s ← u16 (max 0 (pos - neg) + 64)
        return UInt8.ofNat (min (s >>> (7 : Nat)) 255).toNat
  | _, _ => none

/-- One output row of `n` pixels. `taps` are the source rows, each lined up with
    output 0. -/
def filterRow (n : Nat) (bilinear : Bool) (taps : List (List UInt8)) (f : Filter) : Option (List UInt8) :=
  (List.range n).mapM fun c => do filterPixel bilinear f (← taps.mapM (·[c]?))

/-- The six source rows for a horizontal pass whose output 0 is at `p`. -/
def hTaps (src : List UInt8) (p n : Nat) : Option (List (List UInt8)) := do
  let s ← sliceOf src (← sub p 2) (n + 5)
  (List.range 6).mapM fun k => sliceOf s k n

/-- The six source rows for a vertical pass whose output 0 is at `p`. -/
def vTaps (src : List UInt8) (p stride n : Nat) : Option (List (List UInt8)) := do
  let block ← sliceOf src (← sub p (2 * stride)) (5 * stride + n)
  (List.range 6).mapM fun k => sliceOf block (k * stride) n

/-! ## One block -/

/-- The horizontal pass of the two, over the rows from two above the block to
    three below it. -/
def firstPass (n : Nat) (bilinear : Bool) (src : List UInt8) (sstride origin bh : Nat) (f : Filter) :
    Option (List UInt8) := do
  let top ← sub origin (2 * sstride)
  let (_, tmp) ← Grid.writeRows (fun r => r * n) (fun r => do
    filterRow n bilinear (← hTaps src (top + r * sstride) n) f) (bh + 5) (List.replicate (16 * 21) 0)
  return tmp

/-- Row `r` of a block whose sub-pixel position is not two-dimensional. -/
def straightRow (n : Nat) (bilinear : Bool) (src : List UInt8) (sstride origin fx fy : Nat) (filters : List Filter)
    (r : Nat) : Option (List UInt8) :=
  if fx = 0 ∧ fy = 0 then sliceOf src (origin + r * sstride) n
  else if fy = 0 then do filterRow n bilinear (← hTaps src (origin + r * sstride) n) (← filters[fx]?)
  else do filterRow n bilinear (← vTaps src (origin + r * sstride) sstride n) (← filters[fy]?)

/-- The filter passes, or a copy at whole-pixel positions. -/
def filterBlock (n : Nat) (bilinear : Bool) (dstPos dstStride : Nat) (src : List UInt8) (sstride origin bh fx fy : Nat)
    (filters : List Filter) : Edit UInt8 Unit :=
  if fx = 0 ∨ fy = 0 then
    Grid.writeRows (fun r => dstPos + r * dstStride) (straightRow n bilinear src sstride origin fx fy filters) bh
  else do
    let tmp ← firstPass n bilinear src sstride origin bh (← filters[fx]?)
    let fv ← filters[fy]?
    Grid.writeRows (fun r => dstPos + r * dstStride)
      (fun r => do filterRow n bilinear (← vTaps tmp ((r + 2) * n) n n) fv) bh

/-- A block's whole-pixel source position and its eighth-pixel fractions. -/
structure Motion where
  ix : Int
  iy : Int
  fx : Nat
  fy : Nat
  deriving Repr, DecidableEq

/-- Row `r` of a window, edge pixels repeated. -/
def windowRow (refp : Plane) (m : Motion) (ew r : Nat) : Option (List UInt8) := do
  let maxX ← i32 (BoolDecoder.asI32 refp.w - 1)
  let maxY ← i32 (BoolDecoder.asI32 refp.h - 1)
  let above ← i32 (m.iy - 2)
  let sy := (← clamp 0 maxY (← i32 (above + r))).toNat * refp.w
  (List.range ew).mapM fun (c : Nat) => do
    let before ← i32 (m.ix - 2)
    let sx := (← clamp 0 maxX (← i32 (before + c))).toNat
    refp.data[sy + sx]?

/-- A window that crosses the edge of the reference plane is first copied out. -/
def predictNearEdge (n : Nat) (bilinear : Bool) (dstPos dstStride : Nat) (refp : Plane) (m : Motion) (bh : Nat)
    (filters : List Filter) : Edit UInt8 Unit := do
  let ew := n + 5
  let (_, emu) ← Grid.writeRows (fun r => r * ew) (windowRow refp m ew) (bh + 5) (List.replicate (21 * 21) 0)
  filterBlock n bilinear dstPos dstStride emu ew (2 * ew + 2) bh m.fx m.fy filters

def predictN (n : Nat) (bilinear : Bool) (dstPos dstStride : Nat) (refp : Plane) (m : Motion) (bh : Nat)
    (filters : List Filter) : Edit UInt8 Unit :=
  if m.ix ≥ 2 ∧ m.iy ≥ 2 ∧ m.ix.toNat + n + 3 ≤ refp.w ∧ m.iy.toNat + bh + 3 ≤ refp.h then
    filterBlock n bilinear dstPos dstStride refp.data refp.w (m.iy.toNat * refp.w + m.ix.toNat) bh m.fx m.fy filters
  else predictNearEdge n bilinear dstPos dstStride refp m bh filters

/-- Predict a `bw` by `bh` block at (`x`, `y`) of the current plane from `refp`,
    displaced by (`mvx`, `mvy`) in eighth pixels of this plane. -/
def interPredict (dstPos dstStride : Nat) (refp : Plane) (x y : Int) (bw bh : Nat) (mvx mvy : Int)
    (filters : List Filter) (bilinear : Bool) : Edit UInt8 Unit :=
  if bh ≤ 16 ∧ (bw = 16 ∨ bw = 8 ∨ bw = 4) then do
    let m : Motion := {
      ix := ← i32 (x + mvx >>> (3 : Nat))
      iy := ← i32 (y + mvy >>> (3 : Nat))
      fx := (mvx % 8).toNat
      fy := (mvy % 8).toNat }
    predictN bw bilinear dstPos dstStride refp m bh filters
  else fun _ => none

/-! ## Taps and the window they read -/

theorem tap_le (t : UInt8) {f : Int} (pos : 0 ≤ f) : 0 ≤ t.toNat * f ∧ t.toNat * f ≤ 255 * f := by
  have byte : (t.toNat : Int) ≤ 255 := by have := t.toNat_lt; omega
  exact ⟨Int.mul_nonneg (by omega) pos, Int.mul_le_mul_of_nonneg_right byte pos⟩

/-- Two rows and pixels before the block and three after it lie in the source. -/
structure Window (size sstride origin n bh : Nat) : Prop where
  low : 2 * sstride + 2 ≤ origin
  high : origin + (bh + 2) * sstride + n + 3 ≤ size

end K2.Vp8
