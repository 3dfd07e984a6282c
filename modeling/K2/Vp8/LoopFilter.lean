import K2.Vp8.Motion

/-! # The loop filter

Each edge is filtered as segments of eight pixels (p3 to q3) straddling it, all
gathered, filtered and written back. Segments do not meet, so that the U and V
edges that are filtered together are filtered here one after the other. -/

namespace K2.Vp8

open Checked Buffers Buffers.Edit

/-! ## Limits -/

structure FilterParams where
  interiorLimit : Int
  hevThreshold : Int
  deriving Repr, DecidableEq

def FilterParams.new (level : Int) (sharpness : UInt8) (keyframe : Bool) : Option FilterParams := do
  let most ← i32 (9 - sharpness.toNat)
  let interior := if sharpness ≠ 0 then min (level >>> (if sharpness > 4 then (2 : Nat) else 1)) most else level
  let hev := if level ≥ 40 then 2 else if level ≥ 15 then 1 else 0
  return { interiorLimit := max interior 1, hevThreshold := if !keyframe ∧ level ≥ 20 then hev + 1 else hev }

/-- The limits of one edge, as 8-bit values. -/
structure Limits where
  edge : Nat
  interior : Nat
  hev : Nat
  deriving Repr, DecidableEq

def byteOf (v : Int) : Nat := (max 0 (min v 255)).toNat

def Limits.new (edge : Int) (p : FilterParams) : Limits :=
  { edge := byteOf edge, interior := byteOf p.interiorLimit, hev := byteOf p.hevThreshold }

/-! ## One segment -/

structure Segment where
  p3 : UInt8
  p2 : UInt8
  p1 : UInt8
  p0 : UInt8
  q0 : UInt8
  q1 : UInt8
  q2 : UInt8
  q3 : UInt8
  deriving Repr, DecidableEq

namespace Segment

def taps (g : Segment) : List UInt8 := [g.p3, g.p2, g.p1, g.p0, g.q0, g.q1, g.q2, g.q3]

def ofTaps : List UInt8 → Option Segment
  | [p3, p2, p1, p0, q0, q1, q2, q3] => some ⟨p3, p2, p1, p0, q0, q1, q2, q3⟩
  | _ => none

end Segment

/-- Pixel to signed value. -/
def signed (v : UInt8) : Int := (v ^^^ 0x80).toInt8.toInt

/-- Signed value back to a pixel. -/
def unsigned (v : Int) : UInt8 := (Int8.ofInt v).toUInt8 ^^^ 0x80

/-- What saturating `i8` arithmetic and a clamp to `i8` keep. -/
def clamp8 (v : Int) : Int := max (-128) (min v 127)

def absDiff (a b : UInt8) : Nat := (a.toNat - b.toNat) + (b.toNat - a.toNat)

def saturatingAdd (a b : Nat) : Nat := min (a + b) 255

/-- `|p0 - q0| * 2 + |p1 - q1| / 2 <= edge`, in saturating steps. -/
def simpleMask (p1 p0 q0 q1 : UInt8) (edge : Nat) : Bool :=
  saturatingAdd (saturatingAdd (absDiff p0 q0) (absDiff p0 q0)) (absDiff p1 q1 >>> 1) ≤ edge

/-- The common filter value. The outer taps are zeroed when `outer` is false. -/
def common (p1 p0 q0 q1 : Int) (outer : Bool) : Option Int := do
  let o := if outer then clamp8 (p1 - q1) else 0
  return clamp8 (← i16 (o + (← i16 (3 * (← i16 (q0 - p0))))))

def simpleLane (l : Limits) (g : Segment) : Option Segment := do
  let mask := simpleMask g.p1 g.p0 g.q0 g.q1 l.edge
  let a ← common (signed g.p1) (signed g.p0) (signed g.q0) (signed g.q1) true
  let f1 := clamp8 (a + 4) >>> (3 : Nat)
  let f2 := clamp8 (a + 3) >>> (3 : Nat)
  return { g with
    q0 := if mask then unsigned (clamp8 (signed g.q0 - f1)) else g.q0
    p0 := if mask then unsigned (clamp8 (signed g.p0 + f2)) else g.p0 }

/-- The normal filter's mask and high-edge-variance flag. -/
def normalMaskHev (g : Segment) (l : Limits) : Bool × Bool :=
  (simpleMask g.p1 g.p0 g.q0 g.q1 l.edge
      && absDiff g.p3 g.p2 ≤ l.interior && absDiff g.p2 g.p1 ≤ l.interior && absDiff g.p1 g.p0 ≤ l.interior
      && absDiff g.q3 g.q2 ≤ l.interior && absDiff g.q2 g.q1 ≤ l.interior && absDiff g.q1 g.q0 ≤ l.interior,
    absDiff g.p1 g.p0 > l.hev || absDiff g.q1 g.q0 > l.hev)

/-- `clamp8((k * w + 63) >> 7)`. -/
def share (k w : Int) : Option Int := do
  let scaled ← i16 (k * w)
  return clamp8 ((← i16 (scaled + 63)) >>> (7 : Nat))

/-- The normal filter across a macroblock edge. At high edge variance only p0 and
    q0 move, otherwise three pixels on each side. -/
def mbLane (l : Limits) (g : Segment) : Option Segment := do
  let (mask, high) := normalMaskHev g l
  let w ← common (signed g.p1) (signed g.p0) (signed g.q0) (signed g.q1) true
  let f1 := clamp8 (w + 4) >>> (3 : Nat)
  let f2 := clamp8 (w + 3) >>> (3 : Nat)
  let a27 ← share 27 w
  let a18 ← share 18 w
  let a9 ← share 9 w
  let only := mask && high
  let wide := mask && !high
  return { g with
    q0 :=
      if only then unsigned (clamp8 (signed g.q0 - f1))
      else if wide then unsigned (clamp8 (signed g.q0 - a27)) else g.q0
    p0 :=
      if only then unsigned (clamp8 (signed g.p0 + f2))
      else if wide then unsigned (clamp8 (signed g.p0 + a27)) else g.p0
    q1 := if wide then unsigned (clamp8 (signed g.q1 - a18)) else g.q1
    p1 := if wide then unsigned (clamp8 (signed g.p1 + a18)) else g.p1
    q2 := if wide then unsigned (clamp8 (signed g.q2 - a9)) else g.q2
    p2 := if wide then unsigned (clamp8 (signed g.p2 + a9)) else g.p2 }

/-- The normal filter between subblocks. The outer taps count only at high edge
    variance. -/
def subblockLane (l : Limits) (g : Segment) : Option Segment := do
  let (mask, high) := normalMaskHev g l
  let a ← common (signed g.p1) (signed g.p0) (signed g.q0) (signed g.q1) high
  let f1 := clamp8 (a + 4) >>> (3 : Nat)
  let f2 := clamp8 (a + 3) >>> (3 : Nat)
  let a2 := (← i8 (f1 + 1)) >>> (1 : Nat)
  let soft := mask && !high
  return { g with
    q0 := if mask then unsigned (clamp8 (signed g.q0 - f1)) else g.q0
    p0 := if mask then unsigned (clamp8 (signed g.p0 + f2)) else g.p0
    q1 := if soft then unsigned (clamp8 (signed g.q1 - a2)) else g.q1
    p1 := if soft then unsigned (clamp8 (signed g.p1 + a2)) else g.p1 }

/-! ## Edges -/

/-- Which filter an edge gets. -/
inductive Kind
  | simple
  | macroblock
  | subblock
  deriving Repr, DecidableEq

namespace Kind

/-- The taps the filter may change. -/
def taps : Kind → Nat × Nat
  | simple => (3, 5)
  | macroblock => (1, 7)
  | subblock => (2, 6)

def run (kind : Kind) (l : Limits) (g : Segment) : Option Segment :=
  match kind with
  | simple => simpleLane l g
  | macroblock => mbLane l g
  | subblock => subblockLane l g

end Kind

/-- Segments across a horizontal edge: the taps are rows of stride `s`. -/
def loadH (n pos s : Nat) : Edit UInt8 (List Segment) := do
  let src ← slice (← sub pos (4 * s)) (7 * s + n)
  let rows ← ((List.range 8).mapM fun k => sliceOf src (k * s) n : Option _)
  ((List.range n).mapM fun i => do Segment.ofTaps (← rows.mapM (·[i]?)) : Option _)

def storeH (n pos s : Nat) (seg : List Segment) (first last : Nat) : Edit UInt8 Unit := do
  within (← sub pos (4 * s)) (7 * s + n) (loop (fun j _ => do
    splice ((first + j) * s) (← (seg.mapM fun g => g.taps[first + j]? : Option _))) (last - first) ())

/-- Segments across a vertical edge: each is eight pixels of one row. -/
def loadV (n pos s : Nat) : Edit UInt8 (List Segment) := do
  let src ← slice (← sub pos 4) ((n - 1) * s + 8)
  ((List.range n).mapM fun i => do Segment.ofTaps (← sliceOf src (i * s) 8) : Option _)

def storeV (n pos s : Nat) (seg : List Segment) (first last : Nat) : Edit UInt8 Unit := do
  within (← sub pos 4) ((n - 1) * s + 8) (loop (fun i _ => do
    let px ← slice (i * s) 8
    let g ← seg[i]?
    splice (i * s) (px.take first ++ (g.taps.take last).drop first ++ px.drop last)) n ())

/-- One edge of `n` segments. -/
def edge (n pos s : Nat) (vertical : Bool) (kind : Kind) (l : Limits) : Edit UInt8 Unit :=
  if vertical then do
    let seg ← ((← loadV n pos s).mapM (kind.run l) : Option _)
    storeV n pos s seg kind.taps.1 kind.taps.2
  else do
    let seg ← ((← loadH n pos s).mapM (kind.run l) : Option _)
    storeH n pos s seg kind.taps.1 kind.taps.2

def guarded (b : Bool) (m : Edit UInt8 Unit) : Edit UInt8 Unit := if b then m else return ()

/-- The edges one macroblock of `n` by `n` pixels is responsible for: its left
    edge, its inner vertical ones, its top edge and its inner horizontal ones. -/
def filterPlane (n : Nat) (inners : List Nat) (across innerKind : Kind) (s row col : Nat) (mb sub : Limits)
    (inner : Bool) : Edit UInt8 Unit := do
  let pos := row * n * s + col * n
  guarded (col > 0) (edge n pos s true across mb)
  guarded inner (inners.forM fun k => edge n (pos + k) s true innerKind sub)
  guarded (row > 0) (edge n pos s false across mb)
  guarded inner (inners.forM fun k => edge n (k * s + pos) s false innerKind sub)

/-- The limits of a macroblock's outer and inner edges. -/
def limitsOf (level : Int) (sharpness : UInt8) (keyframe : Bool) : Option (Limits × Limits) := do
  let p ← FilterParams.new level sharpness keyframe
  let wide ← i32 ((level + 2) * 2 + p.interiorLimit)
  let narrow ← i32 (level * 2 + p.interiorLimit)
  return (Limits.new wide p, Limits.new narrow p)

/-! ## No filter panics -/

/-- What an `i8` holds. -/
def Tiny (v : Int) : Prop := -128 ≤ v ∧ v ≤ 127

theorem tiny_signed (v : UInt8) : Tiny (signed v) := by
  have low := (v ^^^ 0x80).toInt8.le_toInt
  have high := (v ^^^ 0x80).toInt8.toInt_lt
  exact ⟨by unfold signed; omega, by unfold signed; omega⟩

theorem tiny_clamp8 (v : Int) : Tiny (clamp8 v) := by
  unfold Tiny clamp8
  omega

theorem tiny_shift {v : Int} (h : Tiny v) : -16 ≤ v >>> (3 : Nat) ∧ v >>> (3 : Nat) ≤ 15 := by
  unfold Tiny at h
  rw [Int.shiftRight_eq_div_pow]
  norm_num
  omega

theorem yields_ofTaps {px : List UInt8} (eight : px.length = 8) : Yields (fun _ => True) (Segment.ofTaps px) := by
  match px, eight with
  | [p3, p2, p1, p0, q0, q1, q2, q3], _ => exact Yields.pure trivial

section edges

variable {n pos s size first last : Nat} {D : Set Nat} {seg : List Segment}

/-- The segments of a horizontal edge lie in the buffer and in `D`. -/
structure HorizontalIn (size : Nat) (D : Set Nat) (n pos s : Nat) : Prop where
  low : 4 * s ≤ pos
  high : pos + 3 * s + n ≤ size
  known : ∀ i < pos + 3 * s + n, i ∈ D

/-- And those of a vertical edge. -/
structure VerticalIn (size : Nat) (D : Set Nat) (n pos s : Nat) : Prop where
  low : 4 ≤ pos
  high : pos + (n - 1) * s + 4 ≤ size
  known : ∀ i < pos + (n - 1) * s + 4, i ∈ D

theorem tracks_loadH (there : HorizontalIn size D n pos s) :
    Tracks size D D (fun seg => seg.length = n) (loadH n pos s) := by
  obtain ⟨low, high, known⟩ := there
  refine (Tracks.lift (Yields.sub low)).bind fun start same => ?_
  subst same
  refine (Tracks.slice (by omega) fun i _ below => known i (by omega)).bind fun src length => ?_
  refine (Tracks.lift (Yields.mapM (Q := fun row : List UInt8 => row.length = n) fun k mem => ?_)).bind
    fun rows both => ?_
  · have : k * s ≤ 7 * s := Nat.mul_le_mul_right _ (by have := List.mem_range.mp mem; omega)
    exact (Yields.sliceOf (P := fun _ => True) (by omega) fun _ _ => trivial).mono fun row known => known.1
  refine (Tracks.lift (Yields.mapM (Q := fun _ => True) fun i mem => ?_)).mono
    (fun seg known => by rw [known.1, List.length_range]) le_rfl
  refine (Yields.mapM (Q := fun _ => True) fun row mem' => ?_).bind fun px eight => ?_
  · exact Yields.getElem? (by rw [both.2 row mem']; exact List.mem_range.mp mem) fun _ _ => trivial
  · exact yields_ofTaps (by rw [eight.1, both.1, List.length_range])

theorem length_taps (g : Segment) : g.taps.length = 8 := rfl

theorem tracks_loadV (there : VerticalIn size D n pos s) :
    Tracks size D D (fun seg => seg.length = n) (loadV n pos s) := by
  obtain ⟨low, high, known⟩ := there
  refine (Tracks.lift (Yields.sub low)).bind fun start same => ?_
  subst same
  refine (Tracks.slice (by omega) fun i _ below => known i (by omega)).bind fun src length => ?_
  refine (Tracks.lift (Yields.mapM (Q := fun _ => True) fun i mem => ?_)).mono
    (fun seg known => by rw [known.1, List.length_range]) le_rfl
  have : i * s ≤ (n - 1) * s := Nat.mul_le_mul_right _ (by have := List.mem_range.mp mem; omega)
  refine (Yields.sliceOf (P := fun _ => True) (by omega) fun _ _ => trivial).bind fun px eight => ?_
  exact yields_ofTaps eight.1

end edges

theorem yields_params {level : Int} (sharpness : UInt8) (keyframe : Bool) (range : 0 ≤ level ∧ level ≤ 63) :
    Yields (fun p => (1 ≤ p.interiorLimit ∧ p.interiorLimit ≤ 63) ∧ 0 ≤ p.hevThreshold ∧ p.hevThreshold ≤ 3)
      (FilterParams.new level sharpness keyframe) := by
  have sharp := sharpness.toNat_lt
  unfold FilterParams.new
  rw [i32_eq (by omega) (by omega)]
  refine Yields.pure ⟨?_, ?_⟩
  · have shifted : ∀ k : Nat, level >>> k ≤ 63 := by
      intro k
      rw [Int.shiftRight_eq_div_pow]
      exact (Int.ediv_le_self _ range.1).trans range.2
    have := shifted (if sharpness > 4 then 2 else 1)
    show 1 ≤ max _ 1 ∧ max _ 1 ≤ 63
    split <;> omega
  · dsimp only
    split <;> split <;> omega

theorem luma_offsets : ∀ k ∈ [4, 8, 12], 4 ≤ k ∧ k + 4 ≤ 16 := by decide

theorem chroma_offsets : ∀ k ∈ [4], 4 ≤ k ∧ k + 4 ≤ 8 := by decide

end K2.Vp8
