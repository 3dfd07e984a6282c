import K2.Vp8.LoopFilter

/-! # The reference loop filter

Plain wide arithmetic, no saturating lanes. Where the edge filters count their
segments `across` and `along` an edge, a step of 1 across makes it a vertical
edge. Lanes past `count` are never stored and are left out. -/

namespace K2.Vp8

open Checked Buffers Buffers.Edit

namespace Reference

/-! ## Segments -/

def load (buf : List UInt8) (pos across along count : Nat) : Option (List Segment) :=
  if across = 1 then
    (List.range count).mapM fun i => do Segment.ofTaps (← sliceOf buf (← sub (pos + i * along) 4) 8)
  else do
    let rows ← (List.range 8).mapM fun k => do sliceOf buf (← sub (pos + k * across) (4 * across)) count
    (List.range count).mapM fun i => do Segment.ofTaps (← rows.mapM (·[i]?))

/-- Writes back the taps from `first` to before `last`. -/
def store (pos across along count : Nat) (seg : List Segment) (first last : Nat) : Edit UInt8 Unit :=
  if across = 1 then
    loop (fun i _ => do
      let start ← sub (pos + i * along) 4
      let g ← seg[i]?
      splice (start + first) ((g.taps.take last).drop first)) count ()
  else
    loop (fun j _ => do
      let start ← sub (pos + (first + j) * across) (4 * across)
      splice start (← (seg.mapM fun g => g.taps[first + j]? : Option _))) (last - first) ()

/-! ## Lanes -/

def c8 (v : Int) : Int := max (-128) (min v 127)

def u2s (v : UInt8) : Int := v.toNat - 128

def s2u (v : Int) : UInt8 := UInt8.ofNat (c8 v + 128).toNat

def absDiff (a b : UInt8) : Int := ((a.toNat : Int) - b.toNat).natAbs

def simpleMask (g : Segment) (limit : Int) : Bool :=
  absDiff g.p0 g.q0 * 2 + absDiff g.p1 g.q1 >>> (1 : Nat) ≤ limit

def normalMask (g : Segment) (edge interior : Int) : Bool :=
  simpleMask g edge
    && absDiff g.p3 g.p2 ≤ interior && absDiff g.p2 g.p1 ≤ interior && absDiff g.p1 g.p0 ≤ interior
    && absDiff g.q3 g.q2 ≤ interior && absDiff g.q2 g.q1 ≤ interior && absDiff g.q1 g.q0 ≤ interior

def hev (g : Segment) (threshold : Int) : Bool := absDiff g.p1 g.p0 > threshold || absDiff g.q1 g.q0 > threshold

def simpleLane (limit : Int) (g : Segment) : Segment :=
  let mask := simpleMask g limit
  let a := c8 (c8 (u2s g.p1 - u2s g.q1) + 3 * (u2s g.q0 - u2s g.p0))
  let f1 := c8 (a + 4) >>> (3 : Nat)
  let f2 := c8 (a + 3) >>> (3 : Nat)
  { g with
    q0 := if mask then s2u (u2s g.q0 - f1) else g.q0
    p0 := if mask then s2u (u2s g.p0 + f2) else g.p0 }

def mbLane (edgeLimit : Int) (params : FilterParams) (g : Segment) : Segment :=
  let mask := normalMask g edgeLimit params.interiorLimit
  let high := hev g params.hevThreshold
  let w := c8 (c8 (u2s g.p1 - u2s g.q1) + 3 * (u2s g.q0 - u2s g.p0))
  let f1 := c8 (w + 4) >>> (3 : Nat)
  let f2 := c8 (w + 3) >>> (3 : Nat)
  let a27 := c8 ((27 * w + 63) >>> (7 : Nat))
  let a18 := c8 ((18 * w + 63) >>> (7 : Nat))
  let a9 := c8 ((9 * w + 63) >>> (7 : Nat))
  let only := mask && high
  let wide := mask && !high
  { g with
    q0 := if only then s2u (u2s g.q0 - f1) else if wide then s2u (u2s g.q0 - a27) else g.q0
    p0 := if only then s2u (u2s g.p0 + f2) else if wide then s2u (u2s g.p0 + a27) else g.p0
    q1 := if wide then s2u (u2s g.q1 - a18) else g.q1
    p1 := if wide then s2u (u2s g.p1 + a18) else g.p1
    q2 := if wide then s2u (u2s g.q2 - a9) else g.q2
    p2 := if wide then s2u (u2s g.p2 + a9) else g.p2 }

def subblockLane (edgeLimit : Int) (params : FilterParams) (g : Segment) : Segment :=
  let mask := normalMask g edgeLimit params.interiorLimit
  let high := hev g params.hevThreshold
  let outer := if high then c8 (u2s g.p1 - u2s g.q1) else 0
  let a := c8 (outer + 3 * (u2s g.q0 - u2s g.p0))
  let f1 := c8 (a + 4) >>> (3 : Nat)
  let f2 := c8 (a + 3) >>> (3 : Nat)
  let a2 := (f1 + 1) >>> (1 : Nat)
  let soft := mask && !high
  { g with
    q0 := if mask then s2u (u2s g.q0 - f1) else g.q0
    p0 := if mask then s2u (u2s g.p0 + f2) else g.p0
    q1 := if soft then s2u (u2s g.q1 - a2) else g.q1
    p1 := if soft then s2u (u2s g.p1 + a2) else g.p1 }

/-! ## Edges -/

def filtered (lane : Segment → Segment) (pos across along count first last : Nat) : Edit UInt8 Unit := do
  let seg ← fun buf => (load buf pos across along count).map (·, buf)
  store pos across along count (seg.map lane) first last

def simpleEdge (pos across along count : Nat) (limit : Int) : Edit UInt8 Unit :=
  filtered (simpleLane limit) pos across along count 3 5

def mbEdge (pos across along count : Nat) (edgeLimit : Int) (params : FilterParams) : Edit UInt8 Unit :=
  filtered (mbLane edgeLimit params) pos across along count 1 7

def subblockEdge (pos across along count : Nat) (edgeLimit : Int) (params : FilterParams) : Edit UInt8 Unit :=
  filtered (subblockLane edgeLimit params) pos across along count 2 6

/-- `(4..n).step_by(4)`. -/
def inners (n : Nat) : List Nat := List.range' 4 ((n - 1) / 4) 4

def filterPlaneMb (s n row col : Nat) (inner : Bool) (mbLimit bLimit : Int) (p : FilterParams) : Edit UInt8 Unit := do
  let pos := row * n * s + col * n
  guarded (col > 0) (mbEdge pos 1 s n mbLimit p)
  guarded inner ((inners n).forM fun k => subblockEdge (pos + k) 1 s n bLimit p)
  guarded (row > 0) (mbEdge pos s 1 n mbLimit p)
  guarded inner ((inners n).forM fun k => subblockEdge (pos + k * s) s 1 n bLimit p)

/-- The simple filter, on luma alone. -/
def filterSimple (s row col : Nat) (inner : Bool) (mbLimit bLimit : Int) : Edit UInt8 Unit := do
  let pos := row * 16 * s + col * 16
  guarded (col > 0) (simpleEdge pos 1 s 16 mbLimit)
  guarded inner ([4, 8, 12].forM fun k => simpleEdge (pos + k) 1 s 16 bLimit)
  guarded (row > 0) (simpleEdge pos s 1 16 mbLimit)
  guarded inner ([4, 8, 12].forM fun k => simpleEdge (pos + k * s) s 1 16 bLimit)

end Reference

/-- The three planes of a frame being filtered. -/
structure Planes where
  y : List UInt8
  u : List UInt8
  v : List UInt8
  yStride : Nat
  uvStride : Nat
  deriving Repr, DecidableEq

/-- Filters the edges one macroblock is responsible for, in wide arithmetic. -/
def Reference.filterMb (planes : Planes) (row col : Nat) (level : Int) (sharpness : UInt8)
    (keyframe inner simple : Bool) : Option Planes := do
  let p ← FilterParams.new level sharpness keyframe
  let mbLimit ← i32 ((level + 2) * 2 + p.interiorLimit)
  let bLimit ← i32 (level * 2 + p.interiorLimit)
  if simple then
    let (_, y) ← filterSimple planes.yStride row col inner mbLimit bLimit planes.y
    return { planes with y }
  else
    let (_, y) ← filterPlaneMb planes.yStride 16 row col inner mbLimit bLimit p planes.y
    let (_, u) ← filterPlaneMb planes.uvStride 8 row col inner mbLimit bLimit p planes.u
    let (_, v) ← filterPlaneMb planes.uvStride 8 row col inner mbLimit bLimit p planes.v
    return { planes with y, u, v }

/-! ## The planes in 8-bit lanes -/

/-- One edge of U and V, gathered into the same lanes. -/
def chromaEdge (pos s : Nat) (vertical : Bool) (kind : Kind) (l : Limits) (planes : List UInt8 × List UInt8) :
    Option (List UInt8 × List UInt8) := do
  let load := if vertical then loadV 8 pos s else loadH 8 pos s
  let store := if vertical then storeV 8 pos s else storeH 8 pos s
  let (inU, _) ← load planes.1
  let (inV, _) ← load planes.2
  let seg ← (inU ++ inV).mapM (kind.run l)
  let (_, u) ← store (seg.take 8) kind.taps.1 kind.taps.2 planes.1
  let (_, v) ← store (seg.drop 8) kind.taps.1 kind.taps.2 planes.2
  return (u, v)

def chromaEdgeIf (b : Bool) (pos s : Nat) (vertical : Bool) (kind : Kind) (l : Limits)
    (planes : List UInt8 × List UInt8) : Option (List UInt8 × List UInt8) :=
  if b then chromaEdge pos s vertical kind l planes else some planes

/-- Both chroma planes of a macroblock, edge by edge. -/
def filterChromas (s row col : Nat) (mb sub : Limits) (inner : Bool) (planes : List UInt8 × List UInt8) :
    Option (List UInt8 × List UInt8) := do
  let pos := row * 8 * s + col * 8
  let planes ← chromaEdgeIf (col > 0) pos s true .macroblock mb planes
  let planes ← chromaEdgeIf inner (pos + 4) s true .subblock sub planes
  let planes ← chromaEdgeIf (row > 0) pos s false .macroblock mb planes
  chromaEdgeIf inner (4 * s + pos) s false .subblock sub planes

def filterMb (planes : Planes) (row col : Nat) (level : Int) (sharpness : UInt8) (keyframe inner simple : Bool) :
    Option Planes := do
  let (mb, sub) ← limitsOf level sharpness keyframe
  if simple then
    let (_, y) ← filterPlane 16 [4, 8, 12] .simple .simple planes.yStride row col mb sub inner planes.y
    return { planes with y }
  else
    let (_, y) ← filterPlane 16 [4, 8, 12] .macroblock .subblock planes.yStride row col mb sub inner planes.y
    let (u, v) ← filterChromas planes.uvStride row col mb sub inner (planes.u, planes.v)
    return { planes with y, u, v }

/-! ## Lane by lane -/

theorem signed_eq (v : UInt8) : signed v = Reference.u2s v := by
  have every : ∀ k : Fin 256, signed (UInt8.ofFin k) = Reference.u2s (UInt8.ofFin k) := by decide +kernel
  exact every v.toFin

theorem clamp8_eq (v : Int) : clamp8 v = Reference.c8 v := rfl

theorem unsigned_eq (v : Int) : unsigned (Reference.c8 v) = Reference.s2u v := by
  have every : ∀ k : Fin 256, unsigned (k.val - 128) = UInt8.ofNat k.val := by decide +kernel
  have low : -128 ≤ clamp8 v := (tiny_clamp8 v).1
  have high : clamp8 v ≤ 127 := (tiny_clamp8 v).2
  have here := every ⟨(clamp8 v + 128).toNat, by omega⟩
  dsimp only at here
  rw [show (((clamp8 v + 128).toNat : Nat) : Int) - 128 = clamp8 v by omega, clamp8_eq] at here
  exact here

theorem absDiff_eq (a b : UInt8) : (absDiff a b : Int) = Reference.absDiff a b := by
  unfold absDiff Reference.absDiff
  omega

theorem byteOf_eq {v : Int} (low : 0 ≤ v) (high : v ≤ 255) : (byteOf v : Int) = v := by
  unfold byteOf
  omega

theorem absDiff_le_byteOf {limit : Int} (low : 0 ≤ limit) (high : limit ≤ 255) (a b : UInt8) :
    absDiff a b ≤ byteOf limit ↔ Reference.absDiff a b ≤ limit := by
  rw [← absDiff_eq, ← Int.ofNat_le, byteOf_eq low high]

theorem simpleMask_eq {limit : Int} (low : 0 ≤ limit) (high : limit < 255) (g : Segment) :
    simpleMask g.p1 g.p0 g.q0 g.q1 (byteOf limit) = Reference.simpleMask g limit := by
  have byte := byteOf_eq low high.le
  have inner := absDiff_eq g.p0 g.q0
  have outer := absDiff_eq g.p1 g.q1
  unfold simpleMask Reference.simpleMask saturatingAdd
  rw [← inner, ← outer, Int.shiftRight_eq_div_pow, Nat.shiftRight_eq_div_pow, decide_eq_decide]
  norm_num
  omega

/-- The limits of an edge fit in bytes, the edge limit without saturation. -/
structure Fitting (limit : Int) (p : FilterParams) : Prop where
  edge : 0 ≤ limit ∧ limit < 255
  interior : 0 ≤ p.interiorLimit ∧ p.interiorLimit ≤ 255
  hev : 0 ≤ p.hevThreshold ∧ p.hevThreshold ≤ 255

section lanes

variable {limit : Int} {p : FilterParams} (fitting : Fitting limit p)
include fitting

theorem normalMaskHev_eq (g : Segment) :
    normalMaskHev g (Limits.new limit p)
      = (Reference.normalMask g limit p.interiorLimit, Reference.hev g p.hevThreshold) := by
  obtain ⟨⟨low, high⟩, ⟨low', high'⟩, low'', high''⟩ := fitting
  unfold normalMaskHev Reference.normalMask Reference.hev Limits.new
  simp only [simpleMask_eq low high, absDiff_le_byteOf low' high', gt_iff_lt, ← Nat.not_le, ← Int.not_le,
    absDiff_le_byteOf low'' high'']

omit fitting in
theorem common_eq (g : Segment) (outer : Bool) :
    common (signed g.p1) (signed g.p0) (signed g.q0) (signed g.q1) outer
      = some (Reference.c8 ((if outer then Reference.c8 (Reference.u2s g.p1 - Reference.u2s g.q1) else 0)
        + 3 * (Reference.u2s g.q0 - Reference.u2s g.p0))) := by
  have h0 := tiny_signed g.p0
  have h1 := tiny_signed g.q0
  have o : Tiny (if outer then clamp8 (signed g.p1 - signed g.q1) else 0) := by
    split
    · exact tiny_clamp8 _
    · exact ⟨by decide, by decide⟩
  unfold Tiny at h0 h1 o
  unfold common
  simp only [i16_eq (v := signed g.q0 - signed g.p0) (by omega) (by omega),
    i16_eq (v := 3 * (signed g.q0 - signed g.p0)) (by omega) (by omega), Option.bind_eq_bind, Option.bind_some]
  rw [i16_eq (by omega) (by omega)]
  simp only [signed_eq, clamp8_eq]
  rfl

omit fitting in
theorem share_eq {k w : Int} (tiny : Tiny w) (small : 0 ≤ k ∧ k ≤ 27) :
    share k w = some (Reference.c8 ((k * w + 63) >>> (7 : Nat))) := by
  obtain ⟨low, high⟩ := tiny
  have least : 27 * -128 ≤ k * w := by nlinarith
  have most : k * w ≤ 27 * 127 := by nlinarith
  unfold share
  rw [i16_eq (by omega) (by omega)]
  simp only [Option.bind_eq_bind, Option.bind_some]
  rw [i16_eq (by omega) (by omega)]
  rfl

theorem simpleLane_eq (g : Segment) : simpleLane (Limits.new limit p) g = some (Reference.simpleLane limit g) := by
  have mask := simpleMask_eq fitting.edge.1 fitting.edge.2 g
  unfold simpleLane
  rw [common_eq]
  simp only [Limits.new, mask, unsigned_eq, signed_eq, clamp8_eq, Option.bind_eq_bind, Option.bind_some, if_true]
  rfl

theorem mbLane_eq (g : Segment) : mbLane (Limits.new limit p) g = some (Reference.mbLane limit p g) := by
  unfold mbLane
  rw [normalMaskHev_eq fitting, common_eq]
  have tiny := tiny_clamp8 (Reference.c8 (Reference.u2s g.p1 - Reference.u2s g.q1)
    + 3 * (Reference.u2s g.q0 - Reference.u2s g.p0))
  rw [clamp8_eq] at tiny
  simp only [if_true, Option.bind_eq_bind, Option.bind_some, share_eq tiny (k := 27) ⟨by decide, by decide⟩,
    share_eq tiny (k := 18) ⟨by decide, by decide⟩, share_eq tiny (k := 9) ⟨by decide, by decide⟩, unsigned_eq,
    signed_eq, clamp8_eq]
  rfl

theorem subblockLane_eq (g : Segment) :
    subblockLane (Limits.new limit p) g = some (Reference.subblockLane limit p g) := by
  unfold subblockLane
  rw [normalMaskHev_eq fitting]
  dsimp only
  rw [common_eq]
  simp only [Option.bind_eq_bind, Option.bind_some]
  rw [i8_eq]
  · simp only [unsigned_eq, signed_eq, clamp8_eq, Option.bind_some]
    rfl
  · have := tiny_shift (tiny_clamp8 (Reference.c8 ((if Reference.hev g p.hevThreshold then
      Reference.c8 (Reference.u2s g.p1 - Reference.u2s g.q1) else 0)
        + 3 * (Reference.u2s g.q0 - Reference.u2s g.p0)) + 4))
    omega
  · have := tiny_shift (tiny_clamp8 (Reference.c8 ((if Reference.hev g p.hevThreshold then
      Reference.c8 (Reference.u2s g.p1 - Reference.u2s g.q1) else 0)
        + 3 * (Reference.u2s g.q0 - Reference.u2s g.p0)) + 4))
    omega

end lanes

end K2.Vp8
