import K2.Lib.Buffers
import K2.Vp8.Idct
import K2.Vp8.Tables

/-! # Intra prediction

Works in a small workspace that holds the block and a border of one pixel: row 0
is the row above (the above-left pixel, the pixels above, for luma four more),
column 0 of the other rows is the column to the left. -/

namespace K2.Vp8

open Checked Buffers Buffers.Edit

abbrev lumaWsStride : Nat := 21
abbrev lumaWsSize : Nat := lumaWsStride * 17
abbrev chromaWsStride : Nat := 9
abbrev chromaWsSize : Nat := chromaWsStride * 9

/-! ## Whole blocks -/

/-- Column 0 of the rows of the block. -/
def leftColumn (stride n : Nat) : Edit UInt8 (List UInt8) := (List.range n).mapM fun r => get ((r + 1) * stride)

def sumOf (px : List UInt8) : Option Int := px.foldlM (fun s p => u32 (s + p.toNat)) 0

/-- What is known of one edge: its sum and how far it shifts the mean. -/
def edgeSum (present : Bool) (edge : Edit UInt8 (List UInt8)) : Edit UInt8 (Int × Nat) :=
  if present then do
    let px ← edge
    return (← sumOf px, 1)
  else return (0, 0)

def dcOf (n : Nat) (above left : Int × Nat) : Option UInt8 := do
  let shift := if n = 16 then 3 else 2
  let sum ← u32 (above.1 + left.1)
  let countShift := shift + above.2 + left.2
  if above.2 + left.2 = 0 then return 128
  let rounded ← u32 (sum + (1 <<< (countShift - 1) : Nat))
  return UInt8.ofNat (rounded >>> countShift).toNat

def fillRow (stride n : Nat) (r : Nat) (v : UInt8) : Edit UInt8 Unit :=
  splice (stride + 1 + r * stride) (List.replicate n v)

def tmPixel (p l a : UInt8) : Option UInt8 := do
  let l ← i32 (l.toNat - p.toNat)
  return clamp255 (← i32 (l + a.toNat))

/-- Whole-block prediction for the four macroblock-level modes. The block starts
    at `ws[stride + 1]`. -/
def predictBlock (stride n : Nat) (mode : UInt8) (haveAbove haveLeft : Bool) : Edit UInt8 Unit :=
  if mode = dcPred then do
    let above ← edgeSum haveAbove (slice 1 n)
    let left ← edgeSum haveLeft (leftColumn stride n)
    let dc ← dcOf n above left
    loop (fun r _ => fillRow stride n r dc) n ()
  else if mode = vPred then
    loop (fun r _ => do splice (stride + 1 + r * stride) (← slice 1 n)) n ()
  else if mode = hPred then
    loop (fun r _ => do fillRow stride n r (← get ((r + 1) * stride))) n ()
  else if mode = tmPred then do
    let p ← get 0
    loop (fun r _ => do
      let l ← get ((r + 1) * stride)
      loop (fun c _ => do
        let a ← get (1 + c)
        set (stride + 1 + r * stride + c) (← tmPixel p l a)) n ()) n ()
  else fun _ => none

/-! ## Subblocks -/

/-- The sums of these averages only grow, so that the last one is checked. -/
def avg3 (x y z : UInt8) : Option UInt8 := do
  return UInt8.ofNat ((← i32 (x.toNat + 2 * y.toNat + z.toNat + 2)) >>> (2 : Nat)).toNat

def avg2 (x y : UInt8) : Option UInt8 := do
  return UInt8.ofNat ((← i32 (x.toNat + y.toNat + 1)) >>> (1 : Nat)).toNat

def allOf (l : List (Option UInt8)) : Option (List UInt8) := l.mapM id

def smoothed (l : List UInt8) (i : Nat) : Option UInt8 := do avg3 (← l[i]?) (← l[i + 1]?) (← l[i + 2]?)

/-- The sixteen pixels of a subblock, from the above-left pixel, the eight above
    and the four to the left. -/
def subblockPixels (mode p : UInt8) (t lf : List UInt8) : Option (List UInt8) :=
  match t, lf with
  | [t0, t1, t2, t3, t4, t5, t6, t7], [l0, l1, l2, l3] =>
      -- the edge runs from the bottom of the left column, through the corner, along the top
      let e := [l3, l2, l1, l0, p, t0, t1, t2, t3]
      if mode = bDcPred then do
        let s ← i32 (t0.toNat + t1.toNat + t2.toNat + t3.toNat + (l0.toNat + l1.toNat + l2.toNat + l3.toNat) + 4)
        return List.replicate 16 (UInt8.ofNat (s >>> (3 : Nat)).toNat)
      else if mode = bTmPred then
        (List.range 16).mapM fun k => do
          let l ← i32 ((← lf[k / 4]?).toNat + (← t[k % 4]?).toNat)
          return clamp255 (← i32 (l - p.toNat))
      else if mode = bVePred then do
        let row ← allOf [avg3 p t0 t1, avg3 t0 t1 t2, avg3 t1 t2 t3, avg3 t2 t3 t4]
        return row ++ row ++ row ++ row
      else if mode = bHePred then do
        let v ← allOf [avg3 p l0 l1, avg3 l0 l1 l2, avg3 l1 l2 l3, avg3 l2 l3 l3]
        return v.flatMap (List.replicate 4)
      else if mode = bLdPred then
        (List.range 16).mapM fun k => if k / 4 + k % 4 < 6 then smoothed t (k / 4 + k % 4) else avg3 t6 t7 t7
      else if mode = bRdPred then
        (List.range 16).mapM fun k => smoothed e (3 - k / 4 + k % 4)
      else if mode = bVrPred then
        allOf
          [avg2 p t0, avg2 t0 t1, avg2 t1 t2, avg2 t2 t3,
           avg3 l0 p t0, avg3 p t0 t1, avg3 t0 t1 t2, avg3 t1 t2 t3,
           avg3 l1 l0 p, avg2 p t0, avg2 t0 t1, avg2 t1 t2,
           avg3 l2 l1 l0, avg3 l0 p t0, avg3 p t0 t1, avg3 t0 t1 t2]
      else if mode = bVlPred then
        -- the last two break the pattern
        allOf
          [avg2 t0 t1, avg2 t1 t2, avg2 t2 t3, avg2 t3 t4,
           avg3 t0 t1 t2, avg3 t1 t2 t3, avg3 t2 t3 t4, avg3 t3 t4 t5,
           avg2 t1 t2, avg2 t2 t3, avg2 t3 t4, avg3 t4 t5 t6,
           avg3 t1 t2 t3, avg3 t2 t3 t4, avg3 t3 t4 t5, avg3 t5 t6 t7]
      else if mode = bHdPred then
        allOf
          [avg2 l0 p, avg3 l0 p t0, avg3 p t0 t1, avg3 t0 t1 t2,
           avg2 l1 l0, avg3 l1 l0 p, avg2 l0 p, avg3 l0 p t0,
           avg2 l2 l1, avg3 l2 l1 l0, avg2 l1 l0, avg3 l1 l0 p,
           avg2 l3 l2, avg3 l3 l2 l1, avg2 l2 l1, avg3 l2 l1 l0]
      else if mode = bHuPred then
        allOf
          [avg2 l0 l1, avg3 l0 l1 l2, avg2 l1 l2, avg3 l1 l2 l3,
           avg2 l1 l2, avg3 l1 l2 l3, avg2 l2 l3, avg3 l2 l3 l3,
           avg2 l2 l3, avg3 l2 l3 l3, some l3, some l3,
           some l3, some l3, some l3, some l3]
      else none
  | _, _ => none

/-- One 4x4 prediction. `pos` is the block's top-left in the workspace; the row
    above it and the column to its left must be filled in. -/
def predictSubblock (stride pos : Nat) (mode : UInt8) : Edit UInt8 Unit := do
  let a ← sub pos stride
  let p ← get (← sub a 1)
  let t ← slice a 8
  let before ← sub pos 1
  let lf ← (List.range 4).mapM fun i => get (before + i * stride)
  let b ← subblockPixels mode p t lf
  loop (fun r _ => do splice (pos + r * stride) (← sliceOf b (r * 4) 4)) 4 ()

/-! ## The border and the way back -/

/-- The four pixels above and to the right. The last column repeats the pixel
    before them. -/
def aboveRightPixels (plane : List UInt8) (a n : Nat) (lastCol : Bool) : Option (List UInt8) :=
  if lastCol then do
    let v ← plane[← sub (a + n) 1]?
    return List.replicate 4 v
  else sliceOf plane (a + n) 4

def fillAboveRight (plane : List UInt8) (a n : Nat) (aboveRight lastCol : Bool) : Edit UInt8 Unit :=
  if aboveRight then do splice (1 + n) (← aboveRightPixels plane a n lastCol) else return ()

def cornerPixel (plane : List UInt8) (a mbx : Nat) : Option UInt8 :=
  if mbx = 0 then some 129 else do plane[← sub a 1]?

/-- Above the frame is 127; the above-left pixel is 127 on the top row and 129
    on the left column. -/
def fillAbove (plane : List UInt8) (s n mbx mby : Nat) (aboveRight lastCol : Bool) : Edit UInt8 Unit :=
  if mby = 0 then
    splice 0 (List.replicate (1 + n + if aboveRight then 4 else 0) 127)
  else do
    let a := (← sub (mby * n) 1) * s + mbx * n
    splice 1 (← sliceOf plane a n)
    fillAboveRight plane a n aboveRight lastCol
    set 0 (← cornerPixel plane a mbx)

/-- Left of the frame is 129. -/
def leftPixel (plane : List UInt8) (s n mbx mby r : Nat) : Option UInt8 :=
  if mbx = 0 then some 129 else do plane[← sub ((mby * n + r) * s + mbx * n) 1]?

/-- The border of a workspace, from the frame. -/
def fillWsBorder (wsStride : Nat) (plane : List UInt8) (s n mbx mby : Nat) (aboveRight lastCol : Bool) :
    Edit UInt8 Unit := do
  fillAbove plane s n mbx mby aboveRight lastCol
  loop (fun r _ => do set ((r + 1) * wsStride) (← leftPixel plane s n mbx mby r)) n ()

/-- The predicted block out of a workspace into a plane of stride `s`. -/
def storeWs (ws : List UInt8) (wsStride s n mbx mby : Nat) : Edit UInt8 Unit :=
  Grid.writeRows (fun r => (mby * n + r) * s + mbx * n) (fun r => sliceOf ws ((r + 1) * wsStride + 1) n) n

/-! ## No prediction panics -/

theorem yields_avg3 (x y z : UInt8) : Yields (fun _ => True) (avg3 x y z) := by
  have hx := x.toNat_lt
  have hy := y.toNat_lt
  have hz := z.toNat_lt
  unfold avg3
  rw [i32_eq (by omega) (by omega)]
  exact Yields.pure trivial

theorem yields_avg2 (x y : UInt8) : Yields (fun _ => True) (avg2 x y) := by
  have hx := x.toNat_lt
  have hy := y.toNat_lt
  unfold avg2
  rw [i32_eq (by omega) (by omega)]
  exact Yields.pure trivial

/-- Every pixel of a list is there. -/
def Listed (l : List (Option UInt8)) : Prop := ∀ x ∈ l, Yields (fun _ => True) x

@[simp] theorem listed_nil : Listed [] := fun _ mem => absurd mem List.not_mem_nil

theorem listed_cons {x : Option UInt8} (h : Yields (fun _ => True) x) {l : List (Option UInt8)} :
    Listed (x :: l) ↔ Listed l := by
  constructor
  · exact fun all y mem => all y (List.mem_cons_of_mem _ mem)
  · intro rest y mem
    rcases List.mem_cons.mp mem with same | later
    · rw [same]
      exact h
    · exact rest y later

@[simp] theorem listed_avg3 (x y z : UInt8) (l : List (Option UInt8)) : Listed (avg3 x y z :: l) ↔ Listed l :=
  listed_cons (yields_avg3 x y z)

@[simp] theorem listed_avg2 (x y : UInt8) (l : List (Option UInt8)) : Listed (avg2 x y :: l) ↔ Listed l :=
  listed_cons (yields_avg2 x y)

@[simp] theorem listed_some (x : UInt8) (l : List (Option UInt8)) : Listed (some x :: l) ↔ Listed l :=
  listed_cons (Yields.pure trivial)

theorem yields_allOf {l : List (Option UInt8)} (listed : Listed l) :
    Yields (fun out => out.length = l.length) (allOf l) :=
  (Yields.mapM listed).mono fun _ known => known.1

theorem yields_smoothed {l : List UInt8} {i : Nat} (inside : i + 2 < l.length) :
    Yields (fun _ => True) (smoothed l i) := by
  refine (Yields.getElem? (by omega) fun _ _ => trivial).bind fun x _ => ?_
  refine (Yields.getElem? (by omega) fun _ _ => trivial).bind fun y _ => ?_
  refine (Yields.getElem? (by omega) fun _ _ => trivial).bind fun z _ => ?_
  exact yields_avg3 x y z

theorem yields_sixteen {f : Nat → Option UInt8} (each : ∀ k < 16, Yields (fun _ => True) (f k)) :
    Yields (fun out => out.length = 16) ((List.range 16).mapM f) :=
  (Yields.mapM fun k mem => each k (List.mem_range.mp mem)).mono fun _ known => by rw [known.1, List.length_range]

theorem mode_cases {mode : UInt8} (known : mode.toNat < 10) :
    mode = 0 ∨ mode = 1 ∨ mode = 2 ∨ mode = 3 ∨ mode = 4 ∨ mode = 5 ∨ mode = 6 ∨ mode = 7 ∨ mode = 8 ∨ mode = 9 := by
  simp only [← UInt8.toNat_inj, UInt8.reduceToNat]
  omega

theorem yields_subblockPixels {mode : UInt8} (p : UInt8) {t lf : List UInt8} (known : mode.toNat < 10)
    (eight : t.length = 8) (four : lf.length = 4) :
    Yields (fun out => out.length = 16) (subblockPixels mode p t lf) := by
  obtain ⟨t0, t1, t2, t3, t4, t5, t6, t7, rfl⟩ : ∃ t0 t1 t2 t3 t4 t5 t6 t7, t = [t0, t1, t2, t3, t4, t5, t6, t7] := by
    match t, eight with
    | [t0, t1, t2, t3, t4, t5, t6, t7], _ => exact ⟨t0, t1, t2, t3, t4, t5, t6, t7, rfl⟩
  obtain ⟨l0, l1, l2, l3, rfl⟩ : ∃ l0 l1 l2 l3, lf = [l0, l1, l2, l3] := by
    match lf, four with
    | [l0, l1, l2, l3], _ => exact ⟨l0, l1, l2, l3, rfl⟩
  simp only [subblockPixels]
  split
  · have h0 := t0.toNat_lt
    have h1 := t1.toNat_lt
    have h2 := t2.toNat_lt
    have h3 := t3.toNat_lt
    have g0 := l0.toNat_lt
    have g1 := l1.toNat_lt
    have g2 := l2.toNat_lt
    have g3 := l3.toNat_lt
    rw [i32_eq (by omega) (by omega)]
    exact Yields.pure (List.length_replicate ..)
  split
  · refine yields_sixteen fun k below => ?_
    refine (Yields.getElem? (by simp; omega) fun _ _ => trivial).bind fun l _ => ?_
    refine (Yields.getElem? (by simp; omega) fun _ _ => trivial).bind fun a _ => ?_
    have hl := l.toNat_lt
    have ha := a.toNat_lt
    have hp := p.toNat_lt
    simp only [i32_eq (v := (l.toNat : Int) + a.toNat) (by omega) (by omega), Option.bind_eq_bind, Option.bind_some,
      i32_eq (v := (l.toNat : Int) + a.toNat - p.toNat) (by omega) (by omega)]
    exact Yields.pure trivial
  split
  · refine (yields_allOf (by simp)).bind fun row length => Yields.pure ?_
    · simp only [List.length_append, length]
      rfl
  split
  · refine (yields_allOf (by simp)).bind fun v length => Yields.pure ?_
    · simp only [List.length_flatMap, List.length_replicate, List.map_const', List.sum_replicate_nat, length]
      rfl
  split
  · refine yields_sixteen fun k below => ?_
    split
    · exact yields_smoothed (by simp; omega)
    · exact yields_avg3 _ _ _
  split
  · exact yields_sixteen fun k below => yields_smoothed (by simp; omega)
  split
  · exact yields_allOf (by simp)
  split
  · exact yields_allOf (by simp)
  split
  · exact yields_allOf (by simp)
  split
  · exact yields_allOf (by simp)
  · obtain h | h | h | h | h | h | h | h | h | h := mode_cases known <;> exact absurd h (by assumption)

variable {n : Nat}

theorem ws_row_end {stride r : Nat} (wide : n < stride) (below : r < n) :
    stride + 1 + r * stride + n ≤ (n + 1) * stride := by
  have := Grid.run_end_le (show 1 + n ≤ stride by omega) (show r + 1 < n + 1 by omega)
  rw [Nat.add_mul, Nat.one_mul] at this
  omega

theorem ws_left {stride r : Nat} (wide : n < stride) (below : r < n) : (r + 1) * stride < (n + 1) * stride :=
  Nat.mul_lt_mul_of_pos_right (by omega) (by omega)

theorem yields_sumOf (px : List UInt8) (few : px.length ≤ 16) :
    Yields (fun s : Int => 0 ≤ s ∧ s ≤ 255 * px.length) (sumOf px) := by
  have onto : ∀ (px : List UInt8) (s : Int), 0 ≤ s → s + 255 * px.length ≤ 4294967295 →
      Yields (fun t : Int => 0 ≤ t ∧ t ≤ s + 255 * px.length)
        (px.foldlM (fun s (p : UInt8) => u32 (s + p.toNat)) s) := by
    intro px
    induction px with
    | nil => exact fun s low _ => Yields.pure ⟨low, by simp⟩
    | cons p px ih =>
        intro s low high
        have := p.toNat_lt
        rw [List.length_cons] at high
        rw [List.foldlM_cons, u32_eq (by omega) (by omega)]
        refine (ih (s + p.toNat) (by omega) (by omega)).mono fun t known => ?_
        rw [List.length_cons]
        omega
  refine (onto px 0 le_rfl (by omega)).mono fun t known => by omega

theorem tracks_edgeSum {edge : Edit UInt8 (List UInt8)} {size : Nat} (present : Bool) (few : n ≤ 16)
    (reads : Tracks size Set.univ Set.univ (fun px : List UInt8 => px.length = n) edge) :
    Tracks size Set.univ Set.univ (fun e => 0 ≤ e.1 ∧ e.1 ≤ 4080 ∧ e.2 ≤ 1) (edgeSum present edge) := by
  unfold edgeSum
  split
  · refine reads.bind fun px length => ?_
    refine (Tracks.lift (yields_sumOf px (by omega))).bind fun s known => ?_
    exact Tracks.pure ⟨known.1, by show s ≤ 4080; omega, le_rfl⟩
  · exact Tracks.pure ⟨le_rfl, by decide, by decide⟩

theorem yields_dcOf {above left : Int × Nat} (ha : 0 ≤ above.1 ∧ above.1 ≤ 4080 ∧ above.2 ≤ 1)
    (hl : 0 ≤ left.1 ∧ left.1 ≤ 4080 ∧ left.2 ≤ 1) : Yields (fun _ => True) (dcOf n above left) := by
  unfold dcOf
  rw [u32_eq (by omega) (by omega)]
  simp only [Option.bind_eq_bind, Option.bind_some]
  split
  · exact Yields.pure trivial
  · have shift : (if n = 16 then 3 else 2) ≤ 3 := by split <;> decide
    have bit : 1 <<< ((if n = 16 then 3 else 2) + above.2 + left.2 - 1) ≤ 2 ^ 4 := by
      rw [Nat.shiftLeft_eq, Nat.one_mul]
      exact Nat.pow_le_pow_right (by decide) (by omega)
    have bit' : ((1 <<< ((if n = 16 then 3 else 2) + above.2 + left.2 - 1) : Nat) : Int) ≤ 16 := by exact_mod_cast bit
    have := Int.natCast_nonneg (1 <<< ((if n = 16 then 3 else 2) + above.2 + left.2 - 1))
    rw [u32_eq (by linarith) (by linarith)]
    exact Yields.pure trivial

theorem yields_tmPixel (p l a : UInt8) : Yields (fun _ => True) (tmPixel p l a) := by
  have hp := p.toNat_lt
  have hl := l.toNat_lt
  have ha := a.toNat_lt
  unfold tmPixel
  rw [i32_eq (by omega) (by omega)]
  simp only [Option.bind_eq_bind, Option.bind_some]
  rw [i32_eq (by omega) (by omega)]
  exact Yields.pure trivial

theorem tracks_fillRow {stride r : Nat} (wide : n < stride) (below : r < n) (v : UInt8) :
    Tracks ((n + 1) * stride) Set.univ Set.univ (fun _ => True) (fillRow stride n r v) :=
  (Tracks.splice (by rw [List.length_replicate]; exact ws_row_end wide below)).mono (fun _ h => h)
    Set.subset_union_left

theorem tracks_predictBlock {stride : Nat} {mode : UInt8} (wide : n < stride) (few : n ≤ 16)
    (whole : mode.toNat ≤ 3) (haveAbove haveLeft : Bool) :
    Tracks ((n + 1) * stride) Set.univ Set.univ (fun _ => True) (predictBlock stride n mode haveAbove haveLeft) := by
  have top : 1 + n ≤ (n + 1) * stride := by
    have : 0 * stride + stride ≤ (n + 1) * stride := Grid.row_end_le stride (Nat.succ_pos n)
    omega
  unfold predictBlock
  split
  · have column : Tracks ((n + 1) * stride) Set.univ Set.univ (fun px : List UInt8 => px.length = n)
        (leftColumn stride n) :=
      (Tracks.mapM (P := fun _ => True) fun r mem =>
        Tracks.get (ws_left wide (List.mem_range.mp mem)) (Set.mem_univ _)).mono
          (fun px known => by rw [known.1, List.length_range]) le_rfl
    refine (tracks_edgeSum haveAbove few (Tracks.slice top fun _ _ _ => Set.mem_univ _)).bind fun above ha => ?_
    refine (tracks_edgeSum haveLeft few column).bind fun left hl => ?_
    refine (Tracks.lift (yields_dcOf ha hl)).bind fun dc _ => ?_
    exact Tracks.loop (fun _ _ => True) (fun _ => Set.univ) trivial fun r below _ _ => tracks_fillRow wide below dc
  split
  · refine Tracks.loop (fun _ _ => True) (fun _ => Set.univ) trivial fun r below _ _ => ?_
    refine (Tracks.slice top fun _ _ _ => Set.mem_univ _).bind fun row length => ?_
    refine (Tracks.splice ?_).mono (fun _ h => h) Set.subset_union_left
    rw [length]
    exact ws_row_end wide below
  split
  · refine Tracks.loop (fun _ _ => True) (fun _ => Set.univ) trivial fun r below _ _ => ?_
    exact (Tracks.get (ws_left wide below) (Set.mem_univ _)).bind fun l _ => tracks_fillRow wide below l
  split
  · refine (Tracks.get (by omega) (Set.mem_univ _)).bind fun p _ => ?_
    refine Tracks.loop (fun _ _ => True) (fun _ => Set.univ) trivial fun r below _ _ => ?_
    refine (Tracks.get (ws_left wide below) (Set.mem_univ _)).bind fun l _ => ?_
    refine Tracks.loop (fun _ _ => True) (fun _ => Set.univ) trivial fun c below' _ _ => ?_
    refine (Tracks.get (by omega) (Set.mem_univ _)).bind fun a _ => ?_
    refine (Tracks.lift (yields_tmPixel p l a)).bind fun v _ => ?_
    have := ws_row_end wide below
    exact Tracks.set v (by omega)
  · obtain h | h | h | h | h | h | h | h | h | h := mode_cases (show mode.toNat < 10 by omega)
    all_goals first
      | exact absurd h (by assumption)
      | (subst h; exact absurd whole (by decide))

/-- The places a subblock is predicted from and written to lie in the workspace. -/
structure SubblockIn (size stride pos : Nat) : Prop where
  above : stride < pos
  wide : 4 ≤ stride
  bottom : pos + 3 * stride + 4 ≤ size

theorem tracks_predictSubblock {size stride pos : Nat} {mode : UInt8} (place : SubblockIn size stride pos)
    (known : mode.toNat < 10) :
    Tracks size Set.univ Set.univ (fun _ => True) (predictSubblock stride pos mode) := by
  obtain ⟨above, wide, bottom⟩ := place
  have row (r : Nat) (below : r < 4) : r * stride ≤ 3 * stride := Nat.mul_le_mul_right _ (by omega)
  unfold predictSubblock
  refine (Tracks.lift (Yields.sub above.le)).bind fun a same => ?_
  subst same
  refine (Tracks.lift (Yields.sub (by omega))).bind fun corner same => ?_
  subst same
  refine (Tracks.get (by omega) (Set.mem_univ _)).bind fun p _ => ?_
  refine (Tracks.slice (by omega) fun _ _ _ => Set.mem_univ _).bind fun t eight => ?_
  refine (Tracks.lift (Yields.sub (by omega))).bind fun before same => ?_
  subst same
  refine (Tracks.mapM (P := fun _ => True) fun i mem => ?_).bind fun lf four => ?_
  · have := row i (List.mem_range.mp mem)
    exact Tracks.get (by omega) (Set.mem_univ _)
  refine (Tracks.lift (yields_subblockPixels p known eight (by rw [four.1, List.length_range]))).bind fun b sixteen => ?_
  refine Tracks.loop (fun _ _ => True) (fun _ => Set.univ) trivial fun r below _ _ => ?_
  refine (Tracks.lift (Yields.sliceOf (P := fun _ => True) (by omega) fun _ _ => trivial)).bind fun out length => ?_
  have := row r below
  refine (Tracks.splice ?_).mono (fun _ h => h) Set.subset_union_left
  rw [length.1]
  omega

/-! ## Macroblocks of a plane -/

/-- A macroblock of `n` by `n` pixels in a plane of `cols` by `rows` of them,
    `s` pixels wide. -/
structure MbAt (s n cols rows mbx mby : Nat) : Prop where
  width : s = cols * n
  across : mbx < cols
  down : mby < rows
  size : 4 ≤ n

/-- The pixels decoded before the macroblock in column `col` of row `row`. -/
def Decoded (s n row col : Nat) : Set Nat := {i | i / s < row * n ∨ i / s < row * n + n ∧ i % s < col * n}

namespace MbAt

variable {s n cols rows mbx mby : Nat}

theorem right (h : MbAt s n cols rows mbx mby) : mbx * n + n ≤ s := by
  rw [h.width]
  exact Grid.row_end_le n h.across

theorem bottom (h : MbAt s n cols rows mbx mby) : mby * n + n ≤ rows * n := Grid.row_end_le n h.down

theorem further (h : MbAt s n cols rows mbx mby) (more : mbx + 1 ≠ cols) : mbx * n + n + n ≤ s := by
  have := Grid.row_end_le n (show mbx + 1 < cols by have := h.across; omega)
  rw [Nat.add_mul, Nat.one_mul, ← h.width] at this
  exact this

theorem above_decoded (h : MbAt s n cols rows mbx mby) (top : mby ≠ 0) {x k i : Nat} (fits : x + k ≤ s)
    (low : (mby * n - 1) * s + x ≤ i) (high : i < (mby * n - 1) * s + x + k) : i ∈ Decoded s n mby mbx := by
  have := ((Grid.mem_run (mby * n - 1) fits).mp ⟨low, high⟩).1
  have pos : 0 < mby * n := Nat.mul_pos (Nat.pos_of_ne_zero top) (by have := h.size; omega)
  exact Or.inl (by omega)

/-- The pixel before the block in a row of the macroblock is decoded. -/
theorem left_decoded (h : MbAt s n cols rows mbx mby) (inner : mbx ≠ 0) {r : Nat} (below : r < n) :
    (mby * n + r) * s + mbx * n - 1 ∈ Decoded s n mby mbx := by
  have pos : 0 < mbx * n := Nat.mul_pos (Nat.pos_of_ne_zero inner) (by have := h.size; omega)
  have := h.right
  rw [Nat.add_sub_assoc pos]
  refine Or.inr ⟨?_, ?_⟩
  · rw [Grid.place_div _ (by omega)]
    omega
  · rw [Grid.place_mod _ (by omega)]
    omega

end MbAt

section border

variable {s n cols rows mbx mby : Nat} (place : MbAt s n cols rows mbx mby) {aboveRight lastCol : Bool}
  (last : aboveRight = true → lastCol = decide (mbx + 1 = cols))
include place last

theorem fillAbove_congr {size : Nat} {p q : List UInt8} (agree : Agree size (Decoded s n mby mbx) p q) :
    fillAbove p s n mbx mby aboveRight lastCol = fillAbove q s n mbx mby aboveRight lastCol := by
  unfold fillAbove
  by_cases top : mby = 0
  · rw [if_pos top, if_pos top]
  rw [if_neg top, if_neg top]
  have pos : 0 < mby * n := Nat.mul_pos (Nat.pos_of_ne_zero top) (by have := place.size; omega)
  have four := place.size
  have right := place.right
  have row : sliceOf p ((mby * n - 1) * s + mbx * n) n = sliceOf q ((mby * n - 1) * s + mbx * n) n :=
    agree.sliceOf fun i low high => place.above_decoded top right low high
  have corner : cornerPixel p ((mby * n - 1) * s + mbx * n) mbx = cornerPixel q ((mby * n - 1) * s + mbx * n) mbx := by
    unfold cornerPixel
    by_cases first : mbx = 0
    · rw [if_pos first, if_pos first]
    · have gap : 0 < mbx * n := Nat.mul_pos (Nat.pos_of_ne_zero first) (by omega)
      rw [if_neg first, if_neg first, sub_eq (by omega)]
      refine agree.same _ (place.above_decoded top (x := mbx * n - 1) (k := 1) (by omega) ?_ ?_) <;> omega
  have ahead : fillAboveRight p ((mby * n - 1) * s + mbx * n) n aboveRight lastCol
      = fillAboveRight q ((mby * n - 1) * s + mbx * n) n aboveRight lastCol := by
    unfold fillAboveRight aboveRightPixels
    by_cases wanted : aboveRight = true
    · rw [if_pos wanted, if_pos wanted, last wanted]
      by_cases final : mbx + 1 = cols
      · have there : p[(mby * n - 1) * s + mbx * n + n - 1]? = q[(mby * n - 1) * s + mbx * n + n - 1]? :=
          agree.same _ (place.above_decoded top right (by omega) (by omega))
        simp only [if_pos (decide_eq_true final), sub_eq (show 1 ≤ (mby * n - 1) * s + mbx * n + n by omega),
          Option.bind_eq_bind, Option.bind_some, there]
      · have more := place.further final
        rw [if_neg (by simpa using final), if_neg (by simpa using final),
          agree.sliceOf fun i low high =>
            place.above_decoded top (x := mbx * n) (k := n + 4) (by omega) (by omega) (by omega)]
    · rw [if_neg wanted, if_neg wanted]
  simp only [sub_eq pos, lift_some_bind, row, corner, ahead]

theorem fillWsBorder_congr {size wsStride : Nat} {p q : List UInt8} (agree : Agree size (Decoded s n mby mbx) p q) :
    fillWsBorder wsStride p s n mbx mby aboveRight lastCol = fillWsBorder wsStride q s n mbx mby aboveRight lastCol := by
  unfold fillWsBorder
  rw [fillAbove_congr place last agree]
  congr 1
  funext _
  have pixel : ∀ r < n, leftPixel p s n mbx mby r = leftPixel q s n mbx mby r := by
    intro r below
    unfold leftPixel
    by_cases first : mbx = 0
    · rw [if_pos first, if_pos first]
    · have gap : 0 < mbx * n := Nat.mul_pos (Nat.pos_of_ne_zero first) (by omega)
      rw [if_neg first, if_neg first, sub_eq (by omega)]
      exact agree.same _ (place.left_decoded first below)
  exact congrFun (loop_congr fun r below => by rw [pixel r below]) ()

variable {stride : Nat} {plane : List UInt8} (wide : n < stride) (room : aboveRight = true → n + 5 ≤ stride)
  (length : plane.length = rows * n * s)
include wide room length

theorem tracks_fillAbove :
    Tracks ((n + 1) * stride) Set.univ Set.univ (fun _ => True) (fillAbove plane s n mbx mby aboveRight lastCol) := by
  have four := place.size
  have right := place.right
  have bottom := place.bottom
  have first : 0 * stride + stride ≤ (n + 1) * stride := Grid.row_end_le stride (Nat.succ_pos n)
  unfold fillAbove
  split
  · refine (Tracks.splice ?_).mono (fun _ h => h) Set.subset_union_left
    rw [List.length_replicate]
    split
    next wanted =>
      have := room wanted
      omega
    next => omega
  next top =>
    have pos : 0 < mby * n := Nat.mul_pos (Nat.pos_of_ne_zero top) (by omega)
    have above {x k : Nat} (fits : x + k ≤ s) : (mby * n - 1) * s + x + k ≤ plane.length := by
      rw [length]
      exact Grid.run_end_le fits (by omega)
    have inside := above right
    refine (Tracks.lift (Yields.sub (show 1 ≤ mby * n by omega))).bind fun y same => ?_
    subst same
    refine (Tracks.lift (Yields.sliceOf (P := fun _ => True) inside fun _ _ => trivial)).bind fun row known => ?_
    refine ((Tracks.splice (by rw [known.1]; omega)).mono (fun _ h => h) Set.subset_union_left).bind fun _ _ => ?_
    have ahead : Tracks ((n + 1) * stride) Set.univ Set.univ (fun _ => True)
        (fillAboveRight plane ((mby * n - 1) * s + mbx * n) n aboveRight lastCol) := by
      unfold fillAboveRight
      split
      next wanted =>
        have fits := room wanted
        have pixels : Yields (fun px : List UInt8 => px.length = 4)
            (aboveRightPixels plane ((mby * n - 1) * s + mbx * n) n lastCol) := by
          unfold aboveRightPixels
          rw [last wanted]
          by_cases final : mbx + 1 = cols
          · rw [if_pos (decide_eq_true final), sub_eq (by omega)]
            refine (Yields.getElem? (by omega) fun _ _ => trivial).bind fun v _ => ?_
            exact Yields.pure (List.length_replicate ..)
          · have more := place.further final
            rw [if_neg (by simpa using final)]
            have inside' := above (x := mbx * n) (k := n + 4) (by omega)
            exact (Yields.sliceOf (P := fun _ => True) (by omega) fun _ _ => trivial).mono fun _ known => known.1
        refine (Tracks.lift pixels).bind fun px four => ?_
        exact (Tracks.splice (by rw [four]; omega)).mono (fun _ h => h) Set.subset_union_left
      next => exact Tracks.pure trivial
    refine ahead.bind fun _ _ => ?_
    have corner : Yields (fun _ => True) (cornerPixel plane ((mby * n - 1) * s + mbx * n) mbx) := by
      unfold cornerPixel
      split
      · exact Yields.pure trivial
      next inner =>
        have gap : 0 < mbx * n := Nat.mul_pos (Nat.pos_of_ne_zero inner) (by omega)
        rw [sub_eq (by omega)]
        exact Yields.getElem? (by omega) fun _ _ => trivial
    refine (Tracks.lift corner).bind fun v _ => ?_
    exact Tracks.set v (by omega)

theorem tracks_fillWsBorder :
    Tracks ((n + 1) * stride) Set.univ Set.univ (fun _ => True)
      (fillWsBorder stride plane s n mbx mby aboveRight lastCol) := by
  have right := place.right
  have bottom := place.bottom
  refine (tracks_fillAbove place last wide room length).bind fun _ _ => ?_
  refine Tracks.loop (fun _ _ => True) (fun _ => Set.univ) trivial fun r below _ _ => ?_
  have pixel : Yields (fun _ => True) (leftPixel plane s n mbx mby r) := by
    unfold leftPixel
    split
    · exact Yields.pure trivial
    next inner =>
      have gap : 0 < mbx * n := Nat.mul_pos (Nat.pos_of_ne_zero inner) (by omega)
      have inside : (mby * n + r) * s + mbx * n + n ≤ rows * n * s := Grid.run_end_le right (by omega)
      rw [sub_eq (by omega)]
      exact Yields.getElem? (by omega) fun _ _ => trivial
  exact (Tracks.lift pixel).bind fun v _ => Tracks.set v (ws_left wide below)

end border

/-- The next macroblock of a row adds its own pixels to what is decoded. -/
theorem decoded_next {s n row col i : Nat} (mem : i ∈ Decoded s n row (col + 1)) :
    i ∈ Decoded s n row col ∨ i ∈ Grid.Rect s (col * n) (row * n) n n := by
  rcases mem with above | ⟨low, high⟩
  · exact Or.inl (Or.inl above)
  by_cases earlier : i / s < row * n
  · exact Or.inl (Or.inl earlier)
  by_cases before : i % s < col * n
  · exact Or.inl (Or.inr ⟨low, before⟩)
  · rw [Nat.add_mul, Nat.one_mul] at high
    exact Or.inr ⟨by omega, low, by omega, high⟩

theorem tracks_storeWs {s n cols rows mbx mby stride : Nat} {ws : List UInt8} (place : MbAt s n cols rows mbx mby)
    (wide : n < stride) (length : ws.length = (n + 1) * stride) :
    Tracks (rows * n * s) (Decoded s n mby mbx) (Decoded s n mby (mbx + 1)) (fun _ => True)
      (storeWs ws stride s n mbx mby) := by
  refine (Grid.tracks_writeRows place.right place.bottom (fun _ _ => rfl) fun r below => ?_).mono (fun _ h => h)
    fun i mem => decoded_next mem
  have inside := ws_row_end wide below
  refine (Yields.sliceOf (P := fun _ => True) ?_ fun _ _ => trivial).mono fun row known => known.1
  rw [length, Nat.add_mul, Nat.one_mul]
  omega

end K2.Vp8
