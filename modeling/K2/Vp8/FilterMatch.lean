import K2.Lib.EditPairs
import K2.Vp8.ReferenceFilter

/-! # The loop filter in lanes is the reference

Edge by edge the same segments are gathered, filtered alike and written to the
same places, so that a macroblock's edges, which overlap, leave the same bytes.
An edge changes three pixels on each side of it. -/

namespace K2.Vp8

open Checked Buffers Buffers.Edit

section edges

variable {n pos s size first last : Nat} {W : Set Nat} {seg : List Segment}

/-- A vertical edge in a buffer, what it changes in `W`. -/
structure VerticalEdge (size : Nat) (W : Set Nat) (n pos s : Nat) : Prop where
  positive : 0 < n
  low : 4 ≤ pos
  high : pos + (n - 1) * s + 4 ≤ size
  changed : ∀ i < n, ∀ j, pos + i * s ≤ j + 3 → j < pos + i * s + 3 → j ∈ W

/-- A horizontal edge, which is no vertical one. -/
structure HorizontalEdge (size : Nat) (W : Set Nat) (n pos s : Nat) : Prop where
  wide : s ≠ 1
  low : 4 * s ≤ pos
  high : pos + 3 * s + n ≤ size
  changed : ∀ k, 1 ≤ k → k < 7 → ∀ j, pos + k * s ≤ j + 4 * s → j + 4 * s < pos + k * s + n → j ∈ W

theorem row_le {i : Nat} (s : Nat) (below : i < n) : i * s ≤ (n - 1) * s := Nat.mul_le_mul_right _ (by omega)

theorem loadV_eq (edge : VerticalEdge size W n pos s) {b : List UInt8} (length : b.length = size) :
    loadV n pos s b = (Reference.load b pos 1 s n).map (·, b) := by
  obtain ⟨-, low, high, -⟩ := edge
  have room : pos - 4 + ((n - 1) * s + 8) ≤ b.length := by omega
  have each : ∀ i ∈ List.range n,
      (do Segment.ofTaps (← sliceOf ((b.drop (pos - 4)).take ((n - 1) * s + 8)) (i * s) 8) : Option _)
        = (do Segment.ofTaps (← sliceOf b (← sub (pos + i * s) 4) 8)) := by
    intro i mem
    have := row_le s (List.mem_range.mp mem)
    rw [sliceOf_run room (by omega), sub_eq (by omega), show pos - 4 + i * s = pos + i * s - 4 by omega]
    rfl
  unfold loadV Reference.load
  rw [sub_eq low, lift_some_bind, if_pos rfl, ← mapM_congr each]
  rw [slice_bind room, lift_apply]

theorem loadH_eq (edge : HorizontalEdge size W n pos s) {b : List UInt8} (length : b.length = size) :
    loadH n pos s b = (Reference.load b pos s 1 n).map (·, b) := by
  obtain ⟨wide, low, high, -⟩ := edge
  have room : pos - 4 * s + (7 * s + n) ≤ b.length := by omega
  have each : ∀ k ∈ List.range 8, sliceOf ((b.drop (pos - 4 * s)).take (7 * s + n)) (k * s) n
      = (do sliceOf b (← sub (pos + k * s) (4 * s)) n) := by
    intro k mem
    have : k * s ≤ 7 * s := row_le s (List.mem_range.mp mem)
    rw [sliceOf_run room (by omega), sub_eq (by omega), show pos - 4 * s + k * s = pos + k * s - 4 * s by omega]
    rfl
  unfold loadH Reference.load
  rw [sub_eq low, lift_some_bind, if_neg wide, ← mapM_congr each]
  rw [slice_bind room, lift_bind]
  simp only [lift_apply]
  exact (Option.map_bind ..).symm

theorem loadsV (edge : VerticalEdge size W n pos s) {b : List UInt8} (length : b.length = size) :
    ∃ seg, loadV n pos s b = some (seg, b) ∧ Reference.load b pos 1 s n = some seg ∧ seg.length = n := by
  have there : VerticalIn size Set.univ n pos s := ⟨edge.low, edge.high, fun _ _ => Set.mem_univ _⟩
  obtain ⟨seg, b', -, ran, -, count, -⟩ := tracks_loadV there b b (Agree.refl _ length)
  have same := loadV_eq edge length
  rw [ran] at same
  obtain ⟨seg', found, pair⟩ := Option.map_eq_some_iff.mp same.symm
  cases pair
  exact ⟨seg, ran, found, count⟩

theorem loadsH (edge : HorizontalEdge size W n pos s) {b : List UInt8} (length : b.length = size) :
    ∃ seg, loadH n pos s b = some (seg, b) ∧ Reference.load b pos s 1 n = some seg ∧ seg.length = n := by
  have there : HorizontalIn size Set.univ n pos s := ⟨edge.low, edge.high, fun _ _ => Set.mem_univ _⟩
  obtain ⟨seg, b', -, ran, -, count, -⟩ := tracks_loadH there b b (Agree.refl _ length)
  have same := loadH_eq edge length
  rw [ran] at same
  obtain ⟨seg', found, pair⟩ := Option.map_eq_some_iff.mp same.symm
  cases pair
  exact ⟨seg, ran, found, count⟩

theorem matches_load {m : Edit UInt8 (List Segment)} {f : List UInt8 → Option (List Segment)}
    (loads : ∀ b, b.length = size → ∃ seg, m b = some (seg, b) ∧ f b = some seg ∧ seg.length = n) :
    Matches size W (fun seg => seg.length = n) m fun b => (f b).map (·, b) := by
  intro b length
  obtain ⟨seg, ran, found, count⟩ := loads b length
  exact ⟨seg, b, ran, by simp only [found, Option.map_some], count, Agree.refl _ length⟩

/-- The taps a filter may change lie inside its segment. -/
structure Inner (first last : Nat) : Prop where
  low : 1 ≤ first
  ordered : first ≤ last
  high : last ≤ 7

theorem Kind.inner (kind : Kind) : Inner kind.taps.1 kind.taps.2 := by
  cases kind <;> exact ⟨by decide, by decide, by decide⟩

theorem matches_storeV (edge : VerticalEdge size W n pos s) (count : seg.length = n) (inner : Inner first last) :
    Matches size W (fun _ => True) (storeV n pos s seg first last) (Reference.store pos 1 s n seg first last) := by
  obtain ⟨-, low, high, changed⟩ := edge
  obtain ⟨one, ordered, seven⟩ := inner
  have span : pos - 4 + ((n - 1) * s + 8) ≤ size := by omega
  have middle (g : Segment) : ((g.taps.take last).drop first).length = last - first := by
    rw [List.length_drop, List.length_take, length_taps]
    omega
  unfold Reference.store
  rw [if_pos rfl]
  refine Matches.of_same ?_ (Matches.loop fun i below => ?_)
  · intro b length
    unfold storeV
    rw [sub_eq low, lift_some_bind]
    refine Mirrors.within (Mirrors.loop span fun i below => ?_) span length
    have row := row_le s below
    obtain ⟨g, there⟩ : ∃ g, seg[i]? = some g := ⟨seg[i], List.getElem?_eq_getElem (by omega)⟩
    rw [sub_eq (by omega), there]
    intro b length
    subst length
    have size := length_run span
    have inside : i * s + 8 ≤ ((b.drop (pos - 4)).take ((n - 1) * s + 8)).length := by omega
    have fits : i * s + first + ((g.taps.take last).drop first).length ≤ (n - 1) * s + 8 := by
      rw [middle]
      omega
    refine ⟨patched ((b.drop (pos - 4)).take ((n - 1) * s + 8)) (i * s + first) ((g.taps.take last).drop first),
      ?_, ?_, ?_⟩
    · show ((sliceOf ((b.drop (pos - 4)).take ((n - 1) * s + 8)) (i * s) 8).map (·, _) >>= _) = _
      rw [sliceOf_eq inside, ← patched_middle inside ⟨ordered, by omega⟩ (middle g)]
      refine if_pos ?_
      simp only [List.length_append, List.length_take, List.length_drop, middle] at size ⊢
      omega
    · rw [length_patched (by omega), size]
    · rw [patched_run span fits, show pos - 4 + (i * s + first) = pos + i * s - 4 + first by omega]
      refine if_pos ?_
      rw [middle]
      omega
  · have row := row_le s below
    rw [sub_eq (by omega), List.getElem?_eq_getElem (show i < seg.length by omega)]
    refine Matches.splice ?_ fun j low high => changed i below j ?_ ?_
    · rw [middle]
      omega
    · omega
    · rw [middle] at high
      omega

theorem matches_storeH (edge : HorizontalEdge size W n pos s) (count : seg.length = n) (inner : Inner first last) :
    Matches size W (fun _ => True) (storeH n pos s seg first last) (Reference.store pos s 1 n seg first last) := by
  obtain ⟨wide, low, high, changed⟩ := edge
  obtain ⟨one, ordered, seven⟩ := inner
  have span : pos - 4 * s + (7 * s + n) ≤ size := by omega
  have taken {k : Nat} (below : k < 8) :
      ∃ row : List UInt8, (seg.mapM fun g => g.taps[k]?) = some row ∧ row.length = n := by
    obtain ⟨row, same, known⟩ := Yields.mapM (f := fun g : Segment => g.taps[k]?) (l := seg) (Q := fun _ => True)
      fun g _ => Yields.getElem? (by rw [length_taps]; exact below) fun _ _ => trivial
    exact ⟨row, same, by rw [known.1, count]⟩
  have line {j : Nat} (below : j < last - first) : (first + j) * s ≤ 7 * s := Nat.mul_le_mul_right _ (by omega)
  unfold Reference.store
  rw [if_neg wide]
  refine Matches.of_same ?_ (Matches.loop fun j below => ?_)
  · intro b length
    unfold storeH
    rw [sub_eq low, lift_some_bind]
    refine Mirrors.within (Mirrors.loop span fun j below => ?_) span length
    obtain ⟨row, same, size⟩ := taken (show first + j < 8 by omega)
    have := line below
    rw [same, sub_eq (by omega)]
    simp only [lift_some_bind]
    rw [show pos + (first + j) * s - 4 * s = pos - 4 * s + (first + j) * s by omega]
    exact Mirrors.splice span (by omega)
  · obtain ⟨row, same, size⟩ := taken (show first + j < 8 by omega)
    have := line below
    rw [same, sub_eq (by omega)]
    simp only [lift_some_bind]
    refine Matches.splice (by omega) fun i low high => changed (first + j) (by omega) (by omega) i ?_ ?_
    · omega
    · omega

variable {kind : Kind} {l : Limits} {lane : Segment → Segment}

theorem matches_edgeV (bordering : VerticalEdge size W n pos s) (runs : ∀ g, kind.run l g = some (lane g)) :
    Matches size W (fun _ => True) (edge n pos s true kind l)
      (Reference.filtered lane pos 1 s n kind.taps.1 kind.taps.2) := by
  unfold edge Reference.filtered
  rw [if_pos rfl]
  refine (matches_load fun _ => loadsV bordering).bind fun seg count => ?_
  rw [mapM_eq_some fun g _ => runs g, lift_some_bind]
  exact matches_storeV bordering (by rw [List.length_map, count]) kind.inner

theorem matches_edgeH (bordering : HorizontalEdge size W n pos s) (runs : ∀ g, kind.run l g = some (lane g)) :
    Matches size W (fun _ => True) (edge n pos s false kind l)
      (Reference.filtered lane pos s 1 n kind.taps.1 kind.taps.2) := by
  unfold edge Reference.filtered
  rw [if_neg (by decide)]
  refine (matches_load fun _ => loadsH bordering).bind fun seg count => ?_
  rw [mapM_eq_some fun g _ => runs g, lift_some_bind]
  exact matches_storeH bordering (by rw [List.length_map, count]) kind.inner

end edges

/-! ## The edges of a macroblock -/

/-- A macroblock of `n` by `n` pixels in column `col` of row `row`, and the three
    pixels to its left and above it. -/
def Reach (s n row col : Nat) : Set Nat :=
  {i | (row * n ≤ i / s ∧ i / s < row * n + n ∧ col * n ≤ i % s + 3 ∧ i % s < col * n + n)
    ∨ (row * n ≤ i / s + 3 ∧ i / s < row * n ∧ col * n ≤ i % s ∧ i % s < col * n + n)}

/-- A buffer of stride `s` that holds the macroblock. -/
structure Holds (size s n row col : Nat) : Prop where
  four : 4 ≤ n
  right : col * n + n ≤ s
  bottom : (row * n + n - 1) * s + (col * n + n) ≤ size

section plane

variable {size s n row col : Nat} (holds : Holds size s n row col)
include holds

theorem Holds.vertical {k : Nat} (low : 4 ≤ col * n + k) (high : k + 4 ≤ n) :
    VerticalEdge size (Reach s n row col) n (row * n * s + col * n + k) s := by
  obtain ⟨four, right, bottom⟩ := holds
  have last : (row * n + n - 1) * s = row * n * s + (n - 1) * s := by
    rw [← Nat.add_mul]
    congr 1
    omega
  refine ⟨by omega, by omega, by omega, fun i below j after before => ?_⟩
  have line : (row * n + i) * s = row * n * s + i * s := Nat.add_mul ..
  have place := (Grid.mem_run (i := j) (x := col * n + k - 3) (n := 6) (row * n + i) (show _ ≤ s by omega)).mp
    ⟨by omega, by omega⟩
  exact Or.inl ⟨by omega, by omega, by omega, by omega⟩

theorem Holds.horizontal {k : Nat} (low : 4 ≤ row * n + k) (high : k + 4 ≤ n) :
    HorizontalEdge size (Reach s n row col) n (row * n * s + col * n + k * s) s := by
  obtain ⟨four, right, bottom⟩ := holds
  have above : 4 * s ≤ (row * n + k) * s := Nat.mul_le_mul_right _ low
  have below : (row * n + k + 3) * s ≤ (row * n + n - 1) * s := Nat.mul_le_mul_right _ (by omega)
  rw [Nat.add_mul] at above
  rw [Nat.add_mul, Nat.add_mul] at below
  refine ⟨by omega, by omega, by omega, fun j first last i after before => ?_⟩
  have line : (row * n + k + j - 4) * s + 4 * s = row * n * s + k * s + j * s := by
    rw [← Nat.add_mul, ← Nat.add_mul, ← Nat.add_mul]
    congr 1
    omega
  have place := (Grid.mem_run (i := i) (row * n + k + j - 4) right).mp ⟨by omega, by omega⟩
  by_cases up : i / s < row * n
  · exact Or.inr ⟨by omega, up, by omega, by omega⟩
  · exact Or.inl ⟨by omega, by omega, by omega, by omega⟩

omit holds in
theorem matches_guarded {W : Set Nat} {b : Bool} {m m' : Edit UInt8 Unit}
    (h : b = true → Matches size W (fun _ => True) m m') :
    Matches size W (fun _ => True) (guarded b m) (guarded b m') := by
  unfold guarded
  split
  next on => exact h on
  next => exact Matches.pure trivial

variable {offsets : List Nat} {across innerKind : Kind} {mb sub : Limits} {laneMb laneSub : Segment → Segment}
  {inner : Bool}

/-- The edges of a macroblock, in lanes and one segment at a time. -/
theorem matches_filterPlane (inside : ∀ k ∈ offsets, 4 ≤ k ∧ k + 4 ≤ n)
    (runsMb : ∀ g, across.run mb g = some (laneMb g)) (runsSub : ∀ g, innerKind.run sub g = some (laneSub g)) :
    Matches size (Reach s n row col) (fun _ => True) (filterPlane n offsets across innerKind s row col mb sub inner) (do
      let pos := row * n * s + col * n
      guarded (col > 0) (Reference.filtered laneMb pos 1 s n across.taps.1 across.taps.2)
      guarded inner (offsets.forM fun k =>
        Reference.filtered laneSub (pos + k) 1 s n innerKind.taps.1 innerKind.taps.2)
      guarded (row > 0) (Reference.filtered laneMb pos s 1 n across.taps.1 across.taps.2)
      guarded inner (offsets.forM fun k =>
        Reference.filtered laneSub (pos + k * s) s 1 n innerKind.taps.1 innerKind.taps.2)) := by
  have four := holds.four
  have left (gap : 0 < col) : n ≤ col * n := Nat.le_mul_of_pos_left n gap
  have up (gap : 0 < row) : n ≤ row * n := Nat.le_mul_of_pos_left n gap
  unfold filterPlane
  refine (matches_guarded fun on => ?_).bind fun _ _ => ?_
  · have := left (of_decide_eq_true on)
    exact matches_edgeV (holds.vertical (k := 0) (by omega) (by omega)) runsMb
  refine (matches_guarded fun _ => Matches.forM fun k mem => ?_).bind fun _ _ => ?_
  · have := inside k mem
    exact matches_edgeV (holds.vertical (by omega) (by omega)) runsSub
  refine (matches_guarded fun on => ?_).bind fun _ _ => ?_
  · have := up (of_decide_eq_true on)
    have edge := holds.horizontal (k := 0) (by omega) (by omega)
    rw [Nat.zero_mul, Nat.add_zero] at edge
    exact matches_edgeH edge runsMb
  · refine matches_guarded fun _ => Matches.forM fun k mem => ?_
    have := inside k mem
    rw [Nat.add_comm (k * s)]
    exact matches_edgeH (holds.horizontal (by omega) this.2) runsSub

end plane

/-! ## U and V in the same lanes -/

/-- One edit of each of two buffers. -/
def both (m m' : Edit UInt8 Unit) (planes : List UInt8 × List UInt8) : Option (List UInt8 × List UInt8) := do
  let (_, u) ← m planes.1
  let (_, v) ← m' planes.2
  return (u, v)

theorem both_bind {m m' k k' : Edit UInt8 Unit} (planes : List UInt8 × List UInt8) :
    (both m m' planes >>= both k k') = both (m >>= fun _ => k) (m' >>= fun _ => k') planes := by
  have left : (m >>= fun _ => k) planes.1 = (m planes.1).bind fun r => k r.2 := rfl
  have right : (m' >>= fun _ => k') planes.2 = (m' planes.2).bind fun r => k' r.2 := rfl
  unfold both
  rw [left, right]
  cases m planes.1 with
  | none => rfl
  | some r =>
      cases m' planes.2 with
      | none =>
          show none = ((k r.2).bind fun _ => none)
          cases k r.2 <;> rfl
      | some r' => rfl

section chroma

variable {pos s : Nat} {U V : Set Nat} {planes : List UInt8 × List UInt8} {kind : Kind} {l : Limits}
  {lane : Segment → Segment}

theorem chromaEdge_eq {vertical : Bool} {inU inV : List Segment} (runs : ∀ g, kind.run l g = some (lane g))
    (readU : (if vertical then loadV 8 pos s else loadH 8 pos s) planes.1 = some (inU, planes.1))
    (readV : (if vertical then loadV 8 pos s else loadH 8 pos s) planes.2 = some (inV, planes.2))
    (eight : inU.length = 8) :
    chromaEdge pos s vertical kind l planes = both (edge 8 pos s vertical kind l) (edge 8 pos s vertical kind l) planes := by
  have lanes : (inU.map lane).length = 8 := by rw [List.length_map, eight]
  have first : ((inU ++ inV).map lane).take 8 = inU.map lane := by
    rw [List.map_append, ← lanes, List.take_left]
  have second : ((inU ++ inV).map lane).drop 8 = inV.map lane := by
    rw [List.map_append, ← lanes, List.drop_left]
  have alone {b : List UInt8} {seg : List Segment}
      (read : (if vertical then loadV 8 pos s else loadH 8 pos s) b = some (seg, b)) :
      edge 8 pos s vertical kind l b
        = (if vertical then storeV 8 pos s else storeH 8 pos s) (seg.map lane) kind.taps.1 kind.taps.2 b := by
    unfold edge
    cases vertical with
    | true =>
        show (loadV 8 pos s b).bind _ = _
        rw [show loadV 8 pos s b = _ from read]
        simp only [Option.bind_some, mapM_eq_some fun g _ => runs g]
        rfl
    | false =>
        show (loadH 8 pos s b).bind _ = _
        rw [show loadH 8 pos s b = _ from read]
        simp only [Option.bind_some, mapM_eq_some fun g _ => runs g]
        rfl
  unfold chromaEdge both
  rw [alone readU, alone readV]
  simp only [readU, readV, Option.bind_eq_bind, Option.bind_some, mapM_eq_some fun g _ => runs g, first, second]

theorem chromaEdge_vertical (inU : VerticalEdge planes.1.length U 8 pos s) (inV : VerticalEdge planes.2.length V 8 pos s)
    (runs : ∀ g, kind.run l g = some (lane g)) :
    chromaEdge pos s true kind l planes = both (edge 8 pos s true kind l) (edge 8 pos s true kind l) planes := by
  obtain ⟨segU, readU, -, eight⟩ := loadsV inU rfl
  obtain ⟨segV, readV, -⟩ := loadsV inV rfl
  exact chromaEdge_eq runs readU readV eight

theorem chromaEdge_horizontal (inU : HorizontalEdge planes.1.length U 8 pos s)
    (inV : HorizontalEdge planes.2.length V 8 pos s) (runs : ∀ g, kind.run l g = some (lane g)) :
    chromaEdge pos s false kind l planes = both (edge 8 pos s false kind l) (edge 8 pos s false kind l) planes := by
  obtain ⟨segU, readU, -, eight⟩ := loadsH inU rfl
  obtain ⟨segV, readV, -⟩ := loadsH inV rfl
  exact chromaEdge_eq runs readU readV eight

/-- Two planes of known lengths. -/
def Sized (a b : Nat) (planes : List UInt8 × List UInt8) : Prop := planes.1.length = a ∧ planes.2.length = b

variable {a b : Nat} {m k : Edit UInt8 Unit} {f g : List UInt8 × List UInt8 → Option (List UInt8 × List UInt8)}

theorem both_then (left : Runs (fun p => p.length = a) (fun _ => True) m)
    (right : Runs (fun p => p.length = b) (fun _ => True) m)
    (first : ∀ planes, Sized a b planes → f planes = both m m planes)
    (rest : ∀ planes, Sized a b planes → g planes = both k k planes) :
    ∀ planes, Sized a b planes → (f planes >>= g) = both (m >>= fun _ => k) (m >>= fun _ => k) planes := by
  intro planes sized
  obtain ⟨_, u, ran, -, length⟩ := left planes.1 sized.1
  obtain ⟨_, v, ran', -, length'⟩ := right planes.2 sized.2
  have done : both m m planes = some (u, v) := by
    simp only [both, ran, ran', Option.bind_eq_bind, Option.bind_some, Option.pure_def]
  rw [← both_bind, first planes sized, done, Option.bind_eq_bind, Option.bind_some]
  exact rest (u, v) ⟨length, length'⟩

theorem both_guarded {c vertical : Bool} {pos : Nat}
    (same : c = true → ∀ planes, Sized a b planes → chromaEdge pos s vertical kind l planes = both m m planes) :
    ∀ planes, Sized a b planes →
      chromaEdgeIf c pos s vertical kind l planes = both (guarded c m) (guarded c m) planes := by
  intro planes sized
  cases c with
  | true => exact same rfl planes sized
  | false => rfl

theorem forM_single {e : Nat → Edit UInt8 Unit} {k : Nat} : [k].forM e = e k := bind_pure_unit

theorem filterChromas_eq {row col : Nat} {mb sub : Limits} (inner : Bool) {laneMb laneSub : Segment → Segment}
    (inU : Holds a s 8 row col) (inV : Holds b s 8 row col) (runsMb : ∀ g, Kind.macroblock.run mb g = some (laneMb g))
    (runsSub : ∀ g, Kind.subblock.run sub g = some (laneSub g)) :
    ∀ planes, Sized a b planes → filterChromas s row col mb sub inner planes
      = both (filterPlane 8 [4] .macroblock .subblock s row col mb sub inner)
        (filterPlane 8 [4] .macroblock .subblock s row col mb sub inner) planes := by
  have left (gap : 0 < col) : 8 ≤ col * 8 := Nat.le_mul_of_pos_left 8 gap
  have up (gap : 0 < row) : 8 ≤ row * 8 := Nat.le_mul_of_pos_left 8 gap
  have top {size : Nat} (h : Holds size s 8 row col) (gap : 0 < row) :
      HorizontalEdge size (Reach s 8 row col) 8 (row * 8 * s + col * 8) s := by
    have edge := h.horizontal (k := 0) (by have := up gap; omega) (by omega)
    rwa [Nat.zero_mul, Nat.add_zero] at edge
  have first {size : Nat} (h : Holds size s 8 row col) (gap : 0 < col) :
      VerticalEdge size (Reach s 8 row col) 8 (row * 8 * s + col * 8) s :=
    h.vertical (k := 0) (by have := left gap; omega) (by omega)
  have second {size : Nat} (h : Holds size s 8 row col) :
      VerticalEdge size (Reach s 8 row col) 8 (row * 8 * s + col * 8 + 4) s := h.vertical (by omega) (by omega)
  have third {size : Nat} (h : Holds size s 8 row col) :
      HorizontalEdge size (Reach s 8 row col) 8 (4 * s + (row * 8 * s + col * 8)) s := by
    rw [Nat.add_comm (4 * s)]
    exact h.horizontal (by omega) (by omega)
  have run {size : Nat} (h : Holds size s 8 row col) :=
    (matches_guarded fun on => matches_edgeV (first h (of_decide_eq_true on)) runsMb).runs
  have run' {size : Nat} (h : Holds size s 8 row col) :=
    (matches_guarded (b := inner) fun _ => matches_edgeV (second h) runsSub).runs
  have run'' {size : Nat} (h : Holds size s 8 row col) :=
    (matches_guarded fun on => matches_edgeH (top h (of_decide_eq_true on)) runsMb).runs
  unfold filterPlane filterChromas
  simp only [forM_single]
  refine both_then (run inU) (run inV) (both_guarded fun on planes sized => ?_)
    (both_then (run' inU) (run' inV) (both_guarded fun _ planes sized => ?_)
    (both_then (run'' inU) (run'' inV) (both_guarded fun on planes sized => ?_) (both_guarded fun _ planes sized => ?_)))
  · exact chromaEdge_vertical (by rw [sized.1]; exact first inU (of_decide_eq_true on))
      (by rw [sized.2]; exact first inV (of_decide_eq_true on)) runsMb
  · exact chromaEdge_vertical (by rw [sized.1]; exact second inU) (by rw [sized.2]; exact second inV) runsSub
  · exact chromaEdge_horizontal (by rw [sized.1]; exact top inU (of_decide_eq_true on))
      (by rw [sized.2]; exact top inV (of_decide_eq_true on)) runsMb
  · exact chromaEdge_horizontal (by rw [sized.1]; exact third inU) (by rw [sized.2]; exact third inV) runsSub

end chroma

/-! ## A macroblock of a frame -/

/-- A plane of stride `s` that holds a picture of `cols` by `rows` macroblocks. -/
structure PlaneFits (size s n cols rows : Nat) : Prop where
  wide : cols * n ≤ s
  long : (rows * n - 1) * s + cols * n ≤ size

structure Planes.Fits (p : Planes) (cols rows : Nat) : Prop where
  y : PlaneFits p.y.length p.yStride 16 cols rows
  u : PlaneFits p.u.length p.uvStride 8 cols rows
  v : PlaneFits p.v.length p.uvStride 8 cols rows

/-- Only bytes of the macroblock and up to three pixels left of and above it differ. -/
structure Planes.ChangedNear (p q : Planes) (row col : Nat) : Prop where
  strides : q.yStride = p.yStride ∧ q.uvStride = p.uvStride
  y : Agree p.y.length (Reach p.yStride 16 row col)ᶜ p.y q.y
  u : Agree p.u.length (Reach p.uvStride 8 row col)ᶜ p.u q.u
  v : Agree p.v.length (Reach p.uvStride 8 row col)ᶜ p.v q.v

theorem PlaneFits.holds {size s n cols rows row col : Nat} (h : PlaneFits size s n cols rows) (four : 4 ≤ n)
    (across : col < cols) (down : row < rows) : Holds size s n row col := by
  obtain ⟨wide, long⟩ := h
  have right : col * n + n ≤ cols * n := Grid.row_end_le n across
  have bottom : row * n + n ≤ rows * n := Grid.row_end_le n down
  have lines : (row * n + n - 1) * s ≤ (rows * n - 1) * s := Nat.mul_le_mul_right _ (by omega)
  exact ⟨four, by omega, by omega⟩

section frame

variable {size s row col : Nat} {wide narrow : Int} {p : FilterParams}

theorem run_macroblock (fitting : Fitting wide p) (g : Segment) :
    Kind.macroblock.run (Limits.new wide p) g = some (Reference.mbLane wide p g) := mbLane_eq fitting g

theorem run_subblock (fitting : Fitting narrow p) (g : Segment) :
    Kind.subblock.run (Limits.new narrow p) g = some (Reference.subblockLane narrow p g) := subblockLane_eq fitting g

theorem run_simple (fitting : Fitting wide p) (g : Segment) :
    Kind.simple.run (Limits.new wide p) g = some (Reference.simpleLane wide g) := simpleLane_eq fitting g

variable (outer : Fitting wide p) (narrowFits : Fitting narrow p) (inner : Bool)
include outer narrowFits

theorem matches_simple (holds : Holds size s 16 row col) :
    Matches size (Reach s 16 row col) (fun _ => True)
      (filterPlane 16 [4, 8, 12] .simple .simple s row col (Limits.new wide p) (Limits.new narrow p) inner)
      (Reference.filterSimple s row col inner wide narrow) :=
  matches_filterPlane holds luma_offsets (run_simple outer) (run_simple narrowFits)

theorem matches_luma (holds : Holds size s 16 row col) :
    Matches size (Reach s 16 row col) (fun _ => True)
      (filterPlane 16 [4, 8, 12] .macroblock .subblock s row col (Limits.new wide p) (Limits.new narrow p) inner)
      (Reference.filterPlaneMb s 16 row col inner wide narrow p) :=
  matches_filterPlane holds luma_offsets (run_macroblock outer) (run_subblock narrowFits)

theorem matches_chroma (holds : Holds size s 8 row col) :
    Matches size (Reach s 8 row col) (fun _ => True)
      (filterPlane 8 [4] .macroblock .subblock s row col (Limits.new wide p) (Limits.new narrow p) inner)
      (Reference.filterPlaneMb s 8 row col inner wide narrow p) :=
  matches_filterPlane holds chroma_offsets (run_macroblock outer) (run_subblock narrowFits)

end frame

/-- The 8-bit lanes leave what wide arithmetic leaves, near the macroblock alone. -/
theorem filterMb_reference {planes : Planes} {cols rows row col : Nat} {level : Int} (sharpness : UInt8)
    (keyframe inner simple : Bool) (fits : planes.Fits cols rows) (down : row < rows) (across : col < cols)
    (range : 0 ≤ level ∧ level ≤ 63) :
    ∃ out, filterMb planes row col level sharpness keyframe inner simple = some out
      ∧ Reference.filterMb planes row col level sharpness keyframe inner simple = some out
      ∧ planes.ChangedNear out row col := by
  obtain ⟨p, params, interior, hev⟩ := yields_params sharpness keyframe range
  have outer : Fitting ((level + 2) * 2 + p.interiorLimit) p := ⟨by omega, by omega, by omega⟩
  have narrowFits : Fitting (level * 2 + p.interiorLimit) p := ⟨by omega, by omega, by omega⟩
  have wide := i32_eq (v := (level + 2) * 2 + p.interiorLimit) (by omega) (by omega)
  have narrow := i32_eq (v := level * 2 + p.interiorLimit) (by omega) (by omega)
  have hy := fits.y.holds (by decide) across down
  have hu := fits.u.holds (by decide) across down
  have hv := fits.v.holds (by decide) across down
  have limits : limitsOf level sharpness keyframe = some
      (Limits.new ((level + 2) * 2 + p.interiorLimit) p, Limits.new (level * 2 + p.interiorLimit) p) := by
    simp only [limitsOf, params, wide, narrow, Option.bind_eq_bind, Option.bind_some, Option.pure_def]
  unfold filterMb Reference.filterMb
  simp only [limits, params, wide, narrow, Option.bind_eq_bind, Option.bind_some]
  cases simple with
  | true =>
      obtain ⟨_, y, ran, ran', -, near⟩ := matches_simple outer narrowFits inner hy planes.y rfl
      refine ⟨{ planes with y }, ?_, ?_, ⟨rfl, rfl⟩, near, Agree.refl _ rfl, Agree.refl _ rfl⟩
      · simp only [if_true, ran, Option.bind_some]
        rfl
      · simp only [if_true, ran', Option.bind_some]
        rfl
  | false =>
      obtain ⟨_, y, ran, ran', -, near⟩ := matches_luma outer narrowFits inner hy planes.y rfl
      obtain ⟨_, u, ranU, ranU', -, nearU⟩ := matches_chroma outer narrowFits inner hu planes.u rfl
      obtain ⟨_, v, ranV, ranV', -, nearV⟩ := matches_chroma outer narrowFits inner hv planes.v rfl
      have chroma := filterChromas_eq inner hu hv (run_macroblock outer) (run_subblock narrowFits) (planes.u, planes.v) ⟨rfl, rfl⟩
      refine ⟨{ planes with y, u, v }, ?_, ?_, ⟨rfl, rfl⟩, near, nearU, nearV⟩
      · simp only [Bool.false_eq_true, if_false, ran, chroma, both, ranU, ranV, Option.bind_eq_bind, Option.bind_some]
        rfl
      · simp only [Bool.false_eq_true, if_false, ran', ranU', ranV', Option.bind_some]
        rfl

/-- A slope with an edge in it, so that the filters have something to do. -/
def slope (stride rows : Nat) : List UInt8 :=
  (List.range (stride * rows)).map fun i => UInt8.ofNat (60 + i % stride + if i % stride < 16 then 0 else 9)

/-- One macroblock of a picture of two by two, in planes wider than it. -/
theorem filterMb_reference_padded :
    ∃ out, filterMb ⟨slope 40 32, slope 20 16, slope 20 16, 40, 20⟩ 1 1 63 7 false true false = some out
      ∧ Reference.filterMb ⟨slope 40 32, slope 20 16, slope 20 16, 40, 20⟩ 1 1 63 7 false true false = some out
      ∧ Planes.ChangedNear ⟨slope 40 32, slope 20 16, slope 20 16, 40, 20⟩ out 1 1 := by
  have length (stride rows : Nat) : (slope stride rows).length = stride * rows := by simp [slope]
  exact filterMb_reference 7 false true false
    (show Planes.Fits _ 2 2 from ⟨⟨by decide, by rw [length]; decide⟩, ⟨by decide, by rw [length]; decide⟩,
      ⟨by decide, by rw [length]; decide⟩⟩) (by decide) (by decide) ⟨by decide, by decide⟩

end K2.Vp8
