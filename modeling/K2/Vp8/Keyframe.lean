import K2.Vp8.Agreement
import K2.Vp8.Tokens

/-! # A row of intra macroblocks

The macroblocks of a row of a keyframe, from their modes and the bytes of a
partition. Whatever the bytes are no step panics, and nothing that the picture
held below what is decoded shows in the row. -/

namespace K2.Vp8

open Checked Buffers Buffers.Edit

/-- What `read_modes` gives of a macroblock. -/
structure MbModes where
  mb : MbInfo
  skip : Bool

/-- What `decode_macroblocks` carries from one macroblock to the next. -/
structure Decoding where
  cur : FrameBuf
  aboveCtx : List (List Nat)
  leftCtx : List Nat
  coeffs : Coeffs

/-- The contexts behind a macroblock without tokens. -/
def clearCtx (hasY2 : Bool) (ctx : List Nat) : List Nat :=
  ctx.mapIdx fun k c => if k < 8 ∨ hasY2 = true ∧ k = 8 then 0 else c

section decode

variable (probs : CoeffProbs) (dequant : List Dequant) (segEnabled : Bool) (cols : Nat)

/-- One intra macroblock of `decode_macroblocks`, its modes read. -/
def decodeIntraMb (row col : Nat) (m : MbModes) (s : Decoding) (tbd : BoolDecoder) : Option (Decoding × BoolDecoder) := do
  let hasY2 := decide (m.mb.yMode ≠ bPred) && decide (m.mb.yMode ≠ splitMv)
  let ctxAbove ← s.aboveCtx[col]?
  if m.skip then
    let (cur, coeffs) ← reconIntra s.cur m.mb col row cols s.coeffs (List.replicate 25 0) hasY2
    return (⟨cur, ← setAt s.aboveCtx col (clearCtx hasY2 ctxAbove), clearCtx hasY2 s.leftCtx, coeffs⟩, tbd)
  else
    let dq ← dequant[if segEnabled then m.mb.segment.toNat else 0]?
    let (t, tbd) ← decodeMbTokens probs ctxAbove s.leftCtx hasY2 dq s.coeffs tbd
    let (cur, coeffs) ← reconIntra s.cur m.mb col row cols t.coeffs t.eobs hasY2
    return (⟨cur, ← setAt s.aboveCtx col t.above, t.left, coeffs⟩, tbd)

/-- The macroblocks from column `col` on. -/
def decodeIntraFrom (row : Nat) : Nat → List MbModes → Decoding → BoolDecoder → Option (Decoding × BoolDecoder)
  | _, [], s, tbd => some (s, tbd)
  | col, m :: rest, s, tbd => do
      let (s, tbd) ← decodeIntraMb probs dequant segEnabled cols row col m s tbd
      decodeIntraFrom row (col + 1) rest s tbd

/-- A row: its left contexts start at zero. -/
def decodeIntraRow (row : Nat) (modes : List MbModes) (s : Decoding) (tbd : BoolDecoder) : Option (Decoding × BoolDecoder) :=
  decodeIntraFrom probs dequant segEnabled cols row 0 modes { s with leftCtx := List.replicate 9 0 } tbd

/-- The rows from `row` on of a frame whose loop filter is off; a row reads the next of the partitions. -/
def decodeIntraRows : Nat → List (List MbModes) → Decoding → List BoolDecoder → Option (Decoding × List BoolDecoder)
  | _, [], s, parts => some (s, parts)
  | row, modes :: rest, s, parts => do
      let tbd ← parts[row % parts.length]?
      let (s, tbd) ← decodeIntraRow probs dequant segEnabled cols row modes s tbd
      decodeIntraRows (row + 1) rest s (← setAt parts (row % parts.length) tbd)

/-- `decode_macroblocks` of such a frame. -/
def decodeIntraFrame (modes : List (List MbModes)) (s : Decoding) (parts : List BoolDecoder) : Option (Decoding × List BoolDecoder) :=
  decodeIntraRows probs dequant segEnabled cols 0 modes { s with aboveCtx := s.aboveCtx.map fun _ => List.replicate 9 0 } parts

end decode

/-! ## Two decodings of a row -/

/-- Two decoders before column `col` of row `row`, which may differ in what is not decoded yet. -/
structure Decoding.Alike (cols rows row col : Nat) (s s' : Decoding) : Prop where
  cur : s.cur.Agrees cols rows row col s'.cur
  above : s'.aboveCtx = s.aboveCtx
  left : s'.leftCtx = s.leftCtx
  coeffs : s.coeffs = noCoeffs ∧ s'.coeffs = noCoeffs
  columns : s.aboveCtx.length = cols
  contexts : ∀ ctx ∈ s.aboveCtx, Contexts ctx
  lefts : Contexts s.leftCtx

/-- Modes of a keyframe's macroblock. -/
structure MbModes.Intra (m : MbModes) : Prop where
  valid : m.mb.Valid
  intra : m.mb.refFrame = intraFrame

theorem contexts_clearCtx {hasY2 : Bool} {ctx : List Nat} (h : Contexts ctx) : Contexts (clearCtx hasY2 ctx) := by
  refine ⟨by rw [clearCtx, List.length_mapIdx, h.1], fun c mem => ?_⟩
  obtain ⟨k, inside, rfl⟩ := List.mem_mapIdx.mp mem
  split
  · exact Nat.zero_le 1
  · exact h.2 _ (List.getElem_mem inside)

theorem contexts_zero : Contexts (List.replicate 9 0) := ⟨rfl, fun c mem => by rw [List.eq_of_mem_replicate mem]; decide⟩

theorem settled_none {hasY2 : Bool} : Settled hasY2 (List.replicate 25 0) noCoeffs := by
  have block {b : Nat} (inside : b < 25) : noCoeffs[b]? = some noBlock := by
    rw [noCoeffs, List.getElem?_replicate, if_pos inside]
  have stop {b : Nat} (inside : b < 25) : (List.replicate 25 0)[b]? = some 0 := by
    rw [List.getElem?_replicate, if_pos inside]
  refine ⟨rfl, fun b below => ⟨noBlock, 0, block (by omega), stop (by omega), rfl, fun _ => rfl⟩, ?_⟩
  exact ⟨noBlock, 0, block (by decide), stop (by decide), rfl, fun _ _ => rfl, fun _ => rfl⟩

section agree

variable {probs : CoeffProbs} {dequant : List Dequant} (segEnabled : Bool) {cols rows row col : Nat} {s s' : Decoding} {tbd : BoolDecoder}

theorem Decoding.Alike.step (alike : s.Alike cols rows row col s') {p q : FrameBuf} (cur : p.Agrees cols rows row (col + 1) q)
    {above left : List Nat} (ha : Contexts above) (hl : Contexts left) :
    Decoding.Alike cols rows row (col + 1) ⟨p, s.aboveCtx.set col above, left, noCoeffs⟩ ⟨q, s.aboveCtx.set col above, left, noCoeffs⟩ := by
  refine ⟨cur, rfl, rfl, ⟨rfl, rfl⟩, by rw [List.length_set, alike.columns], fun ctx mem => ?_, hl⟩
  rcases List.mem_or_eq_of_mem_set mem with old | rfl
  · exact alike.contexts ctx old
  · exact ha

theorem decodeIntraMb_agrees (shaped : probs.Shaped) (four : dequant.length = 4) (sound : ∀ dq ∈ dequant, Dequant.Sound dq) {m : MbModes}
    (intra : m.Intra) (across : col < cols) (down : row < rows) (alike : s.Alike cols rows row col s') (ready : tbd.Sound) :
    ∃ r r' tbd', decodeIntraMb probs dequant segEnabled cols row col m s tbd = some (r, tbd') ∧
      decodeIntraMb probs dequant segEnabled cols row col m s' tbd = some (r', tbd') ∧ tbd'.Sound ∧
      r.Alike cols rows row (col + 1) r' := by
  have plain : m.mb.yMode ≠ splitMv := by
    intro split
    have := (intra.valid.intra intra.intra).1
    rw [split] at this
    exact absurd this (by decide)
  obtain ⟨ctx, found⟩ : ∃ ctx, s.aboveCtx[col]? = some ctx := ⟨_, List.getElem?_eq_getElem (alike.columns ▸ across)⟩
  have above : Contexts ctx := alike.contexts ctx (List.mem_of_getElem? found)
  have wide : col < s.aboveCtx.length := alike.columns ▸ across
  obtain ⟨clean, clean'⟩ := alike.coeffs
  generalize y2 : (decide (m.mb.yMode ≠ bPred) && decide (m.mb.yMode ≠ splitMv)) = hasY2
  have whole : hasY2 = true → m.mb.yMode ≠ bPred := by
    rintro rfl
    simpa [plain] using y2
  have parted : hasY2 = false → m.mb.yMode = bPred := by
    rintro rfl
    simpa [plain] using y2
  unfold decodeIntraMb
  simp only [alike.above, alike.left, clean, clean', found, y2, Option.bind_eq_bind, Option.bind_some]
  cases m.skip with
  | true =>
      obtain ⟨⟨p, c⟩, ⟨q, c'⟩, first, second, agree, rfl, rfl⟩ :=
        paired_reconIntra intra.valid intra.intra whole parted across down alike.cur settled_none
      simp only [if_true, first, second, Option.bind_some, setAt_eq wide]
      exact ⟨_, _, tbd, rfl, rfl, ready, alike.step agree (contexts_clearCtx above) (contexts_clearCtx alike.lefts)⟩
  | false =>
      have segment : (if segEnabled then m.mb.segment.toNat else 0) < dequant.length := by
        have := intra.valid.segment
        split <;> omega
      obtain ⟨dq, chosen⟩ : ∃ dq, dequant[if segEnabled then m.mb.segment.toNat else 0]? = some dq := ⟨_, List.getElem?_eq_getElem segment⟩
      have tokens : Runs BoolDecoder.Sound (fun t => Contexts t.above ∧ Contexts t.left ∧ Settled hasY2 t.eobs t.coeffs)
          (decodeMbTokens probs ctx s.leftCtx hasY2 dq noCoeffs) :=
        runs_decodeMbTokens shaped (sound dq (List.mem_of_getElem? chosen)) above alike.lefts
      obtain ⟨t, tbd', read, ⟨above', left', settled⟩, ready'⟩ := tokens tbd ready
      obtain ⟨⟨p, c⟩, ⟨q, c'⟩, first, second, agree, rfl, rfl⟩ :=
        paired_reconIntra intra.valid intra.intra whole parted across down alike.cur settled
      simp only [Bool.false_eq_true, if_false, chosen, read, first, second, Option.bind_some, setAt_eq wide]
      exact ⟨_, _, tbd', rfl, rfl, ready', alike.step agree above' left'⟩

theorem decodeIntraFrom_agrees (shaped : probs.Shaped) (four : dequant.length = 4) (sound : ∀ dq ∈ dequant, Dequant.Sound dq)
    {modes : List MbModes} (intra : ∀ m ∈ modes, m.Intra) (fits : col + modes.length = cols) (down : row < rows)
    (alike : s.Alike cols rows row col s') (ready : tbd.Sound) :
    ∃ r r' tbd', decodeIntraFrom probs dequant segEnabled cols row col modes s tbd = some (r, tbd') ∧
      decodeIntraFrom probs dequant segEnabled cols row col modes s' tbd = some (r', tbd') ∧ tbd'.Sound ∧
      r.Alike cols rows row cols r' := by
  induction modes generalizing col s s' tbd with
  | nil =>
      obtain rfl : col = cols := fits
      exact ⟨s, s', tbd, rfl, rfl, ready, alike⟩
  | cons m modes ih =>
      simp only [List.length_cons] at fits
      obtain ⟨r, r', tbd', first, second, ready', alike'⟩ :=
        decodeIntraMb_agrees segEnabled shaped four sound (intra m List.mem_cons_self) (by omega) down alike ready
      simp only [decodeIntraFrom, first, second, Option.bind_eq_bind, Option.bind_some]
      exact ih (fun m mem => intra m (List.mem_cons_of_mem _ mem)) (by omega) alike' ready'

theorem Plane.Agrees.next_row {n : Nat} {p q : Plane} (wide : 0 < cols * n) (agrees : p.Agrees n cols rows (Decoded (cols * n) n row cols) q) :
    p.Agrees n cols rows (Decoded (cols * n) n (row + 1) 0) q := by
  refine ⟨agrees.width, agrees.height, agrees.data.mono ?_⟩
  rintro i (above | ⟨-, left⟩)
  · exact .inr ⟨by rw [Nat.add_mul, Nat.one_mul] at above; exact above, Nat.mod_lt i wide⟩
  · simp at left

theorem Decoding.Alike.next_row (wide : 0 < cols) (alike : s.Alike cols rows row cols s') :
    Decoding.Alike cols rows (row + 1) 0 { s with leftCtx := List.replicate 9 0 } { s' with leftCtx := List.replicate 9 0 } :=
  ⟨⟨alike.cur.y.next_row (by omega), alike.cur.u.next_row (by omega), alike.cur.v.next_row (by omega)⟩, alike.above, rfl, alike.coeffs,
    alike.columns, alike.contexts, contexts_zero⟩

theorem decodeIntraRows_agrees (s s' : Decoding) (shaped : probs.Shaped) (four : dequant.length = 4) (sound : ∀ dq ∈ dequant, Dequant.Sound dq)
    {modes : List (List MbModes)} (intra : ∀ line ∈ modes, line.length = cols ∧ ∀ m ∈ line, m.Intra) (wide : 0 < cols)
    (fits : row + modes.length = rows) (alike : Decoding.Alike cols rows row 0 { s with leftCtx := List.replicate 9 0 }
    { s' with leftCtx := List.replicate 9 0 })
    {parts : List BoolDecoder} (nonempty : parts ≠ []) (ready : ∀ d ∈ parts, d.Sound) (same : s'.leftCtx = s.leftCtx) :
    ∃ r r' parts', decodeIntraRows probs dequant segEnabled cols row modes s parts = some (r, parts') ∧
      decodeIntraRows probs dequant segEnabled cols row modes s' parts = some (r', parts') ∧ r'.leftCtx = r.leftCtx ∧
      Decoding.Alike cols rows rows 0 { r with leftCtx := List.replicate 9 0 } { r' with leftCtx := List.replicate 9 0 } := by
  induction modes generalizing row s s' parts with
  | nil =>
      obtain rfl : row = rows := fits
      exact ⟨s, s', parts, rfl, rfl, same, alike⟩
  | cons line modes ih =>
      simp only [List.length_cons] at fits
      obtain ⟨full, all⟩ := intra line List.mem_cons_self
      have here : row % parts.length < parts.length := Nat.mod_lt _ (List.length_pos_of_ne_nil nonempty)
      obtain ⟨tbd, chosen⟩ : ∃ tbd, parts[row % parts.length]? = some tbd := ⟨_, List.getElem?_eq_getElem here⟩
      obtain ⟨r, r', tbd', first, second, ready', alike'⟩ :=
        decodeIntraFrom_agrees segEnabled shaped four sound all (by omega) (by omega : row < rows) alike (ready tbd (List.mem_of_getElem? chosen))
      have later : ∀ d ∈ parts.set (row % parts.length) tbd', d.Sound := by
        intro d mem
        rcases List.mem_or_eq_of_mem_set mem with old | rfl
        · exact ready d old
        · exact ready'
      simp only [decodeIntraRows, decodeIntraRow, chosen, first, second, setAt_eq here, Option.bind_eq_bind, Option.bind_some]
      exact ih _ _ (fun line mem => intra line (List.mem_cons_of_mem _ mem)) (by omega) (alike'.next_row wide)
        (by simpa [List.set_eq_nil_iff] using nonempty) later alike'.left

/-- Planes that agree wherever they are decoded to the last row are one plane. -/
theorem Plane.Agrees.eq {n : Nat} {p q : Plane} (agrees : p.Agrees n cols rows (Decoded (cols * n) n rows 0) q) : p = q := by
  obtain ⟨⟨w, w'⟩, ⟨h, h'⟩, left, right, same⟩ := agrees
  have data : p.data = q.data := by
    refine List.ext_getElem? fun i => ?_
    by_cases inside : i < rows * n * (cols * n)
    · exact same i (.inl (Nat.div_lt_of_lt_mul (by rwa [Nat.mul_comm] at inside)))
    · rw [List.getElem?_eq_none (by omega), List.getElem?_eq_none (by omega)]
  cases p
  cases q
  simp_all

end agree

/-- A frame buffer of `cols` by `rows` macroblocks. -/
structure FrameBuf.Holds (cols rows : Nat) (f : FrameBuf) : Prop where
  y : f.y.w = cols * 16 ∧ f.y.h = rows * 16 ∧ f.y.data.length = rows * 16 * (cols * 16)
  u : f.u.w = cols * 8 ∧ f.u.h = rows * 8 ∧ f.u.data.length = rows * 8 * (cols * 8)
  v : f.v.w = cols * 8 ∧ f.v.h = rows * 8 ∧ f.v.data.length = rows * 8 * (cols * 8)

theorem FrameBuf.new_holds {cols rows : Nat} : (FrameBuf.new cols rows).Holds cols rows := by
  refine ⟨⟨rfl, rfl, ?_⟩, ⟨rfl, rfl, ?_⟩, ⟨rfl, rfl, ?_⟩⟩ <;> simp [FrameBuf.new, Plane.new, Nat.mul_comm]

theorem not_decoded {s n i : Nat} : i ∉ Decoded s n 0 0 := by simp [Decoded]

theorem FrameBuf.Holds.agrees {cols rows : Nat} {p q : FrameBuf} (hp : p.Holds cols rows) (hq : q.Holds cols rows) : p.Agrees cols rows 0 0 q :=
  ⟨⟨⟨hp.y.1, hq.y.1⟩, ⟨hp.y.2.1, hq.y.2.1⟩, hp.y.2.2, hq.y.2.2, fun _ mem => absurd mem not_decoded⟩,
    ⟨⟨hp.u.1, hq.u.1⟩, ⟨hp.u.2.1, hq.u.2.1⟩, hp.u.2.2, hq.u.2.2, fun _ mem => absurd mem not_decoded⟩,
    ⟨⟨hp.v.1, hq.v.1⟩, ⟨hp.v.2.1, hq.v.2.1⟩, hp.v.2.2, hq.v.2.2, fun _ mem => absurd mem not_decoded⟩⟩

/-- The macroblocks of a keyframe, whatever modes they have and whatever bytes its partitions hold, decode without a panic; and the picture and
    all that is carried on are the same whatever the frame buffer and the contexts held before. -/
theorem keyframe_forgets (probs : CoeffProbs) (dequant : List Dequant) (segEnabled : Bool) {cols : Nat} (wide : 0 < cols) (shaped : probs.Shaped)
    (four : dequant.length = 4) (sound : ∀ dq ∈ dequant, Dequant.Sound dq) (modes : List (List MbModes))
    (intra : ∀ line ∈ modes, line.length = cols ∧ ∀ m ∈ line, m.Intra) (partitions : List (List UInt8)) (nonempty : partitions ≠ [])
    {p q : FrameBuf} (hp : p.Holds cols modes.length) (hq : q.Holds cols modes.length) {above above' : List (List Nat)}
    (columns : above.length = cols) (columns' : above'.length = cols) (left : List Nat) :
    ∃ out, decodeIntraFrame probs dequant segEnabled cols modes ⟨p, above, left, noCoeffs⟩ (partitions.map BoolDecoder.new) = some out ∧
      decodeIntraFrame probs dequant segEnabled cols modes ⟨q, above', left, noCoeffs⟩ (partitions.map BoolDecoder.new) = some out ∧
      out.1.cur.Holds cols modes.length ∧ out.1.coeffs = noCoeffs := by
  have cleared {l : List (List Nat)} (length : l.length = cols) : (l.map fun _ => List.replicate 9 0) = List.replicate cols (List.replicate 9 0) := by
    rw [List.map_const', length]
  have ready : ∀ d ∈ partitions.map BoolDecoder.new, d.Sound := by
    intro d mem
    obtain ⟨data, -, rfl⟩ := List.mem_map.mp mem
    exact BoolDecoder.sound_new data
  have start : Decoding.Alike cols modes.length 0 0 ⟨p, List.replicate cols (List.replicate 9 0), List.replicate 9 0, noCoeffs⟩
      ⟨q, List.replicate cols (List.replicate 9 0), List.replicate 9 0, noCoeffs⟩ :=
    ⟨hp.agrees hq, rfl, rfl, ⟨rfl, rfl⟩, List.length_replicate, fun ctx mem => List.eq_of_mem_replicate mem ▸ contexts_zero, contexts_zero⟩
  unfold decodeIntraFrame
  simp only [cleared columns, cleared columns']
  obtain ⟨r, r', parts, first, second, lefts, alike⟩ := decodeIntraRows_agrees segEnabled
    ⟨p, List.replicate cols (List.replicate 9 0), left, noCoeffs⟩ ⟨q, List.replicate cols (List.replicate 9 0), left, noCoeffs⟩
    shaped four sound intra wide (by omega) start (by simpa using nonempty) ready rfl
  have same : r' = r := by
    obtain ⟨⟨y, u, v⟩, above, -, ⟨clean, clean'⟩, -, -, -⟩ := alike
    obtain ⟨⟨ry, ru, rv⟩, ra, rl, rc⟩ := r
    obtain ⟨⟨ry', ru', rv'⟩, ra', rl', rc'⟩ := r'
    obtain rfl : ry = ry' := y.eq
    obtain rfl : ru = ru' := u.eq
    obtain rfl : rv = rv' := v.eq
    obtain rfl : ra' = ra := above
    obtain rfl : rl' = rl := lefts
    obtain rfl : rc = rc' := clean.trans clean'.symm
    rfl
  subst same
  obtain ⟨⟨y, u, v⟩, -, -, ⟨clean, -⟩, -, -, -⟩ := alike
  exact ⟨_, first, second, ⟨⟨y.width.1, y.height.1, y.data.left⟩, ⟨u.width.1, u.height.1, u.data.left⟩, ⟨v.width.1, v.height.1, v.data.left⟩⟩, clean⟩

/-! One macroblock with tokens, over a frame buffer of zeros and one of another picture. -/

namespace Keyframe

def probs : CoeffProbs := List.replicate 4 (List.replicate 8 (List.replicate 3 (List.replicate 11 128)))
def dequant : Dequant := ⟨[8, 8], [8, 8], [8, 8]⟩
def grey : FrameBuf := ⟨⟨List.replicate 256 128, 16, 16⟩, ⟨List.replicate 64 128, 8, 8⟩, ⟨List.replicate 64 128, 8, 8⟩⟩

theorem shaped : probs.Shaped := by
  refine ⟨rfl, fun type mem => ?_⟩
  rw [List.eq_of_mem_replicate mem]
  refine ⟨rfl, fun band mem => ?_⟩
  rw [List.eq_of_mem_replicate mem]
  exact ⟨rfl, fun p mem => by rw [List.eq_of_mem_replicate mem]; rfl⟩

theorem sound : ∀ dq ∈ List.replicate 4 dequant, dq.Sound := by
  intro dq mem
  rw [List.eq_of_mem_replicate mem]
  exact ⟨⟨rfl, by decide⟩, ⟨rfl, by decide⟩, ⟨rfl, by decide⟩⟩

theorem grey_holds : grey.Holds 1 1 :=
  ⟨⟨rfl, rfl, List.length_replicate⟩, ⟨rfl, rfl, List.length_replicate⟩, ⟨rfl, rfl, List.length_replicate⟩⟩

end Keyframe

open Keyframe in
theorem keyframe_forgets_grey :
    let decode (cur : FrameBuf) := decodeIntraFrame probs (List.replicate 4 dequant) false 1 [[⟨{}, false⟩]] ⟨cur, [[]], [], noCoeffs⟩
      [BoolDecoder.new [200, 17, 3]]
    ∃ out, decode (FrameBuf.new 1 1) = some out ∧ decode grey = some out ∧ out.1.cur.Holds 1 1 ∧ out.1.coeffs = noCoeffs :=
  keyframe_forgets probs (List.replicate 4 dequant) false (by decide) shaped rfl sound [[⟨{}, false⟩]]
    (by simpa using ⟨MbInfo.valid_default, rfl⟩) [[200, 17, 3]] (by simp)
    FrameBuf.new_holds grey_holds rfl rfl []

end K2.Vp8
