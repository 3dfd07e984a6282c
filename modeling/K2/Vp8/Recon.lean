import K2.Vp8.LoopFilter

/-! # Reconstruction of one macroblock

The prediction, and the residual added to it. The coefficients are 25 blocks of
16: sixteen of luma, four of each chroma plane, and the Y2 block. Every block is
zero again once its residual is added. -/

namespace K2.Vp8

open Checked Buffers Buffers.Edit

/-- A decoded frame at the macroblock-aligned size. -/
structure FrameBuf where
  y : Plane
  u : Plane
  v : Plane
  deriving Repr, DecidableEq

def FrameBuf.new (mbCols mbRows : Nat) : FrameBuf :=
  { y := Plane.new (mbCols * 16) (mbRows * 16)
    u := Plane.new (mbCols * 8) (mbRows * 8)
    v := Plane.new (mbCols * 8) (mbRows * 8) }

/-! ## Residuals -/

abbrev Coeffs := List (List Int16)

def noBlock : List Int16 := List.replicate 16 0

def noCoeffs : Coeffs := List.replicate 25 noBlock

/-- Adds one block's residual to `dst` and clears its coefficients. -/
def addResidual (block : List Int16) (eob pos stride : Nat) : Edit UInt8 (List Int16) :=
  if eob > 1 then do
    idctAdd block pos stride
    return List.replicate 16 0 ++ block.drop 16
  else do
    let dc ← block[0]?
    if dc ≠ 0 then do
      idctDcAdd dc pos stride
      setAt block 0 0
    else return block

def addBlock (coeffs : Coeffs) (eobs : List Nat) (b pos stride : Nat) : Edit UInt8 Coeffs := do
  let c ← addResidual (← coeffs[b]?) (← eobs[b]?) pos stride
  setAt coeffs b c

/-- The residuals of `count` blocks, each where `pos` says. -/
def addBlocks (first count : Nat) (pos : Nat → Nat) (stride : Nat) (eobs : List Nat) (coeffs : Coeffs) :
    Edit UInt8 Coeffs :=
  loop (fun j coeffs => addBlock coeffs eobs (first + j) (pos j) stride) count coeffs

def setDc (dcs : List Int16) (i : Nat) (coeffs : Coeffs) : Option Coeffs := do
  setAt coeffs i (← setAt (← coeffs[i]?) 0 (← dcs[i]?))

/-- The inverse transform of the Y2 block, into the luma DCs. -/
def applyY2 (coeffs : Coeffs) : Option Coeffs := do
  let y2 ← coeffs[24]?
  let coeffs ← setAt coeffs 24 noBlock
  let dcs ← inverseWht y2
  loop (setDc dcs) 16 coeffs

/-- The macroblock had tokens in its Y2 block. -/
def spreadY2 (hasY2 : Bool) (eobs : List Nat) (coeffs : Coeffs) : Option Coeffs := do
  if hasY2 ∧ (← eobs[24]?) > 0 then applyY2 coeffs else return coeffs

/-! ## Intra macroblocks -/

/-- Where subblock `b` of a workspace starts. -/
def wsPos (st b : Nat) : Nat := (1 + b / 4 * 4) * st + 1 + b % 4 * 4

/-- Where subblock `j` of a chroma workspace starts. -/
def chromaWsPos (st j : Nat) : Nat := (1 + j / 2 * 4) * st + 1 + j % 2 * 4

/-- Subblocks on the right use the macroblock's above-right pixels. -/
def spreadAboveRight (st : Nat) : Edit UInt8 Unit :=
  loop (fun k _ => do splice (st + (4 * (k + 1) - 1) * st + 17) (← slice 17 4)) 3 ()

def bPredBlock (st : Nat) (bmodes : List UInt8) (eobs : List Nat) (b : Nat) (coeffs : Coeffs) :
    Edit UInt8 Coeffs := do
  predictSubblock st (wsPos st b) (← bmodes[b]?)
  addBlock coeffs eobs b (wsPos st b) st

/-- The luma workspace of an intra macroblock. -/
def intraLuma (plane : Plane) (mb : MbInfo) (mbx mby mbCols : Nat) (eobs : List Nat) (hasY2 : Bool)
    (coeffs : Coeffs) : Edit UInt8 Coeffs := do
  let st := lumaWsStride
  fillWsBorder st plane.data plane.w 16 mbx mby true (mbx + 1 = mbCols)
  if mb.yMode = bPred then do
    spreadAboveRight st
    loop (bPredBlock st mb.bmodes eobs) 16 coeffs
  else do
    predictBlock st 16 mb.yMode (mby > 0) (mbx > 0)
    let coeffs ← spreadY2 hasY2 eobs coeffs
    addBlocks 0 16 (wsPos st) st eobs coeffs

def intraChroma (plane : Plane) (first : Nat) (mb : MbInfo) (mbx mby : Nat) (eobs : List Nat) (coeffs : Coeffs) :
    Edit UInt8 Coeffs := do
  let st := chromaWsStride
  fillWsBorder st plane.data plane.w 8 mbx mby false false
  predictBlock st 8 mb.uvMode (mby > 0) (mbx > 0)
  addBlocks first 4 (chromaWsPos st) st eobs coeffs

/-- A workspace filled and stored in its plane. -/
def stored (plane : Plane) (size stride n mbx mby : Nat) (fill : Edit UInt8 Coeffs) : Option (Plane × Coeffs) := do
  let (coeffs, ws) ← fill (List.replicate size 0)
  let (_, data) ← storeWs ws stride plane.w n mbx mby plane.data
  return ({ plane with data }, coeffs)

def reconIntra (cur : FrameBuf) (mb : MbInfo) (mbx mby mbCols : Nat) (coeffs : Coeffs) (eobs : List Nat)
    (hasY2 : Bool) : Option (FrameBuf × Coeffs) := do
  let (y, coeffs) ← stored cur.y lumaWsSize lumaWsStride 16 mbx mby
    (intraLuma cur.y mb mbx mby mbCols eobs hasY2 coeffs)
  let (u, coeffs) ← stored cur.u chromaWsSize chromaWsStride 8 mbx mby
    (intraChroma cur.u 16 mb mbx mby eobs coeffs)
  let (v, coeffs) ← stored cur.v chromaWsSize chromaWsStride 8 mbx mby
    (intraChroma cur.v 20 mb mbx mby eobs coeffs)
  return ({ y, u, v }, coeffs)

/-! ## What residuals leave of the coefficients -/

/-- A block and its end: with at most one token only the DC can be non-zero. -/
def BlockReady (coeffs : Coeffs) (eobs : List Nat) (b : Nat) : Prop :=
  ∃ c e, coeffs[b]? = some c ∧ eobs[b]? = some e ∧ c.length = 16 ∧ (e ≤ 1 → c.tail = List.replicate 15 0)

/-- The blocks before `k` are cleared, the others ready, and Y2 is out of the way. -/
structure Spent (k : Nat) (eobs : List Nat) (coeffs : Coeffs) : Prop where
  length : coeffs.length = 25
  cleared : ∀ b < k, coeffs[b]? = some noBlock
  ready : ∀ b, k ≤ b → b < 24 → BlockReady coeffs eobs b
  y2 : coeffs[24]? = some noBlock

/-- What the tokens of a macroblock leave. -/
structure Settled (hasY2 : Bool) (eobs : List Nat) (coeffs : Coeffs) : Prop where
  length : coeffs.length = 25
  ready : ∀ b < 24, BlockReady coeffs eobs b
  y2 : ∃ c e, coeffs[24]? = some c ∧ eobs[24]? = some e ∧ c.length = 16 ∧ (hasY2 = true → e = 0 → c = noBlock) ∧
    (hasY2 = false → c = noBlock)

theorem Spent.eq_noCoeffs {eobs : List Nat} {coeffs : Coeffs} (h : Spent 24 eobs coeffs) : coeffs = noCoeffs := by
  refine List.ext_getElem? fun b => ?_
  by_cases inside : b < 25
  · rw [noCoeffs, List.getElem?_replicate, if_pos inside]
    by_cases last : b = 24
    · rw [last]
      exact h.y2
    · exact h.cleared b (by omega)
  · rw [List.getElem?_eq_none (by rw [h.length]; omega), List.getElem?_eq_none (by simp [noCoeffs]; omega)]

theorem Settled.spent {eobs : List Nat} {coeffs : Coeffs} (h : Settled false eobs coeffs) : Spent 0 eobs coeffs := by
  obtain ⟨length, ready, c, e, block, -, -, -, none⟩ := h
  exact ⟨length, fun b below => absurd below (Nat.not_lt_zero b), fun b _ => ready b, by rw [block, none rfl]⟩

theorem yields_setDc {dcs : List Int16} {eobs : List Nat} {coeffs : Coeffs} {i : Nat} (sixteen : dcs.length = 16)
    (below : i < 16) (length : coeffs.length = 25) (ready : ∀ b < 24, BlockReady coeffs eobs b)
    (y2 : coeffs[24]? = some noBlock) :
    Yields (fun out : Coeffs => out.length = 25 ∧ (∀ b < 24, BlockReady out eobs b) ∧ out[24]? = some noBlock)
      (setDc dcs i coeffs) := by
  obtain ⟨c, e, block, stop, size, clean⟩ := ready i (by omega)
  unfold setDc
  rw [block, List.getElem?_eq_getElem (show i < dcs.length by omega)]
  simp only [Option.bind_eq_bind, Option.bind_some, setAt_eq (show 0 < c.length by omega)]
  have inside : i < coeffs.length := by omega
  refine ⟨_, setAt_eq inside _, by rw [List.length_set, length], fun b small => ?_, ?_⟩
  · by_cases same : b = i
    · subst same
      refine ⟨_, e, List.getElem?_set_self inside, stop, by rw [List.length_set, size], fun few => ?_⟩
      match c, size, clean few with
      | _ :: _, _, tail => exact tail
    · obtain ⟨c', e', block', rest⟩ := ready b small
      exact ⟨c', e', by rw [List.getElem?_set_ne (by omega)]; exact block', rest⟩
  · rw [List.getElem?_set_ne (by omega)]
    exact y2

theorem yields_applyY2 {eobs : List Nat} {coeffs : Coeffs} (length : coeffs.length = 25)
    (ready : ∀ b < 24, BlockReady coeffs eobs b) {c : List Int16} (block : coeffs[24]? = some c) (size : c.length = 16) :
    Yields (Spent 0 eobs) (applyY2 coeffs) := by
  have last : 24 < coeffs.length := by omega
  unfold applyY2
  rw [block, setAt_eq last]
  refine Yields.bind (P := (· = c)) ⟨c, rfl, rfl⟩ fun _ same => ?_
  subst same
  refine Yields.bind (P := fun out : Coeffs => out.length = 25 ∧ (∀ b < 24, BlockReady out eobs b) ∧
    out[24]? = some noBlock) ⟨_, rfl, by rw [List.length_set, length], fun b below => ?_, List.getElem?_set_self last⟩
    fun cleared known => ?_
  · obtain ⟨c', e', block', rest⟩ := ready b below
    exact ⟨c', e', by rw [List.getElem?_set_ne (by omega)]; exact block', rest⟩
  refine (yields_inverseWht size).bind fun dcs sixteen => ?_
  refine (Yields.loop (fun _ out => out.length = 25 ∧ (∀ b < 24, BlockReady out eobs b) ∧ out[24]? = some noBlock)
    known fun i below out known => yields_setDc sixteen below known.1 known.2.1 known.2.2).mono fun out known => ?_
  exact ⟨known.1, fun b below => absurd below (Nat.not_lt_zero b), fun b _ => known.2.1 b, known.2.2⟩

theorem yields_spreadY2 {hasY2 : Bool} {eobs : List Nat} {coeffs : Coeffs} (settled : Settled hasY2 eobs coeffs) :
    Yields (Spent 0 eobs) (spreadY2 hasY2 eobs coeffs) := by
  obtain ⟨length, ready, c, e, block, stop, size, empty, none⟩ := settled
  unfold spreadY2
  rw [stop]
  simp only [Option.bind_eq_bind, Option.bind_some]
  split
  · exact yields_applyY2 length ready block size
  next off =>
    have blank : c = noBlock := by
      cases hasY2 with
      | true => exact empty rfl (by simpa using off)
      | false => exact none rfl
    refine Yields.pure ⟨length, fun b below => absurd below (Nat.not_lt_zero b), fun b _ => ready b, ?_⟩
    rw [block, blank]

variable {n : Nat} {D : Set Nat}

theorem tracks_addResidual {c : List Int16} {eob pos stride : Nat} (size : c.length = 16)
    (clean : eob ≤ 1 → c.tail = List.replicate 15 0) (block : BlockIn n D pos stride) :
    Tracks n D D (· = noBlock) (addResidual c eob pos stride) := by
  unfold addResidual
  split
  · refine (tracks_idctAdd size block).bind fun _ _ => Tracks.pure ?_
    rw [List.drop_eq_nil_of_le (by omega), List.append_nil]
    rfl
  next few =>
    match c, size, clean (by omega) with
    | dc :: rest, _, tail =>
        obtain rfl : rest = List.replicate 15 0 := tail
        refine (Tracks.lift (P := (· = dc)) ⟨dc, rfl, rfl⟩).bind fun _ same => ?_
        subst same
        split
        · exact (tracks_idctDcAdd block).bind fun _ _ => Tracks.lift ⟨_, rfl, rfl⟩
        next zero =>
          refine Tracks.pure ?_
          rw [not_not.mp zero]
          rfl

theorem tracks_addBlock {eobs : List Nat} {coeffs : Coeffs} {b pos stride : Nat} (spent : Spent b eobs coeffs)
    (below : b < 24) (block : BlockIn n D pos stride) :
    Tracks n D D (Spent (b + 1) eobs) (addBlock coeffs eobs b pos stride) := by
  obtain ⟨length, cleared, ready, y2⟩ := spent
  obtain ⟨c, e, there, stop, size, clean⟩ := ready b le_rfl below
  unfold addBlock
  rw [there, stop]
  simp only [lift_some_bind]
  refine (tracks_addResidual size clean block).bind fun out same => ?_
  subst same
  have inside : b < coeffs.length := by omega
  refine Tracks.lift ⟨_, setAt_eq inside _, by rw [List.length_set, length], fun j low => ?_, fun j low high => ?_, ?_⟩
  · by_cases same : j = b
    · rw [same, List.getElem?_set_self inside]
    · rw [List.getElem?_set_ne (by omega)]
      exact cleared j (by omega)
  · obtain ⟨c', e', there', rest⟩ := ready j (by omega) high
    exact ⟨c', e', by rw [List.getElem?_set_ne (by omega)]; exact there', rest⟩
  · rw [List.getElem?_set_ne (by omega)]
    exact y2

theorem tracks_addBlocks {eobs : List Nat} {coeffs : Coeffs} {stride : Nat} {pos : Nat → Nat} (first count : Nat)
    (spent : Spent first eobs coeffs) (few : first + count ≤ 24) (blocks : ∀ j < count, BlockIn n D (pos j) stride) :
    Tracks n D D (Spent (first + count) eobs) (addBlocks first count pos stride eobs coeffs) :=
  Tracks.loop (fun j => Spent (first + j) eobs) (fun _ => D) spent fun j below _ here =>
    tracks_addBlock here (show first + j < 24 by omega) (blocks j below)

end K2.Vp8
