import K2.Vp8.BitReader
import K2.Vp8.Recon

/-! # Coefficient tokens

A block's tokens in zigzag order, dequantized into the block as they are read.
The first one of a block is read in the context of the blocks above and left of
it, the others in the context of the token before. -/

namespace K2.Vp8

open Checked

/-- Dequantization factors for one segment: `[dc, ac]` per block type. -/
structure Dequant where
  y1 : List Int := [0, 0]
  y2 : List Int := [0, 0]
  uv : List Int := [0, 0]
  deriving Repr, DecidableEq

abbrev BlockProbs := List (List (List UInt8))

namespace BitReader

def readProb (p : List UInt8) (i : Nat) : BitReader Bool := do read (← p[i]?)

/-- The extra bits of a token's category. -/
def extra (probs : List UInt8) : BitReader Nat :=
  probs.foldlM (fun v p => do return (v <<< 1) ||| (← read p).toNat) 0

/-- A magnitude above one. -/
def largeValue (p : List UInt8) : BitReader Nat := do
  if !(← readProb p 3) then
    if !(← readProb p 4) then return 2 else return 3 + (← readProb p 5).toNat
  else if !(← readProb p 6) then
    if !(← readProb p 7) then return 5 + (← extra pcat1) else return 7 + (← extra pcat2)
  else if !(← readProb p 8) then
    if !(← readProb p 9) then return 11 + (← extra pcat3) else return 19 + (← extra pcat4)
  else if !(← readProb p 10) then return 35 + (← extra pcat5)
  else return 67 + (← extra pcat6)

/-- A magnitude and the context it leaves. -/
def tokenValue (p : List UInt8) : BitReader (Nat × Nat) := do
  if !(← readProb p 2) then return (1, 1) else return (← largeValue p, 2)

def readSigned (v : Nat) : BitReader Int := do
  if ← readBit then return -(v : Int) else return v

/-- The probabilities of the band of place `c`, in a context. -/
def bandProbs (probs : BlockProbs) (c ctx : Nat) : Option (List UInt8) := do (← probs[← coeffBands[c]?]?)[ctx]?

/-- `out[ZIGZAG[c]] = (signed * dq[(c > 0) as usize]) as i16`. -/
def putCoeff (dq : List Int) (c : Nat) (signed : Int) (out : List Int16) : Option (List Int16) := do
  setAt out (← zigzag[c]?) (Int16.ofInt (← i32 (signed * (← dq[if c > 0 then 1 else 0]?))))

/-- The tokens from place `c` on, where no block ends. -/
def tokensFrom (probs : BlockProbs) (dq : List Int) : Nat → Nat → List UInt8 → List Int16 → BitReader (Nat × List Int16)
  | 0, _, _, _ => fun _ => none
  | fuel + 1, c, p, out => do
      if !(← readProb p 1) then
        -- A zero; the next token can't be the end of block.
        if c + 1 = 16 then return (16, out)
        else tokensFrom probs dq fuel (c + 1) (← bandProbs probs (c + 1) 0) out
      else do
        let (v, ctx) ← tokenValue p
        let out ← putCoeff dq c (← readSigned v) out
        if c + 1 = 16 then return (16, out)
        else do
          let p ← bandProbs probs (c + 1) ctx
          if !(← readProb p 0) then return (c + 1, out)
          else tokensFrom probs dq fuel (c + 1) p out

/-- One block's tokens, and the place after the last of them (0 for none, or
    `first` if the block ended at once). -/
def decodeBlock (probs : BlockProbs) (ctx first : Nat) (dq : List Int) (out : List Int16) :
    BitReader (Nat × List Int16) := do
  let p ← bandProbs probs first ctx
  if !(← readProb p 0) then return (first, out)
  else tokensFrom probs dq 16 first p out

end BitReader

/-! ## Macroblocks -/

/-- What the tokens of a macroblock read so far leave. -/
structure MbTokens where
  above : List Nat
  left : List Nat
  coeffs : Coeffs
  eobs : List Nat := List.replicate 25 0
  any : Bool := false
  deriving Repr, DecidableEq

open BitReader

/-- The tokens of block `b`, whose context are places `ai` above and `li` left. -/
def blockTokens (probs : BlockProbs) (ai li b first : Nat) (dq : List Int) (s : MbTokens) : BitReader MbTokens := do
  let ctx ← addU8 (← s.above[ai]?) (← s.left[li]?)
  let (eob, block) ← decodeBlock probs ctx first dq (← s.coeffs[b]?)
  let nz := if eob > first then 1 else 0
  return {
    above := ← setAt s.above ai nz
    left := ← setAt s.left li nz
    coeffs := ← setAt s.coeffs b block
    eobs := ← setAt s.eobs b eob
    any := s.any || decide (eob > first) }

def y2Tokens (probs : CoeffProbs) (hasY2 : Bool) (dq : Dequant) (s : MbTokens) : BitReader MbTokens :=
  if hasY2 then do blockTokens (← probs[1]?) 8 8 24 0 dq.y2 s else return s

def lumaTokens (probs : CoeffProbs) (hasY2 : Bool) (dq : Dequant) (b : Nat) (s : MbTokens) : BitReader MbTokens := do
  let (yType, yFirst) := if hasY2 then (0, 1) else (3, 0)
  blockTokens (← probs[yType]?) (b % 4) (b / 4) b yFirst dq.y1 s

/-- U blocks 16..20 use contexts 4..6, V blocks 20..24 use 6..8. -/
def chromaTokens (probs : CoeffProbs) (dq : Dequant) (j : Nat) (s : MbTokens) : BitReader MbTokens := do
  let base := if j < 4 then 4 else 6
  blockTokens (← probs[2]?) (base + j % 4 % 2) (base + j % 4 / 2) (16 + j) 0 dq.uv s

/-- All tokens of a macroblock. -/
def decodeMbTokens (probs : CoeffProbs) (above left : List Nat) (hasY2 : Bool) (dq : Dequant) (coeffs : Coeffs) :
    BitReader MbTokens := do
  let s ← y2Tokens probs hasY2 dq { above, left, coeffs }
  let s ← loop (lumaTokens probs hasY2 dq) 16 s
  loop (chromaTokens probs dq) 8 s

/-! ## No token panics -/

/-- Probabilities for every band and context of one block type. -/
def BlockProbs.Shaped (probs : BlockProbs) : Prop :=
  probs.length = 8 ∧ ∀ band ∈ probs, band.length = 3 ∧ ∀ p ∈ band, p.length = 11

def CoeffProbs.Shaped (probs : CoeffProbs) : Prop := probs.length = 4 ∧ ∀ type ∈ probs, BlockProbs.Shaped type

/-- Two factors, neither large. -/
def Factors (dq : List Int) : Prop := dq.length = 2 ∧ ∀ f ∈ dq, 0 ≤ f ∧ f ≤ 1000

structure Dequant.Sound (dq : Dequant) : Prop where
  y1 : Factors dq.y1
  y2 : Factors dq.y2
  uv : Factors dq.uv

namespace BitReader

theorem runs_readProb {p : List UInt8} {i : Nat} (eleven : p.length = 11) (inside : i < 11) :
    Runs BoolDecoder.Sound (fun _ => True) (readProb p i) :=
  (Runs.lift (Yields.getElem? (P := fun _ => True) (by rw [eleven]; exact inside) fun _ _ => trivial)).bind
    fun prob _ => runs_read prob

theorem runs_extraFrom (probs : List UInt8) {v k : Nat} (small : v < 2 ^ k) :
    Runs BoolDecoder.Sound (· < 2 ^ (k + probs.length))
      (probs.foldlM (fun v p => do return (v <<< 1) ||| (← read p).toNat : Nat → UInt8 → BitReader Nat) v) := by
  induction probs generalizing v k with
  | nil => exact Runs.pure small
  | cons p probs ih =>
      rw [List.foldlM_cons]
      refine Runs.bind (P := (· < 2 ^ (k + 1))) ((runs_read p).bind fun bit _ => Runs.pure ?_) fun v small => ?_
      · have doubled : v <<< 1 < 2 ^ (k + 1) := by
          rw [Nat.shiftLeft_eq, pow_succ]
          exact Nat.mul_lt_mul_of_pos_right small (by decide)
        have unit : bit.toNat < 2 ^ (k + 1) := by
          have := Nat.one_lt_two_pow (Nat.succ_ne_zero k)
          cases bit <;> simp only [Bool.toNat_false, Bool.toNat_true] <;> omega
        exact Nat.or_lt_two_pow doubled unit
      · have := ih small
        rwa [Nat.add_assoc, Nat.add_comm 1] at this

theorem runs_extra {probs : List UInt8} (few : probs.length ≤ 11) :
    Runs BoolDecoder.Sound (· < 2048) (extra probs) := by
  refine (runs_extraFrom probs (k := 0) Nat.one_pos).mono fun v small => ?_
  rw [Nat.zero_add] at small
  exact Nat.lt_of_lt_of_le small (Nat.pow_le_pow_right (by decide) few)

theorem runs_largeValue {p : List UInt8} (eleven : p.length = 11) :
    Runs BoolDecoder.Sound (· < 2116) (largeValue p) := by
  have bit {i : Nat} (inside : i < 11) := runs_readProb eleven inside
  have more (base : Nat) (low : base ≤ 67) {probs : List UInt8} (few : probs.length ≤ 11) :
      Runs BoolDecoder.Sound (· < 2116) (do return base + (← extra probs) : BitReader Nat) :=
    (runs_extra few).bind fun v small => Runs.pure (by omega)
  unfold largeValue
  refine (bit (by decide)).bind fun b3 _ => ?_
  cases b3 with
  | false =>
      refine (bit (by decide)).bind fun b4 _ => ?_
      cases b4 with
      | false => exact Runs.pure (by decide)
      | true => exact (bit (by decide)).bind fun b5 _ => Runs.pure (by cases b5 <;> decide)
  | true =>
      refine (bit (by decide)).bind fun b6 _ => ?_
      cases b6 with
      | false =>
          refine (bit (by decide)).bind fun b7 _ => ?_
          cases b7 with
          | false => exact more 5 (by decide) (by decide)
          | true => exact more 7 (by decide) (by decide)
      | true =>
          refine (bit (by decide)).bind fun b8 _ => ?_
          cases b8 with
          | false =>
              refine (bit (by decide)).bind fun b9 _ => ?_
              cases b9 with
              | false => exact more 11 (by decide) (by decide)
              | true => exact more 19 (by decide) (by decide)
          | true =>
              refine (bit (by decide)).bind fun b10 _ => ?_
              cases b10 with
              | false => exact more 35 (by decide) (by decide)
              | true => exact more 67 (by decide) (by decide)

theorem runs_tokenValue {p : List UInt8} (eleven : p.length = 11) :
    Runs BoolDecoder.Sound (fun r => r.1 < 2116 ∧ r.2 < 3) (tokenValue p) := by
  unfold tokenValue
  refine (runs_readProb eleven (by decide)).bind fun b2 _ => ?_
  cases b2 with
  | false => exact Runs.pure ⟨by decide, by decide⟩
  | true => exact (runs_largeValue eleven).bind fun v small => Runs.pure ⟨small, by show 2 < 3; decide⟩

theorem runs_readSigned {v : Nat} (small : v < 2116) :
    Runs BoolDecoder.Sound (fun s => -2116 ≤ s ∧ s ≤ 2116) (readSigned v) := by
  unfold readSigned
  refine runs_readBit.bind fun sign _ => ?_
  cases sign with
  | false => exact Runs.pure ⟨by show -2116 ≤ (v : Int); omega, by show (v : Int) ≤ 2116; omega⟩
  | true => exact Runs.pure ⟨by omega, by omega⟩

theorem yields_bandProbs {probs : BlockProbs} (shaped : probs.Shaped) {c ctx : Nat} (below : c < 16) (few : ctx < 3) :
    Yields (fun p => p.length = 11) (bandProbs probs c ctx) := by
  have bands : ∀ b ∈ coeffBands, b < 8 := by decide
  unfold bandProbs
  refine (Yields.getElem? (by show c < 17; omega) bands).bind fun b small => ?_
  refine (Yields.getElem? (by rw [shaped.1]; exact small) shaped.2).bind fun band known => ?_
  exact Yields.getElem? (by rw [known.1]; exact few) known.2

theorem yields_putCoeff {dq : List Int} (factors : Factors dq) {c : Nat} (below : c < 16) {signed : Int}
    (small : -2116 ≤ signed ∧ signed ≤ 2116) {out : List Int16} (sixteen : out.length = 16)
    (clean : c = 0 → out.tail = List.replicate 15 0) :
    Yields (fun out' => out'.length = 16 ∧ (c = 0 → out'.tail = List.replicate 15 0)) (putCoeff dq c signed out) := by
  have places : ∀ z ∈ zigzag, z < 16 := by decide
  unfold putCoeff
  rw [List.getElem?_eq_getElem (show c < zigzag.length from below)]
  refine Yields.bind (P := (· = zigzag[c])) ⟨_, rfl, rfl⟩ fun z same => ?_
  refine (Yields.getElem? (P := fun f => 0 ≤ f ∧ f ≤ 1000) (by rw [factors.1]; split <;> decide) factors.2).bind
    fun f bound => ?_
  have low : -2116000 ≤ signed * f := by nlinarith [bound.1, bound.2, small.1, small.2]
  have high : signed * f ≤ 2116000 := by nlinarith [bound.1, bound.2, small.1, small.2]
  rw [i32_eq (by omega) (by omega)]
  simp only [Option.bind_eq_bind, Option.bind_some]
  rw [setAt_eq (by rw [same, sixteen]; exact places _ (List.getElem_mem below))]
  refine Yields.pure ⟨by rw [List.length_set, sixteen], fun first => ?_⟩
  subst first
  obtain rfl : z = 0 := same
  match out, sixteen, clean rfl with
  | _ :: _, _, tail => exact tail

/-- What a block's tokens leave when they end after place `c`. -/
def BlockEnd (c : Nat) (r : Nat × List Int16) : Prop :=
  c < r.1 ∧ r.1 ≤ 16 ∧ r.2.length = 16 ∧ (r.1 ≤ 1 → r.2.tail = List.replicate 15 0)

theorem runs_tokensFrom {probs : BlockProbs} (shaped : probs.Shaped) {dq : List Int} (factors : Factors dq)
    {fuel c : Nat} {p : List UInt8} {out : List Int16} (below : c < 16) (enough : 16 ≤ fuel + c) (eleven : p.length = 11)
    (sixteen : out.length = 16) (clean : c = 0 → out.tail = List.replicate 15 0) :
    Runs BoolDecoder.Sound (BlockEnd c) (tokensFrom probs dq fuel c p out) := by
  induction fuel generalizing c p out with
  | zero => omega
  | succ fuel ih =>
      have later {ctx : Nat} (out : List Int16) {m : List UInt8 → BitReader (Nat × List Int16)} (more : c + 1 ≠ 16)
          (few : ctx < 3) (rest : ∀ p, p.length = 11 → Runs BoolDecoder.Sound (BlockEnd c) (m p)) :
          Runs BoolDecoder.Sound (BlockEnd c) (do m (← bandProbs probs (c + 1) ctx)) :=
        (Runs.lift (yields_bandProbs shaped (by omega) few)).bind rest
      have further {p : List UInt8} {out : List Int16} (more : c + 1 ≠ 16) (eleven : p.length = 11)
          (sixteen : out.length = 16) :
          Runs BoolDecoder.Sound (BlockEnd c) (tokensFrom probs dq fuel (c + 1) p out) :=
        (ih (by omega) (by omega) eleven sixteen fun h => by omega).mono fun r h => ⟨by have := h.1; omega, h.2⟩
      rw [tokensFrom]
      refine (runs_readProb eleven (by decide)).bind fun b1 _ => ?_
      cases b1 with
      | false =>
          simp only [Bool.not_false, if_true]
          split
          next last => exact Runs.pure ⟨by show c < 16; exact below, le_rfl, sixteen, fun h => absurd h (by show ¬16 ≤ 1; decide)⟩
          next more => exact later out more (by decide) fun p eleven => further more eleven sixteen
      | true =>
          simp only [Bool.not_true, Bool.false_eq_true, if_false]
          refine (runs_tokenValue eleven).bind fun r known => ?_
          obtain ⟨v, ctx⟩ := r
          refine (runs_readSigned known.1).bind fun s small => ?_
          refine (Runs.lift (yields_putCoeff factors below small sixteen clean)).bind fun out put => ?_
          split
          next last => exact Runs.pure ⟨by show c < 16; exact below, le_rfl, put.1, fun h => absurd h (by show ¬16 ≤ 1; decide)⟩
          next more =>
            refine later out more known.2 fun p eleven => ?_
            refine (runs_readProb eleven (by decide)).bind fun b0 _ => ?_
            cases b0 with
            | false => exact Runs.pure ⟨Nat.lt_succ_self c, by show c + 1 ≤ 16; omega, put.1, fun h => put.2 (by
                have : c + 1 ≤ 1 := h
                omega)⟩
            | true => exact further more eleven put.1

/-- A block of zeros is filled, and with at most one token only its DC. -/
theorem runs_decodeBlock {probs : BlockProbs} (shaped : probs.Shaped) {ctx first : Nat} {dq : List Int}
    (factors : Factors dq) (few : ctx < 3) (low : first ≤ 1) :
    Runs BoolDecoder.Sound (fun r => r.1 ≤ 16 ∧ r.2.length = 16 ∧ (r.1 ≤ 1 → r.2.tail = List.replicate 15 0) ∧
      (r.1 = 0 → r.2 = noBlock)) (decodeBlock probs ctx first dq noBlock) := by
  unfold decodeBlock
  refine (Runs.lift (yields_bandProbs shaped (by omega) few)).bind fun p eleven => ?_
  refine (runs_readProb eleven (by decide)).bind fun b0 _ => ?_
  cases b0 with
  | false => exact Runs.pure ⟨by show first ≤ 16; omega, rfl, fun _ => rfl, fun _ => rfl⟩
  | true =>
      exact (runs_tokensFrom shaped factors (by omega) (by omega) eleven rfl fun _ => rfl).mono
        fun r h => ⟨h.2.1, h.2.2.1, h.2.2.2, fun none => by have := h.1; omega⟩

end BitReader

/-- Contexts count blocks with and without tokens. -/
def Contexts (l : List Nat) : Prop := l.length = 9 ∧ ∀ c ∈ l, c ≤ 1

theorem Contexts.set {l : List Nat} (h : Contexts l) (i : Nat) {v : Nat} (unit : v ≤ 1) : Contexts (l.set i v) := by
  refine ⟨by rw [List.length_set, h.1], fun c mem => ?_⟩
  rcases List.mem_or_eq_of_mem_set mem with old | rfl
  · exact h.2 c old
  · exact unit

/-- The blocks `todo` are still to come. -/
structure MbTokens.Sound (todo : Nat → Prop) (s : MbTokens) : Prop where
  above : Contexts s.above
  left : Contexts s.left
  coeffs : s.coeffs.length = 25
  eobs : s.eobs.length = 25
  ready : ∀ b < 25, BlockReady s.coeffs s.eobs b
  fresh : ∀ b < 25, todo b → s.coeffs[b]? = some noBlock
  y2 : ∃ c e, s.coeffs[24]? = some c ∧ s.eobs[24]? = some e ∧ (e = 0 → c = noBlock)

theorem MbTokens.Sound.mono {todo todo' : Nat → Prop} {s : MbTokens} (h : s.Sound todo)
    (le : ∀ b, todo' b → todo b) : s.Sound todo' :=
  ⟨h.above, h.left, h.coeffs, h.eobs, h.ready, fun b inside more => h.fresh b inside (le b more), h.y2⟩

theorem MbTokens.sound_start {above left : List Nat} (ha : Contexts above) (hl : Contexts left) :
    MbTokens.Sound (fun _ => True) { above, left, coeffs := noCoeffs } := by
  have block {b : Nat} (inside : b < 25) : noCoeffs[b]? = some noBlock := by
    rw [noCoeffs, List.getElem?_replicate, if_pos inside]
  have stop {b : Nat} (inside : b < 25) : (List.replicate 25 0)[b]? = some 0 := by
    rw [List.getElem?_replicate, if_pos inside]
  exact ⟨ha, hl, rfl, rfl, fun b inside => ⟨noBlock, 0, block inside, stop inside, rfl, fun _ => rfl⟩,
    fun b inside _ => block inside, noBlock, 0, block (by decide), stop (by decide), fun _ => rfl⟩

section tokens

variable {probs : CoeffProbs} {hasY2 : Bool} {dq : Dequant}

theorem runs_blockTokens {probs : BlockProbs} (shaped : probs.Shaped) {ai li b first : Nat} {dq : List Int}
    (factors : Factors dq) (inside : ai < 9) (inside' : li < 9) (below : b < 25) (low : first ≤ 1) {todo : Nat → Prop}
    {s : MbTokens} (sound : s.Sound todo) (next : todo b) :
    Runs BoolDecoder.Sound (MbTokens.Sound fun j => todo j ∧ j ≠ b) (blockTokens probs ai li b first dq s) := by
  obtain ⟨above, left, coeffs, eobs, ready, fresh, y2⟩ := sound
  have here : b < s.coeffs.length := by omega
  have there : b < s.eobs.length := by omega
  unfold blockTokens
  refine (Runs.lift (Yields.getElem? (by rw [above.1]; exact inside) above.2)).bind fun a unit => ?_
  refine (Runs.lift (Yields.getElem? (by rw [left.1]; exact inside') left.2)).bind fun l unit' => ?_
  rw [addU8_eq (by omega), fresh b below next]
  simp only [lift_some_bind]
  refine (runs_decodeBlock shaped factors (by omega) low).bind fun r known => ?_
  obtain ⟨eob, block⟩ := r
  obtain ⟨-, sixteen, clean, none⟩ := known
  dsimp only
  have unit : (if eob > first then 1 else 0 : Nat) ≤ 1 := by split <;> decide
  rw [setAt_eq (by rw [above.1]; exact inside), setAt_eq (by rw [left.1]; exact inside'), setAt_eq here, setAt_eq there]
  simp only [lift_some_bind]
  refine Runs.pure ⟨above.set ai unit, left.set li unit, ?_, ?_, fun j small => ?_, fun j small more => ?_, ?_⟩
  · rw [List.length_set, coeffs]
  · rw [List.length_set, eobs]
  · by_cases same : j = b
    · subst same
      exact ⟨block, eob, List.getElem?_set_self here, List.getElem?_set_self there, sixteen, clean⟩
    · obtain ⟨c, e, isC, isE, rest⟩ := ready j small
      exact ⟨c, e, by rw [List.getElem?_set_ne (Ne.symm same)]; exact isC,
        by rw [List.getElem?_set_ne (Ne.symm same)]; exact isE, rest⟩
  · rw [List.getElem?_set_ne (Ne.symm more.2)]
    exact fresh j small more.1
  · by_cases last : b = 24
    · subst last
      exact ⟨block, eob, List.getElem?_set_self here, List.getElem?_set_self there, none⟩
    · obtain ⟨c, e, isC, isE, rest⟩ := y2
      exact ⟨c, e, by rw [List.getElem?_set_ne last]; exact isC, by rw [List.getElem?_set_ne last]; exact isE, rest⟩

/-- What is still to come once Y2 and the blocks before `k` are read. -/
def Todo (hasY2 : Bool) (k b : Nat) : Prop := k ≤ b ∧ b < 24 ∨ b = 24 ∧ hasY2 = false

theorem runs_y2Tokens (shaped : probs.Shaped) (sound : dq.Sound) {s : MbTokens} (start : s.Sound fun _ => True) :
    Runs BoolDecoder.Sound (MbTokens.Sound (Todo hasY2 0)) (y2Tokens probs hasY2 dq s) := by
  unfold y2Tokens
  cases hasY2 with
  | false => exact Runs.pure (start.mono fun _ _ => trivial)
  | true =>
      refine (Runs.lift (Yields.getElem? (by rw [shaped.1]; decide) shaped.2)).bind fun type known => ?_
      refine (runs_blockTokens known sound.y2 (by decide) (by decide) (by decide) (by decide) start trivial).mono
        fun s done => done.mono fun b more => ⟨trivial, ?_⟩
      rcases more with ⟨-, below⟩ | ⟨-, off⟩
      · omega
      · cases off

theorem runs_lumaTokens (shaped : probs.Shaped) (sound : dq.Sound) {b : Nat} (below : b < 16) {s : MbTokens}
    (start : s.Sound (Todo hasY2 b)) :
    Runs BoolDecoder.Sound (MbTokens.Sound (Todo hasY2 (b + 1))) (lumaTokens probs hasY2 dq b s) := by
  have step {type first : Nat} (few : type < 4) (low : first ≤ 1) :
      Runs BoolDecoder.Sound (MbTokens.Sound (Todo hasY2 (b + 1)))
        (do blockTokens (← probs[type]?) (b % 4) (b / 4) b first dq.y1 s : BitReader MbTokens) := by
    refine (Runs.lift (Yields.getElem? (by rw [shaped.1]; exact few) shaped.2)).bind fun type known => ?_
    refine (runs_blockTokens known sound.y1 (by omega) (by omega) (by omega) low start (Or.inl ⟨le_rfl, by omega⟩)).mono
      fun s done => done.mono fun j more => ?_
    rcases more with ⟨low, high⟩ | last
    · exact ⟨Or.inl ⟨by omega, high⟩, by omega⟩
    · exact ⟨Or.inr last, by omega⟩
  unfold lumaTokens
  cases hasY2 with
  | false => exact step (by decide) (by decide)
  | true => exact step (by decide) (by decide)

theorem runs_chromaTokens (shaped : probs.Shaped) (sound : dq.Sound) {j : Nat} (below : j < 8) {s : MbTokens}
    (start : s.Sound (Todo hasY2 (16 + j))) :
    Runs BoolDecoder.Sound (MbTokens.Sound (Todo hasY2 (16 + (j + 1)))) (chromaTokens probs dq j s) := by
  unfold chromaTokens
  have base : (if j < 4 then 4 else 6 : Nat) ≤ 6 := by split <;> decide
  refine (Runs.lift (Yields.getElem? (by rw [shaped.1]; decide) shaped.2)).bind fun type known => ?_
  refine (runs_blockTokens known sound.uv (by omega) (by omega) (by omega) (by omega) start
    (Or.inl ⟨le_rfl, by omega⟩)).mono fun s done => done.mono fun b more => ?_
  rcases more with ⟨low, high⟩ | last
  · exact ⟨Or.inl ⟨by omega, high⟩, by omega⟩
  · exact ⟨Or.inr last, by omega⟩

theorem runs_decodeMbTokens (shaped : probs.Shaped) (sound : dq.Sound) {above left : List Nat} (ha : Contexts above)
    (hl : Contexts left) :
    Runs BoolDecoder.Sound (fun s => Contexts s.above ∧ Contexts s.left ∧ Settled hasY2 s.eobs s.coeffs)
      (decodeMbTokens probs above left hasY2 dq noCoeffs) := by
  unfold decodeMbTokens
  refine (runs_y2Tokens shaped sound (MbTokens.sound_start ha hl)).bind fun s start => ?_
  refine (Runs.loop (fun b => MbTokens.Sound (Todo hasY2 b)) start fun b below s here =>
    runs_lumaTokens shaped sound below here).bind fun s luma => ?_
  refine (Runs.loop (fun j => MbTokens.Sound (Todo hasY2 (16 + j))) luma fun j below s here =>
    runs_chromaTokens shaped sound below here).mono fun s done => ?_
  obtain ⟨above, left, coeffs, -, ready, fresh, c, e, isC, isE, none⟩ := done
  obtain ⟨c', e', isC', -, sixteen, -⟩ := ready 24 (by decide)
  obtain rfl : c = c' := Option.some.inj (isC.symm.trans isC')
  refine ⟨above, left, coeffs, fun b below => ready b (by omega), c, e, isC, isE, sixteen, fun _ => none, fun off => ?_⟩
  exact Option.some.inj (isC.symm.trans (fresh 24 (by decide) (Or.inr ⟨rfl, off⟩)))

end tokens

end K2.Vp8
