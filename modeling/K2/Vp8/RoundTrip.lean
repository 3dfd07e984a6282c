import K2.Vp8.BoolDecoder

/-! # What the encoder writes, the decoder reads -/

namespace K2.Vp8

open BoolDecoder (fraction fraction_nonneg fraction_lt)

/-! ## From the flushed bytes to the window -/

theorem fraction_append (a b : List UInt8) :
    fraction (a ++ b) = fraction a + fraction b / 256 ^ a.length := by
  induction a with
  | nil => simp [fraction]
  | cons head rest ih =>
    rw [List.cons_append, fraction, fraction, ih, List.length_cons, pow_succ]
    field_simp
    ring

theorem fraction_eq_number (bytes : List UInt8) :
    fraction bytes = number bytes * 256 / 256 ^ bytes.length := by
  induction bytes with
  | nil => simp [fraction]
  | cons b rest ih =>
    rw [fraction, number, ih, List.length_cons, pow_succ]
    push_cast
    field_simp

/-- `d` is about to read the bits of `message`. -/
def BoolDecoder.Expects (d : BoolDecoder) (message : List (UInt8 × Bool)) : Prop :=
  coder.Ready d.range ∧ ∃ w, d.At w ∧ coder.Holds d.range w message

theorem scale_finish {e : BoolEncoder} {low shifts : Nat} (here : e.At low shifts) :
    (256 : ℚ) ^ e.finish.length = 2 ^ shifts * 2 ^ e.bitCount * 256 := by
  rw [show (256 : ℚ) = 2 ^ 8 by norm_num, ← pow_mul, here.finish.2, pow_add, pow_add]

theorem fraction_finish {e : BoolEncoder} {low shifts : Nat} (here : e.At low shifts) :
    fraction e.finish = low / 2 ^ shifts := by
  rw [fraction_eq_number, here.finish.1, scale_finish here]
  push_cast
  field_simp

/-- Bytes after the flushed ones add less than one unit of the last range. -/
theorem fraction_tail_lt {e : BoolEncoder} {low shifts : Nat} (here : e.At low shifts) (tail : List UInt8) :
    fraction tail / 256 ^ e.finish.length < 1 / 2 ^ shifts := by
  have unit : (1 : ℚ) ≤ 2 ^ e.bitCount := one_le_pow₀ (by norm_num)
  have scale : (0 : ℚ) < 2 ^ shifts := by positivity
  have whole : (1 / 2 ^ shifts * 256 ^ e.finish.length : ℚ) = 2 ^ e.bitCount * 256 := by
    rw [scale_finish here]
    field_simp
  rw [div_lt_iff₀ (by positivity), whole]
  have := fraction_lt tail
  linarith

/-- A decoder opened on the flushed bytes of a message, with anything after
    them, expects that message. -/
theorem expects_new {message : List (UInt8 × Bool)} {e : BoolEncoder}
    (written : BoolEncoder.new.writes message = some e) (tail : List UInt8) :
    (BoolDecoder.new (e.finish ++ tail)).Expects message := by
  obtain ⟨e', low, shifts, ran, here, ready, value, scaled, size⟩ :=
    BoolEncoder.At.new.writes ⟨by decide, by decide⟩ message
  obtain rfl : e' = e := Option.some.inj (ran.symm.trans written)
  obtain ⟨opened, range⟩ := BoolDecoder.At.new (e'.finish ++ tail)
  change _ = _ + coder.low 255 message / _ at value
  change shifts = 0 + coder.scale 255 message at scaled
  change e'.range = coder.final 255 message at size
  have exact : fraction e'.finish = coder.low 255 message := by
    rw [fraction_finish here, value]
    norm_num
  have after : 0 ≤ fraction tail / 256 ^ e'.finish.length := div_nonneg (fraction_nonneg _) (by positivity)
  have small := fraction_tail_lt here tail
  refine ⟨by rw [range]; exact ⟨by decide, by decide⟩, _, opened, ?_⟩
  rw [range, fraction_append, exact]
  refine ⟨by linarith, ?_⟩
  have one : (1 : ℚ) ≤ e'.range := by exact_mod_cast here.range_pos
  have unit : (1 / 2 ^ shifts : ℚ) ≤ e'.range / 2 ^ shifts := by gcongr
  rw [← size, show coder.scale 255 message = shifts by omega]
  linarith

/-! ## One bit at a time -/

namespace BoolDecoder.Expects

variable {d : BoolDecoder} {prob : UInt8} {bit : Bool} {rest : List (UInt8 × Bool)}

theorem read (expects : d.Expects ((prob, bit) :: rest)) :
    ∃ d', d.read prob = (bit, d') ∧ d'.Expects rest := by
  obtain ⟨ready, w, here, holds⟩ := expects
  have below : w < d.range := holds.lt_high.trans_le (coder.high_le ready _)
  obtain ⟨bit', d', ran, side, range, there⟩ := here.read ready below prob
  obtain rfl : bit' = bit := Bool.eq_iff_iff.mpr (side.trans (holds.bit_iff ready).symm)
  refine ⟨d', ran, ?_, _, there, ?_⟩
  · rw [range]
    exact coder.ready_next ready prob bit'
  · rw [range]
    exact holds.tail

end BoolDecoder.Expects

/-! ## Literals -/

/-- The bits `writeLiteral` writes. -/
def literalBits (v : Nat) : Nat → List (UInt8 × Bool)
  | 0 => []
  | i + 1 => (128, (v >>> i) &&& 1 == 1) :: literalBits v i

theorem writeLiteral_eq (e : BoolEncoder) (v : Nat) {n : Nat} (width : n ≤ 32) :
    e.writeLiteral v n = e.writes (literalBits v n) := by
  induction n generalizing e with
  | zero => rfl
  | succ i ih =>
    rw [BoolEncoder.writeLiteral, if_pos (by omega), literalBits, BoolEncoder.writes]
    congr 1
    funext next
    exact ih next (by omega)

theorem literal_step {v : Nat} (word : v < 2 ^ 32) (i : Nat) :
    ((v / 2 ^ (i + 1)) <<< 1) % 2 ^ 32 ||| ((v >>> i) &&& 1 == 1).toNat = v / 2 ^ i := by
  have bit : ((v >>> i) &&& 1 == 1).toNat = v / 2 ^ i % 2 := by
    rw [Nat.and_one_is_mod, Nat.shiftRight_eq_div_pow]
    rcases Nat.mod_two_eq_zero_or_one (v / 2 ^ i) with zero | one
    · rw [zero]
      rfl
    · rw [one]
      rfl
  have half : v / 2 ^ (i + 1) = v / 2 ^ i / 2 := by
    rw [pow_succ, Nat.div_div_eq_div_mul]
  have below : v / 2 ^ i ≤ v := Nat.div_le_self _ _
  rw [bit, half, Nat.shiftLeft_eq, Nat.mod_eq_of_lt (by omega), Nat.mul_comm,
    ← Nat.two_pow_add_eq_or_of_lt (by omega)]
  omega

namespace BoolDecoder.Expects

variable {d : BoolDecoder} {rest : List (UInt8 × Bool)}

theorem readLiteralOnto {v n : Nat} (word : v < 2 ^ 32) (expects : d.Expects (literalBits v n ++ rest)) :
    ∃ d', BoolDecoder.readLiteralOnto (v / 2 ^ n) n d = (v, d') ∧ d'.Expects rest := by
  induction n generalizing d with
  | zero => exact ⟨d, by rw [BoolDecoder.readLiteralOnto, pow_zero, Nat.div_one], expects⟩
  | succ i ih =>
    obtain ⟨mid, ran, there⟩ := expects.read
    obtain ⟨d', looped, last⟩ := ih there
    refine ⟨d', ?_, last⟩
    rw [BoolDecoder.readLiteralOnto, readBit, ran]
    show BoolDecoder.readLiteralOnto (_ ||| _) i mid = _
    rw [literal_step word, looped]

theorem readLiteral {v n : Nat} (word : v < 2 ^ 32) (fits : v < 2 ^ n)
    (expects : d.Expects (literalBits v n ++ rest)) :
    ∃ d', d.readLiteral n = (v, d') ∧ d'.Expects rest := by
  have read := expects.readLiteralOnto word
  rwa [Nat.div_eq_of_lt fits] at read

end BoolDecoder.Expects

/-! ## Optional signed values -/

/-- The bits `writeOptionalSigned` writes. -/
def signedBits (v : Int) (n : Nat) : List (UInt8 × Bool) :=
  if v ≠ 0 then (128, true) :: literalBits v.natAbs n ++ [(128, decide (v < 0))] else [(128, false)]

theorem writeOptionalSigned_eq (e : BoolEncoder) (v : Int) {n : Nat} (width : n ≤ 32) :
    e.writeOptionalSigned v n = e.writes (signedBits v n) := by
  by_cases zero : v = 0
  · simp [BoolEncoder.writeOptionalSigned, signedBits, zero, BoolEncoder.writes, BoolEncoder.writeBit]
  · simp [BoolEncoder.writeOptionalSigned, signedBits, zero, BoolEncoder.writes, BoolEncoder.writeBit,
      writeLiteral_eq _ _ width, BoolEncoder.writes_append]

theorem asI32_natAbs {v : Int} (positive : 0 ≤ v) (word : v < 2 ^ 31) : BoolDecoder.asI32 v.natAbs = v := by
  rw [BoolDecoder.asI32, Int.bmod_def]
  omega

/-- The magnitude of the least `i32` wraps, and its negation wraps back. -/
theorem asI32_neg_natAbs {v : Int} (negative : v < 0) (word : -2 ^ 31 ≤ v) :
    BoolDecoder.asI32 (-BoolDecoder.asI32 v.natAbs) = v := by
  rw [BoolDecoder.asI32, BoolDecoder.asI32, Int.bmod_def, Int.bmod_def]
  omega

theorem BoolDecoder.Expects.readOptionalSigned {d : BoolDecoder} {rest : List (UInt8 × Bool)} {v : Int} {n : Nat}
    (low : -2 ^ 31 ≤ v) (high : v < 2 ^ 31) (fits : v.natAbs < 2 ^ n)
    (expects : d.Expects (signedBits v n ++ rest)) :
    ∃ d', d.readOptionalSigned n = (v, d') ∧ d'.Expects rest := by
  by_cases zero : v = 0
  · rw [signedBits, if_neg (by simpa using zero)] at expects
    obtain ⟨d', ran, there⟩ := expects.read
    refine ⟨d', ?_, there⟩
    simp [BoolDecoder.readOptionalSigned, readBit, ran, zero]
  · rw [signedBits, if_pos zero, List.cons_append, List.cons_append, List.append_assoc] at expects
    obtain ⟨flagged, ranFlag, there⟩ := expects.read
    obtain ⟨counted, ranLiteral, there⟩ := there.readLiteral (by omega) fits
    obtain ⟨d', ranSign, there⟩ := there.read
    refine ⟨d', ?_, there⟩
    simp only [BoolDecoder.readOptionalSigned, readBit, ranFlag, ranLiteral, ranSign, Bool.not_true,
      Bool.false_eq_true, if_false, decide_eq_true_eq]
    split
    next negative => rw [asI32_neg_natAbs negative low]
    next => rw [asI32_natAbs (by omega) high]

/-! ## Trees -/

/-- From `node` every branch reaches a leaf within `depth` bits, inside the
    tree and its probabilities. -/
def WellFormed (tree : List Int) (probs : List UInt8) : Nat → Nat → Prop
  | 0, _ => False
  | depth + 1, node =>
      (∃ prob, probs[node >>> 1]? = some prob) ∧
      ∀ bit : Bool, ∃ next, tree[node + bit.toNat]? = some next ∧
        (0 < next → WellFormed tree probs depth next.toNat)

/-- `value` is a leaf below `node`, within `depth` bits. -/
def Leaf (tree : List Int) (value : UInt8) : Nat → Nat → Prop
  | 0, _ => False
  | depth + 1, node =>
      ∃ (bit : Bool) (next : Int), tree[node + bit.toNat]? = some next ∧
        if next ≤ 0 then UInt8.ofNat (-next).toNat = value else Leaf tree value depth next.toNat

/-- The bits `writePath` writes. -/
def pathBits (probs : List UInt8) : List (Nat × Bool) → Option (List (UInt8 × Bool))
  | [] => some []
  | (node, bit) :: rest => do
      let prob ← probs[node >>> 1]?
      let rest ← pathBits probs rest
      some ((prob, bit) :: rest)

theorem writePath_eq (e : BoolEncoder) {probs : List UInt8} {path : List (Nat × Bool)}
    {bits : List (UInt8 × Bool)} (known : pathBits probs path = some bits) :
    e.writePath probs path = e.writes bits := by
  induction path generalizing e bits with
  | nil =>
    obtain rfl := Option.some.inj known
    rfl
  | cons head rest ih =>
    obtain ⟨prob, found, known⟩ := Option.bind_eq_some_iff.mp known
    obtain ⟨restBits, knownRest, known⟩ := Option.bind_eq_some_iff.mp known
    obtain rfl := Option.some.inj known
    simp only [BoolEncoder.writePath, found, BoolEncoder.writes, Option.bind_eq_bind, Option.bind_some]
    congr 1
    funext next
    exact ih next knownRest

/-- The bits lead a decoder from `node` to the leaf `value`. -/
def Leads (tree : List Int) (probs : List UInt8) (value : UInt8) (fuel node : Nat)
    (bits : List (UInt8 × Bool)) : Prop :=
  ∀ (d : BoolDecoder) (rest : List (UInt8 × Bool)), d.Expects (bits ++ rest) →
    ∃ d', BoolDecoder.readTreeFrom tree probs fuel d node = some (value, d') ∧ d'.Expects rest

/-- What a search finds is a path whose bits lead to the value. -/
def Found (tree : List Int) (probs : List UInt8) (value : UInt8) (fuel node : Nat)
    (path : List (Nat × Bool)) : Prop :=
  ∃ bits, pathBits probs path = some bits ∧ Leads tree probs value fuel node bits

section Trees

variable {tree : List Int} {probs : List UInt8} {value : UInt8} {node : Nat} {bit : Bool} {next : Int}
  {prob : UInt8}

theorem found_leaf (fuel : Nat) (weighed : probs[node >>> 1]? = some prob)
    (entry : tree[node + bit.toNat]? = some next) (leaf : next ≤ 0)
    (same : UInt8.ofNat (-next).toNat = value) :
    Found tree probs value (fuel + 1) node [(node, bit)] := by
  refine ⟨[(prob, bit)], by simp [pathBits, weighed], ?_⟩
  intro d rest expects
  obtain ⟨d', ran, there⟩ := expects.read
  refine ⟨d', ?_, there⟩
  simp [BoolDecoder.readTreeFrom, weighed, ran, entry, leaf, same]

theorem found_branch {fuel : Nat} {path : List (Nat × Bool)} (weighed : probs[node >>> 1]? = some prob)
    (entry : tree[node + bit.toNat]? = some next) (branch : 0 < next)
    (found : Found tree probs value fuel next.toNat path) :
    Found tree probs value (fuel + 1) node ((node, bit) :: path) := by
  obtain ⟨bits, known, leads⟩ := found
  refine ⟨(prob, bit) :: bits, by simp [pathBits, weighed, known], ?_⟩
  intro d rest expects
  obtain ⟨mid, ran, there⟩ := expects.read
  obtain ⟨d', descended, last⟩ := leads mid rest there
  refine ⟨d', ?_, last⟩
  simp [BoolDecoder.readTreeFrom, weighed, ran, entry, not_le.mpr branch, descended]

/-- What a search may answer below a node: no panic, a path that leads to the
    value, and `none` only when the value is no leaf there. -/
def Searched (tree : List Int) (probs : List UInt8) (value : UInt8) (depth node : Nat)
    (answer : Option (Option (List (Nat × Bool)))) : Prop :=
  (∃ path, answer = some (some path) ∧ Found tree probs value depth node path) ∨
  (answer = some none ∧ ¬ Leaf tree value depth node)

theorem treePath_searched (value : UInt8) {depth : Nat} (wellFormed : WellFormed tree probs depth node) :
    Searched tree probs value depth node (BoolEncoder.treePath tree value depth node) := by
  induction depth generalizing node with
  | zero => exact wellFormed.elim
  | succ depth ih =>
    obtain ⟨⟨prob, weighed⟩, branches⟩ := wellFormed
    -- each branch by itself
    have branch : ∀ bit : Bool,
        (∃ path, BoolEncoder.treeBranch tree value (BoolEncoder.treePath tree value depth) node bit
            = some (some path) ∧ Found tree probs value (depth + 1) node path) ∨
        (BoolEncoder.treeBranch tree value (BoolEncoder.treePath tree value depth) node bit = some none ∧
          ∀ next, tree[node + bit.toNat]? = some next →
            ¬ if next ≤ 0 then UInt8.ofNat (-next).toNat = value else Leaf tree value depth next.toNat) := by
      intro bit
      obtain ⟨next, entry, below⟩ := branches bit
      simp only [BoolEncoder.treeBranch, entry, Option.bind_eq_bind, Option.bind_some, Option.some.injEq,
        forall_eq']
      by_cases leaf : next ≤ 0
      · rw [if_pos leaf, if_pos leaf]
        by_cases same : UInt8.ofNat (-next).toNat = value
        · rw [if_pos same]
          exact .inl ⟨_, rfl, found_leaf depth weighed entry leaf same⟩
        · rw [if_neg same]
          exact .inr ⟨rfl, same⟩
      · rw [if_neg leaf, if_neg leaf]
        rcases ih (below (by omega)) with ⟨path, searched, found⟩ | ⟨searched, none⟩
        · rw [searched]
          exact .inl ⟨_, rfl, found_branch weighed entry (by omega) found⟩
        · rw [searched]
          exact .inr ⟨rfl, none⟩
    simp only [Searched, BoolEncoder.treePath, Option.bind_eq_bind]
    rcases branch false with ⟨path, searched, found⟩ | ⟨searched, noneLeft⟩
    · rw [searched, Option.bind_some]
      exact .inl ⟨path, rfl, found⟩
    · rw [searched, Option.bind_some]
      rcases branch true with ⟨path, searched', found⟩ | ⟨searched', noneRight⟩
      · exact .inl ⟨path, searched', found⟩
      · refine .inr ⟨searched', ?_⟩
        rintro ⟨bit, next, entry, reached⟩
        cases bit with
        | false => exact noneLeft next entry reached
        | true => exact noneRight next entry reached

end Trees

theorem readTreeFrom_mono {tree : List Int} {probs : List UInt8} {fuel more : Nat} (le : fuel ≤ more)
    {d : BoolDecoder} {node : Nat} {answer : UInt8 × BoolDecoder}
    (ran : BoolDecoder.readTreeFrom tree probs fuel d node = some answer) :
    BoolDecoder.readTreeFrom tree probs more d node = some answer := by
  induction fuel generalizing more d node with
  | zero => cases ran
  | succ fuel ih =>
    obtain ⟨more, rfl⟩ := Nat.exists_eq_add_of_le' (Nat.le_trans (Nat.succ_le_succ (Nat.zero_le _)) le)
    rw [BoolDecoder.readTreeFrom, Option.bind_eq_bind] at ran ⊢
    obtain ⟨prob, weighed, ran⟩ := Option.bind_eq_some_iff.mp ran
    rw [weighed, Option.bind_some]
    generalize d.read prob = answered at ran ⊢
    obtain ⟨bit, mid⟩ := answered
    simp only [Option.bind_eq_bind] at ran
    obtain ⟨next, entry, ran⟩ := Option.bind_eq_some_iff.mp ran
    simp only [entry, Option.bind_eq_bind, Option.bind_some]
    split at ran
    next leaf => rwa [if_pos leaf]
    next branch =>
      rw [if_neg branch]
      exact ih (by omega) ran

/-! ## Whole messages -/

/-- One thing to read, with what the reader must know of it. -/
inductive Field where
  | bool (prob : UInt8)
  | literal (n : Nat)
  | optionalSigned (n : Nat)
  | tree (entries : List Int) (probs : List UInt8)
  deriving Repr, DecidableEq

namespace Field

/-- What a field reads as. -/
def Value : Field → Type
  | bool _ => Bool
  | literal _ => Nat
  | optionalSigned _ => Int
  | tree _ _ => UInt8

/-- The value is one the field can carry: within its width, or a leaf of a
    well-formed tree of depth at most 16. -/
def Fits : (f : Field) → f.Value → Prop
  | bool _, _ => True
  | literal n, v => n ≤ 32 ∧ (show Nat from v) < 2 ^ n
  | optionalSigned n, v =>
      n ≤ 32 ∧ -2 ^ 31 ≤ (show Int from v) ∧ (show Int from v) < 2 ^ 31 ∧ (show Int from v).natAbs < 2 ^ n
  | tree entries probs, v => WellFormed entries probs 16 0 ∧ Leaf entries v 16 0

def write (e : BoolEncoder) : (f : Field) → f.Value → Option BoolEncoder
  | bool prob, bit => e.write prob bit
  | literal n, v => e.writeLiteral v n
  | optionalSigned n, v => e.writeOptionalSigned v n
  | tree entries probs, v => e.writeTree entries probs v

def read (fuel : Nat) (d : BoolDecoder) : (f : Field) → Option (f.Value × BoolDecoder)
  | bool prob => some (d.read prob)
  | literal n => some (d.readLiteral n)
  | optionalSigned n => some (d.readOptionalSigned n)
  | tree entries probs => d.readTree fuel entries probs

end Field

/-- A field with its value. -/
abbrev Item := (f : Field) × f.Value

def writeAll (e : BoolEncoder) : List Item → Option BoolEncoder
  | [] => some e
  | ⟨f, v⟩ :: rest => (f.write e v).bind (writeAll · rest)

def readAll (fuel : Nat) (d : BoolDecoder) : List Field → Option (List Item)
  | [] => some []
  | f :: rest => do
      let (v, d) ← f.read fuel d
      let items ← readAll fuel d rest
      some (⟨f, v⟩ :: items)

/-- Every value that fits is written as bits, and a decoder that expects those
    bits reads the value. -/
theorem Field.bits (f : Field) (v : f.Value) (fits : f.Fits v) :
    ∃ bits, (∀ e : BoolEncoder, f.write e v = e.writes bits) ∧
      ∀ fuel (d : BoolDecoder) rest, 16 ≤ fuel → d.Expects (bits ++ rest) →
        ∃ d', f.read fuel d = some (v, d') ∧ d'.Expects rest := by
  cases f with
  | bool prob =>
    refine ⟨[(prob, v)], fun e => ?_, fun fuel d rest _ expects => ?_⟩
    · show e.write prob v = (e.write prob v).bind some
      rw [Option.bind_fun_some]
    · obtain ⟨d', ran, there⟩ := (show d.Expects ((prob, v) :: rest) from expects).read
      exact ⟨d', congrArg some ran, there⟩
  | literal n =>
    obtain ⟨width, small⟩ := fits
    have word : (show Nat from v) < 2 ^ 32 :=
      Nat.lt_of_lt_of_le small (Nat.pow_le_pow_right (by decide) width)
    refine ⟨literalBits v n, fun e => writeLiteral_eq e v width, fun fuel d rest _ expects => ?_⟩
    obtain ⟨d', ran, there⟩ := expects.readLiteral word small
    exact ⟨d', congrArg some ran, there⟩
  | optionalSigned n =>
    obtain ⟨width, low, high, small⟩ := fits
    refine ⟨signedBits v n, fun e => writeOptionalSigned_eq e v width, fun fuel d rest _ expects => ?_⟩
    obtain ⟨d', ran, there⟩ := expects.readOptionalSigned low high small
    exact ⟨d', congrArg some ran, there⟩
  | tree entries probs =>
    obtain ⟨wellFormed, leaf⟩ := fits
    rcases treePath_searched v wellFormed with ⟨path, searched, bits, known, leads⟩ | ⟨-, noLeaf⟩
    · refine ⟨bits, fun e => ?_, fun fuel d rest enough expects => ?_⟩
      · show e.writeTree entries probs v = _
        simp only [BoolEncoder.writeTree, searched, Option.bind_eq_bind, Option.bind_some]
        exact writePath_eq e known
      · obtain ⟨d', ran, there⟩ := leads d rest expects
        exact ⟨d', readTreeFrom_mono enough ran, there⟩
    · exact absurd leaf noLeaf

/-- A whole message is a run of bits, whatever is already written. -/
theorem message_bits (items : List Item) (fits : ∀ item ∈ items, item.1.Fits item.2) :
    ∃ bits, (∀ e : BoolEncoder, writeAll e items = e.writes bits) ∧
      ∀ fuel (d : BoolDecoder) rest, 16 ≤ fuel → d.Expects (bits ++ rest) →
        readAll fuel d (items.map Sigma.fst) = some items := by
  induction items with
  | nil => exact ⟨[], fun _ => rfl, fun _ _ _ _ _ => rfl⟩
  | cons item items ih =>
    obtain ⟨f, v⟩ := item
    obtain ⟨bits, writes, reads⟩ := f.bits v (fits _ (List.mem_cons_self ..))
    obtain ⟨restBits, writesRest, readsRest⟩ := ih fun item mem => fits item (List.mem_cons_of_mem _ mem)
    refine ⟨bits ++ restBits, fun e => ?_, fun fuel d rest enough expects => ?_⟩
    · rw [writeAll, writes, BoolEncoder.writes_append]
      congr 1
      funext next
      exact writesRest next
    · rw [List.append_assoc] at expects
      obtain ⟨d', ran, there⟩ := reads fuel d _ enough expects
      simp only [List.map_cons, readAll, ran, Option.bind_eq_bind, Option.bind_some,
        readsRest fuel d' rest enough there]

/-- Whatever fitting values are written, in any order and number, the encoder
    finishes, and a decoder opened on its bytes with anything after them reads
    exactly those values. -/
theorem read_written (items : List Item) (fits : ∀ item ∈ items, item.1.Fits item.2) :
    ∃ e, writeAll BoolEncoder.new items = some e ∧
      ∀ (tail : List UInt8) (fuel : Nat), 16 ≤ fuel →
        readAll fuel (BoolDecoder.new (e.finish ++ tail)) (items.map Sigma.fst) = some items := by
  obtain ⟨bits, writes, reads⟩ := message_bits items fits
  obtain ⟨e, -, -, written, -⟩ := BoolEncoder.At.new.writes ⟨by decide, by decide⟩ bits
  refine ⟨e, by rw [writes, written], fun tail fuel enough => ?_⟩
  exact reads fuel _ [] enough (by simpa using expects_new written tail)

theorem read_written_mixed :
    ∃ e, writeAll BoolEncoder.new [⟨.bool 0, true⟩, ⟨.literal 5, (19 : Nat)⟩, ⟨.optionalSigned 4, (-6 : Int)⟩,
        ⟨.tree [2, -1, -2, -3] [120, 7], (3 : UInt8)⟩] = some e ∧
      ∀ (tail : List UInt8) (fuel : Nat), 16 ≤ fuel →
        readAll fuel (BoolDecoder.new (e.finish ++ tail))
            [.bool 0, .literal 5, .optionalSigned 4, .tree [2, -1, -2, -3] [120, 7]]
          = some [⟨.bool 0, true⟩, ⟨.literal 5, (19 : Nat)⟩, ⟨.optionalSigned 4, (-6 : Int)⟩,
              ⟨.tree [2, -1, -2, -3] [120, 7], (3 : UInt8)⟩] :=
  read_written [⟨.bool 0, true⟩, ⟨.literal 5, (19 : Nat)⟩, ⟨.optionalSigned 4, (-6 : Int)⟩,
      ⟨.tree [2, -1, -2, -3] [120, 7], (3 : UInt8)⟩] (by
    intro item mem
    simp only [List.mem_cons, List.not_mem_nil, or_false] at mem
    obtain rfl | rfl | rfl | rfl := mem
    · trivial
    · exact ⟨by decide, by decide⟩
    · exact ⟨by decide, by decide, by decide, by decide⟩
    · refine ⟨⟨⟨120, rfl⟩, ?_⟩, ⟨false, 2, rfl, ?_⟩⟩
      · rintro (_ | _)
        · refine ⟨2, rfl, fun _ => ⟨⟨7, rfl⟩, ?_⟩⟩
          rintro (_ | _)
          · exact ⟨-2, rfl, fun positive => absurd positive (by decide)⟩
          · exact ⟨-3, rfl, fun positive => absurd positive (by decide)⟩
        · exact ⟨-1, rfl, fun positive => absurd positive (by decide)⟩
      · rw [if_neg (by decide)]
        refine ⟨true, -3, rfl, ?_⟩
        rw [if_pos (by decide)]
        rfl)

end K2.Vp8
