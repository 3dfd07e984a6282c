import K2.NodeProto.Frames

/-! # What a signature is bound to

The signed bytes of a frame name the direction, the session, the number and the frame
itself, and the digest of the two nonces names the session.
-/

namespace K2.NodeProto

/-! ## Parts -/

theorem lengthBytes_inj {m n : Nat} (hm : m < 2 ^ 32) (hn : n < 2 ^ 32) (same : lengthBytes m = lengthBytes n) : m = n := by
  simp only [lengthBytes, List.map_cons, List.map_nil, List.cons.injEq, and_true] at same
  obtain ⟨b3, b2, b1, b0⟩ := same
  have b3 := congrArg UInt8.toNat b3
  have b2 := congrArg UInt8.toNat b2
  have b1 := congrArg UInt8.toNat b1
  have b0 := congrArg UInt8.toNat b0
  simp only [UInt8.toNat_ofNat'] at b3 b2 b1 b0
  omega

theorem part_inj {p q x y : List UInt8} (hp : p.length < 2 ^ 32) (hq : q.length < 2 ^ 32)
    (same : lengthBytes p.length ++ p ++ x = lengthBytes q.length ++ q ++ y) : p = q ∧ x = y := by
  rw [List.append_assoc, List.append_assoc] at same
  obtain ⟨lengths, rest⟩ := List.append_inj same rfl
  exact List.append_inj rest (lengthBytes_inj hp hq lengths)

theorem last_part_inj {p q : List UInt8} (same : lengthBytes p.length ++ p = lengthBytes q.length ++ q) : p = q :=
  (List.append_inj same rfl).2

/-! ## Hex -/

theorem hexDigit_inj {m n : Nat} (hm : m < 16) (hn : n < 16) (same : hexDigit m = hexDigit n) : m = n := by
  interval_cases m <;> interval_cases n <;> first | rfl | exact absurd same (by decide)

theorem hexChars_inj {a b : List UInt8}
    (same : (a.flatMap fun b => [hexDigit (b.toNat / 16), hexDigit (b.toNat % 16)]) =
      b.flatMap fun b => [hexDigit (b.toNat / 16), hexDigit (b.toNat % 16)]) : a = b := by
  induction a generalizing b with
  | nil => cases b with
    | nil => rfl
    | cons => cases same
  | cons x a ih => cases b with
    | nil => cases same
    | cons y b =>
        simp only [List.flatMap_cons, List.cons_append, List.nil_append, List.cons.injEq] at same
        obtain ⟨high, low, rest⟩ := same
        have bx := x.toNat_lt
        have byte := y.toNat_lt
        have high := hexDigit_inj (by omega) (by omega) high
        have low := hexDigit_inj (by omega) (by omega) low
        have same : x.toNat = y.toNat := by omega
        rw [UInt8.toNat_inj.mp same, ih rest]

theorem hex_inj {a b : List UInt8} (same : hex a = hex b) : a = b :=
  hexChars_inj (String.ofList_injective same)

variable {C : Crypto}

theorem sha256Hex_inj {a b : List UInt8} (same : sha256Hex C a = sha256Hex C b) : C.sha256 a = C.sha256 b :=
  Vector.toList_inj.mp (hex_inj same)

/-! ## Sessions -/

theorem sessionBytes_inj {n n' c c' : String} (hn : n.utf8ByteSize < 2 ^ 32) (hn' : n'.utf8ByteSize < 2 ^ 32)
    (same : signedBytes domainSession [utf8 n, utf8 c] = signedBytes domainSession [utf8 n', utf8 c']) :
    n = n' ∧ c = c' := by
  have parts := (List.cons.inj (List.append_cancel_left same)).2
  simp only [List.flatMap_cons, List.flatMap_nil, List.append_nil] at parts
  obtain ⟨nonceN, rest⟩ := part_inj (by rwa [length_utf8]) (by rwa [length_utf8]) parts
  exact ⟨utf8_injective nonceN, utf8_injective (last_part_inj rest)⟩

theorem utf8_length_le (cs : List Char) : (utf8 (String.ofList cs)).length ≤ 4 * cs.length := by
  rw [utf8_ofList]
  induction cs with
  | nil => simp
  | cons c cs ih =>
      have one : (String.utf8EncodeChar c).length ≤ 4 := by
        rw [String.length_utf8EncodeChar]
        exact c.utf8Size_le_four
      simp only [List.flatMap_cons, List.length_append, List.length_cons]
      omega

theorem sessionId_length (nonceN nonceC : String) : (utf8 (sessionId C nonceN nonceC)).length < 2 ^ 32 := by
  have chars := utf8_length_le
    (((C.sha256 (signedBytes domainSession [utf8 nonceN, utf8 nonceC])).toList).flatMap fun b =>
      [hexDigit (b.toNat / 16), hexDigit (b.toNat % 16)])
  simp only [List.length_flatMap, List.length_cons, List.length_nil, List.map_const', List.sum_replicate,
    Vector.length_toList] at chars
  exact Nat.lt_of_le_of_lt chars (by decide)

theorem seq_length {seq : Nat} (small : seq < 2 ^ 64) : (utf8 (toString seq)).length < 2 ^ 32 := by
  have digits : seq.repr.length ≤ 20 := (Nat.length_repr_le_iff (by decide)).mpr (by omega)
  have bytes := utf8_length_le seq.repr.toList
  rw [String.ofList_toList, String.length_toList] at bytes
  exact Nat.lt_of_le_of_lt (bytes.trans (Nat.mul_le_mul_left 4 digits)) (by decide)

/-! ## Frames -/

/-- Signed bytes that start as a frame of direction `dir` does. -/
def InDomain (dir : Direction) (message : List UInt8) : Prop := (utf8 dir.domain ++ [0]) <+: message

theorem signedBytes_inDomain (dir : Direction) (parts : List (List UInt8)) :
    InDomain dir (signedBytes dir.domain parts) := by
  refine ⟨parts.flatMap fun p => lengthBytes p.length ++ p, ?_⟩
  rw [List.append_assoc]
  rfl

theorem inDomain_eq {dir dir' : Direction} {parts : List (List UInt8)}
    (here : InDomain dir (signedBytes dir'.domain parts)) : dir = dir' := by
  have there := signedBytes_inDomain dir' parts
  have same := List.prefix_of_prefix_length_le here there (by cases dir <;> cases dir' <;> decide)
  cases dir <;> cases dir' <;> first | rfl | exact absurd same (by decide)

theorem frameParts_inj {dir : Direction} {session session' : String} {seq seq' : Nat} {f f' : Value}
    (hs : (utf8 session).length < 2 ^ 32) (hs' : (utf8 session').length < 2 ^ 32) (hq : seq < 2 ^ 64)
    (hq' : seq' < 2 ^ 64)
    (same : signedBytes dir.domain (frameParts session seq f) = signedBytes dir.domain (frameParts session' seq' f')) :
    session = session' ∧ seq = seq' ∧ toVec f = toVec f' := by
  have parts := (List.cons.inj (List.append_cancel_left same)).2
  simp only [frameParts, List.flatMap_cons, List.flatMap_nil, List.append_nil] at parts
  obtain ⟨session, rest⟩ := part_inj hs hs' parts
  obtain ⟨seq, rest⟩ := part_inj (seq_length hq) (seq_length hq') rest
  exact ⟨utf8_injective session, Nat.repr_injective (utf8_injective seq), last_part_inj rest⟩

variable {Payload : Kind → Type} {S : Serde Payload}

theorem openFrame_ok {peer : List UInt8} {dir : Direction} {session : String} {expectedSeq : Nat} {text : String}
    {frame : Frame Payload} (opened : openFrame C S peer dir session expectedSeq text = .ok frame) :
    ∃ env, S.fromStr text = .ok env ∧ env.s = expectedSeq ∧ S.fromValue env.f = .ok frame ∧
      verifyDomain C peer dir.domain (frameParts session env.s env.f) env.g = true := by
  unfold openFrame at opened
  split at opened
  · cases opened
  split at opened
  · cases opened
  next env parsed =>
    split at opened
    · cases opened
    next verified =>
      split at opened
      · cases opened
      next seq =>
        split at opened
        · cases opened
        next frame' read =>
          split at opened
          · cases opened
          · cases opened
            exact ⟨env, parsed, not_not.mp seq, read, by simpa using verified⟩

/-- The frame that is read is the one that was sealed with the same canonical bytes. -/
theorem Serde.Lawful.same_frame (lawful : S.Lawful) {frame frame' : Frame Payload} {v w : Value}
    (written : S.toValue frame = .ok v) (read : S.fromValue w = .ok frame') (printed : w.Printed)
    (same : toVec w = toVec v) : frame' = frame := by
  have canonical := toVec_inj printed (lawful.written frame v written) same
  exact lawful.roundTrip frame v frame' written (lawful.ordered w v frame' canonical read)

end K2.NodeProto
