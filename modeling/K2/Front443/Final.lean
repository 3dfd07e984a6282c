import K2.Front443.NoPanic

/-! # The peek's verdict is final

More bytes change no verdict but the call for more, and a ClientHello reads the
same however it is cut into records. -/

namespace K2.Front443

/-- The same up to the message of a refusal. -/
def SameVerdict (v v' : Peek) : Prop := v = v' ∨ ∃ why why', v = .Bad why ∧ v' = .Bad why'

theorem SameVerdict.refl (v : Peek) : SameVerdict v v := .inl rfl

theorem SameVerdict.bad (why why' : String) : SameVerdict (.Bad why) (.Bad why') := .inr ⟨why, why', rfl, rfl⟩

/-! ## More bytes -/

theorem slice_append {bytes : List UInt8} {i j : Nat} (inside : j ≤ bytes.length) (more : List UInt8) :
    slice (bytes ++ more) i j = slice bytes i j := by
  have longer : bytes.length ≤ (bytes ++ more).length := List.length_append .. ▸ Nat.le_add_right ..
  by_cases order : i ≤ j
  · rw [slice_of_le order inside, slice_of_le order (inside.trans longer), List.drop_append_of_le_length (order.trans inside),
      List.take_append_of_le_length (by rw [List.length_drop]; omega)]
  · rw [slice, slice, if_neg (fun h => order h.1), if_neg (fun h => order h.1)]

theorem readRecord_append {buf : List UInt8} {pos : Nat} {record : Record} (read : readRecord buf pos = some record)
    (decided : record ≠ .stop .NeedMore) (more : List UInt8) :
    readRecord (buf ++ more) pos = some record ∨
      ∃ why why', record = .stop (.Bad why) ∧ readRecord (buf ++ more) pos = some (.stop (.Bad why')) := by
  have longer : buf.length ≤ (buf ++ more).length := List.length_append .. ▸ Nat.le_add_right ..
  rcases readRecord_cases buf pos with ⟨_, short⟩ | ⟨inside, h0, h1, h2, h3, h4, header, rest⟩
  · -- The header would end past the cap, and so does whatever follows it.
    rw [short] at read
    cases read
    have beyond : MAX_HELLO_BYTES < pos + 5 := by
      by_contra under
      exact decided (by rw [moreOrCap, if_neg under])
    have capped : moreOrCap (pos + 5) = .Bad "ClientHello larger than the front reads" := if_pos beyond
    rw [capped]
    rcases readRecord_cases (buf ++ more) pos with ⟨_, still⟩ | ⟨_, h0, h1, h2, h3, h4, _, ⟨why, _, bad⟩ | ⟨clean, _⟩⟩
    · exact .inl (by rw [still, capped])
    · exact .inr ⟨_, why, rfl, bad⟩
    · have under := (headerError_eq_none.mp clean).2.2.2.2
      omega
  · have again := readRecord_header (inside.trans longer) ((slice_append inside more).trans header)
    refine .inl (again.trans ?_)
    rcases rest with ⟨why, bad, refused⟩ | ⟨clean, payload⟩
    · rw [bad, ← read, refused]
      rfl
    · rw [clean, Option.elim_none]
      rw [payload] at read
      rcases readPayload_cases buf (show pos + 5 ≤ pos + 5 + fromBeBytes h3 h4 by omega) with
        ⟨_, missing⟩ | ⟨there, taken⟩
      · rw [missing] at read
        cases read
        exact absurd rfl decided
      · rw [readPayload, if_neg (Nat.not_lt.mpr (there.trans longer)), slice_append there, ← read, readPayload,
          if_neg (Nat.not_lt.mpr there)]

theorem peekLoop_append {buf : List UInt8} (more : List UInt8) : ∀ {fuel fuel' pos records : Nat} {hs : List UInt8}
    {verdict : Peek}, peekLoop fuel buf pos records hs = some verdict → verdict ≠ .NeedMore → fuel ≤ fuel' →
      ∃ verdict', peekLoop fuel' (buf ++ more) pos records hs = some verdict' ∧ SameVerdict verdict verdict' := by
  intro fuel
  induction fuel with
  | zero => exact fun looped => by cases looped
  | succ fuel ih =>
    intro fuel' pos records hs verdict looped decided enough
    cases fuel' with
    | zero => exact absurd enough (Nat.not_succ_le_zero _)
    | succ fuel' =>
      obtain ⟨record, read⟩ := Option.ne_none_iff_exists'.mp (readRecord_ne_none buf pos)
      cases record with
      | stop stopped =>
        rw [peekLoop_stop read] at looped
        cases looped
        rcases readRecord_append read (fun same => decided (Record.stop.inj same)) more with again | ⟨why, why', bad, bad'⟩
        · exact ⟨_, peekLoop_stop again .., .refl _⟩
        · cases bad
          exact ⟨_, peekLoop_stop bad' .., .bad ..⟩
      | part bytes next =>
        rcases readRecord_append read (fun same => by cases same) more with again | ⟨_, _, bad, _⟩
        · obtain ⟨message, heard⟩ := Option.ne_none_iff_exists'.mp (readHello_ne_none (hs ++ bytes))
          rw [peekLoop_part read heard] at looped
          rw [peekLoop_part again heard]
          cases ended : message.verdict next (records + 1) with
          | none =>
            rw [ended, Option.elim_none] at looped
            exact ih looped decided (Nat.succ_le_succ_iff.mp enough)
          | some final =>
            rw [ended, Option.elim_some] at looped
            exact ⟨verdict, looped, .refl _⟩
        · cases bad

theorem peek_final {p q : List UInt8} (later : p <+: q) {verdict : Peek} (decided : peek p = some verdict)
    (final : verdict ≠ .NeedMore) : ∃ verdict', peek q = some verdict' ∧ SameVerdict verdict verdict' := by
  obtain ⟨more, rfl⟩ := later
  cases p with
  | nil =>
    cases decided
    exact absurd rfl final
  | cons first rest =>
    rw [peek_cons] at decided
    rw [List.cons_append, peek_cons]
    by_cases tls : first ≠ CONTENT_HANDSHAKE
    · rw [if_pos tls] at decided ⊢
      exact ⟨verdict, decided, .refl _⟩
    · rw [if_neg tls] at decided ⊢
      refine peekLoop_append more decided final ?_
      rw [List.length_cons, List.length_cons, List.length_append]
      omega

/-! ## Any cut into records -/

/-- A non-empty handshake record. -/
structure Fragment where
  version : UInt8
  payload : List UInt8
  known : version ≤ 0x04
  filled : payload ≠ []
  short : payload.length ≤ MAX_RECORD

def Fragment.header (f : Fragment) : List UInt8 :=
  [CONTENT_HANDSHAKE, 0x03, f.version, UInt8.ofNat (f.payload.length / 256), UInt8.ofNat (f.payload.length % 256)]

def Fragment.wire (f : Fragment) : List UInt8 := f.header ++ f.payload

def wire (parts : List Fragment) : List UInt8 := parts.flatMap Fragment.wire

def payload (parts : List Fragment) : List UInt8 := parts.flatMap Fragment.payload

theorem Fragment.length_wire (f : Fragment) : f.wire.length = 5 + f.payload.length := by
  rw [Fragment.wire, List.length_append]
  rfl

theorem Fragment.from_be_bytes_header (f : Fragment) :
    fromBeBytes (UInt8.ofNat (f.payload.length / 256)) (UInt8.ofNat (f.payload.length % 256)) = f.payload.length := by
  have bound : f.payload.length ≤ 16384 := f.short
  rw [fromBeBytes, UInt8.toNat_ofNat', UInt8.toNat_ofNat', Nat.mod_eq_of_lt (by omega), Nat.mod_mod]
  omega

theorem Fragment.headerError_eq (f : Fragment) (pos : Nat) :
    headerError pos CONTENT_HANDSHAKE 0x03 f.version (UInt8.ofNat (f.payload.length / 256))
        (UInt8.ofNat (f.payload.length % 256)) =
      if MAX_HELLO_BYTES < pos + 5 + f.payload.length then some "ClientHello larger than the front reads" else none := by
  have known : ¬(0x03 : UInt8) ≠ 0x03 ∧ ¬0x04 < f.version := ⟨fun h => h rfl, UInt8.not_lt.mpr f.known⟩
  have some_byte : f.payload.length ≠ 0 := List.length_pos_iff.mpr f.filled |>.ne'
  have short : ¬MAX_RECORD < f.payload.length := Nat.not_lt.mpr f.short
  rw [headerError, if_neg (fun h => h rfl), if_neg (not_or.mpr known), f.from_be_bytes_header, if_neg some_byte,
    if_neg short]

/-- A record is read where it stands, unless it ends past the cap. -/
theorem readRecord_wire (f : Fragment) (front tail : List UInt8) :
    readRecord (front ++ (f.wire ++ tail)) front.length =
      if MAX_HELLO_BYTES < front.length + f.wire.length then
        some (.stop (.Bad "ClientHello larger than the front reads"))
      else some (.part f.payload (front.length + f.wire.length)) := by
  have total : (front ++ (f.wire ++ tail)).length = front.length + (5 + f.payload.length + tail.length) := by
    rw [List.length_append, List.length_append, f.length_wire]
  have header : slice (front ++ (f.wire ++ tail)) front.length (front.length + 5) =
      some [CONTENT_HANDSHAKE, 0x03, f.version, UInt8.ofNat (f.payload.length / 256),
        UInt8.ofNat (f.payload.length % 256)] := by
    rw [slice_of_le (Nat.le_add_right ..) (by omega), List.drop_left, Nat.add_sub_cancel_left, Fragment.wire,
      List.append_assoc]
    rfl
  have end_eq : front.length + 5 + f.payload.length = front.length + f.wire.length := by
    rw [f.length_wire, Nat.add_assoc]
  rw [readRecord_header (by omega) header, f.headerError_eq, f.from_be_bytes_header, end_eq]
  by_cases beyond : MAX_HELLO_BYTES < front.length + f.wire.length
  · rw [if_pos beyond, if_pos beyond, Option.elim_some]
  · have body : slice (front ++ (f.wire ++ tail)) (front.length + 5) (front.length + f.wire.length) = some f.payload := by
      rw [slice_of_le (by omega) (by rw [total, ← end_eq]; omega), ← end_eq, Nat.add_sub_cancel_left, ← List.drop_drop,
        List.drop_left, Fragment.wire, List.append_assoc]
      exact congrArg some (List.take_left ..)
    rw [if_neg beyond, if_neg beyond, Option.elim_none, readPayload, if_neg (by rw [total, ← end_eq]; omega), body,
      Option.map_some]

/-- The length that the header of handshake bytes announces. -/
def announced : List UInt8 → Nat
  | _ :: l1 :: l2 :: l3 :: _ => messageLength l1 l2 l3
  | _ => 4

/-- The front of an accepted message calls for more until the whole is there, and
    then says the same. -/
theorem readHello_front {message : List UInt8} {parsed : Parsed} (accepted : readHello message = some (.hello parsed)) :
    announced message ≤ message.length ∧ ∀ hs, hs <+: message →
      readHello hs = if hs.length < announced message then some .more else some (.hello parsed) := by
  have long : 4 ≤ message.length := by
    by_contra short
    rw [readHello_short (Nat.lt_of_not_le short)] at accepted
    cases accepted
  obtain ⟨kind, l1, l2, l3, tail, rfl⟩ := cons_of_length long
  rw [readHello_cons] at accepted
  by_cases other : kind ≠ HANDSHAKE_CLIENT_HELLO
  · rw [if_pos other] at accepted
    cases accepted
  by_cases beyond : MAX_HELLO_BYTES < messageLength l1 l2 l3
  · rw [if_neg other, if_pos beyond] at accepted
    cases accepted
  by_cases short : tail.length + 4 < messageLength l1 l2 l3
  · rw [if_neg other, if_neg beyond, if_pos short] at accepted
    cases accepted
  rw [if_neg other, if_neg beyond, if_neg short] at accepted
  refine ⟨Nat.le_of_not_lt short, fun hs front => ?_⟩
  have header : 4 ≤ messageLength l1 l2 l3 := Nat.le_add_right ..
  by_cases few : hs.length < 4
  · have fewer : hs.length < announced (kind :: l1 :: l2 :: l3 :: tail) := lt_of_lt_of_le few header
    rw [readHello_short few, if_pos fewer]
  · obtain ⟨kind', l1', l2', l3', tail', rfl⟩ := cons_of_length (Nat.le_of_not_lt few)
    simp only [List.cons_prefix_cons] at front
    obtain ⟨rfl, rfl, rfl, rfl, more, rfl⟩ := front
    rw [readHello_cons, if_neg other, if_neg beyond]
    by_cases missing : tail'.length + 4 < messageLength l1' l2' l3'
    · have fewer : (kind' :: l1' :: l2' :: l3' :: tail').length < announced (kind' :: l1' :: l2' :: l3' :: (tail' ++ more)) :=
        missing
      rw [if_pos missing, if_pos fewer]
    · have enough : ¬(kind' :: l1' :: l2' :: l3' :: tail').length <
          announced (kind' :: l1' :: l2' :: l3' :: (tail' ++ more)) := missing
      rw [List.take_append_of_le_length (by omega)] at accepted
      rw [if_neg missing, if_neg enough, accepted]

/-- The records up to the one that completes the message. -/
structure Uses (message : List UInt8) (hs : List UInt8) (used : List Fragment) : Prop where
  complete : announced message ≤ (hs ++ payload used).length
  needed : ∀ fewer, fewer <+: used → fewer ≠ used → (hs ++ payload fewer).length < announced message

theorem announced_pos (hs : List UInt8) : 0 < announced hs := by
  unfold announced
  split
  · exact Nat.lt_of_lt_of_le (by decide) (Nat.le_add_right 4 _)
  · decide

theorem peekLoop_wire {message : List UInt8} {parsed : Parsed} (accepted : readHello message = some (.hello parsed)) :
    ∀ (parts : List Fragment) (front hs : List UInt8) (records fuel : Nat), hs ++ payload parts = message →
      hs.length < announced message → front.length + (wire parts).length ≤ MAX_HELLO_BYTES →
      (wire parts).length < fuel → ∃ used rest, parts = used ++ rest ∧ Uses message hs used ∧
        peekLoop fuel (front ++ wire parts) front.length records hs =
          some (.Done ⟨parsed.sni, parsed.alpn, front.length + (wire used).length, records + used.length⟩) := by
  obtain ⟨whole, fronts⟩ := readHello_front accepted
  intro parts
  induction parts with
  | nil =>
    intro front hs records fuel cut missing
    have all : hs = message := by rw [← cut]; exact (List.append_nil _).symm
    rw [all] at missing
    omega
  | cons f parts ih =>
    intro front hs records fuel cut missing capped enough
    have wire_cons : wire (f :: parts) = f.wire ++ wire parts := rfl
    have payload_cons : payload (f :: parts) = f.payload ++ payload parts := rfl
    rw [wire_cons, List.length_append] at capped enough
    rw [payload_cons, ← List.append_assoc] at cut
    have read := readRecord_wire f front (wire parts)
    rw [if_neg (by omega)] at read
    have heard := fronts (hs ++ f.payload) ⟨_, cut⟩
    obtain ⟨fuel, rfl⟩ : ∃ n, fuel = n + 1 := ⟨fuel - 1, by omega⟩
    rw [wire_cons]
    by_cases more : (hs ++ f.payload).length < announced message
    · rw [if_pos more] at heard
      have wire_pos := f.length_wire
      obtain ⟨used, rest, split, uses, looped⟩ := ih (front ++ f.wire) (hs ++ f.payload) (records + 1) fuel cut more
        (by rw [List.length_append]; omega) (by omega)
      refine ⟨f :: used, rest, by rw [split]; rfl, ⟨?_, ?_⟩, ?_⟩
      · have complete := uses.complete
        rw [List.append_assoc] at complete
        exact complete
      · intro fewer front_of fewer_ne
        cases fewer with
        | nil =>
          rw [payload, List.flatMap_nil, List.append_nil]
          exact missing
        | cons g fewer =>
          obtain ⟨rfl, before⟩ := List.cons_prefix_cons.mp front_of
          have needed := uses.needed fewer before fun same => fewer_ne (by rw [same])
          rw [List.append_assoc] at needed
          exact needed
      · rw [peekLoop_part read heard]
        rw [List.append_assoc, List.length_append] at looped
        refine looped.trans ?_
        rw [show wire (f :: used) = f.wire ++ wire used from rfl, List.length_append, List.length_cons]
        simp only [Nat.add_assoc, Nat.add_comm 1]
    · rw [if_neg more] at heard
      refine ⟨[f], parts, rfl, ⟨?_, ?_⟩, ?_⟩
      · rw [show payload [f] = f.payload from List.append_nil _]
        exact Nat.le_of_not_lt more
      · intro fewer front_of fewer_ne
        cases fewer with
        | nil =>
          rw [payload, List.flatMap_nil, List.append_nil]
          exact missing
        | cons g fewer =>
          obtain ⟨rfl, before⟩ := List.cons_prefix_cons.mp front_of
          exact absurd (by rw [List.prefix_nil.mp before]) fewer_ne
      · rw [peekLoop_part read heard, show wire [f] = f.wire from List.append_nil _]
        rfl

/-! ## The peek -/

theorem peek_wire (f : Fragment) (parts : List Fragment) :
    peek (wire (f :: parts)) = peekLoop ((wire (f :: parts)).length + 1) (wire (f :: parts)) 0 0 [] := by
  have first : wire (f :: parts) = CONTENT_HANDSHAKE :: (wire (f :: parts)).tail := rfl
  rw [first, peek_cons, if_neg (fun other => other rfl)]

theorem readHello_of_peek {f : Fragment} {hello : Hello} (accepted : peek f.wire = some (.Done hello)) :
    readHello f.payload = some (.hello ⟨hello.sni, hello.alpn⟩) := by
  have whole : wire [f] = f.wire := List.append_nil _
  rw [← whole, peek_wire, whole] at accepted
  have read := readRecord_wire f [] []
  rw [List.append_nil, List.nil_append, List.length_nil, Nat.zero_add] at read
  by_cases beyond : MAX_HELLO_BYTES < f.wire.length
  · rw [if_pos beyond] at read
    rw [peekLoop_stop read] at accepted
    cases accepted
  · rw [if_neg beyond] at read
    obtain ⟨message, heard⟩ := Option.ne_none_iff_exists'.mp (readHello_ne_none f.payload)
    rw [peekLoop_part read (show readHello ([] ++ f.payload) = some message from heard)] at accepted
    cases message with
    | more =>
      -- Behind the only record there is nothing to read.
      have short : f.wire.length < f.wire.length + 5 := by omega
      have stop : readRecord f.wire f.wire.length = some (.stop (moreOrCap (f.wire.length + 5))) := if_pos short
      have ended : ∀ fuel, peekLoop fuel f.wire f.wire.length 1 f.payload ≠ some (.Done hello) := by
        intro fuel
        cases fuel with
        | zero => exact fun same => by cases same
        | succ fuel =>
          rw [peekLoop_stop stop, moreOrCap]
          split <;> exact fun same => by cases same
      exact absurd accepted (ended _)
    | hello parsed =>
      cases accepted
      exact heard
    | bad why => cases accepted

/-- For every prefix of a stream, every cut of an accepted ClientHello and any
    bytes at all: a verdict is final, the cut does not change it, and no read leaves
    the buffer. -/
theorem peek_decides :
    (∀ p q : List UInt8, p <+: q → ∀ verdict, peek p = some verdict → verdict ≠ .NeedMore →
      ∃ verdict', peek q = some verdict' ∧ SameVerdict verdict verdict') ∧
    (∀ (one : Fragment) (hello : Hello), peek one.wire = some (.Done hello) →
      ∀ parts : List Fragment, payload parts = one.payload → (wire parts).length ≤ MAX_HELLO_BYTES →
        ∃ used rest, parts = used ++ rest ∧ Uses one.payload [] used ∧
          peek (wire parts) = some (.Done ⟨hello.sni, hello.alpn, (wire used).length, used.length⟩)) ∧
    ∀ buf : List UInt8, ∃ verdict, peek buf = some verdict := by
  refine ⟨fun p q later verdict decided final => peek_final later decided final, fun one hello accepted parts cut capped => ?_,
    fun buf => Option.ne_none_iff_exists'.mp (peek_ne_none buf)⟩
  have heard := readHello_of_peek accepted
  cases parts with
  | nil => exact absurd cut.symm one.filled
  | cons f parts =>
    obtain ⟨used, rest, split, uses, looped⟩ := peekLoop_wire heard (f :: parts) [] [] 0
      ((wire (f :: parts)).length + 1) cut (announced_pos _) (by simpa using capped) (Nat.lt_succ_self _)
    refine ⟨used, rest, split, uses, ?_⟩
    rw [peek_wire]
    simpa using looped

/-- The body of a ClientHello for `a.io` that offers `h2`, from its session id on. -/
def namedBody : List UInt8 :=
  [0, 0, 2, 0x13, 1, 1, 0, 0, 22, 0, 0, 0, 9, 0, 7, 0, 0, 4, 97, 46, 105, 111, 0, 16, 0, 5, 0, 3, 2, 104, 50]

def namedHello : Fragment :=
  ⟨1, [1, 0, 0, 65, 3, 3] ++ List.replicate 32 7 ++ namedBody, by decide, by decide, by decide⟩

/-- The same in three records, cut in the length of the hello and in the name. -/
def namedParts : List Fragment :=
  [⟨1, [1, 0], by decide, by decide, by decide⟩,
    ⟨3, [0, 65, 3, 3] ++ List.replicate 32 7 ++ namedBody.take 20, by decide, by decide, by decide⟩,
    ⟨3, namedBody.drop 20, by decide, by decide, by decide⟩]

theorem namedHello_cut :
    ∃ used rest, namedParts = used ++ rest ∧
      peek (wire namedParts) = some (.Done ⟨some "a.io", ["h2"], (wire used).length, used.length⟩) := by
  have accepted : peek namedHello.wire = some (.Done ⟨some "a.io", ["h2"], 74, 1⟩) := by decide +kernel
  obtain ⟨used, rest, split, -, read⟩ := peek_decides.2.1 _ _ accepted namedParts (by decide) (by decide)
  exact ⟨used, rest, split, read⟩

end K2.Front443
