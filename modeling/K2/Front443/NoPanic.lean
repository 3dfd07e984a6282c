import K2.Front443.ClientHello

/-! # The peek never reads outside its buffer

Every reader of the body stays within it and every loop takes at least a byte a
round, so that none panics or runs on; the records are followed by a pointer that
never passes the end of the buffer. -/

namespace K2.Front443

namespace Reading

variable {α β : Type}

theorem bind_apply (r : Reading α) (f : α → Reading β) (c : Cur) :
    (r >>= f) c = match r c with
      | .ok (a, c') => f a c'
      | .error e => .error e := by
  show (r c >>= fun p => f p.1 p.2) = _
  cases r c with
  | error e => rfl
  | ok p => rfl

/-- On a body of `L` bytes a reader ends without a panic, at least `n` bytes on. -/
def Sound (L n : Nat) (r : Reading α) : Prop :=
  ∀ c : Cur, c.b.length = L → c.pos ≤ L →
    (∃ why, r c = .error (.bad why)) ∨ ∃ a c', r c = .ok (a, c') ∧ c'.b.length = L ∧ c.pos + n ≤ c'.pos ∧ c'.pos ≤ L

variable {L n m : Nat}

theorem Sound.pure (a : α) : Sound L 0 (Pure.pure a : Reading α) :=
  fun c length inside => .inr ⟨a, c, rfl, length, le_rfl, inside⟩

theorem Sound.bad (why : String) : Sound L n (Reading.bad why : Reading α) :=
  fun _ _ _ => .inl ⟨why, rfl⟩

theorem Sound.bind {r : Reading α} {f : α → Reading β} (first : Sound L n r) (later : ∀ a, Sound L m (f a)) :
    Sound L (n + m) (r >>= f) := by
  intro c length inside
  rcases first c length inside with ⟨why, stopped⟩ | ⟨a, c', read, length', on, inside'⟩
  · exact .inl ⟨why, by rw [bind_apply, stopped]⟩
  · rcases later a c' length' inside' with ⟨why, stopped⟩ | ⟨b, c'', read', length'', on', inside''⟩
    · exact .inl ⟨why, by rw [bind_apply, read]; exact stopped⟩
    · exact .inr ⟨b, c'', by rw [bind_apply, read]; exact read', length'', by omega, inside''⟩

theorem Sound.weaken {r : Reading α} (h : Sound L n r) (fewer : m ≤ n) : Sound L m r := by
  intro c length inside
  rcases h c length inside with stopped | ⟨a, c', read, length', on, inside'⟩
  · exact .inl stopped
  · exact .inr ⟨a, c', read, length', by omega, inside'⟩

theorem Sound.ite {p : Prop} [Decidable p] {r r' : Reading α} (yes : Sound L n r) (no : Sound L n r') :
    Sound L n (if p then r else r') := by
  split
  · exact yes
  · exact no

theorem take_eq {c : Cur} (inside : c.pos ≤ c.b.length) (n : Nat) :
    take n c = .error (.bad "truncated ClientHello") ∨
      ∃ s, take n c = .ok (s, { c with pos := c.pos + n }) ∧ s.length = n ∧ c.pos + n ≤ c.b.length := by
  unfold take
  rw [if_neg (by omega)]
  by_cases short : c.b.length - c.pos < n
  · exact .inl (if_pos short)
  · have bound : c.pos + n ≤ c.b.length := by omega
    refine .inr ⟨(c.b.drop c.pos).take (c.pos + n - c.pos), ?_, ?_, bound⟩
    · rw [if_neg short, slice, if_pos ⟨by omega, bound⟩]
    · rw [List.length_take, List.length_drop]
      omega

theorem sound_take (n : Nat) : Sound L 0 (take n) := by
  intro c length inside
  rcases take_eq (length ▸ inside) n with short | ⟨s, read, _, bound⟩
  · exact .inl ⟨_, short⟩
  · exact .inr ⟨s, _, read, length, Nat.le_add_right .., length ▸ bound⟩

theorem sound_u8 : Sound L 1 u8 := by
  intro c length inside
  unfold u8
  rcases take_eq (length ▸ inside) 1 with short | ⟨s, read, one, bound⟩
  · exact .inl ⟨_, by rw [bind_apply, short]⟩
  · obtain ⟨b, rfl⟩ := List.length_eq_one_iff.mp one
    exact .inr ⟨b, { c with pos := c.pos + 1 }, by rw [bind_apply, read]; rfl, length, le_rfl, length ▸ bound⟩

theorem sound_u16 : Sound L 2 u16 := by
  intro c length inside
  unfold u16
  rcases take_eq (length ▸ inside) 2 with short | ⟨s, read, two, bound⟩
  · exact .inl ⟨_, by rw [bind_apply, short]⟩
  · obtain ⟨hi, lo, rfl⟩ := List.length_eq_two.mp two
    exact .inr ⟨fromBeBytes hi lo, { c with pos := c.pos + 2 }, by rw [bind_apply, read]; rfl, length, le_rfl,
      length ▸ bound⟩

theorem rest_eq {c : Cur} (inside : c.pos ≤ c.b.length) : rest c = .ok (c.b.length - c.pos, c) :=
  if_neg (by omega)

theorem sound_rest : Sound L 0 rest :=
  fun c length inside => .inr ⟨_, c, rest_eq (length ▸ inside), length, le_rfl, inside⟩

theorem sound_lift {result : Except Fault α} (safe : result ≠ .error .panic) : Sound L 0 (lift result) := by
  intro c length inside
  cases result with
  | ok a => exact .inr ⟨a, c, rfl, length, le_rfl, inside⟩
  | error e =>
    cases e with
    | panic => exact absurd rfl safe
    | bad why => exact .inl ⟨why, rfl⟩

/-- A loop whose body takes bytes ends within as many rounds as there are bytes. -/
theorem sound_whileRest {body : α → Reading α} (step : ∀ acc, Sound L 1 (body acc)) (acc : α) :
    Sound L 0 (whileRest body (L + 1) acc) := by
  have rounds : ∀ (fuel : Nat) (acc : α) (c : Cur), c.b.length = L → c.pos ≤ L → L - c.pos < fuel →
      (∃ why, whileRest body fuel acc c = .error (.bad why)) ∨
        ∃ a c', whileRest body fuel acc c = .ok (a, c') ∧ c'.b.length = L ∧ c.pos ≤ c'.pos ∧ c'.pos ≤ L := by
    intro fuel
    induction fuel with
    | zero => exact fun _ _ _ _ enough => absurd enough (Nat.not_lt_zero _)
    | succ fuel ih =>
      intro acc c length inside enough
      have read := rest_eq (length ▸ inside)
      have unfolded : whileRest body (fuel + 1) acc c =
          (if c.b.length - c.pos = 0 then pure acc else body acc >>= whileRest body fuel) c := by
        rw [whileRest, bind_apply, read]
      rw [unfolded]
      by_cases done : c.b.length - c.pos = 0
      · rw [if_pos done]
        exact .inr ⟨acc, c, rfl, length, le_rfl, inside⟩
      · rw [if_neg done, bind_apply]
        rcases step acc c length inside with ⟨why, stopped⟩ | ⟨acc', c', taken, length', on, inside'⟩
        · exact .inl ⟨why, by rw [stopped]⟩
        · rw [taken]
          rcases ih acc' c' length' inside' (by omega) with stopped | ⟨a, c'', ended, length'', on', inside''⟩
          · exact .inl stopped
          · exact .inr ⟨a, c'', ended, length'', by omega, inside''⟩
  intro c length inside
  rcases rounds (L + 1) acc c length inside (by omega) with stopped | ⟨a, c', ended, length', on, inside'⟩
  · exact .inl stopped
  · exact .inr ⟨a, c', ended, length', by omega, inside'⟩

theorem run_ne_panic {r : Reading α} {data : List UInt8} (sound : Sound data.length n r) :
    run r data ≠ .error .panic := by
  unfold run
  rcases sound { b := data, pos := 0 } rfl (Nat.zero_le _) with ⟨why, stopped⟩ | ⟨a, c', ended, _⟩
  · rw [stopped]
    exact fun same => by cases same
  · rw [ended]
    exact fun same => by cases same

end Reading

open Reading

/-! ## The body -/

variable {L : Nat}

theorem sound_serverNameEntry (host : Option String) : Sound L 1 (serverNameEntry host) := by
  refine (sound_u8.bind fun kind => sound_u16.bind fun len => (sound_take len).bind fun name =>
    Sound.ite (Sound.pure host) (Sound.ite (Sound.bad _) ?_)).weaken (by omega)
  cases hostName name with
  | none => exact Sound.bad _
  | some s => exact Sound.pure _

theorem parse_server_name_ne_panic (data : List UInt8) : parseServerName data ≠ .error .panic :=
  run_ne_panic (sound_u16.bind fun _ => sound_rest.bind fun _ =>
    Sound.ite (Sound.bad _) (sound_whileRest sound_serverNameEntry none))

theorem sound_alpnEntry (out : List String) : Sound L 1 (alpnEntry out) :=
  (sound_u8.bind fun len => Sound.ite (Sound.bad _) ((sound_take len.toNat).bind fun _ => Sound.pure _)).weaken (by omega)

theorem parse_alpn_ne_panic (data : List UInt8) : parseAlpn data ≠ .error .panic :=
  run_ne_panic (sound_u16.bind fun _ => sound_rest.bind fun _ =>
    Sound.ite (Sound.bad _) (sound_whileRest sound_alpnEntry []))

theorem sound_extension (e : Extensions) : Sound L 1 (extension e) := by
  refine (sound_u16.bind fun ty => sound_u16.bind fun len => (sound_take len).bind fun data =>
    Sound.ite (Sound.bad _) (Sound.ite ?_ (Sound.ite ?_ (Sound.pure _)))).weaken (by omega)
  · exact (sound_lift (parse_server_name_ne_panic data)).bind fun _ => Sound.pure _
  · exact (sound_lift (parse_alpn_ne_panic data)).bind fun _ => Sound.pure _

theorem sound_parseExtensions : Sound L 0 (parseExtensions (L + 1)) :=
  (sound_u16.bind fun _ => sound_rest.bind fun _ =>
    Sound.ite (Sound.bad _) ((sound_whileRest sound_extension _).bind fun _ => Sound.pure _)).weaken (Nat.zero_le _)

theorem sound_parseSuites : Sound L 0 (parseSuites (L + 1)) :=
  (sound_u16.bind fun suites => Sound.ite (Sound.bad _) ((sound_take suites).bind fun _ => sound_u8.bind fun comp =>
    Sound.ite (Sound.bad _) ((sound_take comp.toNat).bind fun _ => sound_rest.bind fun _ =>
      Sound.ite (Sound.pure _) sound_parseExtensions))).weaken (Nat.zero_le _)

theorem parse_body_ne_panic (body : List UInt8) : parseBody body ≠ .error .panic :=
  run_ne_panic (sound_u16.bind fun _ => Sound.ite (Sound.bad _) ((sound_take 32).bind fun _ => sound_u8.bind fun sid =>
    Sound.ite (Sound.bad _) ((sound_take sid.toNat).bind fun _ => sound_parseSuites)))

/-! ## The records -/

theorem slice_of_le {bytes : List UInt8} {i j : Nat} (order : i ≤ j) (inside : j ≤ bytes.length) :
    slice bytes i j = some ((bytes.drop i).take (j - i)) := if_pos ⟨order, inside⟩

theorem slice_five {bytes : List UInt8} {pos : Nat} (inside : pos + 5 ≤ bytes.length) :
    ∃ h0 h1 h2 h3 h4, slice bytes pos (pos + 5) = some [h0, h1, h2, h3, h4] := by
  have five : ((bytes.drop pos).take 5).length = 5 := by
    rw [List.length_take, List.length_drop]
    omega
  rw [slice_of_le (Nat.le_add_right ..) inside, Nat.add_sub_cancel_left]
  generalize (bytes.drop pos).take 5 = header at five
  obtain ⟨h0, rest, rfl⟩ := List.exists_cons_of_length_eq_add_one five
  obtain ⟨h1, rest, rfl⟩ := List.exists_cons_of_length_eq_add_one (Nat.succ.inj five)
  obtain ⟨h2, rest, rfl⟩ := List.exists_cons_of_length_eq_add_one (Nat.succ.inj (Nat.succ.inj five))
  obtain ⟨h3, h4, rfl⟩ := List.length_eq_two.mp (Nat.succ.inj (Nat.succ.inj (Nat.succ.inj five)))
  exact ⟨h0, h1, h2, h3, h4, rfl⟩

/-- A header without fault announces a record that stays under the cap. -/
theorem headerError_eq_none {pos : Nat} {h0 h1 h2 h3 h4 : UInt8} :
    headerError pos h0 h1 h2 h3 h4 = none ↔ h0 = CONTENT_HANDSHAKE ∧ (h1 = 0x03 ∧ h2 ≤ 0x04) ∧
      1 ≤ fromBeBytes h3 h4 ∧ fromBeBytes h3 h4 ≤ MAX_RECORD ∧ pos + 5 + fromBeBytes h3 h4 ≤ MAX_HELLO_BYTES := by
  unfold headerError
  grind

theorem readRecord_header {buf : List UInt8} {pos : Nat} {h0 h1 h2 h3 h4 : UInt8} (inside : pos + 5 ≤ buf.length)
    (header : slice buf pos (pos + 5) = some [h0, h1, h2, h3, h4]) :
    readRecord buf pos = (headerError pos h0 h1 h2 h3 h4).elim (readPayload buf pos (pos + 5 + fromBeBytes h3 h4))
      fun why => some (.stop (.Bad why)) := by
  unfold readRecord
  rw [if_neg (Nat.not_lt.mpr inside), header]
  cases error : headerError pos h0 h1 h2 h3 h4 with
  | some why => simp only [error, Option.elim_some]
  | none => simp only [error, Option.elim_none]

theorem readRecord_cases (buf : List UInt8) (pos : Nat) :
    (buf.length < pos + 5 ∧ readRecord buf pos = some (.stop (moreOrCap (pos + 5)))) ∨
      pos + 5 ≤ buf.length ∧ ∃ h0 h1 h2 h3 h4, slice buf pos (pos + 5) = some [h0, h1, h2, h3, h4] ∧
        ((∃ why, headerError pos h0 h1 h2 h3 h4 = some why ∧ readRecord buf pos = some (.stop (.Bad why))) ∨
          headerError pos h0 h1 h2 h3 h4 = none ∧
            readRecord buf pos = readPayload buf pos (pos + 5 + fromBeBytes h3 h4)) := by
  by_cases short : buf.length < pos + 5
  · exact .inl ⟨short, if_pos short⟩
  · have inside := Nat.le_of_not_lt short
    obtain ⟨h0, h1, h2, h3, h4, header⟩ := slice_five inside
    have read := readRecord_header inside header
    refine .inr ⟨inside, h0, h1, h2, h3, h4, header, ?_⟩
    cases error : headerError pos h0 h1 h2 h3 h4 with
    | some why => exact .inl ⟨why, rfl, by rw [read, error]; rfl⟩
    | none => exact .inr ⟨rfl, by rw [read, error]; rfl⟩

theorem readPayload_cases (buf : List UInt8) {pos next : Nat} (order : pos + 5 ≤ next) :
    (buf.length < next ∧ readPayload buf pos next = some (.stop .NeedMore)) ∨
      next ≤ buf.length ∧ readPayload buf pos next = some (.part ((buf.drop (pos + 5)).take (next - (pos + 5))) next) := by
  unfold readPayload
  by_cases short : buf.length < next
  · exact .inl ⟨short, if_pos short⟩
  · refine .inr ⟨Nat.le_of_not_lt short, ?_⟩
    rw [if_neg short, slice_of_le order (Nat.le_of_not_lt short), Option.map_some]

theorem cons_of_length {hs : List UInt8} (long : 4 ≤ hs.length) : ∃ kind l1 l2 l3 tail, hs = kind :: l1 :: l2 :: l3 :: tail := by
  obtain ⟨kind, rest, rfl⟩ := List.exists_cons_of_length_pos (l := hs) (by omega)
  simp only [List.length_cons] at long
  obtain ⟨l1, rest, rfl⟩ := List.exists_cons_of_length_pos (l := rest) (by omega)
  simp only [List.length_cons] at long
  obtain ⟨l2, rest, rfl⟩ := List.exists_cons_of_length_pos (l := rest) (by omega)
  simp only [List.length_cons] at long
  obtain ⟨l3, tail, rfl⟩ := List.exists_cons_of_length_pos (l := rest) (by omega)
  exact ⟨kind, l1, l2, l3, tail, rfl⟩

theorem readHello_short {hs : List UInt8} (short : hs.length < 4) : readHello hs = some .more := by
  cases hs with
  | nil => rfl
  | cons kind hs =>
    cases hs with
    | nil => rfl
    | cons l1 hs =>
      cases hs with
      | nil => rfl
      | cons l2 hs =>
        cases hs with
        | nil => rfl
        | cons l3 hs =>
          simp only [List.length_cons] at short
          omega

theorem readHello_cons (kind l1 l2 l3 : UInt8) (tail : List UInt8) :
    readHello (kind :: l1 :: l2 :: l3 :: tail) =
      if kind ≠ HANDSHAKE_CLIENT_HELLO then some (.bad "first handshake message is not a ClientHello")
      else if MAX_HELLO_BYTES < messageLength l1 l2 l3 then some (.bad "ClientHello larger than the front reads")
      else if tail.length + 4 < messageLength l1 l2 l3 then some .more
      else bodyMessage (parseBody (tail.take (messageLength l1 l2 l3 - 4))) := by
  have long : (kind :: l1 :: l2 :: l3 :: tail).length = tail.length + 4 := rfl
  simp only [readHello, long]
  by_cases short : tail.length + 4 < messageLength l1 l2 l3
  · rw [if_pos short, if_pos short]
  · have body : slice (kind :: l1 :: l2 :: l3 :: tail) 4 (messageLength l1 l2 l3) =
        some (tail.take (messageLength l1 l2 l3 - 4)) :=
      slice_of_le (Nat.le_add_right ..) (by rw [long]; omega)
    rw [if_neg short, if_neg short, body, Option.bind_some]

theorem readHello_ne_none (hs : List UInt8) : readHello hs ≠ none := by
  by_cases short : hs.length < 4
  · rw [readHello_short short]
    exact fun same => by cases same
  · obtain ⟨kind, l1, l2, l3, tail, rfl⟩ := cons_of_length (Nat.le_of_not_lt short)
    rw [readHello_cons]
    have safe := parse_body_ne_panic (tail.take (messageLength l1 l2 l3 - 4))
    generalize parseBody (tail.take (messageLength l1 l2 l3 - 4)) = result at safe ⊢
    have reported : bodyMessage result ≠ none := by
      cases result with
      | ok parsed => exact fun same => by cases same
      | error e =>
        cases e with
        | bad why => exact fun same => by cases same
        | panic => exact absurd rfl safe
    grind

/-! ## The loop -/

theorem peekLoop_stop {buf : List UInt8} {pos : Nat} {verdict : Peek} (read : readRecord buf pos = some (.stop verdict))
    (fuel records : Nat) (hs : List UInt8) : peekLoop (fuel + 1) buf pos records hs = some verdict := by
  rw [peekLoop, read, Option.bind_some]

theorem peekLoop_part {buf : List UInt8} {pos next : Nat} {bytes hs : List UInt8} {message : Message}
    (read : readRecord buf pos = some (.part bytes next)) (heard : readHello (hs ++ bytes) = some message)
    (fuel records : Nat) :
    peekLoop (fuel + 1) buf pos records hs =
      (message.verdict next (records + 1)).elim (peekLoop fuel buf next (records + 1) (hs ++ bytes)) some := by
  simp only [peekLoop, read, Option.bind_some, heard]

theorem part_bounds {buf : List UInt8} {pos next : Nat} {bytes : List UInt8}
    (read : readRecord buf pos = some (.part bytes next)) : pos + 5 < next ∧ next ≤ buf.length := by
  rcases readRecord_cases buf pos with ⟨_, stop⟩ | ⟨_, h0, h1, h2, h3, h4, _, ⟨why, _, stop⟩ | ⟨clean, payload⟩⟩
  · rw [stop] at read
    cases read
  · rw [stop] at read
    cases read
  · obtain ⟨_, _, some_byte, _⟩ := headerError_eq_none.mp clean
    rw [payload] at read
    rcases readPayload_cases buf (show pos + 5 ≤ pos + 5 + fromBeBytes h3 h4 by omega) with
      ⟨_, missing⟩ | ⟨inside, taken⟩
    · rw [missing] at read
      cases read
    · rw [taken] at read
      cases read
      exact ⟨by omega, inside⟩

theorem readRecord_ne_none (buf : List UInt8) (pos : Nat) : readRecord buf pos ≠ none := by
  rcases readRecord_cases buf pos with ⟨_, stop⟩ | ⟨_, h0, h1, h2, h3, h4, _, ⟨why, _, stop⟩ | ⟨_, payload⟩⟩
  · rw [stop]
    exact fun same => by cases same
  · rw [stop]
    exact fun same => by cases same
  · rw [payload]
    rcases readPayload_cases buf (show pos + 5 ≤ pos + 5 + fromBeBytes h3 h4 by omega) with
      ⟨_, missing⟩ | ⟨_, taken⟩
    · rw [missing]
      exact fun same => by cases same
    · rw [taken]
      exact fun same => by cases same

/-- The pointer moves on with every record, so that there are fewer rounds than
    bytes. -/
theorem peekLoop_ne_none (buf : List UInt8) : ∀ (fuel pos records : Nat) (hs : List UInt8), pos ≤ buf.length →
    buf.length - pos < fuel → peekLoop fuel buf pos records hs ≠ none := by
  intro fuel
  induction fuel with
  | zero => exact fun _ _ _ _ enough => absurd enough (Nat.not_lt_zero _)
  | succ fuel ih =>
    intro pos records hs inside enough
    obtain ⟨record, read⟩ := Option.ne_none_iff_exists'.mp (readRecord_ne_none buf pos)
    cases record with
    | stop verdict =>
      rw [peekLoop_stop read]
      exact fun same => by cases same
    | part bytes next =>
      obtain ⟨on, inside'⟩ := part_bounds read
      obtain ⟨message, heard⟩ := Option.ne_none_iff_exists'.mp (readHello_ne_none (hs ++ bytes))
      rw [peekLoop_part read heard]
      cases message.verdict next (records + 1) with
      | none => exact ih next _ _ inside' (by omega)
      | some verdict => exact fun same => by cases same

theorem peek_cons (first : UInt8) (rest : List UInt8) :
    peek (first :: rest) =
      if first ≠ CONTENT_HANDSHAKE then some .NotTls
      else peekLoop ((first :: rest).length + 1) (first :: rest) 0 0 [] := rfl

/-- On any bytes the peek ends, with a verdict and without a panic. -/
theorem peek_ne_none (buf : List UInt8) : peek buf ≠ none := by
  cases buf with
  | nil => exact fun same => by cases same
  | cons first rest =>
    rw [peek_cons]
    by_cases tls : first ≠ CONTENT_HANDSHAKE
    · rw [if_pos tls]
      exact fun same => by cases same
    · rw [if_neg tls]
      exact peekLoop_ne_none (first :: rest) _ 0 0 [] (Nat.zero_le _) (Nat.lt_succ_self _)

end K2.Front443
