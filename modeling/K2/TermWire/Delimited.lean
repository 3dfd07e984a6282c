import K2.TermWire.RoundTrip

/-! # Frames delimit themselves

The decoder never looks past what it takes, so a frame that is read back whole
is refused when anything is cut off its end. -/

namespace K2.TermWire

open ByteReader (Reads Stable)

variable {utf8Error : List UInt8 → String}

namespace Reader

theorem stable_fail {α : Type} (e : String) : Stable (fail e : Reader α) := Stable.error e

theorem stable_u8 : Stable u8 := (Stable.take _ 1).bind fun _ => Stable.pure _

theorem stable_u16 : Stable u16 := (Stable.take _ 2).bind fun _ => Stable.pure _

theorem stable_u32 : Stable u32 := (Stable.take _ 4).bind fun _ => Stable.pure _

theorem stable_u64 : Stable u64 := (Stable.take _ 8).bind fun _ => Stable.pure _

theorem stable_text (bytes : List UInt8) : Stable (text utf8Error bytes) := by
  rw [text]
  split
  · exact Stable.pure _
  · exact stable_fail _

theorem stable_str : Stable (str utf8Error) :=
  stable_u16.bind fun len => (Stable.take _ len.toNat).bind stable_text

theorem stable_color : Stable color := stable_u32.bind fun _ => Stable.pure _

theorem stable_colsOf (bits : UInt8) : Stable (colsOf bits) :=
  Stable.ite (stable_u16.bind fun _ => Stable.pure _) (Stable.pure _)

theorem stable_run : Stable (run utf8Error) :=
  stable_str.bind fun _ => stable_color.bind fun _ => stable_color.bind fun _ =>
    stable_u8.bind fun bits => (stable_colsOf bits).bind fun _ => Stable.pure _

theorem stable_row : Stable (row utf8Error) := stable_u16.bind fun n => stable_run.many n.toNat

theorem stable_rows : Stable (rows utf8Error) := stable_u32.bind fun n => stable_row.many n.toNat

theorem stable_cursor : Stable cursor :=
  stable_u16.bind fun _ => stable_u16.bind fun _ => stable_u8.bind fun _ => Stable.pure _

theorem stable_damaged : Stable (damaged utf8Error) :=
  stable_u16.bind fun _ => stable_row.bind fun _ => Stable.pure _

theorem stable_snapshot : Stable (snapshot utf8Error) :=
  stable_str.bind fun _ => stable_u16.bind fun _ => stable_u16.bind fun _ => stable_u64.bind fun _ =>
    stable_u32.bind fun _ => stable_cursor.bind fun _ => stable_u8.bind fun _ =>
    stable_rows.bind fun _ => stable_rows.bind fun _ => Stable.pure _

theorem stable_delta : Stable (delta utf8Error) :=
  stable_str.bind fun _ => stable_u16.bind fun _ => stable_u16.bind fun _ => stable_u64.bind fun _ =>
    stable_u32.bind fun _ => stable_cursor.bind fun _ => stable_u32.bind fun n =>
    (stable_damaged.many n.toNat).bind fun _ => stable_rows.bind fun _ => Stable.pure _

theorem stable_frame : Stable (frame utf8Error) :=
  stable_u8.bind fun _ => Stable.ite (stable_fail _) <|
    stable_u8.bind fun _ => Stable.ite (stable_fail _) <|
    stable_u8.bind fun _ => Stable.ite stable_snapshot (Stable.ite stable_delta (stable_fail _))

end Reader

/-- Of a frame that is read back whole, every strict beginning is refused. -/
theorem decodeFrame_cut (utf8Error : List UInt8 → String) {f : WireFrame} (fits : f.Fits) (counted : f.Counted) {cut : List UInt8}
    (short : cut <+: encode f) (strict : cut ≠ encode f) : ∃ e, decodeFrame utf8Error cut = .error e := by
  obtain ⟨e, refused⟩ := Reader.stable_frame.cut (reads_encode utf8Error fits counted) short strict 0
  exact ⟨e, by rw [decodeFrame, refused]; rfl⟩

/-- Frames delimit themselves: no strict beginning of an encoding decodes, no
    encoding begins another, and frames written one behind the other are read back
    one by one. -/
theorem encode_delimited (utf8Error : List UInt8 → String) (f g : WireFrame) (fits : f.Fits) (counted : f.Counted)
    (fits' : g.Fits) (counted' : g.Counted) :
    (∀ cut, cut <+: encode f → cut ≠ encode f → ∃ e, decodeFrame utf8Error cut = .error e) ∧
      (encode f <+: encode g → encode f = encode g) ∧
      ∀ fs : List WireFrame, (∀ h ∈ fs, h.Fits ∧ h.Counted) →
        ∃ backs, ByteReader.many (Reader.frame utf8Error) fs.length { rest := fs.flatMap encode, pos := 0 } =
            .ok (backs, { rest := [], pos := (fs.flatMap encode).length }) ∧
          List.Forall₂ WireFrame.Restored fs backs := by
  refine ⟨fun cut short strict => decodeFrame_cut utf8Error fits counted short strict, fun begins => ?_, fun fs all => ?_⟩
  · by_contra differs
    obtain ⟨e, refused⟩ := decodeFrame_cut utf8Error fits' counted' begins differs
    have read := reads_encode utf8Error fits counted [] 0
    rw [List.append_nil] at read
    rw [decodeFrame, read] at refused
    cases refused
  · have read := ByteReader.Reads.many (fun h mem => reads_encode utf8Error (all h mem).1 (all h mem).2) [] 0
    rw [List.append_nil, Nat.zero_add] at read
    exact ⟨fs.map WireFrame.split, read, List.forall₂_map_right_iff.mpr (List.forall₂_same.mpr fun h _ => split_restored h)⟩

theorem encode_delimited_two :
    (encode boldFrame <+: encode (tallFrame 1) → encode boldFrame = encode (tallFrame 1)) ∧
      ∃ backs, ByteReader.many (Reader.frame fun _ => "") 2 { rest := encode boldFrame ++ encode (tallFrame 1), pos := 0 } =
          .ok (backs, { rest := [], pos := (encode boldFrame ++ encode (tallFrame 1)).length }) ∧
        List.Forall₂ WireFrame.Restored [boldFrame, tallFrame 1] backs := by
  obtain ⟨-, apart, read⟩ := encode_delimited (fun _ => "") boldFrame (tallFrame 1) boldFrame_fits ⟨by decide, by decide⟩
    (tallFrame_fits 1) ⟨by decide, by decide⟩
  refine ⟨apart, ?_⟩
  have both := read [boldFrame, tallFrame 1] (by
    simp only [List.mem_cons, List.not_mem_nil, or_false, forall_eq_or_imp, forall_eq]
    exact ⟨⟨boldFrame_fits, by decide, by decide⟩, tallFrame_fits 1, by decide, by decide⟩)
  simpa using both

/-- What is written before the rows of `tallFrame n` does not depend on `n`. -/
theorem encode_tall_eq :
    ∃ front, ∀ n, encode (tallFrame n) = front ++ (putRows (List.replicate n []) ++ putRows []) := by
  refine ⟨putHeader KIND_SNAPSHOT ++ (putStr "" ++ (putU16 (u16Sat 0) ++ (putU16 (u16Sat 0) ++ (putU64 0 ++
    (putU32 (u32Sat 0) ++ (putCursor { row := 0, col := 0, visible := false } ++ [0])))))), fun n => ?_⟩
  simp only [List.append_assoc]
  rfl

theorem putRows_replicate (n : Nat) :
    putRows (List.replicate n []) = putU32 (u32Sat n) ++ List.replicate (2 * n) 0 := by
  have zeros : (List.replicate n ([] : List CellRun)).flatMap putRow = List.replicate (2 * n) 0 := by
    have row : putRow [] = List.replicate 2 0 := by decide
    induction n with
    | zero => rfl
    | succ n ih =>
      rw [List.replicate_succ, List.flatMap_cons, ih, row, List.replicate_append_replicate]
      congr 1
      omega
  rw [putRows, List.length_replicate, zeros]

/-- Past the largest count, one more row only adds its own two bytes at the
    end: the rows beyond the counted ones look like the empty scrollback. -/
theorem encode_tall_succ {n : Nat} (tall : 4294967295 ≤ n) :
    encode (tallFrame (n + 1)) = encode (tallFrame n) ++ List.replicate 2 0 := by
  obtain ⟨front, written⟩ := encode_tall_eq
  have count : u32Sat (n + 1) = u32Sat n := by
    rw [u32Sat, u32Sat, Nat.min_eq_right tall, Nat.min_eq_right (Nat.le_succ_of_le tall)]
  have empty : putRows [] = List.replicate 4 0 := by decide
  rw [written, written, putRows_replicate, putRows_replicate, count, empty]
  simp only [List.append_assoc, List.replicate_append_replicate]
  congr 3

/-- A grid of 2^32 rows: its encoding less its last two bytes is the encoding
    of one row fewer, and decodes. -/
theorem encode_tall_cut :
    (tallFrame 4294967296).Fits ∧ ∃ cut, cut <+: encode (tallFrame 4294967296) ∧
      cut ≠ encode (tallFrame 4294967296) ∧ ∃ back, decodeFrame (fun _ => "") cut = .ok back := by
  have longer := encode_tall_succ (n := 4294967295) (Nat.le_refl _)
  have counted : (tallFrame 4294967295).Counted :=
    ⟨Nat.le_of_eq List.length_replicate, Nat.zero_le _⟩
  have read := reads_encode (fun _ => "") (tallFrame_fits 4294967295) counted [] 0
  rw [List.append_nil] at read
  refine ⟨tallFrame_fits _, encode (tallFrame 4294967295), ⟨List.replicate 2 0, longer.symm⟩, fun same => ?_,
    _, by rw [decodeFrame, read]; rfl⟩
  have lengths := congrArg List.length (same.trans longer)
  rw [List.length_append, List.length_replicate] at lengths
  omega

end K2.TermWire
