import K2.JobLog.Journal
import K2.Lib.Machines

/-! # The controller's copy of a job's log

The controller appends a chunk when it is the very next one, drops a replay and
refuses a gap. Readers page through the copy by byte cursor while it grows.
-/

namespace K2.JobLog

def ctrlByte : LogStream → UInt8
  | .out => 0
  | .err => 1
  | .sys => 2

/-- `scan_tail`: the last sequence number and the size. A seek never fails, so a last
    record is counted by its header. -/
def scanTail (file : List UInt8) : Nat → Nat × Nat → Nat × Nat
  | 0, tail => tail
  | fuel + 1, (last, off) =>
      if file.length < off + HEADER then (last, off)
      else
        let h := Head.parse ((file.drop off).take HEADER)
        scanTail file fuel (h.seq, off + HEADER + h.len)

/-- One log on the controller's disk, and what it remembers of its end. -/
structure Copy where
  file : List UInt8
  tail : Option (Nat × Nat)
  deriving DecidableEq, Repr

namespace Copy

def empty : Copy := ⟨[], none⟩

def tailOf (c : Copy) : Nat × Nat := c.tail.getD (scanTail c.file (c.file.length + 1) (0, 0))

/-- Last stored seq. -/
def lastSeq (c : Copy) : Nat × Copy := (c.tailOf.1, { c with tail := some c.tailOf })

/-- Append one chunk: `false` for a replay or a gap. `disk` says whether the disk takes
    the record; a write that fails is one that leaves none of its bytes. -/
def append (c : Copy) (seq : Nat) (stream : LogStream) (data : List UInt8) (disk : Bool) : Except String Bool × Copy :=
  let (last, size) := c.tailOf
  let c := { c with tail := some (last, size) }
  if seq ≤ last ∨ seq ≠ last + 1 then (.ok false, c)
  else if disk then
    let framed := (⟨seq, ctrlByte stream, data⟩ : Rec).bytes
    (.ok true, { file := c.file ++ framed, tail := some (seq, size + framed.length) })
  else (.error "write log", c)

/-- `read_from`'s loop: about `maxBytes` of payload from the cursor on. -/
def readLoop (file : List UInt8) (maxBytes : Nat) : Nat → List Rec → Nat → Nat → List Rec × Nat
  | 0, out, off, _ => (out, off)
  | fuel + 1, out, off, total =>
      if total < maxBytes ∧ off + HEADER ≤ file.length then
        let h := Head.parse ((file.drop off).take HEADER)
        if file.length < off + HEADER + h.len then (out, off)
        else
          let data := (file.drop (off + HEADER)).take h.len
          readLoop file maxBytes fuel (out ++ [⟨h.seq, h.stream, data⟩]) (off + HEADER + h.len) (total + h.len)
      else (out, off)

/-- Records from a byte cursor, and the next cursor. -/
def readFrom (c : Copy) (cursor maxBytes : Nat) : List Rec × Nat :=
  readLoop c.file maxBytes (c.file.length + 1) [] cursor 0

/-- `cursor_after_seq`'s loop. -/
def cursorLoop (file : List UInt8) (sinceSeq : Nat) : Nat → Nat → Nat
  | 0, off => off
  | fuel + 1, off =>
      if file.length < off + HEADER then off
      else
        let h := Head.parse ((file.drop off).take HEADER)
        if h.seq > sinceSeq then off else cursorLoop file sinceSeq fuel (off + HEADER + h.len)

/-- The byte cursor just after `sinceSeq` (0 = from the start). -/
def cursorAfterSeq (c : Copy) (sinceSeq : Nat) : Nat :=
  if sinceSeq = 0 then 0 else cursorLoop c.file sinceSeq (c.file.length + 1) 0

end Copy

/-! ## What a copy holds -/

def copied : Framing Rec where
  fits := Rec.Fits
  frame := Rec.bytes
  frame_ne_nil r := by simp [← List.length_pos_iff, Rec.length_bytes, HEADER]

/-- The copy is the frames of these records, numbered from 1 on, and remembers its end
    or nothing. -/
structure Copy.Keeps (c : Copy) (recs : List Rec) : Prop where
  file : c.file = copied.frames recs
  fits : ∀ r ∈ recs, r.Fits
  numbered : ∀ i r, recs[i]? = some r → r.seq = i + 1
  tail : c.tail = none ∨ c.tail = some (recs.length, (copied.frames recs).length)

namespace Copy

theorem keeps_empty : Keeps empty [] := ⟨rfl, by simp, by simp, .inl rfl⟩

private theorem parse_at (done rest : List Rec) {r : Rec} (fits : r.Fits) :
    Head.parse (((copied.frames (done ++ r :: rest)).drop (copied.frames done).length).take HEADER) =
      ⟨r.seq, r.stream, r.data.length⟩ := by
  have past : (copied.frames (done ++ r :: rest)).drop (copied.frames done).length = r.bytes ++ copied.frames rest := by
    simp [copied]
  rw [past, Rec.head_bytes fits]

private theorem length_step (done rest : List Rec) (r : Rec) :
    (copied.frames (done ++ r :: rest)).length = (copied.frames done).length + HEADER + r.data.length + (copied.frames rest).length := by
  simp [copied, Rec.length_bytes]
  omega

private theorem frames_concat (done : List Rec) (r : Rec) :
    (copied.frames (done ++ [r])).length = (copied.frames done).length + HEADER + r.data.length := by
  simp [copied, Rec.length_bytes]
  omega

theorem scanTail_frames {recs done rest : List Rec} (divided : recs = done ++ rest) (fits : ∀ r ∈ recs, r.Fits)
    (numbered : ∀ i r, recs[i]? = some r → r.seq = i + 1) {fuel : Nat} (enough : rest.length < fuel) :
    scanTail (copied.frames recs) fuel (done.length, (copied.frames done).length) = (recs.length, (copied.frames recs).length) := by
  induction rest generalizing done fuel with
  | nil =>
      cases fuel with
      | zero => omega
      | succ fuel =>
          have : 0 < HEADER := by decide
          simp only [divided, List.append_nil, scanTail]
          exact if_pos (by omega)
  | cons r rest ih =>
      obtain ⟨fuel, rfl⟩ := Nat.exists_eq_add_of_lt enough
      have seq : r.seq = done.length + 1 := numbered _ _ (by simp [divided])
      have further : recs = (done ++ [r]) ++ rest := by simp [divided]
      have header := parse_at done rest (fits r (by simp [divided]))
      have length := length_step done rest r
      rw [← divided] at header length
      have next := ih further (by simp; omega : rest.length < List.length (r :: rest) + fuel)
      simp only [scanTail, header, seq]
      rw [if_neg (by omega), ← frames_concat]
      simpa using next

theorem Keeps.tailOf {c : Copy} {recs : List Rec} (keeps : Keeps c recs) :
    c.tailOf = (recs.length, (copied.frames recs).length) := by
  unfold Copy.tailOf
  cases keeps.tail with
  | inl none =>
      have size := Framing.length_le_frames (f := copied) recs
      have scan := scanTail_frames (List.nil_append recs).symm keeps.fits keeps.numbered (by rw [keeps.file]; omega : recs.length < c.file.length + 1)
      simpa [none, keeps.file] using scan
  | inr known => simp [known]

theorem Keeps.lastSeq {c : Copy} {recs : List Rec} (keeps : Keeps c recs) :
    (c.lastSeq).1 = recs.length ∧ Keeps (c.lastSeq).2 recs := by
  simp only [Copy.lastSeq, keeps.tailOf]
  exact ⟨trivial, keeps.file, keeps.fits, keeps.numbered, .inr rfl⟩

theorem Keeps.forget {c : Copy} {recs : List Rec} (keeps : Keeps c recs) : Keeps { c with tail := none } recs :=
  ⟨keeps.file, keeps.fits, keeps.numbered, .inl rfl⟩

/-- A chunk is stored when it is the very next one and the disk takes it; else nothing
    changes. -/
theorem Keeps.append {c : Copy} {recs : List Rec} (keeps : Keeps c recs) {seq : Nat} (stream : LogStream) {data : List UInt8}
    (fits : (⟨seq, ctrlByte stream, data⟩ : Rec).Fits) (disk : Bool) :
    if seq = recs.length + 1 ∧ disk = true then
      (c.append seq stream data disk).1 = .ok true ∧
        Keeps (c.append seq stream data disk).2 (recs ++ [⟨seq, ctrlByte stream, data⟩])
    else Keeps (c.append seq stream data disk).2 recs ∧ (c.append seq stream data disk).1 ≠ .ok true := by
  have same : Keeps { c with tail := some (recs.length, (copied.frames recs).length) } recs :=
    ⟨keeps.file, keeps.fits, keeps.numbered, .inr rfl⟩
  simp only [Copy.append, keeps.tailOf]
  by_cases next : seq = recs.length + 1
  · have fresh : ¬ (seq ≤ recs.length ∨ seq ≠ recs.length + 1) := by omega
    simp only [if_neg fresh]
    cases disk with
    | false => simpa using same
    | true =>
        simp only [next, and_self, if_true, true_and]
        refine ⟨by simp [keeps.file, copied], ?_, ?_, .inr (by simp [copied])⟩
        · intro r mem
          cases List.mem_append.mp mem with
          | inl old => exact keeps.fits r old
          | inr new => exact List.mem_singleton.mp new ▸ next ▸ fits
        · intro i r found
          rw [List.getElem?_append] at found
          split at found
          next => exact keeps.numbered i r found
          next past =>
              obtain ⟨last, rfl⟩ : i - recs.length = 0 ∧ _ = r := by simpa [List.getElem?_singleton] using found
              simp only
              omega
  · have other : seq ≤ recs.length ∨ seq ≠ recs.length + 1 := .inr next
    simp only [next, if_pos other, false_and, if_false]
    exact ⟨same, by simp⟩

/-! ## Paging -/

private theorem readLoop_frames {recs done rest : List Rec} (divided : recs = done ++ rest) (fits : ∀ r ∈ recs, r.Fits)
    (maxBytes : Nat) {fuel : Nat} (enough : rest.length < fuel) (out : List Rec) (total : Nat) :
    ∃ page later, rest = page ++ later ∧
      readLoop (copied.frames recs) maxBytes fuel out (copied.frames done).length total =
        (out ++ page, (copied.frames (done ++ page)).length) ∧
      (total < maxBytes → page = [] → rest = []) := by
  induction rest generalizing done fuel out total with
  | nil =>
      refine ⟨[], [], rfl, ?_, fun _ _ => rfl⟩
      cases fuel with
      | zero => simp [readLoop]
      | succ fuel =>
          have positive : 0 < HEADER := by decide
          have past : ¬ (total < maxBytes ∧ (copied.frames done).length + HEADER ≤ (copied.frames recs).length) := by
            simp only [divided, List.append_nil]
            omega
          simp only [readLoop, if_neg past, List.append_nil]
  | cons r rest ih =>
      obtain ⟨fuel, rfl⟩ := Nat.exists_eq_add_of_lt enough
      have further : recs = (done ++ [r]) ++ rest := by simp [divided]
      have header := parse_at done rest (fits r (by simp [divided]))
      have length := length_step done rest r
      have body : ((copied.frames recs).drop ((copied.frames done).length + HEADER)).take r.data.length = r.data := by
        have past : (copied.frames recs).drop (copied.frames done).length = r.bytes ++ copied.frames rest := by
          simp [divided, copied]
        rw [← List.drop_drop, past, Rec.body_bytes]
        exact List.take_left' rfl
      rw [← divided] at header length
      by_cases more : total < maxBytes
      · obtain ⟨page, later, parts, read, -⟩ := ih further (by simp; omega : rest.length < List.length (r :: rest) + fuel) (out ++ [r])
          (total + r.data.length)
        refine ⟨r :: page, later, by simp [parts], ?_, fun _ none => by cases none⟩
        have whole : total < maxBytes ∧ (copied.frames done).length + HEADER ≤ (copied.frames recs).length := by omega
        have untorn : ¬ (copied.frames recs).length < (copied.frames done).length + HEADER + r.data.length := by omega
        simp only [readLoop, if_pos whole, header, if_neg untorn, body]
        rw [← frames_concat]
        simpa using read
      · refine ⟨[], r :: rest, rfl, ?_, fun less => absurd less more⟩
        have full : ¬ (total < maxBytes ∧ (copied.frames done).length + HEADER ≤ (copied.frames recs).length) := by omega
        simp only [readLoop, if_neg full, List.append_nil]

private theorem cursorLoop_frames {recs done rest : List Rec} (divided : recs = done ++ rest) (fits : ∀ r ∈ recs, r.Fits)
    (numbered : ∀ i r, recs[i]? = some r → r.seq = i + 1) {since fuel : Nat} (behind : done.length ≤ since) (enough : rest.length < fuel) :
    cursorLoop (copied.frames recs) since fuel (copied.frames done).length = (copied.frames (recs.take since)).length := by
  induction rest generalizing done fuel with
  | nil =>
      obtain ⟨fuel, rfl⟩ := Nat.exists_eq_add_of_lt enough
      have positive : 0 < HEADER := by decide
      rw [List.append_nil] at divided
      simp only [cursorLoop, divided, List.take_of_length_le behind]
      exact if_pos (by omega)
  | cons r rest ih =>
      obtain ⟨fuel, rfl⟩ := Nat.exists_eq_add_of_lt enough
      have seq : r.seq = done.length + 1 := numbered _ _ (by simp [divided])
      have further : recs = (done ++ [r]) ++ rest := by simp [divided]
      have header := parse_at done rest (fits r (by simp [divided]))
      have length := length_step done rest r
      rw [← divided] at header length
      simp only [cursorLoop, header, seq]
      rw [if_neg (by omega)]
      split
      next here =>
          have since : since = done.length := by omega
          simp [since, divided]
      next past =>
          rw [← frames_concat]
          exact ih further (by simp; omega) (by simp; omega)

theorem Keeps.cursorAfterSeq {c : Copy} {recs : List Rec} (keeps : Keeps c recs) (since : Nat) :
    c.cursorAfterSeq since = (copied.frames (recs.take since)).length := by
  unfold Copy.cursorAfterSeq
  split
  next zero => simp [zero]
  next =>
      have size := Framing.length_le_frames (f := copied) recs
      rw [keeps.file]
      exact cursorLoop_frames (List.nil_append recs).symm keeps.fits keeps.numbered (Nat.zero_le _) (by omega)

/-- A reader's page from the boundary behind the first `k` records: the next records,
    some of them when there are any and any were asked for. -/
theorem Keeps.readFrom {c : Copy} {recs : List Rec} (keeps : Keeps c recs) {k : Nat} (inside : k ≤ recs.length) (maxBytes : Nat) :
    ∃ n, k + n ≤ recs.length ∧
      c.readFrom (copied.frames (recs.take k)).length maxBytes =
        ((recs.drop k).take n, (copied.frames (recs.take (k + n))).length) ∧
      (0 < maxBytes → n = 0 → k = recs.length) := by
  have size := Framing.length_le_frames (f := copied) recs
  have divided : recs = recs.take k ++ recs.drop k := (List.take_append_drop k recs).symm
  obtain ⟨page, later, parts, read, more⟩ := readLoop_frames divided keeps.fits maxBytes
    (by rw [keeps.file]; simp; omega : (recs.drop k).length < c.file.length + 1) [] 0
  have fewer : page.length ≤ recs.length - k := by
    have := congrArg List.length parts
    simp at this
    omega
  have taken : (recs.drop k).take page.length = page := by simp [parts]
  have front : recs.take (k + page.length) = recs.take k ++ page := by simp [List.take_add, taken]
  refine ⟨page.length, by omega, ?_, fun asked none => ?_⟩
  · simp only [Copy.readFrom, taken, front, keeps.file] at read ⊢
    simpa using read
  · have := more asked (by simpa using none)
    simp at this
    omega

/-! ## A reader beside the writer -/

/-- What happens to a copy one reader pages through. -/
inductive PageEvent where
  | append (seq : Nat) (stream : LogStream) (data : List UInt8) (fits : (⟨seq, ctrlByte stream, data⟩ : Rec).Fits) (disk : Bool)
  /-- The controller restarts. -/
  | restart
  /-- The reader starts behind the record `since`. -/
  | opened (since : Nat)
  | page (maxBytes : Nat)

structure Pager where
  copy : Copy
  cursor : Nat
  /-- The records there were up to where the reader started. -/
  since : Nat
  /-- What the reader was given since. -/
  got : List Rec

def Pager.start : Pager := ⟨empty, 0, 0, []⟩

def Pager.next (p : Pager) : PageEvent → Pager
  | .append seq stream data _ disk => { p with copy := (p.copy.append seq stream data disk).2 }
  | .restart => { p with copy := { p.copy with tail := none } }
  | .opened since => { p with cursor := p.copy.cursorAfterSeq since, since := min since p.copy.tailOf.1, got := [] }
  | .page maxBytes =>
      let (page, cursor) := p.copy.readFrom p.cursor maxBytes
      { p with cursor := cursor, got := p.got ++ page }

/-- The reader has the records from where it started up to its cursor. -/
def Pager.Follows (p : Pager) : Prop :=
  ∃ recs n, p.copy.Keeps recs ∧ p.since + n ≤ recs.length ∧ p.got = (recs.drop p.since).take n ∧
    p.cursor = (copied.frames (recs.take (p.since + n))).length

theorem Pager.Follows.next {p : Pager} (follows : p.Follows) (e : PageEvent) : (p.next e).Follows := by
  obtain ⟨recs, n, keeps, inside, got, cursor⟩ := follows
  cases e with
  | append seq stream data fits disk =>
      have stored := keeps.append stream fits disk
      split at stored
      next =>
          refine ⟨_, n, stored.2, by simp [Pager.next]; omega, ?_, ?_⟩
          · simp [Pager.next, got, List.drop_append_of_le_length (Nat.le_of_add_right_le inside),
              List.take_append_of_le_length (by simp; omega : n ≤ (recs.drop p.since).length)]
          · simp [Pager.next, cursor, List.take_append_of_le_length inside]
      next => exact ⟨recs, n, stored.1, inside, got, cursor⟩
  | restart => exact ⟨recs, n, keeps.forget, inside, got, cursor⟩
  | opened since =>
      have here := keeps.tailOf
      refine ⟨recs, 0, keeps, by simp [Pager.next, here], by simp [Pager.next], ?_⟩
      simp only [Pager.next, here, keeps.cursorAfterSeq, Nat.add_zero]
      rw [← List.take_take, List.take_length]
  | page maxBytes =>
      obtain ⟨m, further, read, -⟩ := keeps.readFrom inside maxBytes
      rw [← cursor] at read
      refine ⟨recs, n + m, keeps, by simp [Pager.next]; omega, ?_, ?_⟩
      · simp [Pager.next, read, got, List.take_add]
      · simp [Pager.next, read, Nat.add_assoc]

/-- Through appends, replays, gaps, writes that fail whole and restarts a reader is given each record
    behind its start once, in order; an empty page says that it has them all. -/
theorem reader_given_each_record_once (events : List PageEvent) :
    let p := Rounds.after Pager.next .start events
    ∃ recs, p.copy.Keeps recs ∧ p.got <+: recs.drop p.since ∧
      ∀ maxBytes, 0 < maxBytes → (p.copy.readFrom p.cursor maxBytes).1 = [] → p.got = recs.drop p.since := by
  intro p
  have start : Pager.Follows .start := ⟨[], 0, keeps_empty, Nat.le_refl _, rfl, rfl⟩
  obtain ⟨recs, n, keeps, inside, got, cursor⟩ : p.Follows := Rounds.invariant (fun _ e held => held.next e) start events
  refine ⟨recs, keeps, got ▸ List.take_prefix _ _, fun maxBytes asked none => ?_⟩
  obtain ⟨m, further, read, more⟩ := keeps.readFrom inside maxBytes
  rw [cursor, read] at none
  have last : p.since + n = recs.length := by
    by_contra short
    have nothing : m = 0 := by
      have := congrArg List.length none
      simp at this
      omega
    exact short (more asked nothing)
  rw [got]
  exact List.take_of_length_le (by simp; omega)

end Copy

end K2.JobLog
