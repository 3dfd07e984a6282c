import K2.Lib.RecordLog
import K2.Redact.Stream

/-! # A job attempt's log journal

Every chunk of a job's output is on the node's disk before it is sent. The writer
numbers the records, keeps the job's output under its cap and hashes what it keeps;
the reader takes whole records after a position, and leaves a torn one for later.
-/

namespace K2.JobLog

open Redact

def HEADER : Nat := 13

def MAX_LOG_CHUNK : Nat := 64 * 1024

/-- Node-written lines a journal keeps beside the job's own capped output. -/
def SYS_ALLOWANCE : Nat := 64 * 1024

inductive LogStream where
  | out | err | sys
  deriving DecidableEq, Repr

def streamByte : LogStream → UInt8
  | .out => 1
  | .err => 2
  | .sys => 3

def streamOf (b : UInt8) : Option LogStream :=
  if b = 1 then some .out else if b = 2 then some .err else if b = 3 then some .sys else none

theorem streamOf_streamByte (s : LogStream) : streamOf (streamByte s) = some s := by
  cases s <;> rfl

/-- A record as both ends lay it out: `u64 seq BE | u8 stream | u32 len BE | bytes`. -/
structure Rec where
  seq : Nat
  stream : UInt8
  data : List UInt8
  deriving DecidableEq, Repr

/-- What a header says. -/
structure Head where
  seq : Nat
  stream : UInt8
  len : Nat

def Head.parse (h : List UInt8) : Head :=
  { seq := beNat (h.take 8), stream := h.getD 8 0, len := beNat (h.drop 9) }

/-- The bytes of a record; the length is cast to 32 bits. -/
def Rec.bytes (r : Rec) : List UInt8 :=
  beBytes 8 r.seq ++ (r.stream :: beBytes 4 r.data.length) ++ r.data

def Rec.Fits (r : Rec) : Prop := r.seq < 2 ^ 64 ∧ r.data.length < 2 ^ 32

theorem Rec.length_bytes (r : Rec) : r.bytes.length = HEADER + r.data.length := by
  simp [Rec.bytes, HEADER]
  omega

private theorem Rec.bytes_append (r : Rec) (tail : List UInt8) :
    r.bytes ++ tail = (beBytes 8 r.seq ++ (r.stream :: beBytes 4 r.data.length)) ++ (r.data ++ tail) := by
  simp [Rec.bytes]

theorem Rec.head_bytes {r : Rec} (fits : r.Fits) (tail : List UInt8) :
    Head.parse ((r.bytes ++ tail).take HEADER) = ⟨r.seq, r.stream, r.data.length⟩ := by
  have front : (r.bytes ++ tail).take HEADER = beBytes 8 r.seq ++ (r.stream :: beBytes 4 r.data.length) := by
    rw [Rec.bytes_append]
    exact List.take_left' (by simp [HEADER])
  have seq := beNat_beBytes 8 (by simpa using fits.1)
  have len := beNat_beBytes 4 (by simpa using fits.2)
  have early : (beBytes 8 r.seq).drop 9 = [] := List.drop_eq_nil_of_le (by simp)
  simp [front, Head.parse, List.drop_append, early, seq, len]

/-- Once the whole header is there it is the record's own, torn or not. -/
theorem Rec.head_torn {r : Rec} (fits : r.Fits) {torn : List UInt8} (front : torn <+: r.bytes) (whole : HEADER ≤ torn.length) :
    Head.parse (torn.take HEADER) = ⟨r.seq, r.stream, r.data.length⟩ := by
  obtain ⟨rest, same⟩ := front
  have header := Rec.head_bytes fits []
  rwa [List.append_nil, ← same, List.take_append_of_le_length whole] at header

theorem Rec.body_bytes (r : Rec) (tail : List UInt8) : (r.bytes ++ tail).drop HEADER = r.data ++ tail := by
  rw [Rec.bytes_append]
  exact List.drop_left' (by simp [HEADER])

/-! ## Reading -/

/-- One record read back. -/
structure Record where
  seq : Nat
  stream : LogStream
  data : List UInt8
  deriving DecidableEq, Repr

/-- A record as the node writes it. -/
def Record.raw (r : Record) : Rec := ⟨r.seq, streamByte r.stream, r.data⟩

def framing : Framing Record where
  fits r := r.raw.Fits
  frame r := r.raw.bytes
  frame_ne_nil r := by simp [← List.length_pos_iff, Rec.length_bytes, HEADER]

/-- The records are numbered from 1 on. -/
def Numbered (recs : List Record) : Prop := ∀ i r, recs[i]? = some r → r.seq = i + 1

structure JournalReader where
  offset : Nat
  lastSeq : Nat
  deriving DecidableEq, Repr

namespace JournalReader

def new : JournalReader := ⟨0, 0⟩

/-- `read_more`'s loop: a turn takes a header at least, so `fuel` is never short. -/
def readLoop (file : List UInt8) (max : Nat) :
    Nat → JournalReader → List Record → Except String (List Record) × JournalReader
  | 0, r, out => (.ok out, r)
  | fuel + 1, r, out =>
      if out.length < max ∧ r.offset + HEADER ≤ file.length then
        let h := Head.parse ((file.drop r.offset).take HEADER)
        match streamOf h.stream with
        | none => (.error "journal: bad stream byte", r)
        | some stream =>
            if r.offset + HEADER + h.len > file.length then (.ok out, r)
            else
              let data := (file.drop (r.offset + HEADER)).take h.len
              let r := { r with offset := r.offset + HEADER + h.len }
              if h.seq > r.lastSeq then
                readLoop file max fuel { r with lastSeq := h.seq } (out ++ [⟨h.seq, stream, data⟩])
              else readLoop file max fuel r out
      else (.ok out, r)

/-- Up to `max` complete records with seq > `lastSeq`, advancing. -/
def readMore (file : List UInt8) (max : Nat) (r : JournalReader) : Except String (List Record) × JournalReader :=
  readLoop file max (file.length + 1) r []

/-- Skip records up to and including `seq` (resume after a reconnect). -/
def skipTo (seq : Nat) (r : JournalReader) : JournalReader := { r with lastSeq := Max.max r.lastSeq seq }

/-- No whole record is left: the read stops, also at a whole header. -/
theorem readLoop_end {file torn : List UInt8} {r : JournalReader} (past : file.drop r.offset = torn)
    (ending : torn = [] ∨ framing.Torn torn) (max fuel : Nat) (out : List Record) :
    readLoop file max fuel r out = (.ok out, r) := by
  cases fuel with
  | zero => rfl
  | succ fuel =>
      have left : torn.length = file.length - r.offset := by simp [← past]
      unfold readLoop
      split
      next whole =>
          cases ending with
          | inl none => simp only [none, List.length_nil, HEADER] at left whole; omega
          | inr cut =>
              obtain ⟨rec, fits, front, strict⟩ := cut
              have short := front.length_le
              have uneven := mt front.eq_of_length strict
              have longer : r.offset + HEADER + rec.raw.data.length > file.length := by
                simp only [framing, Rec.length_bytes] at short uneven
                omega
              have header := Rec.head_torn fits front (by omega)
              simp only [past, header, Record.raw, streamOf_streamByte]
              exact if_pos longer
      next => rfl

/-- A whole record is taken, and given out when it is past the last. -/
theorem readLoop_cons {file tail : List UInt8} {r : JournalReader} {rec : Record} (fits : framing.fits rec)
    (past : file.drop r.offset = framing.frame rec ++ tail) (max fuel : Nat) (out : List Record) (room : out.length < max) :
    readLoop file max (fuel + 1) r out =
      if r.lastSeq < rec.seq then
        readLoop file max fuel ⟨r.offset + (framing.frame rec).length, rec.seq⟩ (out ++ [rec])
      else readLoop file max fuel ⟨r.offset + (framing.frame rec).length, r.lastSeq⟩ out := by
  have frame : framing.frame rec = rec.raw.bytes := rfl
  have length : (framing.frame rec).length = HEADER + rec.data.length := rec.raw.length_bytes
  have left : file.length - r.offset = HEADER + rec.data.length + tail.length := by
    simpa [length] using congrArg List.length past
  have header := Rec.head_bytes fits tail
  have body : (file.drop (r.offset + HEADER)).take rec.data.length = rec.data := by
    have := Rec.body_bytes rec.raw tail
    rw [← List.drop_drop, past, frame, this]
    exact List.take_left' rfl
  rw [← frame, ← past] at header
  have nonempty : 0 < HEADER := by decide
  have inside : out.length < max ∧ r.offset + HEADER ≤ file.length := by omega
  have whole : ¬ r.offset + HEADER + rec.data.length > file.length := by omega
  simp only [readLoop, if_pos inside, header, Record.raw, streamOf_streamByte, if_neg whole, body, length, ← Nat.add_assoc]

/-- The reader stands behind some of the records, and has given out no fewer. -/
structure Placed (recs : List Record) (r : JournalReader) : Prop where
  behind : ∃ done rest, recs = done ++ rest ∧ r.offset = (framing.frames done).length ∧ done.length ≤ r.lastSeq
  last_le : r.lastSeq ≤ recs.length

theorem Placed.start {recs : List Record} {since : Nat} (known : since ≤ recs.length) : Placed recs (new.skipTo since) where
  behind := ⟨[], recs, rfl, rfl, Nat.zero_le _⟩
  last_le := by simpa [new, skipTo] using known

theorem Placed.grow {recs : List Record} {r : JournalReader} (placed : Placed recs r) (more : List Record) :
    Placed (recs ++ more) r := by
  obtain ⟨⟨done, rest, rfl, offset, given⟩, last⟩ := placed
  exact ⟨⟨done, rest ++ more, by simp, offset, given⟩, by simp at last ⊢; omega⟩

private theorem readLoop_placed {file : List UInt8} {recs done rest : List Record} (holds : framing.Holds file recs)
    (numbered : Numbered recs) (divided : recs = done ++ rest) {r : JournalReader}
    (offset : r.offset = (framing.frames done).length) (given : done.length ≤ r.lastSeq) (last : r.lastSeq ≤ recs.length)
    {max fuel : Nat} (enough : rest.length < fuel) {out : List Record} (room : out.length ≤ max) :
    ∃ r', readLoop file max fuel r out = (.ok (out ++ (recs.drop r.lastSeq).take (max - out.length)), r') ∧
      Placed recs r' ∧ r'.lastSeq = r.lastSeq + ((recs.drop r.lastSeq).take (max - out.length)).length ∧
      (recs.length - r.lastSeq < max - out.length → r'.offset = (framing.frames recs).length) := by
  induction rest generalizing done r fuel out with
  | nil =>
      obtain ⟨torn, past, ending⟩ := Framing.Holds.past (divided ▸ holds)
      rw [← offset] at past
      have none : recs.drop r.lastSeq = [] := by simp [divided] at given ⊢; omega
      exact ⟨r, by simpa [none] using readLoop_end past ending max fuel out, ⟨⟨done, [], divided, offset, given⟩, last⟩,
        by simp [none], fun _ => by simp [offset, divided]⟩
  | cons rec rest ih =>
      by_cases full : out.length = max
      · refine ⟨r, ?_, ⟨⟨done, rec :: rest, divided, offset, given⟩, last⟩, by simp [full], by omega⟩
        cases fuel with
        | zero => simp [readLoop, full]
        | succ fuel => simp [readLoop, full]
      · obtain ⟨torn, past, -⟩ := Framing.Holds.past (divided ▸ holds)
        rw [← offset, Framing.frames_cons, List.append_assoc] at past
        obtain ⟨fuel, rfl⟩ := Nat.exists_eq_add_of_lt enough
        have fits := holds.1 rec (by simp [divided])
        have seq : rec.seq = done.length + 1 := numbered _ _ (by simp [divided])
        have further : recs = (done ++ [rec]) ++ rest := by simp [divided]
        have step := readLoop_cons fits past max (List.length (rec :: rest) + fuel) out (by omega)
        rw [step]
        split
        next fresh =>
            have here : r.lastSeq = done.length := by omega
            have nonempty : recs.drop r.lastSeq = rec :: rest := by simp [divided, here]
            have after : recs.drop rec.seq = rest := by rw [further, seq]; exact List.drop_left' (by simp)
            obtain ⟨r', read, placed, lastSeq, whole⟩ := ih (r := ⟨r.offset + (framing.frame rec).length, rec.seq⟩)
              further (by simp [offset]) (by simp [seq]) (by simp [further, seq])
              (by simp; omega : rest.length < List.length (rec :: rest) + fuel) (by simp; omega : (out ++ [rec]).length ≤ max)
            obtain ⟨left, more⟩ : ∃ left, max - out.length = left + 1 := ⟨max - out.length - 1, by omega⟩
            have fewer : max - (out ++ [rec]).length = left := by simp; omega
            simp only [after, fewer] at read lastSeq whole
            refine ⟨r', ?_, placed, ?_, fun short => whole ?_⟩
            · simpa [nonempty, more] using read
            · simp only [nonempty, more, List.take_succ_cons, List.length_cons, lastSeq]
              omega
            · have longer : recs.length = done.length + (rest.length + 1) := by simp [divided]
              omega
        next old =>
            exact ih (r := ⟨r.offset + (framing.frame rec).length, r.lastSeq⟩) further (by simp [offset])
              (by simp; omega) last (by simp; omega) room

theorem readMore_placed {file : List UInt8} {recs : List Record} (holds : framing.Holds file recs) (numbered : Numbered recs)
    {r : JournalReader} (placed : Placed recs r) (max : Nat) :
    ∃ r', r.readMore file max = (.ok ((recs.drop r.lastSeq).take max), r') ∧ Placed recs r' ∧
      r'.lastSeq = r.lastSeq + ((recs.drop r.lastSeq).take max).length ∧
      (recs.length - r.lastSeq < max → r'.offset = (framing.frames recs).length) := by
  obtain ⟨done, rest, divided, offset, given⟩ := placed.behind
  have enough : rest.length < file.length + 1 := by
    obtain ⟨-, torn, rfl, -⟩ := holds
    have := Framing.length_le_frames (f := framing) rest
    simp [divided]
    omega
  exact readLoop_placed holds numbered divided offset given placed.last_le enough (Nat.zero_le _)

end JournalReader

/-! ## Writing -/

variable {find : FindIter}

def hits (r : Redactor find) (input : List UInt8) : Bool :=
  match r.ac with
  | none => false
  | some find => !(find input).isEmpty

/-- Appends records with the job's log cap applied. -/
structure JournalWriter (find : FindIter) where
  seq : Nat
  /-- Payload bytes kept (what the receipt hashes). -/
  bytes : Nat
  /-- The job's output dropped over its cap. -/
  dropped : Nat
  cap : Nat
  /-- The job's output kept (stdout + stderr): what the cap counts. -/
  outBytes : Nat
  /-- Node lines kept, and dropped over the allowance. -/
  sysBytes : Nat
  sysDropped : Nat
  /-- What the running hash has taken in. -/
  hash : Option (List UInt8)
  redactor : Option (Redactor find)

namespace JournalWriter

def create (cap : Nat) : JournalWriter find where
  seq := 0
  bytes := 0
  dropped := 0
  cap := cap
  outBytes := 0
  sysBytes := 0
  sysDropped := 0
  hash := some []
  redactor := none

def setRedactor (w : JournalWriter find) (r : Redactor find) : JournalWriter find := { w with redactor := some r }

/-- What `reopen` counts for a record already there. -/
def recount (w : JournalWriter find) (rec : Record) : JournalWriter find :=
  let w := { w with seq := rec.seq, bytes := w.bytes + rec.data.length, hash := w.hash.map (· ++ rec.data) }
  match rec.stream with
  | .sys => { w with sysBytes := w.sysBytes + rec.data.length }
  | _ => { w with outBytes := w.outBytes + rec.data.length }

/-- `reopen`'s loop: until a read gives nothing. -/
def reopenLoop (file : List UInt8) :
    Nat → JournalReader → JournalWriter find → Except String (JournalReader × JournalWriter find)
  | 0, r, w => .ok (r, w)
  | fuel + 1, r, w =>
      match r.readMore file 256 with
      | (.error e, _) => .error e
      | (.ok [], r) => .ok (r, w)
      | (.ok recs, r) => reopenLoop file fuel r (recs.foldl recount w)

/-- Open an existing journal to add to it: its sequence, kept bytes and hash carry
    on from what is there, and a torn last record goes. -/
def reopen (file : List UInt8) (cap : Nat) : Except String (JournalWriter find × List UInt8) := do
  let (r, w) ← reopenLoop file (file.length + 1) .new (create cap)
  return (w, file.take r.offset)

/-- The bytes to write, and the writer after them. -/
def record (w : JournalWriter find) (stream : LogStream) (data : List UInt8) : JournalWriter find × List UInt8 :=
  let seq := w.seq + 1
  ({ w with seq := seq, bytes := w.bytes + data.length, hash := w.hash.map (· ++ data) },
    (⟨seq, stream, data⟩ : Record).raw.bytes)

def recordAll (w : JournalWriter find) (stream : LogStream) : List (List UInt8) → JournalWriter find × List UInt8
  | [] => (w, [])
  | chunk :: rest =>
      let (w, first) := w.record stream chunk
      let (w, more) := w.recordAll stream rest
      (w, first ++ more)

/-- The chunks of some bytes, each no longer than `MAX_LOG_CHUNK`; every chunk but the last is full. -/
def chunksUpTo : Nat → List UInt8 → List (List UInt8)
  | 0, _ => []
  | n + 1, data => if data = [] then [] else data.take MAX_LOG_CHUNK :: chunksUpTo n (data.drop MAX_LOG_CHUNK)

/-- `slice.chunks(MAX_LOG_CHUNK)`. -/
def chunks (data : List UInt8) : List (List UInt8) := chunksUpTo data.length data

def redacted (r : Option (Redactor find)) (data : List UInt8) : List UInt8 :=
  match r with
  | some r => if hits r data then r.redact data else data
  | none => data

/-- Count what an append keeps and what it drops; the counts of dropped bytes are
    64-bit. -/
def charge (w : JournalWriter find) (stream : LogStream) (keep excess : Nat) : JournalWriter find :=
  if stream = .sys then { w with sysBytes := w.sysBytes + keep, sysDropped := (w.sysDropped + excess) % 2 ^ 64 }
  else { w with outBytes := w.outBytes + keep, dropped := (w.dropped + excess) % 2 ^ 64 }

def room (w : JournalWriter find) (stream : LogStream) : Nat :=
  if stream = .sys then SYS_ALLOWANCE - w.sysBytes else w.cap - w.outBytes

/-- Append output, split into chunks, honouring the cap; `late` is what the late
    redactor holds now. -/
def append (w : JournalWriter find) (stream : LogStream) (data : List UInt8) (late : Option (Redactor find)) :
    JournalWriter find × List UInt8 :=
  let data := redacted late (redacted w.redactor data)
  let keep := min data.length (w.room stream)
  (w.charge stream keep (data.length - keep)).recordAll stream (chunks (data.take keep))

def capMarker (w : JournalWriter find) : List UInt8 :=
  utf8 s!"[k2-node] log truncated at {w.cap} bytes; {w.dropped} bytes dropped\n"

def sysMarker (w : JournalWriter find) : List UInt8 :=
  utf8 s!"[k2-node] node lines over {SYS_ALLOWANCE / 1024} KB dropped ({w.sysDropped} bytes)\n"

/-- What `finish` records when anything was dropped. -/
def markers (w : JournalWriter find) : List (List UInt8) :=
  (if w.dropped > 0 then [w.capMarker] else []) ++ (if w.sysDropped > 0 then [w.sysMarker] else [])

structure Finish where
  sha256 : String
  bytes : Nat
  truncated : Bool
  deriving DecidableEq, Repr

/-- Close out: the truncation markers, then what the receipt says of the log. -/
def finish (sha256Hex : List UInt8 → String) (w : JournalWriter find) : JournalWriter find × List UInt8 × Finish :=
  let truncated := decide (w.dropped > 0 ∨ w.sysDropped > 0)
  let (w, bytes) := w.recordAll .sys w.markers
  ({ w with hash := none }, bytes, ⟨(w.hash.map sha256Hex).getD "", w.bytes, truncated⟩)

end JournalWriter

end K2.JobLog
