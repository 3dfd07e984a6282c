import K2.JobLog.Journal
import Mathlib.Data.Nat.Digits.Defs

/-! # What a journal holds

Through appends, the closing markers and a reopening after a crash the records stay
numbered, the job's output stays under its cap, and the writer's counts and hash are
those of what the file keeps. So a receipt speaks of the whole journal.
-/

namespace K2.JobLog

open Redact

variable {find : FindIter}

/-- The bytes some records carry. -/
def payload (recs : List Record) : List UInt8 := recs.flatMap (·.data)

/-- The job's own output, and the node's lines beside it. -/
def printed (recs : List Record) : List Record := recs.filter (·.stream ≠ .sys)
def notes (recs : List Record) : List Record := recs.filter (·.stream = .sys)

@[simp] theorem payload_nil : payload [] = [] := rfl

@[simp] theorem payload_append (recs more : List Record) : payload (recs ++ more) = payload recs ++ payload more := by
  simp [payload]

@[simp] theorem printed_append (recs more : List Record) : printed (recs ++ more) = printed recs ++ printed more := by
  simp [printed]

@[simp] theorem notes_append (recs more : List Record) : notes (recs ++ more) = notes recs ++ notes more := by
  simp [notes]

theorem length_printed_add (recs : List Record) : (printed recs).length + (notes recs).length = recs.length := by
  induction recs with
  | nil => rfl
  | cons r recs ih => by_cases sys : r.stream = .sys <;> simp [printed, notes, sys] at ih ⊢ <;> omega

/-- What a journal under a cap holds, once its markers were written `ends` times. -/
structure Journal (cap ends : Nat) (recs : List Record) : Prop where
  numbered : Numbered recs
  sized : ∀ r ∈ recs, r.data ≠ [] ∧ r.data.length ≤ MAX_LOG_CHUNK
  capped : (payload (printed recs)).length ≤ cap
  few : (notes recs).length ≤ SYS_ALLOWANCE + 2 * ends

namespace Journal

variable {cap ends : Nat} {recs : List Record}

theorem empty : Journal cap ends [] where
  numbered _ _ found := by simp at found
  sized _ mem := by simp at mem
  capped := by simp [payload, printed]
  few := by simp [notes]

theorem length_le_payload (recs : List Record) (sized : ∀ r ∈ recs, r.data ≠ []) : recs.length ≤ (payload recs).length := by
  induction recs with
  | nil => simp
  | cons r recs ih =>
      have nonempty := List.length_pos_iff.mpr (sized r List.mem_cons_self)
      have rest := ih fun r mem => sized r (List.mem_cons_of_mem _ mem)
      simp only [payload, List.flatMap_cons, List.length_append, List.length_cons] at rest ⊢
      omega

theorem length_le (journal : Journal cap ends recs) : recs.length ≤ cap + SYS_ALLOWANCE + 2 * ends := by
  have outputs := length_le_payload (printed recs) fun r mem => (journal.sized r (List.mem_filter.mp mem).1).1
  have := length_printed_add recs
  have := journal.capped
  have := journal.few
  omega

theorem fits (journal : Journal cap ends recs) (short : cap + SYS_ALLOWANCE + 2 * ends < 2 ^ 64) :
    ∀ r ∈ recs, framing.fits r := by
  intro r mem
  obtain ⟨i, found⟩ := List.getElem?_of_mem mem
  have seq := journal.numbered i r found
  have inside := (List.getElem?_eq_some_iff.mp found).1
  have long := journal.length_le
  have size := (journal.sized r mem).2
  simp only [MAX_LOG_CHUNK] at size
  exact ⟨by simp only [Record.raw, seq]; omega, by simp only [Record.raw]; omega⟩

theorem take (journal : Journal cap ends recs) (k : Nat) : Journal cap ends (recs.take k) where
  numbered i r found := by
    rw [List.getElem?_take] at found
    split at found
    · exact journal.numbered i r found
    · cases found
  sized r mem := journal.sized r (List.mem_of_mem_take mem)
  capped := by
    have whole := journal.capped
    rw [← List.take_append_drop k recs, printed_append, payload_append, List.length_append] at whole
    omega
  few := by
    have whole := journal.few
    rw [← List.take_append_drop k recs, notes_append, List.length_append] at whole
    omega

theorem later (journal : Journal cap ends recs) : Journal cap (ends + 1) recs :=
  { journal with few := by have := journal.few; omega }

end Journal

/-! ## One call of the writer -/

/-- Some chunks as the records after `seq`. -/
def recordsFrom (stream : LogStream) : Nat → List (List UInt8) → List Record
  | _, [] => []
  | seq, chunk :: rest => ⟨seq + 1, stream, chunk⟩ :: recordsFrom stream (seq + 1) rest

section
variable (stream : LogStream) (seq : Nat) (cs : List (List UInt8))

@[simp] theorem length_recordsFrom : (recordsFrom stream seq cs).length = cs.length := by
  induction cs generalizing seq with
  | nil => rfl
  | cons c cs ih => simp [recordsFrom, ih]

@[simp] theorem payload_recordsFrom : payload (recordsFrom stream seq cs) = cs.flatten := by
  induction cs generalizing seq with
  | nil => rfl
  | cons c cs ih => simpa [recordsFrom, payload] using ih (seq + 1)

theorem printed_recordsFrom :
    printed (recordsFrom stream seq cs) = if stream = .sys then [] else recordsFrom stream seq cs := by
  induction cs generalizing seq with
  | nil => simp [recordsFrom, printed]
  | cons c cs ih => by_cases sys : stream = .sys <;> simpa [recordsFrom, printed, sys] using ih (seq + 1)

theorem notes_recordsFrom :
    notes (recordsFrom stream seq cs) = if stream = .sys then recordsFrom stream seq cs else [] := by
  induction cs generalizing seq with
  | nil => simp [recordsFrom, notes]
  | cons c cs ih => by_cases sys : stream = .sys <;> simpa [recordsFrom, notes, sys] using ih (seq + 1)

variable {stream seq cs}

theorem data_of_mem_recordsFrom {r : Record} (mem : r ∈ recordsFrom stream seq cs) : r.data ∈ cs := by
  induction cs generalizing seq with
  | nil => cases mem
  | cons c cs ih =>
      cases mem with
      | head => exact List.mem_cons_self
      | tail _ mem => exact List.mem_cons_of_mem _ (ih mem)

theorem stream_of_mem_recordsFrom {r : Record} (mem : r ∈ recordsFrom stream seq cs) : r.stream = stream := by
  induction cs generalizing seq with
  | nil => cases mem
  | cons c cs ih =>
      cases mem with
      | head => rfl
      | tail _ mem => exact ih mem

theorem Numbered.extend {recs : List Record} (numbered : Numbered recs) :
    Numbered (recs ++ recordsFrom stream recs.length cs) := by
  induction cs generalizing recs with
  | nil => simpa [recordsFrom] using numbered
  | cons c cs ih =>
      have next : Numbered (recs ++ [⟨recs.length + 1, stream, c⟩]) := by
        intro i r found
        rw [List.getElem?_append] at found
        split at found
        next => exact numbered i r found
        next past =>
            obtain ⟨last, rfl⟩ : i - recs.length = 0 ∧ _ = r := by simpa [List.getElem?_singleton] using found
            simp only
            omega
      simpa [recordsFrom] using ih next

end

private theorem chunksUpTo_flatten {n : Nat} {data : List UInt8} (enough : data.length ≤ n) :
    (JournalWriter.chunksUpTo n data).flatten = data := by
  induction n generalizing data with
  | zero => simpa [JournalWriter.chunksUpTo, eq_comm] using enough
  | succ n ih =>
      unfold JournalWriter.chunksUpTo
      split
      next none => simp [none]
      next => 
          have rest : (data.drop MAX_LOG_CHUNK).length ≤ n := by simp [MAX_LOG_CHUNK]; omega
          simp [ih rest]

theorem chunks_flatten (data : List UInt8) : (JournalWriter.chunks data).flatten = data := chunksUpTo_flatten (Nat.le_refl _)

private theorem mem_chunksUpTo {n : Nat} {data c : List UInt8} (mem : c ∈ JournalWriter.chunksUpTo n data) :
    c ≠ [] ∧ c.length ≤ MAX_LOG_CHUNK := by
  induction n generalizing data with
  | zero => cases mem
  | succ n ih =>
      unfold JournalWriter.chunksUpTo at mem
      split at mem
      next => cases mem
      next nonempty =>
          cases mem with
          | head =>
              have := List.length_pos_iff.mpr nonempty
              simp only [← List.length_pos_iff, List.length_take, MAX_LOG_CHUNK]
              omega
          | tail _ mem => exact ih mem

theorem mem_chunks {data c : List UInt8} (mem : c ∈ JournalWriter.chunks data) : c ≠ [] ∧ c.length ≤ MAX_LOG_CHUNK :=
  mem_chunksUpTo mem

namespace JournalWriter

theorem recordAll_eq (w : JournalWriter find) (stream : LogStream) (cs : List (List UInt8)) :
    w.recordAll stream cs =
      ({ w with
          seq := w.seq + cs.length
          bytes := w.bytes + cs.flatten.length
          hash := w.hash.map (· ++ cs.flatten) },
        framing.frames (recordsFrom stream w.seq cs)) := by
  induction cs generalizing w with
  | nil => simp [recordAll, recordsFrom]
  | cons c cs ih =>
      cases hash : w.hash <;>
        simp [recordAll, ih, record, recordsFrom, framing, hash, Nat.add_assoc, Nat.add_comm cs.length]

/-- The writer's counts and hash are those of the journal. -/
structure Writes (ends : Nat) (w : JournalWriter find) (recs : List Record) : Prop extends Journal w.cap ends recs where
  seq : w.seq = recs.length
  bytes : w.bytes = (payload recs).length
  hash : w.hash = some (payload recs)
  outBytes : w.outBytes = (payload (printed recs)).length
  spare : (notes recs).length + (SYS_ALLOWANCE - w.sysBytes) ≤ SYS_ALLOWANCE + 2 * ends
  counts : w.dropped < 2 ^ 64 ∧ w.sysDropped < 2 ^ 64

variable {ends : Nat} {w : JournalWriter find} {recs : List Record}

theorem writes_create (cap ends : Nat) : Writes ends (create cap : JournalWriter find) [] where
  toJournal := Journal.empty
  seq := rfl
  bytes := rfl
  hash := rfl
  outBytes := rfl
  spare := by simp [notes, create]
  counts := by simp [create]

theorem Writes.redact (writes : Writes ends w recs) (r : Redactor find) : Writes ends (w.setRedactor r) recs :=
  ⟨writes.toJournal, writes.seq, writes.bytes, writes.hash, writes.outBytes, writes.spare, writes.counts⟩

theorem Writes.later (writes : Writes ends w recs) : Writes (ends + 1) w recs :=
  { writes with
    toJournal := writes.toJournal.later
    spare := by have := writes.spare; omega }

section
variable (w : JournalWriter find) (stream : LogStream) (keep excess : Nat)

@[simp] theorem charge_seq : (w.charge stream keep excess).seq = w.seq := by unfold charge; split <;> rfl
@[simp] theorem charge_bytes : (w.charge stream keep excess).bytes = w.bytes := by unfold charge; split <;> rfl
@[simp] theorem charge_hash : (w.charge stream keep excess).hash = w.hash := by unfold charge; split <;> rfl
@[simp] theorem charge_cap : (w.charge stream keep excess).cap = w.cap := by unfold charge; split <;> rfl
@[simp] theorem charge_redactor : (w.charge stream keep excess).redactor = w.redactor := by unfold charge; split <;> rfl

end

/-- What an append keeps of its data. -/
def kept (w : JournalWriter find) (stream : LogStream) (data : List UInt8) (late : Option (Redactor find)) : List UInt8 :=
  (redacted late (redacted w.redactor data)).take (w.room stream)

/-- More records of a stream, within the room they are charged to. -/
theorem Writes.extend (writes : Writes ends w recs) (stream : LogStream) {cs : List (List UInt8)}
    (sized : ∀ c ∈ cs, c ≠ [] ∧ c.length ≤ MAX_LOG_CHUNK) (room : cs.flatten.length ≤ w.room stream) (excess : Nat) :
    Writes ends ((w.charge stream cs.flatten.length excess).recordAll stream cs).1 (recs ++ recordsFrom stream w.seq cs) := by
  have few : cs.length ≤ cs.flatten.length := by
    have := Journal.length_le_payload (recordsFrom stream w.seq cs) fun r mem => (sized _ (data_of_mem_recordsFrom mem)).1
    simpa using this
  have cap := writes.capped
  have spare := writes.spare
  have out := writes.outBytes
  have counts := writes.counts
  rw [recordAll_eq]
  refine ⟨⟨?_, ?_, ?_, ?_⟩, ?_, ?_, ?_, ?_, ?_, ?_⟩
  · exact writes.seq ▸ writes.numbered.extend
  · intro r mem
    cases List.mem_append.mp mem with
    | inl old => exact writes.sized r old
    | inr new => exact sized _ (data_of_mem_recordsFrom new)
  · by_cases sys : stream = .sys <;> simp [printed_recordsFrom, sys, JournalWriter.room, -List.length_flatten] at room ⊢ <;> omega
  · by_cases sys : stream = .sys <;> simp [notes_recordsFrom, sys, JournalWriter.room, -List.length_flatten] at room ⊢ <;> omega
  · simp [writes.seq]
  · simp [writes.bytes]
  · simp [writes.hash]
  · by_cases sys : stream = .sys <;> simp [charge, printed_recordsFrom, sys, out]
  · by_cases sys : stream = .sys <;>
      simp [charge, notes_recordsFrom, sys, JournalWriter.room, -List.length_flatten] at room ⊢ <;> omega
  · by_cases sys : stream = .sys <;> simp [charge, sys, Nat.mod_lt] <;> omega

theorem Writes.append (writes : Writes ends w recs) (stream : LogStream) (data : List UInt8) (late : Option (Redactor find)) :
    ∃ w' more, w.append stream data late = (w', framing.frames more) ∧ Writes ends w' (recs ++ more) ∧
      w'.cap = w.cap ∧ w'.redactor = w.redactor ∧ payload more = w.kept stream data late ∧
      ∀ r ∈ more, r.stream = stream := by
  have flat := chunks_flatten (w.kept stream data late)
  have length : min (redacted late (redacted w.redactor data)).length (w.room stream) = (w.kept stream data late).length := by
    simp [kept, Nat.min_comm]
  have same : (redacted late (redacted w.redactor data)).take (w.kept stream data late).length = w.kept stream data late := by
    rw [← length, Nat.min_comm, ← List.take_take, List.take_length, kept]
  have room : (chunks (w.kept stream data late)).flatten.length ≤ w.room stream := by
    rw [flat, ← length]
    exact Nat.min_le_right _ _
  have grown := writes.extend stream (fun c => mem_chunks) room ((redacted late (redacted w.redactor data)).length - (w.kept stream data late).length)
  rw [flat] at grown
  refine ⟨_, _, ?_, grown, ?_, ?_, ?_, ?_⟩
  · simp [JournalWriter.append, same, length, recordAll_eq]
  · simp [recordAll_eq]
  · simp [recordAll_eq]
  · simp [flat]
  · exact fun r mem => stream_of_mem_recordsFrom mem

/-! ## Closing out -/

private theorem length_utf8_nat {n : Nat} (small : n < 2 ^ 64) : (utf8 (toString n)).length ≤ 80 := by
  have digits : (Nat.toDigits 10 n).length ≤ 20 := Nat.toDigits_length 10 n 20 (by decide) (by omega)
  have each : ∀ c : Char, (String.utf8EncodeChar c).length ≤ 4 := fun c => by
    simpa using c.utf8Size_le_four
  have text : utf8 (toString n) = (Nat.toDigits 10 n).flatMap String.utf8EncodeChar := by
    rw [← utf8_ofList]; rfl
  have sum : ((Nat.toDigits 10 n).flatMap String.utf8EncodeChar).length ≤ 4 * (Nat.toDigits 10 n).length := by
    generalize Nat.toDigits 10 n = cs
    induction cs with
    | nil => simp
    | cons c cs ih => have := each c; simp only [List.flatMap_cons, List.length_append, List.length_cons]; omega
  rw [text]
  omega

theorem markers_sized {w : JournalWriter find} (cap : w.dropped ≠ 0 → w.cap < 2 ^ 64) (counts : w.dropped < 2 ^ 64 ∧ w.sysDropped < 2 ^ 64) :
    ∀ c ∈ w.markers, c ≠ [] ∧ c.length ≤ MAX_LOG_CHUNK := by
  have capLen : w.capMarker.length = 27 + (utf8 (toString w.cap)).length + 8 + (utf8 (toString w.dropped)).length + 15 := by
    simp only [capMarker, utf8_append, List.length_append]
    rfl
  have sysLen : w.sysMarker.length = 26 + (utf8 (toString (SYS_ALLOWANCE / 1024))).length + 13 + (utf8 (toString w.sysDropped)).length + 8 := by
    simp only [sysMarker, utf8_append, List.length_append]
    rfl
  have dropped := length_utf8_nat counts.1
  have sysDropped := length_utf8_nat counts.2
  have allowance := length_utf8_nat (n := SYS_ALLOWANCE / 1024) (by decide)
  intro c mem
  rw [← List.length_pos_iff]
  simp only [markers, List.mem_append, MAX_LOG_CHUNK] at mem ⊢
  cases mem with
  | inl mem =>
      split at mem
      next some =>
          have capDigits := length_utf8_nat (cap (Nat.pos_iff_ne_zero.mp some))
          obtain rfl := List.mem_singleton.mp mem
          omega
      next => cases mem
  | inr mem => split at mem <;> simp at mem; subst mem; omega

theorem length_markers_le (w : JournalWriter find) : w.markers.length ≤ 2 := by
  unfold markers
  split <;> split <;> simp

/-- After `finish` the journal holds the markers too, and the receipt speaks of all of it. -/
theorem Writes.finish (writes : Writes ends w recs) (cap : w.dropped ≠ 0 → w.cap < 2 ^ 64)
    (sha256Hex : List UInt8 → String) :
    ∃ w' more fin, w.finish sha256Hex = (w', framing.frames more, fin) ∧ Journal w.cap (ends + 1) (recs ++ more) ∧
      w'.seq = (recs ++ more).length ∧ printed more = [] ∧
      fin.sha256 = sha256Hex (payload (recs ++ more)) ∧ fin.bytes = (payload (recs ++ more)).length ∧
      (fin.truncated ↔ w.dropped ≠ 0 ∨ w.sysDropped ≠ 0) := by
  have sized := markers_sized cap writes.counts
  have few := length_markers_le w
  have call : ∃ w' fin, w.finish sha256Hex = (w', framing.frames (recordsFrom .sys w.seq w.markers), fin) ∧
      w'.seq = w.seq + w.markers.length ∧ fin = ⟨sha256Hex (payload recs ++ w.markers.flatten), w.bytes + w.markers.flatten.length,
        decide (w.dropped > 0 ∨ w.sysDropped > 0)⟩ := by
    simp [JournalWriter.finish, recordAll_eq, writes.hash]
  obtain ⟨w', fin, call, seq, rfl⟩ := call
  refine ⟨w', recordsFrom .sys w.seq w.markers, _, call, ⟨?_, ?_, ?_, ?_⟩, ?_, ?_, ?_, ?_, ?_⟩
  · exact writes.seq ▸ writes.numbered.extend
  · intro r mem
    cases List.mem_append.mp mem with
    | inl old => exact writes.sized r old
    | inr new => exact sized _ (data_of_mem_recordsFrom new)
  · simpa [printed_recordsFrom] using writes.capped
  · have := writes.few
    simp [notes_recordsFrom]
    omega
  · simp [seq, writes.seq]
  · simp [printed_recordsFrom]
  · simp
  · simp [writes.bytes]
  · simp [Nat.pos_iff_ne_zero]

/-! ## Opening again -/

theorem foldl_recount (recs : List Record) (w : JournalWriter find) :
    recs.foldl recount w =
      { w with
        seq := recs.foldl (fun _ r => r.seq) w.seq
        bytes := w.bytes + (payload recs).length
        outBytes := w.outBytes + (payload (printed recs)).length
        sysBytes := w.sysBytes + (payload (notes recs)).length
        hash := w.hash.map (· ++ payload recs) } := by
  induction recs generalizing w with
  | nil => simp [printed, notes]
  | cons r recs ih =>
      cases stream : r.stream <;> cases hash : w.hash <;>
        simp [ih, recount, stream, hash, payload, printed, notes, Nat.add_assoc]

theorem foldl_seq {recs : List Record} (numbered : Numbered recs) (n : Nat) (none : recs = [] → n = 0) :
    recs.foldl (fun _ r => r.seq) n = recs.length := by
  induction recs using List.reverseRecOn with
  | nil => simpa using none rfl
  | append_singleton recs r => simpa using numbered recs.length r (by simp)

private theorem reopenLoop_eq {file : List UInt8} {recs : List Record} (holds : framing.Holds file recs) (numbered : Numbered recs)
    {r : JournalReader} (placed : r.Placed recs) (fuel : Nat) (enough : recs.length - r.lastSeq < fuel) (w : JournalWriter find) :
    ∃ r', reopenLoop file fuel r w = .ok (r', (recs.drop r.lastSeq).foldl recount w) ∧
      r'.offset = (framing.frames recs).length := by
  induction fuel generalizing r w with
  | zero => omega
  | succ fuel ih =>
      obtain ⟨r', read, placed', lastSeq, whole⟩ := JournalReader.readMore_placed holds numbered placed 256
      rw [reopenLoop, read]
      cases taken : (recs.drop r.lastSeq).take 256 with
      | nil =>
          have none : recs.drop r.lastSeq = [] := by simpa using taken
          have past : recs.length ≤ r.lastSeq := List.drop_eq_nil_iff.mp none
          exact ⟨r', by simp [none], whole (by omega)⟩
      | cons first more =>
          have nonempty : r.lastSeq < r'.lastSeq := by simp [lastSeq, taken]
          obtain ⟨r'', loop, ending⟩ := ih placed' (by have := placed'.last_le; omega) ((first :: more).foldl recount w)
          have parts : recs.drop r.lastSeq = (first :: more) ++ recs.drop r'.lastSeq := by
            rw [lastSeq, ← List.drop_drop, ← taken]
            exact List.prefix_append_drop (List.take_prefix _ _)
          exact ⟨r'', by simp only [loop, parts, List.foldl_append], ending⟩

/-- Reopening finds every whole record, cuts the torn one off and carries on. -/
theorem writes_reopen {file : List UInt8} {recs : List Record} {cap ends : Nat} (holds : framing.Holds file recs)
    (journal : Journal cap ends recs) :
    ∃ w : JournalWriter find, reopen file cap = .ok (w, framing.frames recs) ∧ Writes ends w recs ∧ w.cap = cap := by
  have size : recs.length ≤ file.length := by
    obtain ⟨-, torn, rfl, -⟩ := holds
    have := Framing.length_le_frames (f := framing) recs
    simp
    omega
  obtain ⟨r, loop, offset⟩ := reopenLoop_eq holds journal.numbered (JournalReader.Placed.start (Nat.zero_le _))
    (file.length + 1) (by simp [JournalReader.new, JournalReader.skipTo]; omega) (create cap : JournalWriter find)
  have front : file.take (framing.frames recs).length = framing.frames recs := by
    obtain ⟨-, torn, rfl, -⟩ := holds
    exact List.take_left' rfl
  have all : recs.drop (JournalReader.new.skipTo 0).lastSeq = recs := rfl
  have start : JournalReader.new.skipTo 0 = .new := rfl
  have opened : reopen file cap = .ok (recs.foldl recount (create cap : JournalWriter find), framing.frames recs) := by
    rw [all, start] at loop
    simp [reopen, loop, offset, front, bind, Except.bind, pure, Except.pure]
  have spare : (notes recs).length + (SYS_ALLOWANCE - (payload (notes recs)).length) ≤ SYS_ALLOWANCE + 2 * ends := by
    have := journal.few
    have := Journal.length_le_payload (notes recs) fun r mem => (journal.sized r (List.mem_filter.mp mem).1).1
    omega
  refine ⟨_, opened, ⟨?_, ?_, ?_, ?_, ?_, ?_, ?_⟩, by simp [foldl_recount, create]⟩
  · simpa [foldl_recount, create] using journal
  · simpa [foldl_recount, create] using foldl_seq journal.numbered 0 fun _ => rfl
  all_goals simp [foldl_recount, create, spare]

/-! ## One run of a writer -/

/-- What one append is given: its stream, its data, and what the late redactor holds. -/
abbrev Call (find : FindIter) := LogStream × List UInt8 × Option (Redactor find)

def appendAll (w : JournalWriter find) : List (Call find) → JournalWriter find × List UInt8
  | [] => (w, [])
  | (stream, data, late) :: rest =>
      let (w, first) := w.append stream data late
      let (w, more) := w.appendAll rest
      (w, first ++ more)

/-- What the calls print, redacted: the job's own output, or the node's lines. -/
def said (redactor : Option (Redactor find)) (sys : Bool) (calls : List (Call find)) : List UInt8 :=
  calls.flatMap fun (stream, data, late) => if sys = decide (stream = .sys) then redacted late (redacted redactor data) else []

/-- The writer keeps the first bytes of what was said, and counts the rest. -/
structure Fills (w : JournalWriter find) (recs : List Record) (out sys : List UInt8) : Prop where
  writes : Writes 0 w recs
  printed : payload (printed recs) = out.take w.cap
  notes : payload (notes recs) = sys.take SYS_ALLOWANCE
  sysBytes : w.sysBytes = (sys.take SYS_ALLOWANCE).length
  dropped : w.dropped = out.length - w.cap
  sysDropped : w.sysDropped = sys.length - SYS_ALLOWANCE

theorem fills_create (cap : Nat) : Fills (create cap : JournalWriter find) [] [] [] where
  writes := writes_create cap 0
  printed := by simp [JobLog.printed]
  notes := by simp [JobLog.notes]
  sysBytes := by simp [create]
  dropped := by simp [create]
  sysDropped := by simp [create]

theorem append_counts (w : JournalWriter find) (stream : LogStream) (data : List UInt8) (late : Option (Redactor find)) :
    let excess := (redacted late (redacted w.redactor data)).length - min (redacted late (redacted w.redactor data)).length (w.room stream)
    (w.append stream data late).1.sysBytes =
        w.sysBytes + (if stream = .sys then min (redacted late (redacted w.redactor data)).length (w.room stream) else 0) ∧
      (w.append stream data late).1.dropped = (if stream = .sys then w.dropped else (w.dropped + excess) % 2 ^ 64) ∧
      (w.append stream data late).1.sysDropped = (if stream = .sys then (w.sysDropped + excess) % 2 ^ 64 else w.sysDropped) := by
  by_cases sys : stream = .sys <;> simp [JournalWriter.append, recordAll_eq, charge, sys]

private theorem payload_of_stream {more : List Record} {stream : LogStream} (streams : ∀ r ∈ more, r.stream = stream) :
    payload (printed more) = (if stream = .sys then [] else payload more) ∧ payload (notes more) = if stream = .sys then payload more else [] := by
  by_cases sys : stream = .sys
  · have none : printed more = [] := by simpa [printed, List.filter_eq_nil_iff, ← sys] using streams
    have all : notes more = more := by simpa [notes, List.filter_eq_self, ← sys] using streams
    simp [sys, none, all]
  · have none : notes more = [] := by
      simp only [notes, List.filter_eq_nil_iff, decide_eq_true_eq]
      exact fun r mem => streams r mem ▸ sys
    have all : printed more = more := by
      simp only [printed, List.filter_eq_self, decide_eq_true_eq]
      exact fun r mem => streams r mem ▸ sys
    simp [sys, none, all]

theorem Fills.append {out sys : List UInt8} (fills : Fills w recs out sys) (stream : LogStream) (data : List UInt8) (late : Option (Redactor find))
    (short : out.length + sys.length + (redacted late (redacted w.redactor data)).length < 2 ^ 64) :
    ∃ w' more, w.append stream data late = (w', framing.frames more) ∧ w'.redactor = w.redactor ∧ w'.cap = w.cap ∧
      Fills w' (recs ++ more) (out ++ if stream = .sys then [] else redacted late (redacted w.redactor data))
        (sys ++ if stream = .sys then redacted late (redacted w.redactor data) else []) := by
  obtain ⟨w', more, call, writes, cap, redactor, payloadEq, streams⟩ := fills.writes.append stream data late
  obtain ⟨sysBytes, dropped, sysDropped⟩ := w.append_counts stream data late
  obtain ⟨ofOut, ofSys⟩ := payload_of_stream streams
  have outBytes : w.outBytes = min w.cap out.length := by
    rw [fills.writes.outBytes, fills.printed, List.length_take]
  have noted : w.sysBytes = min SYS_ALLOWANCE sys.length := by rw [fills.sysBytes, List.length_take]
  simp only [call] at sysBytes dropped sysDropped
  refine ⟨w', more, call, redactor, cap, writes, ?_, ?_, ?_, ?_, ?_⟩
  · by_cases own : stream = .sys
    · simp [ofOut, own, cap, fills.printed]
    · have room : w.cap - min w.cap out.length = w.cap - out.length := by omega
      simp [ofOut, own, cap, fills.printed, payloadEq, kept, JournalWriter.room, outBytes, room, List.take_append]
  · by_cases own : stream = .sys
    · have room : SYS_ALLOWANCE - min SYS_ALLOWANCE sys.length = SYS_ALLOWANCE - sys.length := by omega
      simp [ofSys, own, fills.notes, payloadEq, kept, JournalWriter.room, noted, room, List.take_append]
    · simp [ofSys, own, fills.notes]
  · by_cases own : stream = .sys
    · simp [sysBytes, own, noted, JournalWriter.room]; omega
    · simp [sysBytes, own, noted]
  · have was := fills.dropped
    by_cases own : stream = .sys
    · simp [dropped, own, was, cap]
    · simp only [dropped, own, was, cap, JournalWriter.room, outBytes, if_false, List.length_append]
      rw [Nat.mod_eq_of_lt (by omega)]
      omega
  · have was := fills.sysDropped
    by_cases own : stream = .sys
    · simp only [sysDropped, own, was, JournalWriter.room, noted, if_true, List.length_append]
      rw [Nat.mod_eq_of_lt (by omega)]
      omega
    · simp [sysDropped, own, was]

theorem Fills.appendAll {out sys : List UInt8} (fills : Fills w recs out sys) (calls : List (Call find))
    (short : (out ++ said w.redactor false calls).length + (sys ++ said w.redactor true calls).length < 2 ^ 64) :
    ∃ w' more, w.appendAll calls = (w', framing.frames more) ∧ w'.cap = w.cap ∧
      Fills w' (recs ++ more) (out ++ said w.redactor false calls) (sys ++ said w.redactor true calls) := by
  induction calls generalizing w recs out sys with
  | nil => exact ⟨w, [], rfl, rfl, by simpa [said] using fills⟩
  | cons call calls ih =>
      obtain ⟨stream, data, late⟩ := call
      have head : ∀ b, said w.redactor b ((stream, data, late) :: calls) =
          (if b = decide (stream = .sys) then redacted late (redacted w.redactor data) else []) ++ said w.redactor b calls := fun b => by
        simp [said]
      have outs : (if false = decide (stream = .sys) then redacted late (redacted w.redactor data) else []) =
          if stream = .sys then [] else redacted late (redacted w.redactor data) := by
        by_cases own : stream = .sys <;> simp [own]
      have syss : (if true = decide (stream = .sys) then redacted late (redacted w.redactor data) else []) =
          if stream = .sys then redacted late (redacted w.redactor data) else [] := by
        by_cases own : stream = .sys <;> simp [own]
      simp only [head, outs, syss, ← List.append_assoc] at short ⊢
      obtain ⟨w₁, first, here, redactor, cap, fills₁⟩ := fills.append stream data late (by
        simp only [List.length_append] at short
        by_cases own : stream = .sys <;> simp [own] at short ⊢ <;> omega)
      obtain ⟨w', more, rest, cap', fills'⟩ := ih fills₁ (by rw [redactor]; exact short)
      refine ⟨w', first ++ more, by simp [JournalWriter.appendAll, here, rest], cap'.trans cap, ?_⟩
      rw [redactor] at fills'
      rwa [← List.append_assoc]

/-- Whatever a job prints and the node notes, the journal keeps the first bytes of each, redacted, up
    to its cap; it says so when it dropped any, and its receipt speaks of all it holds. -/
theorem journal_keeps_the_first_bytes (sha256Hex : List UInt8 → String) (cap : Nat) (redactor : Option (Redactor find)) (calls : List (Call find))
    (short : (said redactor false calls).length + (said redactor true calls).length < 2 ^ 64) :
    let written := ({ (create cap : JournalWriter find) with redactor := redactor }).appendAll calls
    let finished := written.1.finish sha256Hex
    ∃ recs, written.2 ++ finished.2.1 = framing.frames recs ∧ Numbered recs ∧
      payload (printed recs) = (said redactor false calls).take cap ∧
      (said redactor true calls).take SYS_ALLOWANCE <+: payload (notes recs) ∧
      finished.2.2.sha256 = sha256Hex (payload recs) ∧ finished.2.2.bytes = (payload recs).length ∧
      (finished.2.2.truncated ↔ cap < (said redactor false calls).length ∨ SYS_ALLOWANCE < (said redactor true calls).length) := by
  intro written finished
  have start : Fills ({ (create cap : JournalWriter find) with redactor := redactor }) [] [] [] := by
    obtain ⟨writes, printed, notes, sysBytes, dropped, sysDropped⟩ := (fills_create cap : Fills (create cap : JournalWriter find) [] [] [])
    exact ⟨⟨writes.toJournal, writes.seq, writes.bytes, writes.hash, writes.outBytes, writes.spare, writes.counts⟩, printed, notes, sysBytes,
      dropped, sysDropped⟩
  obtain ⟨w, recs, wrote, sameCap, fills⟩ := start.appendAll calls (by simpa using short)
  have capped : w.cap = cap := sameCap
  have cut : w.dropped = (said redactor false calls).length - cap := by simpa [capped] using fills.dropped
  obtain ⟨w', more, log, ended, journal, -, noPrint, sha256, bytes, truncated⟩ := fills.writes.finish (by omega) sha256Hex
  have wrote' : written = (w, framing.frames recs) := wrote
  have first : written.1 = w := congrArg Prod.fst wrote'
  have ended' : finished = (w', framing.frames more, log) := by simp only [finished, first, ended]
  refine ⟨recs ++ more, by simp [wrote', ended'], journal.numbered, ?_, ?_, ?_, ?_, ?_⟩
  · have kept := fills.printed
    simpa [noPrint, capped] using kept
  · have kept := fills.notes
    simp only [List.nil_append] at kept
    simp [← kept]
  · simpa [ended'] using sha256
  · simpa [ended'] using bytes
  · have sysDropped := fills.sysDropped
    simp only [List.nil_append] at sysDropped
    simp only [ended', truncated, cut, sysDropped]
    omega

theorem journal_keeps_the_first_bytes_two :
    let written := (create 2 : JournalWriter fun _ _ => []).appendAll [(.out, [104, 105, 33], none), (.sys, [10], none)]
    let finished := written.1.finish fun _ => ""
    ∃ recs, written.2 ++ finished.2.1 = framing.frames recs ∧ payload (printed recs) = [104, 105] ∧ finished.2.2.truncated = true := by
  obtain ⟨recs, frames, -, printed, -, -, -, truncated⟩ := journal_keeps_the_first_bytes (fun _ => "") 2 none
    ([(.out, [104, 105, 33], none), (.sys, [10], none)] : List (Call fun _ _ => [])) (by decide)
  exact ⟨recs, frames, printed, truncated.mpr (.inl (by decide))⟩

end JournalWriter

end K2.JobLog
