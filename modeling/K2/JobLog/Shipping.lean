import K2.JobLog.Copy
import K2.JobLog.Writing

/-! # Shipping a job's log

One attempt's log on its way from the node to the controller: the runner writes the
journal, crashes, and is taken over; the shipper of each session reads the journal and
sends records, the end and the receipt; sessions break and new ones resume after what
the controller last stored. Frames of a session arrive in order, or not at all.
-/

namespace K2.JobLog

open Redact

variable {find : FindIter}

inductive Frame where
  | log (seq : Nat) (stream : LogStream) (data : List UInt8)
  /-- The attempt's terminal `state` frame. -/
  | ended (logSeq : Nat)
  | receipt (log : JournalWriter.Finish)
  /-- The attempt's row of the snapshot a session starts with. -/
  | snapshot (ended : Bool)
  deriving DecidableEq, Repr

/-- The ledger's row of the attempt. -/
structure Row where
  ended : Bool
  logSeq : Nat
  receipt : Option JournalWriter.Finish
  deriving DecidableEq, Repr

/-- One session's track of the attempt. `seen` is the row the pass under way started from,
    `batch` how many records its last read gave. -/
structure Track where
  reader : JournalReader
  sent : Bool
  seen : Option Row
  batch : Nat
  deriving DecidableEq, Repr

def track (since : Nat) : Track := ⟨JournalReader.new.skipTo since, false, none, 0⟩

/-- A session: the welcome the node has yet to take up (its resume hint, if any), the
    node's track, and the frames on their way. -/
structure Link where
  welcome : Option (Option Nat)
  track : Option Track
  wire : List Frame
  deriving DecidableEq, Repr

structure World (find : FindIter) where
  /-- The journal on the node's disk, and what its writer has yet to write of its last call. -/
  file : List UInt8
  pending : List UInt8
  writer : Option (JournalWriter find)
  /-- The journal is closed out and the end not recorded yet. -/
  closing : Option (Nat × JournalWriter.Finish)
  row : Row
  links : List Link
  /-- The controller's side. -/
  copy : Copy
  closed : Bool
  receipt : Option JournalWriter.Finish

inductive Event (find : FindIter) where
  | create
  | reopen
  | redact (r : Redactor find)
  | append (stream : LogStream) (data : List UInt8) (late : Option (Redactor find))
  /-- The disk takes so many bytes more. -/
  | flush (n : Nat)
  | finish
  | record
  /-- The runner dies with k2-node. -/
  | crash
  /-- A restart ends the attempt without its runner. -/
  | interrupt
  | welcome
  /-- The controller assigns the attempt in a session already up. -/
  | assigned
  | attach (i : Nat)
  /-- A pass of the shipper reads the row, then the journal, and concludes. -/
  | look (i : Nat)
  | read (i : Nat)
  | conclude (i : Nat) (closing : Bool)
  | deliver (i : Nat) (disk armed : Bool)
  /-- The connection breaks: `n` more frames arrive. -/
  | cut (i n : Nat)
  /-- The controller restarts. -/
  | restart

namespace World

def start : World find where
  file := []
  pending := []
  writer := none
  closing := none
  row := ⟨false, 0, none⟩
  links := []
  copy := .empty
  closed := false
  receipt := none

def updateLink (w : World find) (i : Nat) (f : Link → Link) : World find := { w with links := w.links.modify i f }

/-- Nobody writes the journal, and the attempt has not ended. -/
def idle (w : World find) : Bool := w.writer.isNone && w.closing.isNone && !w.row.ended

/-- The node's side of a session is gone. -/
def dropped (l : Link) : Link := { l with welcome := none, track := none }

/-- `run_session`: the tracks of a new session, then the snapshot. -/
def attach (row : Row) (l : Link) : Link :=
  match l.welcome with
  | none => l
  | some hint =>
      let track := match hint with
        | some since => some (track since)
        | none => if row.ended then none else some (track 0)
      { welcome := none, track := track, wire := l.wire ++ [.snapshot row.ended] }

/-- `ship_pass` takes the track's row. -/
def look (row : Row) (l : Link) : Link :=
  { l with track := l.track.map fun t => { t with seen := some row, batch := 32 } }

/-- One `read_more(32)` of a pass: the records are sent. -/
def read (file : List UInt8) (l : Link) : Link :=
  match l.track with
  | none => l
  | some t =>
      if t.seen.isSome ∧ 32 ≤ t.batch then
        let (recs, reader) := match t.reader.readMore file 32 with
          | (.ok recs, reader) => (recs, reader)
          | (.error _, reader) => ([], reader)
        { l with
          track := some { t with reader := reader, batch := recs.length }
          wire := l.wire ++ recs.map fun r => .log r.seq r.stream r.data }
      else l

/-- The rest of a pass: the end, once the log is sent up to it, and the receipt. -/
def conclude (closing : Bool) (l : Link) : Link :=
  match l.track with
  | none => l
  | some t =>
      match t.seen with
      | none => l
      | some row =>
          if 32 ≤ t.batch then l
          else if row.ended then
            if t.reader.lastSeq < row.logSeq ∧ ¬ closing then { l with track := some { t with seen := none } }
            else
              let state := if t.sent then [] else [.ended row.logSeq]
              match row.receipt with
              | some receipt => { l with track := none, wire := l.wire ++ state ++ [.receipt receipt] }
              | none => { l with track := some { t with sent := true, seen := none }, wire := l.wire ++ state }
          else { l with track := some { t with seen := none } }

variable (sha256Hex : List UInt8 → String) (belt : List UInt8 → Option (List UInt8)) (cap : Nat)

/-- `on_log`. -/
def onLog (armed : Bool) (disk : Bool) (seq : Nat) (stream : LogStream) (data : List UInt8) (w : World find) : World find :=
  if data.length > MAX_LOG_CHUNK then w
  else
    let data := if armed then (belt data).getD data else data
    { w with copy := (w.copy.append seq stream data disk).2 }

/-- The controller handles one frame. -/
def handle (disk armed : Bool) (w : World find) : Frame → World find
  | .log seq stream data => onLog belt armed disk seq stream data w
  | .ended _ => { w with closed := true }
  | .receipt log => { w with receipt := some log }
  | .snapshot ended => { w with closed := w.closed || ended }

/-- The node's disk fails only with the node, and its journal can be read. -/
def next (w : World find) : Event find → World find
  | .create => if w.idle ∧ w.file = [] then { w with writer := some (.create cap) } else w
  | .reopen =>
      if w.idle then
        match JournalWriter.reopen w.file cap with
        | .ok (writer, file) => { w with writer := some writer, file := file }
        | .error _ => w
      else w
  | .redact r => { w with writer := w.writer.map (·.setRedactor r) }
  | .append stream data late =>
      match w.writer with
      | some writer =>
          let (writer, bytes) := writer.append stream data late
          { w with writer := some writer, pending := w.pending ++ bytes }
      | none => w
  | .flush n => { w with file := w.file ++ w.pending.take n, pending := w.pending.drop n }
  | .finish =>
      match w.writer with
      | some writer =>
          let (writer, bytes, log) := writer.finish sha256Hex
          { w with writer := none, pending := w.pending ++ bytes, closing := some (writer.seq, log) }
      | none => w
  | .record =>
      match w.closing with
      | some (seq, log) => if w.pending = [] then { w with closing := none, row := ⟨true, seq, some log⟩ } else w
      | none => w
  | .crash =>
      { w with
        writer := none
        closing := none
        pending := []
        links := w.links.map dropped }
  | .interrupt => if w.idle then { w with row := { w.row with ended := true } } else w
  | .welcome =>
      if w.closed then { w with links := w.links ++ [⟨some none, none, []⟩] }
      else
        let (last, copy) := w.copy.lastSeq
        { w with links := w.links ++ [⟨some (some last), none, []⟩], copy := copy }
  | .assigned => if w.closed then w else { w with links := w.links ++ [⟨none, some (track 0), []⟩] }
  | .attach i => w.updateLink i (attach w.row)
  | .look i => w.updateLink i (look w.row)
  | .read i => w.updateLink i (read w.file)
  | .conclude i closing => w.updateLink i (conclude closing)
  | .deliver i disk armed =>
      match w.links[i]?.bind (·.wire.head?) with
      | some frame => (w.updateLink i fun l => { l with wire := l.wire.tail }).handle belt disk armed frame
      | none => w
  | .cut i n => w.updateLink i fun l => { welcome := none, track := none, wire := l.wire.take n }
  | .restart => { w with copy := { w.copy with tail := none } }

end World

end K2.JobLog
