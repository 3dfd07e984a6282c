import K2.Devices
import K2.Stash.Record
import Mathlib.Data.List.Sort

/-! # The stash store

The tables `stash_items` and `stash_people` (and the device registry), and the
two operations on them: a push merges a batch of records, a pull answers what
changed since a cursor.
-/

namespace K2.Stash

/-- A row of `stash_items`. -/
structure Row where
  person : String
  record : Record
  seq : Int
  deriving Repr

def Row.key (r : Row) : String × String := (r.person, r.record.id)

abbrev Items := KeyedTable Row.key

structure Store where
  items : Items
  people : People
  devices : Devices

def Store.empty : Store := ⟨.empty, .empty, .empty⟩

def getRecord (items : Items) (person id : String) : Option Record :=
  (items.get (person, id)).map (·.record)

def Row.ofPerson (person : String) (r : Row) : Bool := r.person == person

def Row.liveOf (person : String) (r : Row) : Bool := r.person == person && r.record.isLive

def Row.tombstoneOf (person : String) (r : Row) : Bool := r.person == person && !r.record.isLive

/-- A person's live record count. -/
def liveCount (items : Items) (person : String) : Nat := items.count (Row.liveOf person)

/-! ## Pull -/

structure Pull where
  cursor : Int
  /-- `changes` is the whole live set: the client replaces. -/
  full : Bool
  changes : List Record

/-- `ORDER BY seq, id`. -/
def Row.before (a b : Row) : Bool := toLex (a.seq, a.record.id) ≤ toLex (b.seq, b.record.id)

/-- A person's changes since `since`; none asks for the whole live set. -/
def pull (db : Store) (person : String) (since : Option Int) (deviceId : Option String)
    (nowMs : Int) : Store × Pull :=
  let (seq, floor) := personSeq db.people person
  let full := match since with
    | none => true
    | some s => s < floor || s > seq || s < 0
  let rows := if full then db.items.rows.filter (Row.liveOf person)
    else db.items.rows.filter fun r => r.ofPerson person && r.seq > since.getD 0
  let devices := match deviceId with
    | some d => touchDevice db.devices person d nowMs
    | none => db.devices
  ({ db with devices }, ⟨seq, full, (rows.insertionSort fun a b => a.before b).map (·.record)⟩)

/-! ## Push -/

structure Rejected where
  item : Value
  reason : Reason

structure PushResult where
  cursor : Int
  /-- Records written (newer than the store's copy). -/
  applied : Nat
  /-- Records the store already held a winning version of. -/
  superseded : Nat
  rejected : List Rejected

/-- Where the merge loop of a push stands. -/
structure Batch where
  items : Items
  live : Int
  applied : Nat
  superseded : Nat
  rejected : List Rejected

/-- Merge one record of the batch, stamped `next` when it is written. -/
def Batch.take (person : String) (next : Int) (b : Batch) (p : Record × Value) : Batch :=
  let (record, sent) := p
  let existing := getRecord b.items person record.id
  if existing.any fun ex => !record.beats ex then { b with superseded := b.superseded + 1 }
  else
    let wasLive := existing.any Record.isLive
    if record.isLive && !wasLive && b.live ≥ liveCap then
      { b with rejected := b.rejected ++ [⟨sent, .capReached⟩] }
    else
      { b with
        items := b.items.upsert ⟨person, record, next⟩
        live := match wasLive, record.isLive with
          | false, true => b.live + 1
          | true, false => b.live - 1
          | _, _ => b.live
        applied := b.applied + 1 }

/-- Is `r` a tombstone of the person older than `cutoff`? -/
def Row.agedOut (person : String) (cutoff : Int) (r : Row) : Bool :=
  r.tombstoneOf person && r.record.updatedAt < cutoff

/-- `ORDER BY updated_at, seq, id`. -/
def Row.older (a b : Row) : Bool :=
  toLex (a.record.updatedAt, toLex (a.seq, a.record.id)) ≤ toLex (b.record.updatedAt, toLex (b.seq, b.record.id))

/-- `SELECT MAX(seq)`, 0 when no row matches. -/
def maxSeq (rows : List Row) : Int := (rows.map (·.seq)).max?.getD 0

/-- The `excess` oldest tombstones. -/
def oldestTombstones (items : Items) (person : String) (excess : Nat) : List Row :=
  ((items.rows.filter (Row.tombstoneOf person)).insertionSort fun a b => a.older b).take excess

/-- Drop tombstones older than the keep time, then the oldest tombstones past
    `maxRows` stored records. Also the largest `seq` dropped: the new floor
    candidate. -/
def collectTombstones (items : Items) (person : String) (nowMs : Int) : Items × Int :=
  let cutoff := nowMs - tombstoneKeepMs
  let aged := items.rows.filter (Row.agedOut person cutoff)
  let kept := items.deleteWhere (Row.agedOut person cutoff)
  let total : Int := kept.count (Row.ofPerson person)
  if total > maxRows then
    let gone := oldestTombstones kept person (total - maxRows).toNat
    (kept.deleteWhere fun r => r.key ∈ gone.map Row.key,
      gone.foldl (fun m r => max m r.seq) (maxSeq aged))
  else (kept, maxSeq aged)

/-- The records of a push the parser accepts, each with what was sent. -/
def parsed (deviceId : String) (changes : List Value) (nowMs : Int) : List (Record × Value) :=
  changes.filterMap fun c => match parseChange c deviceId nowMs with
    | .ok r => some (r, c)
    | .error _ => none

def refused (deviceId : String) (changes : List Value) (nowMs : Int) : List Rejected :=
  changes.filterMap fun c => match parseChange c deviceId nowMs with
    | .ok _ => none
    | .error reason => some ⟨c, reason⟩

/-- Tombstones first; stable within each group (a sort by a `Bool` key). -/
def tombstonesFirst (ps : List (Record × Value)) : List (Record × Value) :=
  ps.filter (!·.1.isLive) ++ ps.filter (·.1.isLive)

/-- The merge loop of a push, before any collection. -/
def mergeBatch (db : Store) (person deviceId : String) (changes : List Value) (nowMs : Int) : Batch :=
  (tombstonesFirst (parsed deviceId changes nowMs)).foldl
    (Batch.take person ((personSeq db.people person).1 + 1))
    ⟨db.items, liveCount db.items person, 0, 0, refused deviceId changes nowMs⟩

/-- Merge `changes` from `deviceId` into `person`'s stash (one transaction). -/
def push (db : Store) (person deviceId : String) (changes : List Value) (nowMs : Int) :
    Store × PushResult :=
  let (seq, floor) := personSeq db.people person
  let next := seq + 1
  let b := mergeBatch db person deviceId changes nowMs
  let devices := touchDevice db.devices person deviceId nowMs
  if b.applied > 0 then
    let (items, dropped) := collectTombstones b.items person nowMs
    ({ items, people := db.people.upsert ⟨person, next, max floor dropped⟩, devices },
      ⟨next, b.applied, b.superseded, b.rejected⟩)
  else
    ({ db with items := b.items, devices }, ⟨seq, b.applied, b.superseded, b.rejected⟩)

/-! ## Runs -/

/-- One call on the store. -/
inductive Call where
  | push (person deviceId : String) (changes : List Value) (nowMs : Int)
  | pull (person : String) (since : Option Int) (deviceId : Option String) (nowMs : Int)

/-- The store after a call. -/
def Call.apply (db : Store) : Call → Store
  | .push person deviceId changes nowMs => (Stash.push db person deviceId changes nowMs).1
  | .pull person since deviceId nowMs => (Stash.pull db person since deviceId nowMs).1

/-- The store after a run of calls. -/
def run (db : Store) (calls : List Call) : Store := calls.foldl Call.apply db

end K2.Stash
