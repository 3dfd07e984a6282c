import K2.Devices
import K2.Homes.Item
import Mathlib.Data.List.Sort

/-! # The Homes store

The tables `homes_items` and `homes_people` (and the device registry), and the
two operations on them: a push merges a batch of items, a pull answers what
changed since a cursor.
-/

namespace K2.Homes

/-- A row of `homes_items`. -/
structure Row where
  person : String
  item : Item
  seq : Int
  deriving Repr, DecidableEq

def Row.key (r : Row) : String × ItemKey := (r.person, r.item.key)

abbrev Items := KeyedTable Row.key

structure Store where
  items : Items
  people : People
  devices : Devices

def Store.empty : Store := ⟨.empty, .empty, .empty⟩

def getItem (items : Items) (person : String) (key : ItemKey) : Option Item :=
  (items.get (person, key)).map (·.item)

def Row.liveOf (person : String) (r : Row) : Bool := r.person == person && !r.item.deleted

/-- Is `r` a live Home of the person? -/
def Row.liveHomeOf (person : String) (r : Row) : Bool := r.liveOf person && r.item.kind == .home

def liveHomeCountExcept (items : Items) (person exceptId : String) : Nat :=
  items.count fun r => r.liveHomeOf person && r.item.homeId != exceptId

/-! ## Pull -/

structure Pull where
  cursor : Int
  /-- `changes` is the whole live set: the client replaces. -/
  full : Bool
  changes : List Item
  /-- Every merged-away Home id and the Home it went into. -/
  redirects : List (String × String)

/-- `ORDER BY kind, home_id, ord, address`. -/
def Row.shownBefore (a b : Row) : Bool :=
  toLex (a.item.kind.asStr, toLex (a.item.homeId, toLex (a.item.order, a.item.address))) ≤
    toLex (b.item.kind.asStr, toLex (b.item.homeId, toLex (b.item.order, b.item.address)))

/-- `ORDER BY seq, kind, home_id, address`. -/
def Row.changedBefore (a b : Row) : Bool :=
  toLex (a.seq, toLex (a.item.kind.asStr, toLex (a.item.homeId, a.item.address))) ≤
    toLex (b.seq, toLex (b.item.kind.asStr, toLex (b.item.homeId, b.item.address)))

/-- Where a merged-away Home of the person went. -/
def Row.redirect (person : String) (r : Row) : Option (String × String) :=
  if r.person == person && r.item.kind == .home && r.item.deleted then
    r.item.mergedInto.map fun m => (r.item.homeId, m)
  else none

/-- A person's changes since `since`; none asks for everything live. -/
def pull (db : Store) (person : String) (since : Option Int) (deviceId : Option String)
    (nowMs : Int) : Store × Pull :=
  let (seq, floor) := personSeq db.people person
  let full := match since with
    | none => true
    | some s => s < floor || s > seq || s < 0
  let rows := if full then
      (db.items.rows.filter (Row.liveOf person)).insertionSort fun a b => a.shownBefore b
    else (db.items.rows.filter fun r => r.person == person && r.seq > since.getD 0).insertionSort
      fun a b => a.changedBefore b
  let redirects := (db.items.rows.filterMap (Row.redirect person)).insertionSort fun a b => a.1 ≤ b.1
  let devices := match deviceId with
    | some d => touchDevice db.devices person d nowMs
    | none => db.devices
  ({ db with devices }, ⟨seq, full, rows.map (·.item), redirects⟩)

/-! ## Push -/

structure Rejected where
  item : Value
  reason : Reason

structure PushResult where
  cursor : Int
  /-- Items written (newer than what the server held). -/
  applied : Nat
  /-- Items the server already had a newer (or equal) version of. -/
  superseded : Nat
  rejected : List Rejected

/-- Where the merge loop of a push stands. -/
structure Batch where
  items : Items
  applied : Nat
  superseded : Nat
  rejected : List Rejected

/-- A tombstone keeps the last known name, label and order for context. -/
def Item.keepKnown (i : Item) (existing : Option Item) : Item :=
  match existing with
  | none => i
  | some ex =>
      if i.deleted then
        { i with
          name := if i.name.isNone then ex.name else i.name
          label := if i.kind == .row && (i.label.getD "").isEmpty then ex.label else i.label
          order := if i.order.isEmpty then ex.order else i.order }
      else i

/-- Merge one item of the batch, stamped `next` when it is written. -/
def Batch.take (person : String) (next : Int) (b : Batch) (i : Item) : Batch :=
  let existing := getItem b.items person i.key
  if existing.any fun ex => !i.beats ex then { b with superseded := b.superseded + 1 }
  else if i.kind == .home && i.deleted && existing.any (!·.deleted) &&
      liveHomeCountExcept b.items person i.homeId == 0 then
    { b with rejected := b.rejected ++ [⟨i.toJson, .lastHome⟩] }
  else
    { b with items := b.items.upsert ⟨person, i.keepKnown existing, next⟩, applied := b.applied + 1 }

/-- Is `r` a tombstone of the person, not a redirect, older than `cutoff`? -/
def Row.purged (person : String) (cutoff : Int) (r : Row) : Bool :=
  r.person == person && r.item.deleted && r.item.mergedInto.isNone && r.item.updatedAt < cutoff

/-- Drop old tombstones (never redirects) and raise the floor past them. -/
def collect (items : Items) (person : String) (floor nowMs : Int) : Items × Int :=
  let cutoff := nowMs - tombstoneKeepMs
  match ((items.rows.filter (Row.purged person cutoff)).map (·.seq)).max? with
  | some m => (items.deleteWhere (Row.purged person cutoff), max floor m)
  | none => (items, floor)

def parsed (deviceId : String) (changes : List Value) (nowMs : Int) : List Item :=
  changes.filterMap fun c => (parseChange c deviceId nowMs).toOption

def refused (deviceId : String) (changes : List Value) (nowMs : Int) : List Rejected :=
  changes.filterMap fun c => match parseChange c deviceId nowMs with
    | .ok _ => none
    | .error reason => some ⟨c, reason⟩

/-- Live items first, tombstones after; stable within each group. -/
def liveFirst (is : List Item) : List Item := is.filter (!·.deleted) ++ is.filter (·.deleted)

/-- The merge loop of a push, before any collection. -/
def mergeBatch (db : Store) (person deviceId : String) (changes : List Value) (nowMs : Int) : Batch :=
  (liveFirst (parsed deviceId changes nowMs)).foldl
    (Batch.take person ((personSeq db.people person).1 + 1))
    ⟨db.items, 0, 0, refused deviceId changes nowMs⟩

/-- Merge `changes` from `deviceId` into `person`'s items (one transaction). -/
def push (db : Store) (person deviceId : String) (changes : List Value) (nowMs : Int) :
    Store × PushResult :=
  let (seq, floor) := personSeq db.people person
  let next := seq + 1
  let b := mergeBatch db person deviceId changes nowMs
  let devices := touchDevice db.devices person deviceId nowMs
  if b.applied > 0 then
    let (items, floor) := collect b.items person floor nowMs
    ({ items, people := db.people.upsert ⟨person, next, floor⟩, devices },
      ⟨next, b.applied, b.superseded, b.rejected⟩)
  else
    ({ db with items := b.items, devices }, ⟨seq, b.applied, b.superseded, b.rejected⟩)

/-! ## Runs -/

/-- One call on the store. -/
inductive Call where
  | push (person deviceId : String) (changes : List Value) (nowMs : Int)
  | pull (person : String) (since : Option Int) (deviceId : Option String) (nowMs : Int)

/-- The store after a call. -/
def Call.apply (db : Store) : Call → Store
  | .push person deviceId changes nowMs => (Homes.push db person deviceId changes nowMs).1
  | .pull person since deviceId nowMs => (Homes.pull db person since deviceId nowMs).1

/-- The store after a run of calls. -/
def run (db : Store) (calls : List Call) : Store := calls.foldl Call.apply db

end K2.Homes
