import K2.GardenData.Blobs
import K2.GardenData.Patch
import Mathlib.Algebra.Ring.Int.Defs

/-! # The Garden data store

Every write runs in one SQLite transaction: `ifRev` checks, limits, one new space
rev for the whole set of ops, one change row per op. The feed reads the entries,
each of which carries the rev that last touched it; a delete leaves a tombstone
until the reaper takes it and raises `reapedRev`.
-/

namespace K2.GardenData

/-! ## Rows -/

structure EntryRow where
  space : Space
  key : String
  rev : Int
  deleted : Bool
  /-- Canonical JSON text. -/
  value : Option String
  size : Nat
  updatedAt : Int
  updatedBy : String
  check : deleted = value.isNone
  deriving Repr, DecidableEq

theorem EntryRow.value_of_deleted {e : EntryRow} (gone : e.deleted = true) : e.value = none :=
  Option.isNone_iff_eq_none.mp (e.check.symm.trans gone)

def EntryRow.pk (e : EntryRow) : Space × String := (e.space, e.key)

structure ChangeRow where
  space : Space
  rev : Int
  key : String
  deleted : Bool
  author : String
  time : Int
  /-- The text the key had before. -/
  prev : Option String
  /-- 0: the key didn't exist; 1: it did; null: not kept any more. -/
  prevKind : Option Int
  /-- The restore that wrote it. -/
  restoreId : Option String
  deriving Repr, DecidableEq

def ChangeRow.pk (c : ChangeRow) : Space × Int × String := (c.space, c.rev, c.key)

structure SpaceRow where
  space : Space
  rev : Int
  reapedRev : Int
  bytes : Int
  keys : Int
  createdAt : Int
  updatedAt : Int
  orphanedAt : Option Int
  deriving Repr, DecidableEq

structure RestoreRow where
  id : String
  space : Space
  author : String
  time : Int
  source : String
  prefixes : String
  excepts : String
  rev : Int
  written : Nat
  deleted : Nat
  families : String
  deriving Repr, DecidableEq

/-- What marks a restore's write. -/
structure RestoreMark where
  id : String
  source : Value
  prefixes : List String
  excepts : List String
  written : Nat
  deleted : Nat
  families : List String
  deriving Repr

/-- The tables of `gardens.sqlite`. -/
structure Store where
  entries : KeyedTable EntryRow.pk
  changes : KeyedTable ChangeRow.pk
  spaces : KeyedTable SpaceRow.space
  restores : KeyedTable RestoreRow.id
  blobs : BlobTables

/-- What stands behind every call. -/
structure Backend where
  maxFileBytes : Nat
  /-- `serde_json::from_str`, or why a text isn't JSON. -/
  fromStr : String → Except String Value

/-- What a write finds: the clock and the size of the file. -/
structure Moment where
  now : Int
  fileBytes : Nat
  deriving Repr, DecidableEq

namespace Store

def empty : Store := ⟨.empty, .empty, .empty, .empty, .empty⟩

/-- A transaction: all of what it did, or nothing. -/
def commit {α : Type} (s : Store) : Except DataError (Store × α) → Store × Except DataError α
  | .ok (s', a) => (s', .ok a)
  | .error e => (s, .error e)

end Store

/-! ## Planning a write -/

/-- Canonical JSON text of a value, or `value_too_large`. -/
def canonical (v : Value) : Except DataError String :=
  let text := String.ofList v.render
  if Text.byteLen text > maxValueBytes then .error (.valueTooLarge (Text.byteLen text)) else .ok text

def Backend.parseValue (b : Backend) : Option String → Except DataError Value
  | none => .ok .null
  | some t =>
      match b.fromStr t with
      | .ok v => .ok v
      | .error e => .error (.unavailable ("a stored value is unreadable: " ++ e))

/-- A space's bytes and keys. -/
def limits (space : Space) : Int × Int :=
  if space.isData then (maxSpaceBytes, maxSpaceKeys) else (maxSaveBytes, maxSaveKeys)

/-- What one op of a write does to its key, once planned. -/
inductive Act where
  /-- Store this canonical JSON text. -/
  | write (text : String)
  /-- Tombstone the key (nothing when it's already gone). -/
  | delete
  /-- A patch op before its merge, which runs inside the write. -/
  | patch
  /-- A patch that changes nothing. -/
  | skip
  deriving Repr, DecidableEq

def Act.isDelete : Act → Bool
  | .delete => true
  | _ => false

/-- A refused value names its op in a batch. -/
def atOp (indexed : Bool) (i : Nat) (op : Op) : DataError → DataError
  | .badRequest m => .badRequest (if indexed then s!"op {i} ('{op.key}'): {m}" else m)
  | e => e

/-- An op whose shape was checked, with the refs its value names. -/
structure Shaped where
  op : Op
  act : Act
  refs : Option (List String)

/-- The refs a value to be written names, in a space that counts them. -/
def refsIn (blobsOn indexed : Bool) (i : Nat) (op : Op) (v : Value) :
    Except DataError (Option (List String)) :=
  if blobsOn then ((scanRefs v).mapError (atOp indexed i op)).map some else .ok none

/-- The shape of one op: its value's refs, its text, or its partial. -/
def shape (blobsOn indexed : Bool) (i : Nat) (op : Op) : Except DataError Shaped :=
  match op with
  | .put _ value _ => do
      let refs ← refsIn blobsOn indexed i op value
      let text ← canonical value
      .ok ⟨op, .write text, refs⟩
  | .delete .. => .ok ⟨op, .delete, none⟩
  | .patch _ value ifRev => do
      (checkPartial value ifRev).mapError (atOp indexed i op)
      .ok ⟨op, .patch, none⟩

/-- Shape first: keys, values, duplicates, patch partials. -/
def shapes (blobsOn indexed : Bool) : List String → Nat → List Op → Except DataError (List Shaped)
  | _, _, [] => .ok []
  | seen, i, op :: rest => do
      validateKey op.key
      if op.key ∈ seen then
        .error (.badRequest ("'" ++ op.key ++ "' appears twice in one write"))
      else
        let shaped ← shape blobsOn indexed i op
        let rest ← shapes blobsOn indexed (op.key :: seen) (i + 1) rest
        .ok (shaped :: rest)

/-- What a key holds: its live rev (0 when it isn't live), size and text. -/
structure Live where
  rev : Int
  size : Nat
  text : Option String
  deriving Repr, DecidableEq

def Store.live (s : Store) (space : Space) (key : String) : Live :=
  match s.entries.get (space, key) with
  | some e => if e.deleted then ⟨0, 0, none⟩ else ⟨e.rev, e.size, e.value⟩
  | none => ⟨0, 0, none⟩

/-- A planned op. -/
structure Planned where
  op : Op
  act : Act
  refs : Option (List String)
  live : Live

namespace Planned

/-- Does the op change its key? -/
def effective (p : Planned) : Bool :=
  match p.act with
  | .write _ => true
  | .delete => p.live.rev ≠ 0
  | .patch | .skip => false

/-- What it adds to the space's bytes. -/
def bytes (p : Planned) : Int :=
  match p.act with
  | .write t => Text.byteLen t - p.live.size
  | .delete => if p.live.rev ≠ 0 then -p.live.size else 0
  | .patch | .skip => 0

/-- What it adds to the space's keys. -/
def keys (p : Planned) : Int :=
  match p.act with
  | .write _ => if p.live.rev = 0 then 1 else 0
  | .delete => if p.live.rev ≠ 0 then -1 else 0
  | .patch | .skip => 0

end Planned

/-- The document a patch merges into. -/
def Backend.current (b : Backend) (live : Live) : Except DataError (Option Value) :=
  if live.rev = 0 then .ok none else (b.parseValue live.text).map some

/-- Does an op change its key? -/
def Op.changes (b : Backend) (live : Live) : Op → Bool
  | .put .. => true
  | .delete .. => live.rev ≠ 0
  | .patch key part _ =>
      match b.current live with
      | .ok current =>
          match merged key current part with
          | .ok (some _) => true
          | _ => false
      | .error _ => false

section Write

variable (b : Backend) (s : Store) (space : Space) (indexed : Bool)

/-- A patch merges into the live value inside the write. -/
def Shaped.merge (i : Nat) (live : Live) (sh : Shaped) : Except DataError Planned :=
  match sh.op with
  | .patch key part _ => do
      let current ← b.current live
      match ← (merged key current part).mapError (atOp indexed i sh.op) with
      | some doc => do
          let refs ← refsIn space.isData indexed i sh.op doc
          let text ← canonical doc
          .ok ⟨sh.op, .write text, refs, live⟩
      | none => .ok ⟨sh.op, .skip, sh.refs, live⟩
  | _ => .ok ⟨sh.op, sh.act, sh.refs, live⟩

/-- One op against the key's current state. -/
def plan (i : Nat) (sh : Shaped) : Except DataError Planned :=
  let live := s.live space sh.op.key
  match sh.op.ifRev with
  | some want =>
      if want ≠ live.rev then .error (.conflict sh.op.key live.rev (if indexed then some i else none))
      else sh.merge b space indexed i live
  | none => sh.merge b space indexed i live

def plans : Nat → List Shaped → Except DataError (List Planned)
  | _, [] => .ok []
  | i, sh :: rest => do
      let p ← plan b s space indexed i sh
      let rest ← plans (i + 1) rest
      .ok (p :: rest)

end Write

/-! ## Writing -/

section Land

variable (space : Space) (rev now : Int) (who : String) (restoreId : Option String)

def Planned.entry (p : Planned) (text : Option String) : EntryRow where
  space := space
  key := p.op.key
  rev := rev
  deleted := text.isNone
  value := text
  size := (text.map Text.byteLen).getD 0
  updatedAt := now
  updatedBy := who
  check := rfl

def Planned.change (p : Planned) (deleted : Bool) : ChangeRow where
  space := space
  rev := rev
  key := p.op.key
  deleted := deleted
  author := who
  time := now
  prev := p.live.text
  prevKind := some (if p.live.rev ≠ 0 then 1 else 0)
  restoreId := restoreId

/-- The entry, its change row and its refs of one op that changes its key. -/
def Planned.store (p : Planned) (text : Option String) (refs : List String) (s : Store) :
    Except DataError Store :=
  match s.changes.insertNew (p.change space rev now who restoreId text.isNone) with
  | none => .error (sqliteConflict "changes.space, changes.rev, changes.key")
  | some changes => .ok { s with
      entries := s.entries.upsert (p.entry space rev now who text)
      changes
      blobs := if space.isData then s.blobs.setKeyRefs space.name p.op.key refs now else s.blobs }

/-- One planned op lands. -/
def Planned.land (p : Planned) (s : Store) : Except DataError Store :=
  match p.act with
  | .write t => p.store space rev now who restoreId (some t) (p.refs.getD []) s
  | .delete => if p.live.rev ≠ 0 then p.store space rev now who restoreId none [] s else .ok s
  | .patch | .skip => .ok s

def landAll : List Planned → Store → Except DataError Store
  | [], s => .ok s
  | p :: rest, s => do
      let s ← p.land space rev now who restoreId s
      landAll rest s

end Land

/-- The refs the written values name. -/
def namedRefs (planned : List Planned) : List String :=
  sortedSet (planned.flatMap fun p =>
    match p.act with
    | .write _ => p.refs.getD []
    | _ => [])

/-- `json!(names).to_string()`. -/
def jsonNames (names : List String) : String := String.ofList (Value.array (names.map .string)).render

/-- The row of a restore. -/
def RestoreMark.row (m : RestoreMark) (space : Space) (who : String) (now rev : Int) : RestoreRow where
  id := m.id
  space := space
  author := who
  time := now
  source := String.ofList m.source.render
  prefixes := jsonNames m.prefixes
  excepts := jsonNames m.excepts
  rev := rev
  written := m.written
  deleted := m.deleted
  families := jsonNames m.families

/-- Inside a restore's write: one `restores` row. -/
def recordRestore (s : Store) (space : Space) (who : String) (now rev : Int) :
    Option RestoreMark → Except DataError Store
  | none => .ok s
  | some m =>
      match s.restores.insertNew (m.row space who now rev) with
      | some restores => .ok { s with restores }
      | none => .error (sqliteConflict "restores.id")

namespace Store

/-- The space's row after a write: a new one, or the old one with new counters. -/
def counted (s : Store) (space : Space) (rev bytes keys now : Int) : SpaceRow :=
  match s.spaces.get space with
  | some row => { row with rev, bytes, keys, updatedAt := now }
  | none => ⟨space, rev, 0, bytes, keys, now, now, none⟩

/-- A space's rev, bytes and keys; zeros before its first write. -/
def headRev (s : Store) (space : Space) : Int := ((s.spaces.get space).map (·.rev)).getD 0

def headBytes (s : Store) (space : Space) : Int := ((s.spaces.get space).map (·.bytes)).getD 0

def headKeys (s : Store) (space : Space) : Int := ((s.spaces.get space).map (·.keys)).getD 0

variable (b : Backend) (s : Store)

/-- A write's planned ops, when every check on them passes; what follows reads
    the plan. -/
def planWrite (moment : Moment) (space : Space) (ops : List Op) (indexed : Bool) :
    Except DataError (List Planned) := do
  let shaped ← shapes space.isData indexed [] 0 ops
  if shaped.any (fun sh => !sh.act.isDelete) && moment.fileBytes > b.maxFileBytes then .error .storeFull
  else plans b s space indexed 0 shaped

/-- The blob tables have seen a data space's rev. -/
def seenBlobs (space : Space) (rev : Int) : Store :=
  if space.isData then { s with blobs := s.blobs.setAuxRev space.name rev } else s

/-- The blob rows a write may name. -/
def heldBlobs (space : Space) (planned : List Planned) : Except DataError BlobTables :=
  if space.isData then s.blobs.checkHeld space.name (namedRefs planned) else .ok s.blobs

/-- The limits, then the held blobs, then everything at the new rev. -/
def landWrite (moment : Moment) (space : Space) (planned : List Planned) (who : String)
    (mark : Option RestoreMark) (rev bytes keys : Int) : Except DataError Store := do
  if bytes > (limits space).1 then .error (.spaceFull "bytes")
  else if keys > (limits space).2 then .error (.spaceFull "keys")
  else
    let blobs ← s.heldBlobs space planned
    let s' ← landAll space rev moment.now who (mark.map (·.id)) planned { s with blobs }
    let s' ← recordRestore (s'.seenBlobs space rev) space who moment.now rev mark
    .ok { s' with spaces := s'.spaces.upsert (s.counted space rev bytes keys moment.now) }

/-- The core write: answers the rev, and whether anything changed. -/
def writeWith (moment : Moment) (space : Space) (ops : List Op) (who : String) (indexed : Bool)
    (mark : Option RestoreMark) : Store × Except DataError (Int × Bool) :=
  s.commit do
    let planned ← s.planWrite b moment space ops indexed
    if !planned.any Planned.effective then .ok (s, s.headRev space, false)
    else
      let s' ← s.landWrite moment space planned who mark (s.headRev space + 1)
        (s.headBytes space + (planned.map Planned.bytes).sum)
        (s.headKeys space + (planned.map Planned.keys).sum)
      .ok (s', s.headRev space + 1, true)

def write (moment : Moment) (space : Space) (ops : List Op) (who : String) (indexed : Bool) :
    Store × Except DataError (Int × Bool) :=
  s.writeWith b moment space ops who indexed none

/-- A restore's write. -/
def writeMarked (moment : Moment) (space : Space) (ops : List Op) (who : String) (mark : RestoreMark) :
    Store × Except DataError Int :=
  match s.writeWith b moment space ops who true (some mark) with
  | (s, .ok (rev, true)) => (s, .ok rev)
  | (s, .ok (_, false)) => (s, .error (.badRequest "a restore with nothing to change"))
  | (s, .error e) => (s, .error e)

/-! ## The store's calls -/

/-- One op, one new rev. -/
def put (moment : Moment) (space : Space) (key : String) (value : Value) (ifRev : Option Int)
    (who : String) : Store × Except DataError Int :=
  let (s, answer) := s.write b moment space [.put key value ifRev] who false
  (s, answer.map (·.1))

/-- The new rev, or nothing when the key didn't exist. -/
def delete (moment : Moment) (space : Space) (key : String) (ifRev : Option Int) (who : String) :
    Store × Except DataError (Option Int) :=
  let (s, answer) := s.write b moment space [.delete key ifRev] who false
  (s, answer.map fun a => if a.2 then some a.1 else none)

/-- All or nothing, one new rev for the whole set. -/
def apply (moment : Moment) (space : Space) (ops : List Op) (who : String) : Store × Except DataError Int :=
  if ops.isEmpty then (s, .error (.badRequest "a write needs at least one op"))
  else
    let (s, answer) := s.write b moment space ops who true
    (s, answer.map (·.1))

/-- One live key. -/
structure Entry where
  key : String
  rev : Int
  value : Value
  updatedAt : Int
  author : String
  deriving Repr

def get (space : Space) (key : String) : Except DataError (Option Entry) := do
  validateKey key
  match s.entries.get (space, key) with
  | some e =>
      if e.deleted then .ok none
      else
        let value ← b.parseValue e.value
        .ok (some ⟨key, e.rev, value, e.updatedAt, e.updatedBy⟩)
  | none => .ok none

/-- Every row of a space goes; its blob rows stay under a tombstone name. -/
def dropSpace (space : Space) (now : Int) (rand : String) : Store × Except DataError Unit :=
  s.commit do
    let blobs ← s.blobs.tombstoneSpace space.name now rand
    .ok ({
      entries := s.entries.deleteWhere (·.space = space)
      changes := s.changes.deleteWhere (·.space = space)
      spaces := s.spaces.deleteWhere (·.space = space)
      restores := s.restores.deleteWhere (·.space = space)
      blobs := (blobs.deleteSpace space.name).forgetAuxRev space.name }, ())

/-- The rows of `source` to `target`, in place of its own. -/
def moveRows (source target : Space) : Except DataError Store := do
  let entries ← okOr ((s.entries.deleteWhere (·.space = target)).rekey (·.space = source)
    fun e => { e with space := target }) (sqliteConflict "entries.space, entries.key")
  let changes ← okOr ((s.changes.deleteWhere (·.space = target)).rekey (·.space = source)
    fun c => { c with space := target }) (sqliteConflict "changes.space, changes.rev, changes.key")
  let blobs ← s.blobs.moveSpace source.name target.name
  let spaces ← okOr ((s.spaces.deleteWhere (·.space = target)).rekey (·.space = source)
    fun r => { r with space := target }) (sqliteConflict "spaces.space")
  .ok {
    entries, changes
    spaces := spaces.updateWhere (·.space = target) (fun r => { r with orphanedAt := none }) fun _ => rfl
    restores := (s.restores.deleteWhere (·.space = target)).updateWhere (·.space = source)
      (fun r => { r with space := target }) fun _ => rfl
    blobs := blobs.moveAuxRev source.name target.name }

def moveSpace (source target : Space) : Store × Except DataError Unit :=
  if source.isData ≠ target.isData then
    (s, .error (.badRequest "a space moves only to a space of the same kind"))
  else s.commit <|
    if (s.spaces.get source).isNone then .error (.notFound "space_not_found")
    else if s.headKeys target > 0 then
      .error (.refused "space_exists" 409
        (target.widget ++ " already has data; delete or export it first"))
    else do
      let moved ← s.moveRows source target
      .ok (moved, ())

/-- Is it a tombstone the reaper takes? -/
def dead (now : Int) (e : EntryRow) : Bool := e.deleted && e.updatedAt < now - tombstoneKeepSecs

/-- The highest rev of a space's tombstones the reaper takes. -/
def topDead (now : Int) (space : Space) : Option Int :=
  ((s.entries.rows.filter fun e => dead now e && e.space = space).map (·.rev)).max?

/-- What one reaper pass removed. -/
structure ReapReport where
  tombstones : Nat
  logRows : Nat
  deriving Repr, DecidableEq

/-- Take the old tombstones, raising each space's `reapedRev`, and the old
    change rows. -/
def reap (now : Int) : Store × ReapReport :=
  ({ s with
      spaces := s.spaces.updateWhere (fun r => (s.topDead now r.space).isSome)
        (fun r => { r with reapedRev := max r.reapedRev ((s.topDead now r.space).getD 0) }) fun _ => rfl
      entries := s.entries.deleteWhere (dead now)
      changes := s.changes.deleteWhere (·.time < now - changeLogKeepSecs) },
    ⟨s.entries.count (dead now), s.changes.count (·.time < now - changeLogKeepSecs)⟩)

end Store

end K2.GardenData
