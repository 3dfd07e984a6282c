import K2.GardenData.RestoreRuns
import K2.GardenData.BlobStore
import K2.Text

/-! # Snapshots

A snapshot is a file of the keys of a set at one rev, with the set's prefixes and
what it leaves out. The file is read back by the restore, which covers what the file
says it saved, less the skips of its own day.
-/

namespace K2.GardenData

def snapshotFormat : String := "k2-store-snapshot"
def snapshotVersion : Nat := 2

/-! ## A document -/

def jsonStrings (names : List String) : Value := .array (names.map .string)

/-- `serde_json::to_vec`. -/
def toVec (v : Value) : List UInt8 := utf8 (String.ofList v.render)

/-- `serde_json::from_slice`. -/
def Backend.fromSlice (b : Backend) (bytes : List UInt8) : Except String Value :=
  match fromUtf8 bytes with
  | some text => b.fromStr text
  | none => .error "invalid unicode code point"

/-- `Value::get`. -/
def member (v : Value) (name : String) : Option Value := v.asObject.bind (·.get name)

def asArray : Value → Option (List Value)
  | .array items => some items
  | _ => none

mutual
/-- How many arrays and objects are inside one another. -/
def nesting : Value → Nat
  | .array items => nestingItems items + 1
  | .object members => nestingMembers members + 1
  | _ => 0

def nestingItems : List Value → Nat
  | [] => 0
  | v :: rest => max (nesting v) (nestingItems rest)

def nestingMembers : List (String × Value) → Nat
  | [] => 0
  | (_, v) :: rest => max (nesting v) (nestingMembers rest)
end

/-- What serde_json reads without a deeper stack: it counts 128 levels down to
    zero. -/
def maxNesting : Nat := 127

/-- A document that nests too deep is not read. -/
def Backend.RefusesDeep (b : Backend) (v : Value) : Prop :=
  maxNesting < nesting v → ∃ e, b.fromStr (String.ofList v.render) = .error e

/-! ## Saving -/

/-- The live rows of a space, in the order of their keys. -/
def Store.liveRows (s : Store) (space : Space) : List EntryRow :=
  (s.entries.rows.filter fun e => e.space = space && !e.deleted).insertionSort (·.key ≤ ·.key)

/-- The covered rows with their values. `canRead`: a covered key outside the caller's
    rights refuses the whole. -/
def saveItems (b : Backend) (set : KeySet) (canRead : String → Bool) :
    List EntryRow → Except DataError (List (String × Value))
  | [] => .ok []
  | e :: rest =>
      if !set.contains e.key then saveItems b set canRead rest
      else if !canRead e.key then .error (.notGranted none)
      else do
        let value ← b.parseValue e.value
        let items ← saveItems b set canRead rest
        .ok ((e.key, value) :: items)

def itemJson (item : String × Value) : Value := .object [("key", .string item.1), ("value", item.2)]

/-- The document of a snapshot. -/
def snapshotJson (space : Space) (set : KeySet) (rev now : Int) (label : Option String)
    (items : List (String × Value)) : Value :=
  .object [("at", .number (.int now)), ("except", jsonStrings set.excepts), ("format", .string snapshotFormat),
    ("items", .array (items.map itemJson)), ("label", (label.map Value.string).getD .null),
    ("prefixes", jsonStrings set.prefixes), ("rev", .number (.int rev)),
    ("v", .number (.int snapshotVersion)), ("widget", .string space.widget)]

section Save

variable (b : Backend) (s : Store) (space : Space) (set : KeySet) (label : Option String) (canRead : String → Bool)
  (now : Int)

/-- The saved keys' document, and how many keys it has. -/
def Store.saved : Except DataError (Value × Nat) :=
  if !space.isData then .error (.badRequest "only a widget's shared data (data:) has snapshots")
  else do
    let items ← saveItems b set canRead (s.liveRows space)
    .ok (snapshotJson space set (s.headRev space) now label items, items.length)

/-- `store.snapshot`'s file, its rev, and the number of its keys. -/
def Store.snapshotDoc : Except DataError (List UInt8 × Int × Nat) := do
  let (doc, n) ← s.saved b space set label canRead now
  let bytes := toVec doc
  if bytes.length > maxBlobBytes then .error (.tooLarge
    s!"a snapshot is at most {maxBlobBytes / (1024 * 1024)} MiB; these keys are {bytes.length} bytes (snapshot fewer prefixes)")
  else .ok (bytes, s.headRev space, n)

end Save

/-! ## Reading -/

def notSnapshot (why : String) : DataError := .badRequest s!"that ref isn't a store snapshot ({why})"

def readStrings (v : Value) (name : String) : Except DataError (List String) := do
  let items ← okOr ((member v name).bind asArray) (notSnapshot name)
  items.mapM fun p => okOr p.asStr (notSnapshot name)

def readItem (items : FinMap String Value) (item : Value) : Except DataError (FinMap String Value) := do
  let key ← okOr ((member item "key").bind Value.asStr) (notSnapshot "an item has no key")
  validateKey key
  let value ← okOr (member item "value") (notSnapshot "an item has no value")
  .ok (items.insert key value)

/-- What a read document says it saved. -/
def readSnapshot (hash : String) (space : Space) (v : Value) : Except DataError SnapshotDoc :=
  if (member v "format").bind Value.asStr ≠ some snapshotFormat then
    .error (notSnapshot "no k2-store-snapshot format")
  else if (member v "v").bind Value.asU64 ≠ some snapshotVersion then .error (notSnapshot "an unknown version")
  else do
    let widget ← okOr ((member v "widget").bind Value.asStr) (notSnapshot "no widget")
    if widget ≠ space.widget then
      .error (.badRequest s!"that snapshot is {widget}'s data, not {space.widget}'s")
    else do
      let prefixes ← readStrings v "prefixes"
      let excepts ← readStrings v "except"
      let rev ← okOr ((member v "rev").bind Value.asI64) (notSnapshot "no rev")
      let listed ← okOr ((member v "items").bind asArray) (notSnapshot "no items")
      let items ← listed.foldlM readItem .empty
      .ok ⟨hash, prefixes, excepts, rev, items⟩

/-- Read a snapshot's file; a file that isn't one, or is another widget's, is
    refused. -/
def parseSnapshot (b : Backend) (hash : String) (bytes : List UInt8) (space : Space) : Except DataError SnapshotDoc :=
  match b.fromSlice bytes with
  | .ok v => readSnapshot hash space v
  | .error _ => .error (notSnapshot "not JSON")

end K2.GardenData
