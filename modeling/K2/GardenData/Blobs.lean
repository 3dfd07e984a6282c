import K2.GardenData.Types
import K2.Lib.Table
import Mathlib.Data.List.Sort

/-! # Blob rows behind a write

A value names a blob by a ref. The tables of blobs move with every write of a
`data:` space: a ref must name a blob the space holds, and each key's refs are
counted.
-/

namespace K2.GardenData

def refPrefix : String := "k2blob:sha256-"
/-- Distinct refs in one value. -/
def maxRefsPerValue : Nat := 64
/-- Missing refs named in one `blob_missing`. -/
def maxMissingListed : Nat := 20
/-- A deleted space's blob rows move under this prefix. -/
def tombstonePrefix : String := "deleted:"

/-- A unique or primary key that two rows would share. -/
def sqliteConflict (columns : String) : DataError :=
  .unavailable ("Garden data store error: UNIQUE constraint failed: " ++ columns)

/-! ## Refs -/

/-- A lowercase sha256 hex string. -/
def validHash (h : List Char) : Bool :=
  h.length = 64 && h.all fun c => ('0' ≤ c && c ≤ '9') || ('a' ≤ c && c ≤ 'f')

def refOf (hash : String) : String := refPrefix ++ hash

/-- The hash in an exact ref. -/
def hashOfRef (s : String) : Option String :=
  if refPrefix.toList.isPrefixOf s.toList && validHash (s.toList.drop refPrefix.toList.length) then
    some (String.ofList (s.toList.drop refPrefix.toList.length))
  else none

mutual
/-- The refs in a value: strings that are exactly a ref, in arrays and object
    values at any depth. -/
def walkRefs : Value → List String
  | .string s => (hashOfRef s).toList
  | .array items => walkItems items
  | .object members => walkMembers members
  | _ => []

def walkItems : List Value → List String
  | [] => []
  | v :: rest => walkRefs v ++ walkItems rest

def walkMembers : List (String × Value) → List String
  | [] => []
  | (_, v) :: rest => walkRefs v ++ walkMembers rest
end

/-- A `BTreeSet` of strings: sorted, each once. -/
def sortedSet (names : List String) : List String := names.dedup.insertionSort (· ≤ ·)

/-- Every distinct ref in a value. -/
def scanRefs (v : Value) : Except DataError (List String) :=
  let refs := sortedSet (walkRefs v)
  if refs.length > maxRefsPerValue then .error (.badRequest
    s!"a value names at most {maxRefsPerValue} blobs; this one names {refs.length}")
  else .ok refs

/-! ## Tables -/

/-- Which space holds which blob, and how many live keys name it. -/
structure SpaceBlob where
  space : String
  hash : String
  size : Int
  addedAt : Int
  addedBy : String
  name : Option String
  mime : String
  refs : Int
  firstRefAt : Option Int
  unrefAt : Option Int
  deriving Repr, DecidableEq

def SpaceBlob.key (b : SpaceBlob) : String × String := (b.space, b.hash)

/-- One key's ref. -/
structure BlobRef where
  space : String
  key : String
  hash : String
  deriving Repr, DecidableEq

structure BlobTables where
  held : KeyedTable SpaceBlob.key
  refs : KeyedTable (id : BlobRef → BlobRef)
  /-- The space rev these tables last saw. -/
  auxRev : FinMap String Int

namespace BlobTables

def empty : BlobTables := ⟨.empty, .empty, .empty⟩

/-- What follows the first `:`. -/
def afterColon (cs : List Char) : Option (List Char) :=
  match cs.dropWhile (· ≠ ':') with
  | [] => none
  | _ :: rest => some rest

/-- Is `name` a tombstone of `space` (`deleted:<secs>:<rand>:<space>`)? -/
def tombstoneOf (name space : String) : Bool :=
  tombstonePrefix.toList.isPrefixOf name.toList &&
    ((afterColon (name.toList.drop tombstonePrefix.toList.length)).bind afterColon) = some space.toList

/-- Move one tombstoned row of `space` holding `hash` back to `space`. -/
def reclaim (t : BlobTables) (space hash : String) : Option BlobTables :=
  match ((t.held.rows.filter fun b => b.hash = hash).insertionSort fun a b => b.addedAt ≤ a.addedAt).find?
      fun b => tombstoneOf b.space space with
  | none => none
  | some b => (t.held.rekey (·.key = b.key) fun b => { b with space }).map fun held => { t with held }

/-- The hashes a space doesn't hold, after taking back those it held before it
    was deleted. -/
def missingOf (space : String) : BlobTables → List String → BlobTables × List String
  | t, [] => (t, [])
  | t, h :: rest =>
      if (t.held.get (space, h)).isSome then missingOf space t rest
      else match t.reclaim space h with
        | some t => missingOf space t rest
        | none => ((missingOf space t rest).1, h :: (missingOf space t rest).2)

/-- Every hash must be one this space holds. -/
def checkHeld (t : BlobTables) (space : String) (hashes : List String) : Except DataError BlobTables :=
  match missingOf space t hashes with
  | (t, []) => .ok t
  | (_, missing) => .error (.blobMissing ((missing.take maxMissingListed).map refOf))

/-- A space delete: its rows become let-go rows under a tombstone name, which
    ends in a random part. -/
def tombstoneSpace (t : BlobTables) (space : String) (now : Int) (rand : String) :
    Except DataError BlobTables :=
  let tomb := tombstonePrefix ++ toString now ++ ":" ++ rand ++ ":" ++ space
  match t.held.rekey (·.space = space) fun b => { b with
      space := tomb, refs := 0, firstRefAt := b.firstRefAt.or (some now)
      unrefAt := b.unrefAt.or (some now) } with
  | some held => .ok { t with held }
  | none => .error (sqliteConflict "space_blobs.space, space_blobs.hash")

/-- One ref less to `hash`. -/
def down (t : BlobTables) (space key hash : String) (now : Int) : BlobTables := { t with
  refs := t.refs.deleteWhere (· = ⟨space, key, hash⟩)
  held := t.held.updateWhere (·.key = (space, hash)) (fun b => { b with
    refs := max (b.refs - 1) 0, unrefAt := if b.refs - 1 ≤ 0 then some now else b.unrefAt })
    fun _ => rfl }

/-- One ref more. -/
def up (t : BlobTables) (space key hash : String) (now : Int) : BlobTables := { t with
  refs := t.refs.upsert ⟨space, key, hash⟩
  held := t.held.updateWhere (·.key = (space, hash)) (fun b => { b with
    refs := b.refs + 1, unrefAt := none, firstRefAt := b.firstRefAt.or (some now) })
    fun _ => rfl }

/-- Replace `key`'s refs with `new` and move the held counts. -/
def setKeyRefs (t : BlobTables) (space key : String) (new : List String) (now : Int) : BlobTables :=
  let old := sortedSet ((t.refs.rows.filter fun r => r.space = space && r.key = key).map (·.hash))
  let t := (old.filter (· ∉ new)).foldl (fun t h => t.down space key h now) t
  (new.filter (· ∉ old)).foldl (fun t h => t.up space key h now) t

def setAuxRev (t : BlobTables) (space : String) (rev : Int) : BlobTables :=
  { t with auxRev := FinMap.insert t.auxRev space rev }

def forgetAuxRev (t : BlobTables) (space : String) : BlobTables :=
  { t with auxRev := FinMap.erase t.auxRev space }

def moveAuxRev (t : BlobTables) (source target : String) : BlobTables :=
  let auxRev := FinMap.erase t.auxRev target
  match FinMap.lookup auxRev source with
  | some rev => { t with auxRev := FinMap.insert (FinMap.erase auxRev source) target rev }
  | none => { t with auxRev }

/-- `DELETE FROM blob_refs` and `space_blobs` of a space. -/
def deleteSpace (t : BlobTables) (space : String) : BlobTables := { t with
  refs := t.refs.deleteWhere (·.space = space)
  held := t.held.deleteWhere (·.space = space) }

/-- Both tables' rows of `source` to `target`, in place of its own. -/
def moveSpace (t : BlobTables) (source target : String) : Except DataError BlobTables :=
  let t := t.deleteSpace target
  match t.refs.rekey (·.space = source) (fun r => { r with space := target }),
      t.held.rekey (·.space = source) (fun b => { b with space := target }) with
  | some refs, some held => .ok { t with refs, held }
  | none, _ => .error (sqliteConflict "blob_refs.space, blob_refs.key, blob_refs.hash")
  | _, none => .error (sqliteConflict "space_blobs.space, space_blobs.hash")

end BlobTables

end K2.GardenData
