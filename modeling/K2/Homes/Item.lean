import K2.Json
import Mathlib.Data.Prod.Lex
import Mathlib.Order.BooleanAlgebra.Basic

/-! # Homes items

The wire items of Homes sync: a Home, or a row of a Home. How a pushed JSON
value is parsed into one, why it is refused, and which of two items wins.
-/

namespace K2.Homes

/-- Tombstones older than this (by `updatedAt`) are collected on write. -/
def tombstoneKeepMs : Int := 90 * 24 * 60 * 60 * 1000
/-- An item stamped further than this in the future is refused. -/
def maxFutureSkewMs : Int := 24 * 60 * 60 * 1000
def homeNameMax : Nat := 60
def labelMax : Nat := 200
def idMax : Nat := 128
def addressMax : Nat := 300
def orderMax : Nat := 128

inductive Kind where
  | home
  | row
  deriving Repr, DecidableEq

def Kind.asStr : Kind → String
  | home => "home"
  | row => "row"

/-- Why a pushed item was refused. -/
inductive Reason where
  | notAnObject | invalidKind | invalidId | invalidHomeId | invalidName | invalidAddress
  | invalidLabel | invalidWorkspaceId | invalidOrder | invalidUpdatedAt | futureUpdatedAt
  | invalidDeleted | invalidMergedInto | lastHome
  deriving Repr, DecidableEq

/-- The word a client reads in `rejected[].reason`. -/
def Reason.text : Reason → String
  | notAnObject => "not_an_object"
  | invalidKind => "invalid_kind"
  | invalidId => "invalid_id"
  | invalidHomeId => "invalid_home_id"
  | invalidName => "invalid_name"
  | invalidAddress => "invalid_address"
  | invalidLabel => "invalid_label"
  | invalidWorkspaceId => "invalid_workspace_id"
  | invalidOrder => "invalid_order"
  | invalidUpdatedAt => "invalid_updated_at"
  | futureUpdatedAt => "future_updated_at"
  | invalidDeleted => "invalid_deleted"
  | invalidMergedInto => "invalid_merged_into"
  | lastHome => "last_home"

/-- One Home or Home row as stored (and as accepted from a push). -/
structure Item where
  kind : Kind
  /-- Home: its id. Row: its Home's id. -/
  homeId : String
  /-- Row: `handle::<serverId>` (lowercase). Home: empty. -/
  address : String
  name : Option String
  label : Option String
  workspaceId : Option String
  order : String
  updatedAt : Int
  deviceId : String
  deleted : Bool
  /-- Home tombstone only: the Home it was merged into. -/
  mergedInto : Option String
  deriving Repr, DecidableEq

/-- What tells items apart: `(kind, homeId, address)`. -/
abbrev ItemKey := Kind × String × String

namespace Item

def key (i : Item) : ItemKey := (i.kind, i.homeId, i.address)

/-- Is `i` the winner over `other`? A full tie with the same deleted flag is
    "not newer". -/
def beats (i other : Item) : Bool :=
  match compare i.updatedAt other.updatedAt with
  | .gt => true
  | .lt => false
  | .eq =>
      match compare i.deviceId other.deviceId with
      | .gt => true
      | .lt => false
      | .eq => i.deleted && !other.deleted

/-- What `beats` compares, as one element of a linear order. -/
def stamp (i : Item) : Int ×ₗ String ×ₗ Bool := toLex (i.updatedAt, toLex (i.deviceId, i.deleted))

/-- The wire form: `deleted` and `mergedInto` only when set. -/
def toJson (i : Item) : Value :=
  let text := fun s : Option String => s.elim Value.null .string
  let o : Members := match i.kind with
    | .home =>
        [("deviceId", .string i.deviceId), ("id", .string i.homeId), ("kind", .string "home"),
          ("name", text i.name), ("order", .string i.order), ("updatedAt", .number (.int i.updatedAt))]
    | .row =>
        [("address", .string i.address), ("deviceId", .string i.deviceId),
          ("homeId", .string i.homeId), ("kind", .string "row"), ("label", .string (i.label.getD "")),
          ("order", .string i.order), ("updatedAt", .number (.int i.updatedAt)),
          ("workspaceId", text i.workspaceId)]
  let o := if i.deleted then o.insert "deleted" (.bool true) else o
  .object (i.mergedInto.elim o fun m => o.insert "mergedInto" (.string m))

end Item

/-- A valid fractional-index key, not ending in `0` (so that a key always has
    room before it). -/
def validOrder (s : String) : Bool :=
  !s.isEmpty && Text.byteLen s ≤ orderMax && s.toList.all Text.isAsciiAlphanumeric &&
    s.toList.getLast? != some '0'

def cleanName (s : String) : Option String :=
  let collapsed := Text.collapseWhitespace s
  if collapsed.isEmpty then none else some (Text.takeChars homeNameMax collapsed)

def validId (s : String) : Bool :=
  !s.isEmpty && Text.byteLen s ≤ idMax && Text.trim s == s && !s.toList.any Text.isControl

/-- A row address `handle::host`, lowercased. -/
def normalizeAddress (s : String) : Option String :=
  let a := Text.toAsciiLowercase (Text.trim s)
  if a.isEmpty || Text.byteLen a > addressMax ||
      a.toList.any (fun c => Text.isWhitespace c || Text.isControl c) then none
  else match Text.splitOnceColons a.toList with
    | none => none
    | some (handle, host) =>
        if handle.isEmpty || host.isEmpty || Text.containsColons host then none else some a

/-- The name of a pushed Home. -/
def parseName (o : Members) (deleted : Bool) : Except Reason (Option String) :=
  match o.get "name" with
  | some (.string s) =>
      match cleanName s with
      | some n => .ok (some n)
      | none => if deleted then .ok none else .error .invalidName
  | none | some .null => if deleted then .ok none else .error .invalidName
  | some _ => .error .invalidName

def parseHome (o : Members) (deviceId order : String) (updatedAt : Int) (deleted : Bool) :
    Except Reason Item := do
  let id ← okOr (((o.get "id").bind Value.asStr).filter validId) .invalidId
  let name ← parseName o deleted
  let mergedInto ← match o.get "mergedInto" with
    | none | some .null => .ok none
    | some (.string m) =>
        if deleted && validId m && m != id then .ok (some m) else .error Reason.invalidMergedInto
    | some _ => .error .invalidMergedInto
  return { kind := .home, homeId := id, address := "", name, label := none, workspaceId := none,
           order, updatedAt, deviceId, deleted, mergedInto }

def parseRow (o : Members) (deviceId order : String) (updatedAt : Int) (deleted : Bool) :
    Except Reason Item := do
  let homeId ← okOr (((o.get "homeId").bind Value.asStr).filter validId) .invalidHomeId
  let address ← okOr (((o.get "address").bind Value.asStr).bind normalizeAddress) .invalidAddress
  let label ← match o.get "label" with
    | none | some .null => .ok ""
    | some (.string s) => .ok (Text.takeChars labelMax (Text.trim s))
    | some _ => .error Reason.invalidLabel
  let workspaceId ← match o.get "workspaceId" with
    | none | some .null => .ok none
    | some (.string s) =>
        if Text.byteLen s ≤ idMax && !(Text.trim s).isEmpty then .ok (some (Text.trim s))
        else if (Text.trim s).isEmpty then .ok none
        else .error Reason.invalidWorkspaceId
    | some _ => .error .invalidWorkspaceId
  if (o.get "mergedInto").any (!·.isNull) then throw .invalidMergedInto
  return { kind := .row, homeId, address, name := none, label := some label, workspaceId,
           order, updatedAt, deviceId, deleted, mergedInto := none }

/-- The order of a pushed item; a tombstone may carry any (it is never shown). -/
def parseOrder (o : Members) (deleted : Bool) : Except Reason String :=
  match o.get "order" with
  | some (.string s) =>
      if validOrder s then .ok s else if deleted then .ok "" else .error .invalidOrder
  | none | some .null => if deleted then .ok "" else .error .invalidOrder
  | some _ => .error .invalidOrder

/-- Parse one pushed change, or the reason it is refused. -/
def parseChange (v : Value) (deviceId : String) (nowMs : Int) : Except Reason Item := do
  let o ← okOr v.asObject .notAnObject
  let kind ← match (o.get "kind").bind Value.asStr with
    | some "home" => .ok Kind.home
    | some "row" => .ok Kind.row
    | _ => .error Reason.invalidKind
  let updatedAt ← okOr (((o.get "updatedAt").bind Value.asI64).filter (0 < ·)) .invalidUpdatedAt
  if updatedAt > nowMs + maxFutureSkewMs then throw .futureUpdatedAt
  let deleted ← match o.get "deleted" with
    | none | some .null => .ok false
    | some (.bool b) => .ok b
    | some _ => .error Reason.invalidDeleted
  let order ← parseOrder o deleted
  match kind with
  | .home => parseHome o deviceId order updatedAt deleted
  | .row => parseRow o deviceId order updatedAt deleted

end K2.Homes
