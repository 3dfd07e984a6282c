import K2.Homes.AssignAgain
import K2.Lib.Table
import Mathlib.Data.List.Sort

/-! # A device's Homes

The device's own Homes are the working copy. Local edits are turned into queued
wire items, one a Home and one a row, each with an order key; and the items the
device knows are turned back into Homes.
-/

namespace K2.HomesSync

open K2.Homes (OrderError)
open K2.Homes.FractionalIndex (assignOrders)

/-! ## Homes -/

structure HomeRow where
  /-- `handle::host`, the row key. -/
  address : String
  workspaceId : Option String
  label : String
  deriving Repr, DecidableEq

structure Home where
  id : String
  name : String
  rows : List HomeRow
  deriving Repr, DecidableEq

/-! ## Wire items -/

structure WireHome where
  id : String
  name : Option String
  order : String
  updatedAt : Int
  deviceId : Option String
  deleted : Bool
  mergedInto : Option String
  deriving Repr, DecidableEq, Inhabited

structure WireRow where
  homeId : String
  address : String
  label : String
  workspaceId : Option String
  order : String
  updatedAt : Int
  deviceId : Option String
  deleted : Bool
  deriving Repr, DecidableEq, Inhabited

inductive WireItem where
  | home (h : WireHome)
  | row (r : WireRow)
  deriving Repr, DecidableEq

namespace WireItem

def order : WireItem → String
  | home h => h.order
  | row r => r.order

def updatedAt : WireItem → Int
  | home h => h.updatedAt
  | row r => r.updatedAt

def deleted : WireItem → Bool
  | home h => h.deleted
  | row r => r.deleted

/-- The item with a new stamp. -/
def stamped (time : Int) (deviceId : String) : WireItem → WireItem
  | home h => home { h with updatedAt := time, deviceId := some deviceId }
  | row r => row { r with updatedAt := time, deviceId := some deviceId }

/-- Its tombstone. -/
def buried : WireItem → WireItem
  | home h => home { h with deleted := true, mergedInto := none }
  | row r => row { r with deleted := true }

end WireItem

def homeKey (id : String) : String := "h|" ++ id
def rowKey (homeId address : String) : String := "r|" ++ homeId ++ "|" ++ address

def itemKey : WireItem → String
  | .home h => homeKey h.id
  | .row r => rowKey r.homeId r.address

/-! ## State -/

/-- The last version of every item the device knows, and its unsent edits. -/
structure SyncState where
  known : KeyedTable itemKey
  outbox : KeyedTable itemKey

/-- Addresses at the sync edge. -/
structure AddressMap where
  toWire : String → String
  fromWire : String → String

structure EngineCtx extends AddressMap where
  now : Int
  deviceId : String

namespace SyncState

variable (st : SyncState)

/-- The known item under a key, where it is live. -/
def live (key : String) : Option WireItem := (st.known.get key).filter (!·.deleted)

/-- The order key of a known live item. -/
def liveOrder (key : String) : Option String := (st.live key).map (·.order)

def queue (item : WireItem) : SyncState := ⟨st.known.upsert item, st.outbox.upsert item⟩

end SyncState

/-- A stamp newer than what the device last saw of the item. -/
def stamp (ctx : EngineCtx) (prev : Option WireItem) : Int := max ctx.now ((prev.map (·.updatedAt)).getD 0 + 1)

/-! ## The wire view -/

section View

variable (st : SyncState) (ctx : AddressMap)

/-- A Home's rows with their wire addresses, each address once. -/
def wireRows (toWire : String → String) : List String → List HomeRow → List (HomeRow × String)
  | _, [] => []
  | seen, row :: rest =>
      if toWire row.address ∈ seen then wireRows toWire seen rest
      else (row, toWire row.address) :: wireRows toWire (toWire row.address :: seen) rest

/-- The order keys the Homes have. -/
def homeOrder (homes : List Home) (i : Nat) : Option String := homes[i]?.bind fun h => st.liveOrder (homeKey h.id)

/-- The order keys a Home's rows have. -/
def rowOrder (id : String) (rows : List (HomeRow × String)) (i : Nat) : Option String :=
  rows[i]?.bind fun row => st.liveOrder (rowKey id row.2)

def viewRow (id : String) (row : HomeRow × String) (order : String) : WireItem :=
  .row ⟨id, row.2, row.1.label, row.1.workspaceId, order, 0, none, false⟩

/-- A Home's item and those of its rows. -/
def viewHome (h : Home) (order : String) : Except OrderError (List WireItem) := do
  let rows := wireRows ctx.toWire [] h.rows
  let orders ← assignOrders rows.length (rowOrder st h.id rows)
  .ok (.home ⟨h.id, some h.name, order, 0, none, false, none⟩ :: rows.zipWith (viewRow h.id) orders)

def viewHomes : List (Home × String) → Except OrderError (List WireItem)
  | [] => .ok []
  | (h, order) :: rest => do
      let items ← viewHome st ctx h order
      let others ← viewHomes rest
      .ok (items ++ others)

/-- The wire view of the local Homes: one item a Home and row, with order keys that
    keep every known key still in order. -/
def localView (homes : List Home) : Except OrderError (KeyedTable itemKey) := do
  let orders ← assignOrders homes.length (homeOrder st homes)
  let items ← viewHomes st ctx (homes.zip orders)
  .ok (items.foldl KeyedTable.upsert .empty)

end View

/-! ## Local edits -/

/-- Names and order; never labels or workspace ids. -/
def syncedFieldsDiffer (view known : WireItem) : Bool :=
  if view.order ≠ known.order then true
  else match view, known with
    | .home v, .home k => v.name ≠ k.name
    | _, _ => false

section Diff

variable (ctx : EngineCtx)

/-- A view item that is new or differs is queued. -/
def diffItem (acc : SyncState × List WireItem) (v : WireItem) : SyncState × List WireItem :=
  match acc.1.live (itemKey v) with
  | some known =>
      if syncedFieldsDiffer v known then
        let item := v.stamped (stamp ctx (some known)) ctx.deviceId
        (acc.1.queue item, acc.2 ++ [item])
      else acc
  | none =>
      let item := v.stamped (stamp ctx (acc.1.known.get (itemKey v))) ctx.deviceId
      (acc.1.queue item, acc.2 ++ [item])

/-- A known live item that left the local copy becomes a tombstone. -/
def buryItem (view : KeyedTable itemKey) (acc : SyncState × List WireItem) (known : WireItem) :
    SyncState × List WireItem :=
  if known.deleted || (view.get (itemKey known)).isSome then acc
  else
    let tomb := known.buried.stamped (stamp ctx (some known)) ctx.deviceId
    (acc.1.queue tomb, acc.2 ++ [tomb])

/-- The local Homes as queued changes. -/
def diffLocal (homes : List Home) (prev : SyncState) : Except OrderError (SyncState × List WireItem) := do
  let view ← localView prev ctx.toAddressMap homes
  let edited := view.rows.foldl (diffItem ctx) (prev, [])
  .ok (edited.1.known.rows.foldl (buryItem ctx view) edited)

end Diff

/-! ## Back to Homes -/

/-- A string's UTF-16 units. -/
def units (s : String) : List Nat :=
  s.toList.flatMap fun c =>
    if c.toNat < 0x10000 then [c.toNat]
    else [0xD800 + (c.toNat - 0x10000) / 0x400, 0xDC00 + (c.toNat - 0x10000) % 0x400]

/-- Plain string order. -/
def compareOrder (a b : String) : Ordering :=
  if units a < units b then .lt else if units b < units a then .gt else .eq

/-- By order key, then by name. -/
def wireLe {α : Type} (order name : α → String) (a b : α) : Prop :=
  (compareOrder (order a) (order b)).then (compareOrder (name a) (name b)) ≠ .gt

instance {α : Type} (order name : α → String) : DecidableRel (wireLe order name) :=
  fun _ _ => inferInstanceAs (Decidable (_ ≠ _))

section Build

variable (st : SyncState) (previous : List Home) (ctx : AddressMap)

def liveHomes : List WireHome :=
  st.known.rows.filterMap fun
    | .home h => if h.deleted then none else some h
    | .row _ => none

def liveRows (homeId : String) : List WireRow :=
  st.known.rows.filterMap fun
    | .row r => if !r.deleted && r.homeId = homeId then some r else none
    | .home _ => none

/-- The row of the previous local copy with an address. -/
def hint (address : String) : Option HomeRow := (previous.flatMap (·.rows)).find? (·.address = address)

def buildRow (address : String) (w : WireRow) : HomeRow :=
  match hint previous address with
  | some row => ⟨address, row.workspaceId, row.label⟩
  | none => ⟨address, w.workspaceId, w.label⟩

/-- Wire rows as local ones, each address once. -/
def buildRows : List String → List WireRow → List HomeRow
  | _, [] => []
  | seen, w :: rest =>
      if ctx.fromWire w.address ∈ seen then buildRows seen rest
      else buildRow previous (ctx.fromWire w.address) w :: buildRows (ctx.fromWire w.address :: seen) rest

def buildHome (h : WireHome) : Home where
  id := h.id
  name := h.name.getD "Home"
  rows := buildRows previous ctx [] ((liveRows st h.id).insertionSort (wireLe (·.order) (·.address)))

/-- The local Homes the known items describe: live Homes by order, their live rows
    by order. None when there is no live Home: the local copy is kept as it is. -/
def buildLocal : Option (List Home) :=
  if (liveHomes st).isEmpty then none
  else some (((liveHomes st).insertionSort (wireLe (·.order) (·.id))).map (buildHome st previous ctx))

end Build

end K2.HomesSync
