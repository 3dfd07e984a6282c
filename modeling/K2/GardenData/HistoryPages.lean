import K2.GardenData.History
import K2.GardenData.Recorded

/-! # The history feed

`store.history` lists every change kept, newest first. A change's own value is not
stored: it is what the key's next change had before, or what the key holds now.
-/

namespace K2.GardenData

/-- A page's bytes. -/
def historyPageBytes : Nat := 128 * 1024
def maxHistoryLimit : Nat := 200

/-- What a change's `prev` is. -/
inductive PrevKind where
  | value
  /-- The key didn't exist before. -/
  | none
  /-- Not kept: trimmed, or written by an older K2. -/
  | unknown
  deriving Repr, DecidableEq

def PrevKind.of : Option Int → PrevKind
  | some 1 => .value
  | some 0 => .none
  | _ => .unknown

structure HistoryItem where
  key : String
  rev : Int
  deleted : Bool
  value : Value
  prev : Value
  prevKind : PrevKind
  author : String
  time : Int
  restore : Option String
  deriving Repr

/-- One page, newest first. `next`: rows strictly after it, as a query takes them. -/
structure HistoryPage where
  head : Int
  oldest : Int
  items : List HistoryItem
  next : Option (Int × Option String)
  deriving Repr

/-- What is asked for. `before`, and `after`, a key inside the rev `before`, continue
    a page. -/
structure HistoryQuery where
  key : Option String
  pre : String
  before : Option Int
  after : Option String
  limit : Nat
  deriving Repr, DecidableEq

namespace HistoryQuery

variable (q : HistoryQuery)

/-- `AND key = ?`, or the keys under a prefix. -/
def matchesKey (key : String) : Bool :=
  match q.key with
  | some k => key = k
  | none => under q.pre key

/-- `rev < ? OR (? IS NOT NULL AND rev = ? AND key > ?)`. -/
def beyond (c : ChangeRow) : Bool :=
  let before := q.before.getD (2 ^ 63 - 1)
  let after := if q.before.isSome then q.after else none
  c.rev < before || (match after with
    | some a => c.rev = before && a < c.key
    | none => false)

/-- The query of the page after `next`. -/
def continued (next : Int × Option String) : HistoryQuery := { q with before := some next.1, after := next.2 }

end HistoryQuery

/-- A caller's read prefixes. -/
def readable (key : String) (filter : Option (List String)) : Bool :=
  match filter with
  | none => true
  | some ps => ps.any fun p => under p key

/-- `ORDER BY rev DESC, key ASC`. -/
def newestLe (c c' : ChangeRow) : Prop := c'.rev < c.rev ∨ (c.rev = c'.rev ∧ c.key ≤ c'.key)

instance : DecidableRel newestLe := fun _ _ => inferInstanceAs (Decidable (_ ∨ _))

/-- A row counts its key and about twice its before-value. -/
def ChangeRow.weight (c : ChangeRow) : Nat := Text.byteLen c.key + 2 * ((c.prev.map Text.byteLen).getD 0) + 64

/-- Fill a page, and say whether rows are left. -/
def fillHistory (limit : Nat) : List ChangeRow → List ChangeRow → Nat → List ChangeRow × Bool
  | [], rows, _ => (rows, false)
  | c :: rest, rows, bytes =>
      if rows.length ≥ limit || (!rows.isEmpty && bytes + c.weight > historyPageBytes) then (rows, true)
      else fillHistory limit rest (rows ++ [c]) (bytes + c.weight)

namespace Store

variable (b : Backend) (s : Store) (space : Space)

/-- The key's next change. -/
def nextChange (c : ChangeRow) : Option ChangeRow :=
  (((s.changesOf space).filter fun c' => c'.key = c.key && c.rev < c'.rev).insertionSort fun a b => a.rev ≤ b.rev).head?

/-- The live entry's text, where it is of this rev. -/
def liveAt (key : String) (rev : Int) : Option String :=
  ((s.entries.get (space, key)).filter fun e => e.rev = rev && !e.deleted).bind (·.value)

/-- A change's own value. -/
def valueAfter (c : ChangeRow) : Except DataError Value :=
  if c.deleted then .ok .null
  else match s.nextChange space c with
    | some c' => if c'.prevKind = some 1 then b.parseValue c'.prev else .ok .null
    | none => b.parseValue (s.liveAt space c.key c.rev)

def historyItem (c : ChangeRow) : Except DataError HistoryItem := do
  let value ← s.valueAfter b space c
  let prev ← if PrevKind.of c.prevKind = .value then b.parseValue c.prev else .ok .null
  .ok ⟨c.key, c.rev, c.deleted, value, prev, .of c.prevKind, c.author, c.time, c.restoreId⟩

/-- The kept changes a query lists, newest first. -/
def historyRows (q : HistoryQuery) (filter : Option (List String)) : List ChangeRow :=
  (((s.changesOf space).filter fun c => q.beyond c && q.matchesKey c.key).insertionSort newestLe).filter
    fun c => readable c.key filter

/-- One page of every change kept. -/
def history (q : HistoryQuery) (filter : Option (List String)) : Except DataError HistoryPage := do
  q.key.forM validateKey
  validatePrefix q.pre
  let (rows, more) := fillHistory (min (max q.limit 1) maxHistoryLimit) (s.historyRows space q filter) [] 0
  let items ← rows.mapM (s.historyItem b space)
  .ok ⟨(s.restorable space).1, (s.restorable space).2, items,
    if more then items.getLast?.map fun l => (l.rev, some l.key) else none⟩

end Store

/-! ## Following a query -/

def HistoryStep.isWrite : HistoryStep → Bool
  | .write .. => true
  | _ => false

/-- What a listing orders by. -/
def ChangeRow.place (c : ChangeRow) : Int × String := (c.rev, c.key)

def HistoryItem.place (item : HistoryItem) : Int × String := (item.rev, item.key)

/-- Pages read through `next`, each after more steps of the run: the pages, each
    with the run it was read after, and whether the last one has no `next`. -/
def followHistory (b : Backend) (space : Space) (filter : Option (List String)) :
    List Timeline → Timeline → HistoryQuery → Except DataError (List (Timeline × HistoryPage) × Bool)
  | [], run, q => do
      let page ← (Store.ran b run).history b space q filter
      .ok ([(run, page)], page.next.isNone)
  | later :: rest, run, q => do
      let page ← (Store.ran b run).history b space q filter
      match page.next with
      | none => .ok ([(run, page)], true)
      | some next => do
          let (pages, ended) ← followHistory b space filter rest (run ++ later) (q.continued next)
          .ok ((run, page) :: pages, ended)

end K2.GardenData
