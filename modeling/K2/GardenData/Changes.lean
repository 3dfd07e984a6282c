import K2.GardenData.Store

/-! # The change feed

`changes` pages through a space's entries in the order of the revs that last
touched them. A page ends at a rev boundary where it can; when one rev alone is
over a page, the next page starts inside it, after the last key given.
-/

namespace K2.GardenData

/-- A position in the feed: what stands strictly after `(since, after)` in
    `(rev, key)` order; without `after`, every later rev. -/
structure Cursor where
  since : Int
  after : Option String
  deriving Repr, DecidableEq

/-- One row of the feed; `value` is null for a delete. -/
structure Change where
  key : String
  rev : Int
  deleted : Bool
  value : Value
  author : String
  time : Int
  restore : Option String
  deriving Repr

structure ChangesPage where
  /-- The space's rev now. -/
  head : Int
  items : List Change
  /-- Some when more rows exist after this page. -/
  next : Option Cursor
  /-- The page ends inside a rev. -/
  partly : Bool
  deriving Repr

/-- A read filter: everything, or only keys under one of the prefixes. -/
abbrev Filter := Option (List String)

def passes (key pre : String) (filter : Filter) : Bool :=
  under pre key && (match filter with
    | none => true
    | some ps => ps.any fun p => under p key)

/-- Rough wire bytes of one row. -/
def rowBytes (key : String) (valueLen : Nat) : Nat := Text.byteLen key + valueLen + 64

def EntryRow.rowBytes (e : EntryRow) : Nat := GardenData.rowBytes e.key ((e.value.map Text.byteLen).getD 0)

/-- Is an entry after a cursor? -/
def Cursor.before (c : Cursor) (e : EntryRow) : Bool :=
  e.rev > c.since || (match c.after with
    | some a => e.rev = c.since && a < e.key
    | none => false)

/-- `ORDER BY e.rev, e.key`. -/
def feedLe (e e' : EntryRow) : Prop := e.rev < e'.rev ∨ (e.rev = e'.rev ∧ e.key ≤ e'.key)

instance : DecidableRel feedLe := fun _ _ => inferInstanceAs (Decidable (_ ∨ _))

namespace Store

variable (b : Backend) (s : Store)

/-- The space's highest rev of a tombstone the reaper took. -/
def reapedRev (space : Space) : Int := ((s.spaces.get space).map (·.reapedRev)).getD 0

/-- A row of the feed, with the restore of the change row of its rev and key. -/
def change (e : EntryRow) : Except DataError Change :=
  (b.parseValue e.value).map fun value => {
    key := e.key, rev := e.rev, deleted := e.deleted, value, author := e.updatedBy, time := e.updatedAt
    restore := (s.changes.get (e.space, e.rev, e.key)).bind (·.restoreId) }

/-- Where a page that is full before `e` ends: at the rev boundary before `e`, at
    the one before the unfinished rev, or inside the rev that is over a page. -/
def cutPage (items : List Change) (last : Change) (groupStart : Nat) (e : EntryRow) :
    List Change × Option Cursor × Bool :=
  if last.rev ≠ e.rev then (items, some ⟨last.rev, none⟩, false)
  else if groupStart > 0 then
    (items.take groupStart, (items.take groupStart).getLast?.map fun l => ⟨l.rev, none⟩, false)
  else (items, some ⟨e.rev, some last.key⟩, true)

/-- Fill a page with the rows that pass; `groupStart` is where the items of the
    last rev start. -/
def fillPage : List EntryRow → List Change → Nat → Nat →
    Except DataError (List Change × Option Cursor × Bool)
  | [], items, _, _ => .ok (items, none, false)
  | e :: rest, items, bytes, groupStart =>
      match items.getLast? with
      | none => do
          let c ← s.change b e
          fillPage rest (items ++ [c]) (bytes + e.rowBytes) groupStart
      | some last =>
          let groupStart := if last.rev ≠ e.rev then items.length else groupStart
          if items.length ≥ changesPageItems || bytes + e.rowBytes > pageBytes then
            .ok (cutPage items last groupStart e)
          else do
            let c ← s.change b e
            fillPage rest (items ++ [c]) (bytes + e.rowBytes) groupStart

/-- The entries after a cursor that pass, in the feed's order. -/
def feedRows (space : Space) (start : Cursor) (pre : String) (filter : Filter) : List EntryRow :=
  ((s.entries.rows.filter fun e => e.space = space && start.before e).insertionSort feedLe).filter
    fun e => passes e.key pre filter

/-- One page of a space's changes from a cursor. -/
def changesFrom (space : Space) (start : Cursor) (pre : String) (filter : Filter) :
    Except DataError ChangesPage := do
  validatePrefix pre
  if start.since < s.reapedRev space then .error (.resync (s.reapedRev space))
  else
    let (items, next, partly) ← fillPage b s (s.feedRows space start pre filter) [] 0 0
    .ok { head := s.headRev space, items, next, partly }

end Store

end K2.GardenData
