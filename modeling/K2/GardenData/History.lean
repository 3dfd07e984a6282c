import K2.GardenData.Store

/-! # History and restore

Each change row holds what its key had before. A restore is a plan, each key of a
set back to its value at an earlier rev or to a snapshot's, then one write of the
plan's ops at one new rev. The reaper drops change rows by age; the trim clears
what the oldest ones say.
-/

namespace K2.GardenData

/-- `prefixes` and `except` on a restore. -/
def maxRestorePrefixes : Nat := 16
/-- A plan lists at most this many keys. -/
def restoreKeysListed : Nat := 50
/-- The manifest's `restoreSkips`. -/
def maxRestoreSkips : Nat := 16
/-- Plans made again after a write landed in between (then `conflict`). -/
def restoreTries : Nat := 3

/-! ## Key sets -/

/-- Which keys a restore covers: under one of `prefixes` (none: the whole space),
    under none of `excepts`, and not under a skip unless a prefix names it. -/
structure KeySet where
  prefixes : List String
  excepts : List String
  skips : List String
  deriving Repr, DecidableEq

def cleanPrefix (what : String) (out : List String) (p : String) : Except DataError (List String) :=
  if p = "" then
    .error (.badRequest s!"{what}: a prefix isn't empty (leave {what} out for the whole space)")
  else do
    validatePrefix p
    .ok (if p ∈ out then out else out ++ [p])

def cleanPrefixes (what : String) (list : List String) (max : Nat) : Except DataError (List String) :=
  if list.length > max then .error (.badRequest s!"{what} lists at most {max} prefixes")
  else (list.foldlM (cleanPrefix what) []).map (·.insertionSort (· ≤ ·))

namespace KeySet

def new (prefixes excepts skips : List String) : Except DataError KeySet := do
  let prefixes ← cleanPrefixes "prefixes" prefixes maxRestorePrefixes
  let excepts ← cleanPrefixes "except" excepts maxRestorePrefixes
  let skips ← cleanPrefixes "restoreSkips" skips maxRestoreSkips
  .ok ⟨prefixes, excepts, skips⟩

def contains (set : KeySet) (key : String) : Bool :=
  let inside := set.prefixes.isEmpty || set.prefixes.any (under · key)
  if !inside || set.excepts.any (under · key) then false
  -- A skipped family is left alone unless a prefix names it.
  else !set.skips.any fun s => under s key && !set.prefixes.any fun p => under s p && under p key

end KeySet

/-- A key's top-level family: up to its first `/`. -/
def family (key : String) : String :=
  match key.toList.findIdx? (· = '/') with
  | some i => String.ofList (key.toList.take (i + 1))
  | none => key

/-! ## Plans -/

def noHistory : DataError := .refused "no_history" 409
  "older than kept history (7 days of changes); the person can export a daily snapshot with k2 zen data export --at"

/-- A parsed snapshot. -/
structure SnapshotDoc where
  hash : String
  prefixes : List String
  excepts : List String
  rev : Int
  items : FinMap String Value

/-- Where a restore goes back to. -/
inductive RestoreTarget where
  /-- The state right after this rev. -/
  | rev (r : Int)
  /-- The state at this time: the last rev at or before it. -/
  | at (t : Int)
  | snapshot (doc : SnapshotDoc)

/-- What a restore will do, once planned against the live state. -/
structure RestorePlan where
  ops : List Op
  /-- The rev it goes back to; none for a snapshot. -/
  toRev : Option Int
  written : Nat
  deleted : Nat
  /-- Top-level families it rewrites. -/
  families : List String
  /-- The first keys it rewrites. -/
  keys : List String
  /-- The key set it covered. -/
  set : KeySet
  source : Value

def Op.isDelete : Op → Bool
  | .delete .. => true
  | _ => false

/-- A plan of these ops. -/
def RestorePlan.of (ops : List Op) (toRev : Option Int) (set : KeySet) (source : Value) : RestorePlan where
  ops := ops
  toRev := toRev
  written := ops.countP (!·.isDelete)
  deleted := ops.countP Op.isDelete
  families := sortedSet (ops.map (family ·.key))
  keys := (ops.map Op.key).take restoreKeysListed
  set := set
  source := source

def RestorePlan.mark (plan : RestorePlan) (id : String) : RestoreMark where
  id := id
  source := plan.source
  prefixes := plan.set.prefixes
  excepts := plan.set.excepts
  written := plan.written
  deleted := plan.deleted
  families := plan.families

/-- What brings a key from its live state to `want`, if anything does; none is
    absent. -/
def planOp (b : Backend) (live : Live) (key : String) : Option String → Except DataError (Option Op)
  | none => .ok (if live.text.isSome then some (.delete key (some live.rev)) else none)
  | some text =>
      if live.text = some text then .ok none
      else match b.fromStr text with
        | .ok value => .ok (some (.put key value (some live.rev)))
        | .error e => .error (.unavailable ("a kept value is unreadable: " ++ e))

/-- Ops that bring every key to its target, each with `ifRev` of the live state
    seen now. -/
def planOps (b : Backend) (live : String → Live) (canWrite : String → Bool) :
    List (String × Option String) → Except DataError (List Op)
  | [] => .ok []
  | (key, want) :: rest => do
      match ← planOp b (live key) key want with
      | none => planOps b live canWrite rest
      | some op =>
          if !canWrite key then .error (.notGranted none)
          else do
            let ops ← planOps b live canWrite rest
            .ok (op :: ops)

/-- The targets in the order of their keys. -/
def inOrder (targets : FinMap String (Option String)) : List (String × Option String) :=
  targets.rows.insertionSort (·.1 ≤ ·.1)

/-- The earliest change of each covered key holds what the key had before. -/
def collectTargets (set : KeySet) : List ChangeRow → FinMap String (Option String) →
    Except DataError (FinMap String (Option String))
  | [], targets => .ok targets
  | c :: rest, targets =>
      if (targets.lookup c.key).isSome || !set.contains c.key then collectTargets set rest targets
      else match c.prevKind with
        | some 1 =>
            match c.prev with
            | some text => collectTargets set rest (targets.insert c.key (some text))
            | none => .error (.unavailable "a kept value is missing")
        | some 0 => collectTargets set rest (targets.insert c.key none)
        | _ => .error noHistory

/-- Of the keys a snapshot saved, those live now go, and its items come back. -/
def snapshotTargets (live : List String) (items : List (String × Value)) (set : KeySet) :
    Except DataError (FinMap String (Option String)) :=
  (items.filter fun item => set.contains item.1).foldlM
    (fun targets item => (canonical item.2).map fun text => targets.insert item.1 (some text))
    ((live.filter set.contains).foldl (fun targets key => targets.insert key none) .empty)

/-- `ORDER BY rev ASC, key ASC`. -/
def changeLe (c c' : ChangeRow) : Prop := c.rev < c'.rev ∨ (c.rev = c'.rev ∧ c.key ≤ c'.key)

instance : DecidableRel changeLe := fun _ _ => inferInstanceAs (Decidable (_ ∨ _))

namespace Store

section Plan

variable (b : Backend) (s : Store) (space : Space)

/-- A space's change rows. -/
def changesOf : List ChangeRow := s.changes.rows.filter (·.space = space)

/-- The space's rev, and the oldest rev a restore can go back to: every change
    after it is still in the log with what was before it. -/
def restorable : Int × Int :=
  let rows := s.changesOf space
  let unknown := ((rows.filter (·.prevKind.isNone)).map (·.rev)).max?
  let oldest := match (rows.map (·.rev)).min? with
    | none => s.headRev space
    | some m => max (max (m - 1) (unknown.getD 0)) 0
  (s.headRev space, min oldest (s.headRev space))

/-- The rev a time means: the last change at or before it. Before the first change
    kept, only a log that starts at rev 1 knows. -/
def revAt (t : Int) : Except DataError Int :=
  match (((s.changesOf space).filter (·.time ≤ t)).map (·.rev)).max? with
  | some r => .ok r
  | none =>
      let first : Option Int := ((s.changesOf space).map (·.rev)).min?
      match first, (s.spaces.get space).map (·.updatedAt) with
      | some 1, _ => .ok 0
      | none, none => .ok 0
      | none, some u => if u ≤ t then .ok (s.headRev space) else .error noHistory
      | _, _ => .error noHistory

/-- The change rows after a rev, in order. -/
def changesAfter (r : Int) : List ChangeRow :=
  ((s.changesOf space).filter (r < ·.rev)).insertionSort changeLe

/-- The keys that are live. -/
def liveNames : List String :=
  (s.entries.rows.filter fun e => e.space = space && !e.deleted).map (·.key)

variable (set : KeySet) (canWrite : String → Bool)

def planBack (toRev : Int) (source : Value) : Except DataError RestorePlan :=
  let (head, oldest) := s.restorable space
  if toRev > head then .error (.badRequest s!"toRev {toRev} is past this widget's data (rev {head})")
  else if toRev < oldest then .error noHistory
  else do
    let targets ← collectTargets set (s.changesAfter space toRev) .empty
    let ops ← planOps b (s.live space) canWrite (inOrder targets)
    .ok (.of ops (some toRev) set source)

/-- A snapshot restores the keys it saved, less `restoreSkips`. -/
def planSnapshot (doc : SnapshotDoc) : Except DataError RestorePlan := do
  let saved ← KeySet.new doc.prefixes doc.excepts set.skips
  let named := !set.prefixes.isEmpty || !set.excepts.isEmpty
  if named && (set.prefixes ≠ saved.prefixes || set.excepts ≠ saved.excepts) then
    let keys := if saved.prefixes.isEmpty then "the whole space" else ", ".intercalate saved.prefixes
    .error (.badRequest s!"a snapshot restores the keys it saved ({keys}); leave prefixes and except out")
  else
    let targets ← snapshotTargets (s.liveNames space) doc.items.rows saved
    let ops ← planOps b (s.live space) canWrite (inOrder targets)
    .ok (.of ops none saved (.object [("rev", .number (.int doc.rev)), ("snapshot", .string (refOf doc.hash))]))

/-- A plan against the live state now. `canWrite`: the caller's rights; a plan that
    touches a key outside them is refused whole. -/
def restorePlan (target : RestoreTarget) : Except DataError RestorePlan :=
  if !space.isData then .error (.badRequest "only a widget's shared data (data:) is restored")
  else match target with
    | .rev r => s.planBack b space set canWrite r (.object [("toRev", .number (.int r))])
    | .at t => do
        let r ← s.revAt space t
        s.planBack b space set canWrite r (.object [("at", .number (.int t)), ("toRev", .number (.int r))])
    | .snapshot doc => s.planSnapshot b space set canWrite doc

end Plan

end Store

/-! ## The trim -/

/-- The bytes of before-values. -/
def prevBytes (rows : List ChangeRow) : Int :=
  (rows.map fun c => ((c.prev.map Text.byteLen).getD 0 : Int)).sum

/-- The rev up to which before-values go, of revs with their bytes: as many as
    bring `left` down to `max`. -/
def trimCut (max : Int) : Int → List (Int × Int) → Option Int
  | _, [] => none
  | left, (rev, bytes) :: rest =>
      if left - bytes ≤ max then some rev else (trimCut max (left - bytes) rest).or (some rev)

def ChangeRow.clear (c : ChangeRow) : ChangeRow := { c with prev := none, prevKind := none }

namespace Store

/-- The spaces with more than `max` bytes of before-values. -/
def overfull (s : Store) (max : Int) : List (Space × Int) :=
  let rows := s.changes.rows.filter (·.prev.isSome)
  ((rows.map (·.space)).dedup.map fun space => (space, prevBytes (rows.filter (·.space = space)))).filter
    (·.2 > max)

/-- One space's oldest before-values go; counts the rows trimmed. -/
def trimSpace (max : Int) (s : Store × Nat) (full : Space × Int) : Store × Nat :=
  let rows := (s.1.changesOf full.1).filter (·.prev.isSome)
  let revs := (rows.map (·.rev)).dedup.insertionSort (· ≤ ·)
  match trimCut max full.2 (revs.map fun r => (r, prevBytes (rows.filter (·.rev = r)))) with
  | none => s
  | some cut =>
      let old := fun c : ChangeRow => c.space = full.1 && c.rev ≤ cut && c.prevKind.isSome
      ({ s.1 with changes := s.1.changes.updateWhere old ChangeRow.clear fun _ => rfl },
        s.2 + s.1.changes.count old)

/-- The trim: past `max` bytes of before-values in a space, the oldest revs' are
    cleared; the rows stay. Old `restores` rows go too. -/
def trimHistory (s : Store) (max now : Int) : Store × Nat :=
  let (s, trimmed) := (s.overfull max).foldl (trimSpace max) (s, 0)
  ({ s with restores := s.restores.deleteWhere (·.time < now - changeLogKeepSecs) }, trimmed)

end Store

end K2.GardenData
