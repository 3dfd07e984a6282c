import K2.Json
import K2.Lib.Table
import Mathlib.Data.List.Sort

/-! # The grant outbox

`tool_outbox`: rows a delivery worker sends to a tool, one queue per subject. A
row goes `pending → done | blocked | held | skipped | superseded`; a `blocked`
row halts its subject until it is retried or skipped.
-/

namespace K2.ToolHook

/-- The ops this worker knows. -/
inductive Op where
  | provision | update | deprovision | ownerSet | sewSessionRevoke | spaceMemberAdd
  | spaceMemberRemove | avatarSet | avatarClear | homeClient | appSettings | policySet | spaceUnbind
  | spaceMemberChannels | channelsBulk | spaceSettings | adminSpaceCreate | adminMemberAdd
  | adminMemberRemove | adminMemberLevel | adminRooms | adminRoomClosing
  deriving Repr, DecidableEq

namespace Op

def asStr : Op → String
  | provision => "provision"
  | update => "update"
  | deprovision => "deprovision"
  | ownerSet => "owner_set"
  | sewSessionRevoke => "sew_session_revoke"
  | spaceMemberAdd => "space_member_add"
  | spaceMemberRemove => "space_member_remove"
  | avatarSet => "avatar_set"
  | avatarClear => "avatar_clear"
  | homeClient => "home_client"
  | appSettings => "app_settings"
  | policySet => "policy_set"
  | spaceUnbind => "space_unbind"
  | spaceMemberChannels => "space_member_channels"
  | channelsBulk => "channels_bulk"
  | spaceSettings => "space_settings"
  | adminSpaceCreate => "admin_space_create"
  | adminMemberAdd => "admin_member_add"
  | adminMemberRemove => "admin_member_remove"
  | adminMemberLevel => "admin_member_level"
  | adminRooms => "admin_rooms"
  | adminRoomClosing => "admin_room_closing"

/-- The ops the worker delivers. -/
def delivered : List Op :=
  [provision, update, deprovision, ownerSet, sewSessionRevoke, spaceMemberAdd, spaceMemberRemove,
    avatarSet, avatarClear, homeClient, appSettings, policySet, spaceUnbind, spaceMemberChannels,
    channelsBulk, spaceSettings, adminSpaceCreate, adminMemberAdd, adminMemberRemove,
    adminMemberLevel, adminRooms, adminRoomClosing]

end Op

/-- The `state` column. -/
inductive RowState where
  | pending | done | blocked | held | skipped | superseded
  deriving Repr, DecidableEq

/-- Finished rows are kept this long, then pruned. -/
def retentionSecs : Int := 90 * 24 * 3600

def idemKeyFor (id : String) : String := "k2ob_" ++ String.ofList (id.toList.filter (· ≠ '-'))

/-- One row. `op` is text: a newer daemon may have written an op this one does
    not know. -/
structure OutboxRow where
  id : String
  seq : Nat
  tool : String
  op : String
  subjectKey : String
  payload : String
  idemKey : String
  grantId : Option String
  grantRev : Option String
  cause : String
  actor : String
  afterSubject : Option String
  state : RowState
  attempts : Int
  firstAttemptAt : Option Int
  nextAttemptAt : Int
  lastStatus : Option Int
  lastError : Option String
  result : Option String
  createdAt : Int
  updatedAt : Int
  doneAt : Option Int
  filledAt : Option Int
  deriving Repr, DecidableEq

namespace OutboxRow

/-- `state IN ('pending','blocked')`. -/
def isOpen (r : OutboxRow) : Bool := r.state = .pending ∨ r.state = .blocked

/-- Is the row's op one this worker delivers? -/
def isDelivered (r : OutboxRow) : Bool := Op.delivered.any (·.asStr = r.op)

/-- Rows of one queue: the same tool and subject. -/
def sameQueue (r other : OutboxRow) : Prop := r.tool = other.tool ∧ r.subjectKey = other.subjectKey

/-- What no update of a row changes. -/
structure Same (r other : OutboxRow) : Prop where
  id : other.id = r.id
  seq : other.seq = r.seq
  tool : other.tool = r.tool
  op : other.op = r.op
  subjectKey : other.subjectKey = r.subjectKey

end OutboxRow

/-- The table: `seq` is its primary key (AUTOINCREMENT, so it never goes back)
    and `id` is unique. -/
structure Outbox where
  rows : KeyedTable OutboxRow.seq
  lastSeq : Nat
  seq_le : ∀ r ∈ rows.rows, r.seq ≤ lastSeq
  unique : (rows.rows.map OutboxRow.id).Nodup

namespace Outbox

def empty : Outbox := ⟨.empty, 0, by simp, by simp⟩

theorem eq_of_id (o : Outbox) {r e : OutboxRow} (hr : r ∈ o.rows.rows) (he : e ∈ o.rows.rows)
    (same : r.id = e.id) : r = e :=
  List.inj_on_of_nodup_map o.unique hr he same

/-- `UPDATE tool_outbox SET … WHERE p`. -/
def update (o : Outbox) (p : OutboxRow → Bool) (f : OutboxRow → OutboxRow)
    (keeps : ∀ r, OutboxRow.Same r (f r)) : Outbox where
  rows := o.rows.updateWhere p f fun r => (keeps r).seq
  lastSeq := o.lastSeq
  seq_le := by
    intro r member
    obtain ⟨r', member', rfl⟩ := (KeyedTable.mem_updateWhere ..).mp member
    split
    · rw [(keeps r').seq]
      exact o.seq_le r' member'
    · exact o.seq_le r' member'
  unique := by
    have ids : (o.rows.updateWhere p f fun r => (keeps r).seq).rows.map OutboxRow.id =
        o.rows.rows.map OutboxRow.id := by
      simp only [KeyedTable.updateWhere, List.map_map]
      apply List.map_congr_left
      intro r _
      simp only [Function.comp_apply]
      split
      · exact (keeps r).id
      · rfl
    rw [ids]
    exact o.unique

theorem mem_update {o : Outbox} {p : OutboxRow → Bool} {f : OutboxRow → OutboxRow}
    {keeps : ∀ r, OutboxRow.Same r (f r)} {e : OutboxRow} :
    e ∈ (o.update p f keeps).rows.rows ↔ ∃ r ∈ o.rows.rows, (if p r then f r else r) = e :=
  KeyedTable.mem_updateWhere o.rows p f (fun r => (keeps r).seq) e

/-- `INSERT`: nothing when the id is taken. -/
def insert (o : Outbox) (row : Nat → OutboxRow) (seq : ∀ n, (row n).seq = n) : Option Outbox :=
  if taken : (row (o.lastSeq + 1)).id ∈ o.rows.rows.map OutboxRow.id then none
  else some {
    rows := o.rows.upsert (row (o.lastSeq + 1))
    lastSeq := o.lastSeq + 1
    seq_le := by
      intro r member
      rcases (KeyedTable.mem_upsert _ _ _).mp member with rfl | ⟨old, -⟩
      · exact le_of_eq (seq _)
      · exact (o.seq_le r old).trans (Nat.le_succ _)
    unique := by
      have absent : (row (o.lastSeq + 1)).seq ∉ o.rows.rows.map OutboxRow.seq := by
        rw [seq, List.mem_map]
        rintro ⟨r, member, same⟩
        have := o.seq_le r member
        omega
      simp only [KeyedTable.upsert, absent, if_false, List.map_append, List.map_singleton]
      exact o.unique.append (List.nodup_singleton _) (by simpa using taken) }

/-! ## Enqueue -/

/-- One op to enqueue. -/
structure NewOp where
  tool : String
  op : Op
  subjectKey : String
  payload : Value
  grantId : Option String
  grantRev : Option String
  /-- The text of its cause. -/
  cause : String
  /-- Wait until this subject's queue is empty. -/
  afterSubject : Option String

/-- The row a new op becomes. -/
def NewOp.row (op : NewOp) (id actor : String) (now : Int) (seq : Nat) : OutboxRow where
  id := id
  seq := seq
  tool := op.tool
  op := op.op.asStr
  subjectKey := op.subjectKey
  payload := String.ofList op.payload.render
  idemKey := idemKeyFor id
  grantId := op.grantId
  grantRev := op.grantRev
  cause := op.cause
  actor := actor
  afterSubject := op.afterSubject
  state := .pending
  attempts := 0
  firstAttemptAt := none
  nextAttemptAt := now
  lastStatus := none
  lastError := none
  result := none
  createdAt := now
  updatedAt := now
  doneAt := none
  filledAt := none

/-- A new `update` or `deprovision` replaces the subject's unattempted updates. -/
def supersede (o : Outbox) (op : NewOp) (now : Int) : Outbox :=
  if op.op = .update ∨ op.op = .deprovision then
    o.update (fun r => r.tool = op.tool && r.subjectKey = op.subjectKey && r.state = .pending &&
        r.op = "update" && r.attempts = 0)
      (fun r => { r with state := .superseded, updatedAt := now }) fun _ => ⟨rfl, rfl, rfl, rfl, rfl⟩
  else o

/-- Enqueue ops in order, each under the id drawn for it. Nothing when an id is
    taken: the caller's transaction rolls back. -/
def enqueue (o : Outbox) (actor : String) (now : Int) : List (NewOp × String) → Option Outbox
  | [] => some o
  | (op, id) :: rest => do
      let o ← (o.supersede op now).insert (op.row id actor now) fun _ => rfl
      o.enqueue actor now rest

/-! ## Due rows -/

/-- `LIMIT n`, bound to a `usize` cast to `i64`: from 2⁶³ on it is negative, which
    SQLite reads as no limit. -/
def limitRows (limit : Nat) (rows : List OutboxRow) : List OutboxRow :=
  if limit < 2 ^ 63 then rows.take limit else rows

/-- Has the queue of `r`'s subject an open delivered row before `r`? -/
def behind (o : Outbox) (r : OutboxRow) : Bool :=
  o.rows.rows.any fun e => e.tool = r.tool && e.subjectKey = r.subjectKey && e.isOpen &&
    e.isDelivered && e.seq < r.seq

/-- Has the subject `r` comes after an open delivered row before `r`? -/
def waits (o : Outbox) (r : OutboxRow) : Bool :=
  o.rows.rows.any fun d => d.tool = r.tool && some d.subjectKey = r.afterSubject && d.isOpen &&
    d.isDelivered && d.seq < r.seq

/-- Due rows of one tool: the head of each subject's queue when it is `pending`,
    due, and its `afterSubject` has no open row with a lower `seq`. -/
def dueHeads (o : Outbox) (tool : String) (now : Int) (limit : Nat) : List OutboxRow :=
  limitRows limit ((o.rows.rows.filter fun r => r.tool = tool && r.state = .pending &&
    r.nextAttemptAt ≤ now && r.isDelivered && !o.behind r && !o.waits r).insertionSort
      fun a b => a.seq ≤ b.seq)

/-! ## What the worker records -/

/-- An answer the worker records for a row. -/
inductive Mark where
  | done (status : Int) (result : Option String)
  | filled (payload : Option Value)
  | held (status : Int) (result : Option String) (error : String)
  | retry (status : Option Int) (error : String) (nextAt : Int)
  | blocked (status : Option Int) (error : String)
  | rewrite (payload : Value) (idemKey : String) (status : Int)
  deriving Repr

variable (o : Outbox) (id : String)

/-- 2xx: `done`, store the response body. -/
def markDone (status : Int) (result : Option String) (now : Int) : Outbox :=
  o.update (·.id = id) (fun r => { r with
    state := .done, attempts := r.attempts + 1, firstAttemptAt := r.firstAttemptAt.or (some now)
    lastStatus := some status, lastError := none, result := result, updatedAt := now
    doneAt := some now }) fun _ => ⟨rfl, rfl, rfl, rfl, rfl⟩

/-- Persist the filled provision body before its first send. A no-op once
    filled. -/
def markFilled (payload : Option Value) (now : Int) : Outbox :=
  o.update (fun r => r.id = id && r.filledAt.isNone) (fun r =>
    match payload with
    | some p => { r with payload := String.ofList p.render, filledAt := some now, updatedAt := now }
    | none => { r with filledAt := some now }) fun _ => by cases payload <;> exact ⟨rfl, rfl, rfl, rfl, rfl⟩

/-- A member-add answered 2xx with the subject in `skipped`. Final. -/
def markHeld (status : Int) (result : Option String) (error : String) (now : Int) : Outbox :=
  o.update (·.id = id) (fun r => { r with
    state := .held, attempts := r.attempts + 1, firstAttemptAt := r.firstAttemptAt.or (some now)
    lastStatus := some status, lastError := some error, result := result, updatedAt := now
    doneAt := some now }) fun _ => ⟨rfl, rfl, rfl, rfl, rfl⟩

/-- A transient failure: stays as it is, next try at `nextAt`. -/
def markRetry (status : Option Int) (error : String) (nextAt now : Int) : Outbox :=
  o.update (·.id = id) (fun r => { r with
    attempts := r.attempts + 1, firstAttemptAt := r.firstAttemptAt.or (some now)
    lastStatus := status, lastError := some error, nextAttemptAt := nextAt
    updatedAt := now }) fun _ => ⟨rfl, rfl, rfl, rfl, rfl⟩

/-- A terminal failure: `blocked` halts this subject. -/
def markBlocked (status : Option Int) (error : String) (now : Int) : Outbox :=
  o.update (·.id = id) (fun r => { r with
    state := .blocked, attempts := r.attempts + 1, firstAttemptAt := r.firstAttemptAt.or (some now)
    lastStatus := status, lastError := some error, updatedAt := now }) fun _ => ⟨rfl, rfl, rfl, rfl, rfl⟩

/-- Username conflict, first time: a new body under a new key, due now. -/
def rewritePayload (payload : Value) (idemKey : String) (status now : Int) : Outbox :=
  o.update (·.id = id) (fun r => { r with
    payload := String.ofList payload.render, idemKey := idemKey, attempts := r.attempts + 1
    firstAttemptAt := r.firstAttemptAt.or (some now), lastStatus := some status
    lastError := some "username taken; retrying with a suffix", nextAttemptAt := now
    updatedAt := now }) fun _ => ⟨rfl, rfl, rfl, rfl, rfl⟩

def mark (now : Int) : Mark → Outbox
  | .done status result => o.markDone id status result now
  | .filled payload => o.markFilled id payload now
  | .held status result error => o.markHeld id status result error now
  | .retry status error nextAt => o.markRetry id status error nextAt now
  | .blocked status error => o.markBlocked id status error now
  | .rewrite payload idemKey status => o.rewritePayload id payload idemKey status now

/-! ## What an owner does -/

def get : Option OutboxRow := o.rows.rows.find? (·.id = id)

def RowState.text : RowState → String
  | .pending => "pending"
  | .done => "done"
  | .blocked => "blocked"
  | .held => "held"
  | .skipped => "skipped"
  | .superseded => "superseded"

/-- Owner retry: `blocked`, or `pending` that already failed → `pending`, due now. -/
def retry (now : Int) : Except String Outbox :=
  match o.get id with
  | none => .error ("unknown outbox row '" ++ id ++ "'")
  | some row =>
      if row.state = .blocked ∨ (row.state = .pending ∧ row.attempts ≥ 1) then
        .ok (o.update (·.id = id)
          (fun r => { r with state := .pending, nextAttemptAt := now, updatedAt := now })
          fun _ => ⟨rfl, rfl, rfl, rfl, rfl⟩)
      else .error ("outbox row '" ++ id ++ "' is " ++ RowState.text row.state ++ " with " ++
        toString row.attempts ++
        " attempt(s): retry needs a blocked row or a pending row that has failed")

/-- Owner skip: `blocked` → `skipped` only. -/
def skip (now : Int) : Except String Outbox :=
  match o.get id with
  | none => .error ("unknown outbox row '" ++ id ++ "'")
  | some row =>
      if row.state = .blocked then
        .ok (o.update (·.id = id)
          (fun r => { r with state := .skipped, updatedAt := now, doneAt := some now })
          fun _ => ⟨rfl, rfl, rfl, rfl, rfl⟩)
      else .error ("outbox row '" ++ id ++ "' is " ++ RowState.text row.state ++
        ": only a blocked row can be skipped")

/-- Every row of a kind → `skipped`. -/
def skipWhere (p : OutboxRow → Bool) (now : Int) (why : String) : Outbox :=
  o.update p (fun r => { r with
    state := .skipped, lastError := some why, updatedAt := now
    doneAt := some now }) fun _ => ⟨rfl, rfl, rfl, rfl, rfl⟩

/-- `substr(subject_key, 1, n) = prefix`, for a prefix of `n` characters. -/
def hasPrefix (pre : String) (r : OutboxRow) : Bool :=
  r.subjectKey.toList.take pre.toList.length = pre.toList

/-- A subject's `blocked` rows → `skipped`. -/
def skipBlockedSubject (tool subject : String) (now : Int) (why : String) : Outbox :=
  o.skipWhere (fun r => r.tool = tool && r.subjectKey = subject && r.state = .blocked) now why

/-- Open rows of one tool whose subject starts with `pre` → `skipped`. -/
def skipOpenPrefix (tool pre : String) (now : Int) (why : String) : Outbox :=
  o.skipWhere (fun r => r.tool = tool && r.isOpen && hasPrefix pre r) now why

/-- Open rows of one tool → `skipped`. -/
def skipOpenRows (tool : String) (now : Int) (why : String) : Outbox :=
  o.skipWhere (fun r => r.tool = tool && r.isOpen) now why

/-- `blocked` rows of one tool whose subject starts with `pre` → `pending`, due
    now. -/
def retryBlockedPrefix (tool pre : String) (now : Int) : Outbox :=
  o.update (fun r => r.tool = tool && r.state = .blocked && hasPrefix pre r)
    (fun r => { r with state := .pending, nextAttemptAt := now, updatedAt := now })
    fun _ => ⟨rfl, rfl, rfl, rfl, rfl⟩

/-- Drop finished rows older than `retentionSecs`. `pending`, `blocked` and `held`
    are never pruned. -/
def prune (now : Int) : Outbox where
  rows := o.rows.deleteWhere fun r =>
    (r.state = .done || r.state = .skipped || r.state = .superseded) &&
      r.doneAt.getD r.updatedAt < now - retentionSecs
  lastSeq := o.lastSeq
  seq_le := fun r member => o.seq_le r ((KeyedTable.mem_deleteWhere _ _ _).mp member).1
  unique := o.unique.sublist (List.filter_sublist.map _)

end Outbox

end K2.ToolHook
