import K2.Json
import Mathlib.Data.Prod.Lex
import Mathlib.Data.String.Basic
import Mathlib.Order.BooleanAlgebra.Basic

/-! # Stash records

The shared v1 record of the prompt stash: how a pushed JSON value is cleaned
into one, why it is refused, and which of two records wins.
-/

namespace K2.Stash

/-- Tombstones older than this (by `updatedAt`) are collected on write. -/
def tombstoneKeepMs : Int := 90 * 24 * 60 * 60 * 1000
/-- A record stamped further than this in the future is refused. -/
def maxFutureSkewMs : Int := 24 * 60 * 60 * 1000
/-- The most live records a person may have. -/
def liveCap : Int := 50
/-- The most stored records per person, tombstones included. -/
def maxRows : Int := 2000
def textMax : Nat := 20000
def attachmentsMax : Nat := 10
def quotesMax : Nat := 20
def recordMaxBytes : Nat := 128 * 1024
def attachmentIdMax : Nat := 128
def nameMax : Nat := 255
def typeMax : Nat := 255
def pathMax : Nat := 4096
def sourceFieldMax : Nat := 300

def sourceKeys : List String := ["server_id", "server_label", "user", "agent", "agent_name"]

/-- Why a pushed record was refused. -/
inductive Reason where
  | notAnObject | unsupportedVersion | invalidId | invalidText | textTooLong
  | invalidAttachment | tooManyAttachments | invalidQuote | tooManyQuotes | invalidSource
  | invalidCreatedAt | invalidUpdatedAt | futureUpdatedAt | invalidDeletedAt | tooLarge
  | capReached
  deriving Repr, DecidableEq

/-- The word a client reads in `rejected[].reason`. -/
def Reason.text : Reason → String
  | notAnObject => "not_an_object"
  | unsupportedVersion => "unsupported_version"
  | invalidId => "invalid_id"
  | invalidText => "invalid_text"
  | textTooLong => "text_too_long"
  | invalidAttachment => "invalid_attachment"
  | tooManyAttachments => "too_many_attachments"
  | invalidQuote => "invalid_quote"
  | tooManyQuotes => "too_many_quotes"
  | invalidSource => "invalid_source"
  | invalidCreatedAt => "invalid_created_at"
  | invalidUpdatedAt => "invalid_updated_at"
  | futureUpdatedAt => "future_updated_at"
  | invalidDeletedAt => "invalid_deleted_at"
  | tooLarge => "too_large"
  | capReached => "cap_reached"

/-- One stash record as stored; `body` is the whole record object. -/
structure Record where
  id : String
  createdAt : Int
  updatedAt : Int
  updatedBy : String
  deletedAt : Option Int
  body : Members
  deriving Repr

namespace Record

def isLive (r : Record) : Bool := r.deletedAt.isNone

/-- Is `r` the winner over `other`? A full tie with the same live/deleted state
    is "not newer". -/
def beats (r other : Record) : Bool :=
  match compare r.updatedAt other.updatedAt with
  | .gt => true
  | .lt => false
  | .eq =>
      match compare r.updatedBy other.updatedBy with
      | .gt => true
      | .lt => false
      | .eq => !r.isLive && other.isLive

/-- What `beats` compares, as one element of a linear order. -/
def stamp (r : Record) : Int ×ₗ String ×ₗ Bool :=
  toLex (r.updatedAt, toLex (r.updatedBy, !r.isLive))

theorem beats_iff (r other : Record) : r.beats other = true ↔ other.stamp < r.stamp := by
  simp only [beats, stamp, Prod.Lex.toLex_lt_toLex]
  rcases h : compare r.updatedAt other.updatedAt
  · have := compare_lt_iff_lt.mp h
    simp [not_lt.mpr this.le, this.ne']
  · have := compare_eq_iff_eq.mp h
    rcases h' : compare r.updatedBy other.updatedBy
    · have := compare_lt_iff_lt.mp h'
      simp [*, not_lt.mpr this.le, this.ne']
    · have := compare_eq_iff_eq.mp h'
      cases r.isLive <;> cases other.isLive <;> simp [*]
    · have := compare_gt_iff_gt.mp h'
      simp [*]
  · have := compare_gt_iff_gt.mp h
    simp [this]

end Record

/-- A lowercase uuid: 8-4-4-4-12 hex digits. -/
def validRecordId (s : String) : Bool :=
  s.toList.length == 36 && s.toList.zipIdx.all fun (c, i) =>
    if i = 8 || i = 13 || i = 18 || i = 23 then c == '-'
    else ('0' ≤ c && c ≤ '9') || ('a' ≤ c && c ≤ 'f')

/-- A valid device id: 1 to 128 characters of `[A-Za-z0-9._:-]`. -/
def validDeviceId (s : String) : Bool :=
  !s.isEmpty && Text.byteLen s ≤ 128 &&
    s.toList.all fun c => Text.isAsciiAlphanumeric c || c ∈ ['.', '_', ':', '-']

def positiveInt (v : Option Value) : Option Int := (v.bind Value.asI64).filter (0 < ·)

/-- An optional string member: absent stays absent, null stays null, `""`
    becomes null; one longer than `max` characters (or with a NUL) fails. -/
def optString (o : Members) (key : String) (max : Nat) : Option Members :=
  match o.get key with
  | none | some .null => some o
  | some (.string s) =>
      if s.isEmpty then some (o.insert key .null)
      else if s.length ≤ max ∧ '\x00' ∉ s.toList then some o
      else none
  | some _ => none

def cleanAttachment (v : Value) : Except Reason Value := do
  let o ← okOr v.asObject .invalidAttachment
  let _ ← okOr (((o.get "id").bind Value.asStr).filter fun id =>
    !id.isEmpty && Text.byteLen id ≤ attachmentIdMax && !id.toList.any Text.isControl) .invalidAttachment
  let _ ← okOr (((o.get "name").bind Value.asStr).filter fun n =>
    !n.isEmpty && n.length ≤ nameMax && !(n.toList.contains '\x00')) .invalidAttachment
  let o ← match o.get "type" with
    | none | some .null => .ok (o.insert "type" (.string ""))
    | some (.string t) => if t.length ≤ typeMax then .ok o else .error .invalidAttachment
    | some _ => .error .invalidAttachment
  let _ ← okOr ((o.get "size").bind Value.asU64) .invalidAttachment
  let o ← match o.get "device_id" with
    | none | some .null => .ok o
    | some (.string d) =>
        if d.isEmpty then .ok (o.insert "device_id" .null)
        else if validDeviceId d then .ok o
        else .error .invalidAttachment
    | some _ => .error .invalidAttachment
  let o ← okOr (optString o "path" pathMax) .invalidAttachment
  return .object o

def cleanQuote (v : Value) : Except Reason Value := do
  let o ← okOr v.asObject .invalidQuote
  if !(o.get "text").any Value.isString then throw .invalidQuote
  let o := if o.containsKey "from" then o else o.insert "from" .null
  let o ← okOr (optString o "from" sourceFieldMax) .invalidQuote
  return .object o

def cleanSource (v : Option Value) : Except Reason Value := do
  let o ← match v with
    | none | some .null => .ok []
    | some (.object o) => .ok o
    | some _ => .error .invalidSource
  let o ← sourceKeys.foldlM (fun o k =>
    okOr (optString (if o.containsKey k then o else o.insert k .null) k sourceFieldMax)
      Reason.invalidSource) o
  -- A device-local id names a different box on every device: unknown.
  if ((o.get "server_id").bind Value.asStr).any fun s => Text.toAsciiLowercase s == "local" then
    return .object (o.insert "server_id" .null)
  return .object o

/-- A tombstone's object: it carries no content. -/
def clearBody (o : Members) : Except Reason Members := do
  match o.get "text" with
  | none | some .null | some (.string _) =>
      return ((o.insert "text" (.string "")).insert "attachments" (.array [])).insert "quotes" (.array [])
  | some _ => throw .invalidText

/-- A live record's object: text checked, attachments and quotes cleaned. -/
def cleanBody (o : Members) : Except Reason Members := do
  match o.get "text" with
  | some (.string t) => if t.length > textMax then throw .textTooLong
  | _ => throw .invalidText
  let attachments ← match o.get "attachments" with
    | none | some .null => .ok []
    | some (.array a) =>
        if a.length > attachmentsMax then .error .tooManyAttachments else a.mapM cleanAttachment
    | some _ => .error .invalidAttachment
  let quotes ← match o.get "quotes" with
    | none | some .null => .ok []
    | some (.array q) => if q.length > quotesMax then .error .tooManyQuotes else q.mapM cleanQuote
    | some _ => .error .invalidQuote
  return (o.insert "attachments" (.array attachments)).insert "quotes" (.array quotes)

/-- Parse one pushed record from `deviceId`, or the reason it is refused. -/
def parseChange (v : Value) (deviceId : String) (nowMs : Int) : Except Reason Record := do
  let o ← okOr v.asObject .notAnObject
  if (o.get "v").bind Value.asI64 ≠ some 1 then throw .unsupportedVersion
  let id ← okOr (((o.get "id").bind Value.asStr).filter validRecordId) .invalidId
  let createdAt ← okOr (positiveInt (o.get "created_at")) .invalidCreatedAt
  let updatedAt ← okOr (positiveInt (o.get "updated_at")) .invalidUpdatedAt
  if updatedAt > nowMs + maxFutureSkewMs then throw .futureUpdatedAt
  let deletedAt ← match o.get "deleted_at" with
    | none | some .null => .ok none
    | v => (okOr (positiveInt v) Reason.invalidDeletedAt).map some
  let source ← cleanSource (o.get "source")
  let o := ((o.insert "source" source).insert "deleted_at"
    (deletedAt.elim .null fun t => .number (.int t))).insert "updated_by" (.string deviceId)
  let o ← if deletedAt.isSome then clearBody o else cleanBody o
  if (Value.object o).byteLen > recordMaxBytes then throw .tooLarge
  return { id, createdAt, updatedAt, updatedBy := deviceId, deletedAt, body := o }

end K2.Stash
