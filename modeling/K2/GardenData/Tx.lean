import K2.GardenData.Types
import K2.Lib.Machines
import K2.Lib.Table

/-! # Chunked transactions

`begin → parts → commit`: parts are staged in daemon memory, bound to their
caller and one space, and dropped after `txIdleSecs` without a part. A failing
part drops its transaction; a staging-cap refusal (`busy`) keeps it. An id that
timed out is remembered for a while, so that its caller hears `tx_expired`.
-/

namespace K2.GardenData

/-- How long a timed-out id still answers `tx_expired` (then `bad_tx`). -/
def expiredMemorySecs : Int := 600
/-- At most this many timed-out ids are remembered. -/
def expiredMemoryMax : Nat := 1024

/-- Who may use a transaction id. Anyone else presenting it gets `bad_tx`. -/
inductive TxOwner where
  /-- A widget call: the placement and the live hash it ran under. -/
  | placement (garden placement hash : String)
  /-- An agent, by workspace. -/
  | agent (projectId : String)
  /-- The person. -/
  | owner
  deriving Repr, DecidableEq

namespace TxOwner

/-- The bucket the open-transaction cap counts in: a placement (any hash), an
    agent, or the person. -/
def bucket : TxOwner → Nat × String × String
  | placement garden p _ => (0, garden, p)
  | agent projectId => (1, projectId, "")
  | owner => (2, "", "")

def cap : TxOwner → Nat
  | placement .. => maxTxPerPlacement
  | agent _ | owner => maxTxPerAgent

end TxOwner

/-- One open transaction's running totals. -/
structure TxStatus where
  ops : Nat
  bytes : Nat
  expiresAt : Int
  deriving Repr, DecidableEq

/-- The first key that is already taken, or comes twice. -/
def repeated (taken : List String) : List String → Option String
  | [] => none
  | k :: rest => if k ∈ taken then some k else repeated (k :: taken) rest

theorem repeated_eq_none {taken keys : List String} :
    repeated taken keys = none ↔ keys.Nodup ∧ ∀ k ∈ keys, k ∉ taken := by
  induction keys generalizing taken with
  | nil => simp [repeated]
  | cons k rest ih =>
      by_cases here : k ∈ taken
      · simp [repeated, here]
      · simp only [repeated, here, if_false, ih, List.nodup_cons, List.mem_cons, not_or,
          forall_eq_or_imp, not_false_eq_true, true_and]
        constructor
        · exact fun ⟨distinct, apart⟩ =>
            ⟨⟨fun member => (apart k member).1 rfl, distinct⟩, fun x hx => (apart x hx).2⟩
        · rintro ⟨⟨absent, distinct⟩, apart⟩
          exact ⟨distinct, fun x hx => ⟨fun same => absent (same ▸ hx), apart x hx⟩⟩

/-- An open transaction: what it has staged fits one commit and writes each key
    once. -/
structure Staged where
  owner : TxOwner
  space : Space
  ops : List Op
  keys : List String
  bytes : Nat
  lastAt : Int
  keys_eq : ∀ k, k ∈ keys ↔ k ∈ ops.map Op.key
  distinct : (ops.map Op.key).Nodup
  bytes_eq : bytes = opsBytes ops
  ops_le : ops.length ≤ maxTxOps
  bytes_le : bytes ≤ maxTxBytes

/-- Why a part drops its transaction. -/
def partFailure (s : Staged) (ops : List Op) : Option DataError :=
  if ops.isEmpty then some (.badRequest "a transaction part has at least one op")
  else if ops.length > maxBatchOps || opsBytes ops > maxBatchBytes then
    some (.tooLarge s!"a transaction part is at most {maxBatchOps} ops and {maxBatchBytes / 1024} KiB of values")
  else if s.ops.length + ops.length > maxTxOps || s.bytes + opsBytes ops > maxTxBytes then
    some (.tooLarge
      s!"a transaction is at most {maxTxOps} ops and {maxTxBytes / (1024 * 1024)} MiB of values")
  else (repeated s.keys (ops.map Op.key)).map fun k =>
    .badRequest ("'" ++ k ++ "' is in this transaction twice; a commit writes each key once")

theorem partFailure_none {s : Staged} {ops : List Op} (fits : partFailure s ops = none) :
    s.ops.length + ops.length ≤ maxTxOps ∧ s.bytes + opsBytes ops ≤ maxTxBytes ∧
      (ops.map Op.key).Nodup ∧ ∀ k ∈ ops.map Op.key, k ∉ s.keys := by
  simp only [partFailure] at fits
  split at fits
  · cases fits
  · split at fits
    · cases fits
    · split at fits
      · cases fits
      · rename_i small
        simp only [gt_iff_lt, Bool.or_eq_true, decide_eq_true_eq, not_or, not_lt] at small
        exact ⟨small.1, small.2, repeated_eq_none.mp (Option.map_eq_none_iff.mp fits)⟩

theorem opsBytes_append (ops more : List Op) : opsBytes (ops ++ more) = opsBytes ops + opsBytes more := by
  simp [opsBytes]

private theorem mem_foldl_insert (ks more : List String) (k : String) :
    k ∈ more.foldl (fun ks k => ks.insert k) ks ↔ k ∈ ks ∨ k ∈ more := by
  induction more generalizing ks with
  | nil => simp
  | cons m rest ih =>
      simp only [List.foldl_cons, ih, List.mem_insert_iff, List.mem_cons]
      tauto

namespace Staged

def expiresAt (s : Staged) : Int := s.lastAt + txIdleSecs

def idle (s : Staged) (now : Int) : Bool := now > s.expiresAt

/-- A transaction with nothing staged yet. -/
def fresh (caller : TxOwner) (space : Space) (now : Int) : Staged where
  owner := caller
  space := space
  ops := []
  keys := []
  bytes := 0
  lastAt := now
  keys_eq := by simp
  distinct := List.nodup_nil
  bytes_eq := rfl
  ops_le := Nat.zero_le _
  bytes_le := Nat.zero_le _

/-- A transaction with one more part. -/
def extend (s : Staged) (ops : List Op) (now : Int) (fits : partFailure s ops = none) : Staged where
  owner := s.owner
  space := s.space
  ops := s.ops ++ ops
  keys := (ops.map Op.key).foldl (fun ks k => ks.insert k) s.keys
  bytes := s.bytes + opsBytes ops
  lastAt := now
  keys_eq := fun k => by simp only [mem_foldl_insert, s.keys_eq, List.map_append, List.mem_append]
  distinct := by
    obtain ⟨-, -, once, apart⟩ := partFailure_none fits
    rw [List.map_append]
    exact s.distinct.append once fun k old new => apart k new ((s.keys_eq k).mpr old)
  bytes_eq := by rw [opsBytes_append, s.bytes_eq]
  ops_le := by
    rw [List.length_append]
    exact (partFailure_none fits).1
  bytes_le := (partFailure_none fits).2.1

end Staged

/-- Every open transaction on this daemon. -/
structure TxTable where
  epoch : String
  opened : FinMap String Staged
  /-- Timed-out ids: id → (owner, when it expired). -/
  expired : FinMap String (TxOwner × Int)

def validId (id : String) : Bool :=
  Text.byteLen id = 32 &&
    id.toList.all fun c => ('0' ≤ c && c ≤ '9') || ('a' ≤ c && c ≤ 'f')

/-- The entry that expired first. -/
def oldest (entries : List (String × TxOwner × Int)) : Option (String × TxOwner × Int) :=
  entries.foldl (fun best e =>
    match best with
    | none => some e
    | some b => if e.2.2 < b.2.2 then some e else some b) none

namespace TxTable

/-- A table with a fixed epoch: the first 8 characters of its ids. -/
def withEpoch (epoch : String) : TxTable := ⟨epoch, .empty, .empty⟩

def stagedBytes (t : TxTable) : Nat := (t.opened.values.map (·.bytes)).sum

def rememberExpired (t : TxTable) (id : String) (caller : TxOwner) (now : Int) : TxTable :=
  let kept : FinMap String (TxOwner × Int) := t.expired.deleteWhere fun e => !(now - e.2.2 ≤ expiredMemorySecs)
  let kept : FinMap String (TxOwner × Int) := if kept.rows.length ≥ expiredMemoryMax then
      match oldest kept.rows with
      | some e => kept.erase e.1
      | none => kept
    else kept
  { t with expired := kept.insert id (caller, now) }

/-- Is `id` one of this table's epoch? -/
def ofEpoch (t : TxTable) (id : String) : Bool := t.epoch.toList.isPrefixOf id.toList

/-- Why `id` isn't open for `caller`: `tx_expired` for its own timed-out id or an
    id from before a restart, else `bad_tx`. -/
def missing (t : TxTable) (id : String) (caller : TxOwner) (now : Int) : DataError :=
  match t.expired.lookup id with
  | some (o, since) => if o = caller ∧ now - since ≤ expiredMemorySecs then .txExpired else .badTx
  | none => if validId id && !t.ofEpoch id then .txExpired else .badTx

/-- The open transaction `id` of `caller`, after the idle check (an idle one is
    dropped and answers `tx_expired`). -/
def live (t : TxTable) (id : String) (caller : TxOwner) (now : Int) :
    TxTable × Except DataError Staged :=
  match t.opened.lookup id with
  | none => (t, .error (t.missing id caller now))
  | some s =>
      if s.owner ≠ caller then (t, .error .badTx)
      else if s.idle now then
        (rememberExpired { t with opened := t.opened.erase id } id s.owner now, .error .txExpired)
      else (t, .ok s)

/-- Drop one transaction that timed out. -/
def dropIdle (now : Int) (t : TxTable) (id : String) : TxTable :=
  match t.opened.lookup id with
  | some s => rememberExpired { t with opened := t.opened.erase id } id s.owner now
  | none => t

/-- Drop everything idle past `txIdleSecs`. Answers how many. -/
def expire (t : TxTable) (now : Int) : TxTable × Nat :=
  let idle := (t.opened.rows.filter fun e => e.2.idle now).map (·.1)
  (idle.foldl (dropIdle now) t, idle.length)

/-- The first id drawn that is neither open nor remembered. `draws` are the
    suffixes the OS RNG gives, in order. -/
def freshId (t : TxTable) (draws : List String) : Option String :=
  (draws.map (t.epoch ++ ·)).find? fun id =>
    (t.opened.lookup id).isNone && (t.expired.lookup id).isNone

/-- Open one. Answers the id and when it expires; nothing while the draws given
    hold no fresh id. -/
def begin (t : TxTable) (caller : TxOwner) (space : Space) (now : Int) (draws : List String) :
    TxTable × Option (Except DataError (String × Int)) :=
  let t := (t.expire now).1
  if (t.opened.values.filter fun s => s.owner.bucket = caller.bucket).length ≥ caller.cap then
    (t, some (.error .busy))
  else match t.freshId draws with
    | none => (t, none)
    | some id =>
        let staged := Staged.fresh caller space now
        ({ t with opened := t.opened.insert id staged }, some (.ok (id, staged.expiresAt)))

/-- The space a transaction writes. Same refusals as `add`, without staging. -/
def spaceOf (t : TxTable) (id : String) (caller : TxOwner) (now : Int) :
    TxTable × Except DataError Space :=
  let (t, found) := t.live id caller now
  (t, found.map (·.space))

/-- Stage one part. -/
def add (t : TxTable) (id : String) (caller : TxOwner) (ops : List Op) (now : Int) :
    TxTable × Except DataError TxStatus :=
  let stagedElsewhere := t.stagedBytes
  match t.live id caller now with
  | (t, .error e) => (t, .error e)
  | (t, .ok s) =>
      match fits : partFailure s ops with
      | some e => ({ t with opened := t.opened.erase id }, .error e)
      | none =>
          if stagedElsewhere + opsBytes ops > maxTxStagedBytes then (t, .error .busy)
          else
            let s := s.extend ops now fits
            ({ t with opened := t.opened.insert id s }, .ok ⟨s.ops.length, s.bytes, s.expiresAt⟩)

/-- Remove and hand back the staged ops for commit. -/
def take (t : TxTable) (id : String) (caller : TxOwner) (now : Int) :
    TxTable × Except DataError (Space × List Op) :=
  match t.live id caller now with
  | (t, .error e) => (t, .error e)
  | (t, .ok s) =>
      ({ t with opened := t.opened.erase id },
        if s.ops.isEmpty then .error (.badRequest "the transaction has no ops to commit")
        else .ok (s.space, s.ops))

/-- Drop one. True when it existed and belonged to `caller`. -/
def abort (t : TxTable) (id : String) (caller : TxOwner) : TxTable × Bool :=
  match t.opened.lookup id with
  | some s => if s.owner = caller then ({ t with opened := t.opened.erase id }, true) else (t, false)
  | none => (t, false)

end TxTable

end K2.GardenData
