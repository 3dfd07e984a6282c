import K2.Json
import K2.Lib.Table
import K2.Vault.Policy

/-! # The vault

Secrets, their versions and their grants. An operation reads and checks under the
connection lock and drops it; what it found out is a write, which a later
transaction carries out. A value leaves through `resolve` alone.
-/

namespace K2.Vault

/-- An incoming delivery of a handed-off secret. -/
structure Handoff where
  deliveryId : String
  status : String
  localWorkspaceId : String
  secretId : Option String
  decidedBy : Option String
  decidedAt : Option String
  /-- The ceiling of the item sent. -/
  ceiling : String
  deriving Repr, DecidableEq

structure LocalVault where
  secrets : KeyedTable SecretMeta.id
  versions : KeyedTable VersionRow.pk
  grants : KeyedTable Grant.id
  handoffs : List Handoff
  /-- The vault looks older than its anchor. -/
  rollback : Bool
  /-- Exported for a box move. -/
  frozen : Bool

/-- A vault with no secret in it yet. -/
def LocalVault.fresh (handoffs : List Handoff) (rollback frozen : Bool) : LocalVault :=
  ⟨.empty, .empty, .empty, handoffs, rollback, frozen⟩

/-! ## Writes -/

/-- What a checked operation writes. -/
inductive Write where
  | create (m : SecretMeta) (value : Bytes) (stamp : String)
  /-- `m` names the new version. -/
  | version (m : SecretMeta) (value : Bytes) (stamp : String)
  | policy (m : SecretMeta)
  | status (m : SecretMeta)
  | grant (g : Grant)
  | revoke (grantId : String)
  deriving Repr

/-- What a checked operation comes to. -/
inductive Planned (α : Type) where
  | answer (a : α)
  | write (w : Write) (a : α)

def uniqueFailed (columns : String) : VaultError :=
  .internal ("vault.db: UNIQUE constraint failed: " ++ columns)

def movedOut : VaultError :=
  ⟨"vault_moved_out", 423, "this vault was exported for a box move: it reads, but writes wait. The owner lifts it with k2 migrate export-secrets --unfreeze if the move is called off"⟩

/-- The row of a name, in its scope. -/
def SecretMeta.named (m : SecretMeta) (ns : Namespace) (scope : Scope) (name : String) : Bool :=
  m.ns = ns && m.scope = scope && m.name = name

def VersionRow.outdated (time : String) (r : VersionRow) : VersionRow :=
  { r with state := .revoked, revokedAt := some time }

@[simp] theorem VersionRow.pk_outdated (time : String) (r : VersionRow) : (r.outdated time).pk = r.pk := rfl

/-- The columns an update of a secret writes. -/
def SecretMeta.written (row m : SecretMeta) : SecretMeta :=
  { row with
    hosts := m.hosts, inject := m.inject, defaultDelivery := m.defaultDelivery
    deliveryCeiling := m.deliveryCeiling, humanGiven := m.humanGiven
    latestVersion := m.latestVersion, status := m.status, rotateEveryDays := m.rotateEveryDays
    description := m.description, expiresAt := m.expiresAt, updatedAt := m.updatedAt }

@[simp] theorem SecretMeta.written_id (row m : SecretMeta) : (row.written m).id = row.id := rfl

namespace LocalVault

variable (v : LocalVault)

def insertSecret (m : SecretMeta) : Except VaultError LocalVault :=
  if v.secrets.rows.any (·.named m.ns m.scope m.name) then
    .error (uniqueFailed "secret.namespace, secret.scope_kind, secret.scope_id, secret.name")
  else (okOr (v.secrets.insertNew m) (uniqueFailed "secret.id")).map fun secrets => { v with secrets }

def updateSecret (m : SecretMeta) : LocalVault :=
  { v with secrets := v.secrets.updateWhere (·.id = m.id) (·.written m) (·.written_id m) }

def insertVersion (secretId : String) (version : Nat) (value : Bytes) (decider time : String) :
    Except VaultError LocalVault :=
  (okOr (v.versions.insertNew ⟨secretId, version, value, time, decider, .active, none⟩)
    (uniqueFailed "secret_version.secret_id, secret_version.version")).map fun versions => { v with versions }

/-- Older active versions are revoked, and kept for a while. -/
def revokeOlder (secretId : String) (keep : Nat) (time : String) : LocalVault :=
  { v with
    versions := v.versions.updateWhere
      (fun r => r.secretId = secretId && r.state = .active && r.version ≠ keep)
      (·.outdated time) (·.pk_outdated time) }

/-- The versions and grants of a secret go with its value. -/
def forget (secretId : String) : LocalVault :=
  { v with
    versions := v.versions.deleteWhere (·.secretId = secretId)
    grants := v.grants.deleteWhere (·.secretId = secretId) }

/-- One grant per secret, consumer and delivery: replace. -/
def putGrant (g : Grant) : Except VaultError LocalVault :=
  (okOr ((v.grants.deleteWhere fun x =>
      x.secretId = g.secretId && x.consumer = g.consumer && x.delivery = g.delivery).insertNew g)
    (uniqueFailed "grants.id")).map fun grants => { v with grants }

end LocalVault

/-- A write's transaction. -/
def Write.apply (time : String) : Write → LocalVault → Except VaultError LocalVault
  | .create m value stamp, v => do
      let v ← v.insertSecret m
      v.insertVersion m.id 1 value stamp time
  | .version m value stamp, v => do
      let v ← v.insertVersion m.id m.latestVersion value stamp time
      .ok ((v.revokeOlder m.id m.latestVersion time).updateSecret m)
  | .policy m, v => .ok (v.updateSecret m)
  | .status m, v => .ok ((if m.status = .destroyed then v.forget m.id else v).updateSecret m)
  | .grant g, v => v.putGrant g
  | .revoke grantId, v => .ok { v with grants := v.grants.deleteWhere (·.id = grantId) }

/-- A write is refused while the vault is frozen. -/
def LocalVault.mutate (v : LocalVault) (time : String) (w : Write) : Except VaultError LocalVault :=
  if v.frozen then .error movedOut else w.apply time v

/-- The write of an operation whose check just passed. -/
def LocalVault.perform {α : Type} (v : LocalVault) (time : String) (planned : Except VaultError (Planned α)) :
    LocalVault × Except VaultError α :=
  match planned with
  | .error e => (v, .error e)
  | .ok (.answer a) => (v, .ok a)
  | .ok (.write w a) =>
      match v.mutate time w with
      | .ok v' => (v', .ok a)
      | .error e => (v, .error e)

/-! ## Reads -/

def personDecided (decider : String) : Bool :=
  decider = "owner" || ("connect:".toList.isPrefixOf decider.toList && Text.byteLen decider > Text.byteLen "connect:")

def isHexDigit (c : Char) : Bool := isDigit c || ('a' ≤ c && c ≤ 'f') || ('A' ≤ c && c ≤ 'F')

def validDeliveryId (id : String) : Bool :=
  match (List.isPrefixOf "hd_".toList id.toList : Bool) with
  | true => (id.toList.drop 3).length = 32 && (id.toList.drop 3).all isHexDigit
  | false => false

/-- The ceiling a landed copy gets: at most `env`, and one that delivers. -/
def landingCeiling (ceiling : String) : Delivery :=
  let sender := (Delivery.parse ceiling).getD .fetch
  let most := if sender.level > Delivery.env.level then .env else sender
  if most = .none || most = .proxy then .fetch else most

namespace LocalVault

variable (fm : Formats) (v : LocalVault)

def findRow (sel : Selector) : Except VaultError SecretMeta :=
  okOr (match sel with
    | .id id => v.secrets.get id
    | .name ns scope name => v.secrets.rows.find? (·.named ns scope name)) (.notFound "no such secret")

def grantsFor (secretId : String) : List Grant :=
  (v.grants.rows.filter (·.secretId = secretId)).insertionSort (·.grantedAt ≤ ·.grantedAt)

/-- The ceiling a person accepted a handed-off copy at. -/
def acceptedHandoffCeiling (m : SecretMeta) : Option Delivery :=
  if m.ns ≠ .user || m.scope.kind ≠ .workspace || m.status ≠ .active then none
  else if !"handoff:".toList.isPrefixOf m.origin.toList then none
  else
    let id := String.ofList (m.origin.toList.drop "handoff:".toList.length)
    if !validDeliveryId id then none
    else
      match v.handoffs.find? (·.deliveryId = id) with
      | none => none
      | some r =>
          let person := r.decidedBy.any personDecided
          if r.status ≠ "landed" || r.localWorkspaceId ≠ m.scope.id || r.secretId ≠ some m.id ||
              !person || r.decidedAt.isNone then none
          else
            let ceiling := landingCeiling r.ceiling
            if ceiling.level ≤ Delivery.env.level && Delivery.fetch.level ≤ ceiling.level then some ceiling
            else none

def ownWsHasGrant (m : SecretMeta) : Actor → Bool
  | .agent a => (v.grantsFor m.id).any fun g =>
      g.consumer.kind = .workspace && (g.consumer.id = a.workspaceId || g.consumer.id = "*")
  | _ => false

def factsFor (m : SecretMeta) (actor : Actor) : Facts where
  ns := m.ns
  scope := m.scope
  createdBy := m.createdBy
  humanGiven := m.humanGiven
  ownWsHasGrant := v.ownWsHasGrant m actor
  handoffCeiling := if actor.isAgent then v.acceptedHandoffCeiling m else none

def decryptVersion (m : SecretMeta) (version : Nat) : Except VaultError Bytes :=
  match v.versions.get (m.id, version) with
  | none => .error (.notFound "that version doesn't exist")
  | some r => if r.state = .destroyed then .error (.notFound "that version was destroyed") else .ok r.value

end LocalVault

/-- Agent delivery is for ssh keys the agent can serve. -/
def checkAgentDelivery (fm : Formats) (kind : Kind) (deliveries : List Delivery) (value : Bytes) :
    Except VaultError Unit :=
  if !deliveries.contains .agent then .ok ()
  else if kind ≠ .sshKey then
    .error (.badRequest "delivery_not_for_kind" "agent delivery is for ssh keys (--kind ssh_key)")
  else fm.checkAgentKey value

/-! ## Put and rotate -/

def rolledBack : VaultError :=
  .conflict "vault_rollback" "the vault looks rolled back; the owner must confirm in Settings → Vault"

def secretDestroyed (hint : String) : VaultError := .conflict "secret_destroyed" hint

def isAsciiWhitespace (b : UInt8) : Bool := b = 0x20 || b = 0x9 || b = 0xa || b = 0xc || b = 0xd

/-- The value as it is kept, and whether it was trimmed. -/
def prepareValue (kind : Kind) (value : Bytes) : Except VaultError (Bytes × Bool) :=
  if value.isEmpty then .error (.badRequest "empty_value" "the value is empty")
  else if value.length > 1024 * 1024 then
    .error (.badRequest "value_too_large" "values are at most 1 MiB")
  else
    let kept := if kind.trimsOnSave then
      (value.dropWhile isAsciiWhitespace).rdropWhile isAsciiWhitespace else value
    if kept.isEmpty then .error (.badRequest "empty_value" "the value is empty")
    else .ok (kept, kept.length ≠ value.length)

def defaultOrigin : Actor → String
  | .owner => "cli-owner"
  | .login .. => "ui"
  | .agent _ => "cli-agent"
  | .guest .. => "guest"
  | .system s => "system:" ++ s

def checkSigner (fm : Formats) (inject : Option Inject) (value : Bytes) : Except VaultError Unit :=
  match inject.bind (·.sign) with
  | some s => fm.checkSigned s value
  | none => .ok ()

def checkInject (fm : Formats) (actor : Actor) (inject : Option Inject) : Except VaultError Unit :=
  match inject with
  | none => .ok ()
  | some i => do
      fm.validateInject i
      if i.usesBody && !actor.maySetBodyInject then .error (.forbidden "inject_body_needs_person"
        "only a person can let K2 put a secret in a request body")
      else .ok ()

def checkSshKeyValue (fm : Formats) (kind : Kind) (landedCopy : Bool) (value : Bytes) : Except VaultError Unit :=
  if kind = .sshKey && !landedCopy then fm.checkSshKey value else .ok ()

def checkExpiry (fm : Formats) (expiresAt : Option String) (code : String) : Except VaultError Unit :=
  match expiresAt with
  | some x => if (fm.parseTs x).isNone then .error (.badRequest code "expiry must be RFC 3339") else .ok ()
  | none => .ok ()

namespace PutRequest

variable (fm : Formats) (req : PutRequest)

/-- What is checked before the vault is read. -/
def validate (rollback : Bool) : Except VaultError Unit := do
  validateName req.name (req.ns = .user)
  if req.scope.kind = .engine && req.ns = .system then .ok () else req.scope.validateFor req.ns
  if req.scope.kind = .engine && req.ns ≠ .system then
    .error (.badRequest "bad_scope" "engine scope is for K2's own secrets")
  else if req.ns = .user && rollback then .error rolledBack
  else .ok ()

def injection (value : Bytes) : Option Inject :=
  match req.inject with
  | some i => some i
  | none => if req.kind.injectsByDefault && !req.noInject then some ((fm.detect value).getD .bearer) else none

/-- The default delivery, and the ceiling. -/
def deliveries (signed : Bool) : Delivery × Delivery :=
  let fallback := req.defaultDelivery.getD (if signed then .fetch else req.kind.defaultDelivery)
  (fallback, req.deliveryCeiling.getD
    (if signed then (if fallback.level > Delivery.fetch.level then fallback else .fetch)
    else if fallback.level ≥ Delivery.env.level then fallback
    else .env))

def checkExpires : Except VaultError Unit :=
  if req.scope.kind = .session && req.expiresAt.isNone then
    .error (.badRequest "expiry_required" "chat secrets need an expiry")
  else checkExpiry fm req.expiresAt "bad_expiry"

/-- The new secret of a name that isn't there. -/
def create (value : Bytes) (trimmed : Bool) (actor : Actor) (now : Int) (newId : String) :
    Except VaultError (Planned PutOutcome) := do
  if req.mode = .rotate then .error (.notFound (req.name ++ " doesn't exist"))
  else
    canCreate actor req.ns req.scope
    let hosts ← fm.normaliseList req.hosts actor.mayAddWildcards
    let inject := req.injection fm value
    checkInject fm actor inject
    checkSigner fm inject value
    let (fallback, ceiling) := req.deliveries (inject.bind (·.sign)).isSome
    if fallback.level > ceiling.level then
      .error (.badRequest "delivery_above_ceiling" "the delivery is looser than the ceiling")
    else
      checkAgentDelivery fm req.kind [fallback, ceiling] value
      checkSshKeyValue fm req.kind req.landedCopy value
      req.checkExpires fm
      let t := fm.ts now
      let info : SecretMeta := {
        id := newId, ns := req.ns, scope := req.scope, name := req.name, kind := req.kind
        provider := "local", hosts, inject, defaultDelivery := fallback, deliveryCeiling := ceiling
        origin := if req.origin = "" then defaultOrigin actor else req.origin
        createdBy := actor.stamp, humanGiven := req.humanGivenOverride.getD actor.isHuman
        latestVersion := 1, status := .active, rotateEveryDays := req.rotateEveryDays.filter (· > 0)
        description := Text.takeChars 500 req.description, expiresAt := req.expiresAt
        createdAt := t, updatedAt := t }
      .ok (.write (.create info value actor.stamp) ⟨info, true, true, trimmed, false⟩)

end PutRequest

/-- An agent's new version must keep the old destination of a person's value. -/
def checkDestination (fm : Formats) (m : SecretMeta) (actor : Actor) (old : Option Bytes) (value : Bytes) :
    Except VaultError Unit :=
  if m.humanGiven && actor.isAgent && m.kind.carriesDestination then
    let before := old.bind fm.destinationOf
    if before.isNone || before ≠ fm.destinationOf value then
      .error (.ownerConfirmRequired "an agent can't point this secret at a different host; the owner can")
    else .ok ()
  else .ok ()

/-- A destroyed name stays retired, but for K2's own. -/
def revived (m : SecretMeta) (actor : Actor) : Except VaultError SecretMeta :=
  if m.status = .destroyed then
    if actor.isSystem && m.ns = .system then .ok { m with status := .active }
    else .error (secretDestroyed "that secret was destroyed; pick a new name")
  else .ok m

section Rotate

variable (fm : Formats) (v : LocalVault)

/-- The checks of a new version against the row that was read. -/
def rotateRow (row : SecretMeta) (value : Bytes) (actor : Actor) (idempotent trimmed : Bool) (now : Int) :
    Except VaultError (Planned PutOutcome) := do
  let m ← revived row actor
  checkSigner fm m.inject value
  checkAgentDelivery fm m.kind [m.defaultDelivery, m.deliveryCeiling] value
  canManage actor (v.factsFor m actor)
  let old := (v.decryptVersion m m.latestVersion).toOption
  if idempotent && old = some value then .ok (.answer ⟨m, false, false, trimmed, false⟩)
  else
    checkDestination fm m actor old value
    let m' := { m with latestVersion := m.latestVersion + 1, updatedAt := fm.ts now }
    .ok (.write (.version m' value actor.stamp)
      ⟨m', false, true, trimmed, m.humanGiven && actor.isAgent⟩)

/-- The row a put found, if any, and the value as it is kept. -/
def putFind (req : PutRequest) (value : Bytes) : Except VaultError (Option SecretMeta × Bytes × Bool) := do
  req.validate v.rollback
  let (kept, trimmed) ← prepareValue req.kind value
  .ok (v.secrets.rows.find? (·.named req.ns req.scope req.name), kept, trimmed)

/-- A put once the row was looked for. -/
def putFound (req : PutRequest) (actor : Actor) (now : Int) (newId : String) :
    Option SecretMeta × Bytes × Bool → Except VaultError (Planned PutOutcome)
  | (some row, value, trimmed) => do
      if req.mode = .create then
        .error (.conflict "secret_exists" (req.name ++ " already exists; use rotate"))
      else
        checkSshKeyValue fm row.kind req.landedCopy value
        rotateRow fm v row value actor req.idempotent trimmed now
  | (none, value, trimmed) => req.create fm value trimmed actor now newId

def putPlan (req : PutRequest) (value : Bytes) (actor : Actor) (now : Int) (newId : String) :
    Except VaultError (Planned PutOutcome) := do
  let found ← putFind v req value
  putFound fm v req actor now newId found

/-- The row a rotate found, and the value as it is kept. -/
def rotateFind (sel : Selector) (value : Bytes) : Except VaultError (SecretMeta × Bytes × Bool) := do
  let row ← v.findRow sel
  let (kept, trimmed) ← prepareValue row.kind value
  if row.ns = .user && v.rollback then .error rolledBack
  else
    checkSshKeyValue fm row.kind false kept
    .ok (row, kept, trimmed)

def rotatePlan (sel : Selector) (value : Bytes) (actor : Actor) (now : Int) :
    Except VaultError (Planned PutOutcome) := do
  let found ← rotateFind fm v sel value
  rotateRow fm v found.1 found.2.1 actor false found.2.2 now

end Rotate

end K2.Vault
