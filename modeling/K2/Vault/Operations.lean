import K2.Vault.Store

/-! # Policy, status and grants

The other operations on a secret, and any of them as a call.
-/

namespace K2.Vault

/-! ## Policy -/

namespace PolicyPatch

variable (fm : Formats) (p : PolicyPatch) (actor : Actor)

def replaceHosts (old : List String) : Except VaultError (List String) :=
  match p.hosts with
  | some h => fm.normaliseList h actor.mayAddWildcards
  | none => .ok old

def extendHosts (old : List String) : Except VaultError (List String) :=
  if p.addHosts.isEmpty then .ok old
  else (fm.normaliseList p.addHosts actor.mayAddWildcards).map fun add =>
    ((old ++ add).insertionSort (· ≤ ·)).dedup

def dropHosts (old : List String) : Except VaultError (List String) :=
  if p.removeHosts.isEmpty then .ok old
  else (fm.normaliseList p.removeHosts true).map fun rm => old.filter fun h => !rm.contains h

def patchHosts (old : List String) : Except VaultError (List String) := do
  let hosts ← p.replaceHosts fm actor old
  let hosts ← p.extendHosts fm actor hosts
  p.dropHosts fm hosts

/-- The secret with the patch's fields, but for `updatedAt`. -/
def patched (old : SecretMeta) (hosts : List String) : SecretMeta :=
  { old with
    hosts
    defaultDelivery := p.defaultDelivery.getD old.defaultDelivery
    deliveryCeiling := p.deliveryCeiling.getD old.deliveryCeiling
    inject := p.inject.or old.inject
    description := (p.description.map (Text.takeChars 500)).getD old.description
    rotateEveryDays := match p.rotateEveryDays with
      | some r => if r = 0 then none else some r
      | none => old.rotateEveryDays }

/-- A new signer must fit the value already stored. -/
def checkNewSigner (v : LocalVault) (row : SecretMeta) : Except VaultError Unit :=
  match p.inject.bind (·.sign) with
  | some s =>
      if row.inject.bind (·.sign) ≠ some s && row.status ≠ .destroyed then do
        let value ← v.decryptVersion row row.latestVersion
        fm.checkSigned s value
      else .ok ()
  | none => .ok ()

/-- Agent delivery needs an ssh key the agent can serve. -/
def checkToAgent (v : LocalVault) (row : SecretMeta) : Except VaultError Unit :=
  let toAgent := ([p.defaultDelivery, p.deliveryCeiling].filterMap id).filter (· = .agent)
  if !toAgent.isEmpty && row.status ≠ .destroyed then do
    let value ← v.decryptVersion row row.latestVersion
    checkAgentDelivery fm row.kind toAgent value
  else .ok ()

end PolicyPatch

/-- Does a change widen where a secret goes, how readable it is, or how it is put
    into a request? -/
def loosens (old m : SecretMeta) : Bool :=
  widens old.hosts m.hosts || m.defaultDelivery.level > old.defaultDelivery.level ||
    m.deliveryCeiling.level > old.deliveryCeiling.level || m.inject ≠ old.inject

/-- Is the default delivery all it widens? -/
def onlyDelivery (old m : SecretMeta) : Bool :=
  !widens old.hosts m.hosts && m.deliveryCeiling.level ≤ old.deliveryCeiling.level &&
    m.inject = old.inject

/-- May the actor make this change? Within an accepted handoff's ceiling, an agent
    of its workspace may raise the delivery alone. -/
def mayChange (actor : Actor) (facts : Facts) (old m : SecretMeta) : Except VaultError Unit :=
  let consented := loosens old m && onlyDelivery old m && acceptedHandoffCovers actor facts m.defaultDelivery
  if loosens old m && !consented then canLoosen actor facts else canManage actor facts

section Operations

variable (fm : Formats) (v : LocalVault)

/-- A policy change, checked but not written: the row and what it becomes. -/
def planPolicy (sel : Selector) (p : PolicyPatch) (actor : Actor) :
    Except VaultError (SecretMeta × SecretMeta) := do
  let old ← v.findRow sel
  p.checkNewSigner fm v old
  p.checkToAgent fm v old
  if old.status = .destroyed then .error (secretDestroyed "that secret was destroyed")
  else
    let hosts ← p.patchHosts fm actor old.hosts
    checkInject fm actor p.inject
    let m := p.patched old hosts
    mayChange actor (v.factsFor old actor) old m
    if m.defaultDelivery.level > m.deliveryCeiling.level then
      .error (.badRequest "delivery_above_ceiling" "the delivery is looser than the ceiling")
    else .ok (old, m)

def setPolicyPlan (sel : Selector) (p : PolicyPatch) (actor : Actor) (now : Int) :
    Except VaultError (Planned SecretMeta) :=
  (planPolicy fm v sel p actor).map fun (old, m) =>
    if m = old then .answer m
    else
      let m := { m with updatedAt := fm.ts now }
      .write (.policy m) m

/-! ## Status -/

/-- Re-enabling is a widening. -/
def mayMove (actor : Actor) (facts : Facts) (target : SecretStatus) : Except VaultError Unit :=
  if target = .active then canLoosen actor facts else canManage actor facts

def setStatusPlan (sel : Selector) (actor : Actor) (target : SecretStatus) (now : Int) :
    Except VaultError (Planned Unit) := do
  let row ← v.findRow sel
  mayMove actor (v.factsFor row actor) target
  if row.status = .destroyed then .error (secretDestroyed "that secret was destroyed")
  else if row.status = target then .ok (.answer ())
  else .ok (.write (.status { row with status := target, updatedAt := fm.ts now }) ())

/-! ## Grants -/

def badConsumer (hint : String) : VaultError := .badRequest "bad_consumer" hint

/-- Which consumers may hold a secret of this namespace, with this delivery. -/
def checkConsumer (ns : Namespace) (c : Consumer) (delivery : Delivery) : Except VaultError Unit :=
  let refused := badConsumer "that consumer can't hold this secret"
  match c.kind with
  | .app | .widget => .error (.badRequest "consumer_reserved" "app and widget grants aren't available yet")
  | .workspace | .session | .publishedService => .ok ()
  | .job => if ns = .user && c.jobWorkspace.isSome then .ok () else .error refused
  | .compute =>
      if ns = .user && c.computeParts.isSome then
        if delivery ≠ .env then
          .error (.badRequest "bad_delivery" "a compute job gets a secret as env only (--as env)")
        else .ok ()
      else .error refused
  | .engine => if ns = .system then .ok () else .error refused
  | .daemon =>
      if ns = .system || (ns = .user && "source:".toList.isPrefixOf c.id.toList && delivery = .fetch) then
        .ok ()
      else .error refused

namespace GrantRequest

variable (g : GrantRequest) (m : SecretMeta)

def env : Except VaultError (Option String) :=
  match g.envName, g.delivery with
  | some n, _ => (validateEnvName n).map fun _ => some n
  | none, .env => (validateEnvName (defaultEnvName m.name)).map fun _ => some (defaultEnvName m.name)
  | none, _ => .ok none

def file : Except VaultError (Option String) :=
  match g.fileName with
  | some n => (validateFileName n).map fun _ => some n
  | none => .ok none

/-- A grant can only narrow the secret's sites. -/
def narrowed : Except VaultError (Option (List String)) :=
  match g.hostsNarrowed with
  | none => .ok none
  | some h => do
      let n ← fm.normaliseList h true
      if n.any fun x => !m.hosts.contains x then
        .error (.badRequest "hosts_not_subset" "a grant can only narrow the secret's sites")
      else .ok (some n)

/-- Is the value one the ssh agent can serve, when it is to? -/
def checkAgent : Except VaultError Unit :=
  if g.delivery = .agent then do
    let value ← v.decryptVersion m m.latestVersion
    checkAgentDelivery fm m.kind [.agent] value
  else .ok ()

/-- The secret, the delivery and the consumer of a grant. -/
def checkTarget : Except VaultError Unit := do
  if m.status ≠ .active then
    .error (.conflict "secret_not_active" "that secret is disabled or destroyed")
  else if g.delivery = .none then .error (.badRequest "bad_delivery" "pick a delivery")
  else if g.delivery.level > m.deliveryCeiling.level then
    .error (.forbidden "delivery_above_ceiling"
      ("this secret can be delivered at most as " ++ m.deliveryCeiling.text))
  else
    g.checkAgent fm v m
    checkConsumer m.ns g.consumer g.delivery
    if g.consumer.id = "" ∨ Text.byteLen g.consumer.id > 128 then .error (badConsumer "consumer id")
    else .ok ()

end GrantRequest

/-- The secret a grant is of, and the facts its actor is judged by. -/
def grantFind (g : GrantRequest) (actor : Actor) : Except VaultError (SecretMeta × Facts) :=
  (v.findRow g.selector).map fun m => (m, v.factsFor m actor)

/-- A grant once its secret was read. -/
def grantFound (g : GrantRequest) (actor : Actor) (now : Int) (newId : String) (m : SecretMeta)
    (facts : Facts) : Except VaultError (Planned Grant) := do
  g.checkTarget fm v m
  let envName ← g.env m
  let fileName ← g.file
  let hostsNarrowed ← g.narrowed fm m
  canGrant actor facts g.consumer g.delivery m.defaultDelivery
  checkExpiry fm g.expiresAt "bad_expiry"
  let grant : Grant := {
    id := newId, secretId := m.id, versionSelector := g.version, consumer := g.consumer
    delivery := g.delivery, envName, fileName, hostsNarrowed
    grantedBy := actor.stamp, grantedAt := fm.ts now, expiresAt := g.expiresAt }
  .ok (.write (.grant grant) grant)

def grantPlan (g : GrantRequest) (actor : Actor) (now : Int) (newId : String) :
    Except VaultError (Planned Grant) := do
  let found ← grantFind v g actor
  grantFound fm v g actor now newId found.1 found.2

def revokePlan (grantId : String) (actor : Actor) : Except VaultError (Planned Unit) := do
  let g ← okOr (v.grants.get grantId) (.notFound "no such grant")
  let row ← v.findRow (.id g.secretId)
  let facts := v.factsFor row actor
  if g.grantedBy = actor.stamp || (canManage actor facts).toOption.isSome || actor.isAdminHuman then
    .ok (.write (.revoke g.id) ())
  else .error (.forbidden "vault_not_yours" "only the owner or whoever shared it can remove that share")

end Operations

/-! ## Calls -/

/-- Any of the operations, with the time and the id it draws. -/
inductive Call where
  | put (req : PutRequest) (value : Bytes) (newId : String)
  | rotate (sel : Selector) (value : Bytes)
  | setPolicy (sel : Selector) (p : PolicyPatch)
  | grant (g : GrantRequest) (newId : String)
  | revoke (grantId : String)
  | disable (sel : Selector)
  | enable (sel : Selector)
  | destroy (sel : Selector)
  deriving Repr

/-- A call, by whom and when. -/
structure Deed where
  call : Call
  actor : Actor
  now : Int
  deriving Repr

namespace Planned

def map {α β : Type} (f : α → β) : Planned α → Planned β
  | answer a => answer (f a)
  | write w a => write w (f a)

/-- The answer is dropped. -/
def done {α : Type} (x : Except VaultError (Planned α)) : Except VaultError (Planned Unit) :=
  x.map (map fun _ => ())

end Planned

section Calls

variable (fm : Formats) (v : LocalVault) (d : Deed)

def Deed.plan : Except VaultError (Planned Unit) :=
  match d.call with
  | .put req value newId => Planned.done (putPlan fm v req value d.actor d.now newId)
  | .rotate sel value => Planned.done (rotatePlan fm v sel value d.actor d.now)
  | .setPolicy sel p => Planned.done (setPolicyPlan fm v sel p d.actor d.now)
  | .grant g newId => Planned.done (grantPlan fm v g d.actor d.now newId)
  | .revoke grantId => revokePlan v grantId d.actor
  | .disable sel => setStatusPlan fm v sel d.actor .disabled d.now
  | .enable sel => setStatusPlan fm v sel d.actor .active d.now
  | .destroy sel => setStatusPlan fm v sel d.actor .destroyed d.now

/-- An operation alone. -/
def LocalVault.act : LocalVault × Except VaultError Unit := v.perform (fm.ts d.now) (d.plan fm v)

def LocalVault.next : LocalVault := (v.act fm d).1

end Calls

/-! ## Through the daemon -/

/-- An agent that manages server secrets shares one with a session of another
    workspace, never with one of its own or one K2 can't place. -/
def sessionSelfGrant (actor : Actor) (scope : ScopeKind) (sessionWs : Option String) : Except VaultError Unit :=
  match actor with
  | .agent a =>
      if !a.vaultManage || scope ≠ .server then .ok ()
      else
        match sessionWs with
        | some ws =>
            if ws ≠ a.workspaceId then .ok ()
            else .error (.forbidden "vault_self_grant"
              "an agent can't grant a server secret to a session of its own workspace; ask the owner")
        | none => .error (.forbidden "vault_self_grant"
            "K2 can't tell which workspace that session belongs to; grant to ws:<name> instead")
  | _ => .ok ()

/-- A call at the daemon's routes, and whose session runs under an id then. -/
structure Arrival where
  deed : Deed
  sessionWorkspace : String → Option String

/-- The route's own check of a share with a session. -/
def Arrival.routeCheck (c : Arrival) (v : LocalVault) : Except VaultError Unit :=
  match c.deed.call, c.deed.actor with
  | .grant g _, .agent a =>
      if g.consumer.kind = .session && a.vaultManage then do
        let m ← v.findRow g.selector
        sessionSelfGrant c.deed.actor m.scope.kind (c.sessionWorkspace g.consumer.id)
      else .ok ()
  | _, _ => .ok ()

def LocalVault.arrive (fm : Formats) (v : LocalVault) (c : Arrival) : LocalVault :=
  match c.routeCheck v with
  | .ok _ => v.next fm c.deed
  | .error _ => v

end K2.Vault
