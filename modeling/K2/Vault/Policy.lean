import K2.Vault.Types

/-! # Who may do what

Agent passports and shell tabs are agent-level. An agent can't loosen a secret a
person gave it; tightening is always open. An agent that manages server-wide
secrets may grant them to other workspaces.
-/

namespace K2.Vault

inductive Role where
  | owner | admin | member
  deriving Repr, DecidableEq

structure AgentActor where
  workspaceId : String
  sessionId : Option String
  /-- A plain shell tab, still agent-level. -/
  shell : Bool
  /-- "Allow managing server-wide secrets". -/
  vaultManage : Bool
  deriving Repr, DecidableEq

inductive Actor where
  | owner
  | login (username : String) (role : Role)
  | agent (a : AgentActor)
  | guest (username workspaceId : String)
  /-- A daemon subsystem. -/
  | system (name : String)
  deriving Repr, DecidableEq

namespace Actor

def stamp : Actor → String
  | owner => "owner"
  | login username _ => "connect:" ++ username
  | agent a =>
      if a.shell then "shell:" ++ a.workspaceId
      else match a.sessionId with
        | some s => "agent:" ++ a.workspaceId ++ "/" ++ s
        | none => "agent:" ++ a.workspaceId
  | guest username _ => "guest:" ++ username
  | system name => "system:" ++ name

/-- An Owner or Admin person. -/
def isAdminHuman : Actor → Bool
  | owner | login _ .owner | login _ .admin => true
  | _ => false

/-- A value from this actor counts as human-given. -/
def isHuman : Actor → Bool
  | owner | login .. | guest .. => true
  | agent _ | system _ => false

def isAgent : Actor → Bool
  | agent _ => true
  | _ => false

def isSystem : Actor → Bool
  | system _ => true
  | _ => false

/-- Wildcard hosts only from people. -/
def mayAddWildcards : Actor → Bool
  | owner | login .. => true
  | _ => false

/-- Body injection only when a person set it. -/
def maySetBodyInject : Actor → Bool
  | owner | login .. => true
  | _ => false

end Actor

/-- The parts of a secret the rules look at. -/
structure Facts where
  ns : Namespace
  scope : Scope
  createdBy : String
  humanGiven : Bool
  /-- Does the actor's own workspace hold an explicit grant on it? -/
  ownWsHasGrant : Bool
  /-- The ceiling a person accepted this handed-off copy at. -/
  handoffCeiling : Option Delivery
  deriving Repr, DecidableEq

/-- Did this agent's workspace create the secret? -/
def createdByAgentWs (createdBy ws : String) : Bool :=
  createdBy = "agent:" ++ ws || ("agent:" ++ ws ++ "/").toList.isPrefixOf createdBy.toList ||
    createdBy = "shell:" ++ ws

def canCreate (actor : Actor) (ns : Namespace) (scope : Scope) : Except VaultError Unit :=
  if ns = .system then
    if actor.isSystem then .ok ()
    else .error (.forbidden "vault_system_namespace" "system secrets are made by K2 itself")
  else
    match actor with
    | .system _ => .ok ()
    | .owner | .login _ .owner | .login _ .admin =>
        match scope.kind with
        | .server | .workspace | .session => .ok ()
        | _ => .error (.forbidden "scope_not_allowed" "that scope isn't available")
    | .login _ .member =>
        match scope.kind with
        | .workspace | .session => .ok ()
        | _ => .error (.forbidden "scope_not_allowed"
            "Members keep secrets for a workspace or a chat; server-wide needs an Admin")
    | .agent a =>
        match scope.kind with
        | .workspace =>
            if scope.id = a.workspaceId then .ok ()
            else .error (.forbidden "scope_not_allowed" "agents keep secrets for their own workspace or chat")
        | .session =>
            if a.sessionId = some scope.id then .ok ()
            else .error (.forbidden "scope_not_allowed" "agents keep secrets for their own workspace or chat")
        | .server =>
            if a.vaultManage then .ok ()
            else .error (.forbidden "vault_manage_required"
              "server-wide secrets need \"Allow managing server-wide secrets\" for this agent")
        | _ => .error (.forbidden "scope_not_allowed" "agents keep secrets for their own workspace or chat")
    | .guest .. =>
        match scope.kind with
        | .session => .ok ()
        | _ => .error (.forbidden "scope_not_allowed" "guests can only give a secret for this chat")

/-- After a person accepted a handed-off secret into a workspace, its own agents
    take it at any delivery up to the ceiling the accept card showed. -/
def acceptedHandoffCovers (actor : Actor) (f : Facts) (delivery : Delivery) : Bool :=
  match actor, f.handoffCeiling with
  | .agent a, some ceiling =>
      f.ns = .user && f.scope.kind = .workspace && f.scope.id = a.workspaceId && !f.humanGiven &&
        ceiling.level ≤ Delivery.env.level && delivery ≠ .none && delivery.level ≤ ceiling.level
  | _, _ => false

/-- Is the secret one the actor manages? -/
def manages (actor : Actor) (f : Facts) : Bool :=
  match actor with
  | .system _ | .owner | .login _ .owner | .login _ .admin => true
  | .login username .member => f.createdBy = "connect:" ++ username
  | .agent a =>
      match f.scope.kind with
      | .workspace => f.scope.id = a.workspaceId
      | .session => a.sessionId = some f.scope.id
      | .server => a.vaultManage || createdByAgentWs f.createdBy a.workspaceId
      | _ => false
  | .guest .. => false

/-- Rotate, narrow, disable, destroy: tightening or same-level changes. -/
def canManage (actor : Actor) (f : Facts) : Except VaultError Unit :=
  if f.ns = .system then
    if actor.isSystem then .ok ()
    else .error (.forbidden "vault_system_namespace" "system secrets are managed by K2")
  else if manages actor f then .ok ()
  else .error (.forbidden "vault_not_yours" "only the secret's owner can change it")

/-- A loosening change: wider hosts, a higher delivery or ceiling, another
    injection, re-enabling, a grant beyond the agent's own workspace. -/
def canLoosen (actor : Actor) (f : Facts) : Except VaultError Unit := do
  canManage actor f
  match actor with
  | .system _ | .owner | .login _ .owner | .login _ .admin => .ok ()
  | .login _ .member => .error (.forbidden "vault_admin_required" "widening a secret needs an Owner or Admin")
  | .agent a =>
      if f.humanGiven then .error (.ownerConfirmRequired
        "a person gave this secret, so an agent can't widen where it goes or who can read it")
      else if !createdByAgentWs f.createdBy a.workspaceId then .error (.ownerConfirmRequired
        "agents can only widen secrets their own workspace created")
      else if a.vaultManage && f.scope.kind = .server && f.ownWsHasGrant then
        .error (.ownerConfirmRequired "an agent can't widen a server secret its own workspace uses")
      else .ok ()
  | .guest .. => .error (.forbidden "vault_not_yours" "not allowed")

section Grant

variable (a : AgentActor) (c : Consumer)

def ownWs : Bool := c.kind = .workspace && c.id = a.workspaceId

def allWs : Bool := c.kind = .workspace && c.id = "*"

def ownSession : Bool := c.kind = .session && a.sessionId = some c.id

/-- A job in the agent's own workspace. -/
def ownJob : Bool := c.jobWorkspace = some a.workspaceId

/-- A service an agent can name is one of its own workspace's. -/
def ownService : Bool := c.kind = .publishedService

/-- An agent that manages server secrets grants them to other workspaces only. -/
def itAgentGrants (f : Facts) (delivery defaultDelivery : Delivery) : Except VaultError Unit :=
  if ownWs a c || allWs c || ownSession a c || ownJob a c || ownService c then
    .error (.forbidden "vault_self_grant"
      "an agent can't grant a server secret to its own workspace; ask the owner")
  else if f.ownWsHasGrant && delivery.level > defaultDelivery.level then
    .error (.ownerConfirmRequired "an agent can't widen a server secret its own workspace uses")
  else if f.humanGiven && delivery.level > defaultDelivery.level then
    .error (.ownerConfirmRequired "a person gave this secret; an agent can't raise how readable it is")
  else .ok ()

end Grant

def canGrant (actor : Actor) (f : Facts) (consumer : Consumer) (delivery defaultDelivery : Delivery) :
    Except VaultError Unit :=
  if f.ns = .system then
    if actor.isSystem then .ok ()
    else .error (.forbidden "vault_system_namespace" "system secrets are granted by K2")
  else
    match actor with
    | .system _ | .owner | .login _ .owner | .login _ .admin => .ok ()
    | .login _ .member =>
        .error (.forbidden "vault_admin_required" "sharing a secret needs an Owner or Admin")
    | .guest .. => .error (.forbidden "vault_not_yours" "not allowed")
    | .agent a =>
        -- The value leaves this machine for a node, so only a person grants it.
        if consumer.kind = .compute then .error (.ownerConfirmRequired
          ("only a person can let a secret leave this machine for a compute node; ask your owner to run: k2 vault grant <NAME> --to "
            ++ consumer.label ++ " --as env"))
        else if a.vaultManage && f.scope.kind = .server then
          itAgentGrants a consumer f delivery defaultDelivery
        else do
          canManage actor f
          let own := ownWs a consumer || ownSession a consumer || ownJob a consumer
          if own && delivery.level ≤ defaultDelivery.level then .ok ()
          else if own && acceptedHandoffCovers actor f delivery then .ok ()
          else canLoosen actor f

end K2.Vault
