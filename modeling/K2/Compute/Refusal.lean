import K2.Compute.Tiers
import K2.Lib.Table

/-! # The one refusal function

A node refuses a job from its live view; a controller refuses it from the node's
last offer, by the same rule.
-/

namespace K2.Compute

structure Refusal where
  code : String
  message : String
  deriving Repr, DecidableEq

inductive Control where
  | active | paused | draining | stopped
  deriving Repr, DecidableEq

structure Availability where
  ok : Bool
  reasons : List String

structure Caps where
  cpuMillis : Nat
  memBytes : Nat

structure Free where
  cpuMillis : Nat
  memBytes : Nat
  diskFreeBytes : Nat

/-- What a node said it can take: the fields a placement reads. -/
structure Offer where
  control : Control
  availability : Availability
  caps : Caps
  free : Free
  parallelMax : Nat
  /-- The node-wide refusal right now. -/
  refusal : Option Refusal
  tools : FinMap String String
  protocol : Nat

/-- A node's live state, as the node sees it. -/
structure NodeView where
  control : Control
  unavailable : List String
  foreignLock : Option String
  diskFreeBytes : Nat
  diskFloorBytes : Nat
  /-- Empty: any workspace. -/
  workspacesAllow : List String
  tools : FinMap String String
  running : Nat
  parallelMax : Nat
  exclusiveRunning : Bool
  freeCpuMillis : Nat
  freeMemBytes : Nat
  networkNone : Bool
  networkNoneEnforced : Bool

/-- What a job asks for. -/
structure JobAsk where
  workspaceId : String
  cpuMillis : Option Nat
  memBytes : Option Nat
  diskBytes : Nat
  exclusive : Bool
  needsGit : Bool

def jobsMinProtocol : Nat := 2

def networkNoneMessage : String :=
  "network = none isn't enforced on this node: it needs k2-node 0.46.3+ with the job wall (sudo k2-node setup)"

def controlRefusal : Control → Option Refusal
  | .active => none
  | .paused => some ⟨localPaused, "the machine's owner paused this node"⟩
  | .draining => some ⟨localDraining, "the machine's owner is draining this node"⟩
  | .stopped => some ⟨localStopped, "the machine's owner stopped this node"⟩

def availabilityRefusal (reasons : List String) : Option Refusal :=
  reasons.head?.map fun first =>
    ⟨first,
      if first = outsideWindow then "outside the node's availability window"
      else if first = ownerActive then "the machine's owner is using it"
      else if first = onBattery then "the machine is on battery"
      else "the node is not available right now"⟩

/-- Refusals that don't depend on any particular job. -/
def nodeRefusal (v : NodeView) : Option Refusal :=
  (controlRefusal v.control).orElse fun _ =>
  if v.networkNone && !v.networkNoneEnforced then some ⟨networkNoneNotEnforced, networkNoneMessage⟩
  else (availabilityRefusal v.unavailable).orElse fun _ =>
  match v.foreignLock with
  | some lock => some ⟨foreignLockCode, "another tool holds " ++ lock⟩
  | none =>
      if v.diskFreeBytes < v.diskFloorBytes then
        some ⟨diskLow, "free disk is under the node's floor"⟩
      else none

/-- The node's answer to one job; none means it may start now. -/
def refusal (v : NodeView) (ask : JobAsk) : Option Refusal :=
  (nodeRefusal v).orElse fun _ =>
  if !v.workspacesAllow.isEmpty && !v.workspacesAllow.contains ask.workspaceId then
    some ⟨workspaceRefused, "the machine's owner doesn't allow this workspace"⟩
  else if ask.needsGit && (v.tools.lookup "git").isNone then
    some ⟨toolMissing, "git is not installed on the node"⟩
  else if ask.diskBytes > v.diskFreeBytes - v.diskFloorBytes then
    some ⟨diskLow, "not enough free disk above the floor for this job"⟩
  else if v.exclusiveRunning then some ⟨exclusiveRunningCode, "an exclusive job is running"⟩
  else if ask.exclusive && v.running > 0 then
    some ⟨waitingForIdle, "an exclusive job waits until the node is idle"⟩
  else if v.running ≥ v.parallelMax then
    some ⟨parallelFull, "the node is running as many jobs as it allows"⟩
  else if ask.cpuMillis.any (· > v.freeCpuMillis) || ask.memBytes.any (· > v.freeMemBytes) then
    some ⟨localResourceLimit, "not enough free CPU or memory under the node's caps"⟩
  else none

/-- The controller's view of the same rule, from the node's last offer. -/
def offerRefusal (o : Offer) (running : Nat) (exclusiveRunning : Bool) (ask : JobAsk) :
    Option Refusal :=
  if o.protocol < jobsMinProtocol then
    some ⟨upgradeRequired, "the node runs an older protocol; update K2 on it"⟩
  else (controlRefusal o.control).orElse fun _ =>
  if !o.availability.ok then
    (availabilityRefusal o.availability.reasons).orElse fun _ =>
      some ⟨outsideWindow, "the node is not available right now"⟩
  else o.refusal.orElse fun _ =>
    refusal
      { control := o.control, unavailable := [], foreignLock := none,
        diskFreeBytes := o.free.diskFreeBytes, diskFloorBytes := 0, workspacesAllow := [],
        tools := o.tools, running, parallelMax := o.parallelMax, exclusiveRunning,
        freeCpuMillis := o.free.cpuMillis, freeMemBytes := o.free.memBytes,
        networkNone := false, networkNoneEnforced := false }
      ask

end K2.Compute
