import K2.Compute.Tiers
import K2.Lib.Table
import Mathlib.Data.Prod.Lex

/-! # A snapshot of a shared node

What the node queue decides on: the servers (tenants) with their shares, the
running and the queued jobs, and who was served last. Sizes and counts are
unbounded; the code's own stay below 2^64.
-/

namespace K2.NodeQueue

open Compute

/-- A tenant's place on the node. -/
abbrev Slot := Nat

def maxSlots : Int := 8

structure Config where
  agingSecs : Int
  /-- Once the capacity-blocked head waited this long, nothing else starts until
      it fits. -/
  backfillHoldSecs : Int
  /-- How long an unknown job is taken to run while ordering. -/
  defaultEstSecs : Nat
  /-- Every slot's jobs share one uid; else one uid per slot. -/
  oneUid : Bool

def Config.default : Config := ⟨ageSecs, 20 * 60, 600, false⟩

/-- The node's capacity for queued work. -/
structure Caps where
  cpuMillis : Nat
  memBytes : Nat
  parallelMax : Nat
  /-- A node-wide reason nothing starts. -/
  blocked : Option String

/-- What a job that names no CPU is counted as: an even share. -/
def Caps.defaultCpu (c : Caps) : Nat := c.cpuMillis / max c.parallelMax 1

def Caps.defaultMem (c : Caps) : Nat := c.memBytes / max c.parallelMax 1

/-- Ordered by rank. -/
inductive JobClass where
  | batch | interactive | gate
  deriving Repr, DecidableEq

def JobClass.rank : JobClass → Nat
  | .batch => 0
  | .interactive => 1
  | .gate => 2

structure ShareLimits where
  weight : Nat
  /-- The highest class this tenant may use; `gate` also needs `gate`. -/
  topClass : JobClass
  gate : Bool
  maxRunning : Nat
  /-- Soft: over it, jobs sort after every tenant within quota. -/
  cpuHoursDay : Nat

/-- May this tenant send a job of the class? -/
def ShareLimits.allowsClass (l : ShareLimits) (c : JobClass) : Bool :=
  match c with
  | .gate => l.gate && l.topClass == .gate
  | c => c.rank ≤ l.topClass.rank

/-- One server's standing on this node. -/
structure Tenant where
  slot : Slot
  limits : ShareLimits
  /-- Decayed CPU usage on this node. -/
  usage : Nat
  cpuSecsToday : Nat
  /-- A tenant-wide reason its jobs wait. -/
  blocked : Option String
  /-- Its Priority counts here. -/
  priority : Bool

def Tenant.overQuota (t : Tenant) : Bool := t.cpuSecsToday ≥ t.limits.cpuHoursDay * 3600

/-- The tier this tenant's job counts as here. -/
def Tenant.effectiveTier (t : Tenant) (tier : Tier) : Tier :=
  effective tier (t.limits.allowsClass .gate) t.priority

structure Running where
  slot : Slot
  jobId : String
  workspaceId : String
  sessionId : Option String
  tier : Tier
  cpuMillis : Nat
  memBytes : Nat
  exclusive : Bool
  /-- Expected seconds left; none is unknown. -/
  leftP50 : Option Nat
  leftP90 : Option Nat
  /-- It got vault secrets. -/
  secret : Bool
  submitter : Option String

/-- A job waiting in the node queue. -/
structure Queued where
  slot : Slot
  jobId : String
  workspaceId : String
  sessionId : Option String
  tier : Tier
  /-- None is an even share of the node. -/
  cpuMillis : Option Nat
  memBytes : Option Nat
  exclusive : Bool
  /-- The node's clock when it received the job. -/
  enqueuedAt : Int
  /-- Arrival order within its server. -/
  arrival : Nat
  estP50 : Option Nat
  estP90 : Option Nat
  wsMaxRunning : Option Nat
  /-- Its server's session is up and listed it. -/
  eligible : Bool
  secret : Bool
  submitter : Option String
  submitterMaxRunning : Option Nat
  deriving DecidableEq

namespace Queued

/-- Whose turns the job takes: the submitter's, else the session's. -/
def turnKey (q : Queued) : String := ((q.submitter).or q.sessionId).getD ""

def cpu (q : Queued) (caps : Caps) : Nat := q.cpuMillis.getD caps.defaultCpu

def mem (q : Queued) (caps : Caps) : Nat := q.memBytes.getD caps.defaultMem

/-- When the node received it, then its insert order. -/
def arrivalKey (q : Queued) : Int ×ₗ Nat ×ₗ String := toLex (q.enqueuedAt, toLex (q.arrival, q.jobId))

end Queued

/-- Who was served last. -/
structure Rotation where
  lastSlot : Option Slot
  lastWs : FinMap Slot String
  lastSubmitter : FinMap (Slot × String) String
  /-- Priority or Standard: which of the two got the last start. -/
  lastLine : Option Line

def Rotation.empty : Rotation := ⟨none, .empty, .empty, none⟩

def Rotation.served (r : Rotation) (q : Queued) (line : Line) : Rotation where
  lastSlot := some q.slot
  lastWs := r.lastWs.insert q.slot q.workspaceId
  lastSubmitter := r.lastSubmitter.insert (q.slot, q.workspaceId) q.turnKey
  lastLine := if line.alternates then some line else r.lastLine

structure Input where
  now : Int
  cfg : Config
  caps : Caps
  tenants : List Tenant
  running : List Running
  queued : List Queued
  rotation : Rotation

/-- A queued job and its index in the snapshot. -/
structure Entry where
  index : Nat
  job : Queued
  deriving DecidableEq

def Input.entries (input : Input) : List Entry := input.queued.zipIdx.map fun p => ⟨p.2, p.1⟩

def tenantOf (tenants : List Tenant) (slot : Slot) : Option Tenant := tenants.find? (·.slot = slot)

/-- The line the order uses: that of the tier the tenant may use here. -/
def lineOf (q : Queued) (t : Tenant) : Line := (t.effectiveTier q.tier).line

/-- Has it waited long enough to skip its line's turns? -/
def isAged (q : Queued) (now : Int) (cfg : Config) : Bool := aged (now - q.enqueuedAt) cfg.agingSecs

/-! ## Codes -/

abbrev serverNotApproved : String := "server_not_approved"
abbrev serverOffline : String := "server_offline"
abbrev overQuotaCode : String := "over_quota"
abbrev exceedsNodeCaps : String := "exceeds_node_caps"
abbrev workspaceRunningFull : String := "workspace_running_full"
abbrev serverRunningFull : String := "server_running_full"
abbrev waitingForRoom : String := "waiting_for_room"
abbrev backfillHold : String := "backfill_hold"
abbrev turnCode : String := "turn"
abbrev lingeringCode : String := "lingering"
abbrev isolationWait : String := "secret_isolation_wait"

/-- The id of a leftover process of an earlier job starts with this. -/
abbrev lingerJobPrefix : String := "lingering:"

end K2.NodeQueue
