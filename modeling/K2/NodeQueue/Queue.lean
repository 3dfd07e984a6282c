import K2.NodeQueue.Snapshot
import Mathlib.Algebra.GroupWithZero.Nat
import Mathlib.Data.List.Sort

/-! # The node queue

One fair queue per node over every server it serves: the start order, what keeps
a job from starting, the forward simulation, and the answer for a snapshot.
-/

namespace K2.NodeQueue

open Compute

/-! ## Order -/

/-- The next value after `last` in the keys' order, wrapping, or the first. -/
def rotateAfter (keys : List String) (last : Option String) : Option String :=
  let ks := keys.dedup.insertionSort (· ≤ ·)
  match last with
  | none => ks.head?
  | some l => (ks.find? (l < ·)).or ks.head?

/-- The earliest by node arrival; of several, the first. -/
def byArrival : List Entry → Option Entry
  | [] => none
  | e :: rest =>
      some (rest.foldl (fun best k => if k.job.arrivalKey < best.job.arrivalKey then k else best) e)

/-- A tenant's next job in the line, if it has one there: CI by node arrival;
    any other line its aged jobs first, then the workspace after the last served,
    then the submitter after the last served there. -/
def tenantHead (input : Input) (list : List Entry) (t : Tenant) (rot : Rotation) (line : Line) :
    Option Entry :=
  let mine := list.filter fun e => lineOf e.job t = line
  if line = .ci then byArrival mine
  else
    let old := mine.filter fun e => isAged e.job input.now input.cfg
    if !old.isEmpty then byArrival old
    else do
      let ws ← rotateAfter (mine.map (·.job.workspaceId)) (rot.lastWs.lookup t.slot)
      let inWs := mine.filter fun e => e.job.workspaceId = ws
      let s ← rotateAfter (inWs.map (·.job.turnKey)) (rot.lastSubmitter.lookup (t.slot, ws))
      byArrival (inWs.filter fun e => e.job.turnKey = s)

/-- Where the building of the order stands. -/
structure Build where
  /-- Charged so far, by slot. -/
  usage : FinMap Slot Nat
  today : FinMap Slot Nat
  rot : Rotation
  pending : List Entry

/-- A tenant's head in the chosen line. -/
structure Candidate where
  tenant : Tenant
  head : Entry

/-- Slots go in a circle from the one after the tenant served last. -/
def dist (last : Option Slot) (s : Slot) : Int :=
  match last with
  | some l => ((s : Int) - l - 1) % maxSlots
  | none => s

/-- Does candidate `a` go before `b`? Aged first, then within quota, then the
    lowest usage per weight, then by the circle. -/
def before (input : Input) (b : Build) (x y : Candidate) : Bool :=
  let ax := isAged x.head.job input.now input.cfg
  let ay := isAged y.head.job input.now input.cfg
  let overQuota (t : Tenant) : Bool := (b.today.lookup t.slot).getD 0 ≥ t.limits.cpuHoursDay * 3600
  let ux := (b.usage.lookup x.tenant.slot).getD 0
  let uy := (b.usage.lookup y.tenant.slot).getD 0
  let wx := max x.tenant.limits.weight 1
  let wy := max y.tenant.limits.weight 1
  if ax ≠ ay then ax
  else if ax && ay then x.head.job.arrivalKey < y.head.job.arrivalKey
  else if overQuota x.tenant ≠ overQuota y.tenant then !overQuota x.tenant
  else if ux * wy ≠ uy * wx then ux * wy < uy * wx
  else dist b.rot.lastSlot x.tenant.slot < dist b.rot.lastSlot y.tenant.slot

namespace Build

/-- The slots with a pending job, in order. -/
def slots (b : Build) : List Slot := (b.pending.map (·.job.slot)).dedup.insertionSort (· ≤ ·)

def ofSlot (b : Build) (slot : Slot) : List Entry := b.pending.filter (·.job.slot = slot)

def lineHas (b : Build) (tenants : List Tenant) (l : Line) : Bool :=
  b.pending.any fun e => (tenantOf tenants e.job.slot).any fun t => lineOf e.job t = l

/-- Each tenant's head in the line. -/
def heads (b : Build) (input : Input) (line : Line) : List Candidate :=
  b.slots.filterMap fun slot => do
    let t ← tenantOf input.tenants slot
    let head ← tenantHead input (b.ofSlot slot) t b.rot line
    return ⟨t, head⟩

/-- The better of the best so far and the next candidate. -/
def better (b : Build) (input : Input) (best : Option Candidate) (c : Candidate) : Option Candidate :=
  match best with
  | none => some c
  | some d => if before input b c d then some c else some d

/-- The candidate that goes first. -/
def best (b : Build) (input : Input) (candidates : List Candidate) : Option Candidate :=
  candidates.foldl (b.better input) none

/-- The next job of the order, and its line. -/
def pick (b : Build) (input : Input) : Option (Entry × Line) := do
  let line ← nextLine (b.lineHas input.tenants) b.rot.lastLine
  let c ← b.best input (b.heads input line)
  return (c.head, line)

/-- The pick is charged its estimated CPU, and had its turn. -/
def serve (b : Build) (input : Input) (e : Entry) (line : Line) : Build :=
  let cpu := e.job.cpu input.caps
  let est := e.job.estP50.getD input.cfg.defaultEstSecs
  { usage := b.usage.insert e.job.slot ((b.usage.lookup e.job.slot).getD 0 + cpu * est)
    today := b.today.insert e.job.slot
      ((b.today.lookup e.job.slot).getD 0 + min (cpu * est) (2 ^ 64 - 1) / 1000)
    rot := b.rot.served e.job line
    pending := b.pending.filter (·.index ≠ e.index) }

/-- Pick after pick, as many as there are pending jobs. -/
def drain (input : Input) : Nat → Build → List Entry
  | 0, _ => []
  | n + 1, b =>
      match b.pick input with
      | some (e, line) => e :: drain input n (b.serve input e line)
      | none => []

end Build

/-- May the order pick the job? Else its server is away. -/
def Input.present (input : Input) (e : Entry) : Bool :=
  e.job.eligible && (tenantOf input.tenants e.job.slot).isSome

def Input.build (input : Input) : Build where
  usage := input.tenants.foldl (fun m t => m.insert t.slot t.usage) .empty
  today := input.tenants.foldl (fun m t => m.insert t.slot t.cpuSecsToday) .empty
  rot := input.rotation
  pending := input.entries.filter input.present

/-- The start order of the eligible jobs, then the rest by node arrival. -/
def order (input : Input) : List Entry :=
  Build.drain input input.build.pending.length input.build ++
    (input.entries.filter (!input.present ·)).insertionSort fun a b =>
      a.job.arrivalKey ≤ b.job.arrivalKey

/-! ## What keeps a job from starting -/

/-- A job the simulation runs. -/
structure SimRun where
  slot : Slot
  ws : String
  secret : Bool
  cpu : Nat
  mem : Nat
  exclusive : Bool
  /-- Simulated end time; none is unknown. -/
  ends : Option Nat
  lingering : Bool
  submitter : Option String
  /-- CI never counts. -/
  countsForSubmitter : Bool

/-- `wait` lets later jobs go; `capacity` is the node being full; `never` can't
    fit even on an idle node. -/
inductive Fit where
  | now
  | wait (code : String)
  | capacity (code : String)
  | never
  deriving DecidableEq

/-- A job of the workspace may not start beside another workspace's under the
    same uid if either of the two is a secret job. -/
def isolationBlocks (oneUid : Bool) (slot : Slot) (ws : String) (secret : Bool)
    (running : List (Slot × String × Bool)) : Bool :=
  running.any fun r => (oneUid || r.1 = slot) && r.2.1 != ws && (secret || r.2.2)

def isolates (input : Input) (q : Queued) (r : SimRun) : Bool :=
  isolationBlocks input.cfg.oneUid q.slot q.workspaceId q.secret [(r.slot, r.ws, r.secret)]

def submitterCount (q : Queued) (run : List SimRun) : Nat :=
  run.countP fun r => r.countsForSubmitter && r.slot = q.slot && r.ws = q.workspaceId &&
    r.submitter.getD "" = q.turnKey

def fit (input : Input) (q : Queued) (t : Tenant) (run : List SimRun) : Fit :=
  let caps := input.caps
  let line := lineOf q t
  let blockers := run.filter (isolates input q)
  if q.cpu caps > caps.cpuMillis ∨ q.mem caps > caps.memBytes then .never
  -- The tenant's, the workspace's and the submitter's own limits.
  else if run.countP (fun r => r.slot = q.slot) ≥ t.limits.maxRunning then .wait serverRunningFull
  else if q.wsMaxRunning.any fun m =>
      run.countP (fun r => r.slot = q.slot && r.ws = q.workspaceId) ≥ max m 1 then
    .wait workspaceRunningFull
  else if (q.submitterMaxRunning.filter fun m => m > 0 && line != .ci).any fun m =>
      submitterCount q run ≥ m then
    .wait submitterRunningFull
  else if line = .batch ∧ run ≠ [] then .wait batchWindow
  else if blockers ≠ [] then
    let code := if blockers.all (·.lingering) then lingeringCode else isolationWait
    if line.holds then .capacity code else .wait code
  else if run.any (·.exclusive) ∨ (q.exclusive ∧ run ≠ []) then .capacity waitingForIdle
  else if run.length ≥ caps.parallelMax then
    .capacity (if run.all (·.lingering) then lingeringCode else waitingForRoom)
  else if (run.map (·.cpu)).sum + q.cpu caps > caps.cpuMillis ∨
      (run.map (·.mem)).sum + q.mem caps > caps.memBytes then
    .capacity waitingForRoom
  else .now

/-! ## The simulation -/

def Running.sim (p90 : Bool) (r : Running) : SimRun where
  slot := r.slot
  ws := r.workspaceId
  secret := r.secret
  cpu := r.cpuMillis
  mem := r.memBytes
  exclusive := r.exclusive
  ends := if p90 then r.leftP90.or r.leftP50 else r.leftP50
  lingering := lingerJobPrefix.toList.isPrefixOf r.jobId.toList
  submitter := r.submitter.or r.sessionId
  countsForSubmitter := r.tier != .ci

def Queued.sim (p90 : Bool) (caps : Caps) (t : Tenant) (now : Nat) (q : Queued) : SimRun where
  slot := q.slot
  ws := q.workspaceId
  secret := q.secret
  cpu := q.cpu caps
  mem := q.mem caps
  exclusive := q.exclusive
  ends := (if p90 then q.estP90.or q.estP50 else q.estP50).map fun d => now + max d 1
  lingering := false
  submitter := some q.turnKey
  countsForSubmitter := lineOf q t != .ci

/-- What the simulation finds out, by index. -/
structure Sim where
  /-- Seconds from now. -/
  startAt : FinMap Nat Nat
  blocked : FinMap Nat String
  /-- Why it doesn't start now: the first round only. -/
  whyNow : FinMap Nat String

/-- Why the job can never start here, whatever runs. -/
def blockedBy (input : Input) (q : Queued) : Option String :=
  match tenantOf input.tenants q.slot with
  | none => some serverNotApproved
  | some t =>
      if !q.eligible then some serverOffline
      else input.caps.blocked.or t.blocked

def noteBlocked (input : Input) (m : FinMap Nat String) (e : Entry) : FinMap Nat String :=
  match blockedBy input e.job with
  | some b => m.insert e.index b
  | none => m

/-- A job the simulation may start, with its tenant. -/
structure Waiting where
  entry : Entry
  tenant : Tenant

/-- The jobs of an order that nothing blocks. -/
def unblocked (input : Input) (ord : List Entry) : List Waiting :=
  ord.filterMap fun e =>
    if (blockedBy input e.job).isSome then none
    else (tenantOf input.tenants e.job.slot).map fun t => ⟨e, t⟩

/-- Where one start pass stands. -/
structure Pass where
  sim : Sim
  run : List SimRun
  held : Option String
  capacityHeadSeen : Bool
  started : List Waiting
  /-- Submitters already waiting ahead in each (server, workspace, line). -/
  ahead : List ((Slot × String × Line) × String)

namespace Waiting

variable (w : Waiting)

def line : Line := lineOf w.entry.job w.tenant

def key : Slot × String × Line := (w.entry.job.slot, w.entry.job.workspaceId, w.line)

/-- Why it doesn't start now: a hold ahead outranks the room it waits for; a job
    that waits for room behind other submitters of its workspace and line waits
    its turn. -/
def why (f : Fit) (held : Option String) (ahead : List ((Slot × String × Line) × String)) :
    Option String :=
  match f, held with
  | .now, none => none
  | .never, _ => none
  | .now, some h => some h
  | .capacity _, some h => some h
  | .capacity c, none =>
      if c == waitingForRoom && ahead.any fun a => a.1 == w.key && a.2 != w.entry.job.turnKey then
        some turnCode
      else some c
  | .wait c, _ => some c

/-- What a capacity-blocked job does to the hold: CI and Priority hold at once, a
    Standard one if it is the first such job and waited long. -/
def hold (input : Input) (first : Bool) (now : Nat) : Option String :=
  if w.line.holds then some tierHold
  else if first && w.line.backfillHolds &&
      input.now - w.entry.job.enqueuedAt + now ≥ input.cfg.backfillHoldSecs then
    some backfillHold
  else none

end Waiting

/-- The first round notes why a job doesn't start now. -/
def Pass.note (p : Pass) (w : Waiting) (f : Fit) : Pass :=
  { p with
    sim := { p.sim with
      whyNow := match w.why f p.held p.ahead with
        | some c => p.sim.whyNow.insert w.entry.index c
        | none => p.sim.whyNow }
    ahead := if f = .now ∧ p.held = none then p.ahead
      else (w.key, w.entry.job.turnKey) :: p.ahead }

/-- One job of a start pass at `now`. -/
def Pass.look (input : Input) (p90 : Bool) (now : Nat) (firstRound : Bool) (p : Pass) (w : Waiting) :
    Pass :=
  let f := fit input w.entry.job w.tenant p.run
  let p := if firstRound then p.note w f else p
  match f, p.held with
  | .now, none =>
      { p with
        run := p.run ++ [w.entry.job.sim p90 input.caps w.tenant now]
        sim := { p.sim with startAt := p.sim.startAt.insert w.entry.index now }
        started := p.started ++ [w] }
  | .capacity _, none =>
      { p with held := w.hold input (!p.capacityHeadSeen) now, capacityHeadSeen := true }
  | .never, _ =>
      { p with sim := { p.sim with blocked := p.sim.blocked.insert w.entry.index exceedsNodeCaps } }
  | _, _ => p

/-- Who still waits after a start pass. -/
def Pass.left (p : Pass) (pending : List Waiting) : List Waiting :=
  pending.filter fun w =>
    !(p.started.any (·.entry.index = w.entry.index)) && (p.sim.blocked.lookup w.entry.index).isNone

/-- Round after round: a start pass over what still waits, then on to the next
    known end. -/
def rounds (input : Input) (p90 : Bool) :
    Nat → Nat → Bool → Sim → List SimRun → List Waiting → Sim
  | 0, _, _, sim, _, _ => sim
  | n + 1, now, firstRound, sim, run, pending =>
      let p := pending.foldl (Pass.look input p90 now firstRound) ⟨sim, run, none, false, [], []⟩
      let left := p.left pending
      if left.isEmpty then p.sim
      else
        match (p.run.filterMap (·.ends)).min? with
        | none => p.sim
        | some next =>
            let now := max next now
            rounds input p90 n now false p.sim (p.run.filter fun r => r.ends.all (· > now)) left

/-- Run the queue forward. `p90` picks the slow estimates. -/
def simulate (input : Input) (ord : List Entry) (p90 : Bool) : Sim :=
  let blocked := ord.foldl (noteBlocked input) .empty
  rounds input p90 (4 * input.queued.length + 8) 0 true ⟨.empty, blocked, .empty⟩
    (input.running.map (·.sim p90)) (unblocked input ord)

/-! ## The answer -/

/-- What the queue says about one queued job. -/
structure Info where
  /-- 1-based position in the start order. -/
  pos : Nat
  of : Nat
  startsNow : Bool
  etaSecs : Option Nat
  etaP90Secs : Option Nat
  /-- Why it doesn't start now. -/
  blockedBy : Option String

structure Decision where
  /-- In start order; what the code gives are the indices. -/
  order : List Entry
  /-- To start now, in order. -/
  start : List Entry
  /-- By index. -/
  info : FinMap Nat Info
  /-- The rotation after the starts. -/
  rotation : Rotation

/-- The line a start counts as. -/
def startLine (input : Input) (q : Queued) : Line :=
  ((tenantOf input.tenants q.slot).map (lineOf q)).getD .standard

def reason (input : Input) (sim : Sim) (e : Entry) (startsNow : Bool) : Option String :=
  let blocked := sim.blocked.lookup e.index
  if blocked.isNone && !startsNow then
    if (tenantOf input.tenants e.job.slot).any (·.overQuota) then some overQuotaCode
    else sim.whyNow.lookup e.index
  else blocked

/-- The whole answer for a snapshot. -/
def Input.decide (input : Input) : Decision :=
  let ord := order input
  let fast := simulate input ord false
  let slow := simulate input ord true
  let startsNow (e : Entry) : Bool := fast.startAt.lookup e.index == some 0
  let start := ord.filter startsNow
  { order := ord
    start
    info := ord.zipIdx.foldl (fun m p => m.insert p.1.index
      { pos := p.2 + 1
        of := ord.length
        startsNow := startsNow p.1
        etaSecs := fast.startAt.lookup p.1.index
        etaP90Secs := (slow.startAt.lookup p.1.index).or (fast.startAt.lookup p.1.index)
        blockedBy := reason input fast p.1 (startsNow p.1) }) .empty
    rotation := start.foldl (fun r e => r.served e.job (startLine input e.job)) input.rotation }

end K2.NodeQueue
