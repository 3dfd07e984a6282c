import K2.Compute.Tiers
import K2.Compute.Refusal
import Mathlib.Algebra.GroupWithZero.Nat
import Mathlib.Data.List.Rotate
import Mathlib.Data.List.Sort
import Mathlib.Data.Prod.Lex

/-! # The per-node fair queue

A solo node's queue: the order its jobs start in, and one placement decision.
-/

namespace K2.Compute

structure QueuedJob where
  id : String
  workspaceId : String
  createdAt : Int
  exclusive : Bool
  cpuMillis : Option Nat
  memBytes : Option Nat
  diskBytes : Nat
  needsGit : Bool
  tier : Tier
  /-- Who sent it; none is an old row. -/
  submitter : Option String
  deriving Repr, DecidableEq

namespace QueuedJob

def sub (j : QueuedJob) : String := j.submitter.getD ""

def line (j : QueuedJob) : Line := j.tier.line

def ask (j : QueuedJob) : JobAsk where
  workspaceId := j.workspaceId
  cpuMillis := j.cpuMillis
  memBytes := j.memBytes
  diskBytes := j.diskBytes
  exclusive := j.exclusive
  needsGit := j.needsGit

/-- Has the job waited long enough to skip its line's turns? -/
def aged (j : QueuedJob) (now : Int) : Bool := Compute.aged (now - j.createdAt) ageSecs

/-- `created_at`, then `id`. -/
def fifo (a b : QueuedJob) : Bool := toLex (a.createdAt, a.id) ≤ toLex (b.createdAt, b.id)

end QueuedJob

/-- What is on the node right now. -/
structure Load where
  runningByWorkspace : FinMap String Nat
  exclusiveRunning : Bool
  /-- Running non-CI jobs per (workspace, submitter). -/
  runningBySubmitter : FinMap (String × String) Nat

def Load.empty : Load := ⟨.empty, false, .empty⟩

def Load.total (l : Load) : Nat := l.runningByWorkspace.values.sum

/-- Who got the last placements on a node. -/
structure Turns where
  lastWs : Option String
  lastSubmitter : FinMap String String
  /-- Priority or Standard: which got the last placement. -/
  lastLine : Option Line

def Turns.empty : Turns := ⟨none, .empty, none⟩

/-- A job of the workspace, submitter and tier was placed. -/
def Turns.note (t : Turns) (workspaceId : String) (submitter : Option String) (tier : Tier) :
    Turns where
  lastWs := some workspaceId
  lastSubmitter := t.lastSubmitter.insert workspaceId (submitter.getD "")
  lastLine := if tier.line.alternates then some tier.line else t.lastLine

def Turns.served (t : Turns) (j : QueuedJob) : Turns := t.note j.workspaceId j.submitter j.tier

/-- The scheduler's answer: the job to assign now, and every other job's 1-based
    position and why it waits. -/
structure Decision where
  place : Option String
  waiting : FinMap String (Nat × Refusal)

/-! ## Refusals of a placement -/

/-- The job asks for more than the node's caps: it can never start there. A cap
    of 0 means the node didn't say. -/
def neverFits (offer : Offer) (j : QueuedJob) : Option Refusal :=
  match j.memBytes.filter fun m => offer.caps.memBytes > 0 && m > offer.caps.memBytes with
  | some m => some ⟨"exceeds_node_caps", "the job asks for " ++ fixed 1 (gb m) ++
      " GB of memory; the node allows at most " ++ fixed 1 (gb offer.caps.memBytes) ++ " GB"⟩
  | none =>
      match j.cpuMillis.filter fun c => offer.caps.cpuMillis > 0 && c > offer.caps.cpuMillis with
      | some c => some ⟨"exceeds_node_caps", "the job asks for " ++ fixed 2 (cpus c) ++
          " CPUs; the node allows at most " ++ fixed 2 (cpus offer.caps.cpuMillis)⟩
      | none => none

/-- A `local_resource_limit` refusal with the numbers in its message. -/
def withNumbers (r : Refusal) (offer : Offer) (j : QueuedJob) (running : Nat) : Refusal :=
  if r.code ≠ localResourceLimit then r
  else
    let asks := (j.memBytes.map fun m => fixed 1 (gb m) ++ " GB").toList ++
      (j.cpuMillis.map fun c => fmtNum (cpus c) ++ " CPUs").toList
    ⟨localResourceLimit, "asks " ++ String.intercalate " and " asks ++ "; " ++
      fixed 1 (gb offer.free.memBytes) ++ " GB of " ++ fixed 0 (gb offer.caps.memBytes) ++ " GB and " ++
      fmtNum (cpus offer.free.cpuMillis) ++ " of " ++ fmtNum (cpus offer.caps.cpuMillis) ++
      " CPUs free; " ++ toString running ++ " running"⟩

/-! ## Order -/

/-- The keys in order, each once, rotated to start just after `last`. -/
def rotated (keys : List String) (last : Option String) : List String :=
  let ks := keys.dedup.insertionSort (· ≤ ·)
  match last with
  | some l => ks.rotate ((ks.findIdx? (l < ·)).getD 0)
  | none => ks

/-- One pass of a round-robin after another, each taking the next of every group
    that has one. -/
def passes {α : Type} (keys : List String) : Nat → (String → List α) → List α
  | 0, _ => []
  | n + 1, groups => keys.filterMap (fun k => (groups k).head?) ++
      passes keys n fun k => (groups k).tail

/-- Round-robin over the groups until all are empty, which takes no more passes
    than there are jobs. -/
def roundRobin {α : Type} (keys : List String) (groups : String → List α) : List α :=
  passes keys (keys.map fun k => (groups k).length).sum groups

/-- One workspace's jobs: its submitters in turn, each first come first. -/
def workspaceOrder (fresh : List QueuedJob) (turns : Turns) (w : String) : List QueuedJob :=
  let mine := fresh.filter (·.workspaceId = w)
  roundRobin (rotated (mine.map (·.sub)) (turns.lastSubmitter.lookup w))
    fun s => mine.filter (·.sub = s)

/-- One line's order: aged jobs first come first (they skip the turns); then
    workspaces in turn. -/
def lineOrder (now : Int) (jobs : List QueuedJob) (turns : Turns) : List QueuedJob :=
  let old := (jobs.filter (·.aged now)).insertionSort fun a b => a.fifo b
  let fresh := (jobs.filter (!·.aged now)).insertionSort fun a b => a.fifo b
  old ++ roundRobin (rotated (fresh.map (·.workspaceId)) turns.lastWs) (workspaceOrder fresh turns)

/-- Priority and Standard, one job each by turns, from `next` on; a line that is
    empty leaves its turn to the other. -/
def alternate {α : Type} : Nat → Line → List α → List α → List α
  | 0, _, _, _ => []
  | n + 1, next, pri, std =>
      if next = .priority then
        match pri with
        | j :: rest => j :: alternate n .standard rest std
        | [] =>
            match std with
            | j :: rest => j :: alternate n .standard [] rest
            | [] => []
      else
        match std with
        | j :: rest => j :: alternate n .priority pri rest
        | [] =>
            match pri with
            | j :: rest => j :: alternate n .priority rest []
            | [] => []

def ofLine (queue : List QueuedJob) (l : Line) : List QueuedJob := queue.filter (·.line = l)

/-- The start order: CI by `created_at`; then Priority and Standard alternating;
    then Batch. -/
def orderWith (now : Int) (queue : List QueuedJob) (turns : Turns) : List QueuedJob :=
  let pri := lineOrder now (ofLine queue .priority) turns
  let std := lineOrder now (ofLine queue .standard) turns
  (ofLine queue .ci).insertionSort (fun a b => a.fifo b) ++
    alternate (pri.length + std.length) (alternateAfter turns.lastLine) pri std ++
    lineOrder now (ofLine queue .batch) turns

/-! ## The decision -/

/-- Why everything after a held head waits. -/
def holdReason (j : QueuedJob) (line : Line) : Refusal :=
  match line with
  | .ci => ⟨tierHold, "a CI job ahead of it takes the next free slot"⟩
  | .priority => ⟨tierHold, "a Priority job ahead of it takes the next free slot"⟩
  | _ =>
      if j.exclusive then ⟨waitingForIdle, "an exclusive job ahead of it waits for an idle node"⟩
      else ⟨tierHold, "a job ahead of it takes the next free slot"⟩

/-- The grant's caps, per workspace. -/
structure Limits where
  grantMaxParallel : String → Nat
  /-- 0 is off. -/
  submitterMaxRunning : String → Nat

def withinGrant (j : QueuedJob) (load : Load) (cap : String → Nat) : Bool :=
  (load.runningByWorkspace.lookup j.workspaceId).getD 0 < max (cap j.workspaceId) 1

/-- The per-submitter cap; CI never counts or waits. -/
def withinSubmitterCap (j : QueuedJob) (load : Load) (cap : String → Nat) : Bool :=
  cap j.workspaceId == 0 || j.tier == .ci ||
    (load.runningBySubmitter.lookup (j.workspaceId, j.sub)).getD 0 < cap j.workspaceId

def grantFull : Refusal :=
  ⟨"grant_parallel_full", "this workspace already runs as many jobs on the node as its grant allows"⟩

def submitterFull (j : QueuedJob) (cap : String → Nat) : Refusal :=
  ⟨submitterRunningFull, "this submitter already runs " ++ toString (cap j.workspaceId) ++
    " job(s) here (the grant's per-submitter cap); jobs behind it may start first"⟩

def behindOlder : Refusal := ⟨"behind_older_job", "an older job from the same submitter goes first"⟩

def nextInTurn : Refusal := ⟨"next_in_turn", "next in turn"⟩

def batchWaits : Refusal :=
  ⟨batchWindow, "Batch: it starts when the node is idle (nothing running, nothing else ready)"⟩

/-- Why a job can't be placed, whatever is ordered ahead of it but for a
    placement made already. -/
def verdict (load : Load) (caps : Limits) (offer : Offer) (placed : Bool) (j : QueuedJob) :
    Option Refusal :=
  match offerRefusal offer load.total load.exclusiveRunning j.ask with
  | some r => some (withNumbers r offer j load.total)
  | none =>
      if !withinGrant j load caps.grantMaxParallel then some grantFull
      else if !withinSubmitterCap j load caps.submitterMaxRunning then
        some (submitterFull j caps.submitterMaxRunning)
      else if j.line = .batch ∧ (load.total > 0 ∨ placed) then some batchWaits
      else none

/-- Where the placement loop stands. -/
structure Scan where
  place : Option String
  hold : Option Refusal
  headSeen : Bool
  /-- Whose oldest Standard or Batch job was already looked at. -/
  seen : List (String × String × Line)
  waiting : FinMap String (Nat × Refusal)

def Scan.start : Scan := ⟨none, none, false, [], .empty⟩

/-- One job of the order, at its 1-based position. -/
def Scan.look (load : Load) (caps : Limits) (offer : Offer) (s : Scan) (p : QueuedJob × Nat) : Scan :=
  let (j, pos) := p
  match neverFits offer j with
  -- It can never start: reported and left out, so it never holds the jobs behind it.
  | some r => { s with waiting := s.waiting.insert j.id (pos, r) }
  | none =>
      let isHead := !s.headSeen
      let s := { s with headSeen := true }
      match s.hold with
      | some h => { s with waiting := s.waiting.insert j.id (pos, h) }
      | none =>
          let turn := (j.workspaceId, j.sub, j.line)
          let fifo := j.line = .standard ∨ j.line = .batch
          if fifo ∧ turn ∈ s.seen then { s with waiting := s.waiting.insert j.id (pos, behindOlder) }
          else
            let s := { s with seen := if fifo then turn :: s.seen else s.seen }
            match verdict load caps offer s.place.isSome j with
            | none =>
                if s.place.isNone then { s with place := some j.id }
                else { s with waiting := s.waiting.insert j.id (pos, nextInTurn) }
            | some r =>
                { s with
                  hold := if waitsForRoom r.code &&
                      (j.line.holds || (isHead && j.exclusive && j.line != .batch))
                    then some (holdReason j j.line) else s.hold
                  waiting := s.waiting.insert j.id (pos, r) }

/-- Each job's 1-based position by id; of two with one id, the later one's. -/
def positions (jobs : List QueuedJob) : FinMap String Nat :=
  jobs.zipIdx.foldl (fun m p => m.insert p.1.id (p.2 + 1)) .empty

/-- The jobs of an order, each with the position found under its id. -/
def positioned (jobs : List QueuedJob) : List (QueuedJob × Nat) :=
  jobs.map fun j => (j, ((positions jobs).lookup j.id).getD 0)

/-- Everything waits, for one reason. -/
def waitAll (jobs : List QueuedJob) (why : Refusal) : FinMap String (Nat × Refusal) :=
  (positioned jobs).foldl (fun m p => m.insert p.1.id (p.2, why)) .empty

/-- Decide one placement at `now`; no offer means that the node is offline. -/
def decideWith (now : Int) (queue : List QueuedJob) (turns : Turns) (load : Load) (caps : Limits)
    (offer : Option Offer) (controllerPause : Option String) : Decision :=
  let jobs := orderWith now queue turns
  if jobs.isEmpty then ⟨none, .empty⟩
  else match controllerPause, offer with
    | some p, _ =>
        ⟨none, waitAll jobs ⟨"controller_paused", "the server's owner " ++ p ++ " this node"⟩⟩
    | none, none =>
        ⟨none, waitAll jobs ⟨"node_offline", "the node is offline; the job starts when it reconnects"⟩⟩
    | none, some offer =>
        let s := (positioned jobs).foldl (Scan.look load caps offer) .start
        ⟨s.place, s.waiting⟩

end K2.Compute
