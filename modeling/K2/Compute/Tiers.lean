import Mathlib.Data.String.Basic
import Mathlib.Data.Nat.Log

/-! # Tiers and lines

The rules the orderers share: the line a job's tier stands in, which line goes
next, when a job has aged past its line's turns, and which refusals mean that a
job only waits for room.
-/

namespace K2.Compute

/-- A job waiting this long skips its line's turns. -/
def ageSecs : Int := 3600

/-- A job's tier; `normal` is Standard. -/
inductive Tier where
  | batch | normal | priority | ci
  deriving Repr, DecidableEq

inductive Line where
  | batch | standard | priority | ci
  deriving Repr, DecidableEq

def Tier.line : Tier → Line
  | .ci => .ci
  | .priority => .priority
  | .normal => .standard
  | .batch => .batch

namespace Line

/-- "Next free slot": while a job of this line heads the order and waits only
    for room, nothing ordered after it starts. -/
def holds : Line → Bool
  | .priority | .ci => true
  | .batch | .standard => false

/-- May a head of this line hold the queue after waiting long? -/
def backfillHolds (l : Line) : Bool := l != .batch

/-- Do starts of this line count for the alternation? -/
def alternates : Line → Bool
  | .priority | .standard => true
  | .batch | .ci => false

end Line

/-- Which of Priority and Standard starts next when both wait: the one that
    didn't get the last start. -/
def alternateAfter (last : Option Line) : Line :=
  if last = some .priority then .standard else .priority

/-- The first line with work: CI, then Priority and Standard alternating, then
    Batch. -/
def nextLine (has : Line → Bool) (last : Option Line) : Option Line :=
  if has .ci then some .ci
  else
    let first := alternateAfter last
    let second := if first = .priority then .standard else .priority
    [first, second, .batch].find? has

def aged (waitedSecs limit : Int) : Bool := waitedSecs ≥ limit

/-- The tier a node counts for a job: CI only with `mayCi`, Priority only with
    `mayPriority`, else Standard; Batch stays Batch. -/
def effective (tier : Tier) (mayCi mayPriority : Bool) : Tier :=
  match tier with
  | .ci => if mayCi then .ci else .normal
  | .priority => if mayPriority then .priority else .normal
  | .batch => .batch
  | .normal => .normal

/-! ## Codes -/

abbrev localPaused : String := "local_paused"
abbrev localDraining : String := "local_draining"
abbrev localStopped : String := "local_stopped"
abbrev localResourceLimit : String := "local_resource_limit"
abbrev outsideWindow : String := "outside_window"
abbrev ownerActive : String := "owner_active"
abbrev onBattery : String := "on_battery"
abbrev workspaceRefused : String := "workspace_refused"
abbrev diskLow : String := "disk_low"
abbrev foreignLockCode : String := "foreign_lock"
abbrev upgradeRequired : String := "upgrade_required"
abbrev toolMissing : String := "tool_missing"
abbrev parallelFull : String := "parallel_full"
abbrev exclusiveRunningCode : String := "exclusive_running"
abbrev waitingForIdle : String := "waiting_for_idle"
abbrev networkNoneNotEnforced : String := "network_none_not_enforced_yet"
abbrev tierHold : String := "tier_hold"
abbrev batchWindow : String := "batch_window"
abbrev submitterRunningFull : String := "submitter_running_full"

/-- Does a refusal mean that the job only waits for room on the node? -/
def waitsForRoom (code : String) : Bool :=
  code == parallelFull || code == localResourceLimit || code == waitingForIdle ||
    code == exclusiveRunningCode

end K2.Compute

/-! ## Numbers in refusal texts

A refusal's text shows bytes as GB and millicores as CPUs: a `u64` divided as an
`f64` and printed with a fixed number of decimals. A double is kept as the ratio
it is exactly; printing rounds that ratio, ties to even.
-/

namespace K2.Compute

/-- `n / d` to the nearest whole number, ties to even. -/
def nearest (n d : Nat) : Nat :=
  let q := n / d
  let twice := 2 * (n % d)
  if twice > d || (twice == d && q % 2 == 1) then q + 1 else q

/-- The double nearest to `n / d`, as a ratio: 53 significant bits. -/
def double (n d : Nat) : Nat × Nat :=
  if n = 0 then (0, 1)
  else
    let up := 2 ^ (54 + Nat.log2 d)
    -- `n * up / d` has 54 bits or more; those past the 53rd are dropped.
    let drop := 2 ^ (Nat.log2 (n * up / d) - 52)
    (nearest (n * up) (d * drop) * drop, up)

/-- `format!("{:.k}")` of a double. -/
def fixed (k : Nat) (x : Nat × Nat) : String :=
  let scaled := nearest (x.1 * 10 ^ k) x.2
  let whole := toString (scaled / 10 ^ k)
  if k = 0 then whole
  else
    let frac := toString (scaled % 10 ^ k)
    whole ++ "." ++ String.ofList (List.replicate (k - frac.length) '0') ++ frac

/-- Bytes in GB: `b as f64 / (1u64 << 30) as f64`. -/
def gb (bytes : Nat) : Nat × Nat :=
  let b := double bytes 1
  double b.1 (b.2 * 2 ^ 30)

/-- Millicores in CPUs: `m as f64 / 1000.0`. -/
def cpus (millis : Nat) : Nat × Nat :=
  let m := double millis 1
  double m.1 (m.2 * 1000)

/-- 3 prints as `3`, 2.5 as `2.5` (one decimal at most). -/
def fmtNum (x : Nat × Nat) : String :=
  let s := (fixed 1 x).toList
  String.ofList (if s.drop (s.length - 2) = ['.', '0'] then s.take (s.length - 2) else s)

example : fixed 1 (gb (6 * 2 ^ 30)) = "6.0" := by decide +kernel
example : fmtNum (cpus 2500) = "2.5" := by decide +kernel

end K2.Compute
