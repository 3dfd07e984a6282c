import Mathlib.Algebra.Group.Nat.Defs
import Mathlib.Data.List.Infix

/-! # Relay failover

Which relay of the ordered list frpc should dial. Time, the relay list's hint and
what a probe of a relay says are given to each call; durations are nanoseconds.
-/

namespace K2.Tunnel

/-! ## Policy -/

def ofSecs (n : Nat) : Nat := n * 1000000000
def asSecs (d : Nat) : Nat := d / 1000000000
def asMillis (d : Nat) : Nat := d / 1000000
def ofMillis (n : Nat) : Nat := n * 1000000

/-- Failures in a row on the current relay before the next one. -/
def defaultFailureThreshold : Nat := 3

/-- How long the primary must have been down without a break before a move to a
    standby the relay list does not vouch for. -/
def defaultDnsMinOutage : Nat := ofSecs 150

inductive FailoverMode where
  | dns
  | legacy
  deriving Repr, DecidableEq

structure RelayEndpoint where
  host : String
  port : Nat
  deriving Repr, DecidableEq

def RelayEndpoint.display (r : RelayEndpoint) : String := r.host ++ ":" ++ toString r.port

/-- Where the relay list says the public name points. -/
inductive DnsHint where
  | active (relay : RelayEndpoint)
  | unknown
  deriving Repr, DecidableEq

/-- Why the selector stayed put after a failure past the threshold. -/
inductive Hold where
  | nameHere
  | waitingForOutage
  | targetUnreachable
  deriving Repr, DecidableEq

/-- A decided relay change; a fail-back has no failures. -/
structure RelaySwitch where
  source : RelayEndpoint
  target : RelayEndpoint
  afterFailures : Nat
  deriving Repr, DecidableEq

inductive FailureDecision where
  | count
  | hold (why : String)
  | switch (sw : RelaySwitch) (why : String)
  deriving Repr, DecidableEq

/-- When and how the supervisor returns to the primary. -/
structure FailbackPolicy where
  probeEvery : Nat
  probeSpread : Nat
  healthyProbes : Nat
  failbackDelayMax : Nat
  deriving Repr, DecidableEq

namespace FailbackPolicy

def default : FailbackPolicy := ⟨ofSecs 300, ofSecs 60, 3, ofSecs 120⟩

def dnsAware : FailbackPolicy := ⟨ofSecs 30, ofSecs 5, 2, ofSecs 30⟩

end FailbackPolicy

/-! ## The selector -/

/-- An ordered list with the relay in use; index 0 is the primary. -/
structure RelaySelector where
  relays : List RelayEndpoint
  current : Fin relays.length
  /-- Failures in a row on the relay in use since the last success or switch. -/
  failures : Nat
  failureThreshold : Nat
  failback : FailbackPolicy
  /-- On a fallback, when the next probe of the primary is due. -/
  nextProbeAt : Option Nat
  /-- Healthy probes of the primary in a row. -/
  probeStreak : Nat
  /-- The scheduled return to the primary, once earned. -/
  failbackAt : Option Nat
  rng : BitVec 64
  mode : FailoverMode
  dnsMinOutage : Nat
  /-- When the current failure streak began. -/
  downSince : Option Nat
  hold : Option Hold
  /-- The last probe round found the name at the fallback in use. -/
  fallbackNameHere : Bool

namespace RelaySelector

def withPolicySeeded (relays : List RelayEndpoint) (nonempty : 0 < relays.length) (failureThreshold : Nat)
    (failback : FailbackPolicy) (seed : BitVec 64) : RelaySelector where
  relays
  current := ⟨0, nonempty⟩
  failures := 0
  failureThreshold := max failureThreshold 1
  failback
  nextProbeAt := none
  probeStreak := 0
  failbackAt := none
  rng := if seed = 0 then 0x9E3779B97F4A7C15#64 else seed
  mode := .legacy
  dnsMinOutage := defaultDnsMinOutage
  downSince := none
  hold := none
  fallbackNameHere := false

variable (s : RelaySelector)

def withDnsGate (minOutage : Nat) : RelaySelector := { s with mode := .dns, dnsMinOutage := minOutage }

/-- The relay frpc should dial. -/
def relay : RelayEndpoint := s.relays.get s.current

theorem relays_pos : 0 < s.relays.length := s.current.pos

def primary : RelayEndpoint := s.relays.get ⟨0, s.relays_pos⟩

def onPrimary : Bool := s.current.val = 0

def resetProbes : RelaySelector :=
  { s with nextProbeAt := none, probeStreak := 0, failbackAt := none, fallbackNameHere := false }

/-- Adopt a new list; the relay in use stays when the list still carries it. Answers
    whether the relay to dial changed. -/
def adopt (relays : List RelayEndpoint) (nonempty : 0 < relays.length) : RelaySelector × Bool :=
  let before := s.relay
  let s := { s with
    relays
    current := (relays.findFinIdx? (· = before)).getD ⟨0, nonempty⟩
    failures := 0
    downSince := none
    hold := none }.resetProbes
  (s, s.relay ≠ before)

/-! ## Randomness -/

/-- A random duration up to `max`, in milliseconds. -/
def randomUpto (max : Nat) : Nat × RelaySelector :=
  let ms := asMillis max % 2 ^ 64
  if ms = 0 then (0, s)
  else
    let x := s.rng ^^^ (s.rng <<< 13)
    let x := x ^^^ (x >>> 7)
    let x := x ^^^ (x <<< 17)
    (ofMillis (x.toNat % (ms + 1)), { s with rng := x })

def probeGap : Nat × RelaySelector :=
  let base := s.failback.probeEvery
  let spread := min s.failback.probeSpread base
  if spread = 0 then (base, s)
  else
    let (r, s) := s.randomUpto (spread * 2)
    (base - spread + r, s)

/-! ## Failures -/

/-- The relay after the one in use. -/
def following : Fin s.relays.length := ⟨(s.current + 1) % s.relays.length, Nat.mod_lt _ s.relays_pos⟩

def onFailure : RelaySelector × Option RelaySwitch :=
  let s := { s with failures := s.failures + 1 }
  if s.relays.length = 1 || s.failures < s.failureThreshold then (s, none)
  else
    let s' := { s with current := s.following, failures := 0 }.resetProbes
    (s', some ⟨s.relay, s'.relay, s.failures⟩)

def onSuccess : RelaySelector := { s with failures := 0, downSince := none, hold := none }

/-- The listed relay a hint names. -/
def named : DnsHint → Option (Fin s.relays.length)
  | .active r => s.relays.findFinIdx? (· = r)
  | .unknown => none

/-- Move to a relay, if it is the primary or answers. -/
def moveTo (reachable : RelayEndpoint → Bool) (target : Fin s.relays.length) (why : String) :
    RelaySelector × FailureDecision :=
  if target.val ≠ 0 && !reachable (s.relays.get target) then
    ({ s with hold := some .targetUnreachable },
      .hold ("staying on " ++ (if s.onPrimary then "primary" else s.relay.display) ++ ", " ++
        (s.relays.get target).display ++ " is not reachable either (" ++ why ++ "); retrying with backoff"))
  else
    let s' := { s with current := target, failures := 0, downSince := none, hold := none }.resetProbes
    (s', .switch ⟨s.relay, s'.relay, s.failures⟩ why)

/-- The start of the failure streak that a failure at `now` belongs to. -/
def since (now : Nat) : Nat := s.downSince.getD now

/-- A failure past the threshold in DNS mode. -/
def pastThreshold (now : Nat) (hint : DnsHint) (reachable : RelayEndpoint → Bool) : RelaySelector × FailureDecision :=
  match s.named hint with
  | some i =>
      if i = s.current then
        ({ s with hold := some .nameHere },
          .hold (if s.onPrimary then "staying on primary, standby not active per k2.dev"
            else "staying on " ++ s.relay.display ++ ", k2.dev says the name points here"))
      else s.moveTo reachable i ((s.relays.get i).display ++ " is the active relay per k2.dev")
  | none =>
      let downFor := now - s.since now
      if s.following.val = 0 then s.moveTo reachable s.following "back to the primary (the fallback is failing)"
      else if downFor ≥ s.dnsMinOutage then
        s.moveTo reachable s.following ("primary down for " ++ toString (asSecs downFor) ++
          " s and k2.dev did not say where the name points")
      else
        ({ s with hold := some .waitingForOutage },
          .hold ("staying on " ++ s.relay.display ++ ", k2.dev did not say where the name points; " ++
            "moving only after " ++ toString (asSecs s.dnsMinOutage) ++ " s down (" ++
            toString (asSecs downFor) ++ " s so far)"))

/-- Record one failure at `now` under the selector's mode. -/
def onFailureAt (now : Nat) (hint : DnsHint) (reachable : RelayEndpoint → Bool) : RelaySelector × FailureDecision :=
  if s.mode = .legacy then
    match s.onFailure with
    | (s, some sw) => (s, .switch sw ("after " ++ toString sw.afterFailures ++ " failures (0.46.2 rules)"))
    | (s, none) => (s, .count)
  else
    let s := { s with failures := s.failures + 1, downSince := some (s.since now) }
    if s.relays.length = 1 || s.failures < s.failureThreshold then (s, .count)
    else s.pastThreshold now hint reachable

/-! ## Probes and the return -/

def namesCurrent (hint : DnsHint) : Bool := hint = .active s.relay

/-- Is a probe of the primary due? The first call on a fallback schedules it. -/
def primaryProbeDue (now : Nat) : RelaySelector × Bool :=
  if s.onPrimary then (s.resetProbes, false)
  else match s.nextProbeAt with
    | some time => (s, now ≥ time)
    | none =>
        let (gap, s) := s.probeGap
        ({ s with nextProbeAt := some (now + gap) }, false)

/-- Healthy probes in a row that earn the return. -/
def earned : Nat := max s.failback.healthyProbes 1

/-- Record one probe of the primary. -/
def onPrimaryProbe (healthy : Bool) (now : Nat) : RelaySelector :=
  if s.onPrimary then s.resetProbes
  else
    let (gap, s) := s.probeGap
    let s := { s with nextProbeAt := some (now + gap) }
    if !healthy then { s with probeStreak := 0, failbackAt := none }
    else
      let s := { s with probeStreak := s.probeStreak + 1 }
      if s.probeStreak ≥ s.earned && s.failbackAt.isNone then
        let (delay, s) := s.randomUpto s.failback.failbackDelayMax
        { s with failbackAt := some (now + delay) }
      else s

/-- The scheduled return to the primary, once its delay has passed. -/
def pollFailback (now : Nat) : RelaySelector × Option RelaySwitch :=
  if s.onPrimary then (s.resetProbes, none)
  else if s.failbackAt.any (· ≤ now) then
    ({ s with current := ⟨0, s.relays_pos⟩, failures := 0 }.resetProbes, some ⟨s.relay, s.primary, 0⟩)
  else (s, none)

/-- Does k2.dev say the name points at the fallback in use? -/
def nameAtFallback (hint : DnsHint) : Bool := s.mode = .dns && !s.onPrimary && s.namesCurrent hint

/-- Record one probe of the primary under the selector's mode. -/
def onPrimaryProbeAt (healthy : Bool) (now : Nat) (hint : DnsHint) : RelaySelector :=
  if s.nameAtFallback hint then
    let (gap, s) := s.probeGap
    { s with nextProbeAt := some (now + gap), probeStreak := 0, failbackAt := none, fallbackNameHere := true }
  else { s with fallbackNameHere := false }.onPrimaryProbe healthy now

def pollFailbackAt (now : Nat) (hint : DnsHint) : RelaySelector × Option RelaySwitch :=
  if s.nameAtFallback hint then ({ s with probeStreak := 0, failbackAt := none, fallbackNameHere := true }, none)
  else s.pollFailback now

end RelaySelector

/-! ## Calls -/

inductive Call where
  | adopt (relays : List RelayEndpoint) (nonempty : 0 < relays.length)
  | success
  | failure (now : Nat) (hint : DnsHint) (reachable : RelayEndpoint → Bool)
  | probeDue (now : Nat)
  | probe (healthy : Bool) (now : Nat) (hint : DnsHint)
  | poll (now : Nat) (hint : DnsHint)

namespace Call

def isSuccess : Call → Bool
  | success => true
  | _ => false

def healthy : Call → Bool
  | probe healthy .. => healthy
  | _ => false

def failed : Call → Bool
  | probe healthy .. => !healthy
  | _ => false

/-- Does the call's hint name a relay? -/
def names (r : RelayEndpoint) : Call → Bool
  | failure _ hint _ => hint = .active r
  | probe _ _ hint => hint = .active r
  | poll _ hint => hint = .active r
  | _ => false

end Call

namespace RelaySelector

def call (s : RelaySelector) : Call → RelaySelector
  | .adopt relays nonempty => (s.adopt relays nonempty).1
  | .success => s.onSuccess
  | .failure now hint reachable => (s.onFailureAt now hint reachable).1
  | .probeDue now => (s.primaryProbeDue now).1
  | .probe healthy now hint => s.onPrimaryProbeAt healthy now hint
  | .poll now hint => (s.pollFailbackAt now hint).1

def run (s : RelaySelector) (calls : List Call) : RelaySelector := calls.foldl call s

end RelaySelector

end K2.Tunnel
