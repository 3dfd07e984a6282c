import K2.Tunnel.Failover

/-! # Why the selector moves

Each call keeps the relay in use, or moves and starts its clocks over. The clock of
an outage and the streak of probes are read back to the calls that started them.
-/

namespace K2.Tunnel

namespace RelaySelector

variable {s s' : RelaySelector}

/-! ## Randomness -/

/-- Only the generator moved. -/
def Drew (s s' : RelaySelector) : Prop := s' = { s with rng := s'.rng }

theorem randomUpto_drew (s : RelaySelector) (max : Nat) : s.Drew (s.randomUpto max).2 := by
  simp only [randomUpto]
  split <;> rfl

theorem probeGap_drew (s : RelaySelector) : s.Drew s.probeGap.2 := by
  simp only [probeGap]
  split
  · rfl
  · exact randomUpto_drew s _

/-! ## Moves -/

/-- The same relay is in use, beside the same primary. -/
def Stays (s s' : RelaySelector) : Prop :=
  s'.relay = s.relay ∧ s'.primary = s.primary ∧ s'.onPrimary = s.onPrimary

theorem Stays.refl (s : RelaySelector) : s.Stays s := ⟨rfl, rfl, rfl⟩

/-- What no call changes. -/
structure Settings (s s' : RelaySelector) : Prop where
  mode : s'.mode = s.mode
  earned : s'.earned = s.earned
  dnsMinOutage : s'.dnsMinOutage = s.dnsMinOutage

/-- What a switch on failure does: the clocks start over, and a target that is not the
    primary answered. -/
structure Switched (s s' : RelaySelector) (reachable : RelayEndpoint → Bool) (sw : RelaySwitch) : Prop where
  source : sw.source = s.relay
  target : sw.target = s'.relay
  answers : s'.onPrimary = false → reachable sw.target = true
  fresh : s'.downSince = none ∧ s'.probeStreak = 0 ∧ s'.failbackAt = none
  settings : s.Settings s'

theorem moveTo_cases (s : RelaySelector) (reachable : RelayEndpoint → Bool) (target : Fin s.relays.length)
    (why : String) :
    (s.moveTo reachable target why).1 = { s with hold := some .targetUnreachable } ∧
      (∀ sw why', (s.moveTo reachable target why).2 ≠ .switch sw why') ∨
    ∃ sw, (s.moveTo reachable target why).2 = .switch sw why ∧ sw.target = s.relays.get target ∧
      (target.val = 0 → (s.moveTo reachable target why).1.onPrimary = true) ∧
      s.Switched (s.moveTo reachable target why).1 reachable sw := by
  unfold moveTo
  split
  next unanswered => exact .inl ⟨rfl, nofun⟩
  next go =>
    simp only [ne_eq, decide_not, Bool.and_eq_true, Bool.not_eq_true', decide_eq_false_iff_not, not_and,
      Bool.not_eq_false] at go
    refine .inr ⟨_, rfl, rfl, fun zero => decide_eq_true zero, rfl, rfl, fun elsewhere => ?_, ⟨rfl, rfl, rfl⟩, ⟨rfl, rfl, rfl⟩⟩
    exact go (of_decide_eq_false elsewhere)

/-! ## A failure -/

/-- A failure that moved nothing: it belongs to the streak of failures, and leaves the
    probes alone. -/
structure Counted (s s' : RelaySelector) (now : Nat) : Prop where
  stays : s.Stays s'
  clock : s'.downSince = some (s.since now)
  streak : s'.probeStreak = s.probeStreak
  due : s'.failbackAt = s.failbackAt
  settings : s.Settings s'

/-- Why a failure at `now` may move to a standby: the hint names it, or names no listed
    relay after failures that go back far enough. -/
def Excused (s : RelaySelector) (now : Nat) (hint : DnsHint) (sw : RelaySwitch) : Prop :=
  hint = .active sw.target ∨ s.named hint = none ∧ s.dnsMinOutage ≤ now - s.since now

theorem named_target {hint : DnsHint} {i : Fin s.relays.length} (found : s.named hint = some i) :
    hint = .active (s.relays.get i) := by
  cases hint with
  | unknown => cases found
  | active r =>
      have here := (List.findFinIdx?_eq_some_iff.mp found).1
      exact congrArg DnsHint.active (of_decide_eq_true here).symm

theorem moveTo_counted {reachable : RelayEndpoint → Bool} {target : Fin s.relays.length} {why : String} {now : Nat}
    {hint : DnsHint} (clock : s.downSince = some (s.since now))
    (excuse : target.val = 0 ∨ ∀ sw : RelaySwitch, sw.target = s.relays.get target → s.Excused now hint sw) :
    s.Counted (s.moveTo reachable target why).1 now ∧
      (∀ sw why', (s.moveTo reachable target why).2 ≠ .switch sw why') ∨
    ∃ sw why', (s.moveTo reachable target why).2 = .switch sw why' ∧
      s.Switched (s.moveTo reachable target why).1 reachable sw ∧
      ((s.moveTo reachable target why).1.onPrimary = false → s.Excused now hint sw) := by
  rcases moveTo_cases s reachable target why with ⟨kept, stays⟩ | ⟨sw, switch, target', primary, switched⟩
  · exact .inl ⟨kept ▸ ⟨.refl s, clock, rfl, rfl, ⟨rfl, rfl, rfl⟩⟩, stays⟩
  · refine .inr ⟨sw, why, switch, switched, fun elsewhere => ?_⟩
    rcases excuse with zero | excuse
    · rw [primary zero] at elsewhere
      cases elsewhere
    · exact excuse sw target'

theorem pastThreshold_cases {now : Nat} (hint : DnsHint) (reachable : RelayEndpoint → Bool)
    (clock : s.downSince = some (s.since now)) :
    s.Counted (s.pastThreshold now hint reachable).1 now ∧
      (∀ sw why, (s.pastThreshold now hint reachable).2 ≠ .switch sw why) ∨
    ∃ sw why, (s.pastThreshold now hint reachable).2 = .switch sw why ∧
      s.Switched (s.pastThreshold now hint reachable).1 reachable sw ∧
      ((s.pastThreshold now hint reachable).1.onPrimary = false → s.Excused now hint sw) := by
  unfold pastThreshold
  split
  next i found =>
    split
    · exact .inl ⟨⟨.refl s, clock, rfl, rfl, ⟨rfl, rfl, rfl⟩⟩, nofun⟩
    · exact moveTo_counted clock (.inr fun sw here => .inl (here ▸ named_target found))
  next nowhere =>
    dsimp only
    split
    next zero => exact moveTo_counted clock (.inl zero)
    split
    next long => exact moveTo_counted clock (.inr fun sw _ => .inr ⟨nowhere, long⟩)
    next => exact .inl ⟨⟨.refl s, clock, rfl, rfl, ⟨rfl, rfl, rfl⟩⟩, nofun⟩

theorem onFailureAt_cases (dns : s.mode = .dns) (now : Nat) (hint : DnsHint) (reachable : RelayEndpoint → Bool) :
    s.Counted (s.onFailureAt now hint reachable).1 now ∧
      (∀ sw why, (s.onFailureAt now hint reachable).2 ≠ .switch sw why) ∨
    ∃ sw why, (s.onFailureAt now hint reachable).2 = .switch sw why ∧
      s.Switched (s.onFailureAt now hint reachable).1 reachable sw ∧
      ((s.onFailureAt now hint reachable).1.onPrimary = false → s.Excused now hint sw) := by
  have legacy : s.mode ≠ .legacy := by simp [dns]
  unfold onFailureAt
  rw [if_neg legacy]
  dsimp only
  split
  · exact .inl ⟨⟨.refl s, rfl, rfl, rfl, ⟨rfl, rfl, rfl⟩⟩, nofun⟩
  · -- counting the failure changes neither the relay nor what the streak goes back to
    let s₁ : RelaySelector := { s with failures := s.failures + 1, downSince := some (s.since now) }
    have clock : s₁.downSince = some (s₁.since now) := rfl
    rcases pastThreshold_cases hint reachable clock with ⟨counted, stays⟩ | ⟨sw, why, switch, switched, excuse⟩
    · exact .inl ⟨⟨counted.stays, counted.clock, counted.streak, counted.due,
        ⟨counted.settings.mode, counted.settings.earned, counted.settings.dnsMinOutage⟩⟩, stays⟩
    · exact .inr ⟨sw, why, switch, ⟨switched.source, switched.target, switched.answers, switched.fresh,
        ⟨switched.settings.mode, switched.settings.earned, switched.settings.dnsMinOutage⟩⟩, excuse⟩

/-! ## Probes -/

/-- Nothing is earned: no healthy probe counts and no return is scheduled. -/
def Unearned (s : RelaySelector) : Prop := s.probeStreak = 0 ∧ s.failbackAt = none

/-- A call about the primary that did not return to it. -/
structure Asked (s s' : RelaySelector) : Prop where
  stays : s.Stays s'
  clock : s'.downSince = s.downSince
  streak : s'.Unearned ∨ s.onPrimary = false ∧ s'.probeStreak = s.probeStreak ∧ s'.failbackAt = s.failbackAt
  settings : s.Settings s'

theorem primaryProbeDue_asked (s : RelaySelector) (now : Nat) : s.Asked (s.primaryProbeDue now).1 := by
  unfold primaryProbeDue
  split
  next => exact ⟨.refl s, rfl, .inl ⟨rfl, rfl⟩, ⟨rfl, rfl, rfl⟩⟩
  next away =>
    have away : s.onPrimary = false := by simpa using away
    split
    · exact ⟨.refl s, rfl, .inr ⟨away, rfl, rfl⟩, ⟨rfl, rfl, rfl⟩⟩
    · dsimp only
      rw [probeGap_drew s]
      exact ⟨.refl s, rfl, .inr ⟨away, rfl, rfl⟩, ⟨rfl, rfl, rfl⟩⟩

/-- A poll that goes back to the primary. -/
def returns (s : RelaySelector) (now : Nat) (hint : DnsHint) : Bool :=
  !s.nameAtFallback hint && !s.onPrimary && s.failbackAt.any (· ≤ now)

theorem pollFailbackAt_returns {now : Nat} {hint : DnsHint} (back : s.returns now hint = true) :
    s.pollFailbackAt now hint =
      ({ s with current := ⟨0, s.relays_pos⟩, failures := 0 }.resetProbes, some ⟨s.relay, s.primary, 0⟩) := by
  simp only [returns, Bool.and_eq_true, Bool.not_eq_true'] at back
  obtain ⟨⟨elsewhere, away⟩, due⟩ := back
  simp [pollFailbackAt, pollFailback, elsewhere, away, due]

theorem pollFailbackAt_asked (dns : s.mode = .dns) {now : Nat} {hint : DnsHint} (stays : s.returns now hint = false) :
    s.Asked (s.pollFailbackAt now hint).1 ∧ (s.pollFailbackAt now hint).2 = none ∧
      (hint = .active s.relay → (s.pollFailbackAt now hint).1.Unearned) := by
  unfold pollFailbackAt
  split
  next => exact ⟨⟨.refl s, rfl, .inl ⟨rfl, rfl⟩, ⟨rfl, rfl, rfl⟩⟩, rfl, fun _ => ⟨rfl, rfl⟩⟩
  next elsewhere =>
    unfold pollFailback
    split
    next => exact ⟨⟨.refl s, rfl, .inl ⟨rfl, rfl⟩, ⟨rfl, rfl, rfl⟩⟩, rfl, fun _ => ⟨rfl, rfl⟩⟩
    next away =>
      have early : ¬ s.failbackAt.any (· ≤ now) = true := by
        intro due
        simp [returns, elsewhere, away, due] at stays
      rw [if_neg early]
      refine ⟨⟨.refl s, rfl, .inr ⟨by simpa using away, rfl, rfl⟩, ⟨rfl, rfl, rfl⟩⟩, rfl, fun here => ?_⟩
      simp [nameAtFallback, namesCurrent, dns, away, here] at elsewhere

/-- What a probe of the primary does to the streak. -/
structure ProbeTaken (s s' : RelaySelector) (healthy : Bool) (hint : DnsHint) : Prop where
  stays : s.Stays s'
  clock : s'.downSince = s.downSince
  streak : s'.Unearned ∨ healthy = true ∧ s.onPrimary = false ∧ hint ≠ .active s.relay ∧
    s'.probeStreak = s.probeStreak + 1 ∧ (s'.failbackAt = s.failbackAt ∨ s.earned ≤ s'.probeStreak)
  settings : s.Settings s'

theorem onPrimaryProbe_taken {hint : DnsHint} (elsewhere : s.onPrimary = false → hint ≠ .active s.relay)
    (healthy : Bool) (now : Nat) : s.ProbeTaken (s.onPrimaryProbe healthy now) healthy hint := by
  unfold onPrimaryProbe
  split
  next => exact ⟨.refl s, rfl, .inl ⟨rfl, rfl⟩, ⟨rfl, rfl, rfl⟩⟩
  next away =>
    have away : s.onPrimary = false := by simpa using away
    dsimp only
    rw [probeGap_drew s]
    cases healthy with
    | false => exact ⟨.refl s, rfl, .inl ⟨rfl, rfl⟩, ⟨rfl, rfl, rfl⟩⟩
    | true =>
        simp only [Bool.not_true, Bool.false_eq_true, if_false]
        split
        next enough =>
          rw [randomUpto_drew]
          have enough : s.earned ≤ s.probeStreak + 1 := of_decide_eq_true (Bool.and_eq_true_iff.mp enough).1
          exact ⟨.refl s, rfl, .inr ⟨rfl, away, elsewhere away, rfl, .inr enough⟩, ⟨rfl, rfl, rfl⟩⟩
        next => exact ⟨.refl s, rfl, .inr ⟨rfl, away, elsewhere away, rfl, .inl rfl⟩, ⟨rfl, rfl, rfl⟩⟩

theorem onPrimaryProbeAt_taken (dns : s.mode = .dns) (healthy : Bool) (now : Nat) (hint : DnsHint) :
    s.ProbeTaken (s.onPrimaryProbeAt healthy now hint) healthy hint := by
  unfold onPrimaryProbeAt
  split
  next =>
    dsimp only
    rw [probeGap_drew s]
    exact ⟨.refl s, rfl, .inl ⟨rfl, rfl⟩, ⟨rfl, rfl, rfl⟩⟩
  next elsewhere =>
    have away_elsewhere : s.onPrimary = false → hint ≠ .active s.relay := by
      intro away here
      simp [nameAtFallback, namesCurrent, dns, away, here] at elsewhere
    let s₁ : RelaySelector := { s with fallbackNameHere := false }
    have taken := onPrimaryProbe_taken (s := s₁) away_elsewhere healthy now
    exact ⟨taken.stays, taken.clock, taken.streak,
      ⟨taken.settings.mode, taken.settings.earned, taken.settings.dnsMinOutage⟩⟩

end RelaySelector

end K2.Tunnel
