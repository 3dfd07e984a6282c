import K2.Tunnel.Moves

/-! # Runs of the selector

A streak of failures, and a streak of healthy probes, is read back to the call it
began with: since then the same relay was in use.
-/

namespace K2.Tunnel

namespace RelaySelector

variable {s s₀ : RelaySelector} {pre calls : List Call} {c : Call}

theorem run_snoc (s : RelaySelector) (calls : List Call) (c : Call) : s.run (calls ++ [c]) = (s.run calls).call c := by
  simp only [run, List.foldl_append, List.foldl_cons, List.foldl_nil]

/-! ## One call -/

/-- What a call must not do for the reasons of a later move to hold: a return to the
    primary starts with no streak of failures, and a failure whose hint names the
    fallback in use comes with no healthy probe counted. -/
def Keeps (s : RelaySelector) : Call → Prop
  | .failure _ hint _ => s.onPrimary = false → hint = .active s.relay → s.probeStreak = 0
  | .poll now hint => s.returns now hint = true → s.downSince = none
  | _ => True

instance (s : RelaySelector) : (c : Call) → Decidable (s.Keeps c)
  | .failure _ hint _ => inferInstanceAs (Decidable (s.onPrimary = false → hint = .active s.relay → s.probeStreak = 0))
  | .poll now hint => inferInstanceAs (Decidable (s.returns now hint = true → s.downSince = none))
  | .adopt .. | .success | .probeDue _ | .probe .. => inferInstanceAs (Decidable True)

theorem call_settings (dns : s.mode = .dns) (c : Call) : s.Settings (s.call c) := by
  cases c with
  | adopt | success => exact ⟨rfl, rfl, rfl⟩
  | failure now hint reachable =>
      rcases onFailureAt_cases dns now hint reachable with ⟨counted, -⟩ | ⟨_, _, -, switched, -⟩
      · exact counted.settings
      · exact switched.settings
  | probeDue now => exact (primaryProbeDue_asked s now).settings
  | probe healthy now hint => exact (onPrimaryProbeAt_taken dns healthy now hint).settings
  | poll now hint =>
      cases back : s.returns now hint with
      | false => exact (pollFailbackAt_asked dns back).1.settings
      | true =>
          rw [call, pollFailbackAt_returns back]
          exact ⟨rfl, rfl, rfl⟩

/-- A clock that runs after a call ran before it on the same relay, or was started by it. -/
theorem call_clock (dns : s.mode = .dns) (keeps : s.Keeps c) {t : Nat} (clock : (s.call c).downSince = some t) :
    s.Stays (s.call c) ∧ c.isSuccess = false ∧
      (s.downSince = some t ∨ ∃ hint reachable, c = .failure t hint reachable) := by
  cases c with
  | adopt | success => cases clock
  | failure now hint reachable =>
      rcases onFailureAt_cases dns now hint reachable with ⟨counted, -⟩ | ⟨_, _, -, switched, -⟩
      · refine ⟨counted.stays, rfl, ?_⟩
        have started : some (s.since now) = some t := counted.clock.symm.trans clock
        cases earlier : s.downSince with
        | none =>
            simp only [since, earlier, Option.getD_none, Option.some.injEq] at started
            exact .inr ⟨hint, reachable, by rw [started]⟩
        | some t₀ =>
            simp only [since, earlier, Option.getD_some] at started
            exact .inl started
      · cases switched.fresh.1.symm.trans clock
  | probeDue now =>
      have asked := primaryProbeDue_asked s now
      exact ⟨asked.stays, rfl, .inl (asked.clock.symm.trans clock)⟩
  | probe healthy now hint =>
      have taken := onPrimaryProbeAt_taken dns healthy now hint
      exact ⟨taken.stays, rfl, .inl (taken.clock.symm.trans clock)⟩
  | poll now hint =>
      cases back : s.returns now hint with
      | false =>
          have asked := (pollFailbackAt_asked dns back).1
          exact ⟨asked.stays, rfl, .inl (asked.clock.symm.trans clock)⟩
      | true =>
          rw [call, pollFailbackAt_returns back] at clock
          cases clock.symm.trans (keeps back)

/-- A streak of probes that a call leaves is the one before it, with the call's own probe. -/
theorem call_streak (dns : s.mode = .dns) (keeps : s.Keeps c) (away : 0 < s.probeStreak → s.onPrimary = false)
    (streak : 0 < (s.call c).probeStreak) :
    s.Stays (s.call c) ∧ s.onPrimary = false ∧ c.failed = false ∧ c.names s.relay = false ∧
      (s.call c).probeStreak ≤ s.probeStreak + [c].countP Call.healthy := by
  cases c with
  | adopt => cases streak
  | success => exact ⟨.refl s, away streak, rfl, rfl, Nat.le_refl _⟩
  | failure now hint reachable =>
      rcases onFailureAt_cases dns now hint reachable with ⟨counted, -⟩ | ⟨_, _, -, switched, -⟩
      · have same : (s.call (.failure now hint reachable)).probeStreak = s.probeStreak := counted.streak
        rw [same] at streak ⊢
        refine ⟨counted.stays, away streak, rfl, ?_, Nat.le_refl _⟩
        refine decide_eq_false fun here => ?_
        have none_counted := keeps (away streak) here
        omega
      · exact absurd switched.fresh.2.1 (Nat.pos_iff_ne_zero.mp streak)
  | probeDue now =>
      have asked := primaryProbeDue_asked s now
      rcases asked.streak with unearned | ⟨elsewhere, same, -⟩
      · exact absurd unearned.1 (Nat.pos_iff_ne_zero.mp streak)
      · exact ⟨asked.stays, elsewhere, rfl, rfl, same.le⟩
  | probe healthy now hint =>
      have taken := onPrimaryProbeAt_taken dns healthy now hint
      rcases taken.streak with unearned | ⟨rfl, elsewhere, unnamed, next, -⟩
      · exact absurd unearned.1 (Nat.pos_iff_ne_zero.mp streak)
      · exact ⟨taken.stays, elsewhere, rfl, decide_eq_false unnamed, next.le⟩
  | poll now hint =>
      cases back : s.returns now hint with
      | false =>
          obtain ⟨asked, -, named⟩ := pollFailbackAt_asked dns back
          rcases asked.streak with unearned | ⟨elsewhere, same, -⟩
          · exact absurd unearned.1 (Nat.pos_iff_ne_zero.mp streak)
          · refine ⟨asked.stays, elsewhere, rfl, decide_eq_false fun here => ?_, same.le⟩
            exact absurd (named here).1 (Nat.pos_iff_ne_zero.mp streak)
      | true =>
          rw [call, pollFailbackAt_returns back] at streak
          cases streak

theorem call_due (dns : s.mode = .dns) (before : s.failbackAt.isSome = true → s.earned ≤ s.probeStreak)
    (due : (s.call c).failbackAt.isSome = true) : s.earned ≤ (s.call c).probeStreak := by
  cases c with
  | adopt => cases due
  | success => exact before due
  | failure now hint reachable =>
      rcases onFailureAt_cases dns now hint reachable with ⟨counted, -⟩ | ⟨_, _, -, switched, -⟩
      · rw [call, counted.due] at due
        rw [call, counted.streak]
        exact before due
      · rw [call, switched.fresh.2.2] at due
        cases due
  | probeDue now =>
      rcases (primaryProbeDue_asked s now).streak with unearned | ⟨-, same, kept⟩
      · rw [call, unearned.2] at due
        cases due
      · rw [call, kept] at due
        rw [call, same]
        exact before due
  | probe healthy now hint =>
      rcases (onPrimaryProbeAt_taken dns healthy now hint).streak with unearned | ⟨-, -, -, next, kept | enough⟩
      · rw [call, unearned.2] at due
        cases due
      · rw [call, kept] at due
        rw [call, next]
        exact (before due).trans (Nat.le_succ _)
      · exact enough
  | poll now hint =>
      cases back : s.returns now hint with
      | false =>
          rcases (pollFailbackAt_asked dns back).1.streak with unearned | ⟨-, same, kept⟩
          · rw [call, unearned.2] at due
            cases due
          · rw [call, kept] at due
            rw [call, same]
            exact before due
      | true =>
          rw [call, pollFailbackAt_returns back] at due
          cases due

/-! ## A spell on one relay -/

/-- Since `pre` the same relay was in use. -/
def InUse (s₀ : RelaySelector) (pre calls : List Call) : Prop :=
  ∀ q, pre <+: q → q <+: calls → (s₀.run q).Stays (s₀.run calls)

theorem InUse.now (s₀ : RelaySelector) (calls : List Call) : s₀.InUse calls calls := by
  intro q after before
  rw [after.eq_of_length_le before.length_le]
  exact .refl _

theorem InUse.call (spell : s₀.InUse pre calls) (stays : (s₀.run calls).Stays ((s₀.run calls).call c)) :
    s₀.InUse pre (calls ++ [c]) := by
  intro q after before
  rw [run_snoc]
  rcases List.prefix_concat_iff.mp before with rfl | before
  · rw [run_snoc]
    exact .refl _
  · obtain ⟨relay, primary, on⟩ := spell q after before
    exact ⟨stays.1.trans relay, stays.2.1.trans primary, stays.2.2.trans on⟩

/-- The failures since `t`: no success came after, and the relay in use is the same. -/
def Failing (s₀ : RelaySelector) (calls : List Call) (t : Nat) : Prop :=
  ∃ pre hint reachable post, calls = pre ++ .failure t hint reachable :: post ∧
    (∀ c ∈ post, c.isSuccess = false) ∧ s₀.InUse pre calls

theorem Failing.call {t : Nat} (failing : s₀.Failing calls t) (stays : (s₀.run calls).Stays ((s₀.run calls).call c))
    (unbroken : c.isSuccess = false) : s₀.Failing (calls ++ [c]) t := by
  obtain ⟨pre, hint, reachable, post, rfl, rest, spell⟩ := failing
  refine ⟨pre, hint, reachable, post ++ [c], by simp, ?_, spell.call stays⟩
  simpa only [List.forall_mem_append, List.forall_mem_singleton] using ⟨rest, unbroken⟩

theorem Failing.start {t : Nat} {hint : DnsHint} {reachable : RelayEndpoint → Bool}
    (stays : (s₀.run calls).Stays ((s₀.run calls).call (.failure t hint reachable))) :
    s₀.Failing (calls ++ [.failure t hint reachable]) t :=
  ⟨calls, hint, reachable, [], rfl, nofun, (InUse.now s₀ calls).call stays⟩

/-- `n` healthy probes of the primary in a row on the fallback in use: no probe failed
    and no hint named that fallback. -/
def Probed (s₀ : RelaySelector) (calls : List Call) (n : Nat) : Prop :=
  (s₀.run calls).onPrimary = false ∧ ∃ pre post, calls = pre ++ post ∧ n ≤ post.countP Call.healthy ∧
    (∀ c ∈ post, c.failed = false ∧ c.names (s₀.run calls).relay = false) ∧ s₀.InUse pre calls

theorem Probed.zero (away : (s₀.run calls).onPrimary = false) : s₀.Probed calls 0 :=
  ⟨away, calls, [], by simp, Nat.zero_le _, nofun, InUse.now s₀ calls⟩

theorem Probed.call {n m : Nat} (probed : s₀.Probed calls n) (stays : (s₀.run calls).Stays ((s₀.run calls).call c))
    (passed : c.failed = false) (unnamed : c.names (s₀.run calls).relay = false)
    (counted : m ≤ n + [c].countP Call.healthy) : s₀.Probed (calls ++ [c]) m := by
  obtain ⟨away, pre, post, rfl, enough, rest, spell⟩ := probed
  refine ⟨?_, pre, post ++ [c], by simp, ?_, ?_, spell.call stays⟩
  · rw [run_snoc, stays.2.2, away]
  · rw [List.countP_append]
    omega
  · rw [run_snoc, stays.1]
    simpa only [List.forall_mem_append, List.forall_mem_singleton] using ⟨rest, passed, unnamed⟩

/-! ## Runs -/

/-- Every call of the run keeps the reasons of later moves. -/
def AllKeep : RelaySelector → List Call → Prop
  | _, [] => True
  | s, c :: calls => s.Keeps c ∧ AllKeep (s.call c) calls

instance decidableAllKeep : (s : RelaySelector) → (calls : List Call) → Decidable (s.AllKeep calls)
  | _, [] => isTrue trivial
  | s, c :: calls => @instDecidableAnd _ _ _ (decidableAllKeep (s.call c) calls)

theorem allKeep_snoc : s.AllKeep (calls ++ [c]) ↔ s.AllKeep calls ∧ (s.run calls).Keeps c := by
  induction calls generalizing s with
  | nil => simp [AllKeep, run]
  | cons d calls ih =>
      simp only [List.cons_append, AllKeep, ih, and_assoc]
      rfl

/-- The clock and the streak have the history they stand for. -/
structure Sound (s₀ : RelaySelector) (calls : List Call) : Prop where
  settings : s₀.Settings (s₀.run calls)
  clock : ∀ t, (s₀.run calls).downSince = some t → s₀.Failing calls t
  streak : 0 < (s₀.run calls).probeStreak → s₀.Probed calls (s₀.run calls).probeStreak
  due : (s₀.run calls).failbackAt.isSome = true → s₀.earned ≤ (s₀.run calls).probeStreak

theorem Sound.call (dns : s₀.mode = .dns) (sound : s₀.Sound calls) (keeps : (s₀.run calls).Keeps c) :
    s₀.Sound (calls ++ [c]) := by
  have mode : (s₀.run calls).mode = .dns := sound.settings.mode.trans dns
  have settings := call_settings mode c
  have away (counted : 0 < (s₀.run calls).probeStreak) := (sound.streak counted).1
  refine ⟨?_, fun t clock => ?_, fun streak => ?_, fun due => ?_⟩
  · rw [run_snoc]
    exact ⟨settings.mode.trans sound.settings.mode, settings.earned.trans sound.settings.earned,
      settings.dnsMinOutage.trans sound.settings.dnsMinOutage⟩
  · rw [run_snoc] at clock
    obtain ⟨stays, unbroken, before | ⟨hint, reachable, rfl⟩⟩ := call_clock mode keeps clock
    · exact (sound.clock t before).call stays unbroken
    · exact .start stays
  · rw [run_snoc] at streak ⊢
    obtain ⟨stays, elsewhere, passed, unnamed, counted⟩ := call_streak mode keeps away streak
    have probed : s₀.Probed calls (s₀.run calls).probeStreak := by
      rcases Nat.eq_zero_or_pos (s₀.run calls).probeStreak with none_counted | some_counted
      · exact none_counted ▸ .zero elsewhere
      · exact sound.streak some_counted
    exact probed.call stays passed unnamed counted
  · rw [run_snoc] at due ⊢
    rw [← sound.settings.earned]
    exact call_due mode (fun before => sound.settings.earned ▸ sound.due before) due

/-- A selector that just started. -/
structure Fresh (s₀ : RelaySelector) : Prop where
  mode : s₀.mode = .dns
  clock : s₀.downSince = none
  streak : s₀.probeStreak = 0
  due : s₀.failbackAt = none

theorem Fresh.sound (fresh : s₀.Fresh) (keep : s₀.AllKeep calls) : s₀.Sound calls := by
  induction calls using List.reverseRecOn with
  | nil =>
      refine ⟨⟨rfl, rfl, rfl⟩, fun t clock => ?_, fun streak => ?_, fun due => ?_⟩
      · cases fresh.clock.symm.trans clock
      · exact absurd fresh.streak (Nat.pos_iff_ne_zero.mp streak)
      · cases (congrArg Option.isSome fresh.due).symm.trans due
  | append_singleton calls c ih =>
      obtain ⟨before, keeps⟩ := allKeep_snoc.mp keep
      exact (ih before).call fresh.mode keeps

/-! ## What a move rests on -/

/-- A move at `c` after `calls` has its reasons. -/
structure Justified (s₀ : RelaySelector) (calls : List Call) (c : Call) : Prop where
  /-- Only a failure moves to a standby. -/
  onlyFailures : ((s₀.run calls).call c).onPrimary = false → ((s₀.run calls).call c).relay ≠ (s₀.run calls).relay →
    ∃ now hint reachable sw why, c = .failure now hint reachable ∧
      ((s₀.run calls).onFailureAt now hint reachable).2 = .switch sw why
  /-- The standby answered, and the hint names it or the relay left was failing for long. -/
  standby : ∀ now hint reachable sw why, c = .failure now hint reachable →
    ((s₀.run calls).onFailureAt now hint reachable).2 = .switch sw why → ((s₀.run calls).call c).onPrimary = false →
    sw.source = (s₀.run calls).relay ∧ sw.target = ((s₀.run calls).call c).relay ∧ reachable sw.target = true ∧
      (hint = .active sw.target ∨ (s₀.run calls).named hint = none ∧
        (s₀.dnsMinOutage = 0 ∨ ∃ t, s₀.dnsMinOutage ≤ now - t ∧ s₀.Failing calls t))
  /-- A return was earned by healthy probes on the fallback left, which its own hint does not name. -/
  returned : ∀ now hint sw, c = .poll now hint → ((s₀.run calls).pollFailbackAt now hint).2 = some sw →
    s₀.Probed calls s₀.earned ∧ hint ≠ .active (s₀.run calls).relay

theorem adopt_relay (s : RelaySelector) (relays : List RelayEndpoint) (nonempty : 0 < relays.length) :
    (s.adopt relays nonempty).1.onPrimary = true ∨ (s.adopt relays nonempty).1.relay = s.relay := by
  cases found : relays.findFinIdx? (· = s.relay) with
  | none => exact .inl (by simp [adopt, onPrimary, resetProbes, found])
  | some i =>
      refine .inr ?_
      have here := of_decide_eq_true (List.findFinIdx?_eq_some_iff.mp found).1
      change relays.get ((relays.findFinIdx? (· = s.relay)).getD ⟨0, nonempty⟩) = s.relay
      rw [found]
      exact here

theorem call_elsewhere (dns : s.mode = .dns) (away : (s.call c).onPrimary = false)
    (moved : (s.call c).relay ≠ s.relay) :
    ∃ now hint reachable sw why, c = .failure now hint reachable ∧
      (s.onFailureAt now hint reachable).2 = .switch sw why := by
  cases c with
  | adopt relays nonempty =>
      rcases adopt_relay s relays nonempty with primary | same
      · cases primary.symm.trans away
      · exact absurd same moved
  | success => exact absurd rfl moved
  | failure now hint reachable =>
      rcases onFailureAt_cases dns now hint reachable with ⟨counted, -⟩ | ⟨sw, why, switch, -⟩
      · exact absurd counted.stays.1 moved
      · exact ⟨now, hint, reachable, sw, why, rfl, switch⟩
  | probeDue now => exact absurd (primaryProbeDue_asked s now).stays.1 moved
  | probe healthy now hint => exact absurd (onPrimaryProbeAt_taken dns healthy now hint).stays.1 moved
  | poll now hint =>
      cases back : s.returns now hint with
      | false => exact absurd (pollFailbackAt_asked dns back).1.stays.1 moved
      | true =>
          rw [call, pollFailbackAt_returns back] at away
          cases away

theorem Sound.justified (dns : s₀.mode = .dns) (sound : s₀.Sound calls) (c : Call) : s₀.Justified calls c := by
  have mode : (s₀.run calls).mode = .dns := sound.settings.mode.trans dns
  refine ⟨call_elsewhere mode, ?_, ?_⟩
  · rintro now hint reachable sw why rfl switch away
    rcases onFailureAt_cases mode now hint reachable with ⟨-, stays⟩ | ⟨sw', why', switch', switched, excuse⟩
    · exact absurd switch (stays sw why)
    cases switch.symm.trans switch'
    refine ⟨switched.source, switched.target, switched.answers away, (excuse away).imp_right ?_⟩
    rintro ⟨unlisted, long⟩
    refine ⟨unlisted, ?_⟩
    rw [sound.settings.dnsMinOutage] at long
    cases clock : (s₀.run calls).downSince with
    | none =>
        simp only [since, clock, Option.getD_none, Nat.sub_self, Nat.le_zero] at long
        exact .inl long
    | some t =>
        simp only [since, clock, Option.getD_some] at long
        exact .inr ⟨t, long, sound.clock t clock⟩
  · rintro now hint sw rfl back
    cases due : (s₀.run calls).returns now hint with
    | false =>
        rw [(pollFailbackAt_asked mode due).2.1] at back
        cases back
    | true =>
        have unnamed : hint ≠ .active (s₀.run calls).relay := by
          rintro rfl
          simp [returns, nameAtFallback, namesCurrent, mode] at due
        simp only [returns, Bool.and_eq_true, Option.any_eq_true] at due
        obtain ⟨-, time, scheduled, -⟩ := due
        have earned := sound.due (by rw [scheduled]; rfl)
        have streak : 0 < (s₀.run calls).probeStreak := Nat.lt_of_lt_of_le (Nat.le_max_right _ 1) earned
        obtain ⟨away, pre, post, eq, enough, rest⟩ := sound.streak streak
        exact ⟨⟨away, pre, post, eq, earned.trans enough, rest⟩, unnamed⟩

/-- A selector in DNS mode over a list of relays. -/
def start (relays : List RelayEndpoint) (nonempty : 0 < relays.length) (failureThreshold : Nat)
    (failback : FailbackPolicy) (seed : BitVec 64) (minOutage : Nat) : RelaySelector :=
  (withPolicySeeded relays nonempty failureThreshold failback seed).withDnsGate minOutage

theorem moves_justified (relays : List RelayEndpoint) (nonempty : 0 < relays.length) (failureThreshold : Nat)
    (failback : FailbackPolicy) (seed : BitVec 64) (minOutage : Nat) (calls : List Call) (c : Call)
    (keep : (start relays nonempty failureThreshold failback seed minOutage).AllKeep calls) :
    (start relays nonempty failureThreshold failback seed minOutage).Justified calls c :=
  have fresh : (start relays nonempty failureThreshold failback seed minOutage).Fresh := ⟨rfl, rfl, rfl, rfl⟩
  (fresh.sound keep).justified fresh.mode c

/-! ## Two stale reasons -/

def listed : List RelayEndpoint := [⟨"primary", 7000⟩, ⟨"secondary", 7000⟩]

def pair : RelaySelector := start listed (by decide) defaultFailureThreshold .dnsAware 1 defaultDnsMinOutage

def failedAt (secs : Nat) (hint : DnsHint) : Call := .failure (ofSecs secs) hint fun _ => true

def nameAtSecondary : DnsHint := .active ⟨"secondary", 7000⟩

/-- Three failures that follow the name to the secondary. -/
def toSecondary : List Call :=
  [failedAt 0 nameAtSecondary, failedAt 1 nameAtSecondary, failedAt 2 nameAtSecondary]

/-- Two healthy probes of the primary and the return to it. -/
def returned : List Call :=
  [.probe true (ofSecs 4) .unknown, .probe true (ofSecs 34) .unknown, .poll (ofSecs 64) .unknown]

theorem moves_justified_again :
    pair.Justified (toSecondary ++ .success :: returned ++ [failedAt 65 .unknown, failedAt 160 .unknown])
      (failedAt 215 .unknown) :=
  moves_justified listed (by decide) defaultFailureThreshold .dnsAware 1 defaultDnsMinOutage
    (toSecondary ++ .success :: returned ++ [failedAt 65 .unknown, failedAt 160 .unknown]) (failedAt 215 .unknown)
    (by decide)

/-- A failure on the secondary, the return, and two failures of the primary 157 s later. -/
def staleClock : List Call :=
  toSecondary ++ failedAt 3 .unknown :: returned ++ [failedAt 160 .unknown, failedAt 161 .unknown]

theorem Failing.not_before {p : List Call} {t : Nat} (early : p <+: calls) (elsewhere : ¬ (s₀.run p).Stays (s₀.run calls))
    (later : ∀ hint reachable, .failure t hint reachable ∉ calls.drop p.length) : ¬ s₀.Failing calls t := by
  rintro ⟨pre, hint, reachable, post, eq, -, spell⟩
  have pre_calls : pre <+: calls := ⟨_, eq.symm⟩
  rcases List.prefix_or_prefix_of_prefix pre_calls early with before | ⟨rest, after⟩
  · exact elsewhere (spell p before early)
  · refine later hint reachable ?_
    rw [eq, ← after, List.append_assoc, List.drop_left]
    simp

/-- The return kept the clock of the secondary's failure, so three failures of the
    primary within two seconds pass for an outage. -/
theorem moves_by_stale_clock : listed.Nodup ∧ ¬ pair.Justified staleClock (failedAt 162 .unknown) := by
  refine ⟨by decide, fun justified => ?_⟩
  obtain ⟨-, -, -, named | ⟨-, unset | ⟨t, long, failing⟩⟩⟩ := justified.standby _ _ _ _ _ rfl rfl (by decide)
  · cases named
  · revert unset
    decide
  · -- on the primary, the failures begin at 160 s
    let away : List Call := staleClock.take 6
    have elsewhere : ¬ (pair.run away).Stays (pair.run staleClock) := fun stays => absurd stays.2.2 (by decide)
    refine Failing.not_before (List.take_prefix 6 staleClock) elsewhere (fun hint reachable late => ?_) failing
    have recent : t = ofSecs 160 ∨ t = ofSecs 161 := by
      rcases List.mem_cons.mp late with poll | late
      · cases poll
      rcases List.mem_cons.mp late with first | late
      · cases first
        exact .inl rfl
      · cases List.mem_singleton.mp late
        exact .inr rfl
    have long : ofSecs 150 ≤ ofSecs 162 - t := long
    rcases recent with rfl | rfl <;> revert long <;> decide

/-- Two healthy probes, then a failure whose hint names the secondary. -/
def namedAfterProbes : List Call :=
  toSecondary ++ [.success, .probe true (ofSecs 4) .unknown, .probe true (ofSecs 34) .unknown,
    failedAt 40 nameAtSecondary]

/-- A hint that a failure brings does not take the earned return back, as a probe's or
    a poll's own hint does. -/
theorem returns_past_hint : ¬ pair.Justified namedAfterProbes (.poll (ofSecs 64) .unknown) := by
  intro justified
  obtain ⟨⟨-, pre, post, eq, enough, unnamed, -⟩, -⟩ := justified.returned _ _ _ rfl rfl
  have filled : post ≠ [] := by
    rintro rfl
    revert enough
    decide
  have last : namedAfterProbes.getLast (by decide) ∈ post := by
    simp only [eq, List.getLast_append_of_ne_nil _ filled]
    exact List.getLast_mem filled
  exact absurd (unnamed _ last).2 (by decide)

end RelaySelector

end K2.Tunnel
