import K2.Lease.TokenKeeper
import K2.Lib.Machines

/-! # Whole runs of the token keeper

The keychain, every token there ever was and every exchange so far beside the
keeper. The keychain is behind by the tokens spent since it was last written: as
long as the keeper remembers all of these, it presents the newest token, and only
that one. -/

namespace K2.Lease

open Rounds
open Tunnel (ofSecs)

/-- One call of `refresh`. -/
structure Attempt where
  token : String
  time : Nat
  failed : Bool
  deriving Repr, DecidableEq

structure World where
  keeper : TokenKeeper
  keychain : String
  /-- Every refresh token so far. -/
  seen : List String
  /-- The one the last sign-in or rotation gave. -/
  newest : String
  /-- What was spent since the keychain was last written, oldest first. -/
  pending : List String
  /-- The exchanges so far, newest first. -/
  log : List Attempt
  clock : Nat

inductive Event where
  | call (now : Nat) (answer : Except String Refreshed) (retried landed : Bool)
  | expire (now : Nat)
  | signIn (token : String)

namespace World

def initial (token : String) : World :=
  { keeper := {}, keychain := token, seen := [token], newest := token, pending := [], log := [], clock := 0 }

/-- What a call of a closure does outside the keeper. -/
def apply (now : Nat) (w : World) : Call → World
  | .persist token landed => if landed then { w with keychain := token, pending := [] } else w
  | .refresh token (.ok r) =>
      { w with
        seen := r.refresh :: w.seen, newest := r.refresh, pending := w.pending ++ [token],
        log := { token := token, time := now, failed := false } :: w.log }
  | .refresh token (.error _) => { w with log := { token := token, time := now, failed := true } :: w.log }

def outcome (last : Nat) (w : World) (now : Nat) (answer : Except String Refreshed) (retried landed : Bool) : Outcome :=
  w.keeper.accessToken last w.keychain now answer retried landed

def step (last : Nat) (w : World) : Event → World
  | .call now answer retried landed =>
      let o := w.outcome last now answer retried landed
      { o.calls.foldl (apply now) w with keeper := o.keeper, clock := now }
  | .expire now => { w with keeper := w.keeper.expireAccess now, clock := now }
  | .signIn token => { w with keychain := token, newest := token, seen := token :: w.seen, pending := [] }

/-- Times do not decrease; a rotation and a sign-in bring a token not seen before. -/
def Possible (w : World) : Event → Prop
  | .call now (.ok r) _ _ => w.clock ≤ now ∧ r.refresh ∉ w.seen
  | .call now (.error _) _ _ => w.clock ≤ now
  | .expire now => w.clock ≤ now
  | .signIn token => token ∉ w.seen

instance (w : World) : ∀ e, Decidable (w.Possible e)
  | .call _ (.ok _) _ _ => inferInstanceAs (Decidable (_ ∧ _))
  | .call _ (.error _) _ _ => inferInstanceAs (Decidable (_ ≤ _))
  | .expire _ => inferInstanceAs (Decidable (_ ≤ _))
  | .signIn _ => inferInstanceAs (Decidable (¬_))

/-! ## What is asked of an exchange -/

/-- A token that an answer replaced. -/
def Spent (w : World) (token : String) : Prop := ∃ a ∈ w.log, a.token = token ∧ a.failed = false

/-- How often in a row the last exchanges of a token failed. -/
def failures (token : String) : List Attempt → Nat
  | [] => 0
  | a :: older =>
      if a.token = token then if a.failed then failures token older + 1 else 0 else failures token older

/-- The backoff after them has passed. -/
def Waited (w : World) (token : String) (now : Nat) : Prop :=
  ∀ a ∈ w.log.find? fun a => a.token = token,
    0 < failures token w.log → a.time + refreshBackoff (failures token w.log) ≤ now

/-- No access token with more than the margin left is held for the current
    material. -/
def Needed (w : World) (now : Nat) : Prop :=
  ∀ h ∈ w.keeper.held, h.refresh = w.newest → h.expiresAt ≤ now + refreshMargin

/-- An exchange is of an unspent token, needed and not before its backoff. -/
def Allowed (w : World) (now : Nat) : Call → Prop
  | .persist .. => True
  | .refresh token _ => ¬w.Spent token ∧ w.Needed now ∧ w.Waited token now

def Lawful (last : Nat) (w : World) : Event → Prop
  | .call now answer retried landed => ∀ c ∈ (w.outcome last now answer retried landed).calls, w.Allowed now c
  | _ => True

/-- The keychain is behind by no more than the keeper remembers. -/
def Remembered (w : World) : Event → Prop
  | .call .. => w.pending.length ≤ supersededKeep
  | _ => True

instance (w : World) : ∀ e, Decidable (w.Remembered e)
  | .call .. => inferInstanceAs (Decidable (_ ≤ _))
  | .expire _ => isTrue trivial
  | .signIn _ => isTrue trivial

/-- The end of what the answer starts is an instant of the clock: the lifetime of an access
    token whose refresh token is not persisted, the wait after a failure. -/
def Timely (last : Nat) (w : World) : Event → Prop
  | .call now (.ok r) _ landed => landed ∨ now + r.ttl ≤ last
  | .call now (.error _) _ _ => now + refreshBackoff (failures w.newest w.log + 1) ≤ last
  | _ => True

instance (last : Nat) (w : World) : ∀ e, Decidable (w.Timely last e)
  | .call _ (.ok _) _ _ => inferInstanceAs (Decidable (_ ∨ _))
  | .call _ (.error _) _ _ => inferInstanceAs (Decidable (_ ≤ _))
  | .expire _ => isTrue trivial
  | .signIn _ => isTrue trivial

/-! ## What the keeper knows -/

/-- The last of a list, as many as the keeper remembers. -/
def remembered (l : List String) : List String := l.drop (l.length - supersededKeep)

/-- The counted failures and the wait are those of the newest token. -/
def Waiting (w : World) : Prop :=
  if w.keeper.failedFor = some w.newest then
    ∃ a, (w.log.find? fun a => a.token = w.newest) = some a ∧ 0 < failures w.newest w.log ∧
      w.keeper.failures = min (failures w.newest w.log) (2 ^ 32 - 1) ∧
      w.keeper.retryAt = some (a.time + refreshBackoff (failures w.newest w.log))
  else ∀ a ∈ w.log, a.token ≠ w.newest

/-- What is held is the newest token with all that the keychain is behind by, or
    older than the last sign-in. -/
def Holds (w : World) : Prop :=
  match w.keeper.held with
  | none => w.pending = []
  | some h => h.refresh ∈ w.seen ∧
      (h.refresh = w.newest ∧ remembered w.pending <:+ w.keeper.superseded ∨ h.refresh ≠ w.newest ∧ w.pending = [])

structure Kept (w : World) : Prop where
  logged : ∀ a ∈ w.log, a.token ∈ w.seen
  newest_seen : w.newest ∈ w.seen
  unspent : ¬w.Spent w.newest
  stored : w.keychain = w.pending.headD w.newest
  pending_spent : ∀ t ∈ w.pending, w.Spent t
  pending_nodup : w.pending.Nodup
  superseded_spent : ∀ t ∈ w.keeper.superseded, w.Spent t
  superseded_short : w.keeper.superseded.length ≤ supersededKeep
  failedFor_seen : ∀ t, w.keeper.failedFor = some t → t ∈ w.seen
  failedFor_pending : ∀ t ∈ w.pending, w.keeper.failedFor ≠ some t
  waiting : w.Waiting
  holds : w.Holds

theorem kept_initial (token : String) : (initial token).Kept where
  logged := by intro a mem; cases mem
  newest_seen := List.mem_cons_self ..
  unspent := by rintro ⟨a, mem, -⟩; cases mem
  stored := rfl
  pending_spent := by intro t mem; cases mem
  pending_nodup := List.nodup_nil
  superseded_spent := by intro t mem; cases mem
  superseded_short := Nat.zero_le _
  failedFor_seen := by intro t failed; cases failed
  failedFor_pending := by intro t mem; cases mem
  waiting := by intro a mem; cases mem
  holds := rfl

variable {w : World}

theorem Spent.seen (kept : w.Kept) {t : String} (spent : w.Spent t) : t ∈ w.seen := by
  obtain ⟨a, mem, rfl, -⟩ := spent
  exact kept.logged a mem

theorem waiting_of_other (other : w.keeper.failedFor ≠ some w.newest) (none : ∀ a ∈ w.log, a.token ≠ w.newest) :
    w.Waiting := by
  rw [Waiting, if_neg other]
  exact none

theorem newest_not_pending (kept : w.Kept) : w.newest ∉ w.pending :=
  fun mem => kept.unspent (kept.pending_spent _ mem)

/-- The keeper's record changed where only the access token, the wait of an older
    token or what was held before a sign-in is concerned. -/
theorem Kept.withKeeper (kept : w.Kept) {k : TokenKeeper}
    (superseded : ∀ t ∈ k.superseded, t ∈ w.keeper.superseded) (short : k.superseded.length ≤ supersededKeep)
    (failedFor : ∀ t, k.failedFor = some t → w.keeper.failedFor = some t) (waiting : ({ w with keeper := k } : World).Waiting)
    (holds : ({ w with keeper := k } : World).Holds) : ({ w with keeper := k } : World).Kept where
  logged := kept.logged
  newest_seen := kept.newest_seen
  unspent := kept.unspent
  stored := kept.stored
  pending_spent := kept.pending_spent
  pending_nodup := kept.pending_nodup
  superseded_spent t mem := kept.superseded_spent t (superseded t mem)
  superseded_short := short
  failedFor_seen t failed := kept.failedFor_seen t (failedFor t failed)
  failedFor_pending t mem failed := kept.failedFor_pending t mem (failedFor t failed)
  waiting := waiting
  holds := holds

theorem Kept.withClock (kept : w.Kept) (now : Nat) : ({ w with clock := now } : World).Kept := { kept with }

theorem kept_expire (kept : w.Kept) (now : Nat) : ({ w with keeper := w.keeper.expireAccess now } : World).Kept := by
  refine kept.withKeeper (fun _ mem => mem) kept.superseded_short (fun _ failed => failed) kept.waiting ?_
  have holds := kept.holds
  unfold Holds at holds ⊢
  rcases held : w.keeper.held with _ | h
  · rw [held] at holds
    simpa only [TokenKeeper.expireAccess, held, Option.map_none] using holds
  · rw [held] at holds
    simpa only [TokenKeeper.expireAccess, held, Option.map_some] using holds

theorem kept_signIn (kept : w.Kept) {token : String} (new : token ∉ w.seen) :
    ({ w with keychain := token, newest := token, seen := token :: w.seen, pending := [] } : World).Kept where
  logged a mem := List.mem_cons_of_mem _ (kept.logged a mem)
  newest_seen := List.mem_cons_self ..
  unspent := fun spent => new (Spent.seen kept spent)
  stored := rfl
  pending_spent := by intro t mem; cases mem
  pending_nodup := List.nodup_nil
  superseded_spent := kept.superseded_spent
  superseded_short := kept.superseded_short
  failedFor_seen t failed := List.mem_cons_of_mem _ (kept.failedFor_seen t failed)
  failedFor_pending := by intro t mem; cases mem
  waiting := by
    refine waiting_of_other (fun failed => new (kept.failedFor_seen _ failed)) fun a mem (same : a.token = token) => ?_
    exact new (same ▸ kept.logged a mem)
  holds := by
    have holds := kept.holds
    unfold Holds at holds ⊢
    dsimp only
    split at holds
    next => rfl
    next => exact ⟨List.mem_cons_of_mem _ holds.1, .inr ⟨fun same => new (same ▸ holds.1), rfl⟩⟩

/-! ## The current token -/

/-- After the keeper has looked at the keychain what it holds is the newest token. -/
def Ready (w : World) : Prop := ∀ h ∈ w.keeper.held, h.refresh = w.newest

/-- The calls of one look, and what the keeper is then. -/
def look (now : Nat) (w : World) (retried : Bool) : World :=
  let c := w.keeper.current w.keychain retried
  { c.2.1.foldl (apply now) w with keeper := c.1 }

structure Looked (w w' : World) : Prop where
  kept : w'.Kept
  ready : w'.Ready
  newest : w'.newest = w.newest
  log : w'.log = w.log
  seen : w'.seen = w.seen
  /-- The access token for the newest refresh token stays held. -/
  needed : ∀ now, w'.Needed now → w.Needed now

theorem keychain_remembered (kept : w.Kept) (few : w.pending.length ≤ supersededKeep) {h : Held}
    (held : w.keeper.held = some h) (newest : h.refresh = w.newest) (behind : h.refresh ≠ w.keychain) :
    w.keychain ∈ w.keeper.superseded := by
  have holds := kept.holds
  rw [Holds, held] at holds
  have stored := kept.stored
  rcases pending : w.pending with _ | ⟨t, rest⟩
  · rw [pending] at stored
    exact absurd (newest.trans stored.symm) behind
  · rcases holds.2 with ⟨-, ending⟩ | ⟨other, -⟩
    · rw [remembered, Nat.sub_eq_zero_of_le few, List.drop_zero, pending] at ending
      rw [stored, pending]
      exact ending.subset (List.mem_cons_self ..)
    · exact absurd newest other

theorem kept_written (kept : w.Kept) (ready : w.Ready) {token : String} (newest : token = w.newest) :
    ({ w with keychain := token, pending := [] } : World).Kept where
  logged := kept.logged
  newest_seen := kept.newest_seen
  unspent := kept.unspent
  stored := newest
  pending_spent := by intro t mem; cases mem
  pending_nodup := List.nodup_nil
  superseded_spent := kept.superseded_spent
  superseded_short := kept.superseded_short
  failedFor_seen := kept.failedFor_seen
  failedFor_pending := by intro t mem; cases mem
  waiting := kept.waiting
  holds := by
    have holds := kept.holds
    unfold Holds at holds ⊢
    dsimp only
    split at holds
    next => rfl
    next h held => exact ⟨holds.1, .inl ⟨ready h held, List.nil_suffix⟩⟩

theorem looked_self (kept : w.Kept) (ready : w.Ready) : w.Looked w :=
  { kept, ready, newest := rfl, log := rfl, seen := rfl, needed := fun _ needed => needed }

theorem looked_retry (kept : w.Kept) (ready : w.Ready) {h : Held} (held : w.keeper.held = some h) (now : Nat)
    (retried : Bool) :
    w.Looked { w.apply now (.persist h.refresh retried) with
      keeper := { w.keeper with held := some { h with persisted := retried } } } := by
  have marked : ({ w with keeper := { w.keeper with held := some { h with persisted := retried } } } : World).Kept := by
    refine kept.withKeeper (fun _ mem => mem) kept.superseded_short (fun _ failed => failed) kept.waiting ?_
    have holds := kept.holds
    unfold Holds at holds ⊢
    rw [held] at holds
    exact holds
  have still : ({ w with keeper := { w.keeper with held := some { h with persisted := retried } } } : World).Ready := by
    intro h' mem
    cases mem
    exact ready h held
  have needed (now : Nat)
      (needed : ({ w with keeper := { w.keeper with held := some { h with persisted := retried } } } : World).Needed now) :
      w.Needed now := by
    intro h' mem newest
    obtain rfl : h = h' := Option.some.inj (held.symm.trans mem)
    exact needed { h with persisted := retried } rfl newest
  cases retried with
  | false => exact { kept := marked, ready := still, newest := rfl, log := rfl, seen := rfl, needed }
  | true =>
      have written := kept_written marked still (ready h held)
      exact { kept := written, ready := still, newest := rfl, log := rfl, seen := rfl, needed }

theorem looked_reset (kept : w.Kept) {h : Held} (held : w.keeper.held = some h) (other : h.refresh ≠ w.newest)
    (level : w.pending = []) : w.Looked { w with keeper := { w.keeper with held := none, superseded := [] } } where
  kept := kept.withKeeper (fun _ mem => nomatch mem) (Nat.zero_le _) (fun _ failed => failed) kept.waiting level
  ready := by intro h' mem; cases mem
  newest := rfl
  log := rfl
  seen := rfl
  needed := by
    intro now _ h' mem newest
    obtain rfl : h = h' := Option.some.inj (held.symm.trans mem)
    exact absurd newest other

theorem look_spec (kept : w.Kept) (few : w.pending.length ≤ supersededKeep) (now : Nat) (retried : Bool) :
    w.Looked (w.look now retried) ∧ (w.keeper.current w.keychain retried).2.2 = w.newest ∧
      ∀ c ∈ (w.keeper.current w.keychain retried).2.1, ∃ token landed, c = .persist token landed := by
  have holds := kept.holds
  have stored := kept.stored
  rw [Holds] at holds
  rw [look, TokenKeeper.current]
  rcases held : w.keeper.held with _ | h
  · rw [held] at holds
    have level : w.keychain = w.newest := by rw [stored, holds]; rfl
    refine ⟨looked_self kept fun h mem => ?_, level, fun c mem => nomatch mem⟩
    rw [held] at mem
    cases mem
  · rw [held] at holds
    have ready (newest : h.refresh = w.newest) : w.Ready := by
      intro h' mem
      obtain rfl : h = h' := Option.some.inj (held.symm.trans mem)
      exact newest
    dsimp only
    by_cases same : h.refresh = w.keychain
    · rw [if_pos same]
      have newest : h.refresh = w.newest := by
        rcases holds.2 with ⟨newest, -⟩ | ⟨-, level⟩
        · exact newest
        · rw [same, stored, level]
          rfl
      exact ⟨looked_self kept (ready newest), newest, fun c mem => nomatch mem⟩
    rw [if_neg same]
    by_cases known : w.keychain ∈ w.keeper.superseded
    · rw [if_pos known]
      have newest : h.refresh = w.newest := by
        rcases holds.2 with ⟨newest, -⟩ | ⟨-, level⟩
        · exact newest
        · have spent := kept.superseded_spent _ known
          rw [stored, level] at spent
          exact absurd spent kept.unspent
      split
      · exact ⟨looked_self kept (ready newest), newest, fun c mem => nomatch mem⟩
      · refine ⟨looked_retry kept (ready newest) held now retried, newest, fun c mem => ?_⟩
        exact ⟨_, _, List.mem_singleton.mp mem⟩
    · rw [if_neg known]
      have other : h.refresh ≠ w.newest := fun newest => known (keychain_remembered kept few held newest same)
      rcases holds.2 with ⟨newest, -⟩ | ⟨-, level⟩
      · exact absurd newest other
      · refine ⟨looked_reset kept held other level, ?_, fun c mem => nomatch mem⟩
        rw [stored, level]
        rfl

/-! ## The exchange -/

theorem refreshBackoff_min (n : Nat) : refreshBackoff (min n (2 ^ 32 - 1)) = refreshBackoff n := by
  have : min (min n (2 ^ 32 - 1) - 1) 16 = min (n - 1) 16 := by omega
  rw [refreshBackoff, refreshBackoff, this]

theorem headD_concat (l : List String) (a b : String) : (l ++ [a]).headD b = l.headD a := by
  cases l <;> rfl

theorem remembered_suffix {a b : List String} (ending : remembered a <:+ b) (token : String) :
    remembered (a ++ [token]) <:+ (b ++ [token]).drop ((b ++ [token]).length - supersededKeep) := by
  have fits := ending.length_le
  rw [remembered, List.length_drop] at fits
  have part : a.drop (a.length + 1 - supersededKeep) <:+ b := by
    refine List.IsSuffix.trans ?_ ending
    rw [remembered, show a.length + 1 - supersededKeep =
      (a.length - supersededKeep) + (a.length + 1 - supersededKeep - (a.length - supersededKeep)) by omega, ← List.drop_drop]
    exact List.drop_suffix ..
  have whole : remembered (a ++ [token]) <:+ b ++ [token] := by
    obtain ⟨front, rfl⟩ := part
    rw [remembered, List.length_append, List.length_singleton,
      List.drop_append_of_le_length (show a.length + 1 - supersededKeep ≤ a.length by unfold supersededKeep; omega)]
    exact ⟨front, (List.append_assoc ..).symm⟩
  refine List.suffix_of_suffix_length_le whole (List.drop_suffix ..) ?_
  rw [remembered]
  simp only [List.length_drop, List.length_append, List.length_singleton]
  omega

theorem kept_startOver (kept : w.Kept) : ({ w with keeper := w.keeper.startOver w.newest } : World).Kept := by
  rw [TokenKeeper.startOver]
  split
  next => exact kept
  next other =>
    have waiting := kept.waiting
    rw [Waiting, if_neg other] at waiting
    exact kept.withKeeper (fun _ mem => mem) kept.superseded_short (fun _ failed => nomatch failed)
      (waiting_of_other (fun failed => nomatch failed) waiting) kept.holds

theorem waited_of_retryAt (kept : w.Kept) {now : Nat} (due : w.keeper.retryAt.filter (fun time => now < time) = none) :
    w.Waited w.newest now := by
  have waiting := kept.waiting
  intro a mem failed
  rw [Waiting] at waiting
  split at waiting
  · obtain ⟨b, found, -, -, retryAt⟩ := waiting
    obtain rfl : b = a := Option.some.inj (found.symm.trans mem)
    rw [retryAt, Option.filter_eq_none_iff] at due
    have := due _ rfl
    simp only [decide_eq_true_eq] at this
    omega
  · have same := List.find?_some mem
    simp only [decide_eq_true_eq] at same
    exact absurd same (waiting a (List.mem_of_find?_eq_some mem))

theorem apply_withKeeper (now : Nat) (w : World) (k : TokenKeeper) (c : Call) :
    apply now { w with keeper := k } c = { apply now w c with keeper := k } := by
  match c with
  | .persist token landed => cases landed <;> rfl
  | .refresh token (.ok r) => rfl
  | .refresh token (.error e) => rfl

/-- What the closures do outside the keeper does not depend on it. -/
theorem calls_withKeeper (now : Nat) (w : World) (k : TokenKeeper) (calls : List Call) :
    calls.foldl (apply now) { w with keeper := k } = { calls.foldl (apply now) w with keeper := k } := by
  induction calls generalizing w with
  | nil => rfl
  | cons c later ih => rw [List.foldl_cons, List.foldl_cons, apply_withKeeper, ih]

/-- The world after an exchange. -/
def exchanged (last now : Nat) (w : World) (answer : Except String Refreshed) (landed : Bool) : World :=
  let o := TokenKeeper.exchange last w.keeper w.newest now answer landed
  { o.calls.foldl (apply now) w with keeper := o.keeper }

theorem not_attempted (kept : w.Kept) {token : String} (new : token ∉ w.seen) (now : Nat) (failed : Bool) :
    ∀ a ∈ { token := w.newest, time := now, failed := failed } :: w.log, a.token ≠ token := by
  intro a mem
  rintro rfl
  rcases List.mem_cons.mp mem with rfl | mem
  · exact new kept.newest_seen
  · exact new (kept.logged a mem)

/-- A rotation the keychain does not take, once the keeper holds the new token. -/
theorem kept_rotated (kept : w.Kept) (ready : w.Ready) {r : Refreshed} (new : r.refresh ∉ w.seen) (now : Nat) {h : Held}
    (newest : h.refresh = r.refresh) :
    ({ w.apply now (.refresh w.newest (.ok r)) with
        keeper := { held := some h, superseded := w.keeper.supersede w.newest } } : World).Kept where
  logged := by
    intro a mem
    rcases List.mem_cons.mp mem with rfl | mem
    · exact List.mem_cons_of_mem _ kept.newest_seen
    · exact List.mem_cons_of_mem _ (kept.logged a mem)
  newest_seen := List.mem_cons_self ..
  unspent := by
    rintro ⟨a, mem, same, -⟩
    exact not_attempted kept new now false a mem same
  stored := by
    show w.keychain = (w.pending ++ [w.newest]).headD r.refresh
    rw [headD_concat]
    exact kept.stored
  pending_spent := by
    intro t mem
    rcases List.mem_append.mp mem with old | latest
    · obtain ⟨a, mem, same, ok⟩ := kept.pending_spent t old
      exact ⟨a, List.mem_cons_of_mem _ mem, same, ok⟩
    · exact ⟨_, List.mem_cons_self .., (List.mem_singleton.mp latest).symm, rfl⟩
  pending_nodup := by
    refine List.nodup_append.mpr ⟨kept.pending_nodup, List.pairwise_singleton _ _, fun t old t' latest same => ?_⟩
    exact newest_not_pending kept (List.mem_singleton.mp (same ▸ latest) ▸ old)
  superseded_spent := by
    intro t mem
    rcases List.mem_append.mp ((List.drop_suffix ..).subset mem) with old | latest
    · obtain ⟨a, mem, same, ok⟩ := kept.superseded_spent t old
      exact ⟨a, List.mem_cons_of_mem _ mem, same, ok⟩
    · exact ⟨_, List.mem_cons_self .., (List.mem_singleton.mp latest).symm, rfl⟩
  superseded_short := by
    show (List.drop _ _).length ≤ supersededKeep
    rw [List.length_drop]
    omega
  failedFor_seen := by intro t failed; cases failed
  failedFor_pending := by intro t _ failed; cases failed
  waiting := waiting_of_other (fun failed => nomatch failed) (not_attempted kept new now false)
  holds := by
    refine ⟨newest ▸ List.mem_cons_self .., .inl ⟨newest, remembered_suffix ?_ w.newest⟩⟩
    have holds := kept.holds
    rw [Holds] at holds
    split at holds
    next => rw [holds]; exact List.nil_suffix
    next h' held =>
      rcases holds.2 with ⟨-, ending⟩ | ⟨other, -⟩
      · exact ending
      · exact absurd (ready h' held) other

/-- A rotation the keychain takes though the keeper does not get to hold it. -/
theorem kept_lost (kept : w.Kept) {r : Refreshed} (new : r.refresh ∉ w.seen) (now : Nat) :
    ({ (w.apply now (.refresh w.newest (.ok r))).apply now (.persist r.refresh true) with
        keeper := { w.keeper with superseded := w.keeper.supersede w.newest } } : World).Kept where
  logged := by
    intro a mem
    rcases List.mem_cons.mp mem with rfl | mem
    · exact List.mem_cons_of_mem _ kept.newest_seen
    · exact List.mem_cons_of_mem _ (kept.logged a mem)
  newest_seen := List.mem_cons_self ..
  unspent := by
    rintro ⟨a, mem, same, -⟩
    exact not_attempted kept new now false a mem same
  stored := rfl
  pending_spent := by intro t mem; cases mem
  pending_nodup := List.nodup_nil
  superseded_spent := by
    intro t mem
    rcases List.mem_append.mp ((List.drop_suffix ..).subset mem) with old | latest
    · obtain ⟨a, mem, same, ok⟩ := kept.superseded_spent t old
      exact ⟨a, List.mem_cons_of_mem _ mem, same, ok⟩
    · exact ⟨_, List.mem_cons_self .., (List.mem_singleton.mp latest).symm, rfl⟩
  superseded_short := by
    show (List.drop _ _).length ≤ supersededKeep
    rw [List.length_drop]
    omega
  failedFor_seen t failed := List.mem_cons_of_mem _ (kept.failedFor_seen t failed)
  failedFor_pending := by intro t mem; cases mem
  waiting := waiting_of_other (fun failed => new (kept.failedFor_seen _ failed)) (not_attempted kept new now false)
  holds := by
    have holds := kept.holds
    unfold Holds at holds ⊢
    dsimp only [apply]
    split at holds
    next => rfl
    next h _ =>
      exact ⟨List.mem_cons_of_mem _ holds.1, .inr ⟨fun (same : h.refresh = r.refresh) => new (same ▸ holds.1), rfl⟩⟩

theorem failures_of_not_attempted {token : String} {log : List Attempt} (none : ∀ a ∈ log, a.token ≠ token) :
    failures token log = 0 := by
  induction log with
  | nil => rfl
  | cons a older ih =>
      rw [failures, if_neg (none a (List.mem_cons_self ..)), ih fun b mem => none b (List.mem_cons_of_mem _ mem)]

theorem counted (kept : w.Kept) (overrun : w.keeper.failedFor ≠ some w.newest → w.keeper.failures = 0) :
    w.keeper.failures = min (failures w.newest w.log) (2 ^ 32 - 1) := by
  have waiting := kept.waiting
  rw [Waiting] at waiting
  split at waiting
  next =>
    obtain ⟨-, -, -, same, -⟩ := waiting
    exact same
  next other => rw [overrun other, failures_of_not_attempted waiting, Nat.zero_min]

theorem kept_failed (kept : w.Kept) (now : Nat) :
    ({ w with
        log := { token := w.newest, time := now, failed := true } :: w.log,
        keeper := { w.keeper with
          failures := min (failures w.newest w.log + 1) (2 ^ 32 - 1),
          retryAt := some (now + refreshBackoff (failures w.newest w.log + 1)),
          failedFor := some w.newest } } : World).Kept where
  logged := by
    intro a mem
    rcases List.mem_cons.mp mem with rfl | mem
    · exact kept.newest_seen
    · exact kept.logged a mem
  newest_seen := kept.newest_seen
  unspent := by
    rintro ⟨a, mem, same, ok⟩
    rcases List.mem_cons.mp mem with rfl | mem
    · cases ok
    · exact kept.unspent ⟨a, mem, same, ok⟩
  stored := kept.stored
  pending_spent := by
    intro t mem
    obtain ⟨a, mem, same, ok⟩ := kept.pending_spent t mem
    exact ⟨a, List.mem_cons_of_mem _ mem, same, ok⟩
  pending_nodup := kept.pending_nodup
  superseded_spent := by
    intro t mem
    obtain ⟨a, mem, same, ok⟩ := kept.superseded_spent t mem
    exact ⟨a, List.mem_cons_of_mem _ mem, same, ok⟩
  superseded_short := kept.superseded_short
  failedFor_seen := by
    rintro t failed
    cases failed
    exact kept.newest_seen
  failedFor_pending := by
    intro t mem failed
    cases failed
    exact newest_not_pending kept mem
  waiting := by
    have count : failures w.newest ({ token := w.newest, time := now, failed := true } :: w.log) =
        failures w.newest w.log + 1 := by
      rw [failures, if_pos rfl, if_pos rfl]
    rw [Waiting, if_pos rfl]
    dsimp only
    rw [count]
    exact ⟨_, List.find?_cons_of_pos (decide_eq_true rfl), Nat.succ_pos _, rfl, rfl⟩
  holds := kept.holds

theorem exchange_calls (last : Nat) (k : TokenKeeper) (token : String) (now : Nat) (answer : Except String Refreshed)
    (landed : Bool) :
    (TokenKeeper.exchange last k token now answer landed).calls = .refresh token answer :: match answer with
      | .ok r => if r.refresh = token then [] else [.persist r.refresh landed]
      | .error _ => [] := by
  match answer with
  | .ok r =>
      rw [TokenKeeper.exchange]
      dsimp only
      split <;> simp only [decide_eq_true_eq]
  | .error e =>
      rw [TokenKeeper.exchange]
      dsimp only
      split <;> rfl

theorem exchange_ok (last : Nat) (k : TokenKeeper) {token : String} {r : Refreshed} (other : r.refresh ≠ token) (now : Nat)
    (landed : Bool) :
    (TokenKeeper.exchange last k token now (.ok r) landed).calls = [.refresh token (.ok r), .persist r.refresh landed] ∧
      (TokenKeeper.exchange last k token now (.ok r) landed).keeper =
        if now + r.ttl ≤ last then
          { held := some { access := r.access, expiresAt := now + r.ttl, refresh := r.refresh, persisted := landed },
            superseded := k.supersede token }
        else { k with superseded := k.supersede token } := by
  rw [TokenKeeper.exchange, plus]
  dsimp only
  rw [decide_eq_false other]
  split
  next none =>
    split at none
    next => cases none
    next late => exact ⟨rfl, (if_neg late).symm⟩
  next present =>
    split at present
    next soon =>
      cases present
      exact ⟨rfl, (if_pos soon).symm⟩
    next => cases present

theorem exchange_error (last : Nat) (k : TokenKeeper) (token : String) (e : String) (now : Nat) (landed : Bool) :
    (TokenKeeper.exchange last k token now (.error e) landed).calls = [.refresh token (.error e)] ∧
      (now + refreshBackoff (min (k.failures + 1) (2 ^ 32 - 1)) ≤ last →
        (TokenKeeper.exchange last k token now (.error e) landed).keeper =
          { k with
            failures := min (k.failures + 1) (2 ^ 32 - 1),
            retryAt := some (now + refreshBackoff (min (k.failures + 1) (2 ^ 32 - 1))), failedFor := some token }) := by
  rw [TokenKeeper.exchange, plus]
  split
  next none =>
    refine ⟨rfl, fun soon => ?_⟩
    rw [if_pos soon] at none
    cases none
  next present =>
    refine ⟨rfl, fun soon => ?_⟩
    rw [if_pos soon] at present
    cases present
    rfl

theorem exchange_token {last now : Nat} {k : TokenKeeper} {token t : String} {answer answer' : Except String Refreshed}
    {landed : Bool} (mem : .refresh t answer' ∈ (TokenKeeper.exchange last k token now answer landed).calls) : t = token := by
  rw [exchange_calls] at mem
  rcases List.mem_cons.mp mem with same | other
  · cases same
    rfl
  · split at other
    · split at other
      · cases other
      · cases List.mem_singleton.mp other
    · cases other

theorem kept_exchanged (kept : w.Kept) (ready : w.Ready) (overrun : w.keeper.failedFor ≠ some w.newest → w.keeper.failures = 0)
    {last now : Nat} {answer : Except String Refreshed} {retried landed : Bool}
    (new : ∀ r, answer = .ok r → r.refresh ∉ w.seen) (timely : w.Timely last (.call now answer retried landed)) :
    (w.exchanged last now answer landed).Kept := by
  rw [exchanged]
  match answer with
  | .ok r =>
      have unseen := new r rfl
      have other : r.refresh ≠ w.newest := fun same => unseen (same ▸ kept.newest_seen)
      obtain ⟨calls, keeper⟩ := exchange_ok last w.keeper other now landed
      rw [calls, keeper]
      by_cases soon : now + r.ttl ≤ last
      · rw [if_pos soon]
        have rotated := kept_rotated kept ready unseen now
          (h := { access := r.access, expiresAt := now + r.ttl, refresh := r.refresh, persisted := landed }) rfl
        cases landed with
        | false => exact rotated
        | true =>
            refine kept_written rotated (fun h mem => ?_) rfl
            cases mem
            rfl
      · rw [if_neg soon]
        obtain rfl : landed = true := timely.resolve_right soon
        exact kept_lost kept unseen now
  | .error e =>
      obtain ⟨calls, keeper⟩ := exchange_error last w.keeper w.newest e now landed
      have count := counted kept overrun
      have next : min (w.keeper.failures + 1) (2 ^ 32 - 1) = min (failures w.newest w.log + 1) (2 ^ 32 - 1) := by omega
      rw [next, refreshBackoff_min] at keeper
      rw [calls, keeper timely]
      exact kept_failed kept now

/-! ## Every step, every run -/

/-- The keeper's way from the current token on: no call, or the exchange. -/
theorem attempted (kept : w.Kept) (ready : w.Ready) {last now : Nat} {answer : Except String Refreshed} {retried landed : Bool}
    (new : ∀ r, answer = .ok r → r.refresh ∉ w.seen) (timely : w.Timely last (.call now answer retried landed))
    {token : String} (newest : token = w.newest) :
    let o := TokenKeeper.attempt last (w.keeper.startOver token) token now answer landed
    ({ o.calls.foldl (apply now) w with keeper := o.keeper } : World).Kept ∧
      ∀ t answer, .refresh t answer ∈ o.calls → t = token ∧ w.Waited token now := by
  subst newest
  have started := kept_startOver kept
  have still : ({ w with keeper := w.keeper.startOver w.newest } : World).Ready := by
    have same : (w.keeper.startOver w.newest).held = w.keeper.held := by
      rw [TokenKeeper.startOver]
      split <;> rfl
    intro h mem
    exact ready h (same ▸ mem)
  have overrun : (w.keeper.startOver w.newest).failedFor ≠ some w.newest → (w.keeper.startOver w.newest).failures = 0 := by
    rw [TokenKeeper.startOver]
    split
    next same => exact fun other => absurd same other
    next => exact fun _ => rfl
  intro o
  rcases held : (w.keeper.startOver w.newest).retryAt.filter fun time => decide (now < time) with _ | time
  · have exchange : o = TokenKeeper.exchange last (w.keeper.startOver w.newest) w.newest now answer landed := by
      show TokenKeeper.attempt _ _ _ _ _ _ = _
      rw [TokenKeeper.attempt, held]
    have swapped := kept_exchanged started still overrun new timely
    rw [exchanged, calls_withKeeper] at swapped
    rw [exchange]
    refine ⟨swapped, fun t answer mem => ⟨exchange_token mem, waited_of_retryAt started held⟩⟩
  · have waits : o.calls = [] ∧ o.keeper = w.keeper.startOver w.newest := by
      show (TokenKeeper.attempt _ _ _ _ _ _).calls = [] ∧ (TokenKeeper.attempt _ _ _ _ _ _).keeper = _
      rw [TokenKeeper.attempt, held]
      exact ⟨rfl, rfl⟩
    rw [waits.1, waits.2]
    exact ⟨started, fun t answer mem => nomatch mem⟩

theorem fresh_none {k : TokenKeeper} {last now : Nat} (stale : k.fresh last now = some none) {h : Held} (held : h ∈ k.held) :
    h.expiresAt ≤ now + refreshMargin := by
  rw [TokenKeeper.fresh, show k.held = some h from held] at stale
  dsimp only at stale
  rw [plus] at stale
  split at stale
  · rw [Option.map_some, Option.some.injEq] at stale
    split at stale
    · cases stale
    · omega
  · cases stale

/-- A call whose keychain is remembered keeps what the keeper knows, and exchanges
    as it should. -/
theorem call_spec (kept : w.Kept) (few : w.pending.length ≤ supersededKeep) {last now : Nat}
    {answer : Except String Refreshed} {retried landed : Bool} (new : ∀ r, answer = .ok r → r.refresh ∉ w.seen)
    (timely : w.Timely last (.call now answer retried landed)) :
    (w.step last (.call now answer retried landed)).Kept ∧ w.Lawful last (.call now answer retried landed) := by
  obtain ⟨looked, token, writes⟩ := look_spec kept few now retried
  have later := outcome.eq_def last w now answer retried landed
  rw [TokenKeeper.accessToken] at later
  rw [look] at looked
  rcases current : w.keeper.current w.keychain retried with ⟨k, calls, t⟩
  rw [current] at later looked token writes
  dsimp only at later looked token writes
  subst token
  have silent (c : Call) (mem : c ∈ calls) : w.Allowed now c := by
    obtain ⟨token, landed, rfl⟩ := writes c mem
    trivial
  rw [step, Lawful]
  rcases held : k.fresh last now with _ | _ | access
  · rw [held] at later
    rw [later]
    exact ⟨looked.kept.withClock now, silent⟩
  · rw [held] at later
    have answered (r : Refreshed) (ok : answer = .ok r) : r.refresh ∉ (calls.foldl (apply now) w).seen :=
      fun mem => new r ok (looked.seen ▸ mem)
    have soon : ({ calls.foldl (apply now) w with keeper := k } : World).Timely last (.call now answer retried landed) := by
      match answer with
      | .ok r => exact timely
      | .error e =>
          rw [Timely, looked.newest, looked.log]
          exact timely
    obtain ⟨reached, exchanges⟩ := attempted looked.kept looked.ready answered soon looked.newest.symm
    rw [later]
    dsimp only
    rw [List.foldl_append]
    rw [calls_withKeeper] at reached
    refine ⟨reached.withClock now, fun c mem => ?_⟩
    rcases List.mem_append.mp mem with early | exchange
    · exact silent c early
    · match c with
      | .persist .. => trivial
      | .refresh t answer' =>
          obtain ⟨rfl, waited⟩ := exchanges t answer' exchange
          refine ⟨kept.unspent, looked.needed now fun h holding _ => fresh_none held holding, ?_⟩
          rw [Waited, looked.log] at waited
          exact waited
  · rw [held] at later
    rw [later]
    exact ⟨looked.kept.withClock now, silent⟩

/-- A keychain behind by more is not among the superseded tokens. -/
theorem keychain_forgotten (kept : w.Kept) (many : supersededKeep < w.pending.length) :
    w.keychain ∉ w.keeper.superseded := by
  have holds := kept.holds
  rw [Holds] at holds
  split at holds
  next => rw [holds] at many; cases many
  next h held =>
    rcases holds.2 with ⟨-, ending⟩ | ⟨-, level⟩
    · have size : (remembered w.pending).length = supersededKeep := by
        rw [remembered, List.length_drop]
        omega
      have whole : remembered w.pending = w.keeper.superseded :=
        ending.eq_of_length_le (size ▸ kept.superseded_short)
      obtain ⟨t, rest, pending⟩ := List.exists_cons_of_ne_nil (List.ne_nil_of_length_pos (Nat.zero_lt_of_lt many))
      have distinct := kept.pending_nodup
      have stored := kept.stored
      rw [pending] at distinct stored many
      have later : (t :: rest).drop ((t :: rest).length - supersededKeep) <:+ rest := by
        rw [List.length_cons] at many ⊢
        rw [show rest.length + 1 - supersededKeep = (rest.length - supersededKeep) + 1 by omega, List.drop_succ_cons]
        exact List.drop_suffix ..
      rw [← whole, remembered, pending, stored]
      exact fun mem => (List.nodup_cons.mp distinct).1 (later.subset mem)
    · rw [level] at many
      cases many

/-- Then it is taken for a new sign-in and its spent token is sent. -/
theorem forgotten_unlawful (kept : w.Kept) (many : supersededKeep < w.pending.length) (last now : Nat)
    (answer : Except String Refreshed) (retried landed : Bool) : ¬w.Lawful last (.call now answer retried landed) := by
  obtain ⟨t, rest, pending⟩ := List.exists_cons_of_ne_nil (List.ne_nil_of_length_pos (Nat.zero_lt_of_lt many))
  have stored : w.keychain = t := by rw [kept.stored, pending]; rfl
  have old : t ∈ w.pending := pending ▸ List.mem_cons_self ..
  have holds := kept.holds
  rw [Holds] at holds
  split at holds
  next => rw [holds] at pending; cases pending
  next h held =>
    have newest : h.refresh = w.newest := by
      rcases holds.2 with ⟨newest, -⟩ | ⟨-, level⟩
      · exact newest
      · rw [level] at pending
        cases pending
    have other : h.refresh ≠ w.keychain := by
      rw [newest, stored]
      rintro rfl
      exact newest_not_pending kept old
    have current : w.keeper.current w.keychain retried =
        ({ w.keeper with held := none, superseded := [] }, [], w.keychain) := by
      rw [TokenKeeper.current, held]
      dsimp only
      rw [if_neg other, if_neg (keychain_forgotten kept many)]
    have overrun : w.keeper.failedFor ≠ some w.keychain := stored ▸ kept.failedFor_pending t old
    have sent : (w.outcome last now answer retried landed).calls = .refresh w.keychain answer :: match answer with
        | .ok r => if r.refresh = w.keychain then [] else [.persist r.refresh landed]
        | .error _ => [] := by
      rw [outcome, TokenKeeper.accessToken, current]
      dsimp only
      rw [TokenKeeper.startOver]
      dsimp only
      rw [if_neg overrun, TokenKeeper.attempt]
      exact exchange_calls ..
    intro lawful
    rw [Lawful, sent] at lawful
    exact (lawful _ (List.mem_cons_self ..)).1 (stored ▸ kept.pending_spent t old)

theorem step_spec (kept : w.Kept) {last : Nat} {e : Event} (possible : w.Possible e) (timely : w.Timely last e)
    (known : w.Remembered e) : (w.step last e).Kept ∧ w.Lawful last e := by
  match e with
  | .call now (.ok r) retried landed =>
      refine call_spec kept known (fun r' same => ?_) timely
      cases same
      exact possible.2
  | .call now (.error e) retried landed => exact call_spec kept known (fun r same => nomatch same) timely
  | .expire now => exact ⟨(kept_expire kept now).withClock now, trivial⟩
  | .signIn token => exact ⟨kept_signIn kept possible, trivial⟩

theorem known_of_lawful (kept : w.Kept) {last : Nat} {e : Event} (lawful : w.Lawful last e) : w.Remembered e := by
  match e with
  | .call now answer retried landed =>
      by_contra many
      exact forgotten_unlawful kept (Nat.lt_of_not_le many) last now answer retried landed lawful
  | .expire now => trivial
  | .signIn token => trivial

theorem run_lawful (kept : w.Kept) {last : Nat} {events : List Event} (possible : Along (step last) Possible w events)
    (timely : Along (step last) (Timely last) w events) :
    Along (step last) (Lawful last) w events ↔ Along (step last) Remembered w events := by
  induction events generalizing w with
  | nil => exact Iff.rfl
  | cons e later ih =>
      constructor
      · intro lawful
        have known := known_of_lawful kept lawful.1
        have next := (step_spec kept possible.1 timely.1 known).1
        exact ⟨known, (ih next possible.2 timely.2).mp lawful.2⟩
      · intro known
        obtain ⟨next, lawful⟩ := step_spec kept possible.1 timely.1 known.1
        exact ⟨lawful, (ih next possible.2 timely.2).mpr known.2⟩

end World

/-- In a run whose instants the clock can tell, every exchange is as it should be
    exactly if at every call the keychain is behind by no more tokens than the
    keeper remembers. -/
theorem exchanges_lawful_iff (last : Nat) (token : String) (events : List Event)
    (possible : Along (World.step last) World.Possible (World.initial token) events)
    (timely : Along (World.step last) (World.Timely last) (World.initial token) events) :
    Along (World.step last) (World.Lawful last) (World.initial token) events ↔
      Along (World.step last) World.Remembered (World.initial token) events :=
  World.run_lawful (World.kept_initial token) possible timely

/-- An exchange every hour, none of whose tokens reach the keychain. -/
def neverWritten : List Event :=
  ["b", "c", "d", "e", "f", "g", "h", "i", "j", "k"].zipIdx.map fun (token, hour) =>
    .call (ofSecs (3600 * hour)) (.ok { access := "", refresh := token, expiresIn := some 3600 }) false false

/-- The tenth of them sends the first token again. -/
theorem spent_token_sent_again :
    ¬∀ (last : Nat) (token : String) (events : List Event),
      Along (World.step last) World.Possible (World.initial token) events →
      Along (World.step last) (World.Timely last) (World.initial token) events →
      Along (World.step last) (World.Lawful last) (World.initial token) events := by
  intro always
  have possible : Along (World.step (ofSecs (2 ^ 63))) World.Possible (World.initial "a") neverWritten := by decide
  have timely : Along (World.step (ofSecs (2 ^ 63))) (World.Timely (ofSecs (2 ^ 63))) (World.initial "a") neverWritten := by
    decide
  have lawful := always _ _ _ possible timely
  have known := (World.run_lawful (World.kept_initial "a") possible timely).mp lawful
  exact absurd known (by decide)

theorem exchanges_lawful_iff_nine :
    Along (World.step (ofSecs (2 ^ 63))) (World.Lawful (ofSecs (2 ^ 63))) (World.initial "a") (neverWritten.take 9) ↔
      Along (World.step (ofSecs (2 ^ 63))) World.Remembered (World.initial "a") (neverWritten.take 9) :=
  exchanges_lawful_iff (ofSecs (2 ^ 63)) "a" (neverWritten.take 9) (by decide) (by decide)

end K2.Lease
