import K2.Tunnel.Failover

/-! # The access token of the account server

The process's access token, refreshed only near its expiry, and the refresh token
to present next: the keychain's, unless the keychain still holds one that was
already spent because the write of its replacement failed. -/

namespace K2.Lease

open Tunnel (ofSecs asSecs)

def renewInterval : Nat := ofSecs 60

/-- Refresh the access token when it has less than this left. -/
def refreshMargin : Nat := ofSecs (5 * 60)

/-- Longest wait between refresh attempts after repeated failures. -/
def refreshBackoffMax : Nat := ofSecs (30 * 60)

def defaultAccessTtl : Nat := ofSecs (10 * 60)

/-- How many superseded refresh tokens the keeper remembers. -/
def supersededKeep : Nat := 8

/-- A successful answer; `expiresIn` in seconds, as the server said. -/
structure Refreshed where
  access : String
  refresh : String
  expiresIn : Option Nat
  deriving Repr, DecidableEq

def Refreshed.ttl (r : Refreshed) : Nat := (r.expiresIn.map ofSecs).getD defaultAccessTtl

/-- The wait after `failures` consecutive failed refreshes: `renewInterval`, then
    doubling, capped. -/
def refreshBackoff (failures : Nat) : Nat := min (renewInterval * 2 ^ min (failures - 1) 16) refreshBackoffMax

structure Held where
  access : String
  expiresAt : Nat
  /-- The newest refresh token (the one to present next time). -/
  refresh : String
  /-- False when writing `refresh` to the keychain failed. -/
  persisted : Bool
  deriving Repr, DecidableEq

structure TokenKeeper where
  held : Option Held := none
  /-- Refresh tokens this keeper already exchanged (newest last). -/
  superseded : List String := []
  failures : Nat := 0
  retryAt : Option Nat := none
  /-- The refresh token the counted failures were for. -/
  failedFor : Option String := none
  deriving Repr, DecidableEq

/-- A call of one of the two closures, with its answer. -/
inductive Call where
  | persist (token : String) (landed : Bool)
  | refresh (token : String) (answer : Except String Refreshed)

/-- `result` is none where the call panics. -/
structure Outcome where
  keeper : TokenKeeper
  calls : List Call
  result : Option (Except String String)

/-- `Instant + Duration`, which panics past the platform's last instant. -/
def plus (last t d : Nat) : Option Nat := if t + d ≤ last then some (t + d) else none

namespace TokenKeeper

/-- Which refresh token is current? -/
def current (k : TokenKeeper) (stored : String) (retried : Bool) : TokenKeeper × List Call × String :=
  match k.held with
  | none => (k, [], stored)
  | some h =>
      if h.refresh = stored then (k, [], h.refresh)
      else if stored ∈ k.superseded then
        -- Our rotation write did not land: never present the spent one, retry the write.
        if h.persisted then (k, [], h.refresh)
        else ({ k with held := some { h with persisted := retried } }, [.persist h.refresh retried], h.refresh)
      else ({ k with held := none, superseded := [] }, [], stored)

/-- The held access token while it is valid at all. -/
def valid (k : TokenKeeper) (now : Nat) : Option String :=
  (k.held.filter fun h => now < h.expiresAt).map Held.access

/-- Remember one more superseded token. -/
def supersede (k : TokenKeeper) (token : String) : List String :=
  (k.superseded ++ [token]).drop ((k.superseded ++ [token]).length - supersededKeep)

def exchange (last : Nat) (k : TokenKeeper) (token : String) (now : Nat) (answer : Except String Refreshed)
    (landed : Bool) : Outcome :=
  match answer with
  | .ok r =>
      let same := decide (r.refresh = token)
      let calls := .refresh token answer :: if same then [] else [.persist r.refresh landed]
      let superseded := if same then k.superseded else k.supersede token
      match plus last now r.ttl with
      | none => { keeper := { k with superseded := superseded }, calls := calls, result := none }
      | some expiresAt =>
          let held := { access := r.access, expiresAt := expiresAt, refresh := r.refresh, persisted := same || landed }
          { keeper := { held := some held, superseded := superseded }, calls := calls, result := some (.ok r.access) }
  | .error e =>
      let failures := min (k.failures + 1) (2 ^ 32 - 1)
      match plus last now (refreshBackoff failures) with
      | none => { keeper := { k with failures := failures }, calls := [.refresh token answer], result := none }
      | some due =>
          { keeper := { k with failures := failures, retryAt := some due, failedFor := some token },
            calls := [.refresh token answer],
            result := some (match k.valid now with
              | some access => .ok access
              | none => .error e) }

/-- Failures counted for another token don't make this one wait. -/
def startOver (k : TokenKeeper) (token : String) : TokenKeeper :=
  if k.failedFor = some token then k else { k with failures := 0, retryAt := none, failedFor := none }

/-- The backoff, then the exchange. -/
def attempt (last : Nat) (k : TokenKeeper) (token : String) (now : Nat) (answer : Except String Refreshed)
    (landed : Bool) : Outcome :=
  match k.retryAt.filter fun due => now < due with
  | some due =>
      { keeper := k, calls := [],
        result := some (match k.valid now with
          | some access => .ok access
          | none => .error ("token refresh backing off for " ++ toString (asSecs (due - now)) ++ "s after "
              ++ toString k.failures ++ " failure(s)")) }
  | none => exchange last k token now answer landed

/-- Whether the held access token has more than the margin left. -/
def fresh (last : Nat) (k : TokenKeeper) (now : Nat) : Option (Option String) :=
  match k.held with
  | none => some none
  | some h => (plus last now refreshMargin).map fun soon => if soon < h.expiresAt then some h.access else none

/-- An access token for the session whose stored refresh token is `stored`.
    `answer` is what `refresh` says if it is called, `retried` and `landed` what
    `persist` says to the retry of an older write and to the new token's. -/
def accessToken (last : Nat) (k : TokenKeeper) (stored : String) (now : Nat) (answer : Except String Refreshed)
    (retried landed : Bool) : Outcome :=
  let (k, calls, token) := k.current stored retried
  match k.fresh last now with
  | none => { keeper := k, calls := calls, result := none }
  | some (some access) => { keeper := k, calls := calls, result := some (.ok access) }
  | some none =>
      let o := attempt last (k.startOver token) token now answer landed
      { o with calls := calls ++ o.calls }

/-- The server refused the access token. -/
def expireAccess (k : TokenKeeper) (now : Nat) : TokenKeeper :=
  { k with held := k.held.map fun h => { h with expiresAt := now } }

end TokenKeeper

example : (List.range 8).map (fun n => asSecs (refreshBackoff n)) = [60, 60, 120, 240, 480, 960, 1800, 1800] := by decide

end K2.Lease
