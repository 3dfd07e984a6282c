import K2.Json
import K2.Lib.Machines
import K2.Lib.Windows

/-! # Signed envelopes and the inbound gate

A message to another server travels in an envelope signed by the sending
server. `ingest` is the gate a peer's bytes pass through on arrival. Signatures
are a parameter: what the gate needs of them is which payloads verify against
the key it has pinned.
-/

namespace K2.Federation

/-- `DateTime<Utc>`, in nanoseconds. -/
abbrev Time := Int

/-- A drawn uuid is hex digits and hyphens; one on the wire may be any text. -/
abbrev Uuid := String

inductive AgentAddress where
  | agent (workspace name : String)
  | workspace (workspace : String)
  | broadcast
  deriving DecidableEq, Repr

inductive ReservationAction where
  | claim
  | release
  deriving DecidableEq, Repr

inductive PresenceState where
  | active
  | idle
  | away
  | stuck
  deriving DecidableEq, Repr

inductive TaskPhase where
  | started
  | done
  | blocked
  deriving DecidableEq, Repr

inductive SignalKind where
  | msg (text : String)
  | status (text : String)
  | reservation (paths : List String) (action : ReservationAction)
  | presence (state : PresenceState)
  | taskLifecycle (phase : TaskPhase) (taskRef : Option String)
  | custom (kind : String) (payload : Value)
  deriving Repr

structure AgentSignal where
  id : String
  sender : AgentAddress
  addressee : AgentAddress
  kind : SignalKind
  time : Time
  deriving Repr

structure SignedPayload where
  fromFingerprint : String
  toSubdomain : String
  msgUuid : Uuid
  ttl : Nat
  trace : List String
  nonce : Uuid
  time : Time
  signal : AgentSignal

structure FederationEnvelope where
  payload : SignedPayload
  sig : String

/-- The signing layer: P-256 over the canonical JSON of a payload, a key known by the
    fingerprint of its public half. -/
structure Signing where
  canonical : SignedPayload → List UInt8
  fingerprintOfSpkiPem : String → Except String String
  verify : String → List UInt8 → String → Bool

section
variable {ε ε' α : Type}

/-- `if !c { return Err(e) }`. -/
def ensure (c : Prop) [Decidable c] (e : ε) : Except ε Unit := if c then .ok () else .error e

@[simp] theorem ensure_eq_ok {c : Prop} [Decidable c] {e : ε} {u : Unit} : ensure c e = .ok u ↔ c := by
  unfold ensure
  split <;> simp_all

theorem ensure_eq_error {c : Prop} [Decidable c] {e e' : ε} : ensure c e = .error e' ↔ ¬c ∧ e = e' := by
  unfold ensure
  split <;> simp_all

theorem mapError_eq_error {x : Except ε α} {f : ε → ε'} {e : ε'} : x.mapError f = .error e ↔ ∃ old, x = .error old ∧ f old = e := by
  cases x <;> simp [Except.mapError]

theorem bind_eq_error {β : Type} {x : Except ε α} {f : α → Except ε β} {e : ε} :
    x >>= f = .error e ↔ x = .error e ∨ ∃ a, x = .ok a ∧ f a = .error e := by
  cases x <;> simp [bind, Except.bind]

@[simp] theorem mapError_eq_ok {x : Except ε α} {f : ε → ε'} {a : α} : x.mapError f = .ok a ↔ x = .ok a := by
  cases x <;> simp [Except.mapError]

end

/-- The server's own key. -/
structure KeyPair where
  fingerprint : String
  sign : List UInt8 → String

inductive FederationError where
  | decode (e : String)
  | key (e : String)
  | fingerprintMismatch (claimed pinned : String)
  | badSignature
  deriving DecidableEq, Repr

section Seal
variable (S : Signing) (myKey : KeyPair)

def signed (payload : SignedPayload) : FederationEnvelope := ⟨payload, myKey.sign (S.canonical payload)⟩

/-- The uuids and the time are those the call draws. -/
def sealSignal (signal : AgentSignal) (toSubdomain : String) (ttl : Nat) (msgUuid nonce : Uuid) (now : Time) : FederationEnvelope :=
  signed S myKey
    { fromFingerprint := myKey.fingerprint
      toSubdomain := toSubdomain
      msgUuid := msgUuid
      ttl := ttl
      trace := [myKey.fingerprint]
      nonce := nonce
      time := now
      signal := signal }

def reseal (envelope : FederationEnvelope) (nonce : Uuid) (now : Time) : Except FederationError FederationEnvelope :=
  if envelope.payload.fromFingerprint ≠ myKey.fingerprint then
    .error (.fingerprintMismatch envelope.payload.fromFingerprint myKey.fingerprint)
  else .ok (signed S myKey { envelope.payload with nonce := nonce, time := now })

/-- What a reseal keeps: everything but the nonce, the time and the signature. -/
theorem reseal_keeps {envelope fresh : FederationEnvelope} {nonce : Uuid} {now : Time}
    (resealed : reseal S myKey envelope nonce now = .ok fresh) :
    fresh = signed S myKey { envelope.payload with nonce := nonce, time := now } := by
  unfold reseal at resealed
  split at resealed
  · cases resealed
  · cases resealed
    rfl

def openEnvelope (bytes : Except String FederationEnvelope) (senderPinnedPubkeyPem : String) : Except FederationError AgentSignal := do
  let envelope ← bytes.mapError .decode
  let pinnedFp ← (S.fingerprintOfSpkiPem senderPinnedPubkeyPem).mapError .key
  ensure (envelope.payload.fromFingerprint = pinnedFp) (.fingerprintMismatch envelope.payload.fromFingerprint pinnedFp)
  ensure (S.verify senderPinnedPubkeyPem (S.canonical envelope.payload) envelope.sig) .badSignature
  return envelope.payload.signal

theorem open_ok {bytes : Except String FederationEnvelope} {pem : String} {signal : AgentSignal} :
    openEnvelope S bytes pem = .ok signal ↔
      ∃ envelope, bytes = .ok envelope ∧ S.fingerprintOfSpkiPem pem = .ok envelope.payload.fromFingerprint ∧
        S.verify pem (S.canonical envelope.payload) envelope.sig = true ∧ envelope.payload.signal = signal := by
  simp only [openEnvelope, bind_eq_ok, mapError_eq_ok, ensure_eq_ok, pure, Except.pure, Except.ok.injEq]
  constructor
  · intro ⟨envelope, same, fp, pinned, _, claimed, _, verified, signal_eq⟩
    exact ⟨envelope, same, claimed ▸ pinned, verified, signal_eq⟩
  · intro ⟨envelope, same, pinned, verified, signal_eq⟩
    exact ⟨envelope, same, _, pinned, (), rfl, (), verified, signal_eq⟩

end Seal

/-! ## The trust store -/

inductive PeerTrust where
  | pending
  | trusted
  | blocked
  deriving DecidableEq, Repr

structure FederationPeer where
  fingerprint : String
  publicKeyPem : String
  trust : PeerTrust
  capabilities : List String
  deriving DecidableEq, Repr

abbrev PeerStore := List FederationPeer

inductive RequirePeerError where
  | unknownPeer
  | notTrusted (trust : PeerTrust)
  | capabilityDenied (capability : String)
  deriving DecidableEq, Repr

namespace PeerStore

def get (store : PeerStore) (fingerprint : String) : Option FederationPeer := store.find? (·.fingerprint = fingerprint)

def requirePeer (store : PeerStore) (fingerprint capability : String) : Except RequirePeerError FederationPeer :=
  match store.get fingerprint with
  | none => .error .unknownPeer
  | some peer =>
      if peer.trust ≠ .trusted then .error (.notTrusted peer.trust)
      else if capability ∉ peer.capabilities then .error (.capabilityDenied capability)
      else .ok peer

theorem requirePeer_ok {store : PeerStore} {fingerprint capability : String} {peer : FederationPeer} :
    store.requirePeer fingerprint capability = .ok peer ↔
      store.get fingerprint = some peer ∧ peer.trust = .trusted ∧ capability ∈ peer.capabilities := by
  cases found : store.get fingerprint with
  | none => simp [requirePeer, found]
  | some p =>
      simp only [requirePeer, found]
      split
      · rename_i untrusted
        simp only [reduceCtorEq, Option.some.injEq, false_iff]
        rintro ⟨rfl, trusted, -⟩
        exact untrusted trusted
      · split
        · rename_i denied
          simp only [reduceCtorEq, Option.some.injEq, false_iff]
          rintro ⟨rfl, -, held⟩
          exact denied held
        · rename_i trusted held
          simp only [Except.ok.injEq, Option.some.injEq]
          exact ⟨fun same => same ▸ ⟨rfl, not_not.mp trusted, not_not.mp held⟩, And.left⟩

end PeerStore

/-! ## The gate -/

def CAP_INBOUND : String := "inbound"
def DEFAULT_SKEW_SECS : Nat := 300
def NONCE_LRU_CAP : Nat := 1024

inductive IngressError where
  | decode (e : String)
  | unknownPeer
  | notTrusted
  | capabilityDenied
  | badSignature
  | replay
  | skewTooLarge (skewSecs : Nat)
  | ttlExpired
  | loopDetected
  deriving DecidableEq, Repr

/-- `Display` for `IngressError`. -/
def IngressError.text : IngressError → String
  | .decode e => "decode envelope: " ++ e
  | .unknownPeer => "unknown peer (not pinned)"
  | .notTrusted => "peer not trusted"
  | .capabilityDenied => "peer lacks the inbound capability"
  | .badSignature => "signature verification failed"
  | .replay => "replayed nonce"
  | .skewTooLarge skewSecs => "clock skew " ++ toString skewSecs ++ "s exceeds the accepted window"
  | .ttlExpired => "ttl exhausted"
  | .loopDetected => "delegation loop (self in trace)"

/-- The nonces remembered of each peer. -/
abbrev NonceCache := String → List Uuid

namespace NonceCache

def new : NonceCache := fun _ => []

def checkAndRecord (cache : NonceCache) (fingerprint : String) (nonce : Uuid) : Bool × NonceCache :=
  if nonce ∈ cache fingerprint then (false, cache)
  else (true, Function.update cache fingerprint (Recent.remember NONCE_LRU_CAP (cache fingerprint) nonce))

end NonceCache

def sanitizeText (s : String) : String :=
  String.ofList (s.toList.filter fun c => c = '\n' || c = '\t' || !Text.isControl c)

def sanitizeSignal (signal : AgentSignal) : AgentSignal :=
  { signal with
    kind := match signal.kind with
      | .msg text => .msg (sanitizeText text)
      | .status text => .status (sanitizeText text)
      | .reservation paths action => .reservation (paths.map sanitizeText) action
      | .taskLifecycle phase taskRef => .taskLifecycle phase (taskRef.map sanitizeText)
      | .custom kind payload => .custom (sanitizeText kind) payload
      | .presence state => .presence state }

structure Ingested where
  signal : AgentSignal
  peerFingerprint : String
  msgUuid : Uuid

/-- The whole seconds between two times. -/
def skewOf (now time : Time) : Nat := ((now - time).tdiv 1000000000).natAbs

section Ingest
variable (S : Signing)

/-- The checks before the nonce, in their order. -/
def admitted (bytes : Except String FederationEnvelope) (store : PeerStore) (localFp : String) (skewSecs : Nat) (now : Time) :
    Except IngressError (FederationEnvelope × AgentSignal) := do
  let envelope ← bytes.mapError .decode
  let claimedFp := envelope.payload.fromFingerprint
  let pinned ← okOr (store.get claimedFp) .unknownPeer
  let signal ← (openEnvelope S bytes pinned.publicKeyPem).mapError fun _ => .badSignature
  let _ ← (store.requirePeer claimedFp CAP_INBOUND).mapError fun
    | .unknownPeer => .unknownPeer
    | .notTrusted _ => .notTrusted
    | .capabilityDenied _ => .capabilityDenied
  let p := envelope.payload
  ensure (p.ttl ≠ 0) .ttlExpired
  ensure (localFp = "" ∨ localFp ∉ p.trace) .loopDetected
  ensure (skewOf now p.time ≤ skewSecs) (.skewTooLarge (skewOf now p.time))
  return (envelope, signal)

def ingest (bytes : Except String FederationEnvelope) (store : PeerStore) (nonceCache : NonceCache) (localFp : String)
    (skewSecs : Nat) (now : Time) : Except IngressError Ingested × NonceCache :=
  match admitted S bytes store localFp skewSecs now with
  | .error e => (.error e, nonceCache)
  | .ok (envelope, signal) =>
      let (new, nonceCache) := nonceCache.checkAndRecord envelope.payload.fromFingerprint envelope.payload.nonce
      if !new then (.error .replay, nonceCache)
      else (.ok ⟨sanitizeSignal signal, envelope.payload.fromFingerprint, envelope.payload.msgUuid⟩, nonceCache)

/-- What an accepted envelope has passed. -/
structure Admitted (store : PeerStore) (localFp : String) (skewSecs : Nat) (now : Time) (envelope : FederationEnvelope) : Prop where
  pinned : ∃ peer, store.get envelope.payload.fromFingerprint = some peer ∧ peer.trust = .trusted ∧ CAP_INBOUND ∈ peer.capabilities ∧
    S.fingerprintOfSpkiPem peer.publicKeyPem = .ok envelope.payload.fromFingerprint ∧
    S.verify peer.publicKeyPem (S.canonical envelope.payload) envelope.sig = true
  hops : 0 < envelope.payload.ttl
  loopless : localFp = "" ∨ localFp ∉ envelope.payload.trace
  timely : skewOf now envelope.payload.time ≤ skewSecs

variable {S} {bytes : Except String FederationEnvelope} {store : PeerStore} {localFp : String} {skewSecs : Nat} {now : Time}

theorem admitted_ok {envelope : FederationEnvelope} {signal : AgentSignal} :
    admitted S bytes store localFp skewSecs now = .ok (envelope, signal) ↔
      bytes = .ok envelope ∧ signal = envelope.payload.signal ∧ Admitted S store localFp skewSecs now envelope := by
  simp only [admitted, bind_eq_ok, mapError_eq_ok, ensure_eq_ok, okOr_eq_ok, PeerStore.requirePeer_ok, open_ok, pure, Except.pure, Except.ok.injEq,
    Prod.mk.injEq]
  constructor
  · rintro ⟨sent, same, peer, pinned, _, ⟨read, same', keyed, verified, signal_eq⟩, _, ⟨found, trusted, held⟩, _, hops, _, loopless, _, timely,
      rfl, rfl⟩
    cases same.symm.trans same'
    cases pinned.symm.trans found
    exact ⟨same, signal_eq.symm, ⟨peer, pinned, trusted, held, keyed, verified⟩, Nat.pos_of_ne_zero hops, loopless, timely⟩
  · rintro ⟨same, signal_eq, ⟨peer, pinned, trusted, held, keyed, verified⟩, hops, loopless, timely⟩
    exact ⟨envelope, same, peer, pinned, signal, ⟨envelope, same, keyed, verified, signal_eq.symm⟩, peer, ⟨pinned, trusted, held⟩, (),
      hops.ne', (), loopless, (), timely, rfl, rfl⟩

theorem okOr_eq_error {ε α : Type} {x : Option α} {e e' : ε} : okOr x e = .error e' ↔ x = none ∧ e = e' := by
  cases x <;> simp [okOr]

/-- Only the nonce makes a replay. -/
theorem admitted_not_replay : admitted S bytes store localFp skewSecs now ≠ .error .replay := by
  simp only [admitted, ne_eq, bind_eq_error, mapError_eq_error, ensure_eq_error, okOr_eq_error, pure, Except.pure, reduceCtorEq, and_false,
    exists_false, false_or, not_exists, not_and]
  rintro envelope - peer - signal - (⟨old, -, same⟩ | ⟨_, -, _, -, _, -, _, -, ⟨⟩⟩)
  cases old <;> cases same

/-- An arrival is refused before its nonce counts, replays one that is remembered, or is taken. -/
theorem ingest_cases (S : Signing) (bytes : Except String FederationEnvelope) (store : PeerStore) (cache : NonceCache) (localFp : String)
    (skewSecs : Nat) (now : Time) :
    (∃ e, e ≠ .replay ∧ ingest S bytes store cache localFp skewSecs now = (.error e, cache)) ∨
      ∃ envelope, bytes = .ok envelope ∧ Admitted S store localFp skewSecs now envelope ∧
        ((envelope.payload.nonce ∈ cache envelope.payload.fromFingerprint ∧
            ingest S bytes store cache localFp skewSecs now = (.error .replay, cache)) ∨
          (envelope.payload.nonce ∉ cache envelope.payload.fromFingerprint ∧
            ingest S bytes store cache localFp skewSecs now =
              (.ok ⟨sanitizeSignal envelope.payload.signal, envelope.payload.fromFingerprint, envelope.payload.msgUuid⟩,
                Function.update cache envelope.payload.fromFingerprint
                  (Recent.remember NONCE_LRU_CAP (cache envelope.payload.fromFingerprint) envelope.payload.nonce)))) := by
  cases passed : admitted S bytes store localFp skewSecs now with
  | error e => exact .inl ⟨e, fun same => admitted_not_replay (passed.trans (same ▸ rfl)), by simp [ingest, passed]⟩
  | ok pair =>
      obtain ⟨envelope, signal⟩ := pair
      obtain ⟨same, rfl, admitted⟩ := admitted_ok.mp passed
      refine .inr ⟨envelope, same, admitted, ?_⟩
      by_cases seen : envelope.payload.nonce ∈ cache envelope.payload.fromFingerprint
      · exact .inl ⟨seen, by simp [ingest, passed, NonceCache.checkAndRecord, seen]⟩
      · exact .inr ⟨seen, by simp [ingest, passed, NonceCache.checkAndRecord, seen]⟩

/-- Bytes that arrive, and what the server holds and is at the time. -/
structure Arrival where
  bytes : Except String FederationEnvelope
  store : PeerStore
  localFp : String
  skewSecs : Nat
  now : Time

variable (S) in
def gate (cache : NonceCache) (a : Arrival) : NonceCache × Except IngressError Ingested :=
  let (answer, cache) := ingest S a.bytes a.store cache a.localFp a.skewSecs a.now
  (cache, answer)

/-- The nonces accepted of a peer, in order. -/
def acceptedOf (fingerprint : String) (history : List (Arrival × Except IngressError Ingested)) : List Uuid :=
  history.filterMap fun
    | (a, .ok _) => match a.bytes with
        | .ok envelope => if envelope.payload.fromFingerprint = fingerprint then some envelope.payload.nonce else none
        | .error _ => none
    | _ => none

/-- The last nonces accepted of each peer are remembered, and those accepted stand far apart. -/
structure Guards (S : Signing) (history : List (Arrival × Except IngressError Ingested)) (cache : NonceCache) : Prop where
  remembered : ∀ fingerprint, cache fingerprint = (acceptedOf fingerprint history).rtake NONCE_LRU_CAP
  spaced : ∀ fingerprint, Recent.Spaced NONCE_LRU_CAP (acceptedOf fingerprint history)
  checked : ∀ e ∈ history, ∀ ingested, e.2 = .ok ingested → ∃ envelope, e.1.bytes = .ok envelope ∧
    Admitted S e.1.store e.1.localFp e.1.skewSecs e.1.now envelope ∧ ingested.peerFingerprint = envelope.payload.fromFingerprint ∧
    ingested.msgUuid = envelope.payload.msgUuid ∧ ingested.signal = sanitizeSignal envelope.payload.signal

theorem Guards.rejected {history : List (Arrival × Except IngressError Ingested)} {cache : NonceCache} (guards : Guards S history cache)
    (a : Arrival) (e : IngressError) : Guards S (history ++ [(a, .error e)]) cache := by
  obtain ⟨remembered, spaced, checked⟩ := guards
  refine ⟨?_, ?_, ?_⟩
  · simpa [acceptedOf] using remembered
  · simpa [acceptedOf] using spaced
  · intro event mem ingested answer
    rcases List.mem_append.mp mem with old | new
    · exact checked event old ingested answer
    · obtain rfl := List.mem_singleton.mp new
      cases answer

theorem Guards.gate {history : List (Arrival × Except IngressError Ingested)} {cache : NonceCache} (guards : Guards S history cache)
    (a : Arrival) : Guards S (history ++ [(a, (gate S cache a).2)]) (gate S cache a).1 := by
  rcases ingest_cases S a.bytes a.store cache a.localFp a.skewSecs a.now with
    ⟨e, -, refused⟩ | ⟨envelope, same, admitted, ⟨-, replayed⟩ | ⟨seen, taken⟩⟩
  · simpa [Federation.gate, refused] using guards.rejected a e
  · simpa [Federation.gate, replayed] using guards.rejected a .replay
  · obtain ⟨remembered, spaced, checked⟩ := guards
    simp only [Federation.gate, taken]
    have more : ∀ fingerprint, acceptedOf fingerprint (history ++ [(a, .ok ⟨sanitizeSignal envelope.payload.signal,
        envelope.payload.fromFingerprint, envelope.payload.msgUuid⟩)]) = acceptedOf fingerprint history ++
          if envelope.payload.fromFingerprint = fingerprint then [envelope.payload.nonce] else [] := by
      intro fingerprint
      simp only [acceptedOf, List.filterMap_append, List.filterMap_cons, same, List.filterMap_nil]
      split <;> simp_all
    refine ⟨fun fingerprint => ?_, fun fingerprint => ?_, ?_⟩
    · rw [more]
      by_cases here : envelope.payload.fromFingerprint = fingerprint
      · subst here
        rw [remembered] at seen
        simp [remembered, Recent.remember_new seen]
      · simp [here, Ne.symm here, remembered]
    · rw [more]
      by_cases here : envelope.payload.fromFingerprint = fingerprint
      · subst here
        rw [remembered] at seen
        simpa using (spaced _).snoc seen
      · simpa [here] using spaced fingerprint
    · intro event mem ingested answer
      rcases List.mem_append.mp mem with old | new
      · exact checked event old ingested answer
      · obtain rfl := List.mem_singleton.mp new
        cases answer
        exact ⟨envelope, same, admitted, rfl, rfl, rfl⟩

variable (S) in
/-- Whoever sends what, and whatever the stores and clocks are meanwhile: what the gate accepts is signed by the key pinned for a trusted
    peer that may deliver here, within its hops and the skew window, and a nonce is accepted again only behind a full window of others. -/
theorem accepted_signed_and_fresh (arrivals : List Arrival) :
    let history := History.history (gate S) NonceCache.new arrivals
    (∀ fingerprint, Recent.Spaced NONCE_LRU_CAP (acceptedOf fingerprint history)) ∧
      ∀ e ∈ history, ∀ ingested, e.2 = .ok ingested → ∃ envelope, e.1.bytes = .ok envelope ∧
        Admitted S e.1.store e.1.localFp e.1.skewSecs e.1.now envelope ∧ ingested.peerFingerprint = envelope.payload.fromFingerprint ∧
        ingested.msgUuid = envelope.payload.msgUuid ∧ ingested.signal = sanitizeSignal envelope.payload.signal := by
  intro history
  have start : Guards S [] NonceCache.new := ⟨fun _ => by simp [NonceCache.new, acceptedOf], fun _ => Recent.spaced_nil, by simp⟩
  have guards : Guards S history (History.after (gate S) NonceCache.new arrivals) :=
    History.invariant start (fun _ _ a held => held.gate a) arrivals
  exact ⟨guards.spaced, guards.checked⟩

end Ingest

end K2.Federation
