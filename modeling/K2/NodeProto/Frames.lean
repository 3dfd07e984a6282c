import K2.NodeProto.Canonical

/-! # Session frames

A frame between a controller and a node travels in an envelope that its sender signed:
over the session, the frame's number in its direction, and the frame's canonical JSON.
The digest, the signature check, base64 and serde's own reading and writing are given.
-/

namespace K2.NodeProto

/-! ## Signed bytes -/

/-- `u32::to_be_bytes` of a length. -/
def lengthBytes (n : Nat) : List UInt8 := [24, 16, 8, 0].map fun k => UInt8.ofNat (n / 2 ^ k)

/-- The bytes a signature under `domain` covers. -/
def signedBytes (domain : String) (parts : List (List UInt8)) : List UInt8 :=
  utf8 domain ++ 0 :: parts.flatMap fun p => lengthBytes p.length ++ p

/-- Lowercase hex. -/
def hex (bytes : List UInt8) : String :=
  String.ofList (bytes.flatMap fun b => [hexDigit (b.toNat / 16), hexDigit (b.toNat % 16)])

def p256SpkiPrefix : List UInt8 :=
  [0x30, 0x59, 0x30, 0x13, 0x06, 0x07, 0x2a, 0x86, 0x48, 0xce, 0x3d, 0x02, 0x01, 0x06, 0x08,
    0x2a, 0x86, 0x48, 0xce, 0x3d, 0x03, 0x01, 0x07, 0x03, 0x42, 0x00]

/-- The raw uncompressed point of a P-256 key; anything else is refused. -/
def p256PointFromSpki (der : List UInt8) : Option (List UInt8) :=
  if der.length = 91 ∧ der.take 26 = p256SpkiPrefix ∧ der[26]? = some 0x04 then some (der.drop 26) else none

/-- What the digest, the signature and the base64 libraries answer. -/
structure Crypto where
  sha256 : List UInt8 → Vector UInt8 32
  unb64 : String → Option (List UInt8)
  /-- Does a signature over a message verify under a P-256 point? -/
  verify : List UInt8 → List UInt8 → List UInt8 → Bool

variable (C : Crypto)

def sha256Hex (bytes : List UInt8) : String := hex (C.sha256 bytes).toList

def verifyDomain (spkiDer : List UInt8) (domain : String) (parts : List (List UInt8)) (sigB64 : String) : Bool :=
  match p256PointFromSpki spkiDer, C.unb64 sigB64 with
  | some point, some sig => C.verify point (signedBytes domain parts) sig
  | _, _ => false

/-! ## Frames -/

def domainSession : String := "k2-compute-session-v1"
def domainFrameC2n : String := "k2-compute-frame-v1/c2n"
def domainFrameN2c : String := "k2-compute-frame-v1/n2c"

/-- The session id both ends derive after the handshake. -/
def sessionId (nonceN nonceC : String) : String :=
  sha256Hex C (signedBytes domainSession [utf8 nonceN, utf8 nonceC])

/-- Which way a frame travels. -/
inductive Direction where
  | controllerToNode
  | nodeToController
  deriving Repr, DecidableEq

def Direction.domain : Direction → String
  | controllerToNode => domainFrameC2n
  | nodeToController => domainFrameN2c

/-- The variants of a frame. -/
inductive Kind where
  | welcome | assign | transfer | transferFailed | cancel | policyNarrow | revoked | admin | updateOffer | updateChunk
  | adminKeys | artifactGet | queueGet | cacheGet | secretEnv | secretRefused | pkgRequest | pkgRequestDecide
  | gitCred | gitCredRefused
  | offer | jobsSnapshot | need | state | log | receipt | goodbye | adminResult | updateState | health
  | artifactChunk | artifactFailed | queueView | cacheView | secretNeed | pkgRequestFwd | pkgRequestDone | gitCredNeed
  deriving Repr, DecidableEq

namespace Kind

def direction : Kind → Direction
  | welcome | assign | transfer | transferFailed | cancel | policyNarrow | revoked | admin | updateOffer | updateChunk
  | adminKeys | artifactGet | queueGet | cacheGet | secretEnv | secretRefused | pkgRequest | pkgRequestDecide
  | gitCred | gitCredRefused => .controllerToNode
  | offer | jobsSnapshot | need | state | log | receipt | goodbye | adminResult | updateState | health
  | artifactChunk | artifactFailed | queueView | cacheView | secretNeed | pkgRequestFwd | pkgRequestDone
  | gitCredNeed => .nodeToController

def name : Kind → String
  | welcome => "welcome"
  | assign => "assign"
  | transfer => "transfer"
  | transferFailed => "transfer_failed"
  | cancel => "cancel"
  | policyNarrow => "policy_narrow"
  | revoked => "revoked"
  | offer => "offer"
  | jobsSnapshot => "jobs_snapshot"
  | need => "need"
  | state => "state"
  | log => "log"
  | receipt => "receipt"
  | goodbye => "goodbye"
  | admin => "admin"
  | updateOffer => "update_offer"
  | updateChunk => "update_chunk"
  | adminKeys => "admin_keys"
  | adminResult => "admin_result"
  | updateState => "update_state"
  | health => "health"
  | artifactGet => "artifact_get"
  | artifactChunk => "artifact_chunk"
  | artifactFailed => "artifact_failed"
  | queueGet => "queue_get"
  | queueView => "queue_view"
  | cacheGet => "cache_get"
  | cacheView => "cache_view"
  | secretNeed => "secret_need"
  | secretEnv => "secret_env"
  | secretRefused => "secret_refused"
  | pkgRequest => "pkg_request"
  | pkgRequestDecide => "pkg_request_decide"
  | pkgRequestFwd => "pkg_request_fwd"
  | pkgRequestDone => "pkg_request_done"
  | gitCredNeed => "git_cred_need"
  | gitCred => "git_cred"
  | gitCredRefused => "git_cred_refused"

end Kind

/-- A frame of some kind, with what that kind carries. -/
structure Frame (Payload : Kind → Type) where
  kind : Kind
  payload : Payload kind

/-- `{ s: seq, f: frame, g: sig }`. -/
structure Envelope where
  s : Nat
  f : Value
  g : String

/-- `serde_json::to_string` of an envelope. -/
def Envelope.render (e : Envelope) : String :=
  String.ofList ("\x7b\"s\":".toList ++ (toString e.s).toList ++ ",\"f\":".toList ++ e.f.render ++ ",\"g\":".toList
    ++ renderString e.g ++ ['\x7d'])

/-- Serde's reading and writing of frames and envelopes. -/
structure Serde (Payload : Kind → Type) where
  toValue : Frame Payload → Except String Value
  fromValue : Value → Except String (Frame Payload)
  fromStr : String → Except String Envelope

/-- What serde promises. A float is printed as a float, `s` is a `u64`, an object is read
    by its names, and what was written is not read as another frame. -/
structure Serde.Lawful {Payload : Kind → Type} (S : Serde Payload) : Prop where
  written : ∀ frame v, S.toValue frame = .ok v → v.Printed
  parsed : ∀ text env, S.fromStr text = .ok env → env.s < 2 ^ 64 ∧ env.f.Printed
  ordered : ∀ v w frame, canon v = canon w → S.fromValue v = .ok frame → S.fromValue w = .ok frame
  roundTrip : ∀ frame v frame', S.toValue frame = .ok v → S.fromValue v = .ok frame' → frame' = frame

/-- Largest JSON text message on either socket. -/
def maxFrameBytes : Nat := 2 ^ 20

variable {Payload : Kind → Type} (S : Serde Payload)

/-- What a frame's signature covers. -/
def frameParts (session : String) (seq : Nat) (f : Value) : List (List UInt8) :=
  [utf8 session, utf8 (toString seq), toVec f]

/-- Seal a frame as number `seq` of a session; `sign` is what the sender's key answers
    for a message. -/
def sealFrame (sign : List UInt8 → Except String String) (dir : Direction) (session : String) (seq : Nat)
    (frame : Frame Payload) : Except String String :=
  if frame.kind.direction ≠ dir then .error ("frame " ++ frame.kind.name ++ " can't travel this way")
  else match S.toValue frame with
    | .error e => .error ("encode frame: " ++ e)
    | .ok f => do
        let g ← sign (signedBytes dir.domain (frameParts session seq f))
        let text := Envelope.render ⟨seq, f, g⟩
        if Text.byteLen text > maxFrameBytes then
          .error ("frame " ++ frame.kind.name ++ " is " ++ toString (Text.byteLen text) ++ " bytes (cap " ++
            toString maxFrameBytes ++ ")")
        else .ok text

/-- Why a received envelope was rejected. -/
inductive OpenError where
  | tooLarge
  | malformed (e : String)
  | badSignature
  | sequence (expected got : Nat)
  | wrongDirection (kind : String)
  deriving Repr, DecidableEq

/-- Open an envelope from the peer with key `peerSpkiDer`. -/
def openFrame (peerSpkiDer : List UInt8) (dir : Direction) (session : String) (expectedSeq : Nat) (text : String) :
    Except OpenError (Frame Payload) :=
  if Text.byteLen text > maxFrameBytes then .error .tooLarge
  else match S.fromStr text with
    | .error e => .error (.malformed e)
    | .ok env =>
        if !verifyDomain C peerSpkiDer dir.domain (frameParts session env.s env.f) env.g then .error .badSignature
        else if env.s ≠ expectedSeq then .error (.sequence expectedSeq env.s)
        else match S.fromValue env.f with
          | .error e => .error (.malformed e)
          | .ok frame =>
              if frame.kind.direction ≠ dir then .error (.wrongDirection frame.kind.name) else .ok frame

end K2.NodeProto
