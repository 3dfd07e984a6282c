import K2.NodeProto.Binding

/-! # Sessions under attack

A controller and its nodes hold any number of sessions. Whoever is on the path hands a
receiver any text at any time; it cannot make a signature that a key has not given.
-/

namespace K2.NodeProto

/-! ## The network -/

/-- `nonce_b64`: 32 random bytes in base64. -/
structure Nonce where
  text : String
  size : text.utf8ByteSize = 44
  deriving DecidableEq

/-- Who signs. -/
inductive Signer where
  | controller
  | node (id : Nat)
  deriving Repr, DecidableEq

/-- One direction of a session: what its sender sealed, what its receiver accepted, and
    whether the receiver met an error. -/
structure Channel (Payload : Kind → Type) where
  sealed : List (Frame Payload)
  accepted : List (Frame Payload)
  stopped : Bool

/-- A session between the controller and a node. -/
structure Link (Payload : Kind → Type) where
  node : Nat
  nonceN : Nonce
  nonceC : Nonce
  channel : Direction → Channel Payload

variable {Payload : Kind → Type}

namespace Link

def opened (node : Nat) (nonceN nonceC : Nonce) : Link Payload := ⟨node, nonceN, nonceC, fun _ => ⟨[], [], false⟩⟩

def signer (link : Link Payload) : Direction → Signer
  | .controllerToNode => .controller
  | .nodeToController => .node link.node

/-- What the session's id is the digest of. -/
def idBytes (link : Link Payload) : List UInt8 := signedBytes domainSession [utf8 link.nonceN.text, utf8 link.nonceC.text]

def session (C : Crypto) (link : Link Payload) : String := sessionId C link.nonceN.text link.nonceC.text

def setChannel (link : Link Payload) (dir : Direction) (ch : Channel Payload) : Link Payload :=
  { link with channel := fun d => if d = dir then ch else link.channel d }

end Link

/-- The sessions, and the messages that each key has given a signature of. -/
structure Net (Payload : Kind → Type) where
  links : List (Link Payload)
  released : Signer → List (List UInt8)

namespace Net

def release (net : Net Payload) (signer : Signer) (message : List UInt8) : Net Payload :=
  { net with released := fun s => if s = signer then message :: net.released s else net.released s }

def setChannel (net : Net Payload) (i : Nat) (dir : Direction) (ch : Channel Payload) : Net Payload :=
  { net with links := net.links.modify i fun link => link.setChannel dir ch }

end Net

/-! ## Steps -/

/-- The libraries and the keys. -/
structure World (Payload : Kind → Type) where
  crypto : Crypto
  serde : Serde Payload
  /-- The public key of each signer. -/
  spki : Signer → List UInt8

variable (W : World Payload)

/-- The receiver's turn: it stops at the first error. -/
def Channel.receive (ch : Channel Payload) (link : Link Payload) (dir : Direction) (text : String) : Channel Payload :=
  if ch.stopped then ch
  else match openFrame W.crypto W.serde (W.spki (link.signer dir)) dir (link.session W.crypto) ch.accepted.length text with
    | .ok frame => { ch with accepted := ch.accepted ++ [frame] }
    | .error _ => { ch with stopped := true }

/-- The signature in a text, if it verifies, is one that the key gave. -/
def Unforged (net : Net Payload) (link : Link Payload) (dir : Direction) (text : String) : Prop :=
  ∀ env, W.serde.fromStr text = .ok env →
    verifyDomain W.crypto (W.spki (link.signer dir)) dir.domain (frameParts (link.session W.crypto) env.s env.f) env.g = true →
    signedBytes dir.domain (frameParts (link.session W.crypto) env.s env.f) ∈ net.released (link.signer dir)

inductive Step (net : Net Payload) : Net Payload → Prop where
  /-- A handshake ends. Each side's nonce is fresh, and the digests of two sessions do
      not collide. -/
  | connect (node : Nat) (nonceN nonceC : Nonce) (freshN : ∀ link ∈ net.links, link.node = node → link.nonceN ≠ nonceN)
      (freshC : ∀ link ∈ net.links, link.nonceC ≠ nonceC)
      (noCollision : ∀ link ∈ net.links, W.crypto.sha256 link.idBytes =
        W.crypto.sha256 (Link.opened node nonceN nonceC : Link Payload).idBytes →
          link.idBytes = (Link.opened node nonceN nonceC : Link Payload).idBytes) :
      Step net { net with links := net.links ++ [.opened node nonceN nonceC] }
  /-- A sender seals its next frame, as long as its counter goes. A frame that `seal`
      refuses is dropped and takes no number. -/
  | sealFrame (i : Nat) (link : Link Payload) (here : net.links[i]? = some link) (dir : Direction)
      (room : (link.channel dir).sealed.length < 2 ^ 64) (sign : List UInt8 → Except String String)
      (frame : Frame Payload) (f : Value) (text : String) (written : W.serde.toValue frame = .ok f)
      (sealed : sealFrame W.serde sign dir (link.session W.crypto) (link.channel dir).sealed.length frame = .ok text) :
      Step net ((net.setChannel i dir
          { link.channel dir with sealed := (link.channel dir).sealed ++ [frame] }).release (link.signer dir)
        (signedBytes dir.domain (frameParts (link.session W.crypto) (link.channel dir).sealed.length f)))
  /-- A key signs something else: no bytes that start as a frame's do. -/
  | sign (signer : Signer) (message : List UInt8) (other : ∀ dir, ¬ InDomain dir message) :
      Step net (net.release signer message)
  /-- Any text reaches a receiver. -/
  | deliver (i : Nat) (link : Link Payload) (here : net.links[i]? = some link) (dir : Direction) (text : String)
      (unforged : Unforged W net link dir text) :
      Step net (net.setChannel i dir ((link.channel dir).receive W link dir text))

/-- What a run leads to. -/
inductive Reachable : Net Payload → Prop where
  | start : Reachable ⟨[], fun _ => []⟩
  | step {net net' : Net Payload} (before : Reachable net) (step : Step W net net') : Reachable net'

/-! ## What every run keeps -/

variable {W} {net net' : Net Payload}

@[simp] theorem setChannel_same (link : Link Payload) (dir : Direction) (ch : Channel Payload) :
    (link.setChannel dir ch).channel dir = ch := if_pos rfl

theorem setChannel_other (link : Link Payload) {dir dir' : Direction} (ch : Channel Payload) (other : dir' ≠ dir) :
    (link.setChannel dir ch).channel dir' = link.channel dir' := if_neg other

theorem setChannel_link {i j : Nat} {dir : Direction} {ch : Channel Payload} {link : Link Payload}
    (linked : (net.setChannel i dir ch).links[j]? = some link) :
    ∃ before, net.links[j]? = some before ∧ link = if i = j then before.setChannel dir ch else before := by
  simp only [Net.setChannel, List.getElem?_modify] at linked
  cases found : net.links[j]? with
  | none => simp [found] at linked
  | some before =>
      refine ⟨before, rfl, ?_⟩
      rw [found] at linked
      split at linked
      next same => simpa [same] using linked.symm
      next other => simpa [other] using linked.symm

theorem setChannel_get {i j : Nat} {dir : Direction} {ch : Channel Payload} {link : Link Payload}
    (linked : net.links[j]? = some link) :
    (net.setChannel i dir ch).links[j]? = some (if i = j then link.setChannel dir ch else link) := by
  simp only [Net.setChannel, List.getElem?_modify, linked]
  split <;> rfl

/-- The message of the frame with number `seq` that session `i` sealed in direction `dir`. -/
def Sealed (W : World Payload) (net : Net Payload) (dir : Direction) (message : List UInt8) : Prop :=
  ∃ (i : Nat) (link : Link Payload) (seq : Nat) (frame : Frame Payload) (f : Value), net.links[i]? = some link ∧ 
    (link.channel dir).sealed[seq]? = some frame ∧ seq < 2 ^ 64 ∧ W.serde.toValue frame = .ok f ∧
    message = signedBytes dir.domain (frameParts (link.session W.crypto) seq f)

/-- Sessions have different ids, a key gave signatures of sealed frames only, and what is
    accepted is what was sealed. -/
structure Sound (W : World Payload) (net : Net Payload) : Prop where
  ids : ∀ (i j : Nat) (a b : Link Payload), net.links[i]? = some a → net.links[j]? = some b → a.session W.crypto = b.session W.crypto → i = j
  released : ∀ signer message dir, message ∈ net.released signer → InDomain dir message → Sealed W net dir message
  accepted : ∀ (i : Nat) (link : Link Payload) (dir : Direction), net.links[i]? = some link →
    (link.channel dir).accepted <+: (link.channel dir).sealed

theorem Sound.connect (sound : Sound W net) (node : Nat) (nonceN nonceC : Nonce)
    (freshC : ∀ link ∈ net.links, link.nonceC ≠ nonceC)
    (noCollision : ∀ link ∈ net.links, W.crypto.sha256 link.idBytes =
      W.crypto.sha256 (Link.opened node nonceN nonceC : Link Payload).idBytes →
        link.idBytes = (Link.opened node nonceN nonceC : Link Payload).idBytes) :
    Sound W { net with links := net.links ++ [.opened node nonceN nonceC] } := by
  have fresh (a : Link Payload) (mem : a ∈ net.links) :
      a.session W.crypto ≠ (Link.opened node nonceN nonceC : Link Payload).session W.crypto := by
    intro same
    have bytes := noCollision a mem (sha256Hex_inj same)
    have size (n : Nonce) : n.text.utf8ByteSize < 2 ^ 32 := by rw [n.size]; decide
    have nonces := sessionBytes_inj (size _) (size _) bytes
    refine freshC a mem ?_
    cases nonce : a.nonceC
    cases nonceC
    simpa [nonce, Link.opened] using nonces.2
  have split {j : Nat} {link : Link Payload} (linked : (net.links ++ [Link.opened node nonceN nonceC])[j]? = some link) :
      net.links[j]? = some link ∨ j = net.links.length ∧ link = Link.opened node nonceN nonceC := by
    rw [List.getElem?_append] at linked
    split at linked
    · exact .inl linked
    · rw [List.getElem?_singleton] at linked
      split at linked
      · exact .inr ⟨by omega, (Option.some.inj linked).symm⟩
      · cases linked
  have old {j : Nat} {link : Link Payload} (linked : net.links[j]? = some link) :
      (net.links ++ [Link.opened node nonceN nonceC])[j]? = some link := by
    rw [List.getElem?_append_left (List.getElem?_eq_some_iff.mp linked).1, linked]
  refine ⟨fun i j a b ha hb same => ?_, fun signer message dir mem inDomain => ?_, fun i link dir linked => ?_⟩
  · rcases split ha with ha | ⟨rfl, rfl⟩ <;> rcases split hb with hb | ⟨rfl, rfl⟩
    · exact sound.ids i j a b ha hb same
    · exact absurd same (fresh a (List.mem_of_getElem? ha))
    · exact absurd same.symm (fresh b (List.mem_of_getElem? hb))
    · rfl
  · obtain ⟨i, link, seq, frame, f, linked, rest⟩ := sound.released signer message dir mem inDomain
    exact ⟨i, link, seq, frame, f, old linked, rest⟩
  · rcases split linked with linked | ⟨-, rfl⟩
    · exact sound.accepted i link dir linked
    · exact List.nil_prefix

theorem setChannel_session (link : Link Payload) (dir : Direction) (ch : Channel Payload) :
    (link.setChannel dir ch).session W.crypto = link.session W.crypto := rfl

section

variable {i : Nat} {link : Link Payload} {dir : Direction} {ch : Channel Payload}

theorem Sound.setChannel_ids (sound : Sound W net) (j k : Nat) (a b : Link Payload)
    (ha : (net.setChannel i dir ch).links[j]? = some a) (hb : (net.setChannel i dir ch).links[k]? = some b)
    (same : a.session W.crypto = b.session W.crypto) : j = k := by
  obtain ⟨a', ha', rfl⟩ := setChannel_link ha
  obtain ⟨b', hb', rfl⟩ := setChannel_link hb
  refine sound.ids j k a' b' ha' hb' ?_
  simpa only [apply_ite (Link.session W.crypto), setChannel_session, ite_self] using same

/-- What was sealed stays sealed when a channel's sent list grows. -/
theorem Sealed.setChannel (here : net.links[i]? = some link) (grows : (link.channel dir).sealed <+: ch.sealed)
    {dir' : Direction} {message : List UInt8} (sealed : Sealed W net dir' message) : Sealed W (net.setChannel i dir ch) dir' message := by
  obtain ⟨j, link', seq, frame, f, linked, number, rest⟩ := sealed
  by_cases same : i = j
  · subst same
    obtain rfl : link = link' := Option.some.inj (here.symm.trans linked)
    refine ⟨i, link.setChannel dir ch, seq, frame, f, (setChannel_get linked).trans (by rw [if_pos rfl]), ?_, rest⟩
    by_cases turn : dir' = dir
    · subst turn
      rw [setChannel_same]
      obtain ⟨more, eq⟩ := grows
      rw [← eq, List.getElem?_append_left (List.getElem?_eq_some_iff.mp number).1]
      exact number
    · rw [setChannel_other link ch turn]
      exact number
  · exact ⟨j, link', seq, frame, f, (setChannel_get linked).trans (by rw [if_neg same]), number, rest⟩

theorem Sound.setChannel_accepted (sound : Sound W net) (front : ch.accepted <+: ch.sealed) (j : Nat)
    (link' : Link Payload) (dir' : Direction) (linked : (net.setChannel i dir ch).links[j]? = some link') :
    (link'.channel dir').accepted <+: (link'.channel dir').sealed := by
  obtain ⟨before, at_before, rfl⟩ := setChannel_link linked
  split
  next same =>
    by_cases turn : dir' = dir
    · subst turn
      rw [setChannel_same]
      exact front
    · rw [setChannel_other before ch turn]
      exact sound.accepted j before dir' at_before
  next => exact sound.accepted j before dir' at_before

end

theorem Sound.release (sound : Sound W net) (signer : Signer) (message : List UInt8)
    (known : ∀ dir, InDomain dir message → Sealed W net dir message) : Sound W (net.release signer message) := by
  refine ⟨sound.ids, fun signer' message' dir mem inDomain => ?_, sound.accepted⟩
  simp only [Net.release] at mem
  split at mem
  · rcases List.mem_cons.mp mem with rfl | mem
    · exact known dir inDomain
    · exact sound.released signer' message' dir mem inDomain
  · exact sound.released signer' message' dir mem inDomain

theorem Sound.sealFrame (sound : Sound W net) {i : Nat} {link : Link Payload} (here : net.links[i]? = some link)
    (dir : Direction) (room : (link.channel dir).sealed.length < 2 ^ 64) (frame : Frame Payload) (f : Value)
    (written : W.serde.toValue frame = .ok f) :
    Sound W ((net.setChannel i dir { link.channel dir with sealed := (link.channel dir).sealed ++ [frame] }).release
      (link.signer dir)
      (signedBytes dir.domain (frameParts (link.session W.crypto) (link.channel dir).sealed.length f))) := by
  have grows := List.prefix_append (link.channel dir).sealed [frame]
  refine Sound.release ⟨sound.setChannel_ids, fun signer message dir' mem inDomain => ?_, ?_⟩ _ _ fun dir' inDomain => ?_
  · exact (sound.released signer message dir' mem inDomain).setChannel here grows
  · exact sound.setChannel_accepted ((sound.accepted i link dir here).trans grows)
  · -- the new message is that of the frame just sealed
    obtain rfl := inDomain_eq inDomain
    refine ⟨i, _, (link.channel dir').sealed.length, frame, f, setChannel_get here, ?_, room, written, ?_⟩
    · rw [if_pos rfl, setChannel_same]
      simp
    · rw [if_pos rfl, setChannel_session]

/-- The next frame a receiver accepts is the one its peer sealed with that number. -/
theorem Sound.opened (lawful : W.serde.Lawful) (sound : Sound W net) {i : Nat} {link : Link Payload}
    (here : net.links[i]? = some link) {dir : Direction} {text : String} (unforged : Unforged W net link dir text)
    {expectedSeq : Nat} {frame : Frame Payload}
    (opened : openFrame W.crypto W.serde (W.spki (link.signer dir)) dir (link.session W.crypto) expectedSeq text = .ok frame) :
    (link.channel dir).sealed[expectedSeq]? = some frame := by
  obtain ⟨env, parsed, rfl, read, verified⟩ := openFrame_ok opened
  obtain ⟨j, link', seq, frame', f, linked, number, small, written, same⟩ :=
    sound.released _ _ dir (unforged env parsed verified) (signedBytes_inDomain _ _)
  obtain ⟨counted, printed⟩ := lawful.parsed text env parsed
  obtain ⟨session, rfl, bytes⟩ :=
    frameParts_inj (sessionId_length _ _) (sessionId_length _ _) counted small same
  obtain rfl := sound.ids i j link link' here linked session
  obtain rfl : link = link' := Option.some.inj (here.symm.trans linked)
  rw [lawful.same_frame written read printed bytes]
  exact number

theorem Sound.deliver (lawful : W.serde.Lawful) (sound : Sound W net) {i : Nat} {link : Link Payload}
    (here : net.links[i]? = some link) (dir : Direction) (text : String) (unforged : Unforged W net link dir text) :
    Sound W (net.setChannel i dir ((link.channel dir).receive W link dir text)) := by
  have sent : ((link.channel dir).receive W link dir text).sealed = (link.channel dir).sealed := by
    unfold Channel.receive
    split
    · rfl
    · split <;> rfl
  have before := sound.accepted i link dir here
  have accepted : ((link.channel dir).receive W link dir text).accepted <+: (link.channel dir).sealed := by
    unfold Channel.receive
    split
    · exact before
    · split
      next frame ok =>
        have next := sound.opened lawful here unforged ok
        obtain ⟨rest, eq⟩ := before
        rw [← eq, List.getElem?_append_right (Nat.le_refl _), Nat.sub_self] at next
        cases rest with
        | nil => cases next
        | cons first rest =>
            cases next
            exact ⟨rest, by rw [← eq, List.append_assoc]; rfl⟩
      next => exact before
  refine ⟨sound.setChannel_ids, fun signer message dir' mem inDomain => ?_, ?_⟩
  · exact (sound.released signer message dir' mem inDomain).setChannel here (sent ▸ List.prefix_rfl)
  · exact sound.setChannel_accepted (sent ▸ accepted)

theorem Step.sound (lawful : W.serde.Lawful) (sound : Sound W net) (step : Step W net net') : Sound W net' := by
  cases step with
  | connect node nonceN nonceC freshN freshC noCollision => exact sound.connect node nonceN nonceC freshC noCollision
  | sealFrame i link here dir room sign frame f text written sealed => exact sound.sealFrame here dir room frame f written
  | sign signer message other =>
      exact sound.release signer message fun dir inDomain => absurd inDomain (other dir)
  | deliver i link here dir text unforged => exact sound.deliver lawful here dir text unforged

theorem Reachable.sound (lawful : W.serde.Lawful) (reachable : Reachable W net) : Sound W net := by
  induction reachable with
  | start => exact ⟨nofun, nofun, nofun⟩
  | step before step ih => exact step.sound lawful ih

/-- In every session and direction, what the receiver accepted is the first of what its
    peer sealed there. -/
theorem accepted_prefix (lawful : W.serde.Lawful) (reachable : Reachable W net) (link : Link Payload)
    (mem : link ∈ net.links) (dir : Direction) : (link.channel dir).accepted <+: (link.channel dir).sealed := by
  obtain ⟨i, linked⟩ := List.mem_iff_getElem?.mp mem
  exact (reachable.sound lawful).accepted i link dir linked

/-! ## One goodbye -/

/-- What the frames of a small world carry: a goodbye has its reason. -/
def Carried : Kind → Type
  | .goodbye => String
  | _ => Empty

def goodbyeValue (reason : String) : Value := .object [("reason", .string reason), ("t", .string "goodbye")]

def goodbyeSig : String :=
  "MEUCIEozNB4yPrdSsvQ1c7OZI5lvtN4mpQ0Kmvh5hoNvMH5nAiEAtDk28kbMDcRPuyIJYtfl18ECU6WwYrepp3B4KsYz7oI="

def goodbyeEnvelope : Envelope := ⟨0, goodbyeValue "update", goodbyeSig⟩

def goodbyeFrame (reason : String) : Frame Carried := ⟨.goodbye, reason⟩

/-- Reads a frame from its canonical value. -/
def readGoodbye : Value → Except String (Frame Carried)
  | .object [(reason, .string r), (t, .string kind)] =>
      if reason = "reason" ∧ t = "t" ∧ kind = "goodbye" then .ok (goodbyeFrame r) else .error "unknown variant"
  | _ => .error "missing field"

def writeGoodbye : Frame Carried → Except String Value
  | ⟨.goodbye, reason⟩ => .ok (goodbyeValue reason)
  | _ => .error "no such frame"

@[irreducible] def goodbyeText : String := goodbyeEnvelope.render

def readEnvelope (text : String) : Except String Envelope :=
  if text = goodbyeText then .ok goodbyeEnvelope else .error "expected value"

def goodbyeSerde : Serde Carried := ⟨writeGoodbye, fun v => readGoodbye (canon v), readEnvelope⟩

theorem goodbyeSerde_fromStr : goodbyeSerde.fromStr = readEnvelope := rfl

theorem goodbyeValue_printed (reason : String) : (goodbyeValue reason).Printed := by
  simp [goodbyeValue, Value.Printed, Value.PrintedMembers]

theorem writeGoodbye_ok {frame : Frame Carried} {v : Value} (written : writeGoodbye frame = .ok v) :
    ∃ reason, frame = goodbyeFrame reason ∧ v = goodbyeValue reason := by
  unfold writeGoodbye at written
  split at written
  next reason =>
    cases written
    exact ⟨reason, rfl, rfl⟩
  · cases written

theorem canon_goodbyeValue (reason : String) : canon (goodbyeValue reason) = goodbyeValue reason := by
  have sorted : sortKeys [("reason", Value.string reason), ("t", .string "goodbye")] =
      [("reason", .string reason), ("t", .string "goodbye")] :=
    List.mergeSort_of_pairwise (by simp [(by decide : "reason" ≤ "t")])
  rw [goodbyeValue, canon]
  exact congrArg Value.object sorted

theorem goodbyeSerde_lawful : goodbyeSerde.Lawful where
  written frame v written := by
    obtain ⟨reason, -, rfl⟩ := writeGoodbye_ok written
    exact goodbyeValue_printed reason
  parsed text env parsed := by
    rw [goodbyeSerde_fromStr, readEnvelope] at parsed
    split at parsed
    · rw [← Except.ok.inj parsed]
      exact ⟨Nat.two_pow_pos 64, goodbyeValue_printed "update"⟩
    · exact nomatch parsed
  ordered v w frame same read := by
    change readGoodbye (canon w) = .ok frame
    rw [← same]
    exact read
  roundTrip frame v frame' written read := by
    obtain ⟨reason, rfl, rfl⟩ := writeGoodbye_ok written
    change readGoodbye (canon (goodbyeValue reason)) = .ok frame' at read
    rw [canon_goodbyeValue] at read
    cases read
    rfl

def nodeSpki : List UInt8 :=
  [0x30, 0x59, 0x30, 0x13, 0x06, 0x07, 0x2a, 0x86, 0x48, 0xce, 0x3d, 0x02, 0x01, 0x06, 0x08, 0x2a,
    0x86, 0x48, 0xce, 0x3d, 0x03, 0x01, 0x07, 0x03, 0x42, 0x00, 0x04, 0xf9, 0x47, 0xf0, 0xe1, 0xad,
    0x83, 0x98, 0x1c, 0xf5, 0x95, 0xe2, 0x55, 0xef, 0xf8, 0x15, 0x3e, 0xac, 0x80, 0x21, 0x26, 0xda,
    0x56, 0x79, 0xe3, 0x08, 0xb9, 0x3e, 0x42, 0xcf, 0xae, 0x3a, 0x52, 0x10, 0xe5, 0x9f, 0xce, 0x34,
    0xcf, 0xed, 0x5b, 0xe2, 0x29, 0x01, 0x3f, 0xc0, 0xcd, 0x5f, 0xad, 0xe1, 0x71, 0x88, 0xcb, 0xa0,
    0xe5, 0x31, 0x0f, 0xf8, 0x6b, 0xef, 0x57, 0xed, 0xdf, 0x7e, 0x46]

def goodbyeDer : List UInt8 :=
  [0x30, 0x45, 0x02, 0x20, 0x4a, 0x33, 0x34, 0x1e, 0x32, 0x3e, 0xb7, 0x52, 0xb2, 0xf4, 0x35, 0x73,
    0xb3, 0x99, 0x23, 0x99, 0x6f, 0xb4, 0xde, 0x26, 0xa5, 0x0d, 0x0a, 0x9a, 0xf8, 0x79, 0x86, 0x83,
    0x6f, 0x30, 0x7e, 0x67, 0x02, 0x21, 0x00, 0xb4, 0x39, 0x36, 0xf2, 0x46, 0xcc, 0x0d, 0xc4, 0x4f,
    0xbb, 0x22, 0x09, 0x62, 0xd7, 0xe5, 0xd7, 0xc1, 0x02, 0x53, 0xa5, 0xb0, 0x62, 0xb7, 0xa9, 0xa7,
    0x70, 0x78, 0x2a, 0xc6, 0x33, 0xee, 0x82]

def nonceN : Nonce := ⟨"Gxax31OLoS3D+X7buFyqcFDUbBSBNCkP66gPgjbIPbk=", by decide⟩
def nonceC : Nonce := ⟨"Ln0sA6lQeuJl7PW1NWiFpTOTogKdJBOUmXJloaJa78Y=", by decide⟩

/-- The message of the node's first frame. -/
def goodbyeMessage : List UInt8 :=
  signedBytes domainFrameN2c (frameParts "d6d832844ccf018b4a7959fc1ab2956003dc88024cdfe62db572e3a9494e4d61" 0
    (goodbyeValue "update"))

/-- The digest of the one session's nonces, and the node's signature of its goodbye. -/
def goodbyeCrypto : Crypto where
  sha256 bytes :=
    if bytes = signedBytes domainSession [utf8 nonceN.text, utf8 nonceC.text] then
      ⟨#[0xd6, 0xd8, 0x32, 0x84, 0x4c, 0xcf, 0x01, 0x8b, 0x4a, 0x79, 0x59, 0xfc, 0x1a, 0xb2, 0x95, 0x60,
        0x03, 0xdc, 0x88, 0x02, 0x4c, 0xdf, 0xe6, 0x2d, 0xb5, 0x72, 0xe3, 0xa9, 0x49, 0x4e, 0x4d, 0x61], rfl⟩
    else .replicate 32 0
  unb64 s := if s = goodbyeSig then some goodbyeDer else none
  verify point message sig := point = nodeSpki.drop 26 ∧ message = goodbyeMessage ∧ sig = goodbyeDer

def goodbyeWorld : World Carried := ⟨goodbyeCrypto, goodbyeSerde, fun _ => nodeSpki⟩

theorem goodbye_session : (Link.opened 7 nonceN nonceC : Link Carried).session goodbyeCrypto =
    "d6d832844ccf018b4a7959fc1ab2956003dc88024cdfe62db572e3a9494e4d61" := by
  decide +kernel

theorem goodbye_sealed : sealFrame goodbyeSerde (fun _ => .ok goodbyeSig) .nodeToController
    "d6d832844ccf018b4a7959fc1ab2956003dc88024cdfe62db572e3a9494e4d61" 0 (goodbyeFrame "update") = .ok goodbyeText := by
  decide +kernel

theorem goodbye_verified : verifyDomain goodbyeCrypto nodeSpki Direction.nodeToController.domain
    (frameParts "d6d832844ccf018b4a7959fc1ab2956003dc88024cdfe62db572e3a9494e4d61" 0 (goodbyeValue "update"))
      goodbyeSig = true := by
  have point : p256PointFromSpki nodeSpki = some (nodeSpki.drop 26) := by decide
  have sig : goodbyeCrypto.unb64 goodbyeSig = some goodbyeDer := by simp only [goodbyeCrypto, if_true]
  rw [verifyDomain, point, sig]
  exact decide_eq_true ⟨rfl, rfl, rfl⟩

theorem goodbye_opened : openFrame goodbyeCrypto goodbyeSerde nodeSpki .nodeToController
    "d6d832844ccf018b4a7959fc1ab2956003dc88024cdfe62db572e3a9494e4d61" 0 goodbyeText = .ok (goodbyeFrame "update") := by
  have small : ¬ Text.byteLen goodbyeText > maxFrameBytes := by decide +kernel
  have parsed : goodbyeSerde.fromStr goodbyeText = .ok goodbyeEnvelope := by
    rw [goodbyeSerde_fromStr, readEnvelope, if_pos rfl]
  have verified : verifyDomain goodbyeCrypto nodeSpki Direction.nodeToController.domain
      (frameParts "d6d832844ccf018b4a7959fc1ab2956003dc88024cdfe62db572e3a9494e4d61" goodbyeEnvelope.s goodbyeEnvelope.f)
        goodbyeEnvelope.g = true := goodbye_verified
  have read : goodbyeSerde.fromValue goodbyeEnvelope.f = .ok (goodbyeFrame "update") := by
    change readGoodbye (canon (goodbyeValue "update")) = _
    rw [canon_goodbyeValue]
    rfl
  rw [openFrame, if_neg small]
  simp only [parsed, verified, read]
  rfl

theorem goodbye_received (link : Link Carried) (session : link.session goodbyeCrypto =
      "d6d832844ccf018b4a7959fc1ab2956003dc88024cdfe62db572e3a9494e4d61") (sealed : List (Frame Carried)) :
    Channel.receive goodbyeWorld ⟨sealed, [], false⟩ link .nodeToController goodbyeText =
      ⟨sealed, [goodbyeFrame "update"], false⟩ := by
  have opened : openFrame goodbyeWorld.crypto goodbyeWorld.serde (goodbyeWorld.spki (link.signer .nodeToController))
      .nodeToController (link.session goodbyeWorld.crypto) 0 goodbyeText = .ok (goodbyeFrame "update") :=
    session ▸ goodbye_opened
  simp only [Channel.receive, Bool.false_eq_true, if_false, List.length_nil, opened, List.nil_append]

theorem goodbye_arrives : ∃ net : Net Carried, Reachable goodbyeWorld net ∧ ∃ link ∈ net.links,
    (link.channel .nodeToController).accepted = [goodbyeFrame "update"] := by
  let link : Link Carried := .opened 7 nonceN nonceC
  let sealed := link.setChannel .nodeToController ⟨[goodbyeFrame "update"], [], false⟩
  have connected : Reachable goodbyeWorld ⟨[link], fun _ => []⟩ := .step .start (.connect 7 nonceN nonceC nofun nofun nofun)
  have session : link.session goodbyeWorld.crypto = "d6d832844ccf018b4a7959fc1ab2956003dc88024cdfe62db572e3a9494e4d61" :=
    goodbye_session
  have sent := connected.step (.sealFrame 0 link rfl .nodeToController (Nat.two_pow_pos 64)
    (fun _ => .ok goodbyeSig) (goodbyeFrame "update") (goodbyeValue "update") goodbyeText rfl (session ▸ goodbye_sealed))
  have arrived := sent.step (.deliver 0 sealed rfl .nodeToController goodbyeText fun env parsed verified => by
    change goodbyeSerde.fromStr goodbyeText = .ok env at parsed
    rw [goodbyeSerde_fromStr, readEnvelope, if_pos rfl] at parsed
    rw [← Except.ok.inj parsed]
    exact List.mem_cons_self ..)
  have received := goodbye_received sealed goodbye_session [goodbyeFrame "update"]
  refine ⟨_, arrived, sealed.setChannel .nodeToController ⟨[goodbyeFrame "update"], [goodbyeFrame "update"], false⟩, ?_, rfl⟩
  rw [← received]
  exact List.mem_singleton_self _

theorem accepted_prefix_goodbye : ∃ net : Net Carried, ∃ link ∈ net.links,
    (link.channel .nodeToController).accepted = [goodbyeFrame "update"] ∧
      (link.channel .nodeToController).accepted <+: (link.channel .nodeToController).sealed := by
  obtain ⟨net, reachable, link, mem, arrived⟩ := goodbye_arrives
  exact ⟨net, link, mem, arrived, accepted_prefix goodbyeSerde_lawful reachable link mem .nodeToController⟩

end K2.NodeProto
