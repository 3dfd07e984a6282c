import K2.Federation.Outbox

/-! # One server's messages to another

A sender and a recipient, and the dials between them. Sends and drains run beside
each other at the sender; at the recipient several requests are handled at once,
and a delivery takes its time. A dial may be given up while its request is still
on the way or in the handler, and either server may stop at any moment.
-/

namespace K2.Federation

def OUTBOUND_TTL : Nat := 8
def VAULT_KIND_PREFIX : String := "vault-"
def TRAY_SIGNAL_KIND : String := "inbox-tray"
def SEEN_PER_PEER_CAP : Nat := 512

/-! ## The recipient's handler -/

/-- The uuids handled to an end, by peer. -/
abbrev SeenStore := String → List Uuid

namespace SeenStore

def alreadySeen (seen : SeenStore) (peerFingerprint : String) (msgUuid : Uuid) : Bool := msgUuid ∈ seen peerFingerprint

def record (seen : SeenStore) (peerFingerprint : String) (msgUuid : Uuid) : SeenStore :=
  if peerFingerprint = "" ∨ msgUuid = "" then seen
  else Function.update seen peerFingerprint (Recent.remember SEEN_PER_PEER_CAP (seen peerFingerprint) msgUuid)

end SeenStore

/-- What the recipient's server holds and allows when a request arrives. -/
structure Site where
  now : Time
  store : Except String PeerStore
  localFp : String
  resolveProjectPathById : String → Option String
  acceptsInbound : String → String → String → Bool
  remoteInstructAllowed : String → Bool

/-- `{:?}` of an address. -/
def AgentAddress.debug : AgentAddress → String
  | .agent id name => "Agent \x7b workspace: WorkspaceId(" ++ id.quote ++ "), name: " ++ name.quote ++ " \x7d"
  | .workspace id => "Workspace \x7b workspace: WorkspaceId(" ++ id.quote ++ ") \x7d"
  | .broadcast => "Broadcast"

def wrongRouteResponse : Reply :=
  .json 400 (.object [("code", .string "wrong_route"),
    ("error", .string "wrong_route: vault handoffs go to /cli/federation/vault-handoff, never to a chat")])

def unknownAgentResponse : Reply :=
  .json 404 (.object [("code", .string "unknown_agent"),
    ("error", .string "unknown_agent: no agent by that name at that address on this server")])

def ingressReject (e : IngressError) : Reply :=
  match e with
  | .unknownPeer | .notTrusted | .capabilityDenied => .jsonErr 403 e.text
  | .decode _ | .badSignature => .jsonErr 400 e.text
  | .replay | .skewTooLarge _ | .ttlExpired | .loopDetected => .jsonErr 409 e.text

def duplicateResponse (msgUuid : Uuid) : Reply := .jsonErr 409 ("duplicate message (already delivered): " ++ msgUuid)

def declinedResponse (signalId : String) : Reply :=
  .okJson (.object [("delivered", .bool false), ("mode", .string "declined"), ("reason", .string "remote_instruction_disabled"),
    ("signal_id", .string signalId)])

/-- The answer to a live delivery; `reason` is the delivery's own. -/
def liveResponse (success : Bool) (reason : Option String) (signalId : String) : Reply :=
  .okJson (.object [("delivered", .bool success), ("mode", .string "live"),
    ("result", .object [("reason", reason.elim .null .string), ("success", .bool success)]), ("signal_id", .string signalId)])

/-- The answer to a tray package that landed. -/
def trayResponse (signalId : String) : Reply :=
  .okJson (.object [("delivered", .bool true), ("mode", .string "inbox"), ("ok", .bool true), ("signal_id", .string signalId)])

/-- What `handle_inbound` comes to before a delivery. -/
inductive Verdict where
  | answer (reply : Reply)
  | decline
  | deliver (tray : Bool)
  deriving Repr

def SignalKind.customKind : SignalKind → Option String
  | .custom kind _ => some kind
  | _ => none

/-- `handle_inbound` behind the gate. -/
def route (site : Site) (seen : SeenStore) (ingested : Ingested) : Verdict :=
  if (ingested.signal.kind.customKind.map (Text.startsWith · VAULT_KIND_PREFIX)).getD false then .answer wrongRouteResponse
  else if seen.alreadySeen ingested.peerFingerprint ingested.msgUuid then .answer (duplicateResponse ingested.msgUuid)
  else match ingested.signal.addressee with
    | .agent wsId toName =>
        match site.resolveProjectPathById wsId with
        | none => .answer unknownAgentResponse
        | some projectPath =>
            if !site.acceptsInbound wsId projectPath toName then .answer unknownAgentResponse
            else if ingested.signal.kind.customKind = some TRAY_SIGNAL_KIND then .deliver true
            else if site.remoteInstructAllowed projectPath then .deliver false
            else .decline
    | other => .answer (.jsonErr 400 ("inbound signal is not addressed to an agent: " ++ other.debug))

/-- How a delivery ended. -/
inductive Landing where
  | landed
  /-- The chat could not be reached. -/
  | undelivered (reason : String)
  /-- The tray package does not decode, or could not be written. -/
  | badPackage (e : String)
  | notWritten (e : String)
  deriving DecidableEq, Repr

/-! ## The two servers -/

/-- Where a dial's request stands at the recipient. -/
inductive Stage where
  | onWay
  | handling (ingested : Ingested) (tray : Bool)
  /-- In the chat or the inbox, and not remembered as handled. -/
  | driven (ingested : Ingested) (tray : Bool)
  | answered (reply : Reply)
  | lost

/-- One request; `asked` while a `handle_send` waits for its answer. -/
structure Dial where
  envelope : FederationEnvelope
  stage : Stage
  asked : Bool

/-- A running `drain_peer`: the items to go, and which dial it waits for, that of the first. -/
structure Drain where
  items : Queue
  waiting : Option Nat
  delivered : Nat
  deadLettered : Nat
  total : Nat

/-- What became of a message at the sender. -/
inductive Outcome where
  | delivered
  | deadLettered (reason : String)
  | evicted
  /-- A direct dial was answered `delivered: false`, and the caller told so. -/
  | declined (reason : String)
  deriving DecidableEq, Repr

inductive Effect where
  | driven
  | declined
  deriving DecidableEq, Repr

structure World where
  queue : Queue
  dead : List DeadLetter
  /-- Sends that have enqueued and not yet looked at the queue. -/
  asking : List FederationEnvelope
  drain : Option Drain
  consecutiveFailures : Nat
  dials : List Dial
  nonces : NonceCache
  seen : SeenStore
  /-- What was sent and came of it: no server keeps these. -/
  sent : List (Uuid × Time)
  outcomes : List (Uuid × Outcome)
  effects : List (Uuid × Effect)

def World.start : World where
  queue := []
  dead := []
  asking := []
  drain := none
  consecutiveFailures := 0
  dials := []
  nonces := NonceCache.new
  seen := fun _ => []
  sent := []
  outcomes := []
  effects := []

/-- Whether a drain may dial its peer. -/
inductive Availability where
  | dialable
  | unavailable
  | airgap
  deriving DecidableEq, Repr

inductive Event where
  /-- `handle_send` up to its enqueue, and from there to its dial. -/
  | send (signal : AgentSignal) (msgUuid nonce : Uuid) (now : Time)
  | look (i : Nat)
  /-- `drain_peer` up to its first item, the dial of an item (nothing when the key does not load). -/
  | drain (peer : Availability)
  | dial (fresh : Option (Uuid × Time))
  /-- The caller of a dial takes its answer, its body read or not, or gives it up. -/
  | hear (i : Nat) (bodyRead : Bool) (now : Time) (deadWritten : Bool)
  | giveUp (i : Nat)
  | prune (now : Time)
  | crash
  /-- The recipient's side. -/
  | lose (i : Nat)
  | refuse (i : Nat) (status : Nat) (error : String)
  | arrive (i : Nat) (site : Site)
  | land (i : Nat) (how : Landing)
  | record (i : Nat)
  /-- A save of the seen store failed, or overlapped others: what is left are some of those handled. -/
  | resave (left : SeenStore)
  | restart

namespace World

/-! ### The sender -/

/-- `outbox::enqueue`. -/
def enqueue (w : World) (e : FederationEnvelope) : World :=
  let (queue, evicted) := w.queue.enqueue e
  { w with queue := queue, outcomes := w.outcomes ++ evicted.map fun g => (g.msgUuid, .evicted) }

/-- The file leaves the queue. -/
def settle (w : World) (u : Uuid) (outcome : Outcome) : World :=
  { w with queue := w.queue.remove u, outcomes := w.outcomes ++ [(u, outcome)] }

/-- `outbox::dead_letter`, or the plain removal where the letter cannot be written. -/
def deadLetter (w : World) (item : FederationEnvelope) (reason : String) (now : Time) (written : Bool) : World :=
  let w := w.settle item.msgUuid (.deadLettered reason)
  if written then { w with dead := addDead w.dead ⟨item.msgUuid, reason, now, item⟩ } else w

def recordFailure (w : World) : World := { w with consecutiveFailures := w.consecutiveFailures + 1, drain := none }

/-- The drain's first item came to an end. -/
def advance (w : World) (d : Drain) (items : Queue) : World :=
  if items = [] then { w with drain := none, consecutiveFailures := 0 }
  else { w with drain := some { d with items := items, waiting := none } }

def setDial (w : World) (i : Nat) (d : Dial) : World := { w with dials := w.dials.set i d }

def noneAsks (w : World) (i : Nat) : World := { w with dials := w.dials.modify i fun d => { d with asked := false } }

/-- `handle_send` on its dial's answer. -/
def sendHears (w : World) (e : FederationEnvelope) (reply : Reply) : World :=
  if !reply.success then w
  else if reply.delivered = some false then w.settle e.msgUuid (.declined ((reply.str "reason").getD "declined_by_peer"))
  else w.settle e.msgUuid .delivered

/-- `drain_peer` on its dial's answer. -/
def drainHears (w : World) (d : Drain) (reply : Reply) (now : Time) (deadWritten : Bool) : World :=
  match d.items with
  | [] => w
  | item :: items =>
      match classify reply with
      | .delivered => (w.settle item.msgUuid .delivered).advance { d with delivered := d.delivered + 1 } items
      | .deadLetter reason => (w.deadLetter item reason now deadWritten).advance { d with deadLettered := d.deadLettered + 1 } items
      | .retry _ => w.recordFailure

/-! ### The recipient -/

def remember (w : World) (ingested : Ingested) : World :=
  { w with seen := w.seen.record ingested.peerFingerprint ingested.msgUuid }

end World

variable (S : Signing) (myKey : KeyPair) (toSubdomain : String)

/-- A request reaches `handle_inbound`. -/
def World.arrive (w : World) (i : Nat) (d : Dial) (site : Site) : World :=
  match site.store with
  | .error e => w.setDial i { d with stage := .answered (.jsonErr 500 ("load peer store: " ++ e)) }
  | .ok store =>
      match ingest S (.ok d.envelope) store w.nonces site.localFp DEFAULT_SKEW_SECS site.now with
      | (.error e, _) => w.setDial i { d with stage := .answered (ingressReject e) }
      | (.ok ingested, nonces) =>
          let w := { w with nonces := nonces }
          match route site w.seen ingested with
          | .answer reply => w.setDial i { d with stage := .answered reply }
          | .deliver tray => w.setDial i { d with stage := .handling ingested tray }
          | .decline =>
              ({ w with effects := w.effects ++ [(ingested.msgUuid, Effect.declined)] }.remember ingested).setDial i
                { d with stage := .answered (declinedResponse ingested.signal.id) }

/-- A delivery ends. -/
def World.land (w : World) (i : Nat) (d : Dial) (ingested : Ingested) (tray : Bool) (how : Landing) : World :=
  match tray, how with
  | _, .landed => { w with effects := w.effects ++ [(ingested.msgUuid, Effect.driven)] }.setDial i { d with stage := .driven ingested tray }
  | false, .undelivered reason => w.setDial i { d with stage := .answered (liveResponse false (some reason) ingested.signal.id) }
  | true, .badPackage e => w.setDial i { d with stage := .answered (.jsonErr 400 e) }
  | true, .notWritten e => w.setDial i { d with stage := .answered (.jsonErr 500 ("tray inbox deliver: " ++ e)) }
  | _, _ => w

def World.next (w : World) : Event → World
  | .send signal msgUuid nonce now =>
      let e := sealSignal S myKey signal toSubdomain OUTBOUND_TTL msgUuid nonce now
      { w.enqueue e with asking := w.asking ++ [e], sent := w.sent ++ [(msgUuid, signal.time)] }
  | .look i =>
      match w.asking[i]? with
      | none => w
      | some e =>
          let w := { w with asking := w.asking.eraseIdx i }
          -- With others in the queue the drain takes this one too, in order.
          if (w.queue.filter (·.msgUuid ≠ e.msgUuid)).length > 0 then w
          else { w with dials := w.dials ++ [⟨e, .onWay, true⟩] }
  | .drain peer =>
      if w.drain.isSome || w.queue.isEmpty then w
      else match peer with
        | .unavailable => { w with consecutiveFailures := w.consecutiveFailures + 1 }
        | .airgap => w
        | .dialable => { w with drain := some ⟨w.queue.sortOldestFirst, none, 0, 0, w.queue.length⟩ }
  | .dial fresh =>
      match w.drain with
      | none => w
      | some d =>
          match d.waiting, d.items with
          | none, item :: _ =>
              match fresh.map fun f => reseal S myKey item f.1 f.2 with
              | some (.ok e) =>
                  { w.enqueue e with drain := some { d with waiting := some w.dials.length }, dials := w.dials ++ [⟨e, .onWay, false⟩] }
              | _ => w.recordFailure
          | _, _ => w
  | .hear i bodyRead now deadWritten =>
      match w.dials[i]? with
      | some ⟨e, .answered reply, asked⟩ =>
          let reply := if bodyRead then reply else reply.cut
          match w.drain.filter (·.waiting = some i) with
          | some d => w.drainHears d reply now deadWritten
          | none => if asked then (w.noneAsks i).sendHears e reply else w
      | _ => w
  | .giveUp i =>
      match w.drain.filter (·.waiting = some i) with
      | some _ => w.recordFailure
      | none => w.noneAsks i
  | .prune now => (w.queue.expired now).foldl (fun w e => w.deadLetter e expiredReason now true) w
  | .crash =>
      { w with asking := [], drain := none, consecutiveFailures := 0, dials := w.dials.map fun d => { d with asked := false } }
  | .lose i =>
      match w.dials[i]? with
      | some ⟨e, .onWay, asked⟩ => w.setDial i ⟨e, .lost, asked⟩
      | _ => w
  | .refuse i status error =>
      match w.dials[i]? with
      | some ⟨e, .onWay, asked⟩ => w.setDial i ⟨e, .answered (.jsonErr status error), asked⟩
      | _ => w
  | .arrive i site =>
      match w.dials[i]? with
      | some ⟨e, .onWay, asked⟩ => w.arrive S i ⟨e, .onWay, asked⟩ site
      | _ => w
  | .land i how =>
      match w.dials[i]? with
      | some ⟨e, .handling ingested tray, asked⟩ => w.land i ⟨e, .handling ingested tray, asked⟩ ingested tray how
      | _ => w
  | .record i =>
      match w.dials[i]? with
      | some ⟨e, .driven ingested tray, asked⟩ =>
          (w.remember ingested).setDial i
            ⟨e, .answered (if tray then trayResponse ingested.signal.id else liveResponse true none ingested.signal.id), asked⟩
      | _ => w
  | .resave left => { w with seen := fun fingerprint => (left fingerprint).filter fun u => w.effects.any (·.1 = u) }
  | .restart =>
      { w with nonces := NonceCache.new, dials := w.dials.map fun d => match d.stage with
          | .handling .. | .driven .. => { d with stage := .lost }
          | _ => d }

end K2.Federation
