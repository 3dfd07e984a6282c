import K2.Federation.Envelope
import Mathlib.Data.List.Sort

/-! # The durable outbox

Sealed envelopes wait for a peer in its directory, one file a message, and the
drain reads off a peer's answer what becomes of one. One peer's directory is
modelled; the peers' directories are apart.
-/

namespace K2.Federation

def MAX_QUEUED_PER_PEER : Nat := 500
def MAX_QUEUED_AGE_DAYS : Int := 7
def MAX_DEAD_PER_PEER : Nat := 200

namespace FederationEnvelope

def msgUuid (e : FederationEnvelope) : Uuid := e.payload.msgUuid

/-- The creation time of the message: the order key. -/
def signalAt (e : FederationEnvelope) : Time := e.payload.signal.time

end FederationEnvelope

/-- The envelopes queued for a peer. -/
abbrev Queue := List FederationEnvelope

/-- The order of `sort_oldest_first`. -/
def Older (a b : FederationEnvelope) : Prop :=
  a.signalAt < b.signalAt ∨ a.signalAt = b.signalAt ∧ a.msgUuid ≤ b.msgUuid

instance : DecidableRel Older := fun _ _ => inferInstanceAs (Decidable (_ ∨ _))

instance : Std.Total Older := ⟨fun a b => by
  rcases lt_trichotomy a.signalAt b.signalAt with before | same | after
  · exact .inl (.inl before)
  · rcases le_total a.msgUuid b.msgUuid with before | after
    · exact .inl (.inr ⟨same, before⟩)
    · exact .inr (.inr ⟨same.symm, after⟩)
  · exact .inr (.inl after)⟩

instance : IsTrans FederationEnvelope Older := ⟨fun a b c => by
  rintro (ab | ⟨ab, le⟩) (bc | ⟨bc, le'⟩)
  · exact .inl (ab.trans bc)
  · exact .inl (bc ▸ ab)
  · exact .inl (ab ▸ bc)
  · exact .inr ⟨ab.trans bc, le.trans le'⟩⟩

namespace Queue

def sortOldestFirst (queue : Queue) : Queue := queue.insertionSort Older

def remove (queue : Queue) (u : Uuid) : Queue := queue.filter (·.msgUuid ≠ u)

/-- The write of a file, which is named after the uuid: the one of that name is replaced. -/
def write (queue : Queue) (e : FederationEnvelope) : Queue := queue.filter (·.msgUuid ≠ e.msgUuid) ++ [e]

/-- The oldest beyond the cap are evicted. -/
def evicted (queue : Queue) : Queue := Bounded.excess Older MAX_QUEUED_PER_PEER queue

/-- The queue with `e` in it, and what was evicted for it. -/
def enqueue (queue : Queue) (e : FederationEnvelope) : Queue × Queue :=
  let queued := queue.write e
  (Bounded.keep Older (·.msgUuid) MAX_QUEUED_PER_PEER queued, queued.evicted)

/-- What `prune_expired` finds too old. -/
def expired (queue : Queue) (now : Time) : Queue :=
  queue.filter fun e => e.signalAt < now - MAX_QUEUED_AGE_DAYS * 86400 * 1000000000

variable {queue : Queue} {e x : FederationEnvelope} {u : Uuid}

@[simp] theorem mem_sortOldestFirst : x ∈ queue.sortOldestFirst ↔ x ∈ queue := List.mem_insertionSort Older

theorem mem_remove : x ∈ queue.remove u ↔ x ∈ queue ∧ x.msgUuid ≠ u := by simp [remove]

theorem mem_write : x ∈ queue.write e ↔ (x ∈ queue ∧ x.msgUuid ≠ e.msgUuid) ∨ x = e := by
  simp [write]

theorem mem_enqueue : x ∈ (queue.enqueue e).1 ↔ x ∈ queue.write e ∧ ∀ g ∈ (queue.enqueue e).2, g.msgUuid ≠ x.msgUuid := by
  simp only [enqueue, evicted]
  exact Bounded.mem_keep

/-- One file a message. -/
def Distinct (queue : Queue) : Prop := (queue.map (·.msgUuid)).Nodup

theorem Distinct.filter (distinct : queue.Distinct) (p : FederationEnvelope → Bool) : Queue.Distinct (queue.filter p) :=
  (List.filter_sublist.map _).nodup distinct

theorem Distinct.write (distinct : queue.Distinct) : (queue.write e).Distinct := by
  have others : Queue.Distinct (queue.filter (·.msgUuid ≠ e.msgUuid)) := distinct.filter _
  simp only [Distinct, Queue.write, List.map_append, List.map_cons, List.map_nil]
  apply List.Nodup.append others (by simp)
  simp only [List.disjoint_singleton, List.mem_map, List.mem_filter, decide_eq_true_eq, ne_eq]
  rintro ⟨x, ⟨-, other⟩, same⟩
  exact other same

end Queue

structure DeadLetter where
  msgUuid : Uuid
  reason : String
  deadAt : Time
  envelope : FederationEnvelope

def DeadLetter.Older (a b : DeadLetter) : Prop :=
  a.deadAt < b.deadAt ∨ a.deadAt = b.deadAt ∧ a.msgUuid ≤ b.msgUuid

instance : DecidableRel DeadLetter.Older := fun _ _ => inferInstanceAs (Decidable (_ ∨ _))

/-- The dead letters with one more, the oldest evicted beyond the cap. -/
def addDead (dead : List DeadLetter) (letter : DeadLetter) : List DeadLetter :=
  Bounded.keep DeadLetter.Older (·.msgUuid) MAX_DEAD_PER_PEER (dead.filter (·.msgUuid ≠ letter.msgUuid) ++ [letter])

def expiredReason : String := "expired: queued longer than 7 days without a successful delivery"

/-! ## Answers -/

/-- An HTTP answer: its status, its body, and the body as JSON (null where it is none). -/
structure Reply where
  status : Nat
  body : String
  parsed : Value
  deriving Repr

namespace Reply

def json (status : Nat) (v : Value) : Reply := ⟨status, String.ofList v.render, v⟩

def okJson (v : Value) : Reply := json 200 v

def jsonErr (status : Nat) (msg : String) : Reply := json status (.object [("error", .string msg)])

def success (r : Reply) : Bool := 200 ≤ r.status && r.status < 300

def delivered (r : Reply) : Option Bool := (r.parsed.get "delivered").bind Value.asBool

def str (r : Reply) (name : String) : Option String := (r.parsed.get name).bind Value.asStr

end Reply

inductive Disposition where
  | delivered
  | deadLetter (reason : String)
  | retry (why : String)
  deriving DecidableEq, Repr

def classify (r : Reply) : Disposition :=
  if r.success then
    if r.delivered = some false then
      if (r.str "mode").getD "" = "declined" then .deadLetter ("peer declined: " ++ (r.str "reason").getD "declined_by_peer")
      else
        let reason := (((r.parsed.get "result").bind (·.get "reason")).bind Value.asStr).getD "live delivery failed"
        .retry ("2xx but undelivered: " ++ reason)
    else .delivered
  else
    let err := (r.str "error").getD r.body
    if r.status = 409 ∧ (Text.contains err "replayed nonce" ∨ Text.contains err "duplicate message") then .delivered
    else if 400 ≤ r.status ∧ r.status < 500 then
      .deadLetter ("peer rejected: HTTP " ++ toString r.status ++ ": " ++ err)
    else .retry ("HTTP " ++ toString r.status ++ ": " ++ err)

/-- The answer's body was not read to its end (`resp.text().unwrap_or_default()`). -/
def Reply.cut (r : Reply) : Reply := ⟨r.status, "", .null⟩

end K2.Federation
