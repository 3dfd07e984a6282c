import K2.Federation.Accounted
import K2.JsonText

/-! # Delivered means handled

What the sender takes for a delivery, the recipient has handled.
-/

namespace K2.Federation

/-! ## What an answer may say -/

section Answers
variable {reply : Reply}

theorem classify_success (success : reply.success = true) (delivered : reply.delivered ≠ some false) : classify reply = .delivered := by
  simp [classify, success, delivered]

theorem classify_failed (failed : reply.success = false) (other : reply.status ≠ 409) : classify reply ≠ .delivered := by
  simp only [classify, failed, other, Bool.false_eq_true, if_false, false_and]
  split <;> simp

theorem classify_conflict {e : String} (replayed : Text.contains e "replayed nonce" = false)
    (duplicate : Text.contains e "duplicate message" = false) : classify (.jsonErr 409 e) ≠ .delivered := by
  have text : (Reply.jsonErr 409 e).str "error" = some e := rfl
  have failed : (Reply.jsonErr 409 e).success = false := rfl
  simp only [classify, failed, text, replayed, duplicate, Option.getD_some, Bool.false_eq_true, if_false, or_self, and_false]
  split <;> simp

theorem digits_plain {n : Nat} {c : Char} (letter : c.isDigit = false) : c ∉ (toString n).toList := fun mem => by
  simp [nat_digits mem] at letter

theorem classify_ingressReject {e : IngressError} (other : e ≠ .replay) : classify (ingressReject e) ≠ .delivered := by
  cases e with
  | replay => exact absurd rfl other
  | unknownPeer | notTrusted | capabilityDenied | decode | badSignature =>
      exact classify_failed rfl (by simp [ingressReject, Reply.jsonErr, Reply.json])
  | ttlExpired =>
      apply classify_conflict
      · exact Text.not_contains (c := 'y') (by decide) (by decide)
      · exact Text.not_contains (c := 'm') (by decide) (by decide)
  | loopDetected =>
      apply classify_conflict
      · exact Text.not_contains (c := 'y') (by decide) (by decide)
      · exact Text.not_contains (c := 'u') (by decide) (by decide)
  | skewTooLarge skew =>
      apply classify_conflict
      · apply Text.not_contains (c := 'y') (by decide)
        simp only [IngressError.text, String.toList_append, List.mem_append, not_or]
        exact ⟨⟨by decide, digits_plain (by decide)⟩, by decide⟩
      · apply Text.not_contains (c := 'u') (by decide)
        simp only [IngressError.text, String.toList_append, List.mem_append, not_or]
        exact ⟨⟨by decide, digits_plain (by decide)⟩, by decide⟩

theorem classify_liveResponse (reason : Option String) (signalId : String) :
    classify (liveResponse false reason signalId) ≠ .delivered := by
  have delivered : (liveResponse false reason signalId).delivered = some false := rfl
  have mode : (liveResponse false reason signalId).str "mode" = some "live" := rfl
  have success : (liveResponse false reason signalId).success = true := rfl
  simp [classify, success, delivered, mode]

end Answers

/-! ## Delivered means handled -/

/-- The draws of random uuids. -/
def Event.drawn : Event → List Uuid
  | .send _ msgUuid nonce _ => [msgUuid, nonce]
  | .dial (some fresh) => [fresh.1]
  | _ => []

/-- Answers are read to their end, and nothing before the handler answers for it. -/
def Event.Fair : Event → Prop
  | .hear _ bodyRead _ _ => bodyRead = true
  | .refuse _ status error => classify (.jsonErr status error) ≠ .delivered
  | _ => True

/-- What a dial's stage says of its message is so. -/
def Dial.Honest (handled : Uuid → Prop) (d : Dial) : Prop :=
  match d.stage with
  | .onWay | .lost => True
  | .handling ingested _ => ingested.msgUuid = d.envelope.msgUuid
  | .driven ingested _ => ingested.msgUuid = d.envelope.msgUuid ∧ handled d.envelope.msgUuid
  | .answered reply => classify reply = .delivered → handled d.envelope.msgUuid

theorem Dial.Honest.mono {handled handled' : Uuid → Prop} {d : Dial} (honest : d.Honest handled) (more : ∀ u, handled u → handled' u) :
    d.Honest handled' := by
  obtain ⟨e, stage, asked⟩ := d
  cases stage with
  | onWay | lost => trivial
  | handling ingested tray => exact honest
  | driven ingested tray => exact ⟨honest.1, more _ honest.2⟩
  | answered reply => exact more _ ∘ honest

namespace World

variable {S : Signing} {myKey : KeyPair} {toSubdomain : String} {w w' : World} {u : Uuid} {e : FederationEnvelope} {drawn : List Uuid}

def Handled (w : World) (u : Uuid) : Prop := ∃ effect, (u, effect) ∈ w.effects

def envelopes (w : World) : List FederationEnvelope := w.dials.map (·.envelope)

/-- The nonces that may still pass the gate are new to it, and every word of a delivery has one behind it. -/
structure Truthful (w : World) (drawn : List Uuid) : Prop where
  nonces : ((w.asking ++ w.envelopes).map (·.payload.nonce)).Nodup
  known : ∀ e ∈ w.asking ++ w.envelopes, e.payload.nonce ∈ drawn
  burnt : ∀ fingerprint, ∀ n ∈ w.nonces fingerprint, ∃ d ∈ w.dials, d.envelope.payload.nonce = n ∧ d.stage ≠ .onWay
  seen : ∀ fingerprint, ∀ u ∈ w.seen fingerprint, w.Handled u
  honest : ∀ d ∈ w.dials, d.Honest w.Handled
  waits : ∀ r ∈ w.drain, ∀ i ∈ r.waiting, ∃ e item items, w.envelopes[i]? = some e ∧ r.items = item :: items ∧ e.msgUuid = item.msgUuid
  delivered : ∀ u, (u, .delivered) ∈ w.outcomes → w.Handled u

theorem envelopes_setDial {i : Nat} {d d' : Dial} (found : w.dials[i]? = some d) (same : d'.envelope = d.envelope) :
    (w.setDial i d').envelopes = w.envelopes := by
  obtain ⟨inside, here⟩ := List.getElem?_eq_some_iff.mp found
  have inside' : i < (w.dials.map (·.envelope)).length := by simpa using inside
  have old : (w.dials.map (·.envelope))[i] = d.envelope := by simp [here]
  simp only [envelopes, setDial, List.map_set, same, ← old, List.set_getElem_self]

/-- The sender drew a fresh nonce, or none: what it does with its calls and its queue. -/
theorem Truthful.at_sender (truthful : w.Truthful drawn) (same : w.RecipientSame w') {more : List Uuid}
    (nonces : ((w'.asking ++ w'.envelopes).map (·.payload.nonce)).Nodup)
    (known : ∀ e ∈ w'.asking ++ w'.envelopes, e.payload.nonce ∈ drawn ++ more)
    (dials : ∀ d ∈ w.dials, ∃ d' ∈ w'.dials, d'.envelope = d.envelope ∧ d'.stage = d.stage)
    (back : ∀ d' ∈ w'.dials, d'.stage = .onWay ∨ ∃ d ∈ w.dials, d'.envelope = d.envelope ∧ d'.stage = d.stage)
    (waits : ∀ r ∈ w'.drain, ∀ i ∈ r.waiting, ∃ e item items, w'.envelopes[i]? = some e ∧ r.items = item :: items ∧ e.msgUuid = item.msgUuid)
    (delivered : ∀ u, (u, .delivered) ∈ w'.outcomes → w.Handled u) : w'.Truthful (drawn ++ more) := by
  have handled : w'.Handled = w.Handled := by
    funext u
    simp [Handled, same.effects]
  refine ⟨nonces, known, ?_, ?_, ?_, waits, fun u mem => handled ▸ delivered u mem⟩
  · intro fingerprint n mem
    obtain ⟨d, here, rfl, arrived⟩ := truthful.burnt fingerprint n (same.nonces ▸ mem)
    obtain ⟨d', there, envelope, stage⟩ := dials d here
    exact ⟨d', there, by rw [envelope], stage ▸ arrived⟩
  · rw [handled, same.seen]
    exact truthful.seen
  · intro d' mem
    rcases back d' mem with fresh | ⟨d, here, envelope, stage⟩
    · simp [Dial.Honest, fresh]
    · have := truthful.honest d here
      rw [handled]
      simpa [Dial.Honest, envelope, stage] using this

@[simp] theorem enqueue_asking : (w.enqueue e).asking = w.asking := rfl

@[simp] theorem delivered_enqueue : (u, Outcome.delivered) ∈ (w.enqueue e).outcomes ↔ (u, Outcome.delivered) ∈ w.outcomes := by
  simp [enqueue]

@[simp] theorem delivered_expire (items : Queue) (now : Time) :
    (u, Outcome.delivered) ∈ (items.foldl (fun w e => w.deadLetter e expiredReason now true) w).outcomes ↔ (u, Outcome.delivered) ∈ w.outcomes := by
  induction items generalizing w with
  | nil => rfl
  | cons e items ih => simp [ih]

theorem expire_calls (items : Queue) (now : Time) :
    let w' := items.foldl (fun w e => w.deadLetter e expiredReason now true) w
    w'.asking = w.asking ∧ w'.dials = w.dials ∧ w'.drain = w.drain ∧ w'.sent = w.sent := by
  induction items generalizing w with
  | nil => exact ⟨rfl, rfl, rfl, rfl⟩
  | cons e items ih => simpa using ih (w := w.deadLetter e expiredReason now true)

theorem Truthful.send (truthful : w.Truthful drawn) (signal : AgentSignal) (msgUuid nonce : Uuid) (now : Time) (fresh : nonce ∉ drawn) :
    (w.next S myKey toSubdomain (.send signal msgUuid nonce now)).Truthful (drawn ++ [msgUuid, nonce]) := by
  have new : nonce ∉ (w.asking ++ w.envelopes).map (·.payload.nonce) := by
    intro mem
    obtain ⟨e, old, same⟩ := List.mem_map.mp mem
    exact fresh (same ▸ truthful.known e old)
  apply truthful.at_sender (next_recipient (e := .send signal msgUuid nonce now) trivial)
  · have moved : (w.asking ++ [sealSignal S myKey signal toSubdomain OUTBOUND_TTL msgUuid nonce now] ++ w.envelopes).Perm
        (sealSignal S myKey signal toSubdomain OUTBOUND_TTL msgUuid nonce now :: (w.asking ++ w.envelopes)) := by
      simp
    exact (moved.map _).nodup_iff.mpr (List.nodup_cons.mpr ⟨new, truthful.nonces⟩)
  · intro e mem
    simp only [next, List.append_assoc, List.mem_append, List.mem_singleton] at mem
    rcases mem with old | rfl | old
    · exact List.mem_append_left _ (truthful.known e (List.mem_append_left _ old))
    · simp [sealSignal, signed]
    · exact List.mem_append_left _ (truthful.known e (List.mem_append_right _ old))
  · exact fun d mem => ⟨d, mem, rfl, rfl⟩
  · exact fun d mem => .inr ⟨d, mem, rfl, rfl⟩
  · exact truthful.waits
  · intro u mem
    exact truthful.delivered u (delivered_enqueue.mp mem)

theorem Truthful.look (truthful : w.Truthful drawn) (i : Nat) : (w.next S myKey toSubdomain (.look i)).Truthful (drawn ++ []) := by
  have same : w.RecipientSame (w.next S myKey toSubdomain (.look i)) := next_recipient trivial
  cases found : w.asking[i]? with
  | none => simpa [next, found] using truthful
  | some e =>
      obtain ⟨inside, here⟩ := List.getElem?_eq_some_iff.mp found
      have taken : (e :: w.asking.eraseIdx i).Perm w.asking := here ▸ List.getElem_cons_eraseIdx_perm inside
      simp only [next, found] at same ⊢
      split
      · rename_i others
        simp only [others, if_true] at same
        apply truthful.at_sender same
        · exact ((List.Sublist.append_right (List.eraseIdx_sublist ..) _).map _).nodup truthful.nonces
        · intro x mem
          refine List.mem_append_left _ (truthful.known x ?_)
          rcases List.mem_append.mp mem with left | right
          · exact List.mem_append_left _ (List.mem_of_mem_eraseIdx left)
          · exact List.mem_append_right _ right
        · exact fun d mem => ⟨d, mem, rfl, rfl⟩
        · exact fun d mem => .inr ⟨d, mem, rfl, rfl⟩
        · exact truthful.waits
        · exact truthful.delivered
      · rename_i alone
        simp only [alone, if_false] at same
        have moved : (w.asking.eraseIdx i ++ (w.envelopes ++ [e])).Perm (w.asking ++ w.envelopes) := by
          rw [← List.append_assoc]
          refine (List.perm_append_comm).trans ?_
          exact (List.Perm.append_right w.envelopes taken)
        apply truthful.at_sender same
        · simp only [envelopes, List.map_append, List.map_cons, List.map_nil]
          simpa [envelopes] using (moved.map _).nodup_iff.mpr truthful.nonces
        · intro x mem
          refine List.mem_append_left _ (truthful.known x (moved.mem_iff.mp ?_))
          simpa [envelopes] using mem
        · exact fun d mem => ⟨d, List.mem_append_left _ mem, rfl, rfl⟩
        · intro d mem
          rcases List.mem_append.mp mem with old | new
          · exact .inr ⟨d, old, rfl, rfl⟩
          · exact .inl (List.mem_singleton.mp new ▸ rfl)
        · intro r mem i waiting
          obtain ⟨e, item, items, found, rest⟩ := truthful.waits r mem i waiting
          refine ⟨e, item, items, ?_, rest⟩
          simp only [envelopes, List.map_append] at found ⊢
          rw [List.getElem?_append_left (List.getElem?_eq_some_iff.mp found).1, found]
        · exact truthful.delivered

theorem envelopes_calls {dials : List Dial} {f : Dial → Dial} (same : ∀ d, (f d).envelope = d.envelope) :
    (dials.map f).map (·.envelope) = dials.map (·.envelope) := by simp [same]

/-- A step at the sender that dials nothing and draws nothing, over what it does to the drain. -/
theorem Truthful.at_rest (truthful : w.Truthful drawn) (same : w.RecipientSame w') (asking : w'.asking.Sublist w.asking)
    (dials : w'.dials.map (fun d => (d.envelope, d.stage)) = w.dials.map fun d => (d.envelope, d.stage))
    (waits : ∀ r ∈ w'.drain, ∀ i ∈ r.waiting, w.drain = some r)
    (delivered : ∀ u, (u, .delivered) ∈ w'.outcomes → w.Handled u) : w'.Truthful (drawn ++ []) := by
  have envelopes : w'.envelopes = w.envelopes := by
    simpa [World.envelopes, Function.comp_def] using congrArg (List.map Prod.fst) dials
  apply truthful.at_sender same
  · rw [envelopes]
    exact ((asking.append_right _).map _).nodup truthful.nonces
  · rw [envelopes]
    exact fun x mem => List.mem_append_left _ (truthful.known x ((asking.append_right _).subset mem))
  · intro d mem
    have pair : (d.envelope, d.stage) ∈ w'.dials.map fun d => (d.envelope, d.stage) := dials ▸ List.mem_map_of_mem mem
    obtain ⟨d', mem', eq⟩ := List.mem_map.mp pair
    exact ⟨d', mem', (Prod.mk.inj eq).1, (Prod.mk.inj eq).2⟩
  · intro d mem
    have pair : (d.envelope, d.stage) ∈ w.dials.map fun d => (d.envelope, d.stage) := dials ▸ List.mem_map_of_mem mem
    obtain ⟨d', mem', eq⟩ := List.mem_map.mp pair
    exact .inr ⟨d', mem', (Prod.mk.inj eq).1.symm, (Prod.mk.inj eq).2.symm⟩
  · rw [envelopes]
    exact fun r mem i waiting => truthful.waits r (waits r mem i waiting) i waiting
  · exact delivered

@[simp] theorem dials_noneAsks (i : Nat) :
    (w.noneAsks i).dials.map (fun d => (d.envelope, d.stage)) = w.dials.map fun d => (d.envelope, d.stage) := by
  apply List.ext_getElem? 
  intro j
  simp only [noneAsks, List.getElem?_map, List.getElem?_modify]
  cases w.dials[j]? <;> simp
  split <;> exact ⟨rfl, rfl⟩

theorem Truthful.dial (truthful : w.Truthful drawn) (fresh : Option (Uuid × Time)) (new : ∀ n ∈ (Event.dial fresh).drawn, n ∉ drawn) :
    (w.next S myKey toSubdomain (.dial fresh)).Truthful (drawn ++ (Event.dial fresh).drawn) := by
  have same : w.RecipientSame (w.next S myKey toSubdomain (.dial fresh)) := next_recipient trivial
  have more : w.Truthful (drawn ++ (Event.dial fresh).drawn) :=
    { truthful with known := fun e mem => List.mem_append_left _ (truthful.known e mem) }
  have failed : w.recordFailure.Truthful (drawn ++ (Event.dial fresh).drawn) :=
    { more with waits := by rintro r ⟨⟩ }
  cases running : w.drain with
  | none => simpa [next, running] using more
  | some r =>
      cases waiting : r.waiting with
      | some i => simpa [next, running, waiting] using more
      | none =>
          cases first : r.items with
          | nil => simpa [next, running, waiting, first] using more
          | cons item items =>
              cases fresh with
              | none => simpa [next, running, waiting, first] using failed
              | some draw =>
                  cases resealed : reseal S myKey item draw.1 draw.2 with
                  | error err => simpa [next, running, waiting, first, resealed] using failed
                  | ok e =>
                      have sealed : e = signed S myKey { item.payload with nonce := draw.1, time := draw.2 } := reseal_keeps S myKey resealed
                      have unused : draw.1 ∉ (w.asking ++ w.envelopes).map (·.payload.nonce) := by
                        intro mem
                        obtain ⟨x, old, same⟩ := List.mem_map.mp mem
                        exact new draw.1 (by simp [Event.drawn]) (same ▸ truthful.known x old)
                      simp only [next, running, waiting, first, resealed, Option.map_some] at same ⊢
                      apply truthful.at_sender same
                      · simp only [envelopes, List.map_append, List.map_cons, List.map_nil, ← List.append_assoc]
                        refine List.Nodup.append ?_ (by simp) ?_
                        · simpa [envelopes] using truthful.nonces
                        · simpa [sealed, signed, envelopes] using unused
                      · intro x mem
                        simp only [envelopes, List.map_append, List.map_cons, List.map_nil, ← List.append_assoc, List.mem_append,
                          List.mem_singleton] at mem
                        rcases mem with old | rfl
                        · exact List.mem_append_left _ (truthful.known x (by simpa [envelopes] using old))
                        · simp [sealed, signed, Event.drawn]
                      · exact fun d mem => ⟨d, List.mem_append_left _ mem, rfl, rfl⟩
                      · intro d mem
                        rcases List.mem_append.mp mem with old | fresh
                        · exact .inr ⟨d, old, rfl, rfl⟩
                        · exact .inl (List.mem_singleton.mp fresh ▸ rfl)
                      · rintro r' ⟨⟩ i ⟨⟩
                        exact ⟨e, item, items, by simp [envelopes], rfl, by rw [sealed]; rfl⟩
                      · exact fun u mem => truthful.delivered u (delivered_enqueue.mp mem)

theorem Truthful.drainHears (truthful : w.Truthful drawn) {r : Drain} {i : Nat} (running : w.drain = some r) (waiting : r.waiting = some i)
    {d : Dial} (found : w.dials[i]? = some d) {reply : Reply} (answered : d.stage = .answered reply) (now : Time) (written : Bool) :
    (w.drainHears r reply now written).Truthful (drawn ++ []) := by
  obtain ⟨e, item, items, here, first, uuid⟩ := truthful.waits r running i waiting
  have envelope : d.envelope = e := by simpa [envelopes, found] using here
  have handled : classify reply = .delivered → w.Handled item.msgUuid := by
    have honest := truthful.honest d (List.mem_of_getElem? found)
    rw [Dial.Honest, answered, envelope, uuid] at honest
    exact honest
  have same : w.RecipientSame (w.drainHears r reply now written) := recipientSame_drainHears
  have advanced {w : World} {r : Drain} {items : Queue} : ∀ r' ∈ (w.advance r items).drain, ∀ i ∈ r'.waiting, False := by
    unfold advance
    split <;> simp
  unfold World.drainHears at same ⊢
  simp only [first] at same ⊢
  cases said : classify reply with
  | delivered =>
      simp only [said] at same ⊢
      apply truthful.at_rest same (by simp [settle]) (by simp [settle]) fun r' mem i waits => (advanced r' mem i waits).elim
      intro u mem
      simp only [advance_outcomes, settle, List.mem_append, List.mem_singleton, Prod.mk.injEq] at mem
      rcases mem with old | ⟨rfl, -⟩
      · exact truthful.delivered u old
      · exact handled said
  | deadLetter reason =>
      simp only [said] at same ⊢
      apply truthful.at_rest same (by simp) (by simp) fun r' mem i waits => (advanced r' mem i waits).elim
      intro u mem
      exact truthful.delivered u (by simpa using mem)
  | retry why =>
      simp only [said] at same ⊢
      exact truthful.at_rest same (.refl _) rfl (by rintro r' ⟨⟩) truthful.delivered

theorem Truthful.noneAsks (truthful : w.Truthful drawn) (i : Nat) : (w.noneAsks i).Truthful (drawn ++ []) :=
  truthful.at_rest ⟨rfl, rfl, rfl⟩ (.refl _) (dials_noneAsks i) (fun _ mem _ _ => mem) truthful.delivered

theorem Truthful.sendHears (truthful : w.Truthful drawn) {reply : Reply} (handled : classify reply = .delivered → w.Handled e.msgUuid) :
    (w.sendHears e reply).Truthful (drawn ++ []) := by
  have same : w.RecipientSame (w.sendHears e reply) := recipientSame_sendHears
  unfold World.sendHears at same ⊢
  by_cases success : reply.success = true
  case neg => simpa [success] using truthful
  simp only [success, Bool.not_true, Bool.false_eq_true, if_false] at same ⊢
  split
  · rename_i declined
    simp only [declined, if_true] at same
    apply truthful.at_rest same (.refl _) rfl (fun _ mem _ _ => mem)
    intro u mem
    exact truthful.delivered u (by simpa [settle] using mem)
  · rename_i delivered
    simp only [delivered, if_false] at same
    apply truthful.at_rest same (.refl _) rfl (fun _ mem _ _ => mem)
    intro u mem
    simp only [settle, List.mem_append, List.mem_singleton, Prod.mk.injEq] at mem
    rcases mem with old | ⟨rfl, -⟩
    · exact truthful.delivered u old
    · exact handled (classify_success success delivered)

theorem Truthful.hear (truthful : w.Truthful drawn) (i : Nat) (now : Time) (written : Bool) :
    (w.next S myKey toSubdomain (.hear i true now written)).Truthful (drawn ++ []) := by
  simp only [next, if_true]
  split
  · rename_i e reply asked found
    split
    · rename_i r running
      obtain ⟨running, waiting⟩ := Option.filter_eq_some_iff.mp running
      exact truthful.drainHears running (by simpa using waiting) found rfl now written
    · split
      · have handled : classify reply = .delivered → w.Handled e.msgUuid := truthful.honest _ (List.mem_of_getElem? found)
        simpa using (truthful.noneAsks i).sendHears handled
      · simpa using truthful
  · simpa using truthful

theorem Truthful.sender (truthful : w.Truthful drawn) (event : Event) (here : event.AtSender) (fair : event.Fair)
    (fresh : ∀ n ∈ event.drawn, n ∉ drawn) : (w.next S myKey toSubdomain event).Truthful (drawn ++ event.drawn) := by
  have same : w.RecipientSame (w.next S myKey toSubdomain event) := next_recipient here
  cases event with
  | lose | refuse | arrive | land | record | resave | restart => exact absurd here id
  | send signal msgUuid nonce now => exact truthful.send signal msgUuid nonce now (fresh nonce (by simp [Event.drawn]))
  | look i => exact truthful.look i
  | dial draw => exact truthful.dial draw fresh
  | hear i bodyRead now written =>
      obtain rfl : bodyRead = true := fair
      exact truthful.hear i now written
  | drain peer =>
      simp only [next] at same ⊢
      split
      · simpa [Event.drawn] using truthful
      · rename_i idle
        simp only [idle] at same
        cases peer with
        | dialable => exact truthful.at_rest same (.refl _) rfl (by rintro r ⟨⟩ i ⟨⟩) truthful.delivered
        | unavailable => exact truthful.at_rest same (.refl _) rfl (fun _ mem _ _ => mem) truthful.delivered
        | airgap => simpa [Event.drawn] using truthful
  | giveUp i =>
      simp only [next] at same ⊢
      split
      · rename_i r running
        simp only [running] at same
        exact truthful.at_rest same (.refl _) rfl (by rintro r ⟨⟩) truthful.delivered
      · exact truthful.noneAsks i
  | prune now =>
      obtain ⟨asking, dials, drain, -⟩ := expire_calls (w := w) (w.queue.expired now) now
      refine truthful.at_rest same (asking ▸ .refl _) ?_ ?_ ?_
      · simp only [next, dials]
      · simp only [next, drain]
        exact fun _ mem _ _ => mem
      · intro u mem
        simp only [next, delivered_expire] at mem
        exact truthful.delivered u mem
  | crash =>
      refine truthful.at_rest same (List.nil_sublist _) ?_ (by rintro r ⟨⟩) truthful.delivered
      simp [next, Function.comp_def]

theorem Truthful.at_recipient (truthful : w.Truthful drawn) (same : w.SenderSame w') {i : Nat} {d d' : Dial} (found : w.dials[i]? = some d)
    (dials : w'.dials = w.dials.set i d') (envelope : d'.envelope = d.envelope) (arrived : d'.stage ≠ .onWay)
    (handled : ∀ u, w.Handled u → w'.Handled u)
    (burnt : ∀ fingerprint, ∀ n ∈ w'.nonces fingerprint, n ∈ w.nonces fingerprint ∨ n = d.envelope.payload.nonce)
    (seen : ∀ fingerprint, ∀ u ∈ w'.seen fingerprint, w'.Handled u) (honest : d'.Honest w'.Handled) : w'.Truthful drawn := by
  have envelopes : w'.envelopes = w.envelopes := by
    simpa [World.envelopes, dials, setDial] using envelopes_setDial found envelope
  have here : d' ∈ w'.dials := by
    rw [dials]
    exact List.mem_set (List.getElem?_eq_some_iff.mp found).1 d'
  refine ⟨?_, ?_, ?_, seen, ?_, ?_, fun u mem => handled u (truthful.delivered u (same.outcomes ▸ mem))⟩
  · rw [same.asking, envelopes]
    exact truthful.nonces
  · rw [same.asking, envelopes]
    exact truthful.known
  · intro fingerprint n mem
    rcases burnt fingerprint n mem with old | rfl
    · obtain ⟨x, there, rfl, gone⟩ := truthful.burnt fingerprint n old
      obtain ⟨j, there⟩ := List.mem_iff_getElem?.mp there
      by_cases moved : i = j
      · subst moved
        obtain rfl : d = x := Option.some.inj (found.symm.trans there)
        exact ⟨d', here, by rw [envelope], arrived⟩
      · refine ⟨x, List.mem_of_getElem? (i := j) ?_, rfl, gone⟩
        rw [dials, List.getElem?_set_ne moved, there]
    · exact ⟨d', here, by rw [envelope], arrived⟩
  · intro x mem
    rw [dials] at mem
    rcases List.mem_or_eq_of_mem_set mem with old | rfl
    · exact (truthful.honest x old).mono handled
    · exact honest
  · rw [same.drain, envelopes]
    exact truthful.waits

theorem mem_update_remember {memory : String → List Uuid} {fingerprint other : String} {cap : Nat} {n : Uuid}
    (mem : u ∈ Function.update memory fingerprint (Recent.remember cap (memory fingerprint) n) other) : u ∈ memory other ∨ u = n := by
  by_cases here : other = fingerprint
  · subst here
    simp only [Function.update_self, Recent.remember] at mem
    split at mem
    · exact .inl mem
    · rcases List.mem_append.mp (Recent.mem_rtake mem) with old | new
      · exact .inl old
      · exact .inr (List.mem_singleton.mp new)
  · rw [Function.update_of_ne here] at mem
    exact .inl mem

theorem seen_remember {ingested : Ingested} (seen : ∀ fingerprint, ∀ u ∈ w.seen fingerprint, w.Handled u) (handled : w.Handled ingested.msgUuid) :
    ∀ fingerprint, ∀ u ∈ (w.remember ingested).seen fingerprint, w.Handled u := by
  intro fingerprint u mem
  simp only [remember, SeenStore.record] at mem
  split at mem
  · exact seen fingerprint u mem
  · rcases mem_update_remember mem with old | rfl
    · exact seen fingerprint u old
    · exact handled

theorem route_answer {site : Site} {seen : SeenStore} {ingested : Ingested} {reply : Reply} (answer : route site seen ingested = .answer reply)
    (delivered : classify reply = .delivered) : ingested.msgUuid ∈ seen ingested.peerFingerprint := by
  unfold route at answer
  split at answer
  · obtain rfl := Verdict.answer.inj answer
    exact absurd delivered (classify_failed rfl (by decide))
  · split at answer
    · rename_i known
      simpa [SeenStore.alreadySeen] using known
    · split at answer
      · split at answer
        · obtain rfl := Verdict.answer.inj answer
          exact absurd delivered (classify_failed rfl (by decide))
        · split at answer
          · obtain rfl := Verdict.answer.inj answer
            exact absurd delivered (classify_failed rfl (by decide))
          · split at answer
            · cases answer
            · split at answer <;> cases answer
      · obtain rfl := Verdict.answer.inj answer
        exact absurd delivered (classify_failed rfl (by simp [Reply.jsonErr, Reply.json]))

theorem Truthful.arrive (truthful : w.Truthful drawn) {i : Nat} {e : FederationEnvelope} {asked : Bool}
    (found : w.dials[i]? = some ⟨e, .onWay, asked⟩)
    (site : Site) : (w.arrive S i ⟨e, .onWay, asked⟩ site).Truthful drawn := by
  have same : w.SenderSame (w.arrive S i ⟨e, .onWay, asked⟩ site) := senderSame_arrive
  have unburnt : ∀ fingerprint, e.payload.nonce ∉ w.nonces fingerprint := by
    intro fingerprint mem
    obtain ⟨d, there, nonce, gone⟩ := truthful.burnt fingerprint _ mem
    have distinct : (w.dials.map (·.envelope.payload.nonce)).Nodup := by
      have := (List.nodup_append.mp (List.map_append ▸ truthful.nonces)).2.1
      simpa [envelopes, Function.comp_def] using this
    have := List.inj_on_of_nodup_map distinct there (List.mem_of_getElem? found) nonce
    exact gone (this ▸ rfl)
  have refused {reply : Reply} (undelivered : classify reply ≠ .delivered) : (w.setDial i ⟨e, .answered reply, asked⟩).Truthful drawn :=
    truthful.at_recipient senderSame_setDial found rfl rfl (by simp) (fun _ => id) (fun _ _ => .inl) truthful.seen
      fun delivered => absurd delivered undelivered
  unfold World.arrive at same ⊢
  cases stored : site.store with
  | error _ => exact refused (classify_failed rfl (by simp [Reply.jsonErr, Reply.json]))
  | ok store =>
      simp only [stored] at same ⊢
      rcases ingest_cases S (.ok e) store w.nonces site.localFp DEFAULT_SKEW_SECS site.now with
        ⟨err, other, answer⟩ | ⟨envelope, ⟨⟩, -, ⟨replayed, -⟩ | ⟨-, taken⟩⟩
      · simp only [answer]
        exact refused (classify_ingressReject other)
      · exact absurd replayed (unburnt _)
      · simp only [taken] at same ⊢
        have burnt : ∀ fingerprint, ∀ n ∈ Function.update w.nonces e.payload.fromFingerprint
              (Recent.remember NONCE_LRU_CAP (w.nonces e.payload.fromFingerprint) e.payload.nonce) fingerprint,
            n ∈ w.nonces fingerprint ∨ n = e.payload.nonce := fun _ _ => mem_update_remember
        split
        · rename_i reply routed
          refine truthful.at_recipient ⟨rfl, rfl, rfl, rfl, rfl, rfl⟩ found rfl rfl (by simp) (fun _ => id) burnt truthful.seen ?_
          exact fun delivered => truthful.seen _ _ (route_answer routed delivered)
        · exact truthful.at_recipient ⟨rfl, rfl, rfl, rfl, rfl, rfl⟩ found rfl rfl (by simp) (fun _ => id) burnt truthful.seen rfl
        · refine truthful.at_recipient ⟨rfl, rfl, rfl, rfl, rfl, rfl⟩ found rfl rfl (by simp) ?_ burnt ?_ ?_
          · rintro u ⟨effect, mem⟩
            exact ⟨effect, List.mem_append_left _ mem⟩
          · apply seen_remember
            · rintro fingerprint u mem
              obtain ⟨effect, mem⟩ := truthful.seen fingerprint u mem
              exact ⟨effect, List.mem_append_left _ mem⟩
            · exact ⟨.declined, by simp⟩
          · exact fun _ => ⟨.declined, by simp [remember, setDial, FederationEnvelope.msgUuid]⟩

theorem Truthful.land (truthful : w.Truthful drawn) {i : Nat} {ingested : Ingested} {tray asked : Bool}
    (found : w.dials[i]? = some ⟨e, .handling ingested tray, asked⟩) (how : Landing) :
    (w.land i ⟨e, .handling ingested tray, asked⟩ ingested tray how).Truthful drawn := by
  have own : ingested.msgUuid = e.msgUuid := truthful.honest _ (List.mem_of_getElem? found)
  have refused {reply : Reply} (undelivered : classify reply ≠ .delivered) : (w.setDial i ⟨e, .answered reply, asked⟩).Truthful drawn :=
    truthful.at_recipient senderSame_setDial found rfl rfl (by simp) (fun _ => id) (fun _ _ => .inl) truthful.seen
      fun delivered => absurd delivered undelivered
  have more : ∀ u, w.Handled u → ({ w with effects := w.effects ++ [(ingested.msgUuid, Effect.driven)] } : World).Handled u := by
    rintro u ⟨effect, mem⟩
    exact ⟨effect, List.mem_append_left _ mem⟩
  unfold World.land
  split
  · refine truthful.at_recipient ⟨rfl, rfl, rfl, rfl, rfl, rfl⟩ found rfl rfl (by simp) more (fun _ _ => .inl) ?_ ?_
    · exact fun fingerprint u mem => more u (truthful.seen fingerprint u mem)
    · exact ⟨own, .driven, by simp [setDial, own]⟩
  · exact refused (classify_liveResponse _ _)
  · exact refused (classify_failed rfl (by simp [Reply.jsonErr, Reply.json]))
  · exact refused (classify_failed rfl (by simp [Reply.jsonErr, Reply.json]))
  · exact truthful

theorem Truthful.recipient (truthful : w.Truthful drawn) (event : Event) (away : ¬ event.AtSender) (fair : event.Fair) :
    (w.next S myKey toSubdomain event).Truthful drawn := by
  cases event with
  | send | look | drain | dial | hear | giveUp | prune | crash => exact absurd trivial away
  | lose i =>
      simp only [next]
      split
      · rename_i e asked found
        exact truthful.at_recipient senderSame_setDial found rfl rfl (by simp) (fun _ => id) (fun _ _ => .inl) truthful.seen trivial
      · exact truthful
  | refuse i status error =>
      simp only [next]
      split
      · rename_i e asked found
        exact truthful.at_recipient senderSame_setDial found rfl rfl (by simp) (fun _ => id) (fun _ _ => .inl) truthful.seen
          fun delivered => absurd delivered fair
      · exact truthful
  | arrive i site =>
      simp only [next]
      split
      · rename_i e asked found
        exact truthful.arrive found site
      · exact truthful
  | land i how =>
      simp only [next]
      split
      · rename_i e ingested tray asked found
        exact truthful.land found how
      · exact truthful
  | record i =>
      simp only [next]
      split
      · rename_i e ingested tray asked found
        obtain ⟨own, handled⟩ : ingested.msgUuid = e.msgUuid ∧ w.Handled e.msgUuid := truthful.honest _ (List.mem_of_getElem? found)
        refine truthful.at_recipient ⟨rfl, rfl, rfl, rfl, rfl, rfl⟩ found rfl rfl (by simp) (fun _ => id) (fun _ _ => .inl) ?_ fun _ => handled
        exact seen_remember truthful.seen (own ▸ handled)
      · exact truthful
  | resave left =>
      refine { truthful with seen := fun fingerprint u mem => ?_ }
      obtain ⟨-, known⟩ := List.mem_filter.mp mem
      have handled : w.Handled u := by simpa [Handled] using known
      exact handled
  | restart =>
      have envelopes : (w.next S myKey toSubdomain .restart).envelopes = w.envelopes := by
        simp only [next, World.envelopes]
        apply envelopes_calls
        intro d
        split <;> rfl
      refine ⟨?_, ?_, by simp [next, NonceCache.new], truthful.seen, ?_, ?_, truthful.delivered⟩
      · rw [envelopes]
        exact truthful.nonces
      · rw [envelopes]
        exact truthful.known
      · intro d mem
        obtain ⟨x, old, rfl⟩ := List.mem_map.mp mem
        have honest := truthful.honest x old
        obtain ⟨e, stage, asked⟩ := x
        cases stage with
        | handling | driven => trivial
        | onWay | lost => trivial
        | answered reply => exact honest
      · rw [envelopes]
        exact truthful.waits

theorem Truthful.next (truthful : w.Truthful drawn) (event : Event) (fair : event.Fair) (fresh : ∀ n ∈ event.drawn, n ∉ drawn) :
    (w.next S myKey toSubdomain event).Truthful (drawn ++ event.drawn) := by
  by_cases here : event.AtSender
  · exact truthful.sender event here fair fresh
  · have kept : (w.next S myKey toSubdomain event).Truthful drawn := truthful.recipient event here fair
    exact { kept with known := fun e mem => List.mem_append_left _ (kept.known e mem) }

theorem Truthful.run (truthful : w.Truthful drawn) (events : List Event) (fair : ∀ e ∈ events, e.Fair)
    (fresh : (drawn ++ events.flatMap Event.drawn).Nodup) :
    (Rounds.after (World.next S myKey toSubdomain) w events).Truthful (drawn ++ events.flatMap Event.drawn) := by
  induction events generalizing w drawn with
  | nil => simpa [Rounds.after] using truthful
  | cons e events ih =>
      simp only [List.flatMap_cons, ← List.append_assoc] at fresh ⊢
      have new : ∀ n ∈ e.drawn, n ∉ drawn := by
        have := (List.nodup_append.mp (List.nodup_append.mp fresh).1).2.2
        exact fun n mem old => this n old n mem rfl
      exact ih (truthful.next e (fair e List.mem_cons_self) new) (fun e mem => fair e (List.mem_cons_of_mem _ mem)) fresh

end World

namespace Sample

def myKey : KeyPair := ⟨"aa", fun _ => ""⟩
def signal (time : Time) : AgentSignal := ⟨"s", .broadcast, .agent "w" "bob", .msg "hi", time⟩
def one : Uuid := "1"
def two : Uuid := "2"
def three : Uuid := "3"
def site : Site where
  now := 0
  store := .ok [⟨"aa", "", .trusted, [CAP_INBOUND]⟩]
  localFp := "bb"
  resolveProjectPathById := fun _ => some "p"
  acceptsInbound := fun _ _ _ => true
  remoteInstructAllowed := fun _ => true

end Sample

end K2.Federation
