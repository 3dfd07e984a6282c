import K2.Federation.World

/-! # What becomes of a message

Every message that was sent is in the queue or has come to one of the drain's
ends, and an end that says delivered is one the recipient knows of.
-/

namespace K2.Federation

/-! ## The two sides of a step -/

/-- The sender's files and calls are as they were. -/
structure World.SenderSame (w w' : World) : Prop where
  queue : w'.queue = w.queue
  dead : w'.dead = w.dead
  asking : w'.asking = w.asking
  drain : w'.drain = w.drain
  sent : w'.sent = w.sent
  outcomes : w'.outcomes = w.outcomes

/-- What the recipient holds is as it was. -/
structure World.RecipientSame (w w' : World) : Prop where
  nonces : w'.nonces = w.nonces
  seen : w'.seen = w.seen
  effects : w'.effects = w.effects

def Event.AtSender : Event → Prop
  | .send .. | .look _ | .drain _ | .dial _ | .hear .. | .giveUp _ | .prune _ | .crash => True
  | _ => False

namespace World

variable {S : Signing} {myKey : KeyPair} {toSubdomain : String} {w : World}

theorem SenderSame.refl : w.SenderSame w := ⟨rfl, rfl, rfl, rfl, rfl, rfl⟩
theorem RecipientSame.refl : w.RecipientSame w := ⟨rfl, rfl, rfl⟩

@[simp] theorem senderSame_setDial {i : Nat} {d : Dial} : w.SenderSame (w.setDial i d) := ⟨rfl, rfl, rfl, rfl, rfl, rfl⟩

theorem senderSame_arrive {i : Nat} {d : Dial} {site : Site} : w.SenderSame (w.arrive S i d site) := by
  unfold arrive
  split
  · exact senderSame_setDial
  · split
    · exact senderSame_setDial
    · dsimp only
      split <;> exact ⟨rfl, rfl, rfl, rfl, rfl, rfl⟩

theorem senderSame_land {i : Nat} {d : Dial} {ingested : Ingested} {tray : Bool} {how : Landing} :
    w.SenderSame (w.land i d ingested tray how) := by
  unfold land
  split <;> exact ⟨rfl, rfl, rfl, rfl, rfl, rfl⟩

theorem next_sender {e : Event} (away : ¬ e.AtSender) : w.SenderSame (w.next S myKey toSubdomain e) := by
  cases e with
  | send | look | drain | dial | hear | giveUp | prune | crash => exact absurd trivial away
  | lose | refuse | record =>
      simp only [next]
      split
      · exact ⟨rfl, rfl, rfl, rfl, rfl, rfl⟩
      · exact .refl
  | arrive i site =>
      simp only [next]
      split
      · exact senderSame_arrive
      · exact .refl
  | land i how =>
      simp only [next]
      split
      · exact senderSame_land
      · exact .refl
  | resave | restart => exact ⟨rfl, rfl, rfl, rfl, rfl, rfl⟩

theorem recipientSame_sendHears {e : FederationEnvelope} {reply : Reply} : w.RecipientSame (w.sendHears e reply) := by
  unfold sendHears
  split
  · exact .refl
  · split <;> exact ⟨rfl, rfl, rfl⟩

theorem recipientSame_deadLetter {e : FederationEnvelope} {reason : String} {now : Time} {written : Bool} :
    w.RecipientSame (w.deadLetter e reason now written) := by
  unfold deadLetter
  split <;> exact ⟨rfl, rfl, rfl⟩

theorem recipientSame_settle {u : Uuid} {outcome : Outcome} : w.RecipientSame (w.settle u outcome) := ⟨rfl, rfl, rfl⟩

theorem recipientSame_advance {d : Drain} {items : Queue} : w.RecipientSame (w.advance d items) := by
  unfold advance
  split <;> exact ⟨rfl, rfl, rfl⟩

theorem RecipientSame.trans {w' w'' : World} (first : w.RecipientSame w') (later : w'.RecipientSame w'') : w.RecipientSame w'' :=
  ⟨later.nonces.trans first.nonces, later.seen.trans first.seen, later.effects.trans first.effects⟩

theorem recipientSame_drainHears {d : Drain} {reply : Reply} {now : Time} {written : Bool} :
    w.RecipientSame (w.drainHears d reply now written) := by
  unfold drainHears
  split
  · exact .refl
  · split
    · exact recipientSame_settle.trans recipientSame_advance
    · exact recipientSame_deadLetter.trans recipientSame_advance
    · exact ⟨rfl, rfl, rfl⟩

theorem recipientSame_expire (items : Queue) (now : Time) :
    w.RecipientSame (items.foldl (fun w e => w.deadLetter e expiredReason now true) w) := by
  induction items generalizing w with
  | nil => exact .refl
  | cons e items ih => exact recipientSame_deadLetter.trans ih

theorem next_recipient {e : Event} (here : e.AtSender) : w.RecipientSame (w.next S myKey toSubdomain e) := by
  cases e with
  | lose | refuse | arrive | land | record | resave | restart => exact absurd here id
  | send | crash => exact ⟨rfl, rfl, rfl⟩
  | look i =>
      simp only [next]
      split
      · exact .refl
      · split <;> exact ⟨rfl, rfl, rfl⟩
  | drain peer =>
      simp only [next]
      split
      · exact .refl
      · split <;> exact ⟨rfl, rfl, rfl⟩
  | dial fresh =>
      simp only [next]
      split
      · exact .refl
      · split
        · split <;> exact ⟨rfl, rfl, rfl⟩
        · exact .refl
  | hear i bodyRead now written =>
      simp only [next]
      split
      · split
        · exact recipientSame_drainHears
        · split
          · exact (⟨rfl, rfl, rfl⟩ : w.RecipientSame (w.noneAsks i)).trans recipientSame_sendHears
          · exact .refl
      · exact .refl
  | giveUp i =>
      simp only [next]
      split <;> exact ⟨rfl, rfl, rfl⟩
  | prune now => exact recipientSame_expire _ now

/-! ## Queued or at an end -/

def Queued (w : World) (u : Uuid) : Prop := ∃ e ∈ w.queue, e.msgUuid = u

def Settled (w : World) (u : Uuid) : Prop := ∃ outcome, (u, outcome) ∈ w.outcomes

def Held (w : World) (u : Uuid) : Prop := w.Queued u ∨ w.Settled u

/-- The queue has one file a message, and queue and dead letters stay within their caps. -/
structure Files (w : World) : Prop where
  queue : w.queue.Distinct
  queued : w.queue.length ≤ MAX_QUEUED_PER_PEER
  dead : (w.dead.map (·.msgUuid)).Nodup
  dead_length : w.dead.length ≤ MAX_DEAD_PER_PEER

variable {u : Uuid} {e : FederationEnvelope}

@[simp] theorem advance_queue {d : Drain} {items : Queue} : (w.advance d items).queue = w.queue := by unfold advance; split <;> rfl
@[simp] theorem advance_outcomes {d : Drain} {items : Queue} : (w.advance d items).outcomes = w.outcomes := by unfold advance; split <;> rfl
@[simp] theorem advance_sent {d : Drain} {items : Queue} : (w.advance d items).sent = w.sent := by unfold advance; split <;> rfl
@[simp] theorem advance_dead {d : Drain} {items : Queue} : (w.advance d items).dead = w.dead := by unfold advance; split <;> rfl
@[simp] theorem advance_dials {d : Drain} {items : Queue} : (w.advance d items).dials = w.dials := by unfold advance; split <;> rfl
@[simp] theorem advance_asking {d : Drain} {items : Queue} : (w.advance d items).asking = w.asking := by unfold advance; split <;> rfl

@[simp] theorem deadLetter_queue {reason : String} {now : Time} {written : Bool} :
    (w.deadLetter e reason now written).queue = w.queue.remove e.msgUuid := by unfold deadLetter; split <;> rfl
@[simp] theorem deadLetter_outcomes {reason : String} {now : Time} {written : Bool} :
    (w.deadLetter e reason now written).outcomes = w.outcomes ++ [(e.msgUuid, .deadLettered reason)] := by unfold deadLetter; split <;> rfl
@[simp] theorem deadLetter_sent {reason : String} {now : Time} {written : Bool} :
    (w.deadLetter e reason now written).sent = w.sent := by unfold deadLetter; split <;> rfl
@[simp] theorem deadLetter_dials {reason : String} {now : Time} {written : Bool} :
    (w.deadLetter e reason now written).dials = w.dials := by unfold deadLetter; split <;> rfl
@[simp] theorem deadLetter_asking {reason : String} {now : Time} {written : Bool} :
    (w.deadLetter e reason now written).asking = w.asking := by unfold deadLetter; split <;> rfl
@[simp] theorem deadLetter_drain {reason : String} {now : Time} {written : Bool} :
    (w.deadLetter e reason now written).drain = w.drain := by unfold deadLetter; split <;> rfl

/-- What the mail of a step comes to: files leave the queue only for an end. -/
structure Keeps (w w' : World) : Prop where
  held : ∀ u, w.Held u → w'.Held u
  outcomes : w.outcomes <+: w'.outcomes
  files : w.Files → w'.Files

theorem Keeps.refl : w.Keeps w := ⟨fun _ => id, List.prefix_rfl, id⟩

theorem Keeps.trans {w' w'' : World} (first : w.Keeps w') (later : w'.Keeps w'') : w.Keeps w'' :=
  ⟨fun u => later.held u ∘ first.held u, first.outcomes.trans later.outcomes, later.files ∘ first.files⟩

theorem keeps_of_same {w' : World} (queue : w'.queue = w.queue) (dead : w'.dead = w.dead) (outcomes : w'.outcomes = w.outcomes) :
    w.Keeps w' := by
  refine ⟨fun u held => ?_, outcomes ▸ List.prefix_rfl, fun files => ?_⟩
  · simpa [Held, Queued, Settled, queue, outcomes] using held
  · exact ⟨queue ▸ files.queue, queue ▸ files.queued, dead ▸ files.dead, dead ▸ files.dead_length⟩

theorem held_of_written (mem : ∃ x ∈ w.queue.write e, x.msgUuid = u) : (w.enqueue e).Held u := by
  obtain ⟨x, mem, rfl⟩ := mem
  by_cases gone : ∃ g ∈ (w.queue.enqueue e).2, g.msgUuid = x.msgUuid
  · obtain ⟨g, evicted, same⟩ := gone
    exact .inr ⟨.evicted, by simpa [enqueue] using .inr ⟨g, evicted, same⟩⟩
  · exact .inl ⟨x, Queue.mem_enqueue.mpr ⟨mem, fun g evicted same => gone ⟨g, evicted, same⟩⟩, rfl⟩

/-- The message just enqueued is in the queue, unless it was the oldest of too many. -/
theorem held_enqueue : (w.enqueue e).Held e.msgUuid := held_of_written ⟨e, Queue.mem_write.mpr (.inr rfl), rfl⟩

theorem keeps_enqueue : w.Keeps (w.enqueue e) := by
  refine ⟨fun u held => ?_, List.prefix_append .., fun files => ?_⟩
  · rcases held with ⟨x, mem, rfl⟩ | ⟨outcome, mem⟩
    · by_cases same : x.msgUuid = e.msgUuid
      · exact same ▸ held_enqueue
      · exact held_of_written ⟨x, Queue.mem_write.mpr (.inl ⟨mem, same⟩), rfl⟩
    · exact .inr ⟨outcome, List.mem_append_left _ mem⟩
  · exact ⟨Bounded.keep_distinct files.queue.write, Bounded.keep_length files.queue.write, files.dead, files.dead_length⟩

theorem keeps_settle {outcome : Outcome} : w.Keeps (w.settle u outcome) := by
  refine ⟨fun v held => ?_, List.prefix_append .., fun files => ?_⟩
  · by_cases same : v = u
    · exact .inr ⟨outcome, by simp [settle, same]⟩
    · rcases held with ⟨x, mem, rfl⟩ | ⟨before, mem⟩
      · exact .inl ⟨x, Queue.mem_remove.mpr ⟨mem, same⟩, rfl⟩
      · exact .inr ⟨before, List.mem_append_left _ mem⟩
  · exact ⟨files.queue.filter _, (List.length_filter_le ..).trans files.queued, files.dead, files.dead_length⟩

theorem keeps_deadLetter {reason : String} {now : Time} {written : Bool} : w.Keeps (w.deadLetter e reason now written) := by
  have settled : w.Keeps (w.settle e.msgUuid (.deadLettered reason)) := keeps_settle
  cases written with
  | false => exact settled
  | true =>
      refine ⟨settled.held, settled.outcomes, fun files => ?_⟩
      have others : ((w.dead.filter (·.msgUuid ≠ e.msgUuid) ++ [(⟨e.msgUuid, reason, now, e⟩ : DeadLetter)]).map DeadLetter.msgUuid).Nodup := by
        rw [List.map_append]
        apply ((List.filter_sublist.map _).nodup files.dead).append (by simp)
        simp
      exact ⟨(settled.files files).queue, (settled.files files).queued, Bounded.keep_distinct others, Bounded.keep_length others⟩

theorem keeps_advance {d : Drain} {items : Queue} : w.Keeps (w.advance d items) := keeps_of_same (by simp) (by simp) (by simp)

theorem keeps_expire (items : Queue) (now : Time) : w.Keeps (items.foldl (fun w e => w.deadLetter e expiredReason now true) w) := by
  induction items generalizing w with
  | nil => exact .refl
  | cons e items ih => exact keeps_deadLetter.trans ih

theorem keeps_drainHears {d : Drain} {reply : Reply} {now : Time} {written : Bool} : w.Keeps (w.drainHears d reply now written) := by
  unfold drainHears
  split
  · exact .refl
  · split
    · exact keeps_settle.trans keeps_advance
    · exact keeps_deadLetter.trans keeps_advance
    · exact keeps_of_same rfl rfl rfl

theorem keeps_sendHears {reply : Reply} : w.Keeps (w.sendHears e reply) := by
  unfold sendHears
  split
  · exact .refl
  · split <;> exact keeps_settle

theorem keeps_next (e : Event) : w.Keeps (w.next S myKey toSubdomain e) := by
  by_cases here : e.AtSender
  case neg =>
    have same : w.SenderSame (w.next S myKey toSubdomain e) := next_sender here
    exact keeps_of_same same.queue same.dead same.outcomes
  cases e with
  | send signal msgUuid nonce now => exact (keeps_enqueue (w := w)).trans (keeps_of_same rfl rfl rfl)
  | look i =>
      simp only [next]
      split
      · exact .refl
      · split <;> exact keeps_of_same rfl rfl rfl
  | drain peer =>
      simp only [next]
      split
      · exact .refl
      · split <;> exact keeps_of_same rfl rfl rfl
  | dial fresh =>
      simp only [next]
      split
      · exact .refl
      · split
        · split
          · exact (keeps_enqueue (w := w)).trans (keeps_of_same rfl rfl rfl)
          · exact keeps_of_same rfl rfl rfl
        · exact .refl
  | hear i bodyRead now written =>
      simp only [next]
      split
      · split
        · exact keeps_drainHears
        · split
          · exact (keeps_of_same rfl rfl rfl : w.Keeps (w.noneAsks i)).trans keeps_sendHears
          · exact .refl
      · exact .refl
  | giveUp i =>
      simp only [next]
      split <;> exact keeps_of_same rfl rfl rfl
  | prune now => exact keeps_expire _ now
  | crash => exact keeps_of_same rfl rfl rfl
  | lose | refuse | arrive | land | record | resave | restart => exact absurd here id

def sends : Event → List (Uuid × Time)
  | .send signal msgUuid _ _ => [(msgUuid, signal.time)]
  | _ => []

@[simp] theorem sendHears_sent {reply : Reply} : (w.sendHears e reply).sent = w.sent := by
  unfold sendHears
  split
  · rfl
  · split <;> rfl

@[simp] theorem drainHears_sent {d : Drain} {reply : Reply} {now : Time} {written : Bool} :
    (w.drainHears d reply now written).sent = w.sent := by
  unfold drainHears
  split
  · rfl
  · split <;> simp [settle, recordFailure]

@[simp] theorem expire_sent (items : Queue) (now : Time) :
    (items.foldl (fun w e => w.deadLetter e expiredReason now true) w).sent = w.sent := by
  induction items generalizing w with
  | nil => rfl
  | cons e items ih => simp [ih]

theorem next_sent (e : Event) : (w.next S myKey toSubdomain e).sent = w.sent ++ sends e := by
  by_cases here : e.AtSender
  case neg =>
    have same : w.SenderSame (w.next S myKey toSubdomain e) := next_sender here
    rw [same.sent]
    cases e with
    | send => exact absurd trivial here
    | _ => simp [sends]
  cases e with
  | lose | refuse | arrive | land | record | resave | restart => exact absurd here id
  | send => rfl
  | prune | crash => simp [next, sends]
  | look i =>
      simp only [next, sends, List.append_nil]
      split
      · rfl
      · split <;> rfl
  | drain peer =>
      simp only [next, sends, List.append_nil]
      split
      · rfl
      · split <;> rfl
  | dial fresh =>
      simp only [next, sends, List.append_nil]
      split
      · rfl
      · split
        · split <;> rfl
        · rfl
  | hear i bodyRead now written =>
      simp only [next, sends, List.append_nil]
      split
      · split
        · simp
        · split
          · simp [noneAsks]
          · rfl
      · rfl
  | giveUp i =>
      simp only [next, sends, List.append_nil]
      split <;> rfl

/-- What was sent is in the queue or at an end. -/
structure Accounts (w : World) : Prop where
  held : ∀ p ∈ w.sent, w.Held p.1
  files : w.Files

theorem Accounts.next (accounts : w.Accounts) (e : Event) : (w.next S myKey toSubdomain e).Accounts := by
  have keeps : w.Keeps (w.next S myKey toSubdomain e) := keeps_next e
  refine ⟨?_, keeps.files accounts.files⟩
  rw [next_sent]
  intro p mem
  rcases List.mem_append.mp mem with old | new
  · exact keeps.held p.1 (accounts.held p old)
  · cases e with
    | send signal msgUuid nonce now =>
        obtain rfl := List.mem_singleton.mp new
        exact held_enqueue (w := w) (e := sealSignal S myKey signal toSubdomain OUTBOUND_TTL msgUuid nonce now)
    | _ => cases new

theorem Accounts.run (accounts : w.Accounts) (events : List Event) : (Rounds.after (World.next S myKey toSubdomain) w events).Accounts :=
  Rounds.invariant (fun _ e held => held.next e) accounts events

end World

end K2.Federation
