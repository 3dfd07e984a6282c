import K2.Federation.Handled

/-! # In order

A message is dialed only when all that were sent before it have come to an end.
-/

namespace K2.Federation

def Stage.inHand : Stage → Option Ingested
  | .handling ingested _ | .driven ingested _ => some ingested
  | _ => none

namespace World

variable {S : Signing} {myKey : KeyPair} {toSubdomain : String} {w w' : World} {u v : Uuid} {e : FederationEnvelope}

/-! ## What a step does to the dials -/

def views (w : World) : List (FederationEnvelope × Stage) := w.dials.map fun d => (d.envelope, d.stage)

theorem views_setDial {i : Nat} {d : Dial} : (w.setDial i d).views = w.views.set i (d.envelope, d.stage) := by
  simp [views, setDial, List.map_set]

theorem view_of_dial {i : Nat} {d : Dial} (found : w.dials[i]? = some d) : w.views[i]? = some (d.envelope, d.stage) := by
  simp [views, found]

theorem views_noneAsks (i : Nat) : (w.noneAsks i).views = w.views := dials_noneAsks i

/-- What is in hand is of the dial's own message. -/
def Own (p : FederationEnvelope × Stage) : Prop := ∀ ingested ∈ p.2.inHand, ingested.msgUuid = p.1.msgUuid

/-- A step of the recipient: dials move on, and what is done is done of the message of one. -/
structure Handles (w w' : World) : Prop where
  views : ∀ p ∈ w'.views, (∃ q ∈ w.views, q.1 = p.1) ∧ Own p
  effects : ∀ p ∈ w'.effects, p ∈ w.effects ∨ ∃ q ∈ w.views, q.1.msgUuid = p.1

theorem Handles.rest (own : ∀ p ∈ w.views, Own p) (views : w'.views = w.views) (effects : w'.effects = w.effects) : w.Handles w' :=
  ⟨fun p mem => ⟨⟨p, views ▸ mem, rfl⟩, own p (views ▸ mem)⟩, fun _ mem => .inl (effects ▸ mem)⟩

theorem Handles.moved (own : ∀ p ∈ w.views, Own p) {i : Nat} {was now : Stage} (found : w.views[i]? = some (e, was))
    (views : w'.views = w.views.set i (e, now)) (mine : Own (e, now))
    (effects : ∀ p ∈ w'.effects, p ∈ w.effects ∨ p.1 = e.msgUuid) : w.Handles w' := by
  have here : (e, was) ∈ w.views := List.mem_of_getElem? found
  refine ⟨fun p mem => ?_, fun p mem => (effects p mem).imp id fun same => ⟨_, here, same.symm⟩⟩
  rw [views] at mem
  rcases List.mem_or_eq_of_mem_set mem with old | rfl
  · exact ⟨⟨p, old, rfl⟩, own p old⟩
  · exact ⟨⟨_, here, rfl⟩, mine⟩

theorem handles_arrive (own : ∀ p ∈ w.views, Own p) {i : Nat} {asked : Bool} (found : w.dials[i]? = some ⟨e, .onWay, asked⟩)
    (site : Site) : w.Handles (w.arrive S i ⟨e, .onWay, asked⟩ site) := by
  have refused {nonces : NonceCache} {reply : Reply} :
      w.Handles (World.setDial { w with nonces := nonces } i ⟨e, .answered reply, asked⟩) :=
    .moved own (view_of_dial found) views_setDial (by simp [Own, Stage.inHand]) fun _ => .inl
  unfold arrive
  cases site.store with
  | error _ => exact refused
  | ok store =>
      dsimp only
      rcases ingest_cases S (.ok e) store w.nonces site.localFp DEFAULT_SKEW_SECS site.now with
        ⟨err, -, answer⟩ | ⟨envelope, ⟨⟩, -, ⟨-, answer⟩ | ⟨-, taken⟩⟩
      · simp only [answer]
        exact refused
      · simp only [answer]
        exact refused
      · simp only [taken]
        split
        · exact refused
        · exact .moved own (view_of_dial found) views_setDial (by rintro _ ⟨⟩; rfl) fun _ => .inl
        · refine .moved own (view_of_dial found) views_setDial (by simp [Own, Stage.inHand]) fun p mem => ?_
          rcases List.mem_append.mp mem with old | new
          · exact .inl old
          · exact .inr (List.mem_singleton.mp new ▸ rfl)

theorem handles_land (own : ∀ p ∈ w.views, Own p) {i : Nat} {ingested : Ingested} {tray asked : Bool}
    (found : w.dials[i]? = some ⟨e, .handling ingested tray, asked⟩) (how : Landing) :
    w.Handles (w.land i ⟨e, .handling ingested tray, asked⟩ ingested tray how) := by
  have mine : ingested.msgUuid = e.msgUuid := own _ (List.mem_of_getElem? (view_of_dial found)) ingested rfl
  have refused {reply : Reply} : w.Handles (w.setDial i ⟨e, .answered reply, asked⟩) :=
    .moved own (view_of_dial found) views_setDial (by simp [Own, Stage.inHand]) fun _ => .inl
  unfold land
  split
  · refine .moved own (view_of_dial found) views_setDial (by rintro _ ⟨⟩; exact mine) fun p mem => ?_
    rcases List.mem_append.mp mem with old | new
    · exact .inl old
    · exact .inr (List.mem_singleton.mp new ▸ mine)
  · exact refused
  · exact refused
  · exact refused
  · exact .rest own rfl rfl

theorem next_handles (own : ∀ p ∈ w.views, Own p) (event : Event) (away : ¬ event.AtSender) :
    w.Handles (w.next S myKey toSubdomain event) := by
  have still : w.Handles w := .rest own rfl rfl
  cases event with
  | send | look | drain | dial | hear | giveUp | prune | crash => exact absurd trivial away
  | resave => exact .rest own rfl rfl
  | lose | refuse | record =>
      simp only [next]
      split
      · rename_i found
        exact .moved own (view_of_dial found) views_setDial (by simp [Own, Stage.inHand]) fun _ => .inl
      · exact still
  | arrive i site =>
      simp only [next]
      split
      · rename_i found
        exact handles_arrive own found site
      · exact still
  | land i how =>
      simp only [next]
      split
      · rename_i found
        exact handles_land own found how
      · exact still
  | restart =>
      -- The deliveries under way are lost.
      refine ⟨fun p mem => ?_, fun _ => .inl⟩
      simp only [next, views, List.map_map] at mem
      obtain ⟨⟨e, stage, asked⟩, old, rfl⟩ := List.mem_map.mp mem
      have kept : (e, stage) ∈ w.views := List.mem_map_of_mem (f := fun d : Dial => (d.envelope, d.stage)) old
      cases stage with
      | handling | driven => exact ⟨⟨_, kept, rfl⟩, by simp [Own, Stage.inHand]⟩
      | onWay | answered | lost => exact ⟨⟨_, kept, rfl⟩, own _ kept⟩

/-! ## In order -/

def Sent (w : World) (e : FederationEnvelope) : Prop := (e.msgUuid, e.signalAt) ∈ w.sent

def Earlier (w : World) (u v : Uuid) : Prop := ∃ s t, (u, s) ∈ w.sent ∧ (v, t) ∈ w.sent ∧ s < t

/-- All that were sent before have come to an end. -/
def Clear (w : World) (v : Uuid) : Prop := ∀ u, w.Earlier u v → w.Settled u

/-- Before each of the items come those that were sent before it and are not at an end. -/
def Drains (w : World) (items : Queue) : Prop :=
  ∀ before item later, items = before ++ item :: later →
    w.Sent item ∧ ∀ u, w.Earlier u item.msgUuid → w.Settled u ∨ ∃ x ∈ before, x.msgUuid = u

/-- Creation times rise with the sends. -/
def Rising (w : World) : Event → Prop
  | .send signal msgUuid _ _ => ∀ p ∈ w.sent, p.2 < signal.time ∧ p.1 ≠ msgUuid
  | _ => True

instance rising : ∀ event, Decidable (w.Rising event)
  | .send signal msgUuid _ _ => inferInstanceAs (Decidable (∀ p ∈ w.sent, p.2 < signal.time ∧ p.1 ≠ msgUuid))
  | .look _ | .drain _ | .dial _ | .hear .. | .giveUp _ | .prune _ | .crash | .lose _ | .refuse .. | .arrive .. | .land .. | .record _
  | .resave _ | .restart => isTrue trivial

structure InOrder (w : World) : Prop where
  accounts : w.Accounts
  times : ∀ u s t, (u, s) ∈ w.sent → (u, t) ∈ w.sent → s = t
  queued : ∀ e ∈ w.queue, w.Sent e
  asked : ∀ e ∈ w.asking, w.Sent e
  dialed : ∀ p ∈ w.views, w.Sent p.1 ∧ w.Clear p.1.msgUuid
  own : ∀ p ∈ w.views, Own p
  drained : ∀ r ∈ w.drain, w.Drains r.items
  handled : ∀ p ∈ w.effects, (∃ t, (p.1, t) ∈ w.sent) ∧ w.Clear p.1

theorem Settled.mono (settled : w.Settled u) (more : w.outcomes <+: w'.outcomes) : w'.Settled u := by
  obtain ⟨outcome, mem⟩ := settled
  exact ⟨outcome, more.subset mem⟩

theorem Clear.mono (clear : w.Clear v) (sent : w'.sent = w.sent) (more : w.outcomes <+: w'.outcomes) : w'.Clear v := by
  intro u earlier
  simp only [Earlier, sent] at earlier
  exact (clear u earlier).mono more

theorem Drains.mono {items : Queue} (drains : w.Drains items) (sent : w'.sent = w.sent) (more : w.outcomes <+: w'.outcomes) :
    w'.Drains items := by
  intro before item later split
  obtain ⟨known, earlier⟩ := drains before item later split
  refine ⟨by simpa [Sent, sent] using known, fun u before => ?_⟩
  simp only [Earlier, sent] at before
  exact (earlier u before).imp (·.mono more) id

theorem Drains.tail {item : FederationEnvelope} {items : Queue} (drains : w.Drains (item :: items)) (sent : w'.sent = w.sent)
    (more : w.outcomes <+: w'.outcomes) (settled : w'.Settled item.msgUuid) : w'.Drains items := by
  intro before next later split
  obtain ⟨known, earlier⟩ := drains.mono sent more (item :: before) next later (by rw [split]; rfl)
  refine ⟨known, fun u sooner => ?_⟩
  rcases earlier u sooner with done | ⟨x, mem, rfl⟩
  · exact .inl done
  · rcases List.mem_cons.mp mem with rfl | mem
    · exact .inl settled
    · exact .inr ⟨x, mem, rfl⟩

/-- What is sent before a message and not at an end is queued, and an older item of the queue. -/
theorem InOrder.drains_queue (inOrder : w.InOrder) : w.Drains w.queue.sortOldestFirst := by
  intro before item later split
  have sorted : (before ++ item :: later).Pairwise Older := split ▸ List.pairwise_insertionSort Older w.queue
  have mem {x : FederationEnvelope} : x ∈ w.queue ↔ x ∈ before ++ item :: later := by rw [← split, Queue.mem_sortOldestFirst]
  have known : w.Sent item := inOrder.queued item (mem.mpr (by simp))
  refine ⟨known, fun u earlier => ?_⟩
  obtain ⟨s, t, first, second, preceding⟩ := earlier
  obtain rfl : t = item.signalAt := inOrder.times _ _ _ second known
  rcases inOrder.accounts.held (u, s) first with ⟨x, queued, rfl⟩ | settled
  · obtain rfl : s = x.signalAt := inOrder.times _ _ _ first (inOrder.queued x queued)
    right
    rcases List.mem_append.mp (mem.mp queued) with front | back
    · exact ⟨x, front, rfl⟩
    · rcases List.mem_cons.mp back with rfl | back
      · exact absurd preceding (lt_irrefl _)
      · have older : Older item x := (List.pairwise_cons.mp (List.pairwise_append.mp sorted).2.1).1 x back
        rcases older with younger | ⟨same, -⟩
        · exact absurd (preceding.trans younger) (lt_irrefl _)
        · exact absurd (same ▸ preceding) (lt_irrefl _)
  · exact .inl settled

theorem InOrder.at_sender (inOrder : w.InOrder) (accounts : w'.Accounts) (same : w.RecipientSame w') (keeps : w.Keeps w')
    (sent : w'.sent = w.sent) (queue : ∀ e ∈ w'.queue, w.Sent e) (asking : ∀ e ∈ w'.asking, w.Sent e) (more : List FederationEnvelope)
    (views : w'.views = w.views ++ more.map (·, .onWay)) (clear : ∀ e ∈ more, w.Sent e ∧ w.Clear e.msgUuid)
    (drained : ∀ r ∈ w'.drain, w'.Drains r.items) : w'.InOrder := by
  have known {e : FederationEnvelope} : w'.Sent e ↔ w.Sent e := by simp [Sent, sent]
  refine ⟨accounts, sent ▸ inOrder.times, fun e mem => known.mpr (queue e mem), fun e mem => known.mpr (asking e mem), ?_, ?_, drained, ?_⟩
  · intro p mem
    rw [views] at mem
    rcases List.mem_append.mp mem with old | new
    · exact ⟨known.mpr (inOrder.dialed p old).1, (inOrder.dialed p old).2.mono sent keeps.outcomes⟩
    · obtain ⟨e, fresh, rfl⟩ := List.mem_map.mp new
      exact ⟨known.mpr (clear e fresh).1, (clear e fresh).2.mono sent keeps.outcomes⟩
  · intro p mem
    rw [views] at mem
    rcases List.mem_append.mp mem with old | new
    · exact inOrder.own p old
    · obtain ⟨e, -, rfl⟩ := List.mem_map.mp new
      simp [Own, Stage.inHand]
  · intro p mem
    obtain ⟨time, clear⟩ := inOrder.handled p (same.effects ▸ mem)
    exact ⟨sent ▸ time, clear.mono sent keeps.outcomes⟩

theorem InOrder.at_recipient (inOrder : w.InOrder) (calls : w.SenderSame w') (handles : w.Handles w') : w'.InOrder := by
  have outcomes : w.outcomes <+: w'.outcomes := calls.outcomes ▸ List.prefix_rfl
  have held : ∀ p ∈ w.sent, w'.Held p.1 := fun p mem => by
    simpa [Held, Queued, Settled, calls.queue, calls.outcomes] using inOrder.accounts.held p mem
  have files : w'.Files := ⟨calls.queue ▸ inOrder.accounts.files.queue, calls.queue ▸ inOrder.accounts.files.queued,
    calls.dead ▸ inOrder.accounts.files.dead, calls.dead ▸ inOrder.accounts.files.dead_length⟩
  have known {e : FederationEnvelope} : w'.Sent e ↔ w.Sent e := by simp [Sent, calls.sent]
  refine ⟨⟨calls.sent ▸ held, files⟩, calls.sent ▸ inOrder.times, ?_, ?_, ?_, fun p mem => (handles.views p mem).2, ?_, ?_⟩
  · exact fun e mem => known.mpr (inOrder.queued e (calls.queue ▸ mem))
  · exact fun e mem => known.mpr (inOrder.asked e (calls.asking ▸ mem))
  · intro p mem
    obtain ⟨q, old, same⟩ := (handles.views p mem).1
    rw [← same]
    exact ⟨known.mpr (inOrder.dialed q old).1, (inOrder.dialed q old).2.mono calls.sent outcomes⟩
  · exact fun r mem => (inOrder.drained r (calls.drain ▸ mem)).mono calls.sent outcomes
  · intro p mem
    rcases handles.effects p mem with old | ⟨q, old, same⟩
    · obtain ⟨time, clear⟩ := inOrder.handled p old
      exact ⟨calls.sent ▸ time, clear.mono calls.sent outcomes⟩
    · rw [← same]
      exact ⟨⟨q.1.signalAt, calls.sent ▸ (inOrder.dialed q old).1⟩, (inOrder.dialed q old).2.mono calls.sent outcomes⟩

theorem sent_enqueue (known : ∀ x ∈ w.queue, w.Sent x) (new : w.Sent e) : ∀ x ∈ (w.enqueue e).queue, w.Sent x := by
  intro x mem
  rcases Queue.mem_write.mp (Queue.mem_enqueue.mp mem).1 with ⟨old, -⟩ | rfl
  · exact known x old
  · exact new

theorem InOrder.send (inOrder : w.InOrder) {signal : AgentSignal} {msgUuid nonce : Uuid} {now : Time}
    (rising : w.Rising (.send signal msgUuid nonce now)) : (w.next S myKey toSubdomain (.send signal msgUuid nonce now)).InOrder := by
  have accounts : (w.next S myKey toSubdomain (.send signal msgUuid nonce now)).Accounts := inOrder.accounts.next _
  have keeps : w.Keeps (w.next S myKey toSubdomain (.send signal msgUuid nonce now)) := keeps_next _
  have sent : (w.next S myKey toSubdomain (.send signal msgUuid nonce now)).sent = w.sent ++ [(msgUuid, signal.time)] := rfl
  generalize eq : w.next S myKey toSubdomain (.send signal msgUuid nonce now) = w' at accounts keeps sent
  have old {p : Uuid × Time} (mem : p ∈ w.sent) : p ∈ w'.sent := sent ▸ List.mem_append_left _ mem
  -- The new message is later than every other: nothing more became earlier than they.
  have earlier {u v : Uuid} (known : ∃ t, (v, t) ∈ w.sent) (before : w'.Earlier u v) : w.Earlier u v := by
    obtain ⟨time, known⟩ := known
    obtain ⟨s, t, first, second, less⟩ := before
    rw [sent] at first second
    rcases List.mem_append.mp second with held | new
    · rcases List.mem_append.mp first with held' | new
      · exact ⟨s, t, held', held, less⟩
      · obtain ⟨rfl, rfl⟩ := Prod.mk.inj (List.mem_singleton.mp new)
        have late : t < signal.time := (rising (v, t) held).1
        exact absurd (less.trans late) (lt_irrefl _)
    · obtain ⟨rfl, rfl⟩ := Prod.mk.inj (List.mem_singleton.mp new)
      exact absurd rfl (rising _ known).2
  have clear {v : Uuid} (known : ∃ t, (v, t) ∈ w.sent) (clear : w.Clear v) : w'.Clear v :=
    fun u before => (clear u (earlier known before)).mono keeps.outcomes
  have fresh : w'.Sent (sealSignal S myKey signal toSubdomain OUTBOUND_TTL msgUuid nonce now) := by
    rw [Sent, sent]
    exact List.mem_append_right _ (List.mem_singleton.mpr rfl)
  refine ⟨accounts, ?_, ?_, ?_, ?_, ?_, ?_, ?_⟩
  · intro u s t first second
    rw [sent] at first second
    rcases List.mem_append.mp first with held | new <;> rcases List.mem_append.mp second with held' | new'
    · exact inOrder.times u s t held held'
    · obtain ⟨rfl, rfl⟩ := Prod.mk.inj (List.mem_singleton.mp new')
      exact ((rising (u, s) held).2 rfl).elim
    · obtain ⟨rfl, rfl⟩ := Prod.mk.inj (List.mem_singleton.mp new)
      exact ((rising (u, t) held').2 rfl).elim
    · exact ((Prod.mk.inj (List.mem_singleton.mp new)).2).trans (Prod.mk.inj (List.mem_singleton.mp new')).2.symm
  · intro x mem
    subst eq
    rcases Queue.mem_write.mp (Queue.mem_enqueue.mp mem).1 with ⟨queued, -⟩ | rfl
    · exact old (inOrder.queued x queued)
    · exact fresh
  · intro x mem
    subst eq
    rcases List.mem_append.mp mem with asked | new
    · exact old (inOrder.asked x asked)
    · exact List.mem_singleton.mp new ▸ fresh
  · subst eq
    exact fun p mem => ⟨old (inOrder.dialed p mem).1, clear ⟨_, (inOrder.dialed p mem).1⟩ (inOrder.dialed p mem).2⟩
  · subst eq
    exact inOrder.own
  · subst eq
    intro r mem before item later split
    obtain ⟨known, sooner⟩ := inOrder.drained r mem before item later split
    exact ⟨old known, fun u less => (sooner u (earlier ⟨_, known⟩ less)).imp (·.mono keeps.outcomes) id⟩
  · subst eq
    exact fun p mem => ⟨(inOrder.handled p mem).1.imp fun _ => old, clear (inOrder.handled p mem).1 (inOrder.handled p mem).2⟩

theorem Accounts.of_same (accounts : w.Accounts) (queue : w'.queue = w.queue) (dead : w'.dead = w.dead) (outcomes : w'.outcomes = w.outcomes)
    (sent : w'.sent = w.sent) : w'.Accounts :=
  ⟨sent ▸ fun p mem => (keeps_of_same queue dead outcomes).held p.1 (accounts.held p mem), (keeps_of_same queue dead outcomes).files accounts.files⟩

/-- A step of the sender that dials nothing: queue and sends under way only shrink. -/
theorem InOrder.at_rest (inOrder : w.InOrder) (same : w.RecipientSame w') (keeps : w.Keeps w') (sent : w'.sent = w.sent)
    (queue : ∀ e ∈ w'.queue, e ∈ w.queue) (asking : w'.asking.Sublist w.asking) (views : w'.views = w.views)
    (drained : ∀ r ∈ w'.drain, w'.Drains r.items) : w'.InOrder := by
  have accounts : w'.Accounts :=
    ⟨sent ▸ fun p mem => keeps.held p.1 (inOrder.accounts.held p mem), keeps.files inOrder.accounts.files⟩
  exact inOrder.at_sender accounts same keeps sent (fun e mem => inOrder.queued e (queue e mem)) (fun e mem => inOrder.asked e (asking.subset mem)) []
    (by simpa using views) (by simp) drained

theorem InOrder.look (inOrder : w.InOrder) (i : Nat) : (w.next S myKey toSubdomain (.look i)).InOrder := by
  have still : ∀ r ∈ w.drain, w.Drains r.items := inOrder.drained
  simp only [World.next]
  split
  · exact inOrder
  · rename_i e found
    split
    · exact inOrder.at_rest ⟨rfl, rfl, rfl⟩ (keeps_of_same rfl rfl rfl) rfl (fun _ => id) (List.eraseIdx_sublist ..) rfl still
    · rename_i alone
      refine inOrder.at_sender (inOrder.accounts.of_same rfl rfl rfl rfl) ⟨rfl, rfl, rfl⟩ (keeps_of_same rfl rfl rfl) rfl inOrder.queued
        (fun x mem => inOrder.asked x (List.mem_of_mem_eraseIdx mem)) [e] (by simp [World.views]) ?_ still
      intro x mem
      obtain rfl := List.mem_singleton.mp mem
      refine ⟨inOrder.asked x (List.mem_of_getElem? found), fun u earlier => ?_⟩
      -- Whatever is queued is this message itself.
      obtain ⟨s, t, first, second, less⟩ := earlier
      rcases inOrder.accounts.held (u, s) first with ⟨y, queued, rfl⟩ | settled
      · have mine : y.msgUuid = x.msgUuid := by
          by_contra other
          exact alone (List.length_pos_of_mem (List.mem_filter.mpr ⟨queued, by simpa using other⟩))
        rw [mine] at first
        exact absurd (inOrder.times _ _ _ first second ▸ less) (lt_irrefl _)
      · exact settled

theorem InOrder.dial (inOrder : w.InOrder) (fresh : Option (Uuid × Time)) : (w.next S myKey toSubdomain (.dial fresh)).InOrder := by
  have accounts : (w.next S myKey toSubdomain (.dial fresh)).Accounts := inOrder.accounts.next _
  simp only [World.next] at accounts ⊢
  have failed : w.recordFailure.InOrder :=
    inOrder.at_rest ⟨rfl, rfl, rfl⟩ (keeps_of_same rfl rfl rfl) rfl (fun _ => id) (.refl _) rfl (by rintro r ⟨⟩)
  cases running : w.drain with
  | none => exact inOrder
  | some r =>
      cases waiting : r.waiting with
      | some i => simpa [waiting] using inOrder
      | none =>
          cases first : r.items with
          | nil => simpa [waiting, first] using inOrder
          | cons item items =>
              simp only [running, waiting, first] at accounts ⊢
              split
              · rename_i e resealed
                obtain ⟨draw, rfl, done⟩ := Option.map_eq_some_iff.mp resealed
                simp only [resealed] at accounts
                have sealed : e = signed S myKey { item.payload with nonce := draw.1, time := draw.2 } := reseal_keeps S myKey done
                have drains : w.Drains (item :: items) := first ▸ inOrder.drained r running
                obtain ⟨known, earlier⟩ := drains [] item items rfl
                have sent : w.Sent e := by
                  rw [sealed]
                  exact known
                refine inOrder.at_sender accounts ⟨rfl, rfl, rfl⟩ (keeps_enqueue.trans (keeps_of_same rfl rfl rfl)) rfl
                  (sent_enqueue inOrder.queued sent) inOrder.asked [e] (by simp [World.views]) ?_ ?_
                · intro x mem
                  obtain rfl := List.mem_singleton.mp mem
                  refine ⟨sent, fun u sooner => ?_⟩
                  rw [sealed] at sooner
                  simpa using earlier u sooner
                · rintro r' ⟨⟩
                  have more : (w.enqueue e).Drains (item :: items) := drains.mono rfl keeps_enqueue.outcomes
                  exact more
              · exact failed

theorem InOrder.drainHears (inOrder : w.InOrder) {r : Drain} (running : w.drain = some r) (reply : Reply) (now : Time) (written : Bool) :
    (w.drainHears r reply now written).InOrder := by
  have drains := inOrder.drained r running
  unfold World.drainHears
  split
  · exact inOrder
  · rename_i item items first
    rw [first] at drains
    have advanced {w' : World} {r' : Drain} (sent : w'.sent = w.sent) (outcomes : w.outcomes <+: w'.outcomes) (settled : w'.Settled item.msgUuid) :
        ∀ r'' ∈ (w'.advance r' items).drain, (w'.advance r' items).Drains r''.items := by
      have tail : w'.Drains items := drains.tail sent outcomes settled
      unfold advance
      split
      · rintro r'' ⟨⟩
      · rintro r'' ⟨⟩
        exact tail
    cases classify reply with
    | delivered =>
      refine inOrder.at_rest (recipientSame_settle.trans recipientSame_advance) (keeps_settle.trans keeps_advance) (by simp [settle]) ?_ ?_ ?_ ?_
      · exact fun e mem => (Queue.mem_remove.mp (by simpa [settle] using mem)).1
      · simp [settle]
      · simp [World.views, settle]
      · exact advanced rfl keeps_settle.outcomes ⟨.delivered, by simp [settle]⟩
    | deadLetter reason =>
      refine inOrder.at_rest (recipientSame_deadLetter.trans recipientSame_advance) (keeps_deadLetter.trans keeps_advance) (by simp) ?_ ?_ ?_ ?_
      · exact fun e mem => (Queue.mem_remove.mp (by simpa using mem)).1
      · simp
      · simp [World.views]
      · exact advanced (by simp) keeps_deadLetter.outcomes ⟨.deadLettered reason, by simp⟩
    | retry => exact inOrder.at_rest ⟨rfl, rfl, rfl⟩ (keeps_of_same rfl rfl rfl) rfl (fun _ => id) (.refl _) rfl (by rintro r' ⟨⟩)

theorem InOrder.sendHears (inOrder : w.InOrder) (e : FederationEnvelope) (reply : Reply) : (w.sendHears e reply).InOrder := by
  have settled (outcome : Outcome) : (w.settle e.msgUuid outcome).InOrder := by
    refine inOrder.at_rest recipientSame_settle keeps_settle rfl ?_ (.refl _) rfl ?_
    · exact fun x mem => (Queue.mem_remove.mp mem).1
    · exact fun r mem => (inOrder.drained r mem).mono rfl keeps_settle.outcomes
  unfold World.sendHears
  split
  · exact inOrder
  · split <;> exact settled _

theorem expire_queue (items : Queue) (now : Time) :
    ∀ e ∈ (items.foldl (fun w e => w.deadLetter e expiredReason now true) w).queue, e ∈ w.queue := by
  induction items generalizing w with
  | nil => exact fun _ => id
  | cons x items ih =>
      intro e mem
      have := ih e mem
      simp only [deadLetter_queue] at this
      exact (Queue.mem_remove.mp this).1

theorem InOrder.next (inOrder : w.InOrder) {event : Event} (rising : w.Rising event) :
    (w.next S myKey toSubdomain event).InOrder := by
  by_cases here : event.AtSender
  case neg => exact inOrder.at_recipient (next_sender here) (next_handles inOrder.own event here)
  have still : ∀ r ∈ w.drain, w.Drains r.items := inOrder.drained
  cases event with
  | lose | refuse | arrive | land | record | resave | restart => exact absurd here id
  | send signal msgUuid nonce now => exact inOrder.send rising
  | look i => exact inOrder.look i
  | dial fresh => exact inOrder.dial fresh
  | drain peer =>
      simp only [World.next]
      split
      · exact inOrder
      · cases peer with
        | dialable =>
            refine inOrder.at_rest ⟨rfl, rfl, rfl⟩ (keeps_of_same rfl rfl rfl) rfl (fun _ => id) (.refl _) rfl ?_
            rintro r ⟨⟩
            exact inOrder.drains_queue.mono rfl List.prefix_rfl
        | unavailable => exact inOrder.at_rest ⟨rfl, rfl, rfl⟩ (keeps_of_same rfl rfl rfl) rfl (fun _ => id) (.refl _) rfl still
        | airgap => exact inOrder
  | hear i bodyRead now written =>
      simp only [World.next]
      split
      · split
        · rename_i r running
          exact inOrder.drainHears (Option.filter_eq_some_iff.mp running).1 _ now written
        · split
          · have unasked : (w.noneAsks i).InOrder :=
              inOrder.at_rest ⟨rfl, rfl, rfl⟩ (keeps_of_same rfl rfl rfl) rfl (fun _ => id) (.refl _) (views_noneAsks i) still
            exact unasked.sendHears _ _
          · exact inOrder
      · exact inOrder
  | giveUp i =>
      simp only [World.next]
      split
      · exact inOrder.at_rest ⟨rfl, rfl, rfl⟩ (keeps_of_same rfl rfl rfl) rfl (fun _ => id) (.refl _) rfl (by rintro r ⟨⟩)
      · exact inOrder.at_rest ⟨rfl, rfl, rfl⟩ (keeps_of_same rfl rfl rfl) rfl (fun _ => id) (.refl _) (views_noneAsks i) still
  | prune now =>
      obtain ⟨asking, dials, drain, sent⟩ := expire_calls (w := w) (w.queue.expired now) now
      have keeps := keeps_expire (w := w) (w.queue.expired now) now
      refine inOrder.at_rest (recipientSame_expire _ now) keeps sent (expire_queue _ now) (asking ▸ .refl _)
        (by simp [World.next, World.views, dials]) ?_
      intro r mem
      exact (inOrder.drained r (drain ▸ mem)).mono sent keeps.outcomes
  | crash =>
      refine inOrder.at_rest ⟨rfl, rfl, rfl⟩ (keeps_of_same rfl rfl rfl) rfl (fun _ => id) (List.nil_sublist _) ?_ (by rintro r ⟨⟩)
      simp [World.next, World.views, Function.comp_def]

end World

namespace Sample

def both : List Event :=
  [.send (signal 0) one two 0, .look 0, .lose 0, .giveUp 0, .send (signal 1) three "4" 1, .look 0, .drain .dialable,
    .dial (some ("5", 1)), .arrive 1 site, .land 1 .landed, .record 1, .hear 1 true 1 true,
    .dial (some ("6", 1)), .arrive 2 site, .land 2 .landed]

end Sample

end K2.Federation
