import K2.NodeQueue.Starts

/-! # One decision of the node queue

What every decision keeps, whatever the tenants, shares, jobs and rotation: each
start is allowed beside the jobs that run and those started before it; nothing
starts past a CI or Priority job that waits for room only; only such a job, or a
Standard one that has waited long, holds a job that could start; and every job
that doesn't start has a reason.
-/

namespace K2.NodeQueue

open Compute

/-- The job's server is known and connected, and nothing blocks it or the node. -/
structure Free (input : Input) (q : Queued) (t : Tenant) : Prop where
  tenant : tenantOf input.tenants q.slot = some t
  connected : q.eligible = true
  node : input.caps.blocked = none
  share : t.blocked = none

/-- May the job start beside `run`? -/
structure MayStart (input : Input) (q : Queued) (t : Tenant) (run : List SimRun) : Prop where
  free : Free input q t
  fits : Fits input.caps q
  own : OwnLimits q t run
  idle : lineOf q t = .batch → run = []
  room : Room input q run

/-- What runs at a job's turn: the running jobs, and those of `before` it that
    the decision starts. -/
def occupants (input : Input) (d : Decision) (before : List Entry) : List SimRun :=
  input.running.map (·.sim false) ++ (before.filter (· ∈ d.start)).filterMap fun e =>
    (tenantOf input.tenants e.job.slot).map fun t => e.job.sim false input.caps t 0

/-- What a decision keeps. -/
structure SafeDecision (input : Input) (d : Decision) : Prop where
  order : (d.order.map (·.index)).Perm (List.range input.queued.length)
  entries : d.order.Perm input.entries
  sublist : d.start.Sublist d.order
  starts : ∀ before e after, d.order = before ++ e :: after → e ∈ d.start →
    ∃ t, MayStart input e.job t (occupants input d before)
  /-- A CI or Priority job that waits for room only holds all that comes after it. -/
  holds : ∀ before e after t, d.order = before ++ e :: after → e ∉ d.start → Free input e.job t →
    (lineOf e.job t).holds = true → Fits input.caps e.job →
    OwnLimits e.job t (occupants input d before) → ∀ k ∈ after, k ∉ d.start
  /-- A job that could start is held by one that waits for room only, never by
      one that waits for its own limits. -/
  held : ∀ before e after t, d.order = before ++ e :: after → e ∉ d.start →
    MayStart input e.job t (occupants input d before) →
    ∃ front h back u, before = front ++ h :: back ∧ h ∉ d.start ∧ Free input h.job u ∧
      Holder input ⟨h, u⟩ (occupants input d front)
  reasons : ∀ e ∈ input.entries, e ∉ d.start →
    ∃ info, d.info.lookup e.index = some info ∧ info.blockedBy.isSome = true

/-! ## Whom nothing blocks -/

theorem blockedBy_eq_none {input : Input} {q : Queued} :
    blockedBy input q = none ↔ ∃ t, Free input q t := by
  unfold blockedBy
  constructor
  · intro free
    cases tenant : tenantOf input.tenants q.slot with
    | none => simp [tenant] at free
    | some t =>
        cases connected : q.eligible with
        | false => simp [tenant, connected] at free
        | true =>
            simp only [tenant, connected, Bool.not_true, Bool.false_eq_true, if_false,
              Option.or_eq_none_iff] at free
            exact ⟨t, tenant, connected, free.1, free.2⟩
  · rintro ⟨t, tenant, connected, node, share⟩
    simp [tenant, connected, node, share]

theorem mem_unblocked {input : Input} {ord : List Entry} {w : Waiting} :
    w ∈ unblocked input ord ↔ w.entry ∈ ord ∧ Free input w.entry.job w.tenant := by
  simp only [unblocked, List.mem_filterMap]
  constructor
  · rintro ⟨e, member, found⟩
    split at found
    · cases found
    · rename_i unblocked
      obtain ⟨t, tenant, rfl⟩ := Option.map_eq_some_iff.mp found
      obtain ⟨u, free⟩ := blockedBy_eq_none.mp (by simpa using unblocked)
      have : u = t := Option.some_inj.mp (free.tenant.symm.trans tenant)
      exact ⟨member, this ▸ free⟩
  · rintro ⟨member, free⟩
    refine ⟨w.entry, member, ?_⟩
    rw [blockedBy_eq_none.mpr ⟨_, free⟩, free.tenant]
    rfl

theorem unblocked_append (input : Input) (front back : List Entry) :
    unblocked input (front ++ back) = unblocked input front ++ unblocked input back :=
  List.filterMap_append

theorem unblocked_cons {input : Input} {e : Entry} {t : Tenant} (rest : List Entry)
    (free : Free input e.job t) : unblocked input (e :: rest) = ⟨e, t⟩ :: unblocked input rest := by
  unfold unblocked
  rw [List.filterMap_cons, blockedBy_eq_none.mpr ⟨_, free⟩, free.tenant]
  rfl

theorem unblocked_sublist (input : Input) (ord : List Entry) :
    ((unblocked input ord).map (·.entry)).Sublist ord := by
  induction ord with
  | nil => exact .slnil
  | cons e rest ih =>
      cases blocked : blockedBy input e.job with
      | some b =>
          have : unblocked input (e :: rest) = unblocked input rest := by simp [unblocked, blocked]
          rw [this]
          exact ih.cons e
      | none =>
          obtain ⟨t, free⟩ := blockedBy_eq_none.mp blocked
          rw [unblocked_cons rest free]
          exact ih.cons_cons e

/-- An unblocked job splits the order where it splits the unblocked jobs. -/
theorem unblocked_split {input : Input} {ord : List Entry} {front back : List Waiting} {w : Waiting}
    (split : unblocked input ord = front ++ w :: back) :
    ∃ before after, ord = before ++ w.entry :: after ∧ unblocked input before = front := by
  obtain ⟨one, two, rfl, front_eq, rest⟩ := List.filterMap_eq_append_iff.mp split
  obtain ⟨skipped, e, after, rfl, none_of, found, -⟩ := List.filterMap_eq_cons_iff.mp rest
  have here : w.entry = e := by
    split at found
    · cases found
    · obtain ⟨t, -, rfl⟩ := Option.map_eq_some_iff.mp found
      rfl
  refine ⟨one ++ skipped, after, by simp [here], ?_⟩
  have nothing : unblocked input skipped = [] := List.filterMap_eq_nil_iff.mpr none_of
  rw [unblocked_append, nothing, List.append_nil]
  exact front_eq

/-- A sublist of a list without repeats is what a test for its members keeps. -/
theorem filter_mem_of_sublist {α : Type} [DecidableEq α] {l s : List α} (distinct : l.Nodup)
    (sub : s.Sublist l) : l.filter (· ∈ s) = s := by
  have inside : s.Sublist (l.filter (· ∈ s)) := by
    have := sub.filter (· ∈ s)
    rwa [List.filter_eq_self.mpr (by simp)] at this
  have same : s.Perm (l.filter (· ∈ s)) := by
    rw [List.perm_ext_iff_of_nodup (distinct.sublist sub) (distinct.filter _)]
    intro a
    simpa using fun member => sub.subset member
  exact (inside.eq_of_length same.length_eq).symm

theorem knownSim_blocked (input : Input) {ord : List Entry} {e : Entry} (member : e ∈ ord) {b : String}
    (blocked : blockedBy input e.job = some b) :
    ((knownSim input ord).blocked.lookup e.index).isSome = true := by
  have later (rest : List Entry) (m : FinMap Nat String) :
      (m.lookup e.index).isSome = true ∨ e ∈ rest →
      ((rest.foldl (noteBlocked input) m).lookup e.index).isSome = true := by
    induction rest generalizing m with
    | nil => simp
    | cons k rest ih =>
        intro found
        rw [List.foldl_cons]
        apply ih
        unfold noteBlocked
        rcases found with found | found
        · left
          split
          · rw [FinMap.lookup_insert]
            split
            · rfl
            · exact found
          · exact found
        · rcases List.mem_cons.mp found with rfl | found
          · simp [blocked]
          · exact .inr found
  exact later ord .empty (.inr member)

/-! ## The starts -/

section Starts

variable {input : Input}

theorem start_eq (running : ∀ r ∈ input.running, ∀ s, r.leftP50 = some s → 1 ≤ s) :
    input.decide.start = (startPass input (order input)).started.map (·.entry) := by
  have started : ((startPass input (order input)).started.map (·.entry)).Sublist (order input) :=
    ((firstPass_sublist _ _ _).map _).trans (unblocked_sublist input _)
  rw [← filter_mem_of_sublist (List.Nodup.of_map _ (order_nodup input)) started]
  unfold Input.decide
  simp only
  refine List.filter_congr fun e member => ?_
  have now := (simulate_spec input (order input) running).1 e.index
  rw [Bool.eq_iff_iff, beq_iff_eq, now, decide_eq_true_eq]
  simp only [List.mem_map]
  constructor
  · rintro ⟨w, hw, same⟩
    have stands := started.subset (List.mem_map_of_mem hw)
    exact ⟨w, hw, List.inj_on_of_nodup_map (order_nodup input) stands member same⟩
  · rintro ⟨w, hw, same⟩
    exact ⟨w, hw, by rw [same]⟩

variable {before after : List Entry} {e : Entry}

/-- The first pass over what comes before a job. -/
def passBefore (input : Input) (before : List Entry) : Pass :=
  firstPass input (knownSim input (order input)) (unblocked input before)

/-- What runs at a job's turn is what the first pass has running there. -/
theorem occupants_eq (running : ∀ r ∈ input.running, ∀ s, r.leftP50 = some s → 1 ≤ s)
    (split : order input = before ++ e :: after) :
    occupants input input.decide before = (passBefore input before).run := by
  have nodup := List.Nodup.of_map _ (order_nodup input)
  obtain ⟨more, sub, started⟩ := firstPass_append input (knownSim input (order input))
    (unblocked input before) (unblocked input (e :: after))
  rw [← unblocked_append, ← split] at started
  rw [split, List.nodup_append] at nodup
  have same : before.filter (· ∈ input.decide.start) = (passBefore input before).started.map (·.entry) := by
    have inside := ((firstPass_sublist input (knownSim input (order input))
      (unblocked input before)).map (·.entry)).trans (unblocked_sublist input before)
    refine .trans ?_ (filter_mem_of_sublist nodup.1 inside)
    refine List.filter_congr fun k hk => ?_
    have later : k ∉ more.map (·.entry) := fun member =>
      nodup.2.2 k hk k ((unblocked_sublist input _).subset ((sub.map _).subset member)) rfl
    rw [start_eq running, startPass, started, List.map_append]
    simp only [List.mem_append, later, or_false]
    rfl
  rw [occupants, same, passBefore, firstPass_run, List.filterMap_map]
  congr 1
  rw [← List.filterMap_eq_map]
  refine List.filterMap_congr fun w hw => ?_
  have free := (mem_unblocked.mp ((firstPass_sublist _ _ _).subset hw)).2
  simp only [Function.comp_apply, free.tenant, Option.map_some]
  rfl

/-- An unblocked job starts if nothing is held at its turn, and it fits. -/
theorem start_iff (running : ∀ r ∈ input.running, ∀ s, r.leftP50 = some s → 1 ≤ s)
    (split : order input = before ++ e :: after) {t : Tenant} (free : Free input e.job t) :
    e ∈ input.decide.start ↔ (passBefore input before).held = none ∧
      fit input e.job t (occupants input input.decide before) = .now := by
  have stands : unblocked input (order input) = unblocked input before ++ ⟨e, t⟩ :: unblocked input after := by
    rw [split, unblocked_append, unblocked_cons _ free]
  have distinct : (unblocked input (order input)).Nodup := List.Nodup.of_map (·.entry)
    ((List.Nodup.of_map _ (order_nodup input)).sublist (unblocked_sublist input _))
  rw [start_eq running, occupants_eq running split]
  refine .trans ?_ (started_iff distinct stands)
  rw [startPass, List.mem_map]
  constructor
  · rintro ⟨w, hw, same⟩
    have theirs := (mem_unblocked.mp ((firstPass_sublist _ _ _).subset hw)).2
    obtain ⟨k, u⟩ := w
    obtain rfl : k = e := same
    have : u = t := Option.some_inj.mp (theirs.tenant.symm.trans free.tenant)
    exact this ▸ hw
  · exact fun hw => ⟨_, hw, rfl⟩

/-- Every start is of a job that nothing blocks. -/
theorem free_of_start (running : ∀ r ∈ input.running, ∀ s, r.leftP50 = some s → 1 ≤ s)
    (start : e ∈ input.decide.start) : ∃ t, Free input e.job t := by
  rw [start_eq running] at start
  obtain ⟨w, hw, rfl⟩ := List.mem_map.mp start
  exact ⟨w.tenant, (mem_unblocked.mp ((firstPass_sublist _ _ _).subset hw)).2⟩

/-- Nothing starts once the starts are held. -/
theorem held_stops (running : ∀ r ∈ input.running, ∀ s, r.leftP50 = some s → 1 ≤ s)
    {front back : List Entry} (split : order input = front ++ back) {h : String}
    (held : (passBefore input front).held = some h) : ∀ k ∈ back, k ∉ input.decide.start := by
  intro k hk start
  have nodup := List.Nodup.of_map _ (order_nodup input)
  rw [split, List.nodup_append] at nodup
  obtain ⟨-, stopped⟩ := firstPass_held (unblocked input front) (unblocked input back) held
  rw [← unblocked_append, ← split] at stopped
  rw [start_eq running, startPass, stopped] at start
  obtain ⟨w, hw, rfl⟩ := List.mem_map.mp start
  have early := (mem_unblocked.mp ((firstPass_sublist _ _ _).subset hw)).1
  exact nodup.2.2 w.entry early w.entry hk rfl

/-- A CI or Priority job that waits for room only holds the starts, if they are
    not held already. -/
theorem room_holds (running : ∀ r ∈ input.running, ∀ s, r.leftP50 = some s → 1 ≤ s)
    (split : order input = before ++ e :: after) (waits : e ∉ input.decide.start) {t : Tenant}
    (free : Free input e.job t) (line : (lineOf e.job t).holds = true) (fits : Fits input.caps e.job)
    (own : OwnLimits e.job t (occupants input input.decide before)) :
    ∃ h, (passBefore input (before ++ [e])).held = some h := by
  have next : passBefore input (before ++ [e]) =
      (passBefore input before).look input false 0 true ⟨e, t⟩ := by
    rw [passBefore, unblocked_append, unblocked_cons [] free, passBefore, ← firstPass_concat]
    rfl
  rw [start_iff running split free, not_and] at waits
  rw [occupants_eq running split] at own waits
  rw [next]
  have spec := fit_spec input e.job t (passBefore input before).run
  rcases look_cases input false 0 true (passBefore input before) ⟨e, t⟩ with step | step
  · exact absurd step.ready (waits step.free)
  · cases held : (passBefore input before).held with
    | some h => exact ⟨h, step.held h held⟩
    | none =>
        cases answer : fit input e.job t (passBefore input before).run with
        | now => exact absurd answer (waits held)
        | never =>
            rw [answer] at spec
            cases spec with
            | never big => exact absurd fits big
        | wait c =>
            rw [answer] at spec
            cases spec with
            | own _ _ full =>
                rcases full with full | ⟨batch, -⟩
                · exact absurd own full
                · simp [batch, Line.holds] at line
            | isolation _ _ passes => simp [passes] at line
        | capacity c =>
            refine ⟨tierHold, (step.holds held c answer).trans ?_⟩
            rw [Waiting.hold, if_pos (show (Waiting.line ⟨e, t⟩).holds = true from line)]

/-- A job that doesn't start has a reason. -/
theorem reason_of_not_start (running : ∀ r ∈ input.running, ∀ s, r.leftP50 = some s → 1 ≤ s)
    (member : e ∈ order input) (waits : e ∉ input.decide.start) :
    HasReason (simulate input (order input) false) e.index := by
  refine (simulate_spec input (order input) running).2 _ ?_
  cases blocked : blockedBy input e.job with
  | some b =>
      exact firstPass_reasons input _ _ (.inl (knownSim_blocked input member blocked))
  | none =>
      obtain ⟨t, free⟩ := blockedBy_eq_none.mp blocked
      have waiting : (⟨e, t⟩ : Waiting) ∈ unblocked input (order input) := mem_unblocked.mpr ⟨member, free⟩
      rcases firstPass_reason input (knownSim input (order input)) _ _ waiting with starts | reason
      · rw [start_eq running] at waits
        exact absurd (List.mem_map_of_mem starts) waits
      · exact reason

end Starts

theorem info_reason (input : Input) {e : Entry} (member : e ∈ order input)
    (waits : e ∉ input.decide.start) (known : HasReason (simulate input (order input) false) e.index) :
    ∃ info, input.decide.info.lookup e.index = some info ∧ info.blockedBy.isSome = true := by
  have not_now : ((simulate input (order input) false).startAt.lookup e.index == some 0) = false := by
    unfold Input.decide at waits
    simpa [member] using waits
  obtain ⟨i, at_i⟩ := List.mem_iff_getElem?.mp member
  have distinct : ((order input).zipIdx.map fun p => p.1.index).Nodup := by
    have := order_nodup input
    rwa [← List.zipIdx_map_fst 0 (order input), List.map_map] at this
  unfold Input.decide
  simp only
  refine ⟨_, FinMap.lookup_foldl_insert (fun p : Entry × Nat => p.1.index) (fun p => _) .empty distinct
    (show (e, i) ∈ (order input).zipIdx from List.mem_zipIdx_iff_getElem?.mpr at_i), ?_⟩
  simp only [not_now, reason]
  split
  · rename_i unblocked
    split
    · rfl
    · exact known.resolve_left (by simpa using unblocked)
  · rename_i blocked
    simpa [Option.isSome_iff_ne_none] using blocked

/-- Every decision is safe. -/
theorem decide_safe (input : Input) (running : ∀ r ∈ input.running, ∀ s, r.leftP50 = some s → 1 ≤ s) :
    SafeDecision input input.decide := by
  have entries : input.decide.order.Perm input.entries := order_perm input
  refine ⟨?_, entries, List.filter_sublist, ?_, ?_, ?_, ?_⟩
  · rw [← entries_indices]
    exact entries.map _
  · intro before e after split start
    obtain ⟨t, free⟩ := free_of_start running start
    have ready := ((start_iff running split free).mp start).2
    have spec := fit_spec input e.job t (occupants input input.decide before)
    rw [ready] at spec
    cases spec with
    | now fits own idle room => exact ⟨t, free, fits, own, idle, room⟩
  · intro before e after t split waits free line fits own
    obtain ⟨h, held⟩ := room_holds running split waits free line fits own
    exact held_stops running (split.trans (by simp : before ++ e :: after = (before ++ [e]) ++ after)) held
  · intro before e after t split waits may
    have ready : fit input e.job t (occupants input input.decide before) = .now :=
      fit_eq_now may.fits may.own may.idle may.room
    rw [start_iff running split may.free, not_and] at waits
    cases held : (passBefore input before).held with
    | none => exact absurd ready (waits held)
    | some h =>
        obtain ⟨front, w, back, split', holder⟩ := firstPass_holder _ held
        obtain ⟨one, two, rfl, rfl⟩ := unblocked_split split'
        have free := (mem_unblocked.mp (split'.symm ▸ List.mem_append_cons_self)).2
        have stands : order input = one ++ w.entry :: (two ++ e :: after) := by
          rw [← List.cons_append, ← List.append_assoc]
          exact split
        rw [show firstPass input _ (unblocked input one) = passBefore input one from rfl,
          ← occupants_eq running stands] at holder
        refine ⟨one, w.entry, two, w.tenant, rfl, fun start => ?_, free, holder⟩
        have now := ((start_iff running stands free).mp start).2
        have spec := fit_spec input w.entry.job w.tenant (occupants input input.decide one)
        rw [now] at spec
        cases spec with
        | now _ _ _ room => exact holder.full room
  · intro e member waits
    have stands : e ∈ order input := (order_perm input).mem_iff.mpr member
    exact info_reason input stands waits (reason_of_not_start running stands waits)

/-- The owner of a node, alone on it. -/
def owner : Tenant := ⟨0, ⟨1, .gate, true, 4, 24⟩, 0, 0, none, true⟩

/-- A job of the owner's workspace `w` that names no size. -/
def plainJob (id submitter : String) (tier : Tier) (arrival : Nat) : Queued :=
  ⟨0, id, "w", none, tier, none, none, false, 0, arrival, some 60, none, none, true, false,
    some submitter, none⟩

/-- A node with two slots, one of them taken for a minute. -/
def busyNode : Input where
  now := 0
  cfg := .default
  caps := ⟨8000, 16 * 2 ^ 30, 2, none⟩
  tenants := [owner]
  running := [⟨0, "r", "w", none, .normal, 4000, 8 * 2 ^ 30, false, some 60, none, false, some "a"⟩]
  queued := [plainJob "1" "a" .normal 0, plainJob "2" "b" .priority 1]
  rotation := .empty

theorem decide_safe_busy : SafeDecision busyNode busyNode.decide :=
  decide_safe busyNode (by decide)

example : busyNode.decide.start.map (·.job.jobId) = ["2"] := by decide +kernel

end K2.NodeQueue
