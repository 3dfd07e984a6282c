import K2.NodeQueue.Order

/-! # What starts

`fit` says which of the limits keeps a job from starting; a start pass starts the
jobs that fit while nothing is held; and only the first pass starts jobs now.
-/

namespace K2.NodeQueue

open Compute

/-! ## What `fit` checks -/

/-- Is the job within the node's caps, on an idle node at least? -/
def Fits (caps : Caps) (q : Queued) : Prop :=
  q.cpu caps ≤ caps.cpuMillis ∧ q.mem caps ≤ caps.memBytes

/-- The limits of the job's own tenant, workspace and submitter let it start
    beside `run`. -/
structure OwnLimits (q : Queued) (t : Tenant) (run : List SimRun) : Prop where
  server : run.countP (fun r => r.slot = q.slot) < t.limits.maxRunning
  workspace : ∀ m, q.wsMaxRunning = some m →
    run.countP (fun r => r.slot = q.slot && r.ws = q.workspaceId) < max m 1
  submitter : ∀ m, q.submitterMaxRunning = some m → 0 < m → lineOf q t ≠ .ci →
    submitterCount q run < m

/-- The node has room for the job beside `run`. -/
structure Room (input : Input) (q : Queued) (run : List SimRun) : Prop where
  cpu : (run.map (·.cpu)).sum + q.cpu input.caps ≤ input.caps.cpuMillis
  mem : (run.map (·.mem)).sum + q.mem input.caps ≤ input.caps.memBytes
  parallel : run.length < input.caps.parallelMax
  alone : q.exclusive = true → run = []
  shared : ∀ r ∈ run, r.exclusive = false
  /-- No secret job beside another workspace's under one uid. -/
  isolated : ∀ r ∈ run, input.cfg.oneUid = true ∨ r.slot = q.slot → r.ws ≠ q.workspaceId →
    q.secret = false ∧ r.secret = false

theorem isolates_eq_false {input : Input} {q : Queued} {r : SimRun} :
    isolates input q r = false ↔ (input.cfg.oneUid = true ∨ r.slot = q.slot → r.ws ≠ q.workspaceId →
      q.secret = false ∧ r.secret = false) := by
  rw [← Bool.not_eq_true]
  simp only [isolates, isolationBlocks, List.any_cons, List.any_nil, Bool.or_false, Bool.and_eq_true,
    Bool.or_eq_true, decide_eq_true_eq, bne_iff_ne, ← Bool.not_eq_true]
  tauto

section Fit

variable {input : Input} {q : Queued} {t : Tenant} {run : List SimRun}

theorem blockers_eq_nil : run.filter (isolates input q) = [] ↔
    ∀ r ∈ run, input.cfg.oneUid = true ∨ r.slot = q.slot → r.ws ≠ q.workspaceId →
      q.secret = false ∧ r.secret = false := by
  rw [List.filter_eq_nil_iff]
  refine forall₂_congr fun r _ => ?_
  rw [Bool.not_eq_true, isolates_eq_false]

theorem ownLimits_iff : OwnLimits q t run ↔
    ¬ run.countP (fun r => r.slot = q.slot) ≥ t.limits.maxRunning ∧
    ¬ (q.wsMaxRunning.any fun m =>
      run.countP (fun r => r.slot = q.slot && r.ws = q.workspaceId) ≥ max m 1) = true ∧
    ¬ ((q.submitterMaxRunning.filter fun m => m > 0 && lineOf q t != .ci).any fun m =>
      submitterCount q run ≥ m) = true := by
  constructor
  · intro own
    refine ⟨not_le.mpr own.server, ?_, ?_⟩
    · cases limit : q.wsMaxRunning with
      | none => simp
      | some m => simpa only [Option.any_some, decide_eq_true_eq, not_le] using own.workspace m limit
    · cases limit : q.submitterMaxRunning with
      | none => simp
      | some m =>
          intro full
          simp only [Option.any_eq_true, Option.filter_eq_some_iff, Bool.and_eq_true,
            decide_eq_true_eq, bne_iff_ne, Option.some.injEq] at full
          obtain ⟨_, ⟨rfl, on, line⟩, full⟩ := full
          exact absurd (own.submitter _ limit on line) (not_lt.mpr full)
  · rintro ⟨server, workspace, submitter⟩
    refine ⟨not_le.mp server, fun m limit => ?_, fun m limit on line => ?_⟩
    · simpa only [limit, Option.any_some, decide_eq_true_eq, not_le] using workspace
    · simpa [limit, on, line] using submitter

theorem room_iff (isolated : run.filter (isolates input q) = []) : Room input q run ↔
    ¬ (run.any (·.exclusive) = true ∨ (q.exclusive = true ∧ run ≠ [])) ∧
    ¬ run.length ≥ input.caps.parallelMax ∧
    ¬ ((run.map (·.cpu)).sum + q.cpu input.caps > input.caps.cpuMillis ∨
      (run.map (·.mem)).sum + q.mem input.caps > input.caps.memBytes) := by
  constructor
  · intro room
    refine ⟨?_, not_le.mpr room.parallel, ?_⟩
    · rintro (busy | ⟨alone, occupied⟩)
      · obtain ⟨r, hr, exclusive⟩ := List.any_eq_true.mp busy
        rw [room.shared r hr] at exclusive
        cases exclusive
      · exact occupied (room.alone alone)
    · rintro (cpu | mem)
      · exact absurd room.cpu (not_le.mpr cpu)
      · exact absurd room.mem (not_le.mpr mem)
  · rintro ⟨idle, parallel, sizes⟩
    rw [not_or] at idle sizes
    refine ⟨not_lt.mp sizes.1, not_lt.mp sizes.2, not_le.mp parallel, fun alone => ?_, fun r hr => ?_,
      blockers_eq_nil.mp isolated⟩
    · by_contra occupied
      exact idle.2 ⟨alone, occupied⟩
    · rw [← Bool.not_eq_true]
      exact fun busy => idle.1 (List.any_eq_true.mpr ⟨r, hr, busy⟩)

variable (input q t run) in
/-- What each answer of `fit` says. -/
inductive FitSpec : Fit → Prop where
  | never (big : ¬ Fits input.caps q) : FitSpec .never
  | own (code : String) (fits : Fits input.caps q)
      (full : ¬ OwnLimits q t run ∨ (lineOf q t = .batch ∧ run ≠ [])) : FitSpec (.wait code)
  | isolation (code : String) (fits : Fits input.caps q) (line : (lineOf q t).holds = false)
      (own : OwnLimits q t run) (full : ¬ Room input q run) : FitSpec (.wait code)
  | capacity (code : String) (fits : Fits input.caps q) (own : OwnLimits q t run)
      (idle : lineOf q t = .batch → run = []) (full : ¬ Room input q run) : FitSpec (.capacity code)
  | now (fits : Fits input.caps q) (own : OwnLimits q t run) (idle : lineOf q t = .batch → run = [])
      (room : Room input q run) : FitSpec .now

theorem FitSpec.ite {c : Prop} [Decidable c] {x y : Fit} (yes : c → FitSpec input q t run x)
    (no : ¬ c → FitSpec input q t run y) : FitSpec input q t run (if c then x else y) := by
  split
  · exact yes (by assumption)
  · exact no (by assumption)

variable (input q t run) in
theorem fit_spec : FitSpec input q t run (fit input q t run) := by
  unfold fit
  simp only
  refine .ite (fun big => .never fun fits => big.elim (not_lt.mpr fits.1) (not_lt.mpr fits.2))
    fun small => ?_
  have fits : Fits input.caps q := ⟨not_lt.mp fun h => small (.inl h), not_lt.mp fun h => small (.inr h)⟩
  refine .ite (fun server => .own _ fits (.inl fun own => (ownLimits_iff.mp own).1 server))
    fun server => ?_
  refine .ite (fun workspace => .own _ fits (.inl fun own => (ownLimits_iff.mp own).2.1 workspace))
    fun workspace => ?_
  refine .ite (fun submitter => .own _ fits (.inl fun own => (ownLimits_iff.mp own).2.2 submitter))
    fun submitter => ?_
  have own : OwnLimits q t run := ownLimits_iff.mpr ⟨server, workspace, submitter⟩
  refine .ite (fun batch => .own _ fits (.inr batch)) fun batch => ?_
  have idle : lineOf q t = .batch → run = [] := fun line => by
    by_contra occupied
    exact batch ⟨line, occupied⟩
  refine .ite (fun blockers => ?_) fun blockers => ?_
  · have full : ¬ Room input q run := fun room => blockers (blockers_eq_nil.mpr room.isolated)
    exact .ite (fun _ => .capacity _ fits own idle full)
      fun line => .isolation _ fits (by simpa using line) own full
  rw [not_not] at blockers
  refine .ite (fun busy => .capacity _ fits own idle fun room => ((room_iff blockers).mp room).1 busy)
    fun free => ?_
  refine .ite (fun slots => .capacity _ fits own idle fun room => ((room_iff blockers).mp room).2.1 slots)
    fun slots => ?_
  exact .ite (fun sizes => .capacity _ fits own idle fun room => ((room_iff blockers).mp room).2.2 sizes)
    fun sizes => .now fits own idle ((room_iff blockers).mpr ⟨free, slots, sizes⟩)

theorem fit_eq_now (fits : Fits input.caps q) (own : OwnLimits q t run)
    (idle : lineOf q t = .batch → run = []) (room : Room input q run) : fit input q t run = .now := by
  have spec := fit_spec input q t run
  cases answer : fit input q t run with
  | now => rfl
  | never =>
      rw [answer] at spec
      cases spec with
      | never big => exact absurd fits big
  | wait c =>
      rw [answer] at spec
      cases spec with
      | own _ _ full =>
          rcases full with full | ⟨batch, occupied⟩
          · exact absurd own full
          · exact absurd (idle batch) occupied
      | isolation _ _ _ _ full => exact absurd room full
  | capacity c =>
      rw [answer] at spec
      cases spec with
      | capacity _ _ _ _ full => exact absurd room full

end Fit

/-! ## One job of a start pass -/

/-- Does the simulation say why the job at the index doesn't start? -/
def HasReason (sim : Sim) (i : Nat) : Prop :=
  (sim.blocked.lookup i).isSome = true ∨ (sim.whyNow.lookup i).isSome = true

section Look

variable (input : Input) (p90 : Bool) (now : Nat) (firstRound : Bool)

/-- The job starts. -/
structure Starts (p : Pass) (w : Waiting) (p' : Pass) : Prop where
  free : p.held = none
  ready : fit input w.entry.job w.tenant p.run = .now
  run : p'.run = p.run ++ [w.entry.job.sim p90 input.caps w.tenant now]
  started : p'.started = p.started ++ [w]
  startAt : p'.sim.startAt = p.sim.startAt.insert w.entry.index now
  held : p'.held = none
  reasons : ∀ i, HasReason p.sim i → HasReason p'.sim i

/-- The job goes on waiting. -/
structure Stays (p : Pass) (w : Waiting) (p' : Pass) : Prop where
  run : p'.run = p.run
  started : p'.started = p.started
  startAt : p'.sim.startAt = p.sim.startAt
  reasons : ∀ i, HasReason p.sim i → HasReason p'.sim i
  reason : firstRound = true → HasReason p'.sim w.entry.index
  ready : fit input w.entry.job w.tenant p.run = .now → p.held.isSome = true
  held : ∀ h, p.held = some h → p'.held = some h
  holds : p.held = none → ∀ c, fit input w.entry.job w.tenant p.run = .capacity c →
    p'.held = w.hold input (!p.capacityHeadSeen) now
  free : p.held = none → (∀ c, fit input w.entry.job w.tenant p.run ≠ .capacity c) → p'.held = none

variable {input p90 now firstRound}

theorem hasReason_insert_why {sim : Sim} {i j : Nat} (c : String) (reason : HasReason sim i) :
    HasReason { sim with whyNow := sim.whyNow.insert j c } i := by
  refine reason.imp_right fun why => ?_
  simp only [FinMap.lookup_insert]
  split
  · rfl
  · exact why

theorem hasReason_insert_blocked {sim : Sim} {i j : Nat} (c : String) (reason : HasReason sim i) :
    HasReason { sim with blocked := sim.blocked.insert j c } i := by
  refine reason.imp_left fun blocked => ?_
  simp only [FinMap.lookup_insert]
  split
  · rfl
  · exact blocked

theorem note_spec (p : Pass) (w : Waiting) (f : Fit) :
    (p.note w f).run = p.run ∧ (p.note w f).held = p.held ∧ (p.note w f).started = p.started ∧
      (p.note w f).capacityHeadSeen = p.capacityHeadSeen ∧
      (p.note w f).sim.startAt = p.sim.startAt ∧
      (∀ i, HasReason p.sim i → HasReason (p.note w f).sim i) ∧
      ((w.why f p.held p.ahead).isSome = true → HasReason (p.note w f).sim w.entry.index) := by
  refine ⟨rfl, rfl, rfl, rfl, rfl, fun i reason => ?_, fun why => ?_⟩
  · unfold Pass.note
    cases w.why f p.held p.ahead with
    | none => exact reason
    | some c => exact hasReason_insert_why c reason
  · obtain ⟨c, why⟩ := Option.isSome_iff_exists.mp why
    refine .inr ?_
    simp [Pass.note, why]

/-- A job that doesn't start has a reason, unless it can never start here. -/
theorem why_isSome (w : Waiting) {f : Fit} {held : Option String}
    (ahead : List ((Slot × String × Line) × String)) (waits : f = .now → held.isSome = true)
    (fits : f ≠ .never) : (w.why f held ahead).isSome = true := by
  cases f with
  | never => exact absurd rfl fits
  | wait c => cases held <;> rfl
  | now =>
      obtain ⟨h, rfl⟩ := Option.isSome_iff_exists.mp (waits rfl)
      rfl
  | capacity c =>
      cases held with
      | some h => rfl
      | none =>
          unfold Waiting.why
          simp only
          split <;> rfl

/-- The pass with the reason of a job noted, in the first round. -/
def noted (firstRound : Bool) (p : Pass) (w : Waiting) (f : Fit) : Pass :=
  if firstRound then p.note w f else p

theorem noted_spec (firstRound : Bool) (p : Pass) (w : Waiting) (f : Fit) :
    (noted firstRound p w f).run = p.run ∧ (noted firstRound p w f).held = p.held ∧
      (noted firstRound p w f).started = p.started ∧
      (noted firstRound p w f).capacityHeadSeen = p.capacityHeadSeen ∧
      (noted firstRound p w f).sim.startAt = p.sim.startAt ∧
      (∀ i, HasReason p.sim i → HasReason (noted firstRound p w f).sim i) ∧
      (firstRound = true → (w.why f p.held p.ahead).isSome = true →
        HasReason (noted firstRound p w f).sim w.entry.index) := by
  unfold noted
  cases firstRound with
  | false => exact ⟨rfl, rfl, rfl, rfl, rfl, fun _ reason => reason, fun first => by simp at first⟩
  | true =>
      obtain ⟨run, held, started, seen, startAt, reasons, reason⟩ := note_spec p w f
      exact ⟨run, held, started, seen, startAt, reasons, fun _ => reason⟩

theorem look_cases (input : Input) (p90 : Bool) (now : Nat) (firstRound : Bool) (p : Pass) (w : Waiting) :
    Starts input p90 now p w (p.look input p90 now firstRound w) ∨
      Stays input now firstRound p w (p.look input p90 now firstRound w) := by
  unfold Pass.look
  have facts := noted_spec firstRound p w (fit input w.entry.job w.tenant p.run)
  unfold noted at facts
  generalize answer : fit input w.entry.job w.tenant p.run = f at facts
  simp only
  generalize (if firstRound then p.note w f else p) = noted at facts
  obtain ⟨run, held, started, seen, startAt, reasons, reason⟩ := facts
  -- A job that isn't started keeps what was noted of it.
  have stays (never : f ≠ .never) (waits : f = .now → p.held.isSome = true)
      (unheld : p.held = none → ∀ c, f ≠ .capacity c) :
      Stays input now firstRound p w noted := by
    refine ⟨run, started, startAt, reasons, fun first => ?_, answer ▸ waits, fun h same => held.trans same,
      fun free c full => absurd (answer ▸ full) (unheld free c), fun free _ => held.trans free⟩
    exact reason first (why_isSome w p.ahead waits never)
  cases f with
  | now =>
      cases hold : noted.held with
      | none =>
          have free : p.held = none := held.symm.trans hold
          exact .inl ⟨free, answer, by rw [run], by rw [started], by rw [startAt], rfl, reasons⟩
      | some h =>
          exact .inr (stays (by simp) (fun _ => by simp [← held, hold]) fun _ c => by simp)
  | wait c =>
      exact .inr (stays (by simp) (fun h => by simp at h) fun _ c => by simp)
  | capacity c =>
      cases hold : noted.held with
      | none =>
          refine .inr ⟨run, started, startAt, reasons, fun first => ?_, fun ready => ?_, fun h same => ?_,
            fun free _ _ => ?_, fun _ other => absurd answer (other c)⟩
          · exact reason first (why_isSome w p.ahead (fun h => by simp at h) (by simp))
          · simp [answer] at ready
          · rw [← held, hold] at same
            cases same
          · simp only [seen]
      | some h =>
          exact .inr (stays (by simp) (fun h => by simp at h) fun free => by
            simp [held.trans free] at hold)
  | never =>
      refine .inr ⟨run, started, startAt, fun i old => hasReason_insert_blocked _ (reasons i old),
        fun _ => .inl (by simp), fun h => by simp [answer] at h, fun h same => held.trans same,
        fun _ c full => by simp [answer] at full, fun free _ => held.trans free⟩

end Look

/-! ## The first pass -/

section FirstPass

variable (input : Input) (known : Sim)

/-- The start pass at 0. -/
def firstPass (ws : List Waiting) : Pass :=
  ws.foldl (Pass.look input false 0 true) ⟨known, input.running.map (·.sim false), none, false, [], []⟩

/-- A started job, as one that runs. -/
def Waiting.sim (w : Waiting) : SimRun := w.entry.job.sim false input.caps w.tenant 0

theorem firstPass_concat (ws : List Waiting) (w : Waiting) :
    firstPass input known (ws ++ [w]) = (firstPass input known ws).look input false 0 true w := by
  simp [firstPass, List.foldl_append]

variable {input known}

/-- An invariant of the pass: it holds at the start, and one more job keeps it. -/
theorem firstPass_induction {P : List Waiting → Pass → Prop}
    (start : P [] ⟨known, input.running.map (·.sim false), none, false, [], []⟩)
    (starts : ∀ pre w p', P pre (firstPass input known pre) →
      Starts input false 0 (firstPass input known pre) w p' → P (pre ++ [w]) p')
    (stays : ∀ pre w p', P pre (firstPass input known pre) →
      Stays input 0 true (firstPass input known pre) w p' → P (pre ++ [w]) p')
    (ws : List Waiting) : P ws (firstPass input known ws) := by
  induction ws using List.reverseRecOn with
  | nil => exact start
  | append_singleton pre w ih =>
      rw [firstPass_concat]
      rcases look_cases input false 0 true (firstPass input known pre) w with step | step
      · exact starts pre w _ ih step
      · exact stays pre w _ ih step

variable (input known) in
theorem firstPass_run (ws : List Waiting) : (firstPass input known ws).run =
    input.running.map (·.sim false) ++ (firstPass input known ws).started.map (·.sim input) := by
  refine firstPass_induction (P := fun _ p => p.run =
    input.running.map (·.sim false) ++ p.started.map (·.sim input)) (by simp) ?_ ?_ ws
  · intro pre w p' ih step
    rw [step.run, step.started, ih, List.map_append, List.append_assoc]
    rfl
  · intro pre w p' ih step
    rw [step.run, step.started, ih]

variable (input known) in
theorem firstPass_sublist (ws : List Waiting) : (firstPass input known ws).started.Sublist ws := by
  refine firstPass_induction (P := fun ws p => p.started.Sublist ws) .slnil ?_ ?_ ws
  · intro pre w p' ih step
    rw [step.started]
    exact ih.append (List.Sublist.refl _)
  · intro pre w p' ih step
    rw [step.started]
    exact ih.trans (List.sublist_append_left _ _)

theorem firstPass_startAt (none_yet : known.startAt = .empty) (ws : List Waiting) (i : Nat) :
    (firstPass input known ws).sim.startAt.lookup i =
      if i ∈ (firstPass input known ws).started.map (·.entry.index) then some 0 else none := by
  refine firstPass_induction (P := fun _ p => p.sim.startAt.lookup i =
    if i ∈ p.started.map (·.entry.index) then some 0 else none) (by simp [none_yet]) ?_ ?_ ws
  · intro pre w p' ih step
    rw [step.startAt, step.started, FinMap.lookup_insert, ih]
    by_cases here : w.entry.index = i
    · simp [here]
    · simp [here, Ne.symm here]
  · intro pre w p' ih step
    rw [step.startAt, step.started, ih]

variable (input known) in
theorem firstPass_reason (ws : List Waiting) (w : Waiting) (member : w ∈ ws) :
    w ∈ (firstPass input known ws).started ∨ HasReason (firstPass input known ws).sim w.entry.index := by
  revert member
  refine firstPass_induction (P := fun ws p => w ∈ ws → w ∈ p.started ∨ HasReason p.sim w.entry.index)
    (fun member => by simp at member) ?_ ?_ ws
  · intro pre v p' ih step member
    rw [step.started]
    rcases List.mem_append.mp member with early | here
    · exact (ih early).imp (List.mem_append_left _) (step.reasons _)
    · exact .inl (List.mem_append_right _ here)
  · intro pre v p' ih step member
    rw [step.started]
    rcases List.mem_append.mp member with early | here
    · exact (ih early).imp_right (step.reasons _)
    · obtain rfl := List.mem_singleton.mp here
      exact .inr (step.reason rfl)

variable (input) in
theorem firstPass_reasons (ws : List Waiting) (i : Nat) (reason : HasReason known i) :
    HasReason (firstPass input known ws).sim i :=
  firstPass_induction (P := fun _ p => HasReason p.sim i) reason
    (fun _ _ _ ih step => step.reasons i ih) (fun _ _ _ ih step => step.reasons i ih) ws

variable (input known) in
theorem firstPass_append (front back : List Waiting) : ∃ more, more.Sublist back ∧
    (firstPass input known (front ++ back)).started = (firstPass input known front).started ++ more := by
  induction back using List.reverseRecOn with
  | nil => exact ⟨[], .slnil, by simp⟩
  | append_singleton back w ih =>
      obtain ⟨more, sub, started⟩ := ih
      rw [← List.append_assoc, firstPass_concat]
      rcases look_cases input false 0 true (firstPass input known (front ++ back)) w with step | step
      · exact ⟨more ++ [w], sub.append (List.Sublist.refl _), by rw [step.started, started, List.append_assoc]⟩
      · exact ⟨more, sub.trans (List.sublist_append_left _ _), by rw [step.started, started]⟩

theorem firstPass_held (front back : List Waiting) {h : String}
    (held : (firstPass input known front).held = some h) :
    (firstPass input known (front ++ back)).held = some h ∧
      (firstPass input known (front ++ back)).started = (firstPass input known front).started := by
  induction back using List.reverseRecOn with
  | nil => simpa using held
  | append_singleton back w ih =>
      rw [← List.append_assoc, firstPass_concat]
      rcases look_cases input false 0 true (firstPass input known (front ++ back)) w with step | step
      · rw [step.free] at ih
        cases ih.1
      · exact ⟨step.held h ih.1, step.started.trans ih.2⟩

/-- A job that holds every later start: it waits for room on the node only, and
    is of CI or Priority, or a Standard one that has waited long. -/
structure Holder (input : Input) (w : Waiting) (run : List SimRun) : Prop where
  fits : Fits input.caps w.entry.job
  own : OwnLimits w.entry.job w.tenant run
  full : ¬ Room input w.entry.job run
  line : w.line.holds = true ∨
    (w.line = .standard ∧ input.now - w.entry.job.enqueuedAt ≥ input.cfg.backfillHoldSecs)

theorem hold_spec {w : Waiting} {first : Bool} {h : String} (hold : w.hold input first 0 = some h) :
    w.line.holds = true ∨
      (w.line = .standard ∧ input.now - w.entry.job.enqueuedAt ≥ input.cfg.backfillHoldSecs) := by
  unfold Waiting.hold at hold
  split at hold
  · exact .inl (by assumption)
  · rename_i line
    split at hold
    · rename_i long
      simp only [Bool.and_eq_true, decide_eq_true_eq] at long
      refine .inr ⟨?_, by simpa using long.2⟩
      cases same : w.line with
      | standard => rfl
      | batch => simp [same, Line.backfillHolds] at long
      | priority => simp [same, Line.holds] at line
      | ci => simp [same, Line.holds] at line
    · cases hold

section Turn

variable {ws front back : List Waiting} {w : Waiting}

theorem started_iff (distinct : ws.Nodup) (split : ws = front ++ w :: back) :
    w ∈ (firstPass input known ws).started ↔ (firstPass input known front).held = none ∧
      fit input w.entry.job w.tenant (firstPass input known front).run = .now := by
  obtain ⟨more, sub, started⟩ := firstPass_append input known (front ++ [w]) back
  rw [List.append_assoc, List.singleton_append, ← split] at started
  rw [started, firstPass_concat]
  subst split
  rw [List.nodup_append, List.nodup_cons] at distinct
  have not_before : w ∉ (firstPass input known front).started := fun member =>
    distinct.2.2 w ((firstPass_sublist input known front).subset member) w (by simp) rfl
  have not_after : w ∉ more := fun member => distinct.2.1.1 (sub.subset member)
  rcases look_cases input false 0 true (firstPass input known front) w with step | step
  · simp [step.started, step.free, step.ready]
  · simp only [step.started, List.mem_append, not_before, not_after, or_self, false_iff, not_and]
    intro free ready
    have := step.ready ready
    simp [free] at this

/-- Whoever holds the starts stands ahead, and waits for room only. -/
theorem firstPass_holder (ws : List Waiting) {h : String}
    (held : (firstPass input known ws).held = some h) :
    ∃ front w back, ws = front ++ w :: back ∧ Holder input w (firstPass input known front).run := by
  revert held
  refine firstPass_induction (P := fun ws p => p.held = some h → ∃ front w back, ws = front ++ w :: back ∧
    Holder input w (firstPass input known front).run) (fun held => by simp at held) ?_ ?_ ws
  · intro pre w p' ih step held
    rw [step.held] at held
    cases held
  · intro pre w p' ih step held
    cases before : (firstPass input known pre).held with
    | some h' =>
        have same := (step.held h' before).symm.trans held
        obtain ⟨front, v, back, rfl, holder⟩ := ih (before.trans same)
        exact ⟨front, v, back ++ [w], by simp, holder⟩
    | none =>
        have spec := fit_spec input w.entry.job w.tenant (firstPass input known pre).run
        cases answer : fit input w.entry.job w.tenant (firstPass input known pre).run with
        | capacity c =>
            rw [answer] at spec
            cases spec with
            | capacity _ fits own _ full =>
                have hold := (step.holds before c answer).symm.trans held
                exact ⟨pre, w, [], rfl, fits, own, full, hold_spec hold⟩
        | now | wait | never =>
            rw [step.free before fun c full => by simp [answer] at full] at held
            cases held

end Turn

end FirstPass

/-! ## The later rounds -/

section Rounds

variable (input : Input) (p90 : Bool) {now : Nat}

theorem pass_startAt (ws : List Waiting) (p : Pass) (later : 1 ≤ now)
    (waiting : ∀ w ∈ ws, p.sim.startAt.lookup w.entry.index ≠ some 0) (i : Nat) :
    (ws.foldl (Pass.look input p90 now false) p).sim.startAt.lookup i = some 0 ↔
      p.sim.startAt.lookup i = some 0 := by
  induction ws generalizing p with
  | nil => rfl
  | cons w rest ih =>
      have one (j : Nat) : (p.look input p90 now false w).sim.startAt.lookup j = some 0 ↔
          p.sim.startAt.lookup j = some 0 := by
        rcases look_cases input p90 now false p w with step | step
        · rw [step.startAt, FinMap.lookup_insert]
          split
          · rename_i here
            subst here
            simp only [Option.some.injEq, waiting w (by simp), iff_false]
            omega
          · rfl
        · rw [step.startAt]
      rw [List.foldl_cons, ih _ fun v hv => mt (one _).mp (waiting v (by simp [hv])), one]

theorem pass_reasons (now : Nat) (ws : List Waiting) (p : Pass) (i : Nat) (reason : HasReason p.sim i) :
    HasReason (ws.foldl (Pass.look input p90 now false) p).sim i := by
  induction ws generalizing p with
  | nil => exact reason
  | cons w rest ih =>
      apply ih
      rcases look_cases input p90 now false p w with step | step
      · exact step.reasons i reason
      · exact step.reasons i reason

theorem rounds_later (n : Nat) (sim : Sim) (run : List SimRun) (pending : List Waiting)
    (later : 1 ≤ now) (waiting : ∀ w ∈ pending, sim.startAt.lookup w.entry.index ≠ some 0) :
    (∀ i, (rounds input p90 n now false sim run pending).startAt.lookup i = some 0 ↔
      sim.startAt.lookup i = some 0) ∧
    ∀ i, HasReason sim i → HasReason (rounds input p90 n now false sim run pending) i := by
  induction n generalizing now sim run pending with
  | zero => exact ⟨fun _ => Iff.rfl, fun _ reason => reason⟩
  | succ n ih =>
      have same := pass_startAt input p90 pending ⟨sim, run, none, false, [], []⟩
        later waiting
      have reasons := pass_reasons input p90 now pending
        ⟨sim, run, none, false, [], []⟩
      rw [rounds]
      simp only
      split
      · exact ⟨same, reasons⟩
      · split
        · exact ⟨same, reasons⟩
        · rename_i next _
          obtain ⟨tail, tail_reasons⟩ := ih _ _ _ (later.trans (le_max_right next now)) fun w hw =>
            mt (same _).mp (waiting w (List.mem_of_mem_filter hw))
          exact ⟨fun i => (tail i).trans (same i), fun i reason => tail_reasons i (reasons i reason)⟩

end Rounds

/-! ## The simulation -/

section Simulate

variable (input : Input) (ord : List Entry)

/-- What is known before the first round: whom nothing could start. -/
def knownSim : Sim where
  startAt := .empty
  blocked := ord.foldl (noteBlocked input) .empty
  whyNow := .empty

/-- The first pass over an order. -/
def startPass : Pass := firstPass input (knownSim input ord) (unblocked input ord)

theorem simulate_spec (running : ∀ r ∈ input.running, ∀ s, r.leftP50 = some s → 1 ≤ s) :
    (∀ i, (simulate input ord false).startAt.lookup i = some 0 ↔
      i ∈ (startPass input ord).started.map (·.entry.index)) ∧
    ∀ i, HasReason (startPass input ord).sim i → HasReason (simulate input ord false) i := by
  have first (i : Nat) : (startPass input ord).sim.startAt.lookup i = some 0 ↔
      i ∈ (startPass input ord).started.map (·.entry.index) := by
    rw [startPass, firstPass_startAt rfl]
    split <;> simp_all
  have ends (r : SimRun) (member : r ∈ (startPass input ord).run) (s : Nat) (known : r.ends = some s) :
      1 ≤ s := by
    rw [startPass, firstPass_run, List.mem_append, List.mem_map, List.mem_map] at member
    rcases member with ⟨job, old, rfl⟩ | ⟨w, -, rfl⟩
    · exact running job old s known
    · simp only [Waiting.sim, Queued.sim, Option.map_eq_some_iff] at known
      obtain ⟨d, -, rfl⟩ := known
      omega
  have unfolded : simulate input ord false = rounds input false (4 * input.queued.length + 7 + 1) 0 true
      (knownSim input ord) (input.running.map (·.sim false)) (unblocked input ord) := rfl
  have pass : (unblocked input ord).foldl (Pass.look input false 0 true)
      ⟨knownSim input ord, input.running.map (·.sim false), none, false, [], []⟩ =
        startPass input ord := rfl
  rw [unfolded, rounds]
  simp only [pass]
  split
  · exact ⟨first, fun _ reason => reason⟩
  · split
    · exact ⟨first, fun _ reason => reason⟩
    · rename_i next soonest
      obtain ⟨r, member, known⟩ := List.mem_filterMap.mp (List.min?_mem soonest)
      obtain ⟨same, reasons⟩ := rounds_later input false (4 * input.queued.length + 7)
        (startPass input ord).sim _ ((startPass input ord).left (unblocked input ord))
        ((ends r member next known).trans (le_max_left next 0))
        fun w hw now => by
          obtain ⟨v, hv, here⟩ := List.mem_map.mp ((first _).mp now)
          have gone : (startPass input ord).started.any (·.entry.index = w.entry.index) = true :=
            List.any_eq_true.mpr ⟨v, hv, by simpa using here⟩
          simp [Pass.left, gone] at hw
      exact ⟨fun i => (same i).trans (first i), reasons⟩

end Simulate

end K2.NodeQueue
