import K2.Lib.Machines
import K2.NodeQueue.Safety

/-! # The per-submitter cap

The queue at run time: jobs start only through a decision and run until they
end. A queued job is judged by the tier it counts as here, a running one by the
tier it was sent with. A CI job of a server whose share doesn't allow the gate is
capped as a Standard job before it starts and not counted afterwards, so the
submitter's next one starts beside it. As long as no such job runs, the running
jobs of a submitter stay within its cap.
-/

namespace K2.NodeQueue

open Compute Rounds

/-! ## Running jobs -/

/-- A running attempt's accounting. -/
structure RunMeta where
  slot : Slot
  jobId : String
  tier : Tier
  ws : String
  session : Option String
  submitter : Option String
  cpu : Nat
  mem : Nat
  exclusive : Bool
  startedAt : Int
  /-- The run time expected when it started: p50 and p90. -/
  est : Option (Nat × Nat)
  secret : Bool

namespace RunMeta

variable (m : RunMeta)

def turnKey : String := ((m.submitter).or m.session).getD ""

/-- What is left at `now` of an expected run time, half a minute at least. -/
def left (now : Int) (d : Nat) : Nat := max (d - (now - m.startedAt).toNat) 30

/-- The running job, as a snapshot shows it. -/
def snap (now : Int) : Running where
  slot := m.slot
  jobId := m.jobId
  workspaceId := m.ws
  sessionId := m.session
  tier := m.tier
  cpuMillis := m.cpu
  memBytes := m.mem
  exclusive := m.exclusive
  leftP50 := m.est.map fun e => m.left now e.1
  leftP90 := m.est.map fun e => m.left now e.2
  secret := m.secret
  submitter := m.submitter

end RunMeta

/-- The accounting of an attempt from its start. -/
def Queued.started (q : Queued) (caps : Caps) (now : Int) (est : Option (Nat × Nat)) : RunMeta where
  slot := q.slot
  jobId := q.jobId
  tier := q.tier
  ws := q.workspaceId
  session := q.sessionId
  submitter := q.submitter
  cpu := q.cpu caps
  mem := q.mem caps
  exclusive := q.exclusive
  startedAt := now
  est
  secret := q.secret

abbrev lingerWorkspace : String := "(unknown workspace)"

/-- A leftover unit counts as a running secret job of an unknown workspace. -/
def lingerRunning (slot : Slot) (unit : String) : Running :=
  ⟨slot, lingerJobPrefix ++ unit, lingerWorkspace, none, .normal, 0, 0, false, none, none, true, none⟩

/-! ## The loop -/

/-- What one pass of the loop meets. -/
structure Tick where
  now : Int
  cfg : Config
  caps : Caps
  tenants : List Tenant
  lingering : List (Slot × String)
  queued : List Queued
  rotation : Rotation
  /-- Has the job ended since the last pass? -/
  ended : RunMeta → Bool
  /-- Is the job still queued when it is its turn to start? -/
  starts : Queued → Bool
  /-- The run time expected of the job. -/
  est : Queued → Option (Nat × Nat)

namespace Tick

variable (k : Tick) (runs : List RunMeta)

/-- The jobs that still run. -/
def live : List RunMeta := runs.filter (!k.ended ·)

def input : Input where
  now := k.now
  cfg := k.cfg
  caps := k.caps
  tenants := k.tenants
  running := (k.live runs).map (·.snap k.now) ++ k.lingering.map fun l => lingerRunning l.1 l.2
  queued := k.queued
  rotation := k.rotation

end Tick

/-- One pass: what ended is gone, and what the decision starts runs. -/
def tick (runs : List RunMeta) (k : Tick) : List RunMeta :=
  k.live runs ++ (((k.input runs).decide.start.map (·.job)).filter k.starts).map fun q =>
    q.started k.caps k.now (k.est q)

deriving instance DecidableEq for ShareLimits

/-! ## The cap -/

section Cap

variable (t : Tenant) (ws who : String)

/-- Is the job of the server, workspace and submitter, and not of CI here? -/
def Tenant.counts (m : RunMeta) : Bool :=
  m.slot = t.slot && m.ws = ws && m.turnKey = who && t.effectiveTier m.tier != .ci

/-- The running jobs of the submitter, but for CI. -/
def Tenant.load (runs : List RunMeta) : Nat := runs.countP (t.counts ws who)

/-- The server's share is as ever, and every plan of the submitter carries the cap. -/
def Capped (cap : Nat) (k : Tick) : Prop :=
  (∀ u ∈ tenantOf k.tenants t.slot, u.limits = t.limits) ∧
    ∀ q ∈ k.queued, q.slot = t.slot → q.workspaceId = ws → q.turnKey = who →
      q.submitterMaxRunning = some cap

/-- No job that the submitter sent as CI runs as something else. -/
def Judged (runs : List RunMeta) (k : Tick) : Prop :=
  ∀ m ∈ k.live runs, t.counts ws who m = true → m.tier ≠ .ci

instance (cap : Nat) (k : Tick) : Decidable (Capped t ws who cap k) :=
  inferInstanceAs (Decidable ((∀ u ∈ tenantOf _ _, _) ∧ ∀ q ∈ _, _ → _ → _ → _))

instance (runs : List RunMeta) (k : Tick) : Decidable (Judged t ws who runs k) :=
  inferInstanceAs (Decidable (∀ m ∈ _, _ → _))

variable {t : Tenant} {ws who : String}

theorem effectiveTier_eq_ci (t : Tenant) (tier : Tier) :
    t.effectiveTier tier = .ci ↔ tier = .ci ∧ t.limits.allowsClass .gate = true := by
  cases tier with
  | ci => simp [Tenant.effectiveTier, effective]
  | priority =>
      simp only [Tenant.effectiveTier, effective, reduceCtorEq, false_and, iff_false]
      split <;> simp
  | batch | normal => simp [Tenant.effectiveTier, effective]

theorem lineOf_eq_ci (q : Queued) (t : Tenant) : lineOf q t = .ci ↔ t.effectiveTier q.tier = .ci := by
  unfold lineOf
  cases t.effectiveTier q.tier <;> simp [Tier.line]

theorem counts_started {q : Queued} {caps : Caps} {now : Int} {est : Option (Nat × Nat)} :
    t.counts ws who (q.started caps now est) = true ↔ q.slot = t.slot ∧ q.workspaceId = ws ∧
      q.turnKey = who ∧ t.effectiveTier q.tier ≠ .ci := by
  simp only [Tenant.counts, Bool.and_eq_true, decide_eq_true_eq, bne_iff_ne, and_assoc]
  rfl

section Step

variable {k : Tick} {runs : List RunMeta} {cap : Nat}

/-- The jobs that a stretch of the order starts. -/
def startsOf (k : Tick) (runs : List RunMeta) (before : List Entry) : List Entry :=
  before.filter (· ∈ (k.input runs).decide.start)

/-- How many of them count for the submitter. -/
def loadOf (t : Tenant) (ws who : String) (k : Tick) (started : List Entry) : Nat :=
  started.countP fun e => t.counts ws who (e.job.started k.caps k.now (k.est e.job))

theorem running_known (k : Tick) (runs : List RunMeta) :
    ∀ r ∈ (k.input runs).running, ∀ s, r.leftP50 = some s → 1 ≤ s := by
  intro r member s left
  rcases List.mem_append.mp member with job | unit
  · obtain ⟨m, -, rfl⟩ := List.mem_map.mp job
    obtain ⟨e, -, rfl⟩ := Option.map_eq_some_iff.mp left
    exact .trans (by decide) (Nat.le_max_right _ 30)
  · obtain ⟨l, -, rfl⟩ := List.mem_map.mp unit
    cases left

/-- At a job's turn its submitter's running jobs and the starts before it are
    counted, if no running one was sent as CI. -/
theorem load_le_submitterCount (share : ∀ u ∈ tenantOf k.tenants t.slot, u.limits = t.limits)
    (judged : Judged t ws who runs k) (before : List Entry)
    (known : ∀ e ∈ startsOf k runs before, ∃ u, Free (k.input runs) e.job u) {q : Queued}
    (slot : q.slot = t.slot) (here : q.workspaceId = ws) (turn : q.turnKey = who) :
    t.load ws who (k.live runs) + loadOf t ws who k (startsOf k runs before) ≤
      submitterCount q (occupants (k.input runs) (k.input runs).decide before) := by
  unfold submitterCount occupants
  rw [List.countP_append]
  refine Nat.add_le_add ?_ ?_
  · simp only [Tick.input, List.map_append, List.map_map, List.countP_append, List.countP_map]
    refine .trans (List.countP_mono_left fun m member counts => ?_) (Nat.le_add_right _ _)
    have sent := judged m member counts
    simp only [Tenant.counts, Bool.and_eq_true, decide_eq_true_eq] at counts
    obtain ⟨⟨⟨at_slot, in_ws⟩, by_who⟩, -⟩ := counts
    simp [Running.sim, RunMeta.snap, sent, at_slot, in_ws, slot, here, turn, ← by_who, RunMeta.turnKey]
  · rw [List.countP_filterMap]
    refine List.countP_mono_left fun e member counts => ?_
    obtain ⟨at_slot, in_ws, by_who, not_ci⟩ := counts_started.mp counts
    obtain ⟨u, free⟩ := known e member
    have limits : u.limits = t.limits := share u (at_slot ▸ free.tenant)
    have line : lineOf e.job u ≠ .ci := fun ci => by
      rw [lineOf_eq_ci, effectiveTier_eq_ci, limits, ← effectiveTier_eq_ci] at ci
      exact not_ci ci
    rw [show tenantOf (k.input runs).tenants e.job.slot = some u from free.tenant]
    simp [Queued.sim, line, at_slot, in_ws, by_who, slot, here, turn]

/-- Job after job of the order, the submitter's running jobs and starts stay
    within its cap. -/
theorem starts_within (positive : 1 ≤ cap) (capped : Capped t ws who cap k)
    (judged : Judged t ws who runs k) (within : t.load ws who (k.live runs) ≤ cap)
    (before after : List Entry) (split : order (k.input runs) = before ++ after) :
    t.load ws who (k.live runs) + loadOf t ws who k (startsOf k runs before) ≤ cap := by
  induction before using List.reverseRecOn generalizing after with
  | nil => simpa [startsOf, loadOf] using within
  | append_singleton before e ih =>
      have split' : order (k.input runs) = before ++ e :: after := by simpa using split
      have earlier := ih (e :: after) split'
      unfold startsOf loadOf at earlier ⊢
      rw [List.filter_append, List.countP_append]
      by_cases starts : e ∈ (k.input runs).decide.start
      · rw [List.filter_cons_of_pos (by simpa using starts), List.filter_nil, List.countP_singleton]
        split
        · rename_i counts
          obtain ⟨slot, here, turn, not_ci⟩ := counts_started.mp counts
          obtain ⟨u, may⟩ := (decide_safe _ (running_known k runs)).starts before e after split' starts
          have limits : u.limits = t.limits := capped.1 u (slot ▸ may.free.tenant)
          have line : lineOf e.job u ≠ .ci := fun ci => by
            rw [lineOf_eq_ci, effectiveTier_eq_ci, limits, ← effectiveTier_eq_ci] at ci
            exact not_ci ci
          have queued : e.job ∈ k.queued := Input.mem_queued (e := e)
            ((order_perm _).mem_iff.mp (split' ▸ List.mem_append_cons_self))
          have room := may.own.submitter cap (capped.2 _ queued slot here turn) positive line
          have counted := load_le_submitterCount capped.1 judged before
            (fun k hk => free_of_start (running_known _ runs) (by simpa using (List.mem_filter.mp hk).2))
            slot here turn
          unfold startsOf loadOf at counted
          omega
        · exact earlier
      · rw [List.filter_cons_of_neg (by simpa using starts), List.filter_nil]
        exact earlier

theorem tick_within (positive : 1 ≤ cap) (capped : Capped t ws who cap k)
    (judged : Judged t ws who runs k) (within : t.load ws who runs ≤ cap) :
    t.load ws who (tick runs k) ≤ cap := by
  have live : t.load ws who (k.live runs) ≤ cap :=
    (List.filter_sublist.countP_le (p := t.counts ws who)).trans within
  have safe := decide_safe _ (running_known k runs)
  have all := starts_within positive capped judged live (order (k.input runs)) [] (by simp)
  have same : startsOf k runs (order (k.input runs)) = (k.input runs).decide.start :=
    filter_mem_of_sublist (List.Nodup.of_map _ (order_nodup (k.input runs))) safe.sublist
  rw [same] at all
  refine .trans ?_ all
  unfold tick loadOf Tenant.load
  rw [List.countP_append, List.countP_map, List.countP_filter, List.countP_map]
  refine Nat.add_le_add_left (List.countP_mono_left fun e _ counts => ?_) _
  exact (Bool.and_eq_true _ _ ▸ counts).1

theorem ticks_within (positive : 1 ≤ cap) {ticks : List Tick} (capped : ∀ k ∈ ticks, Capped t ws who cap k)
    (judged : Along tick (Judged t ws who) runs ticks) (within : t.load ws who runs ≤ cap) :
    t.load ws who (after tick runs ticks) ≤ cap := by
  induction ticks generalizing runs with
  | nil => exact within
  | cons k rest ih =>
      have step := tick_within positive (capped k List.mem_cons_self) judged.1 within
      exact ih (fun j hj => capped j (List.mem_cons_of_mem k hj)) judged.2 step

end Step

/-- Over every run from an idle node, the running jobs of a submitter that aren't
    of CI here stay within its cap, if at no decision one of them was sent as CI. -/
theorem submitter_within (t : Tenant) (ws who : String) (cap : Nat) (positive : 1 ≤ cap) (ticks : List Tick)
    (capped : ∀ k ∈ ticks, Capped t ws who cap k) (judged : Along tick (Judged t ws who) [] ticks) :
    t.load ws who (after tick [] ticks) ≤ cap :=
  ticks_within positive capped judged (Nat.zero_le cap)

end Cap

/-- A guest whose share doesn't allow the gate. -/
def guest : Tenant := ⟨1, ⟨1, .interactive, false, 4, 24⟩, 0, 0, none, false⟩

/-- A job of `a` in the guest's workspace `w`, one at a time. -/
def cappedJob (id : String) (tier : Tier) (arrival : Nat) : Queued :=
  ⟨1, id, "w", none, tier, none, none, false, 0, arrival, some 60, none, none, true, false, some "a", some 1⟩

/-- A pass on a node with four slots. -/
def guestTick (now : Int) (queued : List Queued) : Tick :=
  ⟨now, .default, ⟨8000, 16 * 2 ^ 30, 4, none⟩, [guest], [], queued, .empty, fun _ => false, fun _ => true,
    fun q => q.estP50.map fun d => (d, d)⟩

theorem submitter_within_one_job :
    guest.load "w" "a" (after tick [] [guestTick 0 [cappedJob "1" .normal 0, cappedJob "2" .normal 1],
      guestTick 5 [cappedJob "2" .normal 1]]) ≤ 1 :=
  submitter_within guest "w" "a" 1 le_rfl _ (by decide +kernel) (by decide +kernel)

/-- Two jobs sent as CI run at once, with a cap of one. -/
theorem submitter_over_cap :
    let ticks := [guestTick 0 [cappedJob "1" .ci 0, cappedJob "2" .ci 1], guestTick 5 [cappedJob "2" .ci 1]]
    (∀ k ∈ ticks, Capped guest "w" "a" 1 k) ∧
      guest.load "w" "a" (after tick [] (ticks.take 1)) = 1 ∧ guest.load "w" "a" (after tick [] ticks) = 2 := by
  decide +kernel

end K2.NodeQueue
