import K2.NodeQueue.Simulation
import Mathlib.Algebra.BigOperators.Group.List.Basic

/-! # Queue ETAs

Where nothing is blocked and all durations are known, every queued job has an
ETA, 0 for those that start now, and the schedule the ETAs say keeps the limits
wherever the jobs that run already do: those are never stopped, so limits they
exceed stay exceeded until they end. The rounds of the simulation are bounded by
the queue's length, which is enough where the running jobs end at no more than
three times as many instants and eight more. Times are unbounded; the code's are
below 2^64 seconds.
-/

namespace K2.NodeQueue

open Compute Timeline

namespace Input

variable (input : Input)

/-- What the answer expects of a queued job: p50, or p90. -/
def eta (p90 : Bool) (e : Entry) : Option Nat :=
  (input.decide.info.lookup e.index).bind fun i => if p90 then i.etaP90Secs else i.etaSecs

/-- The jobs that run already, for their remaining time. -/
def aloneAt (p90 : Bool) (t : Nat) : List SimRun :=
  still SimRun.ends t (input.running.map (·.sim p90))

/-- The simulated schedule: beside those, each queued job from its ETA for its
    estimate. -/
def scheduleAt (p90 : Bool) (t : Nat) : List SimRun :=
  still SimRun.ends t (input.running.map (·.sim p90) ++ input.entries.filterMap fun e =>
    match tenantOf input.tenants e.job.slot, input.eta p90 e with
    | some u, some s => if s ≤ t then some (e.job.sim p90 input.caps u s) else none
    | _, _ => none)

/-- The running jobs end at few instants. -/
def Few (p90 : Bool) : Prop := (endings (input.running.map (·.sim p90))).card ≤ 3 * input.queued.length + 8

/-- Nothing is blocked, every queued job fits an idle node, and all durations are
    known. -/
structure Predictable : Prop where
  node : input.caps.blocked = none
  slots : 1 ≤ input.caps.parallelMax
  servers : ∀ q ∈ input.queued, ∃ t ∈ tenantOf input.tenants q.slot, t.blocked = none ∧
    1 ≤ t.limits.maxRunning
  eligible : ∀ q ∈ input.queued, q.eligible = true
  fits : ∀ q ∈ input.queued, Fits input.caps q
  running : ∀ r ∈ input.running, (∃ s ∈ r.leftP50, 1 ≤ s) ∧ ∀ s ∈ r.leftP90, 1 ≤ s
  queued : ∀ q ∈ input.queued, (∃ d ∈ q.estP50, 1 ≤ d) ∧ ∀ d ∈ q.estP90, 1 ≤ d

end Input

/-! ## Limits -/

/-- What the node, a server and a workspace allow at once. -/
inductive Limit where
  | cpu
  | mem
  | parallel
  | exclusive
  | server (t : Tenant)
  | workspace (slot : Slot) (ws : String) (m : Nat)

namespace Limit

/-- Whose jobs the limit counts. -/
def scope : Limit → SimRun → Bool
  | .server t, r => r.slot = t.slot
  | .workspace slot ws _, r => r.slot = slot && r.ws = ws
  | _, _ => true

/-- Are the jobs of the scope within the limit? -/
def Within (caps : Caps) : Limit → List SimRun → Prop
  | .cpu, run => (run.map (·.cpu)).sum ≤ caps.cpuMillis
  | .mem, run => (run.map (·.mem)).sum ≤ caps.memBytes
  | .parallel, run => run.length ≤ caps.parallelMax
  | .exclusive, run => (∃ r ∈ run, r.exclusive = true) → run.length ≤ 1
  | .server t, run => run.length ≤ t.limits.maxRunning
  | .workspace _ _ m, run => run.length ≤ m

def Holds (caps : Caps) (l : Limit) (run : List SimRun) : Prop := l.Within caps (run.filter l.scope)

/-- A server's limit is that of its share, a workspace's what its plans carry at most. -/
def InForce (input : Input) : Limit → Prop
  | .server t => tenantOf input.tenants t.slot = some t
  | .workspace slot ws m => 1 ≤ m ∧ ∀ q ∈ input.queued, q.slot = slot → q.workspaceId = ws →
      ∃ k ∈ q.wsMaxRunning, k ≤ m
  | _ => True

theorem sum_le_of_sublist {l l' : List Nat} (sub : l.Sublist l') : l.sum ≤ l'.sum := by
  induction sub with
  | slnil => exact le_rfl
  | cons x _ ih => exact ih.trans (by simp)
  | cons_cons x _ ih => simpa using ih

theorem Within.part {caps : Caps} {limit : Limit} {l l' : List SimRun} (sub : l.Sublist l')
    (within : limit.Within caps l') : limit.Within caps l := by
  cases limit with
  | cpu => exact (sum_le_of_sublist (sub.map _)).trans within
  | mem => exact (sum_le_of_sublist (sub.map _)).trans within
  | parallel | server | workspace => exact sub.length_le.trans within
  | exclusive =>
      rintro ⟨r, hr, alone⟩
      exact sub.length_le.trans (within ⟨r, sub.subset hr, alone⟩)

theorem Holds.perm {caps : Caps} {limit : Limit} {l l' : List SimRun} (same : l.Perm l')
    (holds : limit.Holds caps l') : limit.Holds caps l := by
  have parts := same.filter limit.scope
  unfold Holds at holds ⊢
  cases limit with
  | cpu => exact ((parts.map _).sum_eq (M := Nat)).le.trans holds
  | mem => exact ((parts.map _).sum_eq (M := Nat)).le.trans holds
  | parallel | server | workspace => exact parts.length_eq.le.trans holds
  | exclusive =>
      rintro ⟨r, hr, alone⟩
      exact parts.length_eq.le.trans (holds ⟨r, parts.mem_iff.mp hr, alone⟩)

theorem Within.whole {caps : Caps} {limit : Limit} {run : List SimRun} (all : ∀ r, limit.scope r = true)
    (within : limit.Within caps run) : limit.Within caps (run.filter limit.scope) := by
  rwa [List.filter_eq_self.mpr fun r _ => all r]

theorem within_start {input : Input} {limit : Limit} (force : limit.InForce input) {run : List SimRun}
    {x : SimRun} (allowed : Allowed input run x) (inside : limit.scope x = true) :
    limit.Within input.caps ((run ++ [x]).filter limit.scope) := by
  obtain ⟨p90, now, w, startable, fits⟩ := allowed
  have spec := fit_spec input w.entry.job w.tenant run
  rw [fits] at spec
  obtain _ | _ | _ | _ | ⟨-, own, -, room⟩ := spec
  cases limit with
  | cpu =>
      refine Within.whole (fun _ => rfl) ?_
      simpa [Within, Waiting.runs, Queued.sim] using room.cpu
  | mem =>
      refine Within.whole (fun _ => rfl) ?_
      simpa [Within, Waiting.runs, Queued.sim] using room.mem
  | parallel =>
      refine Within.whole (fun _ => rfl) ?_
      rw [Within, List.length_append]
      exact room.parallel
  | exclusive =>
      refine Within.whole (fun _ => rfl) ?_
      rintro ⟨r, hr, alone⟩
      rcases List.mem_append.mp hr with old | new
      · rw [room.shared r old] at alone
        cases alone
      · obtain rfl := List.mem_singleton.mp new
        simp [room.alone alone]
  | server t =>
      have slot : w.entry.job.slot = t.slot := of_decide_eq_true inside
      have same : w.tenant = t := by
        have known := startable.free.tenant
        rw [slot, show tenantOf input.tenants t.slot = some t from force] at known
        exact (Option.some_inj.mp known).symm
      have room := own.server
      rw [slot, same, List.countP_eq_length_filter] at room
      rw [List.filter_append, List.filter_cons_of_pos inside, List.filter_nil, Within, List.length_append]
      exact room
  | workspace slot ws m =>
      obtain ⟨at_slot, here⟩ : w.entry.job.slot = slot ∧ w.entry.job.workspaceId = ws :=
        ((Bool.and_eq_true _ _).mp inside).imp of_decide_eq_true of_decide_eq_true
      obtain ⟨positive, plans⟩ := force
      obtain ⟨k, carried, small⟩ := plans _ (Input.mem_queued startable.queued) at_slot here
      have room := own.workspace k carried
      rw [at_slot, here, List.countP_eq_length_filter] at room
      rw [List.filter_append, List.filter_cons_of_pos inside, List.filter_nil, Within, List.length_append]
      have : (run.filter (workspace slot ws m).scope).length < max k 1 := room
      simp only [List.length_singleton]
      omega

end Limit

/-! ## The whole simulation -/

namespace Input

variable (input : Input)

/-- Who may start in the simulation. -/
def pending : List Waiting := unblocked input (order input)

/-- What the whole simulation starts, and when. -/
def simStarts (p90 : Bool) : List (Nat × Waiting) :=
  starts input p90 (4 * input.queued.length + 8) 0 true (knownSim input (order input))
    (input.running.map (·.sim p90)) input.pending

theorem pending_distinct : (input.pending.map (·.entry.index)).Nodup := by
  have sub := (unblocked_sublist input (order input)).map (·.index)
  rw [List.map_map] at sub
  exact (order_nodup input).sublist sub

theorem pending_startable : ∀ w ∈ input.pending, Startable input w := fun _ hw =>
  have ⟨member, free⟩ := mem_unblocked.mp hw
  ⟨(order_perm input).mem_iff.mp member, free⟩

/-- What the answer expects is when the simulation starts the job. -/
theorem eta_eq {e : Entry} (member : e ∈ input.entries) (p90 : Bool) :
    input.eta p90 e = ((simulate input (order input) p90).startAt.lookup e.index).or
      ((simulate input (order input) false).startAt.lookup e.index) := by
  have stands : e ∈ order input := (order_perm input).mem_iff.mpr member
  obtain ⟨i, at_i⟩ := List.mem_iff_getElem?.mp stands
  have distinct : ((order input).zipIdx.map fun p => p.1.index).Nodup := by
    have := order_nodup input
    rwa [← List.zipIdx_map_fst 0 (order input), List.map_map] at this
  unfold eta decide
  simp only
  rw [FinMap.lookup_foldl_insert (fun p : Entry × Nat => p.1.index) (fun p => _) .empty distinct
    (show (e, i) ∈ (order input).zipIdx from List.mem_zipIdx_iff_getElem?.mpr at_i)]
  cases p90 with
  | false => simp
  | true => rfl

variable {input}

theorem eta_start {p90 : Bool} {t : Nat} {w : Waiting} (start : (t, w) ∈ input.simStarts p90) :
    input.eta p90 w.entry = some t := by
  have waits := (starts_spec input p90 _ 0 true _ _ input.pending_distinct).1 _ start
  have noted := (rounds_startAt input.pending_distinct).1 _ start
  rw [input.eta_eq (input.pending_startable w waits).queued p90]
  rw [show (simulate input (order input) p90).startAt.lookup w.entry.index = some t from noted,
    Option.some_or]

variable (predictable : input.Predictable)
include predictable

theorem Predictable.free {e : Entry} (member : e ∈ input.entries) :
    ∃ t, Free input e.job t ∧ 1 ≤ t.limits.maxRunning := by
  have queued := mem_queued member
  obtain ⟨t, found, unheld, running⟩ := predictable.servers _ queued
  exact ⟨t, ⟨found, predictable.eligible _ queued, predictable.node, unheld⟩, running⟩

theorem Predictable.waits {e : Entry} (member : e ∈ input.entries) : ∃ t, ⟨e, t⟩ ∈ input.pending := by
  obtain ⟨t, free, -⟩ := predictable.free member
  exact ⟨t, mem_unblocked.mpr ⟨(order_perm input).mem_iff.mpr member, free⟩⟩

/-- Every queued job starts on an idle node, and is known to end. -/
theorem Predictable.certain (p90 : Bool) : ∀ w ∈ input.pending, Certain input p90 w := by
  intro w hw
  obtain ⟨member, free⟩ := input.pending_startable w hw
  have queued := mem_queued member
  have fits := predictable.fits _ queued
  obtain ⟨t, theirs, running⟩ := predictable.free member
  obtain rfl : t = w.tenant := Option.some_inj.mp (theirs.tenant.symm.trans free.tenant)
  refine ⟨fits, fit_eq_now fits ⟨running, ?_, ?_⟩ (fun _ => rfl) ?_, fun t => ?_⟩
  · exact fun m _ => Nat.lt_of_lt_of_le Nat.zero_lt_one (Nat.le_max_right m 1)
  · exact fun m _ positive _ => positive
  · exact ⟨by simpa using fits.1, by simpa using fits.2, predictable.slots, fun _ => rfl,
      fun r hr => (List.not_mem_nil hr).elim, fun r hr => (List.not_mem_nil hr).elim⟩
  · obtain ⟨⟨d, p50, -⟩, -⟩ := predictable.queued _ queued
    cases p90 with
    | false => exact ⟨t + max d 1, by simp [Waiting.runs, Queued.sim, Option.mem_def.mp p50], by omega⟩
    | true =>
        cases slow : w.entry.job.estP90 with
        | none => exact ⟨t + max d 1, by simp [Waiting.runs, Queued.sim, slow, Option.mem_def.mp p50], by omega⟩
        | some d' => exact ⟨t + max d' 1, by simp [Waiting.runs, Queued.sim, slow], by omega⟩

theorem Predictable.ends (p90 : Bool) :
    ∀ r ∈ input.running.map (·.sim p90), ∃ e, r.ends = some e ∧ 0 < e := by
  intro r hr
  obtain ⟨r, member, rfl⟩ := List.mem_map.mp hr
  obtain ⟨⟨s, p50, positive⟩, slow⟩ := predictable.running r member
  cases p90 with
  | false => exact ⟨s, by simp [Running.sim, Option.mem_def.mp p50], positive⟩
  | true =>
      cases known : r.leftP90 with
      | none => exact ⟨s, by simp [Running.sim, known, Option.mem_def.mp p50], positive⟩
      | some s' => exact ⟨s', by simp [Running.sim, known], slow s' known⟩

theorem Predictable.clear (w : Waiting) : (knownSim input (order input)).blocked.lookup w.entry.index = none := by
  have nothing (ord : List Entry) (all : ∀ e ∈ ord, e ∈ input.entries) (m : FinMap Nat String) :
      ord.foldl (noteBlocked input) m = m := by
    induction ord generalizing m with
    | nil => rfl
    | cons e ord ih =>
        obtain ⟨t, free, -⟩ := predictable.free (all e List.mem_cons_self)
        have : noteBlocked input m e = m := by
          rw [noteBlocked, blockedBy_eq_none.mpr ⟨t, free⟩]
        rw [List.foldl_cons, this]
        exact ih (fun k hk => all k (List.mem_cons_of_mem e hk)) m
  rw [knownSim, nothing _ fun e he => (order_perm input).mem_iff.mp he]
  rfl

theorem Predictable.starts_all {p90 : Bool} (few : input.Few p90) {w : Waiting} (waits : w ∈ input.pending) :
    ∃ t, (t, w) ∈ input.simStarts p90 := by
  refine starts_complete input.pending_distinct (predictable.certain p90)
    (fun w _ => predictable.clear w) (predictable.ends p90) ?_ w waits
  have size : input.pending.length ≤ input.queued.length := by
    have sub := (unblocked_sublist input (order input)).length_le
    rw [List.length_map, (order_perm input).length_eq, entries, List.length_map, List.length_zipIdx] at sub
    exact sub
  have : (endings (input.running.map (·.sim p90))).card ≤ 3 * input.queued.length + 8 := few
  omega

theorem Predictable.eta_zero {p90 : Bool} (few : input.Few p90) {w : Waiting} (waits : w ∈ input.pending) :
    ∃ t, (t, w) ∈ input.simStarts p90 ∧ (t = 0 ↔ w.entry ∈ input.decide.start) := by
  obtain ⟨t, start⟩ := predictable.starts_all few waits
  refine ⟨t, start, ?_⟩
  have running : ∀ r ∈ input.running, ∀ s, r.leftP50 = some s → 1 ≤ s := by
    intro r member s known
    obtain ⟨e, same, positive⟩ := predictable.ends false _ (List.mem_map_of_mem member)
    obtain rfl := Option.some_inj.mp (known.symm.trans same)
    exact positive
  have now := (starts_now input.pending_distinct (predictable.certain p90) input.pending_startable (predictable.ends p90) :
    ∀ s ∈ input.simStarts p90, _) _ start
  -- The first pass doesn't read the estimates.
  have agree : Pass.Agrees ⟨knownSim input (order input), input.running.map (·.sim p90), none, false, [], []⟩
      ⟨knownSim input (order input), input.running.map (·.sim false), none, false, [], []⟩ :=
    ⟨by rw [List.map_map, List.map_map]; rfl, rfl, rfl, rfl⟩
  have same := (over_agrees input p90 false 0 true input.pending agree).started
  rw [same] at now
  rw [start_eq running]
  refine now.trans ⟨fun member => List.mem_map_of_mem member, fun member => ?_⟩
  obtain ⟨v, hv, entry⟩ := List.mem_map.mp member
  have theirs : v ∈ input.pending := (firstPass_sublist _ _ _).subset hv
  exact List.inj_on_of_nodup_map input.pending_distinct theirs waits (by rw [entry]) ▸ hv

/-- A job that the simulation does not start has no ETA; where it does not start a job by its slow
    estimates, the ETA is that of the others. -/
theorem Predictable.eta_none {p90 : Bool} (few : p90 = true → input.Few true) {e : Entry} (member : e ∈ input.entries)
    (never : e.index ∉ (input.simStarts p90).map (·.2.entry.index)) : input.eta p90 e = none := by
  cases p90 with
  | true =>
      obtain ⟨u, waits⟩ := predictable.waits member
      obtain ⟨t, start⟩ := predictable.starts_all (few rfl) waits
      exact absurd (List.mem_map.mpr ⟨_, start, rfl⟩) never
  | false =>
      have nothing : (simulate input (order input) false).startAt.lookup e.index = none :=
        (rounds_startAt input.pending_distinct).2 _ never
      rw [input.eta_eq member, nothing, Option.or_none]

/-- The queued part of the schedule is what the simulation started by then. -/
theorem Predictable.schedule_perm {p90 : Bool} (few : p90 = true → input.Few true) (t : Nat) : (input.scheduleAt p90 t).Perm
    (occupied SimRun.ends (input.running.map (·.sim p90))
      ((input.simStarts p90).map (startRuns input p90)) t) := by
  have spec := starts_spec input p90 (4 * input.queued.length + 8) 0 true
    (knownSim input (order input)) (input.running.map (·.sim p90)) input.pending_distinct
  let started := (input.simStarts p90).map (·.2.entry.index)
  have entries : (input.entries.filter (·.index ∈ started)).Perm ((input.simStarts p90).map (·.2.entry)) := by
    have once : ((input.simStarts p90).map (·.2.entry)).Nodup :=
      List.Nodup.of_map (·.index) (by rw [List.map_map]; exact spec.2)
    refine (List.perm_ext_iff_of_nodup ((List.Nodup.of_map _ (entries_nodup input)).filter _) once).mpr fun e => ?_
    constructor
    · intro mem
      obtain ⟨member, start⟩ := List.mem_filter.mp mem
      obtain ⟨s, hs, same⟩ := List.mem_map.mp (of_decide_eq_true start)
      have theirs := (input.pending_startable _ (spec.1 s hs)).queued
      exact List.mem_map.mpr ⟨s, hs, List.inj_on_of_nodup_map (entries_nodup input) theirs member same⟩
    · intro member
      obtain ⟨s, hs, rfl⟩ := List.mem_map.mp member
      exact List.mem_filter.mpr ⟨(input.pending_startable _ (spec.1 s hs)).queued,
        decide_eq_true (List.mem_map.mpr ⟨s, hs, rfl⟩)⟩
  -- Who isn't started has no part in it.
  have others (f : Entry → Option SimRun) (absent : ∀ e ∈ input.entries, e.index ∉ started → f e = none) :
      input.entries.filterMap f = (input.entries.filter (·.index ∈ started)).filterMap f := by
    rw [List.filterMap_filter]
    refine List.filterMap_congr fun e member => ?_
    by_cases start : e.index ∈ started
    · simp [start]
    · simp [start, absent e member start]
  rw [scheduleAt, others _ fun e member never => by simp [predictable.eta_none few member never]]
  refine (((entries.filterMap _).append_left _).filter _).trans (.of_eq ?_)
  unfold occupied still
  congr 2
  rw [List.filterMap_map, List.filter_map, List.map_map, ← List.filterMap_eq_map, List.filterMap_filter]
  refine List.filterMap_congr fun s hs => ?_
  have waits := spec.1 s hs
  have tenant := (input.pending_startable _ waits).free.tenant
  simp only [Function.comp_apply, tenant, eta_start hs]
  by_cases soon : s.1 ≤ t
  · simp [soon, startRuns, Waiting.runs]
  · simp [soon, startRuns]

end Input

/-- Where nothing is blocked and all durations are known, every queued job has an ETA, 0 for those that
    start now, if the running jobs end at no more than three times as many instants as jobs wait and eight
    more; and the schedule keeps every limit at every instant at which the jobs that run already do, by the
    fast estimates whatever runs. -/
theorem etas_sound (input : Input) (predictable : input.Predictable) :
    (∀ p90, input.Few p90 → ∀ e ∈ input.entries, ∃ s, input.eta p90 e = some s ∧ (s = 0 ↔ e ∈ input.decide.start)) ∧
    ∀ p90, (p90 = true → input.Few true) → ∀ limit : Limit, limit.InForce input → ∀ t,
      limit.Holds input.caps (input.aloneAt p90 t) → limit.Holds input.caps (input.scheduleAt p90 t) := by
  constructor
  · intro p90 few e member
    obtain ⟨u, waits⟩ := predictable.waits member
    obtain ⟨t, start, zero⟩ := predictable.eta_zero few waits
    exact ⟨t, Input.eta_start start, zero⟩
  · intro p90 few limit force t alone
    refine Limit.Holds.perm (predictable.schedule_perm few t) ?_
    have simulates : Simulates SimRun.ends (Allowed input) 0 (input.running.map (·.sim p90))
        ((input.simStarts p90).map (startRuns input p90)) := starts_simulates input.pending_startable
    exact simulates.keeps (fun _ _ sub => Limit.Within.part sub)
      (fun _ _ allowed inside => Limit.within_start force allowed inside) (Nat.zero_le t) alone

/-- A node in use, whose jobs end at few instants by either estimate. -/
theorem etas_sound_busy :
    (∀ p90, ∀ e ∈ busyNode.entries, ∃ s, busyNode.eta p90 e = some s ∧ (s = 0 ↔ e ∈ busyNode.decide.start)) ∧
      ∀ limit : Limit, limit.InForce busyNode → ∀ p90 t,
        limit.Holds busyNode.caps (busyNode.aloneAt p90 t) →
          limit.Holds busyNode.caps (busyNode.scheduleAt p90 t) := by
  have few : ∀ p90, busyNode.Few p90 := by unfold Input.Few; decide
  obtain ⟨complete, sound⟩ := etas_sound busyNode
    ⟨rfl, by decide, by decide, by decide, by unfold Fits; decide, by decide, by decide⟩
  exact ⟨fun p90 => complete p90 (few p90), fun limit force p90 => sound p90 (fun _ => few true) limit force⟩

/-- A server with room for many jobs. -/
def bigServer : Tenant := ⟨0, ⟨1, .gate, true, 64, 24⟩, 0, 0, none, true⟩

/-- A running job of the server's with this many minutes left. -/
def runningJob (minutes : Nat) : Running :=
  ⟨0, "r", "w", none, .normal, 500, 2 ^ 30, false, some (60 * minutes), none, false, some "a"⟩

/-- A node with jobs that run, and a job that waits for it to be idle. -/
def nodeRunning (slots : Nat) (running : List Running) : Input where
  now := 0
  cfg := .default
  caps := ⟨8000, 16 * 2 ^ 30, slots, none⟩
  tenants := [bigServer]
  running
  queued := [{ plainJob "1" "a" .normal 0 with exclusive := true }]
  rotation := .empty

/-- Two jobs that run in one slot stay there; and twelve that end one after the
    other take all rounds, so the job behind them gets no ETA. -/
theorem etas_unsound :
    let overrun := nodeRunning 1 [runningJob 1, runningJob 1]
    let many := nodeRunning 16 ((List.range 12).map fun i => runningJob (i + 1))
    (overrun.Predictable ∧ ¬ Limit.parallel.Holds overrun.caps (overrun.scheduleAt false 0)) ∧
      many.Predictable ∧ ∀ e ∈ many.entries, many.eta false e = none := by
  refine ⟨⟨⟨rfl, by decide, by decide, by decide, by unfold Fits; decide, by decide, by decide⟩, ?_⟩,
    ⟨rfl, by decide, by decide, by decide, by unfold Fits; decide, by decide, by decide⟩, by decide +kernel⟩
  unfold Limit.Holds Limit.Within
  decide +kernel

end K2.NodeQueue
