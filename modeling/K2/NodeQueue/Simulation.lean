import K2.Lib.Histories
import K2.NodeQueue.Safety

/-! # What the simulation starts, and when

Each start pass starts jobs that fit beside what runs then, and each round but
the last sees a running job off. So with known estimates, and no job too big for
an idle node, as many rounds as there are jobs start every one of them.
-/

namespace K2.NodeQueue

open Compute Timeline

/-- A waiting job as it runs once started. -/
def Waiting.runs (input : Input) (p90 : Bool) (time : Nat) (w : Waiting) : SimRun :=
  w.entry.job.sim p90 input.caps w.tenant time

/-- A start of the simulation, as it runs. -/
def startRuns (input : Input) (p90 : Bool) (s : Nat × Waiting) : Nat × SimRun :=
  (s.1, s.2.runs input p90 s.1)

/-- A job of the queue that nothing blocks. -/
structure Startable (input : Input) (w : Waiting) : Prop where
  queued : w.entry ∈ input.entries
  free : Free input w.entry.job w.tenant

/-- May the simulation start `x` beside `run`? -/
inductive Allowed (input : Input) (run : List SimRun) : SimRun → Prop where
  | mk (p90 : Bool) (now : Nat) (w : Waiting) (startable : Startable input w)
      (fits : fit input w.entry.job w.tenant run = .now) : Allowed input run (w.runs input p90 now)

/-! ## One pass -/

section Pass

variable (input : Input) (p90 : Bool) (now : Nat) (firstRound : Bool)

/-- One start pass. -/
def Pass.over (p : Pass) (ws : List Waiting) : Pass := ws.foldl (Pass.look input p90 now firstRound) p

variable {input p90 now firstRound}

variable (input p90 now firstRound) in
/-- What a pass starts, it starts in order, each job beside those that run by then. -/
theorem over_spec (ws : List Waiting) (p : Pass) :
    ∃ more, more.Sublist ws ∧ (p.over input p90 now firstRound ws).started = p.started ++ more ∧
      (p.over input p90 now firstRound ws).run = p.run ++ more.map (·.runs input p90 now) ∧
      (p.over input p90 now firstRound ws).sim.startAt =
        more.foldl (fun m w => m.insert w.entry.index now) p.sim.startAt ∧
      ((∀ w ∈ ws, Startable input w) → ∀ rest,
        Simulates SimRun.ends (Allowed input) now (p.over input p90 now firstRound ws).run rest →
        Simulates SimRun.ends (Allowed input) now p.run
          (more.map (fun w => startRuns input p90 (now, w)) ++ rest)) := by
  induction ws generalizing p with
  | nil => exact ⟨[], .slnil, by simp [Pass.over], by simp [Pass.over], rfl, fun _ _ simulates => simulates⟩
  | cons w ws ih =>
      obtain ⟨more, sub, started, run, startAt, simulates⟩ := ih (p.look input p90 now firstRound w)
      rcases look_cases input p90 now firstRound p w with step | step
      · refine ⟨w :: more, sub.cons_cons w, ?_, ?_, ?_, fun startable rest after => ?_⟩
        · rw [show p.over input p90 now firstRound (w :: ws) = _ from rfl]
          exact started.trans (by rw [step.started, List.append_assoc]; rfl)
        · exact run.trans (by rw [step.run, List.append_assoc]; rfl)
        · exact startAt.trans (by rw [step.startAt]; rfl)
        · refine .add (.mk p90 now w (startable w List.mem_cons_self) step.ready) ?_
          have tail := simulates (fun v hv => startable v (List.mem_cons_of_mem w hv)) rest after
          rw [step.run] at tail
          exact tail
      · refine ⟨more, sub.cons w, ?_, ?_, ?_, fun startable rest after => ?_⟩
        · exact started.trans (by rw [step.started])
        · exact run.trans (by rw [step.run])
        · exact startAt.trans (by rw [step.startAt])
        · have tail := simulates (fun v hv => startable v (List.mem_cons_of_mem w hv)) rest after
          rw [step.run] at tail
          exact tail

theorem over_starts_first {p : Pass} {w : Waiting} {ws : List Waiting} (free : p.held = none)
    (fits : fit input w.entry.job w.tenant p.run = .now) :
    w ∈ (p.over input p90 now firstRound (w :: ws)).started := by
  obtain ⟨more, -, started, -⟩ := over_spec input p90 now firstRound ws (p.look input p90 now firstRound w)
  rcases look_cases input p90 now firstRound p w with step | step
  · rw [show p.over input p90 now firstRound (w :: ws) = _ from rfl]
    refine started ▸ List.mem_append_left _ ?_
    simp [step.started]
  · have held := step.ready fits
    simp [free] at held

theorem over_blocked {ws : List Waiting} (fits : ∀ w ∈ ws, Fits input.caps w.entry.job) (p : Pass) :
    (p.over input p90 now firstRound ws).sim.blocked = p.sim.blocked := by
  induction ws generalizing p with
  | nil => rfl
  | cons w ws ih =>
      have one : (p.look input p90 now firstRound w).sim.blocked = p.sim.blocked := by
        have spec := fit_spec input w.entry.job w.tenant p.run
        unfold Pass.look
        generalize fit input w.entry.job w.tenant p.run = f at spec
        have noted : (if firstRound then p.note w f else p).sim.blocked = p.sim.blocked := by
          split <;> rfl
        simp only
        generalize (if firstRound then p.note w f else p) = q at noted
        cases spec with
        | never big => exact absurd (fits w List.mem_cons_self) big
        | own | isolation => exact noted
        | capacity | now => cases held : q.held <;> exact noted
      exact (ih (fun v hv => fits v (List.mem_cons_of_mem w hv)) _).trans one

end Pass

/-! ## Round after round -/

section Starts

variable (input : Input) (p90 : Bool)

/-- What the rounds start, and when. -/
def starts : Nat → Nat → Bool → Sim → List SimRun → List Waiting → List (Nat × Waiting)
  | 0, _, _, _, _, _ => []
  | n + 1, now, firstRound, sim, run, pending =>
      let p := Pass.over input p90 now firstRound ⟨sim, run, none, false, [], []⟩ pending
      let left := p.left pending
      p.started.map (now, ·) ++
        if left.isEmpty then []
        else
          match (p.run.filterMap (·.ends)).min? with
          | none => []
          | some next =>
              let now := max next now
              starts n now false p.sim (p.run.filter fun r => r.ends.all (· > now)) left

variable {input p90} {n now : Nat} {firstRound : Bool} {sim : Sim} {run : List SimRun}
  {pending : List Waiting}

theorem rounds_succ : rounds input p90 (n + 1) now firstRound sim run pending =
    let p := Pass.over input p90 now firstRound ⟨sim, run, none, false, [], []⟩ pending
    let left := p.left pending
    if left.isEmpty then p.sim
    else
      match (p.run.filterMap (·.ends)).min? with
      | none => p.sim
      | some next =>
          let now := max next now
          rounds input p90 n now false p.sim (p.run.filter fun r => r.ends.all (· > now)) left := rfl

theorem left_subset (p : Pass) (pending : List Waiting) : p.left pending ⊆ pending :=
  List.filter_sublist.subset

theorem left_started {p : Pass} {w : Waiting} (left : w ∈ p.left pending) :
    ∀ v ∈ p.started, v.entry.index ≠ w.entry.index := by
  have := (List.mem_filter.mp left).2
  simp only [Bool.and_eq_true, Bool.not_eq_true', List.any_eq_false, decide_eq_true_eq] at this
  exact this.1

theorem left_distinct (p : Pass) (distinct : (pending.map (·.entry.index)).Nodup) :
    ((p.left pending).map (·.entry.index)).Nodup := distinct.sublist (List.filter_sublist.map _)

variable (input p90) in
theorem starts_spec (n now : Nat) (firstRound : Bool) (sim : Sim) (run : List SimRun)
    (distinct : (pending.map (·.entry.index)).Nodup) :
    (∀ s ∈ starts input p90 n now firstRound sim run pending, s.2 ∈ pending) ∧
      ((starts input p90 n now firstRound sim run pending).map (·.2.entry.index)).Nodup := by
  induction n generalizing now firstRound sim run pending with
  | zero => exact ⟨by simp [starts], by simp [starts]⟩
  | succ n ih =>
      obtain ⟨more, sub, started, -⟩ := over_spec input p90 now firstRound pending
        ⟨sim, run, none, false, [], []⟩
      rw [List.nil_append] at started
      rw [starts]
      simp only
      generalize Pass.over input p90 now firstRound ⟨sim, run, none, false, [], []⟩ pending = p at started
      have here : ∀ s ∈ p.started.map (now, ·), s.2 ∈ pending := by
        intro s hs
        obtain ⟨w, hw, rfl⟩ := List.mem_map.mp hs
        exact sub.subset (started ▸ hw)
      have once : ((p.started.map (now, ·)).map (·.2.entry.index)).Nodup := by
        rw [List.map_map, started]
        exact distinct.sublist (sub.map _)
      split
      · exact ⟨by simpa using here, by simpa using once⟩
      split
      · exact ⟨by simpa using here, by simpa using once⟩
      · rename_i next _
        obtain ⟨later, later_once⟩ := ih (max next now) false p.sim
          (p.run.filter fun r => r.ends.all (· > max next now)) (left_distinct p distinct)
        refine ⟨fun s hs => ?_, ?_⟩
        · rcases List.mem_append.mp hs with current | hs
          · exact here s current
          · exact left_subset p pending (later s hs)
        · rw [List.map_append, List.nodup_append]
          refine ⟨once, later_once, fun i hi j hj same => ?_⟩
          obtain ⟨s, hs, rfl⟩ := List.mem_map.mp hi
          obtain ⟨w, hw, rfl⟩ := List.mem_map.mp hs
          obtain ⟨u, hu, rfl⟩ := List.mem_map.mp hj
          exact left_started (later u hu) w hw same

theorem starts_simulates (startable : ∀ w ∈ pending, Startable input w) :
    Simulates SimRun.ends (Allowed input) now run
      ((starts input p90 n now firstRound sim run pending).map (startRuns input p90)) := by
  induction n generalizing now firstRound sim run pending with
  | zero => exact .done
  | succ n ih =>
      obtain ⟨more, -, started, -, -, simulates⟩ := over_spec input p90 now firstRound pending
        ⟨sim, run, none, false, [], []⟩
      rw [List.nil_append] at started
      rw [starts]
      simp only
      generalize Pass.over input p90 now firstRound ⟨sim, run, none, false, [], []⟩ pending = p
        at started simulates
      rw [List.map_append, List.map_map, started]
      apply simulates startable
      split
      · exact .done
      split
      · exact .done
      · rename_i next _
        refine .wait (le_max_right next now) ?_
        exact ih fun w hw => startable w (left_subset p pending hw)

theorem lookup_foldl_start (more : List Waiting) (now : Nat) (m : FinMap Nat Nat) (i : Nat) :
    (more.foldl (fun m w => m.insert w.entry.index now) m).lookup i =
      if i ∈ more.map (·.entry.index) then some now else m.lookup i := by
  induction more generalizing m with
  | nil => simp
  | cons w more ih =>
      rw [List.foldl_cons, ih, FinMap.lookup_insert]
      by_cases later : i ∈ more.map (·.entry.index)
      · simp [later]
      · by_cases here : w.entry.index = i
        · simp [here]
        · simp [later, here, Ne.symm here]

theorem rounds_startAt (distinct : (pending.map (·.entry.index)).Nodup) :
    (∀ s ∈ starts input p90 n now firstRound sim run pending,
      (rounds input p90 n now firstRound sim run pending).startAt.lookup s.2.entry.index = some s.1) ∧
    ∀ i, i ∉ (starts input p90 n now firstRound sim run pending).map (·.2.entry.index) →
      (rounds input p90 n now firstRound sim run pending).startAt.lookup i = sim.startAt.lookup i := by
  induction n generalizing now firstRound sim run pending with
  | zero => exact ⟨by simp [starts], fun _ _ => rfl⟩
  | succ n ih =>
      obtain ⟨more, -, started, -, startAt, -⟩ := over_spec input p90 now firstRound pending
        ⟨sim, run, none, false, [], []⟩
      rw [List.nil_append] at started
      rw [starts, rounds_succ]
      simp only at startAt ⊢
      generalize Pass.over input p90 now firstRound ⟨sim, run, none, false, [], []⟩ pending = p
        at started startAt
      have first (i : Nat) : p.sim.startAt.lookup i =
          if i ∈ p.started.map (·.entry.index) then some now else sim.startAt.lookup i := by
        rw [startAt, lookup_foldl_start, started]
      have overrun : (∀ s ∈ p.started.map (now, ·), p.sim.startAt.lookup s.2.entry.index = some s.1) ∧
          ∀ i, i ∉ (p.started.map (now, ·)).map (·.2.entry.index) →
            p.sim.startAt.lookup i = sim.startAt.lookup i := by
        refine ⟨fun s hs => ?_, fun i absent => ?_⟩
        · obtain ⟨w, hw, rfl⟩ := List.mem_map.mp hs
          rw [first, if_pos (List.mem_map_of_mem hw)]
        · rw [List.map_map] at absent
          exact (first i).trans (if_neg absent)
      split
      · simpa using overrun
      split
      · simpa using overrun
      · rename_i next _
        obtain ⟨later, rest⟩ := @ih (max next now) false p.sim
          (p.run.filter fun r => r.ends.all (· > max next now)) (p.left pending)
          (distinct.sublist (List.filter_sublist.map _))
        have members := (starts_spec input p90 n (max next now) false p.sim
          (p.run.filter fun r => r.ends.all (· > max next now)) (left_distinct p distinct)).1
        refine ⟨fun s hs => ?_, fun i absent => ?_⟩
        · rcases List.mem_append.mp hs with current | hs
          · obtain ⟨w, hw, rfl⟩ := List.mem_map.mp current
            rw [rest, overrun.1 _ current]
            intro again
            obtain ⟨u, hu, same⟩ := List.mem_map.mp again
            exact left_started (members u hu) w hw same.symm
          · exact later s hs
        · rw [List.map_append, List.mem_append, not_or] at absent
          rw [rest i absent.2, overrun.2 i absent.1]

/-! ### All start -/

/-- A job that starts on an idle node at the latest, and is known to end. -/
structure Certain (input : Input) (p90 : Bool) (w : Waiting) : Prop where
  fits : Fits input.caps w.entry.job
  idle : fit input w.entry.job w.tenant [] = .now
  known : ∀ t, ∃ e, (w.runs input p90 t).ends = some e ∧ t < e

/-- When the jobs of a list end. -/
def endings (run : List SimRun) : Finset Nat := (run.filterMap (·.ends)).toFinset

theorem card_endings_le (run : List SimRun) : (endings run).card ≤ run.length :=
  (List.toFinset_card_le _).trans (List.length_filterMap_le ..)

theorem card_endings_append (run more : List SimRun) : (endings (run ++ more)).card ≤ (endings run).card + more.length := by
  rw [endings, List.filterMap_append, List.toFinset_append]
  exact (Finset.card_union_le ..).trans (Nat.add_le_add_left (card_endings_le more) _)

theorem retires {p : List SimRun} {now next : Nat} (later : ∀ r ∈ p, ∃ e, r.ends = some e ∧ now < e)
    (soonest : (p.filterMap (·.ends)).min? = some next) :
    now < next ∧ (endings (p.filter fun r => r.ends.all (· > max next now))).card < (endings p).card := by
  have ends := List.min?_mem soonest
  obtain ⟨r, member, known⟩ := List.mem_filterMap.mp ends
  obtain ⟨e, same, after⟩ := later r member
  obtain rfl : e = next := Option.some_inj.mp (same.symm.trans known)
  refine ⟨after, Finset.card_lt_card ((Finset.ssubset_iff_of_subset ?_).mpr ⟨e, List.mem_toFinset.mpr ends, ?_⟩)⟩
  · intro t mem
    obtain ⟨r, kept, known⟩ := List.mem_filterMap.mp (List.mem_toFinset.mp mem)
    exact List.mem_toFinset.mpr (List.mem_filterMap.mpr ⟨r, (List.mem_filter.mp kept).1, known⟩)
  · intro mem
    obtain ⟨r, kept, known⟩ := List.mem_filterMap.mp (List.mem_toFinset.mp mem)
    simpa [known] using (List.mem_filter.mp kept).2

/-- With as many rounds as there are ends and waiting jobs, every one that waits is started. -/
theorem starts_complete (distinct : (pending.map (·.entry.index)).Nodup)
    (certain : ∀ w ∈ pending, Certain input p90 w)
    (clear : ∀ w ∈ pending, sim.blocked.lookup w.entry.index = none)
    (later : ∀ r ∈ run, ∃ e, r.ends = some e ∧ now < e) (enough : (endings run).card + pending.length ≤ n) :
    ∀ w ∈ pending, ∃ t, (t, w) ∈ starts input p90 n now firstRound sim run pending := by
  induction n generalizing now firstRound sim run pending with
  | zero =>
      have : pending = [] := List.eq_nil_of_length_eq_zero (by omega)
      simp [this]
  | succ n ih =>
      intro w waits
      obtain ⟨more, sub, started, run_eq, -, -⟩ := over_spec input p90 now firstRound pending
        ⟨sim, run, none, false, [], []⟩
      have blocked : (Pass.over input p90 now firstRound ⟨sim, run, none, false, [], []⟩ pending).sim.blocked = sim.blocked :=
        over_blocked (fun v hv => (certain v hv).fits) _
      have some_run : (Pass.over input p90 now firstRound ⟨sim, run, none, false, [], []⟩ pending).run ≠ [] := by
        cases run with
        | cons r run => simp [run_eq]
        | nil =>
            cases pending with
            | nil => cases waits
            | cons v rest =>
                have first : v ∈ (Pass.over input p90 now firstRound ⟨sim, [], none, false, [], []⟩ (v :: rest)).started :=
                  over_starts_first rfl (certain v List.mem_cons_self).idle
                rw [started, List.nil_append] at first
                rw [run_eq]
                simp [List.ne_nil_of_mem first]
      rw [List.nil_append] at started
      rw [starts]
      simp only at run_eq blocked ⊢
      generalize Pass.over input p90 now firstRound ⟨sim, run, none, false, [], []⟩ pending = p
        at started run_eq blocked some_run
      have ends : ∀ r ∈ p.run, ∃ e, r.ends = some e ∧ now < e := by
        rw [run_eq]
        intro r hr
        rcases List.mem_append.mp hr with old | new
        · exact later r old
        · obtain ⟨v, hv, rfl⟩ := List.mem_map.mp new
          exact (certain v (sub.subset hv)).known now
      -- Who isn't started in this pass is left for the next round.
      have split_pending (v : Waiting) (hv : v ∈ pending) : v ∈ p.started ∨ v ∈ p.left pending := by
        by_cases starts : v ∈ p.started
        · exact .inl starts
        · refine .inr (List.mem_filter.mpr ⟨hv, ?_⟩)
          rw [blocked, clear v hv, Option.isNone_none, Bool.and_true, Bool.not_eq_true', List.any_eq_false]
          intro u hu
          rw [decide_eq_true_eq]
          intro same
          exact starts (List.inj_on_of_nodup_map distinct (sub.subset (started ▸ hu)) hv same ▸ hu)
      have fewer : (p.left pending).length + p.started.length ≤ pending.length := by
        have apart : ((p.left pending ++ p.started).map (·.entry.index)).Nodup := by
          rw [List.map_append, List.nodup_append]
          refine ⟨distinct.sublist (List.filter_sublist.map _), started ▸ distinct.sublist (sub.map _), ?_⟩
          intro i hi j hj same
          obtain ⟨u, hu, rfl⟩ := List.mem_map.mp hi
          obtain ⟨v, hv, rfl⟩ := List.mem_map.mp hj
          exact left_started hu v hv same.symm
        have inside : (p.left pending ++ p.started).map (·.entry.index) ⊆ pending.map (·.entry.index) :=
          List.map_subset _ (List.append_subset.mpr ⟨left_subset p pending, started ▸ sub.subset⟩)
        simpa using apart.length_le_of_subset inside
      rcases split_pending w waits with starts | left
      · exact ⟨now, List.mem_append_left _ (List.mem_map_of_mem starts)⟩
      rw [if_neg (by simpa using List.ne_nil_of_mem left)]
      cases soonest : (p.run.filterMap (·.ends)).min? with
      | none =>
          rw [List.min?_eq_none_iff, List.filterMap_eq_nil_iff] at soonest
          obtain ⟨r, member⟩ := List.exists_mem_of_ne_nil _ some_run
          obtain ⟨e, known, -⟩ := ends r member
          rw [soonest r member] at known
          cases known
      | some next =>
          obtain ⟨after, overrun⟩ := retires ends soonest
          have size : (endings p.run).card ≤ (endings run).card + p.started.length := by
            simpa [run_eq, started] using card_endings_append run (p.started.map (·.runs input p90 now))
          obtain ⟨t, member⟩ := @ih (max next now) false p.sim
            (p.run.filter fun r => r.ends.all (· > max next now)) (p.left pending)
            (distinct.sublist (List.filter_sublist.map _)) (fun v hv => certain v (left_subset p pending hv))
            (fun v hv => by rw [blocked]; exact clear v (left_subset p pending hv))
            (fun r hr => by
              obtain ⟨member, still⟩ := List.mem_filter.mp hr
              obtain ⟨e, known, -⟩ := ends r member
              exact ⟨e, known, by simpa [known] using still⟩)
            (by omega) w left
          exact ⟨t, List.mem_append_right _ member⟩

theorem starts_now (distinct : (pending.map (·.entry.index)).Nodup)
    (certain : ∀ w ∈ pending, Certain input p90 w) (startable : ∀ w ∈ pending, Startable input w)
    (later : ∀ r ∈ run, ∃ e, r.ends = some e ∧ now < e) :
    ∀ s ∈ starts input p90 (n + 1) now firstRound sim run pending, s.1 = now ↔
      s.2 ∈ (Pass.over input p90 now firstRound ⟨sim, run, none, false, [], []⟩ pending).started := by
  obtain ⟨more, sub, started, run_eq, -⟩ := over_spec input p90 now firstRound pending
    ⟨sim, run, none, false, [], []⟩
  rw [List.nil_append] at started
  rw [starts]
  simp only at run_eq ⊢
  generalize Pass.over input p90 now firstRound ⟨sim, run, none, false, [], []⟩ pending = p at started run_eq
  have ends : ∀ r ∈ p.run, ∃ e, r.ends = some e ∧ now < e := by
    rw [run_eq]
    intro r hr
    rcases List.mem_append.mp hr with old | new
    · exact later r old
    · obtain ⟨v, hv, rfl⟩ := List.mem_map.mp new
      exact (certain v (sub.subset hv)).known now
  have here : ∀ s ∈ p.started.map (now, ·), s.1 = now ↔ s.2 ∈ p.started := by
    intro s hs
    obtain ⟨w, hw, rfl⟩ := List.mem_map.mp hs
    simp [hw]
  split
  · simp
  split
  · simp
  · rename_i next soonest
    intro s hs
    rcases List.mem_append.mp hs with current | hs
    · exact here s current
    · have after := (retires ends soonest).1
      have member := (starts_spec input p90 n (max next now) false p.sim _
        (distinct.sublist (List.filter_sublist.map _))).1 s hs
      have simulates : Simulates SimRun.ends (Allowed input) (max next now)
          (p.run.filter fun r => r.ends.all (· > max next now))
          ((starts input p90 n (max next now) false p.sim (p.run.filter fun r => r.ends.all (· > max next now))
            (p.left pending)).map (startRuns input p90)) :=
        starts_simulates fun w hw => startable w (left_subset p pending hw)
      have not_before := simulates.not_before _ (List.mem_map_of_mem hs)
      refine ⟨fun same => ?_, fun again => absurd rfl (left_started member _ again)⟩
      have : max next now ≤ s.1 := not_before
      omega

end Starts

/-! ## Estimates don't matter to a pass -/

section Agree

/-- A running job but for its end. -/
def SimRun.endless (r : SimRun) : SimRun := { r with ends := none }

theorem fit_endless (input : Input) (q : Queued) (t : Tenant) (run : List SimRun) :
    fit input q t (run.map (·.endless)) = fit input q t run := by
  have blockers : (run.map (·.endless)).filter (isolates input q) =
      (run.filter (isolates input q)).map (·.endless) := by
    rw [List.filter_map]
    rfl
  unfold fit submitterCount
  simp only [blockers, List.countP_map, List.map_map, List.any_map, List.all_map, List.length_map,
    ne_eq, List.map_eq_nil_iff]
  rfl

/-- The same but for the ends of the running jobs and what is noted. -/
structure Pass.Agrees (p p' : Pass) : Prop where
  run : p.run.map (·.endless) = p'.run.map (·.endless)
  held : p.held = p'.held
  seen : p.capacityHeadSeen = p'.capacityHeadSeen
  started : p.started = p'.started

theorem look_agrees (input : Input) (p90 p90' : Bool) (now : Nat) (firstRound : Bool) (w : Waiting)
    {p p' : Pass} (agrees : p.Agrees p') :
    (p.look input p90 now firstRound w).Agrees (p'.look input p90' now firstRound w) := by
  have answer : fit input w.entry.job w.tenant p.run = fit input w.entry.job w.tenant p'.run := by
    rw [← fit_endless, agrees.run, fit_endless]
  unfold Pass.look
  rw [answer]
  generalize fit input w.entry.job w.tenant p'.run = f
  have noted : (if firstRound then p.note w f else p).Agrees (if firstRound then p'.note w f else p') := by
    split
    · exact ⟨agrees.run, agrees.held, agrees.seen, agrees.started⟩
    · exact agrees
  simp only
  generalize (if firstRound then p.note w f else p) = q at noted
  generalize (if firstRound then p'.note w f else p') = q' at noted
  obtain ⟨run, held, seen, started⟩ := noted
  cases f with
  | never => exact ⟨run, held, seen, started⟩
  | wait c => exact ⟨run, held, seen, started⟩
  | now =>
      rw [held]
      cases q'.held with
      | none => exact ⟨by rw [List.map_append, List.map_append, run]; rfl, rfl, seen, by simp [started]⟩
      | some h => exact ⟨run, held, seen, started⟩
  | capacity c =>
      rw [held]
      cases q'.held with
      | none => exact ⟨run, by simp [seen], rfl, started⟩
      | some h => exact ⟨run, held, seen, started⟩

theorem over_agrees (input : Input) (p90 p90' : Bool) (now : Nat) (firstRound : Bool) (ws : List Waiting)
    {p p' : Pass} (agrees : p.Agrees p') :
    (p.over input p90 now firstRound ws).Agrees (p'.over input p90' now firstRound ws) := by
  induction ws generalizing p p' with
  | nil => exact agrees
  | cons w ws ih => exact ih (look_agrees input p90 p90' now firstRound w agrees)

end Agree

end K2.NodeQueue
