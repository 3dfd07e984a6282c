import K2.Lib.Machines
import K2.NodeQueue.Safety

/-! # Submitters take turns

One tenant's workspace on a one-slot node, over runs: each round some jobs
arrive, one decision is made, what it starts leaves the queue, and its rotation
is the next decision's.

Priority and Standard share the cursor `lastSubmitter`. Where Priority always
comes from one submitter and Standard from two others, the cursor is back at the
Priority submitter before every Standard start, so the same one of the two always
comes next. A submitter's wait is bounded as long as no start of the other line
puts the cursor onto or past it.
-/

namespace K2.NodeQueue

open Compute RoundRobin Rounds

/-- The node between two decisions. -/
structure Shared where
  queue : List Queued
  rotation : Rotation

/-- What one round brings. -/
structure Round where
  now : Int
  cfg : Config
  caps : Caps
  tenant : Tenant
  arrivals : List Queued

namespace Shared

variable (s : Shared) (r : Round)

/-- The queue the round decides on. -/
def queued : List Queued := s.queue ++ r.arrivals

/-- The snapshot of the round: nothing runs. -/
def input : Input := ⟨r.now, r.cfg, r.caps, [r.tenant], [], s.queued r, s.rotation⟩

/-- What starts leaves the queue. -/
def next : Shared where
  queue := ((s.input r).entries.filter (· ∉ (s.input r).decide.start)).map (·.job)
  rotation := (s.input r).decide.rotation

/-- A start, and the line it counts for. -/
structure Start where
  job : Queued
  line : Line

def starts : List Start :=
  (s.input r).decide.start.map fun e => ⟨e.job, startLine (s.input r) e.job⟩

/-- The submitters with a queued job of the line. -/
def keys (l : Line) : List String :=
  ((s.queued r).filter fun q => lineOf q r.tenant = l).map (·.turnKey)

/-- The submitters a run has seen. -/
def submitters (rounds : List Round) : Finset String :=
  ((s.queue ++ rounds.flatMap (·.arrivals)).map (·.turnKey)).toFinset

variable (slot : Slot) (ws : String)

/-- The submitter served last. -/
def cursor : Option String := s.rotation.lastSubmitter.lookup (slot, ws)

/-- A one-slot node that nothing blocks, and fresh Priority or Standard jobs of
    one workspace, each of which can start on it. -/
def Plain : Prop :=
  r.caps.parallelMax = 1 ∧ r.caps.blocked = none ∧ r.tenant.blocked = none ∧ r.tenant.slot = slot ∧
    ∀ q ∈ s.queued r, q.slot = slot ∧ q.workspaceId = ws ∧ q.eligible = true ∧
      (lineOf q r.tenant).alternates = true ∧ isAged q r.now r.cfg = false ∧
      fit (s.input r) q r.tenant [] = .now

instance : Decidable (s.Plain r slot ws) := inferInstanceAs (Decidable (_ ∧ _ ∧ _ ∧ _ ∧ _))

variable (l : Line) (w : String)

/-- Does the submitter have a job of the line queued? -/
def Waits : Prop := w ∈ s.keys r l

instance : Decidable (s.Waits r l w) := inferInstanceAs (Decidable (_ ∈ _))

/-- The line that goes next. -/
def turnOf : Option Line :=
  nextLine (fun l => (s.queued r).any fun q => lineOf q r.tenant = l) s.rotation.lastLine

/-- If the other line has the turn, the submitter it goes to is the one at the
    cursor, or comes before `w`. -/
def Unpassed : Prop :=
  ∀ other ∈ s.turnOf r, other ≠ l → ∀ x ∈ rotateAfter (s.keys r other) (s.cursor slot ws),
    s.cursor slot ws = some x ∨ turn (s.cursor slot ws) x < turn (s.cursor slot ws) w

instance : Decidable (s.Unpassed r slot ws l w) :=
  inferInstanceAs (Decidable (∀ other ∈ _, _ → ∀ x ∈ _, _))

/-- The conditions under which `w` waits no longer than its turns. -/
def Fair (s : Shared) (r : Round) : Prop :=
  s.Plain r slot ws ∧ s.Unpassed r slot ws l w ∧ s.Waits r l w

instance : Decidable (s.Fair slot ws l w r) := inferInstanceAs (Decidable (_ ∧ _ ∧ _))

/-! ## One round -/

section Round

variable {s : Shared} {r : Round} {slot : Slot} {ws : String}

theorem tenantOf_input (plain : s.Plain r slot ws) :
    tenantOf (s.input r).tenants slot = some r.tenant := by
  simp [input, tenantOf, plain.2.2.2.1]

theorem mem_queued {e : Entry} (member : e ∈ (s.input r).entries) : e.job ∈ s.queued r :=
  Input.mem_queued member

theorem entries_job (s : Shared) (r : Round) : (s.input r).entries.map (·.job) = s.queued r := by
  rw [Input.entries, List.map_map]
  exact List.zipIdx_map_fst 0 (s.queued r)

theorem all_present (plain : s.Plain r slot ws) : (s.input r).build.pending = (s.input r).entries := by
  refine List.filter_eq_self.mpr fun e member => ?_
  obtain ⟨at_slot, -, eligible, -⟩ := plain.2.2.2.2 e.job (mem_queued member)
  simp [Input.present, eligible, at_slot, tenantOf_input plain]

theorem free_of_plain (plain : s.Plain r slot ws) {q : Queued} (member : q ∈ s.queued r) :
    Free (s.input r) q r.tenant := by
  obtain ⟨at_slot, -, eligible, -⟩ := plain.2.2.2.2 q member
  exact ⟨at_slot ▸ tenantOf_input plain, eligible, plain.2.1, plain.2.2.1⟩

theorem order_head (plain : s.Plain r slot ws) (some_job : s.queued r ≠ []) :
    ∃ e line rest, order (s.input r) = e :: rest ∧
      (s.input r).build.pick (s.input r) = some (e, line) := by
  have pending := all_present plain
  have nonempty : (s.input r).build.pending ≠ [] := by
    intro empty
    rw [pending] at empty
    exact some_job (by rw [← entries_job, empty]; rfl)
  have known : ∀ e ∈ (s.input r).build.pending, (tenantOf (s.input r).tenants e.job.slot).isSome := by
    intro e member
    rw [pending] at member
    rw [(free_of_plain plain (mem_queued member)).tenant]
    rfl
  obtain ⟨⟨e, line⟩, pick⟩ := Option.isSome_iff_exists.mp (pick_isSome nonempty known)
  cases size : (s.input r).build.pending.length with
  | zero => exact absurd (List.eq_nil_of_length_eq_zero size) nonempty
  | succ n =>
      unfold order
      rw [size, Build.drain, pick]
      exact ⟨e, line, _, rfl, rfl⟩

theorem start_eq_head (plain : s.Plain r slot ws) {e : Entry} {rest : List Entry}
    (head : order (s.input r) = e :: rest) : (s.input r).decide.start = [e] := by
  have idle : ∀ j ∈ (s.input r).running, ∀ left, j.leftP50 = some left → 1 ≤ left := fun j hj => by
    simp [input] at hj
  have safe := decide_safe (s.input r) idle
  have member : e ∈ order (s.input r) := by simp [head]
  have queued := mem_queued ((order_perm _).mem_iff.mp member)
  have free := free_of_plain plain queued
  have starts : e ∈ (s.input r).decide.start := by
    refine (start_iff idle (show order (s.input r) = [] ++ e :: rest from head) free).mpr ⟨rfl, ?_⟩
    exact (plain.2.2.2.2 e.job queued).2.2.2.2.2
  have only : ∀ k ∈ (s.input r).decide.start, k = e := by
    intro k hk
    have stands := safe.sublist.subset hk
    rw [show (s.input r).decide.order = e :: rest from head] at stands
    rcases List.mem_cons.mp stands with same | later
    · exact same
    · obtain ⟨one, two, rfl⟩ := List.append_of_mem later
      obtain ⟨t, may⟩ := safe.starts (e :: one) k two head hk
      have room := may.room.parallel
      have beside : e.job.sim false (s.input r).caps r.tenant 0 ∈
          occupants (s.input r) (s.input r).decide (e :: one) := by
        refine List.mem_append_right _ (List.mem_filterMap.mpr
          ⟨e, List.mem_filter.mpr ⟨List.mem_cons_self, by simpa using starts⟩, ?_⟩)
        rw [free.tenant]
        rfl
      rw [show (s.input r).caps.parallelMax = 1 from plain.1, Nat.lt_one_iff,
        List.length_eq_zero_iff] at room
      simp [room] at beside
  have distinct : (s.input r).decide.start.Nodup :=
    (List.Nodup.of_map _ (order_nodup (s.input r))).sublist safe.sublist
  refine List.perm_singleton.mp ((List.perm_ext_iff_of_nodup distinct (by simp)).mpr fun k => ?_)
  rw [List.mem_singleton]
  exact ⟨only k, fun same => same ▸ starts⟩

/-- A round with work starts the submitter whose turn it is in the line whose
    turn it is. -/
theorem round_spec (plain : s.Plain r slot ws) (some_job : s.queued r ≠ []) :
    ∃ q ∈ s.queued r, ∃ l, s.starts r = [⟨q, l⟩] ∧ s.turnOf r = some l ∧
      IsNext (· ∈ s.keys r l) (s.cursor slot ws) q.turnKey ∧
      (s.next r).cursor slot ws = some q.turnKey := by
  obtain ⟨e, line, rest, head, pick⟩ := order_head plain some_job
  obtain ⟨pending, next, t, found, inLine, tenant_head⟩ := pick_spec pick
  have start := start_eq_head plain head
  rw [all_present plain] at pending
  have queued := mem_queued pending
  obtain ⟨at_slot, here, -, alternates, -, -⟩ := plain.2.2.2.2 e.job queued
  obtain rfl : r.tenant = t :=
    Option.some_inj.mp ((free_of_plain plain queued).tenant.symm.trans found)
  have line_eq : startLine (s.input r) e.job = line := by
    rw [startLine, found, Option.map_some, inLine]
    rfl
  refine ⟨e.job, queued, line, ?_, ?_, ?_, ?_⟩
  · rw [Shared.starts, start, List.map_singleton, line_eq]
  · rw [← next, turnOf]
    congr 1
    funext l
    rw [Bool.eq_iff_iff, Build.lineHas, all_present plain, ← entries_job, List.any_map,
      List.any_eq_true, List.any_eq_true]
    refine exists_congr fun k => and_congr_right fun member => ?_
    have tenant := (free_of_plain plain (mem_queued member)).tenant
    simp [tenant]
  · have turns : line ≠ .ci := by
      intro ci
      rw [inLine, ci] at alternates
      cases alternates
    have inside {k : Entry} (hk : k ∈ (s.input r).build.ofSlot e.job.slot) :
        k ∈ (s.input r).entries := by
      rw [Build.ofSlot, all_present plain] at hk
      exact List.mem_of_mem_filter hk
    have keys (x : String) : (∃ k ∈ (s.input r).build.ofSlot e.job.slot, lineOf k.job r.tenant = line ∧
        k.job.workspaceId = e.job.workspaceId ∧ k.job.turnKey = x) ↔ x ∈ s.keys r line := by
      simp only [Shared.keys, ← entries_job, List.mem_map, List.mem_filter, decide_eq_true_eq]
      constructor
      · rintro ⟨k, hk, inLine, -, same⟩
        exact ⟨k.job, ⟨⟨k, inside hk, rfl⟩, inLine⟩, same⟩
      · rintro ⟨q, ⟨⟨k, hk, rfl⟩, inLine⟩, same⟩
        obtain ⟨its_slot, its_ws, -⟩ := plain.2.2.2.2 k.job (mem_queued hk)
        refine ⟨k, ?_, inLine, its_ws.trans here.symm, same⟩
        rw [Build.ofSlot, all_present plain]
        exact List.mem_filter.mpr ⟨hk, by simp [its_slot, at_slot]⟩
    obtain ⟨mem, le⟩ := tenantHead_turn tenant_head turns fun k hk =>
      (plain.2.2.2.2 k.job (mem_queued (inside hk))).2.2.2.2.1
    rw [show r.tenant.slot = slot from plain.2.2.2.1, here] at le
    exact ⟨(keys _).mp mem, fun k hk => le k (here ▸ (keys k).mpr hk)⟩
  · have rotation : (s.next r).rotation = s.rotation.served e.job line := by
      change (s.input r).decide.start.foldl _ _ = _
      rw [start, List.foldl_cons, line_eq]
      rfl
    rw [cursor, rotation, Rotation.served, at_slot, here]
    exact FinMap.lookup_insert_self _ _ _

end Round

/-! ## The wait is bounded -/

section Run

variable {slot : Slot} {ws : String} {l : Line} {w : String}

theorem queue_subset (s : Shared) (r : Round) : (s.next r).queue ⊆ s.queued r := by
  intro q hq
  obtain ⟨e, he, rfl⟩ := List.mem_map.mp hq
  exact mem_queued (List.mem_of_mem_filter he)

theorem submitters_next (s : Shared) (r : Round) (rest : List Round) :
    (s.next r).submitters rest ⊆ s.submitters (r :: rest) := by
  intro k hk
  simp only [submitters, List.mem_toFinset, List.mem_map, List.mem_append, List.flatMap_cons] at hk ⊢
  obtain ⟨q, hq, rfl⟩ := hk
  refine ⟨q, ?_, rfl⟩
  rcases hq with old | new
  · have := List.mem_append.mp (queue_subset s r old)
    tauto
  · tauto

theorem submitters_append (s : Shared) (before rounds : List Round) :
    (after next s before).submitters rounds ⊆ s.submitters (before ++ rounds) := by
  induction before generalizing s with
  | nil => exact subset_rfl
  | cons r rest ih => exact (ih _).trans (submitters_next s r (rest ++ rounds))

theorem mem_submitters {s : Shared} {r : Round} {q : Queued} (queued : q ∈ s.queued r)
    (rest : List Round) : q.turnKey ∈ s.submitters (r :: rest) := by
  simp only [submitters, List.mem_toFinset, List.mem_map, List.mem_append, List.flatMap_cons]
  have := List.mem_append.mp queued
  exact ⟨q, by tauto, rfl⟩

/-- The starts of a run. -/
def allStarts (s : Shared) (rounds : List Round) : List Start := outputs next starts s rounds

/-- A start as a move of the cursor: one of the line is a turn of the rotation in
    question. -/
def Start.move (l : Line) (x : Start) : Move String := ⟨x.line = l, x.job.turnKey⟩

theorem turns_of_along (s : Shared) (rounds : List Round)
    (along : Along next (Fair slot ws l w) s rounds) :
    TakesTurns w (s.cursor slot ws) ((s.allStarts rounds).map (Start.move l)) ∧
      ∀ x ∈ s.allStarts rounds, x.job.turnKey ∈ s.submitters rounds := by
  induction rounds generalizing s with
  | nil => exact ⟨.nil, by simp [allStarts, outputs]⟩
  | cons r rest ih =>
      obtain ⟨⟨plain, unpassed, waits⟩, later⟩ := along
      have some_job : s.queued r ≠ [] := by
        intro empty
        simp [Waits, keys, empty] at waits
      obtain ⟨q, queued, line, starts, its_turn, next_key, cursor⟩ := round_spec plain some_job
      obtain ⟨turns, known⟩ := ih (s.next r) later
      have starts_eq : s.allStarts (r :: rest) = ⟨q, line⟩ :: (s.next r).allStarts rest := by
        simp only [allStarts, outputs, starts, List.singleton_append]
      rw [cursor] at turns
      rw [starts_eq, List.map_cons]
      refine ⟨?_, fun x hx => ?_⟩
      · by_cases same : line = l
        · subst same
          rw [show Start.move line ⟨q, line⟩ = ⟨true, q.turnKey⟩ by simp [Start.move]]
          exact .own next_key waits turns
        · rw [show Start.move l ⟨q, line⟩ = ⟨false, q.turnKey⟩ by simp [Start.move, same]]
          exact .outside (unpassed line its_turn same _ (rotateAfter_next.mpr next_key)) turns
      · rcases List.mem_cons.mp hx with rfl | hx
        · exact mem_submitters queued rest
        · exact submitters_next s r rest (known x hx)

/-- A submitter with a job of a line queued throughout has one started within as
    many starts of that line as there are submitters, if no start of the other
    line puts the cursor onto or past it. -/
theorem submitter_served (start : Shared) (before window : List Round) (slot : Slot) (ws : String)
    (l : Line) (w : String) (steps : Along next (Fair slot ws l w) (after next start before) window)
    (known : w ∈ start.submitters (before ++ window))
    (enough : (start.submitters (before ++ window)).card ≤
      ((after next start before).allStarts window).countP (·.line = l)) :
    ∃ x ∈ (after next start before).allStarts window, x.line = l ∧ x.job.turnKey = w := by
  have inside := submitters_append start before window
  obtain ⟨turns, targets⟩ := turns_of_along _ _ steps
  obtain ⟨m, hm, own, target⟩ := turns.served known (fun m hm => by
    obtain ⟨x, hx, rfl⟩ := List.mem_map.mp hm
    exact inside (targets x hx)) (by rw [List.countP_map]; exact enough)
  obtain ⟨x, hx, rfl⟩ := List.mem_map.mp hm
  exact ⟨x, hx, by simpa [Start.move] using own, target⟩

end Run

/-- Nine jobs: three Priority ones of `a`, three Standard ones of `b` and three of `c`. -/
def nineJobs : List Queued :=
  [plainJob "1" "a" .priority 1, plainJob "2" "a" .priority 2, plainJob "3" "a" .priority 3,
    plainJob "4" "b" .normal 4, plainJob "5" "b" .normal 5, plainJob "6" "b" .normal 6,
    plainJob "7" "c" .normal 7, plainJob "8" "c" .normal 8, plainJob "9" "c" .normal 9]

def oneSlotRound (arrivals : List Queued) : Round :=
  ⟨0, .default, ⟨8000, 16 * 2 ^ 30, 1, none⟩, owner, arrivals⟩

def sixRounds : List Round := oneSlotRound nineJobs :: List.replicate 5 (oneSlotRound [])

/-- `c` waits through as many starts of its line as there are submitters: they
    all go to `b`. -/
theorem submitter_passed_over :
    let idle : Shared := ⟨[], .empty⟩
    Along next (fun s r => s.Plain r 0 "w") idle sixRounds ∧
      Along next (fun s r => s.Waits r .standard "c") idle sixRounds ∧
      (idle.submitters sixRounds).card = 3 ∧
      ((idle.allStarts sixRounds).filter (·.line = .standard)).map (·.job.turnKey) = ["b", "b", "b"] := by
  decide +kernel

theorem submitter_served_two_submitters :
    let start : Shared := ⟨nineJobs.take 6, .empty⟩
    ∃ x ∈ start.allStarts (List.replicate 4 (oneSlotRound [])),
      x.line = .standard ∧ x.job.turnKey = "b" :=
  submitter_served ⟨nineJobs.take 6, .empty⟩ [] (List.replicate 4 (oneSlotRound [])) 0 "w" .standard "b"
    (by decide +kernel) (by decide +kernel) (by decide +kernel)

end Shared

end K2.NodeQueue
