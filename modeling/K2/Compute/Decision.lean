import K2.Compute.Order

/-! # One placement decision

`Looks` lists what the placement loop can do with one job. From it come the
invariants of the loop, and from those what every decision keeps: each job is
placed or waits for one reason, a placed job is allowed to start, nothing passes
a job that takes the next free slot, and turns are first come first.
-/

namespace K2.Compute

/-! ## Positions -/

theorem positioned_eq {jobs : List QueuedJob} (distinct : (jobs.map (·.id)).Nodup) :
    positioned jobs = jobs.zipIdx.map fun p => (p.1, p.2 + 1) := by
  refine List.ext_getElem (by simp [positioned]) fun i h _ => ?_
  have inside : i < jobs.length := by simpa [positioned] using h
  have ids : (jobs.zipIdx.map (·.1.id)).Nodup := by
    rw [← Function.comp_def QueuedJob.id, ← List.map_map, List.zipIdx_map_fst]
    exact distinct
  have member : (jobs[i], i) ∈ jobs.zipIdx := by
    simp [List.mk_mem_zipIdx_iff_getElem?, inside]
  have own := FinMap.lookup_foldl_insert (fun p : QueuedJob × Nat => p.1.id) (fun p => p.2 + 1) .empty ids
    member
  simp [positioned, positions, own]

theorem positioned_fst (jobs : List QueuedJob) : (positioned jobs).map (·.1) = jobs := by
  simp [positioned, Function.comp_def]

/-! ## One job of the order -/

/-- Do jobs of its line start strictly in arrival order, one submitter's at a
    time? -/
def QueuedJob.ByArrival (j : QueuedJob) : Prop := j.line = .standard ∨ j.line = .batch

instance (j : QueuedJob) : Decidable j.ByArrival := inferInstanceAs (Decidable (_ ∨ _))

variable {load : Load} {caps : Limits} {offer : Offer}

/-- What is looked at once `j` was. -/
def Scan.seenWith (s : Scan) (j : QueuedJob) : List (String × String × Line) :=
  if j.ByArrival then j.turn :: s.seen else s.seen

variable (load caps offer) in
/-- What the placement loop does with one job. -/
inductive Looks (s : Scan) (j : QueuedJob) (pos : Nat) : Scan → Prop where
  | unfit (r : Refusal) (never : neverFits offer j = some r) :
      Looks s j pos { s with waiting := s.waiting.insert j.id (pos, r) }
  | held (h : Refusal) (fits : neverFits offer j = none) (hold : s.hold = some h) :
      Looks s j pos { s with headSeen := true, waiting := s.waiting.insert j.id (pos, h) }
  | behind (fits : neverFits offer j = none) (free : s.hold = none) (arrival : j.ByArrival)
      (looked : j.turn ∈ s.seen) :
      Looks s j pos { s with headSeen := true, waiting := s.waiting.insert j.id (pos, behindOlder) }
  | placed (fits : neverFits offer j = none) (free : s.hold = none)
      (first : j.ByArrival → j.turn ∉ s.seen) (ready : verdict load caps offer false j = none)
      (vacant : s.place = none) :
      Looks s j pos { s with headSeen := true, seen := s.seenWith j, place := some j.id }
  | next (other : String) (fits : neverFits offer j = none) (free : s.hold = none)
      (first : j.ByArrival → j.turn ∉ s.seen) (taken : s.place = some other) :
      Looks s j pos
        { s with
          headSeen := true
          seen := s.seenWith j
          waiting := s.waiting.insert j.id (pos, nextInTurn) }
  | refused (r : Refusal) (hold : Option Refusal) (fits : neverFits offer j = none)
      (free : s.hold = none) (first : j.ByArrival → j.turn ∉ s.seen)
      (no : verdict load caps offer s.place.isSome j = some r)
      (room : waitsForRoom r.code = true → j.line.holds = true → hold.isSome = true) :
      Looks s j pos
        { s with
          headSeen := true
          seen := s.seenWith j
          hold
          waiting := s.waiting.insert j.id (pos, r) }

theorem look_looks (s : Scan) (j : QueuedJob) (pos : Nat) :
    Looks load caps offer s j pos (s.look load caps offer (j, pos)) := by
  obtain ⟨place, hold, headSeen, seen, waiting⟩ := s
  simp only [Scan.look]
  cases never : neverFits offer j with
  | some r => exact .unfit r never
  | none =>
      cases hold with
      | some h => exact .held h never rfl
      | none =>
          simp only
          split
          · rename_i looked
            exact .behind never rfl looked.1 looked.2
          · rename_i first
            have first' : j.ByArrival → j.turn ∉ seen := fun arrival seen => first ⟨arrival, seen⟩
            cases no : verdict load caps offer place.isSome j with
            | some r =>
                refine .refused r _ never rfl first' no fun room holds => ?_
                simp [room, holds]
            | none =>
                cases place with
                | none => exact .placed never rfl first' no rfl
                | some other => exact .next other never rfl first' rfl

/-! ## The loop -/

variable (load caps offer) in
/-- The loop over the jobs of an order, each with its position. -/
def scan (ps : List (QueuedJob × Nat)) : Scan := ps.foldl (Scan.look load caps offer) .start

/-- An invariant of the loop: it holds at the start, and one more job keeps it. -/
theorem scan_induction {P : List (QueuedJob × Nat) → Scan → Prop} (start : P [] .start)
    (step : ∀ pre j pos s', P pre (scan load caps offer pre) →
      Looks load caps offer (scan load caps offer pre) j pos s' → P (pre ++ [(j, pos)]) s')
    (ps : List (QueuedJob × Nat)) : P ps (scan load caps offer ps) := by
  induction ps using List.reverseRecOn with
  | nil => exact start
  | append_singleton pre p ih =>
      have next : scan load caps offer (pre ++ [p]) =
          (scan load caps offer pre).look load caps offer p := by
        simp [scan, List.foldl_append]
      rw [next]
      exact step pre p.1 p.2 _ ih (look_looks _ _ _)

theorem Looks.lookup_of_ne {s s' : Scan} {j : QueuedJob} {pos : Nat}
    (looks : Looks load caps offer s j pos s') {id : String} (other : j.id ≠ id) :
    s'.waiting.lookup id = s.waiting.lookup id := by
  cases looks <;> first | rfl | exact FinMap.lookup_insert_of_ne _ _ other

theorem foldl_look_lookup (rest : List (QueuedJob × Nat)) (s : Scan) {id : String}
    (absent : ∀ p ∈ rest, p.1.id ≠ id) :
    (rest.foldl (Scan.look load caps offer) s).waiting.lookup id = s.waiting.lookup id := by
  induction rest generalizing s with
  | nil => rfl
  | cons p rest ih =>
      rw [List.foldl_cons, ih _ fun q hq => absent q (List.mem_cons_of_mem _ hq)]
      exact (look_looks s p.1 p.2).lookup_of_ne (absent p (by simp))

theorem Looks.place {s s' : Scan} {j : QueuedJob} {pos : Nat}
    (looks : Looks load caps offer s j pos s') :
    s'.place = s.place ∨ (s.place = none ∧ s'.place = some j.id) := by
  cases looks with
  | placed _ _ _ _ vacant => exact .inr ⟨vacant, rfl⟩
  | unfit => exact .inl rfl
  | held => exact .inl rfl
  | behind => exact .inl rfl
  | next => exact .inl rfl
  | refused => exact .inl rfl

/-- What the loop leaves on record: whom it placed, and whom it keeps waiting. -/
structure Recorded (ps : List (QueuedJob × Nat)) (s : Scan) : Prop where
  placed : ∀ id, s.place = some id → id ∈ ps.map (·.1.id)
  waiting : ∀ id e, s.waiting.lookup id = some e → id ∈ ps.map (·.1.id)
  entry : ∀ p ∈ ps, (s.place = some p.1.id ∧ s.waiting.lookup p.1.id = none) ∨
    (s.place ≠ some p.1.id ∧ ∃ r, s.waiting.lookup p.1.id = some (p.2, r))

/-- Recording one more job: it is placed, or its entry is written. -/
theorem Looks.entry {s s' : Scan} {j : QueuedJob} {pos : Nat}
    (looks : Looks load caps offer s j pos s') :
    (s.place = none ∧ s'.place = some j.id ∧ s'.waiting = s.waiting) ∨
      (s'.place = s.place ∧ ∃ r, s'.waiting.lookup j.id = some (pos, r)) := by
  cases looks with
  | unfit r => exact .inr ⟨rfl, r, FinMap.lookup_insert_self _ _ _⟩
  | held h => exact .inr ⟨rfl, h, FinMap.lookup_insert_self _ _ _⟩
  | behind => exact .inr ⟨rfl, behindOlder, FinMap.lookup_insert_self _ _ _⟩
  | placed _ _ _ _ vacant => exact .inl ⟨vacant, rfl, rfl⟩
  | next => exact .inr ⟨rfl, nextInTurn, FinMap.lookup_insert_self _ _ _⟩
  | refused r => exact .inr ⟨rfl, r, FinMap.lookup_insert_self _ _ _⟩

variable (load caps offer) in
/-- Every job looked at is placed, or has one entry saying where it stands. -/
theorem scan_recorded (ps : List (QueuedJob × Nat)) (distinct : (ps.map (·.1.id)).Nodup) :
    Recorded ps (scan load caps offer ps) := by
  revert distinct
  refine scan_induction (P := fun ps s => (ps.map (·.1.id)).Nodup → Recorded ps s) ?_ ?_ ps
  · exact fun _ => ⟨fun id place => by simp [Scan.start] at place,
      fun id e held => by simp [Scan.start] at held, fun p member => by simp at member⟩
  · intro pre j pos s' ih looks distinct
    simp only [List.map_append, List.map_cons, List.map_nil] at distinct
    have old := ih (List.Nodup.of_append_left distinct)
    have new : j.id ∉ pre.map (·.1.id) := fun member =>
      List.disjoint_of_nodup_append distinct member (by simp)
    refine ⟨fun id place => ?_, fun id e held => ?_, fun p member => ?_⟩
    · simp only [List.map_append, List.map_cons, List.map_nil, List.mem_append, List.mem_singleton]
      rcases looks.place with same | ⟨-, now⟩
      · exact .inl (old.placed id (same ▸ place))
      · rw [now] at place
        exact .inr (Option.some_inj.mp place).symm
    · simp only [List.map_append, List.map_cons, List.map_nil, List.mem_append, List.mem_singleton]
      by_cases here : j.id = id
      · exact .inr here.symm
      · exact .inl (old.waiting id e ((looks.lookup_of_ne here).symm.trans held))
    · rcases List.mem_append.mp member with earlier | last
      · have other : j.id ≠ p.1.id := fun same => new (same ▸ List.mem_map_of_mem earlier)
        rw [looks.lookup_of_ne other]
        rcases looks.place with same | ⟨vacant, now⟩
        · rw [same]
          exact old.entry p earlier
        · rcases old.entry p earlier with ⟨placed, -⟩ | ⟨-, waits⟩
          · rw [vacant] at placed
            cases placed
          · exact .inr ⟨by rw [now]; simpa using other, waits⟩
      · have here : p = (j, pos) := List.mem_singleton.mp last
        subst here
        rcases looks.entry with ⟨-, now, untouched⟩ | ⟨same, waits⟩
        · refine .inl ⟨now, ?_⟩
          rw [untouched]
          cases held : (scan load caps offer pre).waiting.lookup j.id with
          | none => rfl
          | some e => exact absurd (old.waiting _ e held) new
        · exact .inr ⟨fun place => new (old.placed _ (same ▸ place)), waits⟩

variable (load caps offer) in
/-- What holds when the loop places `j`, after the jobs `before` it. -/
structure PlacedAfter (before : List (QueuedJob × Nat)) (j : QueuedJob) : Prop where
  fits : neverFits offer j = none
  ready : verdict load caps offer false j = none
  vacant : (scan load caps offer before).place = none
  free : (scan load caps offer before).hold = none
  first : j.ByArrival → j.turn ∉ (scan load caps offer before).seen

theorem scan_placed (ps : List (QueuedJob × Nat)) {id : String}
    (place : (scan load caps offer ps).place = some id) :
    ∃ before j pos after, ps = before ++ (j, pos) :: after ∧ j.id = id ∧
      PlacedAfter load caps offer before j := by
  revert place
  refine scan_induction (P := fun ps s => s.place = some id → ∃ before j pos after,
    ps = before ++ (j, pos) :: after ∧ j.id = id ∧ PlacedAfter load caps offer before j)
    (fun place => by simp [Scan.start] at place) ?_ ps
  intro pre j pos s' ih looks place
  have extend (h : (scan load caps offer pre).place = some id) : ∃ before k kpos after,
      pre ++ [(j, pos)] = before ++ (k, kpos) :: after ∧ k.id = id ∧
        PlacedAfter load caps offer before k := by
    obtain ⟨before, k, kpos, after, rfl, rest⟩ := ih h
    exact ⟨before, k, kpos, after ++ [(j, pos)], by simp, rest⟩
  cases looks with
  | placed fits free first ready vacant =>
      exact ⟨pre, j, pos, [], rfl, Option.some_inj.mp place, fits, ready, vacant, free, first⟩
  | unfit => exact extend place
  | held => exact extend place
  | behind => exact extend place
  | next => exact extend place
  | refused => exact extend place

/-- A job of a line that takes the next free slot, waiting for room, holds. -/
theorem scan_room (ps : List (QueuedJob × Nat)) (distinct : (ps.map (·.1.id)).Nodup) :
    ∀ p ∈ ps, p.1.line.holds = true → ∀ pos r,
      (scan load caps offer ps).waiting.lookup p.1.id = some (pos, r) → waitsForRoom r.code = true →
      (scan load caps offer ps).hold.isSome = true := by
  revert distinct
  refine scan_induction (P := fun ps s => (ps.map (·.1.id)).Nodup → ∀ p ∈ ps, p.1.line.holds = true →
    ∀ pos r, s.waiting.lookup p.1.id = some (pos, r) → waitsForRoom r.code = true →
      s.hold.isSome = true) (fun _ p member => by simp at member) ?_ ps
  intro pre j standing s' ih looks distinct p member holds pos r held room
  simp only [List.map_append, List.map_cons, List.map_nil] at distinct
  have stays : (scan load caps offer pre).hold.isSome = true → s'.hold.isSome = true := fun h => by
    cases looks with
    | unfit | held | behind | placed | next => exact h
    | refused _ _ _ free => simp [free] at h
  rcases List.mem_append.mp member with earlier | last
  · have other : j.id ≠ p.1.id := fun same =>
      List.disjoint_of_nodup_append distinct (List.mem_map_of_mem earlier) (by simp [same])
    rw [looks.lookup_of_ne other] at held
    exact stays (ih (List.Nodup.of_append_left distinct) p earlier holds pos r held room)
  · have here : p = (j, standing) := List.mem_singleton.mp last
    subst here
    have written : ∀ {m : FinMap String (Nat × Refusal)} {q : Refusal},
        (m.insert j.id (standing, q)).lookup j.id = some (pos, r) → q = r := fun h => by
      simp only [FinMap.lookup_insert_self, Option.some.injEq, Prod.mk.injEq] at h
      exact h.2
    cases looks with
    | unfit r' never =>
        have code : r'.code = "exceeds_node_caps" := by
          simp only [neverFits] at never
          split at never
          · cases never
            rfl
          · split at never <;> cases never
            rfl
        rw [← written held, code] at room
        exact absurd room (by decide)
    | held h _ hold => simp [hold]
    | behind =>
        rw [← written held] at room
        exact absurd room (by decide)
    | placed _ _ _ _ vacant =>
        have := (scan_recorded load caps offer pre
          (List.Nodup.of_append_left distinct)).waiting _ _ held
        exact absurd (by simp) (List.disjoint_of_nodup_append distinct this)
    | next =>
        rw [← written held] at room
        exact absurd room (by decide)
    | refused r' hold _ _ _ _ sets =>
        rw [← written held] at room
        exact sets room holds

/-- A turn that was looked at is on record, unless everything is held. -/
theorem scan_seen (ps : List (QueuedJob × Nat)) :
    ∀ p ∈ ps, neverFits offer p.1 = none → p.1.ByArrival →
      p.1.turn ∈ (scan load caps offer ps).seen ∨ (scan load caps offer ps).hold.isSome = true := by
  refine scan_induction (P := fun ps s => ∀ p ∈ ps, neverFits offer p.1 = none → p.1.ByArrival →
      p.1.turn ∈ s.seen ∨ s.hold.isSome = true) (fun p member => by simp at member) ?_ ps
  intro pre j standing s' ih looks p member fits arrival
  have more : ∀ t ∈ (scan load caps offer pre).seen, t ∈ (scan load caps offer pre).seenWith j := by
    intro t ht
    unfold Scan.seenWith
    split
    · exact List.mem_cons_of_mem _ ht
    · exact ht
  rcases List.mem_append.mp member with earlier | last
  · have old := ih p earlier fits arrival
    cases looks with
    | unfit | held | behind => exact old
    | placed | next => exact old.imp_left (more _)
    | refused _ _ _ free =>
        rcases old with seen | hold
        · exact .inl (more _ seen)
        · simp [free] at hold
  · have here : p = (j, standing) := List.mem_singleton.mp last
    subst here
    have noted : j.turn ∈ (scan load caps offer pre).seenWith j := by
      rw [Scan.seenWith, if_pos arrival]
      exact List.mem_cons_self
    cases looks with
    | unfit _ never => simp [fits] at never
    | held _ _ hold => exact .inr (by simp [hold])
    | behind _ _ _ looked => exact .inl looked
    | placed | next | refused => exact .inl noted

/-- What is on record is the turn of a job that was looked at and can start. -/
theorem scan_seen_of (ps : List (QueuedJob × Nat)) :
    ∀ t ∈ (scan load caps offer ps).seen, ∃ p ∈ ps, p.1.turn = t ∧ neverFits offer p.1 = none := by
  refine scan_induction (P := fun ps s => ∀ t ∈ s.seen, ∃ p ∈ ps, p.1.turn = t ∧
    neverFits offer p.1 = none) (fun t ht => by simp [Scan.start] at ht) ?_ ps
  intro pre j standing s' ih looks t ht
  have old (h : t ∈ (scan load caps offer pre).seen) :
      ∃ p ∈ pre ++ [(j, standing)], p.1.turn = t ∧ neverFits offer p.1 = none := by
    obtain ⟨p, member, rest⟩ := ih t h
    exact ⟨p, List.mem_append_left _ member, rest⟩
  have new (fits : neverFits offer j = none) (h : t ∈ (scan load caps offer pre).seenWith j) :
      ∃ p ∈ pre ++ [(j, standing)], p.1.turn = t ∧ neverFits offer p.1 = none := by
    unfold Scan.seenWith at h
    split at h
    · rcases List.mem_cons.mp h with rfl | h
      · exact ⟨(j, standing), by simp, rfl, fits⟩
      · exact old h
    · exact old h
  cases looks with
  | unfit | held | behind => exact old ht
  | placed fits => exact new fits ht
  | next _ fits => exact new fits ht
  | refused _ _ fits => exact new fits ht

/-- While nothing is placed and nothing held, no job looked at was ready: it
    never fits, is refused, or has an older one of its own turn before it. -/
theorem scan_unready (ps : List (QueuedJob × Nat)) :
    (scan load caps offer ps).place = none → (scan load caps offer ps).hold = none →
    ∀ before j pos after, ps = before ++ (j, pos) :: after → neverFits offer j = none →
      verdict load caps offer false j ≠ none ∨
        (j.ByArrival ∧ ∃ p ∈ before, p.1.turn = j.turn ∧ neverFits offer p.1 = none) := by
  refine scan_induction (P := fun ps s => s.place = none → s.hold = none →
    ∀ before j pos after, ps = before ++ (j, pos) :: after → neverFits offer j = none →
      verdict load caps offer false j ≠ none ∨
        (j.ByArrival ∧ ∃ p ∈ before, p.1.turn = j.turn ∧ neverFits offer p.1 = none))
    (fun _ _ before j pos after empty => by simp at empty) ?_ ps
  intro pre j standing s' ih looks place hold before k pos after split fits
  have place_before : (scan load caps offer pre).place = none := by
    rcases looks.place with same | ⟨vacant, -⟩
    · exact same ▸ place
    · exact vacant
  have hold_before : (scan load caps offer pre).hold = none := by
    cases looks with
    | unfit | held | behind | placed | next => exact hold
    | refused _ _ _ free => exact free
  rcases List.eq_nil_or_concat after with rfl | ⟨front, last, rfl⟩
  · obtain ⟨rfl, same⟩ := List.append_inj' split rfl
    cases same
    cases looks with
    | unfit _ never => simp [fits] at never
    | held _ _ held => simp [hold_before] at held
    | behind _ _ arrival looked => exact .inr ⟨arrival, scan_seen_of pre _ looked⟩
    | placed => simp at place
    | next _ _ _ _ taken => simp [place_before] at taken
    | refused r _ _ _ _ no =>
        rw [place_before] at no
        exact .inl (by rw [show verdict load caps offer false j = some r from no]; simp)
  · have : pre ++ [(j, standing)] = (before ++ (k, pos) :: front) ++ [last] := by simpa using split
    obtain ⟨rfl, -⟩ := List.append_inj' this rfl
    exact ih place_before hold_before before k pos front rfl fits

/-! ## Every decision is safe -/

variable (load caps offer) in
/-- May `j` start on the node, as things stand? -/
structure MayStart (j : QueuedJob) : Prop where
  fits : neverFits offer j = none
  offer : offerRefusal offer load.total load.exclusiveRunning j.ask = none
  grant : (load.runningByWorkspace.lookup j.workspaceId).getD 0 <
    max (caps.grantMaxParallel j.workspaceId) 1
  submitter : j.tier = .ci ∨ caps.submitterMaxRunning j.workspaceId = 0 ∨
    (load.runningBySubmitter.lookup (j.workspaceId, j.sub)).getD 0 <
      caps.submitterMaxRunning j.workspaceId

theorem verdict_eq_none {placed : Bool} {j : QueuedJob} :
    verdict load caps offer placed j = none ↔
      offerRefusal offer load.total load.exclusiveRunning j.ask = none ∧
      withinGrant j load caps.grantMaxParallel = true ∧
      withinSubmitterCap j load caps.submitterMaxRunning = true ∧
      (j.line = .batch → load.total = 0 ∧ placed = false) := by
  unfold verdict
  cases refused : offerRefusal offer load.total load.exclusiveRunning j.ask with
  | some r => simp
  | none =>
      cases grant : withinGrant j load caps.grantMaxParallel with
      | false => simp
      | true =>
          cases submitter : withinSubmitterCap j load caps.submitterMaxRunning with
          | false => simp
          | true =>
              by_cases batch : j.line = .batch
              · cases placed <;> simp [batch, Nat.pos_iff_ne_zero]
              · simp [batch]

theorem mayStart_iff {j : QueuedJob} : MayStart load caps offer j ↔
    neverFits offer j = none ∧ offerRefusal offer load.total load.exclusiveRunning j.ask = none ∧
      withinGrant j load caps.grantMaxParallel = true ∧
      withinSubmitterCap j load caps.submitterMaxRunning = true := by
  simp only [withinGrant, withinSubmitterCap, Bool.or_eq_true, beq_iff_eq, decide_eq_true_eq]
  constructor
  · rintro ⟨fits, offer, grant, submitter⟩
    exact ⟨fits, offer, grant, by tauto⟩
  · rintro ⟨fits, offer, grant, submitter⟩
    exact ⟨fits, offer, grant, by tauto⟩

/-- Is `j` the oldest of the queued jobs of its submitter and line that can ever
    fit? -/
def Oldest (offer : Offer) (queue : List QueuedJob) (j : QueuedJob) : Prop :=
  ∀ k ∈ queue, k.workspaceId = j.workspaceId → k.sub = j.sub → k.line = j.line →
    neverFits offer k = none → j.fifo k = true

/-- Could `j` be placed, whatever its place in the order? -/
structure Ready (load : Load) (caps : Limits) (offer : Offer) (queue : List QueuedJob)
    (j : QueuedJob) : Prop where
  may : MayStart load caps offer j
  oldest : j.ByArrival → Oldest offer queue j

/-- What a placement of `j` keeps. -/
structure SafePlacement (now : Int) (queue : List QueuedJob) (turns : Turns) (load : Load)
    (caps : Limits) (offer : Offer) (d : Decision) (j : QueuedJob) : Prop where
  queued : j ∈ queue
  may : MayStart load caps offer j
  /-- A CI or Priority job that waits only for room is ordered after `j`. -/
  held : ∀ k ∈ queue, k.line.holds = true → ∀ pos r, d.waiting.lookup k.id = some (pos, r) →
    waitsForRoom r.code = true → ∀ i, (orderWith now queue turns)[i]? = some j → i + 1 < pos
  oldest : j.ByArrival → Oldest offer queue j
  idle : j.line = .batch →
    load.total = 0 ∧ ∀ k ∈ queue, k.line ≠ .batch → ¬ Ready load caps offer queue k

/-- What a decision keeps. -/
structure SafeDecision (now : Int) (queue : List QueuedJob) (turns : Turns) (load : Load)
    (caps : Limits) (offer : Option Offer) (d : Decision) : Prop where
  order : (orderWith now queue turns).Perm queue
  /-- The job at index `i` of the order is placed, or waits at position `i + 1`. -/
  entry : ∀ i j, (orderWith now queue turns)[i]? = some j →
    (d.place = some j.id ∧ d.waiting.lookup j.id = none) ∨
      (d.place ≠ some j.id ∧ ∃ r, d.waiting.lookup j.id = some (i + 1, r))
  known : ∀ id e, d.waiting.lookup id = some e → ∃ j ∈ queue, j.id = id
  placed : ∀ id, d.place = some id → ∃ o j, offer = some o ∧ j.id = id ∧
    SafePlacement now queue turns load caps o d j

section Queue

variable (now : Int) {queue : List QueuedJob} (turns : Turns)

theorem orderWith_distinct (distinct : (queue.map (·.id)).Nodup) :
    ((orderWith now queue turns).map (·.id)).Nodup :=
  ((orderWith_perm now queue turns).map _).nodup_iff.mpr distinct

theorem positioned_distinct (distinct : (queue.map (·.id)).Nodup) :
    ((positioned (orderWith now queue turns)).map (·.1.id)).Nodup := by
  have := orderWith_distinct now turns distinct
  rwa [← positioned_fst (orderWith now queue turns), List.map_map] at this

theorem mem_positioned (distinct : (queue.map (·.id)).Nodup) {i : Nat} {j : QueuedJob}
    (standing : (orderWith now queue turns)[i]? = some j) :
    (j, i + 1) ∈ positioned (orderWith now queue turns) := by
  rw [positioned_eq (orderWith_distinct now turns distinct)]
  exact List.mem_map.mpr ⟨(j, i), List.mem_zipIdx_iff_getElem?.mpr standing, rfl⟩

theorem exists_positioned (distinct : (queue.map (·.id)).Nodup) {j : QueuedJob} (member : j ∈ queue) :
    ∃ i, (orderWith now queue turns)[i]? = some j ∧
      (j, i + 1) ∈ positioned (orderWith now queue turns) := by
  obtain ⟨i, standing⟩ := List.mem_iff_getElem?.mp ((orderWith_perm now queue turns).mem_iff.mpr member)
  exact ⟨i, standing, mem_positioned now turns distinct standing⟩

/-- A Batch job is followed by Batch jobs only. -/
theorem orderWith_batch_last (queue : List QueuedJob) : (orderWith now queue turns).Pairwise fun a b =>
    a.line = .batch → b.line = .batch := by
  rw [orderWith_eq, List.pairwise_append]
  have front : ∀ a ∈ byFifo (ofLine queue .ci) ++ turnsPart now queue turns, a.line ≠ .batch := by
    intro a ha
    rcases List.mem_append.mp ha with ci | turn
    · have := (List.mem_filter.mp ((byFifo_perm _).mem_iff.mp ci)).2
      simp only [decide_eq_true_eq] at this
      simp [this]
    · rcases List.mem_append.mp ((turnsPart_interleaves now queue turns).perm.mem_iff.mp turn) with h | h
      · simp [line_of_mem_lineOrder h]
      · simp [line_of_mem_lineOrder h]
  refine ⟨List.Pairwise.imp_of_mem (fun {a b} ha _ _ batch => absurd batch (front a ha))
    (List.pairwise_of_forall fun _ _ => trivial), ?_, fun a ha b _ batch => absurd batch (front a ha)⟩
  exact List.pairwise_of_forall_mem_list fun a _ b hb _ => line_of_mem_lineOrder hb

/-- Of a list without repeats, what comes after `j` has a later index. -/
private theorem index_lt_of_after {order before after : List QueuedJob} {j k : QueuedJob}
    (distinct : order.Nodup) (split : order = before ++ j :: after) (later : k ∈ after) {i m : Nat}
    (at_j : order[i]? = some j) (at_k : order[m]? = some k) : i < m := by
  obtain ⟨n, at_n⟩ := List.mem_iff_getElem?.mp later
  have here : order[before.length]? = some j := by simp [split]
  have there : order[before.length + 1 + n]? = some k := by
    rw [split, List.getElem?_append_right (by omega),
      show before.length + 1 + n - before.length = n + 1 by omega, List.getElem?_cons_succ, at_n]
  have hi := (List.getElem?_inj (List.getElem?_eq_some_iff.mp at_j).1 distinct).mp
    (at_j.trans here.symm)
  have hm := (List.getElem?_inj (List.getElem?_eq_some_iff.mp at_k).1 distinct).mp
    (at_k.trans there.symm)
  omega

section Placed

variable {before after : List (QueuedJob × Nat)} {j : QueuedJob} {pos : Nat}

/-- A CI or Priority job that waits only for room when `j` is placed was looked
    at after it. -/
theorem PlacedAfter.room (placed : PlacedAfter load caps offer before j)
    (distinct : ((before ++ (j, pos) :: after).map (·.1.id)).Nodup)
    (place : (scan load caps offer (before ++ (j, pos) :: after)).place = some j.id)
    {p : QueuedJob × Nat} (member : p ∈ before ++ (j, pos) :: after) (holds : p.1.line.holds = true)
    {kpos : Nat} {r : Refusal}
    (waits : (scan load caps offer (before ++ (j, pos) :: after)).waiting.lookup p.1.id =
      some (kpos, r)) (room : waitsForRoom r.code = true) : p ∈ after := by
  rcases List.mem_append.mp member with early | rest
  · rw [List.map_append] at distinct
    have untouched : ∀ q ∈ (j, pos) :: after, q.1.id ≠ p.1.id := fun q hq same =>
      List.disjoint_of_nodup_append distinct (List.mem_map_of_mem early)
        (same ▸ List.mem_map_of_mem hq)
    rw [scan, List.foldl_append, foldl_look_lookup _ _ untouched] at waits
    have held := scan_room before (List.Nodup.of_append_left distinct) p early holds kpos r waits room
    rw [placed.free] at held
    cases held
  · rcases List.mem_cons.mp rest with rfl | later
    · rcases (scan_recorded _ _ _ _ distinct).entry _ member with ⟨-, none_waits⟩ | ⟨other, -⟩
      · rw [waits] at none_waits
        cases none_waits
      · exact absurd place other
    · exact later

/-- No job of the turn of `j` that can fit was looked at before it was placed. -/
theorem PlacedAfter.none_older (placed : PlacedAfter load caps offer before j) (arrival : j.ByArrival)
    {p : QueuedJob × Nat} (early : p ∈ before) (same : p.1.turn = j.turn) :
    neverFits offer p.1 ≠ none := by
  intro fits
  have theirs : p.1.ByArrival := by
    have : p.1.line = j.line := congrArg (·.2.2) same
    simpa only [QueuedJob.ByArrival, this] using arrival
  rcases scan_seen before p early fits theirs with seen | held
  · exact placed.first arrival (same ▸ seen)
  · rw [placed.free] at held
    cases held

end Placed

theorem turn_eq_iff {j k : QueuedJob} :
    k.turn = j.turn ↔ k.workspaceId = j.workspaceId ∧ k.sub = j.sub ∧ k.line = j.line := by
  simp [QueuedJob.turn]

theorem orderWith_fifo_split {before after : List QueuedJob} {j k : QueuedJob}
    (split : orderWith now queue turns = before ++ j :: after) (later : k ∈ after)
    (same : k.turn = j.turn) : j.fifo k = true := by
  have sorted := orderWith_fifo now queue turns j.turn
  rw [split, List.filter_append, List.filter_cons_of_pos (by simp), List.pairwise_append,
    List.pairwise_cons] at sorted
  exact sorted.2.1.1 k (List.mem_filter.mpr ⟨later, by simpa using same⟩)

theorem scan_safe (load : Load) (caps : Limits) (offer : Offer)
    (distinct : (queue.map (·.id)).Nodup) {id : String}
    (place : (scan load caps offer (positioned (orderWith now queue turns))).place = some id)
    (d : Decision)
    (waits : d.waiting = (scan load caps offer (positioned (orderWith now queue turns))).waiting) :
    ∃ j, j.id = id ∧ SafePlacement now queue turns load caps offer d j := by
  have ids := positioned_distinct now turns distinct
  have nodup := List.Nodup.of_map _ (orderWith_distinct now turns distinct)
  obtain ⟨before, j, pos, after, split, rfl, placed⟩ := scan_placed _ place
  have order : orderWith now queue turns = before.map (·.1) ++ j :: after.map (·.1) := by
    rw [← positioned_fst (orderWith now queue turns), split]
    simp
  have queued : ∀ k, k ∈ orderWith now queue turns ↔ k ∈ queue := fun k =>
    (orderWith_perm now queue turns).mem_iff
  have oldest : j.ByArrival → Oldest offer queue j := by
    intro arrival k hk ws sub line fits
    have same := turn_eq_iff.mpr ⟨ws, sub, line⟩
    have stands := (queued k).mpr hk
    rw [order, List.mem_append, List.mem_cons] at stands
    rcases stands with early | rfl | later
    · obtain ⟨p, hp, rfl⟩ := List.mem_map.mp early
      exact absurd fits (placed.none_older arrival hp same)
    · exact (fifo_total k k).elim id id
    · exact orderWith_fifo_split now turns order later same
  obtain ⟨offers, grant, submitter, alone⟩ := verdict_eq_none.mp placed.ready
  refine ⟨j, rfl, (queued j).mp (by simp [order]),
    mayStart_iff.mpr ⟨placed.fits, offers, grant, submitter⟩, ?_, oldest, fun batch => ?_⟩
  · intro k hk holds kpos r held room i at_j
    obtain ⟨m, at_k, member⟩ := exists_positioned now turns distinct hk
    rw [waits] at held
    rcases (scan_recorded _ _ _ _ ids).entry _ member with ⟨-, none_held⟩ | ⟨-, r', entry⟩
    · rw [held] at none_held
      cases none_held
    · rw [held] at entry
      cases entry
      rw [split] at ids place member held
      have later := placed.room ids place member holds held room
      have := index_lt_of_after nodup order (List.mem_map_of_mem later) at_j at_k
      omega
  · refine ⟨(alone batch).1, fun k hk other ready => ?_⟩
    -- `k` is of another line, so it was looked at before `j`, and found ready.
    have stands := (queued k).mpr hk
    have last := orderWith_batch_last now turns queue
    rw [order, List.mem_append, List.mem_cons] at stands
    rw [order, List.pairwise_append, List.pairwise_cons] at last
    rcases stands with early | rfl | later
    · obtain ⟨⟨k', kpos⟩, hp, rfl⟩ := List.mem_map.mp early
      obtain ⟨front, back, rfl⟩ := List.append_of_mem hp
      obtain ⟨fits, offers', grant', submitter'⟩ := mayStart_iff.mp ready.may
      rcases scan_unready _ placed.vacant placed.free front k' kpos back rfl fits with no | older
      · exact no (verdict_eq_none.mpr ⟨offers', grant', submitter', fun h => absurd h other⟩)
      · obtain ⟨arrival, p, hp, same, fits'⟩ := older
        obtain ⟨one, two, rfl⟩ := List.append_of_mem hp
        have split' : orderWith now queue turns = one.map (·.1) ++ p.1 ::
            (two.map (·.1) ++ k' :: (back.map (·.1) ++ j :: after.map (·.1))) := by simp [order]
        have older := orderWith_fifo_split now turns split' (by simp) same.symm
        obtain ⟨ws, sub, line⟩ := turn_eq_iff.mp same
        have member : p.1 ∈ queue := (queued _).mp (by simp [split'])
        have same_id := fifo_antisymm older (ready.oldest arrival p.1 member ws sub line fits')
        have apart := orderWith_distinct now turns distinct
        rw [split', List.map_append, List.map_cons, List.nodup_append, List.nodup_cons] at apart
        exact apart.2.1.1 (List.mem_map.mpr ⟨k', by simp, same_id.symm⟩)
    · exact other batch
    · exact other (last.2.1.1 k later batch)

end Queue

/-- Every decision is safe, whatever the queue, the turns, the load, the caps and
    the offer. -/
theorem decideWith_safe (now : Int) {queue : List QueuedJob} (turns : Turns) (load : Load)
    (caps : Limits) (offer : Option Offer) (controllerPause : Option String)
    (distinct : (queue.map (·.id)).Nodup) :
    SafeDecision now queue turns load caps offer
      (decideWith now queue turns load caps offer controllerPause) := by
  have ids := positioned_distinct now turns distinct
  have queued : ∀ id, id ∈ (positioned (orderWith now queue turns)).map (·.1.id) →
      ∃ j ∈ queue, j.id = id := fun id h => by
    obtain ⟨p, hp, rfl⟩ := List.mem_map.mp h
    refine ⟨p.1, (orderWith_perm now queue turns).mem_iff.mp ?_, rfl⟩
    rw [← positioned_fst (orderWith now queue turns)]
    exact List.mem_map_of_mem hp
  have all_wait : ∀ why : Refusal, SafeDecision now queue turns load caps offer
      ⟨none, waitAll (orderWith now queue turns) why⟩ := fun why => by
    refine ⟨orderWith_perm now queue turns, fun i j at_j => ?_, fun id e held => ?_, nofun⟩
    · exact .inr ⟨nofun, why, FinMap.lookup_foldl_insert (fun p : QueuedJob × Nat => p.1.id)
        (fun p => (p.2, why)) .empty ids (mem_positioned now turns distinct at_j)⟩
    · by_contra absent
      have untouched := FinMap.lookup_foldl_insert_of_not_mem (fun p : QueuedJob × Nat => p.1.id)
        (fun p => (p.2, why)) _ .empty fun member => absent (queued id member)
      rw [waitAll, untouched] at held
      cases held
  simp only [decideWith]
  by_cases none_queued : (orderWith now queue turns).isEmpty
  · rw [if_pos none_queued]
    have nothing := List.isEmpty_iff.mp none_queued
    exact ⟨orderWith_perm now queue turns, fun i j at_j => by simp [nothing] at at_j, nofun, nofun⟩
  · rw [if_neg none_queued]
    cases controllerPause with
    | some p => exact all_wait _
    | none =>
        cases offer with
        | none => exact all_wait _
        | some o =>
            have recorded : Recorded _ (scan load caps o (positioned (orderWith now queue turns))) :=
              scan_recorded _ _ _ _ ids
            refine ⟨orderWith_perm now queue turns, fun i j at_j => ?_, fun id e held => ?_,
              fun id place => ?_⟩
            · exact recorded.entry _ (mem_positioned now turns distinct at_j)
            · exact queued id (recorded.waiting id e held)
            · obtain ⟨j, same, safe⟩ := scan_safe now turns load caps o distinct place
                ⟨_, (scan load caps o (positioned (orderWith now queue turns))).waiting⟩ rfl
              exact ⟨o, j, rfl, same, safe⟩

/-- What a free one-slot node offers. -/
def oneSlotOffer : Offer where
  control := .active
  availability := ⟨true, []⟩
  caps := ⟨8000, 16 * 2 ^ 30⟩
  free := ⟨8000, 16 * 2 ^ 30, 500 * 2 ^ 30⟩
  parallelMax := 1
  refusal := none
  tools := FinMap.insert .empty "git" "2"
  protocol := 8

theorem decideWith_safe_two_jobs :
    let a : QueuedJob := ⟨"a", "w", 1, false, none, none, 0, false, .normal, none⟩
    let b : QueuedJob := ⟨"b", "w", 2, true, some 500, none, 0, true, .priority, some "s"⟩
    SafeDecision 5 [a, b] .empty .empty ⟨fun _ => 1, fun _ => 0⟩ (some oneSlotOffer)
      (decideWith 5 [a, b] .empty .empty ⟨fun _ => 1, fun _ => 0⟩ (some oneSlotOffer) none) :=
  decideWith_safe 5 .empty .empty _ _ none (by decide)

end K2.Compute
