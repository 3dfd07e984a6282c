import K2.Compute.Fairness
import K2.NodeQueue.Queue

/-! # The start order

Each pick is a pending job of a known tenant, and there is one as long as any is
pending: the order is a permutation of the queued jobs.
-/

namespace K2.NodeQueue

open Compute

/-! ## Indices -/

theorem entries_indices (input : Input) :
    input.entries.map (·.index) = List.range input.queued.length := by
  rw [Input.entries, List.map_map]
  have := List.zipIdx_map_snd 0 input.queued
  rw [List.range_eq_range', ← this]
  rfl

theorem entries_nodup (input : Input) : (input.entries.map (·.index)).Nodup := by
  rw [entries_indices]
  exact List.nodup_range

theorem Input.mem_queued {input : Input} {e : Entry} (member : e ∈ input.entries) : e.job ∈ input.queued := by
  obtain ⟨⟨q, i⟩, hq, rfl⟩ := List.mem_map.mp member
  exact List.mem_of_getElem? (List.mem_zipIdx_iff_getElem?.mp hq)

/-! ## A tenant's head -/

theorem mem_of_byArrival {list : List Entry} {e : Entry} (first : byArrival list = some e) : e ∈ list := by
  have keeps (rest : List Entry) (start : Entry) : (rest.foldl (fun best k =>
      if k.job.arrivalKey < best.job.arrivalKey then k else best) start) ∈ start :: rest := by
    induction rest generalizing start with
    | nil => simp
    | cons k rest ih =>
        rw [List.foldl_cons]
        have := ih (if k.job.arrivalKey < start.job.arrivalKey then k else start)
        grind
  cases list with
  | nil => cases first
  | cons k rest =>
      rw [byArrival, Option.some.injEq] at first
      exact first ▸ keeps rest k

theorem byArrival_isSome {list : List Entry} (nonempty : list ≠ []) : (byArrival list).isSome := by
  cases list with
  | nil => exact absurd rfl nonempty
  | cons => rfl

/-- The turn of the node queue is the first of the placement queue's rotation. -/
theorem rotateAfter_eq (keys : List String) (last : Option String) :
    rotateAfter keys last = (rotated keys last).head? := by
  unfold rotateAfter rotated
  generalize keys.dedup.insertionSort (· ≤ ·) = ks
  cases last with
  | none => rfl
  | some l =>
      simp only
      cases found : ks.findIdx? (fun k => decide (l < k)) with
      | none =>
          have : ks.find? (fun k => decide (l < k)) = none := by
            rw [List.find?_eq_none]
            intro k hk above
            rw [List.findIdx?_eq_none_iff.mp found k hk] at above
            cases above
          rw [this, Option.none_or, Option.getD_none, List.rotate_zero]
      | some i =>
          obtain ⟨first, above, earlier⟩ := List.findIdx?_eq_some_iff_getElem.mp found
          have : ks.find? (fun k => decide (l < k)) = some ks[i] :=
            List.find?_eq_some_iff_getElem.mpr ⟨above, i, first, rfl, fun j hj => by
              simpa only [Bool.not_eq_true', Bool.not_eq_true] using earlier j hj⟩
          rw [this, Option.some_or, Option.getD_some, List.head?_rotate first,
            List.getElem?_eq_getElem first]

theorem rotateAfter_next {keys : List String} {last : Option String} {x : String} :
    rotateAfter keys last = some x ↔ RoundRobin.IsNext (· ∈ keys) last x := by
  rw [rotateAfter_eq]
  exact ⟨rotated_head, head_rotated⟩

theorem rotateAfter_isSome (keys : List String) (last : Option String) (nonempty : keys ≠ []) :
    (rotateAfter keys last).isSome := by
  rw [rotateAfter_eq, List.isSome_head?]
  obtain ⟨k, hk⟩ := List.exists_mem_of_ne_nil _ nonempty
  exact List.ne_nil_of_mem (mem_rotated.mpr hk)

section Head

variable {input : Input} {list : List Entry} {t : Tenant} {rot : Rotation} {line : Line}

theorem mem_of_tenantHead {e : Entry} (head : tenantHead input list t rot line = some e) :
    e ∈ list ∧ lineOf e.job t = line := by
  have inLine (h : e ∈ list.filter fun e => lineOf e.job t = line) : e ∈ list ∧ lineOf e.job t = line := by
    simpa using h
  simp only [tenantHead] at head
  split at head
  · exact inLine (mem_of_byArrival head)
  · split at head
    · exact inLine (List.mem_of_mem_filter (mem_of_byArrival head))
    · simp only [Option.bind_eq_bind, Option.bind_eq_some_iff] at head
      obtain ⟨ws, -, s, -, first⟩ := head
      exact inLine (List.mem_of_mem_filter (List.mem_of_mem_filter (mem_of_byArrival first)))

variable (input rot) in
theorem tenantHead_isSome {e : Entry} (member : e ∈ list) (inLine : lineOf e.job t = line) :
    (tenantHead input list t rot line).isSome := by
  have mine : e ∈ list.filter fun e => lineOf e.job t = line := by simpa using ⟨member, inLine⟩
  simp only [tenantHead]
  generalize list.filter (fun e => lineOf e.job t = line) = jobs at mine
  split
  · exact byArrival_isSome (List.ne_nil_of_mem mine)
  · split
    · rename_i old
      exact byArrival_isSome (by simpa [List.isEmpty_iff] using old)
    · obtain ⟨ws, ws_eq⟩ := Option.isSome_iff_exists.mp (rotateAfter_isSome
        (jobs.map (·.job.workspaceId)) (rot.lastWs.lookup t.slot)
        (List.ne_nil_of_mem (List.mem_map_of_mem mine)))
      obtain ⟨k, hk, here⟩ := List.mem_map.mp (rotateAfter_next.mp ws_eq).mem
      have inWs : k ∈ jobs.filter fun e => e.job.workspaceId = ws := by simpa using ⟨hk, here⟩
      obtain ⟨s, s_eq⟩ := Option.isSome_iff_exists.mp (rotateAfter_isSome
        ((jobs.filter fun e => e.job.workspaceId = ws).map (·.job.turnKey))
        (rot.lastSubmitter.lookup (t.slot, ws)) (List.ne_nil_of_mem (List.mem_map_of_mem inWs)))
      obtain ⟨m, hm, turn⟩ := List.mem_map.mp (rotateAfter_next.mp s_eq).mem
      rw [ws_eq, Option.bind_eq_bind, Option.bind_some, s_eq, Option.bind_some]
      refine byArrival_isSome (List.ne_nil_of_mem (a := m) ?_)
      exact List.mem_filter.mpr ⟨hm, by simpa using turn⟩

/-- Jobs of one tenant and line that haven't aged take turns by submitter inside
    the workspace that goes next. -/
theorem tenantHead_turn {e : Entry} (head : tenantHead input list t rot line = some e)
    (turns : line ≠ .ci) (fresh : ∀ k ∈ list, isAged k.job input.now input.cfg = false) :
    RoundRobin.IsNext (fun s => ∃ k ∈ list, lineOf k.job t = line ∧
        k.job.workspaceId = e.job.workspaceId ∧ k.job.turnKey = s)
      (rot.lastSubmitter.lookup (t.slot, e.job.workspaceId)) e.job.turnKey := by
  simp only [tenantHead, if_neg turns] at head
  have none_old : ((list.filter fun e => lineOf e.job t = line).filter fun e =>
      isAged e.job input.now input.cfg) = [] :=
    List.filter_eq_nil_iff.mpr fun k hk => by simp [fresh k (List.mem_of_mem_filter hk)]
  rw [none_old] at head
  simp only [List.isEmpty_nil, Bool.not_true, Bool.false_eq_true, if_false, Option.bind_eq_bind,
    Option.bind_eq_some_iff] at head
  obtain ⟨ws, -, s, next, first⟩ := head
  have member := mem_of_byArrival first
  simp only [List.mem_filter, decide_eq_true_eq] at member
  obtain ⟨⟨-, rfl⟩, rfl⟩ := member
  obtain ⟨mem, le⟩ := rotateAfter_next.mp next
  have keys (k : String) : k ∈ ((list.filter fun k => lineOf k.job t = line).filter fun k =>
      k.job.workspaceId = e.job.workspaceId).map (·.job.turnKey) ↔ ∃ m ∈ list, lineOf m.job t = line ∧
        m.job.workspaceId = e.job.workspaceId ∧ m.job.turnKey = k := by
    simp only [List.mem_map, List.mem_filter, decide_eq_true_eq, and_assoc]
  exact ⟨(keys _).mp mem, fun k hk => le k ((keys k).mpr hk)⟩

end Head

/-! ## The pick -/

theorem mem_of_best {b : Build} {input : Input} {candidates : List Candidate} {c : Candidate}
    (best : b.best input candidates = some c) : c ∈ candidates := by
  have keeps (rest : List Candidate) (start : Option Candidate) :
      ∀ c, rest.foldl (b.better input) start = some c → c ∈ rest ∨ start = some c := by
    induction rest generalizing start with
    | nil => exact fun c same => .inr same
    | cons k rest ih =>
        intro c same
        rw [List.foldl_cons] at same
        rcases ih _ c same with later | now
        · exact .inl (List.mem_cons_of_mem _ later)
        · cases start with
          | none =>
              obtain rfl := Option.some_inj.mp now
              exact .inl List.mem_cons_self
          | some d =>
              simp only [Build.better] at now
              split at now
              · obtain rfl := Option.some_inj.mp now
                exact .inl List.mem_cons_self
              · exact .inr now
  simpa using keeps candidates none c best

theorem best_isSome (b : Build) (input : Input) {candidates : List Candidate}
    (nonempty : candidates ≠ []) : (b.best input candidates).isSome := by
  have keeps (rest : List Candidate) (d : Candidate) :
      (rest.foldl (b.better input) (some d)).isSome := by
    induction rest generalizing d with
    | nil => rfl
    | cons k rest ih =>
        simp only [List.foldl_cons, Build.better]
        split
        · exact ih k
        · exact ih d
  cases candidates with
  | nil => exact absurd rfl nonempty
  | cons c rest => exact keeps rest c

theorem nextLine_has {has : Line → Bool} {last : Option Line} {l : Line}
    (next : nextLine has last = some l) : has l = true := by
  unfold nextLine at next
  split at next
  · cases next
    assumption
  · exact List.find?_some next

theorem nextLine_isSome {has : Line → Bool} (last : Option Line) {l : Line} (some_job : has l = true) :
    (nextLine has last).isSome := by
  unfold nextLine
  split
  · rfl
  · rename_i no_ci
    refine List.find?_isSome.mpr ⟨l, ?_, some_job⟩
    unfold alternateAfter
    cases l <;> split <;> simp_all

section Pick

variable {input : Input} {b : Build}

theorem mem_slots {slot : Slot} : slot ∈ b.slots ↔ ∃ e ∈ b.pending, e.job.slot = slot := by
  rw [Build.slots, (List.perm_insertionSort _ _).mem_iff, List.mem_dedup, List.mem_map]

theorem mem_heads {line : Line} {c : Candidate} : c ∈ b.heads input line ↔
    ∃ slot ∈ b.slots, tenantOf input.tenants slot = some c.tenant ∧
      tenantHead input (b.ofSlot slot) c.tenant b.rot line = some c.head := by
  simp only [Build.heads, List.mem_filterMap, Option.bind_eq_bind, Option.bind_eq_some_iff,
    Option.pure_def, Option.some.injEq]
  constructor
  · rintro ⟨slot, member, t, found, head, first, rfl⟩
    exact ⟨slot, member, found, first⟩
  · rintro ⟨slot, member, found, first⟩
    exact ⟨slot, member, c.tenant, found, c.head, first, rfl⟩

/-- What a pick is: the head of a known tenant in the line that goes next. -/
theorem pick_spec {e : Entry} {line : Line} (pick : b.pick input = some (e, line)) :
    e ∈ b.pending ∧ nextLine (b.lineHas input.tenants) b.rot.lastLine = some line ∧
      ∃ t, tenantOf input.tenants e.job.slot = some t ∧ lineOf e.job t = line ∧
        tenantHead input (b.ofSlot e.job.slot) t b.rot line = some e := by
  simp only [Build.pick, Option.bind_eq_bind, Option.bind_eq_some_iff] at pick
  obtain ⟨line', next, c, best, same⟩ := pick
  cases same
  obtain ⟨slot, -, found, head⟩ := mem_heads.mp (mem_of_best best)
  obtain ⟨member, inLine⟩ := mem_of_tenantHead head
  obtain ⟨pending, rfl⟩ : c.head ∈ b.pending ∧ c.head.job.slot = slot := by
    simpa [Build.ofSlot] using member
  exact ⟨pending, next, c.tenant, found, inLine, head⟩

theorem pick_isSome (nonempty : b.pending ≠ [])
    (known : ∀ e ∈ b.pending, (tenantOf input.tenants e.job.slot).isSome) : (b.pick input).isSome := by
  have has {l : Line} : b.lineHas input.tenants l = true ↔
      ∃ e ∈ b.pending, ∃ t, tenantOf input.tenants e.job.slot = some t ∧ lineOf e.job t = l := by
    simp [Build.lineHas, Option.any_eq_true]
  obtain ⟨e, member⟩ := List.exists_mem_of_ne_nil _ nonempty
  obtain ⟨t, found⟩ := Option.isSome_iff_exists.mp (known e member)
  obtain ⟨line, next⟩ := Option.isSome_iff_exists.mp
    (nextLine_isSome b.rot.lastLine (has.mpr ⟨e, member, t, found, rfl⟩))
  obtain ⟨k, pending, u, found', inLine⟩ := has.mp (nextLine_has next)
  obtain ⟨head, first⟩ := Option.isSome_iff_exists.mp 
    (tenantHead_isSome input b.rot (show k ∈ b.ofSlot k.job.slot by simpa [Build.ofSlot] using pending)
      inLine)
  have candidate : ⟨u, head⟩ ∈ b.heads input line :=
    mem_heads.mpr ⟨_, mem_slots.mpr ⟨k, pending, rfl⟩, found', first⟩
  obtain ⟨c, best⟩ := Option.isSome_iff_exists.mp
    (best_isSome b input (List.ne_nil_of_mem candidate))
  simp [Build.pick, next, best]

end Pick

/-! ## The order -/

theorem serve_pending (input : Input) (line : Line) {b : Build} {e : Entry}
    (distinct : (b.pending.map (·.index)).Nodup) (member : e ∈ b.pending) :
    (b.serve input e line).pending = b.pending.erase e := by
  rw [List.Nodup.erase_eq_filter (List.Nodup.of_map _ distinct)]
  refine List.filter_congr fun k hk => ?_
  by_cases same : k = e
  · simp [same]
  · have : k.index ≠ e.index := fun h => same (List.inj_on_of_nodup_map distinct hk member h)
    simp [this, same]

theorem drain_perm (input : Input) (n : Nat) (b : Build) (enough : b.pending.length = n)
    (distinct : (b.pending.map (·.index)).Nodup)
    (known : ∀ e ∈ b.pending, (tenantOf input.tenants e.job.slot).isSome) :
    (Build.drain input n b).Perm b.pending := by
  induction n generalizing b with
  | zero =>
      rw [List.eq_nil_of_length_eq_zero enough]
      exact .nil
  | succ n ih =>
      have nonempty : b.pending ≠ [] := by
        intro empty
        simp [empty] at enough
      obtain ⟨⟨e, line⟩, pick⟩ := Option.isSome_iff_exists.mp (pick_isSome nonempty known)
      have member := (pick_spec pick).1
      have removed := serve_pending input line distinct member
      have later := ih (b.serve input e line) (by rw [removed, List.length_erase_of_mem member]; omega)
        (by rw [removed]; exact distinct.sublist (List.erase_sublist.map _))
        (by rw [removed]; exact fun k hk => known k (List.mem_of_mem_erase hk))
      rw [Build.drain, pick]
      rw [removed] at later
      exact (later.cons e).trans (List.perm_cons_erase member).symm

theorem order_perm (input : Input) : (order input).Perm input.entries := by
  have pending := drain_perm input _ input.build rfl
    ((entries_nodup input).sublist (List.filter_sublist.map _))
    fun e he => by
      have := (List.mem_filter.mp he).2
      simp only [Input.present, Bool.and_eq_true] at this
      exact this.2
  exact (pending.append (List.perm_insertionSort _ _)).trans (List.filter_append_perm _ _)

theorem order_nodup (input : Input) : ((order input).map (·.index)).Nodup :=
  ((order_perm input).map _).nodup_iff.mpr (entries_nodup input)

end K2.NodeQueue
