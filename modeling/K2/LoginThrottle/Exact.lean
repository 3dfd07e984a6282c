import K2.LoginThrottle.Eviction
import Mathlib.Data.List.Dedup

/-! # The limiter counts exactly

As long as a table need not evict, each queue shows the newest `limit + 1` of its
key's hits in the window, whatever was pruned, swept or cut off, and that is all
an answer depends on. -/

namespace K2.LoginThrottle

/-- Each key always comes with its own limit. -/
def Consistent (limitOf : String → Nat) (calls : List Call) : Prop :=
  ∀ call ∈ calls, call.limit = limitOf call.bucket

/-- The keys of a door with a hit in the window that ends at a time. -/
def keysHit (calls : List Call) (door : Door) (now : Int) : List String :=
  ((calls.filter fun call =>
    call.records ∧ table call.bucket = door ∧ call.now ≤ now ∧ now - call.now < 300).map Call.bucket).dedup

/-- No door sees hits of more than `CAPACITY` keys within a window. -/
def Roomy (calls : List Call) : Prop := ∀ door now, (keysHit calls door now).length ≤ CAPACITY

/-- A key's attempts in the 300 s before a time. -/
def inWindow (calls : List Call) (key : String) (now : Int) : Nat :=
  ((hitsOf calls key).filter fun t => now - t < 300).length

def answer (before : List Call) (call : Call) : Answer := (step (run before) call).2

/-- An attempt is limited by the attempts before it in the window, and so is a
    question with a limit of at least one. -/
def Exact (before : List Call) (call : Call) : Prop :=
  match call.operation with
  | .checkAndRecordWithLimit => answer before call =
      .verdict (if call.limit ≤ inWindow before call.bucket call.now then .Limited else .Allow)
  | .isLimited => call.limit ≠ 0 →
      answer before call = .limited (call.limit ≤ inWindow before call.bucket call.now)
  | .recordWithLimit => answer before call = .done

theorem inside_eq (now : Int) (hits : List Int) : window.inside now hits = hits.filter fun t => now - t < 300 := by
  refine List.filter_congr fun t _ => ?_
  exact Bool.eq_iff_iff.mpr (by rw [live_iff, decide_eq_true_iff])

/-! ## Queues -/

namespace Table

/-- A key's hits, none if it is not in the table. -/
def queue (t : Table) (key : String) : List Int := (t.hits key).getD []

theorem queue_prune_key (t : Table) (key other : String) (now : Int) :
    (t.pruneKey key now).queue other = if key = other then pruneQueue (t.queue key) now else t.queue other := by
  by_cases same : key = other
  · subst same
    rw [if_pos rfl, queue, queue]
    cases found : t.hits key with
    | none =>
      rw [prune_key_of_none found, found]
      rfl
    | some q =>
      by_cases empty : pruneQueue q now = []
      · rw [prune_key_of_some found, if_pos empty, hits, FinMap.lookup_erase, if_pos rfl]
        exact empty.symm
      · rw [hits_prune_key found empty]
        rfl
  · rw [if_neg same, queue, hits_prune_key_other t same]
    rfl

theorem queue_sweep_expired (t : Table) (key : String) (now : Int) :
    (t.sweepExpired now).queue key = pruneQueue (t.queue key) now := by
  unfold queue
  cases found : t.hits key with
  | none =>
    have absent : (t.sweepExpired now).hits key = none := by
      refine hits_eq_none.mpr fun row mem same => ?_
      obtain ⟨_, q, before, _⟩ := mem_sweep_expired.mp mem
      exact hits_eq_none.mp found _ before same
    rw [absent]
    rfl
  | some q =>
    by_cases empty : pruneQueue q now = []
    · have absent : (t.sweepExpired now).hits key = none := by
        refine hits_eq_none.mpr fun row mem same => ?_
        obtain ⟨filled, q', before, pruned⟩ := mem_sweep_expired.mp mem
        have known := hits_eq_some.mpr before
        rw [same, found] at known
        cases known
        exact filled (pruned.trans empty)
      rw [absent]
      exact empty.symm
    · rw [stays_sweep_expired found empty]
      rfl

theorem queue_insert (t : Table) (key other : String) (q : List Int) :
    queue (t.insert key q) other = if key = other then q else t.queue other := by
  rw [queue, hits, FinMap.lookup_insert]
  split
  · rfl
  · rfl

theorem is_limited_snd (t : Table) (key : String) (limit : Nat) (now : Int) :
    (t.isLimited key limit now).2 = ((t.pruneKey key now).hits key).any fun q => limit ≤ q.length := rfl

theorem queue_make_room {t : Table} {key : String} {now : Int}
    (room : t.hits key = none → (t.sweepExpired now).rows.length < CAPACITY) (order : HashOrder) (other : String) :
    (makeRoom order t key now).queue other = t.queue other ∨
      (makeRoom order t key now).queue other = pruneQueue (t.queue other) now := by
  unfold makeRoom
  by_cases full : t.hits key = none ∧ CAPACITY ≤ t.rows.length
  · rw [if_pos full, if_neg (Nat.not_le.mpr (room full.1))]
    exact .inr (queue_sweep_expired ..)
  · rw [if_neg full]
    exact .inl rfl

end Table

/-! ## What every queue shows -/

/-- From `now` on every queue shows the newest hits of its key. -/
def Faithful (limitOf : String → Nat) (now : Int) (calls : List Call) : Prop :=
  ∀ key, window.Tracks (limitOf key + 1) now (hitsOf calls key) (((run calls).tableOf (table key)).queue key)

theorem room {before : List Call} {call : Call} (inOrder : InOrder (before ++ [call]))
    (roomy : Roomy (before ++ [call])) (records : call.records = true)
    (absent : (((run before).tableOf (table call.bucket)).pruneKey call.bucket call.now).hits call.bucket = none) :
    ((((run before).tableOf (table call.bucket)).pruneKey call.bucket call.now).sweepExpired call.now).rows.length <
      CAPACITY := by
  have sound := sound_run before (table call.bucket)
  have bound := roomy (table call.bucket) call.now
  have hit : ∀ earlier ∈ before ++ [call], earlier.records = true → table earlier.bucket = table call.bucket →
      call.now - earlier.now < 300 → earlier.bucket ∈ keysHit (before ++ [call]) (table call.bucket) call.now := by
    intro earlier mem records own live
    have past : earlier.now ≤ call.now := by
      rcases List.mem_append.mp mem with earlier_mem | last
      · exact inOrder.past earlier earlier_mem
      · rw [List.mem_singleton.mp last]
    refine List.mem_dedup.mpr (List.mem_map_of_mem (List.mem_filter.mpr ⟨mem, ?_⟩))
    simp [records, own, past, live]
  have self : call.bucket ∈ keysHit (before ++ [call]) (table call.bucket) call.now :=
    hit call (by simp) records rfl (by omega)
  have others : ∀ row ∈ ((((run before).tableOf (table call.bucket)).pruneKey call.bucket
      call.now).sweepExpired call.now).rows,
      row.1 ∈ (keysHit (before ++ [call]) (table call.bucket) call.now).erase call.bucket := by
    intro row mem
    have shrunk := Table.shrunk_sweep_expired
      (((run before).tableOf (table call.bucket)).pruneKey call.bucket call.now) call.now
    obtain ⟨_, q, pruned, _⟩ := shrunk row mem
    obtain ⟨old, active, same⟩ := List.mem_map.mp (swept_active mem)
    obtain ⟨old_mem, active⟩ := List.mem_filter.mp active
    obtain ⟨t, listed, live⟩ := of_decide_eq_true active
    obtain ⟨earlier, earlier_mem, records, bucket, rfl⟩ := mem_hitsOf.mp listed
    refine (List.mem_erase_of_ne fun clash => Table.hits_eq_none.mp absent _ pruned clash).mpr ?_
    rw [← same, ← bucket]
    refine hit earlier (List.mem_append_left _ earlier_mem) records ?_ live
    rw [bucket]
    exact sound.own old old_mem
  have fewer := Table.length_le_of_keys others
  rw [List.length_erase_of_mem self] at fewer
  have some_key := List.length_pos_of_mem self
  omega

section
variable {limitOf : String → Nat} {before : List Call} {call : Call}

/-- The queue that a hit is pushed to is the one before it, pruned. -/
theorem queue_readied (inOrder : InOrder (before ++ [call])) (roomy : Roomy (before ++ [call]))
    (records : call.records = true) :
    (((run before).tableOf (table call.bucket)).readied call.order call.bucket call.now).queue call.bucket =
      pruneQueue (((run before).tableOf (table call.bucket)).queue call.bucket) call.now := by
  have pruned := Table.queue_prune_key ((run before).tableOf (table call.bucket)) call.bucket call.bucket call.now
  rw [if_pos rfl] at pruned
  rcases Table.queue_make_room (room inOrder roomy records) call.order call.bucket with same | again
  · exact same.trans pruned
  · exact again.trans (by rw [pruned, Table.prune_queue_prune_queue])

theorem tracks_readied (inOrder : InOrder (before ++ [call])) (roomy : Roomy (before ++ [call]))
    (records : call.records = true) (faithful : Faithful limitOf call.now before) {key : String}
    (own : table key = table call.bucket) :
    window.Tracks (limitOf key + 1) call.now (hitsOf before key)
      ((((run before).tableOf (table call.bucket)).readied call.order call.bucket call.now).queue key) := by
  have tracks := faithful key
  rw [own] at tracks
  have pruned : window.Tracks (limitOf key + 1) call.now (hitsOf before key)
      ((((run before).tableOf (table call.bucket)).pruneKey call.bucket call.now).queue key) := by
    rw [Table.queue_prune_key]
    split
    · rename_i same
      subst same
      rw [prune_queue_eq]
      exact tracks.prune le_rfl
    · exact tracks
  rcases Table.queue_make_room (room inOrder roomy records) call.order key with same | again
  · rwa [Table.readied, same]
  · rw [Table.readied, again, prune_queue_eq]
    exact pruned.prune le_rfl

theorem past_queue (inOrder : InOrder (before ++ [call])) (door : Door) (t : Table)
    (h : ((run before).tableOf door).Shrunk t) (key : String) : ∀ hit ∈ t.queue key, hit ≤ call.now := by
  have sound := (sound_run before door).shrunk h
  intro hit mem
  rw [Table.queue] at mem
  cases found : t.hits key with
  | none =>
    rw [found] at mem
    cases mem
  | some q =>
    rw [found] at mem
    exact inOrder.past_hits key hit ((sound.newest _ (Table.hits_eq_some.mp found)).subset mem)

theorem faithful_step (inOrder : InOrder (before ++ [call])) (roomy : Roomy (before ++ [call]))
    (limit : call.limit = limitOf call.bucket) (faithful : Faithful limitOf call.now before) :
    Faithful limitOf call.now (before ++ [call]) := by
  intro key
  rw [run_append, tableOf_step]
  by_cases own : table key = table call.bucket
  · rw [if_pos own, left]
    cases records : call.records with
    | false =>
      rw [if_neg (by decide), hitsOf_asked before records, Table.queue_prune_key]
      split
      · rename_i same
        rw [← same, prune_queue_eq]
        exact (faithful _).prune le_rfl
      · rw [← own]
        exact faithful key
    | true =>
      have ready := tracks_readied inOrder roomy records faithful own
      rw [if_pos rfl, hitsOf_recorded before records, Table.check_and_record_eq, Table.queue_insert]
      by_cases same : call.bucket = key
      · subst same
        have shrunk := Table.shrunk_readied (sound_run before (table call.bucket)).filled call.order call.bucket call.now
        rw [if_pos rfl, Function.update_self, Table.pushed, limit]
        exact ready.record le_rfl (past_queue inOrder _ _ shrunk call.bucket)
      · rw [if_neg same, Function.update_of_ne (Ne.symm same)]
        exact ready
  · have other : call.bucket ≠ key := fun same => own (congrArg table same.symm)
    have hits : hitsOf (before ++ [call]) key = hitsOf before key := by
      cases records : call.records with
      | false => rw [hitsOf_asked before records]
      | true => rw [hitsOf_recorded before records, Function.update_of_ne (Ne.symm other)]
    rw [if_neg own, hits]
    exact faithful key

end

theorem Roomy.before {before after : List Call} (roomy : Roomy (before ++ after)) : Roomy before := by
  intro door now
  refine le_trans (List.subperm_of_subset (List.nodup_dedup _) fun key mem => ?_).length_le (roomy door now)
  rw [keysHit, List.filter_append, List.map_append]
  exact List.mem_dedup.mpr (List.mem_append_left _ (List.mem_dedup.mp mem))

theorem Consistent.before {limitOf : String → Nat} {before after : List Call}
    (consistent : Consistent limitOf (before ++ after)) : Consistent limitOf before :=
  fun call mem => consistent call (List.mem_append_left _ mem)

theorem faithful_run {limitOf : String → Nat} {calls : List Call} (inOrder : InOrder calls)
    (consistent : Consistent limitOf calls) (roomy : Roomy calls) {now : Int} (past : ∀ call ∈ calls, call.now ≤ now) :
    Faithful limitOf now calls := by
  induction calls using List.reverseRecOn generalizing now with
  | nil =>
    intro key
    cases table key <;> exact SlidingWindow.tracks_nil
  | append_singleton before call ih =>
    have until_call := ih inOrder.before consistent.before roomy.before inOrder.past
    have limit := consistent call (by simp)
    exact fun key => (faithful_step inOrder roomy limit until_call key).later (past call (by simp))

/-! ## Answers -/

section
variable {limitOf : String → Nat} {before : List Call} {call : Call}

/-- A pruned queue counts the attempts in the window up to one over the limit. -/
theorem length_pruned (limit : call.limit = limitOf call.bucket)
    (faithful : Faithful limitOf call.now before) :
    (pruneQueue (((run before).tableOf (table call.bucket)).queue call.bucket) call.now).length =
      min (call.limit + 1) (inWindow before call.bucket call.now) := by
  have tracks := faithful call.bucket
  have fresh := SlidingWindow.inside_prune window tracks.sorted call.now
  rw [prune_queue_eq, (tracks.prune le_rfl).length fresh, inside_eq, ← limit]
  rfl

theorem verdict_exact (inOrder : InOrder (before ++ [call])) (roomy : Roomy (before ++ [call]))
    (records : call.records = true) (limit : call.limit = limitOf call.bucket)
    (faithful : Faithful limitOf call.now before) :
    (((run before).tableOf (table call.bucket)).checkAndRecord call.order call.bucket call.limit call.now).2 =
      if call.limit ≤ inWindow before call.bucket call.now then .Limited else .Allow := by
  have counted := length_pruned limit faithful
  have pushed : ((((run before).tableOf (table call.bucket)).readied call.order call.bucket call.now).pushed
      call.bucket call.limit call.now).length = min (call.limit + 1) (inWindow before call.bucket call.now + 1) := by
    have queue := queue_readied inOrder roomy records
    rw [Table.queue] at queue
    rw [Table.pushed, queue, SlidingWindow.length_rtake, List.length_append, List.length_singleton, counted]
    omega
  rw [Table.check_and_record_eq, pushed]
  refine if_congr ?_ rfl rfl
  omega

theorem limited_exact (limit : call.limit = limitOf call.bucket) (positive : call.limit ≠ 0)
    (faithful : Faithful limitOf call.now before) :
    (((run before).tableOf (table call.bucket)).isLimited call.bucket call.limit call.now).2 =
      decide (call.limit ≤ inWindow before call.bucket call.now) := by
  have counted := length_pruned limit faithful
  have pruned := Table.queue_prune_key ((run before).tableOf (table call.bucket)) call.bucket call.bucket call.now
  rw [if_pos rfl, Table.queue] at pruned
  rw [← pruned] at counted
  rw [Table.is_limited_snd]
  cases found : (((run before).tableOf (table call.bucket)).pruneKey call.bucket call.now).hits call.bucket with
  | none =>
    rw [found, Option.getD_none, List.length_nil] at counted
    exact (decide_eq_false (show ¬call.limit ≤ _ by omega)).symm
  | some q =>
    rw [found, Option.getD_some] at counted
    rw [Option.any_some, counted]
    exact decide_eq_decide.mpr (by omega)

theorem exact_answer (inOrder : InOrder (before ++ [call])) (consistent : Consistent limitOf (before ++ [call]))
    (roomy : Roomy (before ++ [call])) : Exact before call := by
  have faithful := faithful_run inOrder.before consistent.before roomy.before inOrder.past
  have limit : call.limit = limitOf call.bucket := consistent call (by simp)
  unfold Exact answer step
  cases operation : call.operation with
  | checkAndRecordWithLimit =>
    have records : call.records = true := by rw [Call.records, operation]; rfl
    exact congrArg Answer.verdict (verdict_exact inOrder roomy records limit faithful)
  | isLimited => exact fun positive => congrArg Answer.limited (limited_exact limit positive faithful)
  | recordWithLimit => rfl

end

/-! ## The whole limiter -/

/-- No more than `CAPACITY` keys, and under each no more hits than one over the
    limit it was last recorded with. -/
def Bounded (calls : List Call) (door : Door) : Prop :=
  (rowsAt calls door).length ≤ CAPACITY ∧
    ∀ row ∈ rowsAt calls door, ∃ limit ∈ lastLimit calls row.1, row.2.length ≤ limit + 1

/-- In every run the tables stay bounded. At nondecreasing times answers are exact while the
    doors see no more than `CAPACITY` keys in a window, and only keys that gave way are
    dropped early. -/
theorem sliding_window (calls : List Call) :
    (∀ before after, calls = before ++ after → ∀ door, Bounded before door) ∧
    (InOrder calls →
      (∀ limitOf, Consistent limitOf calls → Roomy calls →
        ∀ before call after, calls = before ++ call :: after → Exact before call) ∧
      ∀ before call after, calls = before ++ call :: after → ∀ key, Held before key → ¬Held (before ++ [call]) key →
        Active before call.now key → GaveWay before call.now key) := by
  have split : ∀ before (call : Call) after, before ++ call :: after = (before ++ [call]) ++ after :=
    fun before call after => by rw [List.append_assoc]; rfl
  refine ⟨fun before after _ door => ?_, fun inOrder => ⟨fun limitOf consistent roomy before call after whole => ?_,
    fun before call after whole key held dropped active => ?_⟩⟩
  · have sound := sound_run before door
    exact ⟨sound.size, sound.short⟩
  · rw [whole, split] at inOrder consistent roomy
    exact exact_answer inOrder.before consistent.before roomy.before
  · rw [whole, split] at inOrder
    exact gaveWay inOrder.before held dropped active

theorem roomy_of_length {calls : List Call} (few : calls.length ≤ CAPACITY) : Roomy calls := by
  intro door now
  unfold keysHit
  refine (List.dedup_sublist _).length_le.trans ?_
  rw [List.length_map]
  exact (List.length_filter_le ..).trans few

/-- Two attempts under a limit of one, ten seconds apart: the second is limited. -/
theorem second_attempt_limited :
    answer [⟨.checkAndRecordWithLimit, "10.0.0.7", 1, 1000, .insertion⟩]
      ⟨.checkAndRecordWithLimit, "10.0.0.7", 1, 1010, .insertion⟩ = .verdict .Limited := by
  have inOrder : InOrder [⟨.checkAndRecordWithLimit, "10.0.0.7", 1, 1000, .insertion⟩,
      ⟨.checkAndRecordWithLimit, "10.0.0.7", 1, 1010, .insertion⟩] := by
    unfold InOrder
    decide
  have same_limit : Consistent (fun _ => 1) [⟨.checkAndRecordWithLimit, "10.0.0.7", 1, 1000, .insertion⟩,
      ⟨.checkAndRecordWithLimit, "10.0.0.7", 1, 1010, .insertion⟩] :=
    List.forall_mem_cons.mpr ⟨rfl, List.forall_mem_singleton.mpr rfl⟩
  have second := ((sliding_window _).2 inOrder).1 _ same_limit (roomy_of_length (by decide))
    [⟨.checkAndRecordWithLimit, "10.0.0.7", 1, 1000, .insertion⟩]
    ⟨.checkAndRecordWithLimit, "10.0.0.7", 1, 1010, .insertion⟩ [] rfl
  exact second.trans (by decide)

/-- An attempt with an empty key counts the attempts of `-`, and a limit of zero
    does not limit a key without hits. -/
theorem empty_key_counts_as_dash :
    (¬∀ (limitOf : String → Nat) (calls : List Call), InOrder calls → (∀ call ∈ calls, call.limit = limitOf call.key) →
      calls.length ≤ CAPACITY → ∀ before call after, calls = before ++ call :: after →
        call.operation = .checkAndRecordWithLimit →
          (answer before call = .verdict .Limited ↔ call.limit ≤ (before.filter fun earlier =>
            earlier.records ∧ earlier.key = call.key ∧ call.now - earlier.now < 300).length)) ∧
    answer [] ⟨.isLimited, "10.0.0.7", 0, 1000, .insertion⟩ = .limited false := by
  refine ⟨fun claimed => ?_, by decide⟩
  have inOrder : InOrder [⟨.checkAndRecordWithLimit, "-", 1, 1000, .insertion⟩,
      ⟨.checkAndRecordWithLimit, "", 1, 1010, .insertion⟩] := by
    unfold InOrder
    decide
  have second := claimed (fun _ => 1) _ inOrder (List.forall_mem_cons.mpr ⟨rfl, List.forall_mem_singleton.mpr rfl⟩)
    (by decide) [⟨.checkAndRecordWithLimit, "-", 1, 1000, .insertion⟩]
    ⟨.checkAndRecordWithLimit, "", 1, 1010, .insertion⟩ [] rfl rfl
  exact absurd (second.mp (by decide)) (by decide)

end K2.LoginThrottle
