import K2.LoginThrottle.Runs

/-! # Which keys are dropped

While the clock does not go back, a key whose newest hit is still in the window
goes only to make room, when the table is full of such keys and none of them has
an older newest hit. -/

namespace K2.LoginThrottle

/-- No call is before an earlier one. -/
def InOrder (calls : List Call) : Prop := (calls.map Call.now).Pairwise (· ≤ ·)

/-- The key has a hit in the window. -/
def Active (calls : List Call) (now : Int) (key : String) : Prop := ∃ t ∈ hitsOf calls key, now - t < 300

instance (calls : List Call) (now : Int) (key : String) : Decidable (Active calls now key) :=
  inferInstanceAs (Decidable (∃ t ∈ hitsOf calls key, now - t < 300))

def Held (calls : List Call) (key : String) : Prop := ((run calls).tableOf (table key)).hits key ≠ none

/-- The rows of a door's table after some calls. -/
def rowsAt (calls : List Call) (door : Door) : List Row := ((run calls).tableOf door).rows

/-- The table has `CAPACITY` active keys, and this one's latest hit is the oldest. -/
structure GaveWay (before : List Call) (now : Int) (key : String) : Prop where
  full : CAPACITY ≤ ((rowsAt before (table key)).filter fun row => Active before now row.1).length
  oldest : ∀ row ∈ rowsAt before (table key), Active before now row.1 →
    ∀ t ∈ (hitsOf before key).getLast?, ∀ t' ∈ (hitsOf before row.1).getLast?, t ≤ t'

/-! ## Order of time -/

theorem InOrder.before {before after : List Call} (inOrder : InOrder (before ++ after)) : InOrder before := by
  rw [InOrder, List.map_append] at inOrder
  exact (List.pairwise_append.mp inOrder).1

theorem InOrder.past {before : List Call} {call : Call} (inOrder : InOrder (before ++ [call])) :
    ∀ earlier ∈ before, earlier.now ≤ call.now := by
  intro earlier mem
  rw [InOrder, List.map_append] at inOrder
  exact (List.pairwise_append.mp inOrder).2.2 _ (List.mem_map_of_mem mem) _ (List.mem_singleton_self _)

theorem InOrder.hits {calls : List Call} (inOrder : InOrder calls) (key : String) :
    (hitsOf calls key).Pairwise (· ≤ ·) :=
  inOrder.sublist (List.filter_sublist.map _)

theorem mem_hitsOf {calls : List Call} {key : String} {t : Int} :
    t ∈ hitsOf calls key ↔ ∃ call ∈ calls, call.records = true ∧ call.bucket = key ∧ call.now = t := by
  simp only [hitsOf, recorded, List.mem_map, List.mem_filter, decide_eq_true_eq, and_assoc]

theorem InOrder.past_hits {before : List Call} {call : Call} (inOrder : InOrder (before ++ [call])) (key : String) :
    ∀ t ∈ hitsOf before key, t ≤ call.now := by
  intro t mem
  obtain ⟨earlier, listed, _, _, rfl⟩ := mem_hitsOf.mp mem
  exact inOrder.past earlier listed

/-! ## Rows with hits in the window -/

theorem not_expired_iff {now t : Int} : ¬expired now t = true ↔ now - t < 300 := by
  rw [expired_iff]
  omega

theorem live_of_prune {q : List Int} {now : Int} (filled : pruneQueue q now ≠ []) : ∃ t ∈ q, now - t < 300 := by
  have first : expired now ((pruneQueue q now).head filled) = false := List.head_dropWhile_not _ filled
  refine ⟨_, (Table.prune_queue_suffix q now).subset (List.head_mem filled), not_expired_iff.mp ?_⟩
  rw [first]
  decide

/-- Hits in order: the newest one is in the window if any is, and stays. -/
theorem prune_of_active {hits q : List Int} (sorted : hits.Pairwise (· ≤ ·)) (newest : q <:+ hits) (filled : q ≠ [])
    {now t : Int} (mem : t ∈ hits) (live : now - t < 300) : pruneQueue q now ≠ [] := by
  intro empty
  have all : ∀ t' ∈ q, expired now t' = true := List.dropWhile_eq_nil_iff.mp empty
  have last : q.getLast filled ∈ q := List.getLast_mem filled
  have at_most : t ≤ q.getLast filled := by
    obtain ⟨front, rfl⟩ := newest
    rcases List.mem_append.mp mem with early | late
    · exact (List.pairwise_append.mp sorted).2.2 t early _ last
    · have ordered := (List.pairwise_append.mp sorted).2.1
      rw [← List.dropLast_append_getLast filled] at late ordered
      rcases List.mem_append.mp late with inner | same
      · exact (List.pairwise_append.mp ordered).2.2 t inner _ (List.mem_singleton_self _)
      · exact le_of_eq (List.mem_singleton.mp same)
  have gone := expired_iff.mp (all _ last)
  omega

theorem latest_eq {row : Row} {hits : List Int} (newest : row.2 <:+ hits) (filled : row.2 ≠ []) :
    hits.getLast? = some (Table.latest row) := by
  obtain ⟨front, rfl⟩ := newest
  rw [List.getLast?_append_of_ne_nil _ filled, Table.latest, List.getLast?_eq_some_getLast filled]
  rfl

namespace Table

theorem prune_queue_prune_queue (q : List Int) (now : Int) :
    pruneQueue (pruneQueue q now) now = pruneQueue q now :=
  List.dropWhile_idempotent ..

theorem hits_prune_key {t : Table} {key : String} {q : List Int} (present : t.hits key = some q) {now : Int}
    (alive : pruneQueue q now ≠ []) : (t.pruneKey key now).hits key = some (pruneQueue q now) := by
  rw [prune_key_of_some present, if_neg alive]
  exact FinMap.lookup_insert_self ..

theorem hits_prune_key_other (t : Table) {key other : String} (different : key ≠ other) (now : Int) :
    (t.pruneKey key now).hits other = t.hits other := by
  cases found : t.hits key with
  | none => rw [prune_key_of_none found]
  | some q =>
    rw [prune_key_of_some found]
    split
    · exact (FinMap.lookup_erase ..).trans (if_neg different)
    · exact FinMap.lookup_insert_of_ne _ _ different

theorem stays_prune_key {t : Table} {other : String} {q : List Int} (present : t.hits other = some q) {now : Int}
    (alive : pruneQueue q now ≠ []) (key : String) :
    ∃ q', (t.pruneKey key now).hits other = some q' ∧ pruneQueue q' now = pruneQueue q now := by
  by_cases same : key = other
  · subst same
    exact ⟨_, hits_prune_key present alive, prune_queue_prune_queue q now⟩
  · exact ⟨q, (hits_prune_key_other t same now).trans present, rfl⟩

theorem stays_sweep_expired {t : Table} {key : String} {q : List Int} (present : t.hits key = some q) {now : Int}
    (alive : pruneQueue q now ≠ []) : (t.sweepExpired now).hits key = some (pruneQueue q now) :=
  hits_eq_some.mpr (mem_sweep_expired.mpr ⟨alive, q, hits_eq_some.mp present, rfl⟩)

end Table

/-! ## Making room -/

/-- What is left of a table when a call drops a key with a live hit from it. -/
theorem dropped_make_room {t : Table} {order : HashOrder} {key other : String} {q : List Int} {now : Int}
    (present : t.hits other = some q) (alive : pruneQueue q now ≠ [])
    (dropped : (Table.makeRoom order t key now).hits other = none) :
    t.hits key = none ∧ CAPACITY ≤ (t.sweepExpired now).rows.length ∧
      ∀ row ∈ (t.sweepExpired now).rows, Table.latest (other, pruneQueue q now) ≤ Table.latest row := by
  have swept := Table.stays_sweep_expired present alive
  unfold Table.makeRoom at dropped
  by_cases full : t.hits key = none ∧ CAPACITY ≤ t.rows.length
  · rw [if_pos full] at dropped
    by_cases still : CAPACITY ≤ (t.sweepExpired now).rows.length
    · rw [if_pos still] at dropped
      have gone : (other, pruneQueue q now) ∉ ((t.sweepExpired now).evictLeastRecent order).rows :=
        fun mem => Table.hits_eq_none.mp dropped _ mem rfl
      exact ⟨full.1, still, Table.evicted (Table.hits_eq_some.mp swept) gone⟩
    · rw [if_neg still, swept] at dropped
      cases dropped
  · rw [if_neg full, present] at dropped
    cases dropped

/-- A call that drops a key with a live hit is a record of another key. -/
theorem dropped_left {t : Table} {call : Call} {key : String} {q : List Int} (present : t.hits key = some q)
    (alive : pruneQueue q call.now ≠ []) (dropped : (left t call).hits key = none) :
    (Table.makeRoom call.order (t.pruneKey call.bucket call.now) call.bucket call.now).hits key = none := by
  cases records : call.records with
  | false =>
    obtain ⟨q', kept, _⟩ := Table.stays_prune_key present alive call.bucket
    rw [left, records, if_neg (by decide), kept] at dropped
    cases dropped
  | true =>
    rw [left, records, if_pos rfl, Table.check_and_record_eq] at dropped
    by_cases same : call.bucket = key
    · subst same
      exact absurd dropped (by rw [Table.hits, FinMap.lookup_insert_self]; simp)
    · rwa [Table.hits, FinMap.lookup_insert_of_ne _ _ same] at dropped

theorem swept_active {before : List Call} {now : Int} {door : Door} {key : String} {row : Row}
    (mem : row ∈ ((((run before).tableOf door).pruneKey key now).sweepExpired now).rows) :
    row.1 ∈ ((rowsAt before door).filter fun row => Active before now row.1).map Prod.fst := by
  have sound := sound_run before door
  obtain ⟨filled, q, pruned, same⟩ := Table.mem_sweep_expired.mp mem
  obtain ⟨_, whole, was, suffix⟩ := Table.shrunk_prune_key sound.filled key now _ pruned
  obtain ⟨t, hit, live⟩ := live_of_prune (same ▸ filled)
  have active : Active before now row.1 := ⟨t, (suffix.trans (sound.newest _ was)).subset hit, live⟩
  exact List.mem_map.mpr ⟨(row.1, whole), List.mem_filter.mpr ⟨was, by simpa using active⟩, rfl⟩

theorem length_swept_le (before : List Call) (now : Int) (door : Door) (key : String) :
    ((((run before).tableOf door).pruneKey key now).sweepExpired now).rows.length ≤
      ((rowsAt before door).filter fun row => Active before now row.1).length := by
  have keys : (((rowsAt before door).filter fun row => Active before now row.1).map Prod.fst).length =
      ((rowsAt before door).filter fun row => Active before now row.1).length := List.length_map ..
  rw [← keys]
  exact Table.length_le_of_keys fun row mem => swept_active mem

/-- A key that a call drops although it has a hit in the window gave way. -/
theorem gaveWay {before : List Call} {call : Call} (inOrder : InOrder (before ++ [call])) {key : String}
    (held : Held before key) (dropped : ¬Held (before ++ [call]) key) (active : Active before call.now key) :
    GaveWay before call.now key := by
  have sound := sound_run before (table key)
  -- Every active row outlives both prunings.
  have alive : ∀ row ∈ rowsAt before (table key), Active before call.now row.1 →
      pruneQueue row.2 call.now ≠ [] := by
    intro row mem active
    obtain ⟨t, hit, live⟩ := active
    exact prune_of_active (inOrder.before.hits _) (sound.newest row mem) (sound.filled row mem) hit live
  have newest : ∀ row ∈ rowsAt before (table key), pruneQueue row.2 call.now ≠ [] →
      (hitsOf before row.1).getLast? = some (Table.latest (row.1, pruneQueue row.2 call.now)) :=
    fun row mem filled => latest_eq ((Table.prune_queue_suffix ..).trans (sound.newest row mem)) filled
  obtain ⟨q, present⟩ := Option.ne_none_iff_exists'.mp held
  have mem := Table.hits_eq_some.mp present
  have gone : (left ((run before).tableOf (table key)) call).hits key = none := by
    rw [Held, not_not, run_append, tableOf_step] at dropped
    by_cases own : table key = table call.bucket
    · rwa [if_pos own, ← own] at dropped
    · rw [if_neg own, present] at dropped
      cases dropped
  obtain ⟨q', kept, same⟩ := Table.stays_prune_key present (alive _ mem active) call.bucket
  obtain ⟨_, full, oldest⟩ := dropped_make_room kept (same ▸ alive _ mem active)
    (dropped_left present (alive _ mem active) gone)
  refine ⟨full.trans (length_swept_le ..), fun row other active' t last t' last' => ?_⟩
  obtain ⟨q'', kept'', same''⟩ := Table.stays_prune_key (Table.hits_eq_some.mpr other) (alive row other active')
    call.bucket
  have swept := Table.hits_eq_some.mp (Table.stays_sweep_expired kept'' (same'' ▸ alive row other active'))
  have older := oldest _ swept
  rw [same, same''] at older
  rw [newest _ mem (alive _ mem active)] at last
  rw [newest row other (alive row other active')] at last'
  cases last
  cases last'
  exact older

end K2.LoginThrottle
