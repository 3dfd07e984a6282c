import K2.Stash.Feed

/-! # The caps of the stash

A person has at most `liveCap` live records and `maxRows` stored ones in every
store a run reaches. The live counter of the merge loop is exact, which bounds
the live records; a collection then always finds enough tombstones.
-/

namespace K2.Stash

open KeyedTable

/-- A person's stored row count. -/
def rowCount (items : Items) (person : String) : Nat := items.count (Row.ofPerson person)

structure Capped (items : Items) (person : String) : Prop where
  live : liveCount items person ≤ liveCap
  rows : rowCount items person ≤ maxRows

/-! ## The live counter -/

/-- The counter the merge loop keeps is the live count, and stays under the
    cap. -/
theorem mergeBatch_live (db : Store) (person deviceId : String) (changes : List Value) (nowMs : Int)
    (capped : liveCount db.items person ≤ liveCap) :
    (mergeBatch db person deviceId changes nowMs).live =
        liveCount (mergeBatch db person deviceId changes nowMs).items person ∧
      (mergeBatch db person deviceId changes nowMs).live ≤ liveCap := by
  refine mergeBatch_induction (P := fun b => b.live = liveCount b.items person ∧ b.live ≤ liveCap)
    db person deviceId changes nowMs ⟨rfl, capped⟩ ?_
  intro b p b' _ ih takes
  refine ⟨takes_live takes ih.1, ?_⟩
  cases takes with
  | superseded => exact ih.2
  | capped => exact ih.2
  | written live newer counted room =>
      have below := ih.2
      change live ≤ liveCap
      split at counted <;> omega

/-! ## The collection -/

theorem rowCount_split (items : Items) (person : String) :
    rowCount items person =
      liveCount items person + (items.rows.filter (Row.tombstoneOf person)).length := by
  rw [rowCount, liveCount, count, count, ← List.countP_eq_length_filter]
  induction items.rows with
  | nil => rfl
  | cons r rest ih =>
      simp only [List.countP_cons, Row.ofPerson, Row.liveOf, Row.tombstoneOf] at ih ⊢
      by_cases owner : r.person = person <;> by_cases live : r.record.isLive = true <;>
        simp [owner, live] <;> omega

theorem collectTombstones_live (items : Items) (person : String) (nowMs : Int) {r : Row}
    (member : r ∈ items.rows) (live : r.record.isLive = true) :
    r ∈ (collectTombstones items person nowMs).1.rows := by
  by_contra gone
  have dead := ((collectTombstones_spec items person nowMs).dropped r member gone).1
  simp [Row.tombstoneOf, live] at dead

private theorem deleteWhere_liveCount (items : Items) (person : String) {p : Row → Bool}
    (dead : ∀ r, p r = true → r.record.isLive = false) :
    liveCount (items.deleteWhere p) person = liveCount items person := by
  have none_live : items.count (fun r => p r && r.liveOf person) = 0 := by
    refine List.countP_eq_zero.mpr fun r _ => ?_
    cases chosen : p r with
    | false => simp
    | true => simp [Row.liveOf, dead r chosen]
  have := items.count_deleteWhere_add p (Row.liveOf person)
  simp only [liveCount]
  omega

private theorem agedOut_dead (person : String) (cutoff : Int) (r : Row)
    (aged : r.agedOut person cutoff = true) : r.record.isLive = false := by
  simp only [Row.agedOut, Row.tombstoneOf, Bool.and_eq_true, Bool.not_eq_true'] at aged
  exact aged.1.2

/-- After a collection the row cap holds, where the live cap does. -/
theorem collectTombstones_capped (items : Items) (person : String) (nowMs : Int)
    (capped : liveCount items person ≤ liveCap) :
    Capped (collectTombstones items person nowMs).1 person := by
  have live_kept := deleteWhere_liveCount items person
    (agedOut_dead person (nowMs - tombstoneKeepMs))
  simp only [collectTombstones]
  generalize items.deleteWhere (Row.agedOut person (nowMs - tombstoneKeepMs)) = kept at *
  split
  · rename_i many
    change (rowCount kept person : Int) > maxRows at many
    change Capped (kept.deleteWhere fun r => decide (r.key ∈ (oldestTombstones kept person
      ((rowCount kept person : Int) - maxRows).toNat).map Row.key)) person
    have enough := rowCount_split kept person
    have listed : ∀ r ∈ oldestTombstones kept person ((rowCount kept person : Int) - maxRows).toNat,
        r ∈ kept.rows ∧ r.tombstoneOf person = true := fun r hr => mem_oldestTombstones hr
    have once : (oldestTombstones kept person ((rowCount kept person : Int) - maxRows).toNat).Nodup :=
      ((List.perm_insertionSort _ _).nodup_iff.mpr
        ((List.Nodup.of_map Row.key kept.distinct).filter _)).sublist (List.take_sublist _ _)
    have size : (oldestTombstones kept person ((rowCount kept person : Int) - maxRows).toNat).length =
        ((rowCount kept person : Int) - maxRows).toNat := by
      rw [oldestTombstones, List.length_take, List.length_insertionSort, min_eq_left]
      simp only [liveCap, maxRows] at *
      omega
    generalize oldestTombstones kept person ((rowCount kept person : Int) - maxRows).toNat = gone at *
    refine ⟨?_, ?_⟩
    · have := count_deleteKeys kept gone (fun r hr => (listed r hr).1) once _
        (fun r => decide_eq_true_iff) (Row.liveOf person)
      simp only [liveCount] at *
      omega
    · have := count_deleteKeys kept gone (fun r hr => (listed r hr).1) once _
        (fun r => decide_eq_true_iff) (Row.ofPerson person)
      have all_mine : gone.countP (Row.ofPerson person) = gone.length := by
        refine List.countP_eq_length.mpr fun r hr => ?_
        have := (listed r hr).2
        simp only [Row.tombstoneOf, Bool.and_eq_true] at this
        exact this.1
      simp only [rowCount] at *
      omega
  · rename_i few
    exact ⟨by rw [live_kept]; exact capped, not_lt.mp few⟩

/-! ## Runs -/

theorem Capped.of_rows {old new : Items} {person : String} (capped : Capped old person)
    (same : ∀ id, new.get (person, id) = old.get (person, id)) : Capped new person := by
  have live := count_of_rows same (p := Row.liveOf person) fun r h => by simp_all [Row.liveOf]
  have rows := count_of_rows same (p := Row.ofPerson person) fun r h => by simp_all [Row.ofPerson]
  exact ⟨by rw [liveCount, live]; exact capped.live, by rw [rowCount, rows]; exact capped.rows⟩

theorem push_capped {db : Store} {person : String} (capped : Capped db.items person)
    (deviceId : String) (changes : List Value) (nowMs : Int) :
    Capped (push db person deviceId changes nowMs).1.items person := by
  obtain ⟨exact_live, low⟩ := mergeBatch_live db person deviceId changes nowMs capped.live
  by_cases wrote : 0 < (mergeBatch db person deviceId changes nowMs).applied
  · simp only [push, wrote, if_true]
    exact collectTombstones_capped _ _ _ (exact_live ▸ low)
  · have idle : (mergeBatch db person deviceId changes nowMs).applied = 0 := by omega
    simpa only [push, wrote, if_false, mergeBatch_idle db person deviceId changes nowMs idle]
      using capped

theorem run_capped (calls : List Call) (person : String) : Capped (run .empty calls).items person := by
  have start : Capped Store.empty.items person :=
    ⟨by simp [liveCount, count, Store.empty, liveCap], by simp [rowCount, count, Store.empty, maxRows]⟩
  refine List.foldlRecOn calls Call.apply (motive := fun db => Capped db.items person) start
    fun db capped call _ => ?_
  cases call with
  | push pusher deviceId changes nowMs =>
      by_cases mine : person = pusher
      · subst mine
        exact push_capped capped deviceId changes nowMs
      · exact capped.of_rows fun id => (push_other db pusher deviceId changes nowMs mine).1 id
  | pull => exact capped

/-- What a push keeps of a reachable store, whoever's it is. -/
structure Keeps (db : Store) (person deviceId : String) (changes : List Value) (nowMs : Int) :
    Prop where
  capped : ∀ p, Capped (push db person deviceId changes nowMs).1.items p
  seq_le : ∀ row ∈ (push db person deviceId changes nowMs).1.items.rows,
    row.seq ≤ (personSeq (push db person deviceId changes nowMs).1.people row.person).1
  floor_le : ∀ p, (personSeq (push db person deviceId changes nowMs).1.people p).2 ≤
    (personSeq (push db person deviceId changes nowMs).1.people p).1
  cursor_mono : ∀ p, (personSeq db.people p).1 ≤
    (personSeq (push db person deviceId changes nowMs).1.people p).1
  floor_mono : ∀ p, (personSeq db.people p).2 ≤
    (personSeq (push db person deviceId changes nowMs).1.people p).2
  live_kept : ∀ row ∈ (mergeBatch db person deviceId changes nowMs).items.rows,
    row.record.isLive = true → row ∈ (push db person deviceId changes nowMs).1.items.rows
  others : ∀ other, other ≠ person →
    (∀ row : Row, row.person = other →
      (row ∈ (push db person deviceId changes nowMs).1.items.rows ↔ row ∈ db.items.rows)) ∧
    personSeq (push db person deviceId changes nowMs).1.people other = personSeq db.people other

/-- Every push of every run keeps the caps, the cursors and the other people's
    stashes. -/
theorem push_keeps (calls : List Call) (person deviceId : String) (changes : List Value)
    (nowMs : Int) : Keeps (run .empty calls) person deviceId changes nowMs := by
  have counted := run_counted calls
  have next := fun p => call_counted (counted p) (.push person deviceId changes nowMs)
  have step := fun p => call_step (counted p) (.push person deviceId changes nowMs)
  refine ⟨fun p => ?_, fun row member => ?_, fun p => (next p).sound.floor_le,
    fun p => (step p).cursor_le, fun p => (step p).floor_le, fun row member live => ?_,
    fun other different => ?_⟩
  · have := run_capped (calls ++ [.push person deviceId changes nowMs]) p
    rwa [run, List.foldl_append] at this
  · refine (next row.person).sound.seq_le row.record.id row.entry ?_
    simp only [feed, Feed.ofTable, Option.map_eq_some_iff]
    exact ⟨row, get_of_mem member, rfl⟩
  · by_cases wrote : 0 < (mergeBatch (run .empty calls) person deviceId changes nowMs).applied
    · simp only [push, wrote, if_true]
      exact collectTombstones_live _ _ _ member live
    · simpa only [push, wrote, if_false] using member
  · obtain ⟨rows, cursor⟩ := push_other (run .empty calls) person deviceId changes nowMs different
    refine ⟨fun row owner => ?_, cursor⟩
    have same := rows row.record.id
    rw [← owner] at same
    constructor
    · exact fun member => mem_of_get (same ▸ get_of_mem member)
    · exact fun member => mem_of_get (same.trans (get_of_mem member))

end K2.Stash
