import K2.Lib.Histories
import K2.Stash.Spec

/-! # Merging is order independent

Where no record is refused for room and no tombstone is collected, a person's
store is a family of last-writer-wins registers, one per id. What they end up
holding depends only on which records were pushed.
-/

namespace K2.Stash

open KeyedTable LastWriter

/-! ## A batch -/

/-- A record that was not refused for room is merged into the register under
    its id. -/
theorem takes_merge {person : String} {next : Int} {b b' : Batch} {p : Record × Value}
    (takes : Takes person next b p b') (kept : b'.rejected = b.rejected) (id : String) :
    getRecord b'.items person id = if p.1.id = id
      then merge Record.stamp (getRecord b.items person id) p.1 else getRecord b.items person id := by
  cases takes with
  | superseded ex held beaten =>
      split
      · rename_i same
        subst same
        have : ¬ ex.stamp < p.1.stamp := by rw [← Record.beats_iff, beaten]; exact Bool.false_ne_true
        simp [held, merge, this]
      · rfl
  | capped => simp at kept
  | written live newer =>
      simp only [getRecord, get_upsert, Row.key, Prod.mk.injEq, true_and]
      split
      · rename_i same
        subst same
        cases held : getRecord b.items person p.1.id with
        | none => simp only [getRecord] at held; simp [held, merge]
        | some ex =>
            have := (Record.beats_iff _ _).mp (newer ex held)
            simp only [getRecord] at held
            simp [held, merge, this]
      · rfl

theorem take_rejected (person : String) (next : Int) (b : Batch) (p : Record × Value) :
    b.rejected <+: (b.take person next p).rejected := by
  have takes := take_takes person next b p
  generalize b.take person next p = b' at takes
  cases takes with
  | superseded => exact List.prefix_rfl
  | capped => exact List.prefix_append _ _
  | written => exact List.prefix_rfl

theorem foldl_take_rejected (person : String) (next : Int) (ps : List (Record × Value)) (b : Batch) :
    b.rejected <+: (ps.foldl (Batch.take person next) b).rejected := by
  induction ps generalizing b with
  | nil => exact List.prefix_rfl
  | cons p rest ih => exact (take_rejected person next b p).trans (ih _)

/-- The merge loop, where it refused nothing for room, merges the batch into
    every register. -/
theorem foldl_take_merge (person : String) (next : Int) (ps : List (Record × Value)) (b : Batch)
    (kept : (ps.foldl (Batch.take person next) b).rejected = b.rejected) (id : String) :
    getRecord (ps.foldl (Batch.take person next) b).items person id =
      mergeAll Record.stamp (getRecord b.items person id) ((ps.map (·.1)).filter (·.id = id)) := by
  induction ps generalizing b with
  | nil => rfl
  | cons p rest ih =>
      have later := foldl_take_rejected person next rest (b.take person next p)
      have first : (b.take person next p).rejected = b.rejected := by
        rw [List.foldl_cons] at kept
        rw [kept] at later
        exact (later.eq_of_length_le (take_rejected person next b p).length_le)
      rw [List.foldl_cons] at kept ⊢
      rw [ih _ (kept.trans first.symm), takes_merge (take_takes person next b p) first id]
      by_cases same : p.1.id = id
      · simp [same, mergeAll]
      · simp [same]

/-! ## Runs of pushes -/

/-- The records a call pushed for a person, in the order they were merged. -/
def Call.arrivals (person : String) : Call → List Record
  | .push p deviceId changes nowMs =>
      if p = person then (batchOf deviceId changes nowMs).map (·.1) else []
  | .pull .. => []

/-- The records a call pushed for a person, as the parser accepted them. -/
def Call.pushed (person : String) : Call → List Record
  | .push p deviceId changes nowMs =>
      if p = person then (parsed deviceId changes nowMs).map (·.1) else []
  | .pull .. => []

def arrivals (person : String) (calls : List Call) : List Record :=
  calls.flatMap (Call.arrivals person)

def pushed (person : String) (calls : List Call) : List Record := calls.flatMap (Call.pushed person)

/-- No push of the run for the person is refused a record for room, and none
    collects a tombstone. -/
def Undisturbed (person : String) : Store → List Call → Prop
  | _, [] => True
  | db, call :: rest =>
      (match call with
        | .push p deviceId changes nowMs => p = person →
            (push db p deviceId changes nowMs).2.rejected = refused deviceId changes nowMs ∧
            (push db p deviceId changes nowMs).1.items.rows =
              (mergeBatch db p deviceId changes nowMs).items.rows
        | .pull .. => True) ∧
      Undisturbed person (call.apply db) rest

/-- A stash of live records only, with room for `n` more. -/
structure Roomy (items : Items) (person : String) (n : Nat) : Prop where
  live : ∀ r ∈ items.rows, r.person = person → r.record.isLive = true
  room : items.count (Row.ofPerson person) + n ≤ liveCap

theorem Roomy.liveCount_le {items : Items} {person : String} {n : Nat} (roomy : Roomy items person n) :
    liveCount items person + n ≤ liveCap := by
  have : liveCount items person ≤ items.count (Row.ofPerson person) := by
    refine List.countP_mono_left fun r _ h => ?_
    simp only [Row.liveOf, Bool.and_eq_true] at h
    exact h.1
  have := roomy.room
  omega

theorem Roomy.of_rows {old new : Items} {person : String} {n : Nat} (roomy : Roomy old person n)
    (same : ∀ id, new.get (person, id) = old.get (person, id)) : Roomy new person n := by
  refine ⟨fun r member mine => ?_, ?_⟩
  · have held := get_of_mem member
    rw [Row.key, mine, same] at held
    exact roomy.live r (mem_of_get held) mine
  · rw [count_of_rows same (p := Row.ofPerson person) fun r h => by simp_all [Row.ofPerson]]
    exact roomy.room

/-- A live record that finds room is not refused, and takes up one place at
    most. -/
theorem takes_roomy {person : String} {next : Int} {b b' : Batch} {p : Record × Value} {n : Nat}
    (takes : Takes person next b p b') (live : p.1.isLive = true)
    (counted : b.live = liveCount b.items person) (roomy : Roomy b.items person (n + 1)) :
    b'.rejected = b.rejected ∧ Roomy b'.items person n := by
  have room := roomy.room
  have smaller : Roomy b.items person n := ⟨roomy.live, by omega⟩
  cases takes with
  | superseded => exact ⟨rfl, smaller⟩
  | capped _ _ _ full =>
      have := roomy.liveCount_le
      omega
  | written =>
      have grown := count_upsert b.items ⟨person, p.1, next⟩ (Row.ofPerson person)
      refine ⟨rfl, fun r member mine => ?_, ?_⟩
      · rcases (mem_upsert _ _ r).mp member with rfl | ⟨old, -⟩
        · exact live
        · exact roomy.live r old mine
      · split at grown <;> simp only at * <;> omega

theorem foldl_take_roomy (person : String) (next : Int) (ps : List (Record × Value)) {b : Batch}
    {n : Nat} (live : ∀ p ∈ ps, p.1.isLive = true) (counted : b.live = liveCount b.items person)
    (roomy : Roomy b.items person (ps.length + n)) :
    (ps.foldl (Batch.take person next) b).rejected = b.rejected ∧
      Roomy (ps.foldl (Batch.take person next) b).items person n := by
  induction ps generalizing b with
  | nil => exact ⟨rfl, by simpa using roomy⟩
  | cons p rest ih =>
      have takes := take_takes person next b p
      obtain ⟨accepted, later⟩ := takes_roomy (n := rest.length + n) takes (live p (by simp)) counted
        (by convert roomy using 1; simp only [List.length_cons]; omega)
      obtain ⟨rejected, roomy'⟩ := ih (fun q hq => live q (by simp [hq])) (takes_live takes counted) later
      exact ⟨rejected.trans accepted, roomy'⟩

/-- Pushes of live records that find room disturb nothing: no record is refused
    for room, and there is no tombstone to collect. -/
theorem Undisturbed.of_roomy {db : Store} {person : String} {calls : List Call}
    (live : ∀ r ∈ pushed person calls, r.isLive = true)
    (roomy : Roomy db.items person (pushed person calls).length) : Undisturbed person db calls := by
  induction calls generalizing db with
  | nil => trivial
  | cons call rest ih =>
      have later : ∀ r ∈ pushed person rest, r.isLive = true := fun r hr =>
        live r (by rw [pushed, List.flatMap_cons]; exact List.mem_append_right _ hr)
      cases call with
      | pull => exact ⟨trivial, ih later roomy⟩
      | push p deviceId changes nowMs =>
          by_cases mine : p = person
          · subst mine
            have here : Call.pushed p (.push p deviceId changes nowMs) =
                (parsed deviceId changes nowMs).map (·.1) := by simp [Call.pushed]
            have size : (batchOf deviceId changes nowMs).length =
                (parsed deviceId changes nowMs).length := (tombstonesFirst_perm _).length_eq
            obtain ⟨accepted, after⟩ := foldl_take_roomy p
              ((personSeq db.people p).1 + 1) (batchOf deviceId changes nowMs)
              (b := ⟨db.items, liveCount db.items p, 0, 0, refused deviceId changes nowMs⟩)
              (n := (pushed p rest).length)
              (fun q hq => live q.1 (by
                rw [pushed, List.flatMap_cons, here]
                exact List.mem_append_left _
                  (List.mem_map_of_mem (mem_tombstonesFirst.mp hq))))
              rfl (by simpa [pushed, here, size] using roomy)
            change (mergeBatch db p deviceId changes nowMs).rejected = _ at accepted
            change Roomy (mergeBatch db p deviceId changes nowMs).items p _ at after
            have quiet : (push db p deviceId changes nowMs).1.items =
                (mergeBatch db p deviceId changes nowMs).items := by
              by_cases wrote : 0 < (mergeBatch db p deviceId changes nowMs).applied
              · simp only [push, wrote, if_true]
                exact collectTombstones_of_live _ _ _ after.live
                  (by have := after.room; simp only [liveCap, maxRows] at *; omega)
              · simp only [push, wrote, if_false]
            refine ⟨fun _ => ⟨by rw [push_rejected]; exact accepted, congrArg (·.rows) quiet⟩,
              ih later ?_⟩
            rw [Call.apply, quiet]
            exact after
          · refine ⟨fun h => absurd h mine, ih later ?_⟩
            have same := (push_other db p deviceId changes nowMs (Ne.symm mine)).1
            exact .of_rows (by simpa [pushed, Call.pushed, mine] using roomy) same

theorem mem_arrivals {person : String} {calls : List Call} {r : Record} :
    r ∈ arrivals person calls ↔ r ∈ pushed person calls := by
  simp only [arrivals, pushed, List.mem_flatMap]
  refine exists_congr fun call => and_congr_right fun _ => ?_
  cases call with
  | push p deviceId changes nowMs =>
      simp only [Call.arrivals, Call.pushed]
      split
      · simp only [List.mem_map, batchOf, mem_tombstonesFirst]
      · rfl
  | pull => rfl

theorem run_merge {db : Store} {person : String} {calls : List Call}
    (quiet : Undisturbed person db calls) (id : String) :
    getRecord (run db calls).items person id = mergeAll Record.stamp
      (getRecord db.items person id) ((arrivals person calls).filter (·.id = id)) := by
  induction calls generalizing db with
  | nil => rfl
  | cons call rest ih =>
      obtain ⟨here, later⟩ := quiet
      have after := ih later
      rw [arrivals, List.flatMap_cons, List.filter_append, mergeAll_append]
      refine after.trans (congrArg (mergeAll Record.stamp · _) ?_)
      cases call with
      | push p deviceId changes nowMs =>
          by_cases mine : p = person
          · subst mine
            obtain ⟨accepted, kept⟩ := here rfl
            have rejected : (mergeBatch db p deviceId changes nowMs).rejected =
                refused deviceId changes nowMs := by rw [← accepted, push_rejected]
            have items : (push db p deviceId changes nowMs).1.items =
                (mergeBatch db p deviceId changes nowMs).items := KeyedTable.ext kept
            simp only [Call.apply, Call.arrivals, items, if_true]
            exact foldl_take_merge p _ _ _ rejected id
          · simp only [Call.arrivals, mine, if_false, List.filter_nil, mergeAll, List.foldl_nil, getRecord]
            rw [Call.apply, (push_other db p deviceId changes nowMs (Ne.symm mine)).1 id]
      | pull => rfl

/-! ## Order independence -/

/-- The versions of one id: what a store held at first, and what a run pushed. -/
def versions (db : Store) (person : String) (calls : List Call) (id : String) : List Record :=
  (getRecord db.items person id).toList ++ (pushed person calls).filter (·.id = id)

/-- No two different versions of an id agree in stamp, writer and live or
    deleted state. -/
def Apart (db : Store) (person : String) (calls : List Call) : Prop :=
  ∀ id, ∀ x ∈ versions db person calls id, ∀ y ∈ versions db person calls id,
    x.updatedAt = y.updatedAt → x.updatedBy = y.updatedBy → x.isLive = y.isLive → x = y

theorem Apart.injOn {db : Store} {person : String} {calls : List Call}
    (apart : Apart db person calls) (id : String) :
    Set.InjOn Record.stamp {x | x ∈ versions db person calls id} := by
  intro x hx y hy same
  simp only [Record.stamp, toLex_inj, Prod.mk.injEq] at same
  exact apart id x hx y hy same.1 same.2.1 (Bool.not_inj same.2.2)

theorem run_isNewest {db : Store} {person : String} {calls : List Call}
    (quiet : Undisturbed person db calls) (id : String) :
    (getRecord (run db calls).items person id = none ∧ versions db person calls id = []) ∨
      ∃ w, getRecord (run db calls).items person id = some w ∧
        IsNewest Record.stamp (versions db person calls id) w := by
  have same : ∀ x, x ∈ (getRecord db.items person id).toList ++
      (arrivals person calls).filter (·.id = id) ↔ x ∈ versions db person calls id := fun x => by
    simp only [versions, List.mem_append, List.mem_filter, mem_arrivals]
  rw [run_merge quiet id]
  by_cases given : (getRecord db.items person id).toList ++ (arrivals person calls).filter (·.id = id) = []
  · refine .inl ⟨?_, List.eq_nil_iff_forall_not_mem.mpr fun x hx => ?_⟩
    · obtain ⟨nothing, none_came⟩ := List.append_eq_nil_iff.mp given
      rw [none_came, Option.toList_eq_nil_iff.mp nothing]
      rfl
    · simpa [given] using (same x).mpr hx
  · obtain ⟨w, merged, newest⟩ := mergeAll_isNewest Record.stamp _ _ given
    exact .inr ⟨w, merged, newest.of_mem_iff same⟩

/-- A record is the newest of versions that are told apart exactly when it beats
    every other one. -/
theorem isNewest_iff_beats {xs : List Record} (apart : Set.InjOn Record.stamp {x | x ∈ xs})
    {w : Record} : IsNewest Record.stamp xs w ↔ w ∈ xs ∧ ∀ x ∈ xs, x ≠ w → w.beats x = true := by
  constructor
  · intro newest
    refine ⟨newest.mem, fun x hx different => (Record.beats_iff w x).mpr ?_⟩
    exact lt_of_le_of_ne (newest.le x hx) fun same => different (apart hx newest.mem same)
  · rintro ⟨member, all⟩
    refine ⟨member, fun x hx => ?_⟩
    by_cases same : x = w
    · rw [same]
    · exact ((Record.beats_iff w x).mp (all x hx same)).le

/-- Pushing again records that were pushed before changes neither the rows nor
    the cursor. -/
theorem push_again {db : Store} {person deviceId : String} {changes : List Value} {nowMs : Int}
    (held : ∀ p ∈ parsed deviceId changes nowMs, ∃ w, getRecord db.items person p.1.id = some w ∧
      p.1.stamp ≤ w.stamp) :
    (push db person deviceId changes nowMs).1.items = db.items ∧
      (push db person deviceId changes nowMs).1.people = db.people := by
  have idle := mergeBatch_induction (P := fun b => b.applied = 0 ∧ b.items = db.items)
    db person deviceId changes nowMs ⟨rfl, rfl⟩ (by
      rintro b p b' member ⟨none_applied, same⟩ takes
      obtain ⟨w, stored, below⟩ := held p (mem_tombstonesFirst.mp member)
      rw [← same] at stored
      have kept : ¬ p.1.beats w = true := fun newer =>
        absurd ((Record.beats_iff _ _).mp newer) (not_lt.mpr below)
      cases takes with
      | superseded => exact ⟨none_applied, same⟩
      | capped newer => exact absurd (newer w stored) kept
      | written _ newer => exact absurd (newer w stored) kept)
  simp [push, idle.1, idle.2]

/-- Whatever the order and the batching of the pushes, the same records end up
    stored, each id holding the version that beats all others; and pushing any
    of them again changes nothing. -/
theorem merge_any_order {db : Store} {person : String} {left right : List Call}
    (same : (pushed person left).Perm (pushed person right)) (apart : Apart db person left)
    (quietLeft : Undisturbed person db left) (quietRight : Undisturbed person db right) :
    (∀ id, getRecord (run db left).items person id = getRecord (run db right).items person id) ∧
    (∀ id w, getRecord (run db left).items person id = some w ↔
      w ∈ versions db person left id ∧ ∀ x ∈ versions db person left id, x ≠ w → w.beats x = true) ∧
    ∀ deviceId changes nowMs, (∀ p ∈ parsed deviceId changes nowMs, p.1 ∈ pushed person left) →
      (push (run db left) person deviceId changes nowMs).1.items = (run db left).items ∧
      (push (run db left) person deviceId changes nowMs).1.people = (run db left).people := by
  have members : ∀ id x, x ∈ versions db person left id ↔ x ∈ versions db person right id :=
    fun id x => by simp only [versions, List.mem_append, List.mem_filter, same.mem_iff]
  refine ⟨fun id => ?_, fun id w => ?_, fun deviceId changes nowMs again => ?_⟩
  · rcases run_isNewest quietLeft id with ⟨left_none, none_given⟩ | ⟨v, left_some, hv⟩
    · rcases run_isNewest quietRight id with ⟨right_none, -⟩ | ⟨w, -, hw⟩
      · rw [left_none, right_none]
      · have := (members id w).mpr hw.mem
        simp [none_given] at this
    · rcases run_isNewest quietRight id with ⟨-, none_given⟩ | ⟨w, right_some, hw⟩
      · have := (members id v).mp hv.mem
        simp [none_given] at this
      · rw [left_some, right_some,
          hv.unique (apart.injOn id) (hw.of_mem_iff fun x => (members id x).symm)]
  · rw [← isNewest_iff_beats (apart.injOn id)]
    rcases run_isNewest quietLeft id with ⟨left_none, none_given⟩ | ⟨v, left_some, hv⟩
    · refine ⟨fun h => by simp [left_none] at h, fun h => ?_⟩
      simpa [none_given] using h.mem
    · rw [left_some, Option.some_inj]
      exact ⟨fun h => h ▸ hv, fun h => hv.unique (apart.injOn id) h⟩
  · refine push_again fun p hp => ?_
    have member : p.1 ∈ versions db person left p.1.id := by
      simp [versions, again p hp]
    rcases run_isNewest quietLeft p.1.id with ⟨-, none_given⟩ | ⟨w, held, newest⟩
    · simp [none_given] at member
    · exact ⟨w, held, newest.le _ member⟩

/-- A pushed live record with no more than the parser asks for. -/
def note (updatedAt : Int) : Value :=
  .object [("created_at", .number (.int 1)), ("id", .string "00000000-0000-0000-0000-000000000000"),
    ("text", .string ""), ("updated_at", .number (.int updatedAt)), ("v", .number (.int 1))]

/-- Two devices save one id at the same time. -/
theorem merge_any_order_two_devices :
    getRecord (run .empty [.push "p" "a" [note 5] 10, .push "p" "b" [note 5] 10]).items "p"
        "00000000-0000-0000-0000-000000000000" =
      getRecord (run .empty [.push "p" "b" [note 5] 10, .push "p" "a" [note 5] 10]).items "p"
        "00000000-0000-0000-0000-000000000000" := by
  have parsed_a : (Call.pushed "p" (.push "p" "a" [note 5] 10)).map
      (fun r => (r.updatedBy, r.isLive)) = [("a", true)] := by decide +kernel
  have parsed_b : (Call.pushed "p" (.push "p" "b" [note 5] 10)).map
      (fun r => (r.updatedBy, r.isLive)) = [("b", true)] := by decide +kernel
  obtain ⟨a, only_a, by_a⟩ := List.map_eq_singleton_iff.mp parsed_a
  obtain ⟨b, only_b, by_b⟩ := List.map_eq_singleton_iff.mp parsed_b
  simp only [Prod.mk.injEq] at by_a by_b
  have left : pushed "p" [.push "p" "a" [note 5] 10, .push "p" "b" [note 5] 10] = [a, b] := by
    simp [pushed, only_a, only_b]
  have right : pushed "p" [.push "p" "b" [note 5] 10, .push "p" "a" [note 5] 10] = [b, a] := by
    simp [pushed, only_a, only_b]
  have roomy : Roomy Store.empty.items "p" 2 :=
    ⟨by simp [Store.empty], by simp [Store.empty, count, liveCap]⟩
  refine (merge_any_order ?_ ?_ (.of_roomy ?_ ?_) (.of_roomy ?_ ?_)).1 _
  · rw [left, right]
    exact .swap ..
  · intro id x hx y hy _ writer _
    simp only [versions, left, getRecord, Store.empty, get_empty, Option.map_none,
      Option.toList_none, List.nil_append, List.mem_filter, List.mem_cons, List.not_mem_nil,
      or_false] at hx hy
    rcases hx.1 with rfl | rfl <;> rcases hy.1 with rfl | rfl <;> simp_all
  · simp [left, by_a, by_b]
  · rw [left]
    exact roomy
  · simp [right, by_a, by_b]
  · rw [right]
    exact roomy

end K2.Stash
