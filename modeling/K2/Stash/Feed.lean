import K2.Lib.Feed
import K2.Stash.Spec

/-! # The stash as a change feed

One person's rows are a feed with a tombstone floor: a push is one step of it,
and a mirror that applies a pull catches up with it.
-/

namespace K2.Stash

open KeyedTable

/-- What a row shows a reader. -/
def Row.entry (r : Row) : FeedEntry Record := ⟨if r.record.isLive then some r.record else none, r.seq⟩

/-- A person's rows, cursor and floor, as a feed keyed by record id. -/
def feed (db : Store) (person : String) : Feed String Record :=
  .ofTable db.items (person, ·) Row.entry (personSeq db.people person).1 (personSeq db.people person).2

/-- A person's live records by id. -/
def liveSet (db : Store) (person : String) : String → Option Record := (feed db person).live

/-! ## Every push is a step of the feed -/

/-- A person's feed is sound, and its cursor has counted up from 0. -/
structure Counted (db : Store) (person : String) : Prop where
  sound : (feed db person).Sound
  cursor : 0 ≤ (feed db person).cursor

theorem counted_empty (person : String) : Counted Store.empty person :=
  ⟨⟨fun k e found => by simp [feed, Feed.ofTable, Store.empty] at found, le_rfl⟩, le_rfl⟩

/-- After a push the person's feed is the old one, or one write further with a
    collection. -/
theorem push_self_step {db : Store} {person : String} (counted : Counted db person)
    (deviceId : String) (changes : List Value) (nowMs : Int) :
    Feed.Step (feed db person) (feed (push db person deviceId changes nowMs).1 person) := by
  by_cases wrote : 0 < (mergeBatch db person deviceId changes nowMs).applied
  · have stamps : Feed.Stamps db.items (mergeBatch db person deviceId changes nowMs).items
        (person, ·) Row.entry ((personSeq db.people person).1 + 1) := fun id => by
      rcases mergeBatch_get db person deviceId changes nowMs (person, id) with same | ⟨-, written⟩
      · exact .inl same
      · exact .inr written
    have low := stamps.seqAtMost counted.sound.seqAtMost (by omega)
    have spec := collectTombstones_spec (mergeBatch db person deviceId changes nowMs).items person nowMs
    have bound := spec.bound ((personSeq db.people person).1 + 1)
      (by have : 0 ≤ (personSeq db.people person).1 := counted.cursor; omega) fun r member mine => by
        have held := get_of_mem member
        rw [Row.key, show r.person = person by simpa [Row.ofPerson] using mine] at held
        exact low r.record.id r held
    have after : feed (push db person deviceId changes nowMs).1 person = .ofTable
        (collectTombstones (mergeBatch db person deviceId changes nowMs).items person nowMs).1
        (person, ·) Row.entry ((personSeq db.people person).1 + 1) (max (personSeq db.people person).2
          (collectTombstones (mergeBatch db person deviceId changes nowMs).items person nowMs).2) := by
      simp [feed, push, wrote]
    rw [after]
    refine Feed.step_ofTable counted.sound stamps spec.sub (fun id r held dropped => ?_) bound
    obtain ⟨dead, below⟩ := spec.dropped r (mem_of_get held) dropped
    simp only [Row.tombstoneOf, Bool.and_eq_true, Bool.not_eq_true'] at dead
    exact ⟨by simp [Row.entry, dead.2], below⟩
  · have idle : (mergeBatch db person deviceId changes nowMs).applied = 0 := by omega
    have same : feed (push db person deviceId changes nowMs).1 person = feed db person := by
      simp [feed, push, idle, mergeBatch_idle db person deviceId changes nowMs idle]
    rw [same]
    exact .idle

theorem push_other_feed (db : Store) (person deviceId : String) (changes : List Value) (nowMs : Int)
    {other : String} (different : other ≠ person) :
    feed (push db person deviceId changes nowMs).1 other = feed db other := by
  obtain ⟨rows, cursor⟩ := push_other db person deviceId changes nowMs different
  simp only [feed, Feed.ofTable, rows, cursor]

theorem call_step {db : Store} {person : String} (counted : Counted db person) (call : Call) :
    Feed.Step (feed db person) (feed (call.apply db) person) := by
  cases call with
  | push pusher deviceId changes nowMs =>
      by_cases mine : person = pusher
      · subst mine
        exact push_self_step counted deviceId changes nowMs
      · rw [show feed (Call.apply db (.push pusher deviceId changes nowMs)) person = feed db person
          from push_other_feed db pusher deviceId changes nowMs mine]
        exact .idle
  | pull reader since deviceId nowMs => exact .idle

theorem call_counted {db : Store} {person : String} (counted : Counted db person) (call : Call) :
    Counted (call.apply db) person :=
  ⟨(call_step counted call).sound counted.sound, counted.cursor.trans (call_step counted call).cursor_le⟩

theorem run_counted (calls : List Call) (person : String) : Counted (run .empty calls) person :=
  List.foldlRecOn calls Call.apply (motive := (Counted · person)) (counted_empty person)
    fun _ counted call _ => call_counted counted call

theorem run_reaches {db : Store} {person : String} (counted : Counted db person)
    (calls : List Call) : Feed.Reaches (feed db person) (feed (run db calls) person) := by
  induction calls generalizing db with
  | nil => exact .refl
  | cons call rest ih => exact .head (call_step counted call) (ih (call_counted counted call))

/-! ## Mirrors -/

/-- A record as a mirror takes it: kept under its id when live, dropped when
    not. -/
def Record.change (r : Record) : String × Option Record := (r.id, if r.isLive then some r else none)

/-- A device's mirror after it applied a pull. -/
def applyPull (mirror : String → Option Record) (p : Pull) : String → Option Record :=
  Feed.patch (if p.full then fun _ => none else mirror) (p.changes.map Record.change)

theorem pull_answers (db : Store) (person : String) {since : Int} (counted : 0 ≤ since)
    (deviceId : Option String) (nowMs : Int) :
    (pull db person (some since) deviceId nowMs).2.full = decide ((feed db person).full since) ∧
      (feed db person).Answers since
        ((pull db person (some since) deviceId nowMs).2.changes.map Record.change) := by
  have full : (pull db person (some since) deviceId nowMs).2.full =
      decide ((feed db person).full since) := by
    simp [pull, feed, Feed.ofTable, Feed.full, counted]
  refine ⟨full, ?_⟩
  simp only [pull] at full ⊢
  rw [List.map_map]
  refine Feed.answers_ofTable (fun r id placed => (Prod.mk.inj placed).2) fun r => ?_
  rw [(List.perm_insertionSort _ _).mem_iff]
  change _ ↔ r ∈ db.items.rows ∧ r.key = (person, r.record.id) ∧
    if (feed db person).full since then r.entry.value.isSome else since < r.seq
  simp only [full]
  by_cases all : (feed db person).full since <;>
    simp [all, Row.key, Row.liveOf, Row.ofPerson, Row.entry]

theorem applyPull_catchUp (db : Store) (person : String) {since : Int} (counted : 0 ≤ since)
    (deviceId : Option String) (nowMs : Int) (mirror : String → Option Record) :
    applyPull mirror (pull db person (some since) deviceId nowMs).2 =
      (feed db person).catchUp since mirror := by
  obtain ⟨full, answers⟩ := pull_answers db person counted deviceId nowMs
  rw [← Feed.patch_catchUp answers, applyPull, full]
  simp only [decide_eq_true_eq]

/-- A device that mirrored the live set at some pull, and applies a pull from
    that cursor any number of calls later, holds the live set of then. -/
theorem mirror_catches_up (before after : List Call) (person : String) (since : Option Int)
    (device later : Option String) (asked answered : Int) :
    let earlier := run .empty before
    let (taken, first) := pull earlier person since device asked
    let now := run taken after
    applyPull (liveSet earlier person) (pull now person (some first.cursor) later answered).2 =
      liveSet now person := by
  have counted := run_counted before person
  have pulled := call_counted counted (.pull person since device asked)
  exact (applyPull_catchUp _ person counted.cursor later answered _).trans
    (Feed.catchUp_live (run_reaches pulled after) pulled.sound)

end K2.Stash
