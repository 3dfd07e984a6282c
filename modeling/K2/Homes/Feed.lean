import K2.Homes.Spec
import K2.Lib.Feed

/-! # The Homes store over whole runs

One person's rows are a feed with a tombstone floor: a push is one step of it,
and a mirror that applies a pull catches up with it. Through every push a live
Home stays.
-/

namespace K2.Homes

open KeyedTable

/-- What a row shows a reader. -/
def Row.entry (r : Row) : FeedEntry Item := ⟨if r.item.deleted then none else some r.item, r.seq⟩

/-- A person's rows, cursor and floor, as a feed keyed by item. -/
def feed (db : Store) (person : String) : Feed ItemKey Item :=
  .ofTable db.items (person, ·) Row.entry (personSeq db.people person).1 (personSeq db.people person).2

/-- A person's live items by key. -/
def liveSet (db : Store) (person : String) : ItemKey → Option Item := (feed db person).live

/-! ## Every push is a step of the feed -/

/-- A person's feed is sound, and its cursor has counted up from 0. -/
structure Counted (db : Store) (person : String) : Prop where
  sound : (feed db person).Sound
  cursor : 0 ≤ (feed db person).cursor

theorem counted_empty (person : String) : Counted Store.empty person :=
  ⟨⟨fun k e found => by simp [feed, Feed.ofTable, Store.empty] at found, le_rfl⟩, le_rfl⟩

/-- After a push the person's feed is the old one, or one write further with a
    collection. -/
theorem push_self_step {db : Store} {person : String} (counted : Counted db person)
    (deviceId : String) (changes : List Value) (nowMs : Int) :
    Feed.Step (feed db person) (feed (push db person deviceId changes nowMs).1 person) := by
  by_cases wrote : 0 < (mergeBatch db person deviceId changes nowMs).applied
  · have stamps : Feed.Stamps db.items (mergeBatch db person deviceId changes nowMs).items
        (person, ·) Row.entry ((personSeq db.people person).1 + 1) := fun k => by
      rcases mergeBatch_get db person deviceId changes nowMs (person, k) with same | ⟨-, written⟩
      · exact .inl same
      · exact .inr written
    have low := stamps.seqAtMost counted.sound.seqAtMost (by omega)
    have floor_le : (personSeq db.people person).2 ≤ (personSeq db.people person).1 :=
      counted.sound.floor_le
    have spec := collect_spec (mergeBatch db person deviceId changes nowMs).items person
      (personSeq db.people person).2 nowMs
    have bound := spec.bound ((personSeq db.people person).1 + 1) (by omega) fun r member mine => by
      have held := get_of_mem member
      rw [Row.key, mine] at held
      exact low r.item.key r held
    have after : feed (push db person deviceId changes nowMs).1 person = .ofTable
        (collect (mergeBatch db person deviceId changes nowMs).items person
          (personSeq db.people person).2 nowMs).1
        (person, ·) Row.entry ((personSeq db.people person).1 + 1) (max (personSeq db.people person).2
          (collect (mergeBatch db person deviceId changes nowMs).items person
            (personSeq db.people person).2 nowMs).2) := by
      simp [feed, push, wrote, max_eq_right spec.raises]
    rw [after]
    refine Feed.step_ofTable counted.sound stamps spec.sub (fun k r held dropped => ?_) bound
    obtain ⟨-, dead, -, below⟩ := spec.dropped r (mem_of_get held) dropped
    exact ⟨by simp [Row.entry, dead], below⟩
  · have idle : (mergeBatch db person deviceId changes nowMs).applied = 0 := by omega
    have same : feed (push db person deviceId changes nowMs).1 person = feed db person := by
      simp [feed, push, idle, mergeBatch_idle db person deviceId changes nowMs idle]
    rw [same]
    exact .idle

theorem call_step {db : Store} {person : String} (counted : Counted db person) (call : Call) :
    Feed.Step (feed db person) (feed (call.apply db) person) := by
  cases call with
  | push pusher deviceId changes nowMs =>
      by_cases mine : person = pusher
      · subst mine
        exact push_self_step counted deviceId changes nowMs
      · obtain ⟨rows, cursor⟩ := push_other db pusher deviceId changes nowMs mine
        have same : feed (Call.apply db (.push pusher deviceId changes nowMs)) person =
            feed db person := by
          simp only [feed, Feed.ofTable, Call.apply, rows, cursor]
        rw [same]
        exact .idle
  | pull reader since deviceId nowMs => exact .idle

theorem call_counted {db : Store} {person : String} (counted : Counted db person) (call : Call) :
    Counted (call.apply db) person :=
  ⟨(call_step counted call).sound counted.sound, counted.cursor.trans (call_step counted call).cursor_le⟩

theorem run_counted (calls : List Call) (person : String) : Counted (run .empty calls) person :=
  List.foldlRecOn calls Call.apply (motive := (Counted · person)) (counted_empty person)
    fun _ counted call _ => call_counted counted call

theorem run_reaches {db : Store} {person : String} (counted : Counted db person)
    (calls : List Call) : Feed.Reaches (feed db person) (feed (run db calls) person) := by
  induction calls generalizing db with
  | nil => exact .refl
  | cons call rest ih => exact .head (call_step counted call) (ih (call_counted counted call))

/-! ## Mirrors -/

/-- An item as a mirror takes it: kept under its key when live, dropped when
    not. -/
def Item.change (i : Item) : ItemKey × Option Item := (i.key, if i.deleted then none else some i)

/-- A mirror after it took in a pull: replaced when the pull is full, else
    patched. -/
def mirrorPull (mirror : ItemKey → Option Item) (p : Pull) : ItemKey → Option Item :=
  Feed.patch (if p.full then fun _ => none else mirror) (p.changes.map Item.change)

theorem pull_answers (db : Store) (person : String) {since : Int} (counted : 0 ≤ since)
    (deviceId : Option String) (nowMs : Int) :
    (pull db person (some since) deviceId nowMs).2.full = decide ((feed db person).full since) ∧
      (feed db person).Answers since
        ((pull db person (some since) deviceId nowMs).2.changes.map Item.change) := by
  have full : (pull db person (some since) deviceId nowMs).2.full =
      decide ((feed db person).full since) := by
    simp [pull, feed, Feed.ofTable, Feed.full, counted]
  refine ⟨full, ?_⟩
  simp only [pull] at full ⊢
  rw [List.map_map]
  refine Feed.answers_ofTable (fun r k placed => (Prod.mk.inj placed).2) fun r => ?_
  change _ ↔ r ∈ db.items.rows ∧ r.key = (person, r.item.key) ∧
    if (feed db person).full since then r.entry.value.isSome else since < r.seq
  simp only [full]
  by_cases all : (feed db person).full since <;>
    simp [all, (List.perm_insertionSort _ _).mem_iff, Row.key, Row.liveOf, Row.entry]

theorem mirrorPull_catchUp (db : Store) (person : String) {since : Int} (counted : 0 ≤ since)
    (deviceId : Option String) (nowMs : Int) (mirror : ItemKey → Option Item) :
    mirrorPull mirror (pull db person (some since) deviceId nowMs).2 =
      (feed db person).catchUp since mirror := by
  obtain ⟨full, answers⟩ := pull_answers db person counted deviceId nowMs
  rw [← Feed.patch_catchUp answers, mirrorPull, full]
  simp only [decide_eq_true_eq]

/-- A mirror taken at some pull, that takes in a pull from that cursor any
    number of calls later, holds the live items of then. -/
theorem mirrorPull_live {taken : Store} {person : String} (counted : Counted taken person)
    (after : List Call) (later : Option String) (answered : Int) :
    mirrorPull (liveSet taken person) (pull (run taken after) person
        (some (personSeq taken.people person).1) later answered).2 =
      liveSet (run taken after) person :=
  (mirrorPull_catchUp _ person counted.cursor later answered _).trans
    (Feed.catchUp_live (run_reaches counted after) counted.sound)

/-! ## A live Home stays -/

/-- Does the person have a live Home? -/
def HasHome (items : Items) (person : String) : Prop := ∃ r ∈ items.rows, r.liveHomeOf person = true

theorem takes_hasHome {person : String} {next : Int} {b b' : Batch} {i : Item}
    (takes : Takes person next b i b') (home : HasHome b.items person) : HasHome b'.items person := by
  cases takes with
  | superseded => exact home
  | lastHome => exact home
  | written newer another =>
      obtain ⟨r, member, live⟩ := home
      by_cases replaced : r.key = (person, i.key)
      · -- The live Home itself is written over: by a live Home, or by a
        -- tombstone, and then there is another one.
        have same : r.item.key = i.key := congrArg Prod.snd replaced
        have kind : i.kind = .home := by
          have : r.item.kind = i.kind := congrArg Prod.fst same
          simp only [Row.liveHomeOf, Bool.and_eq_true, beq_iff_eq] at live
          exact this.symm.trans live.2
        cases dead : i.deleted with
        | false =>
            refine ⟨_, (mem_upsert _ _ _).mpr (.inl rfl), ?_⟩
            simp [Row.liveHomeOf, Row.liveOf, Item.keepKnown_of_live i _ dead, dead, kind]
        | true =>
            have held : getItem b.items person i.key = some r.item := by
              rw [getItem, ← replaced, get_of_mem member, Option.map_some]
            have alive : r.item.deleted = false := by
              simp only [Row.liveHomeOf, Row.liveOf, Bool.and_eq_true, Bool.not_eq_true'] at live
              exact live.1.2
            obtain ⟨x, hx, liveHome, different⟩ := another r.item held alive kind dead
            refine ⟨x, (mem_upsert _ _ _).mpr (.inr ⟨hx, fun clash => different ?_⟩), liveHome⟩
            simp only [Row.key, Item.keepKnown_key, Prod.mk.injEq] at clash
            exact congrArg (·.2.1) clash.2
      · refine ⟨r, (mem_upsert _ _ _).mpr (.inr ⟨member, ?_⟩), live⟩
        simpa [Row.key] using replaced

theorem push_hasHome {db : Store} {person : String} (home : HasHome db.items person)
    (deviceId : String) (changes : List Value) (nowMs : Int) :
    HasHome (push db person deviceId changes nowMs).1.items person := by
  obtain ⟨r, member, live⟩ := mergeBatch_induction (P := fun b => HasHome b.items person)
    db person deviceId changes nowMs home fun b i b' _ ih takes => takes_hasHome takes ih
  simp only [push]
  split
  · refine ⟨r, ?_, live⟩
    by_contra gone
    have dead := ((collect_spec _ person _ nowMs).dropped r member gone).2.1
    simp [Row.liveHomeOf, Row.liveOf, dead] at live
  · exact ⟨r, member, live⟩

theorem call_hasHome {db : Store} {person : String} (home : HasHome db.items person) (call : Call) :
    HasHome (call.apply db).items person := by
  cases call with
  | push pusher deviceId changes nowMs =>
      by_cases mine : person = pusher
      · subst mine
        exact push_hasHome home deviceId changes nowMs
      · obtain ⟨r, member, live⟩ := home
        have owner : r.person = person := by
          simp only [Row.liveHomeOf, Row.liveOf, Bool.and_eq_true, beq_iff_eq] at live
          exact live.1.1
        have held := (push_other db pusher deviceId changes nowMs mine).1 r.item.key
        rw [← owner, show (r.person, r.item.key) = r.key from rfl, get_of_mem member] at held
        exact ⟨r, mem_of_get held, live⟩
  | pull => exact home

/-! ## What every push keeps -/

/-- What a push keeps of a store, and what later pulls make of a mirror of it. -/
structure Keeps (db : Store) (person deviceId : String) (changes : List Value) (nowMs : Int) :
    Prop where
  home : ∀ p, HasHome db.items p → HasHome (push db person deviceId changes nowMs).1.items p
  seq_le : ∀ row ∈ (push db person deviceId changes nowMs).1.items.rows,
    row.seq ≤ (personSeq (push db person deviceId changes nowMs).1.people row.person).1
  floor_le : ∀ p, (personSeq (push db person deviceId changes nowMs).1.people p).2 ≤
    (personSeq (push db person deviceId changes nowMs).1.people p).1
  cursor_mono : ∀ p, (personSeq db.people p).1 ≤
    (personSeq (push db person deviceId changes nowMs).1.people p).1
  floor_mono : ∀ p, (personSeq db.people p).2 ≤
    (personSeq (push db person deviceId changes nowMs).1.people p).2
  /-- A redirect the merge loop leaves is there after the collection. -/
  redirect_kept : ∀ row ∈ (mergeBatch db person deviceId changes nowMs).items.rows,
    row.item.mergedInto.isSome = true → row ∈ (push db person deviceId changes nowMs).1.items.rows
  /-- A mirror taken of the store is brought up to date by a pull from its cursor
      any number of calls later. -/
  mirror : ∀ p (after : List Call) (later : Option String) (answered : Int),
    mirrorPull (liveSet db p)
        (pull (run db after) p (some (personSeq db.people p).1) later answered).2 =
      liveSet (run db after) p

/-- Every push of every run keeps a live Home, the cursors and floors, the
    redirects, and the mirrors taken before it. -/
theorem pushes_keep (calls : List Call) (person deviceId : String) (changes : List Value)
    (nowMs : Int) : Keeps (run .empty calls) person deviceId changes nowMs := by
  have counted := run_counted calls
  have next := fun p => call_counted (counted p) (.push person deviceId changes nowMs)
  have step := fun p => call_step (counted p) (.push person deviceId changes nowMs)
  refine ⟨fun p home => call_hasHome home (.push person deviceId changes nowMs),
    fun row member => ?_, fun p => (next p).sound.floor_le, fun p => (step p).cursor_le,
    fun p => (step p).floor_le, fun row member redirect => ?_, fun p after later answered => ?_⟩
  · exact (next row.person).sound.seqAtMost row.item.key row (get_of_mem member)
  · by_cases wrote : 0 < (mergeBatch (run .empty calls) person deviceId changes nowMs).applied
    · simp only [push, wrote, if_true]
      by_contra gone
      have none_merged := ((collect_spec _ person _ nowMs).dropped row member gone).2.2.1
      simp [none_merged] at redirect
    · simpa only [push, wrote, if_false] using member
  · exact mirrorPull_live (counted p) after later answered

end K2.Homes
