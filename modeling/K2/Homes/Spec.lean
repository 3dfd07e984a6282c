import K2.Homes.Store

/-! # What the Homes operations do

One inversion lemma per operation, as for any store: `Takes` lists the ways one
item of a batch can go, `mergeBatch_induction` carries an invariant through the
merge loop, and `collect_spec` says which rows a collection may drop.
-/

namespace K2.Homes

open KeyedTable

/-! ## What a tombstone keeps -/

namespace Item

variable (i : Item) (existing : Option Item)

@[simp] theorem keepKnown_key : (i.keepKnown existing).key = i.key := by
  cases existing with
  | none => rfl
  | some ex => simp only [keepKnown]; split <;> rfl

@[simp] theorem keepKnown_deleted : (i.keepKnown existing).deleted = i.deleted := by
  cases existing with
  | none => rfl
  | some ex => simp only [keepKnown]; split <;> rfl

@[simp] theorem keepKnown_stamp : (i.keepKnown existing).stamp = i.stamp := by
  cases existing with
  | none => rfl
  | some ex => simp only [keepKnown]; split <;> rfl

@[simp] theorem keepKnown_mergedInto : (i.keepKnown existing).mergedInto = i.mergedInto := by
  cases existing with
  | none => rfl
  | some ex => simp only [keepKnown]; split <;> rfl

theorem keepKnown_of_live (live : i.deleted = false) : i.keepKnown existing = i := by
  cases existing with
  | none => rfl
  | some ex => simp [keepKnown, live]

end Item

/-! ## One item of a batch -/

/-- Is there a live Home of the person besides this one? -/
def AnotherHome (items : Items) (person homeId : String) : Prop :=
  ∃ r ∈ items.rows, r.liveHomeOf person = true ∧ r.item.homeId ≠ homeId

theorem liveHomeCountExcept_eq_zero {items : Items} {person homeId : String} :
    liveHomeCountExcept items person homeId = 0 ↔ ¬ AnotherHome items person homeId := by
  simp [liveHomeCountExcept, count, List.countP_eq_zero, AnotherHome]

/-- How the merge loop goes on from `b` with one pushed item. -/
inductive Takes (person : String) (next : Int) (b : Batch) (i : Item) : Batch → Prop where
  | superseded (ex : Item) (held : getItem b.items person i.key = some ex)
      (kept : i.beats ex = false) :
      Takes person next b i { b with superseded := b.superseded + 1 }
  | lastHome (ex : Item) (held : getItem b.items person i.key = some ex)
      (newer : i.beats ex = true) (live : ex.deleted = false)
      (home : i.kind = .home) (deleted : i.deleted = true)
      (last : ¬ AnotherHome b.items person i.homeId) :
      Takes person next b i { b with rejected := b.rejected ++ [⟨i.toJson, .lastHome⟩] }
  | written (newer : ∀ ex, getItem b.items person i.key = some ex → i.beats ex = true)
      (another : ∀ ex, getItem b.items person i.key = some ex → ex.deleted = false →
        i.kind = .home → i.deleted = true → AnotherHome b.items person i.homeId) :
      Takes person next b i
        { b with
          items := b.items.upsert ⟨person, i.keepKnown (getItem b.items person i.key), next⟩
          applied := b.applied + 1 }

theorem take_takes (person : String) (next : Int) (b : Batch) (i : Item) :
    Takes person next b i (b.take person next i) := by
  simp only [Batch.take]
  cases held : getItem b.items person i.key with
  | none =>
      simp only [Option.any_none, Bool.false_eq_true, Bool.and_false, Bool.false_and, if_false]
      rw [← held]
      exact .written (by simp [held]) (by simp [held])
  | some ex =>
      simp only [Option.any_some]
      cases beaten : i.beats ex with
      | false => exact .superseded ex held beaten
      | true =>
          simp only [Bool.not_true, Bool.false_eq_true, if_false]
          split
          · rename_i last
            simp only [Bool.and_eq_true, beq_iff_eq, Bool.not_eq_true', liveHomeCountExcept_eq_zero]
              at last
            exact .lastHome ex held beaten last.1.2 last.1.1.1 last.1.1.2 last.2
          · rename_i room
            simp only [Bool.and_eq_true, beq_iff_eq, Bool.not_eq_true', liveHomeCountExcept_eq_zero,
              not_and, not_not] at room
            rw [← held]
            refine .written (fun x hx => ?_) fun x hx live home deleted => ?_
            · rw [held] at hx
              cases hx
              exact beaten
            · rw [held] at hx
              cases hx
              exact room ⟨⟨home, deleted⟩, live⟩

/-! ## The merge loop -/

/-- The items of a push in the order the merge loop takes them. -/
def batchOf (deviceId : String) (changes : List Value) (nowMs : Int) : List Item :=
  liveFirst (parsed deviceId changes nowMs)

/-- An invariant of the merge loop: it holds when the loop starts and one item
    keeps it. -/
theorem mergeBatch_induction {P : Batch → Prop} (db : Store) (person deviceId : String)
    (changes : List Value) (nowMs : Int)
    (start : P ⟨db.items, 0, 0, refused deviceId changes nowMs⟩)
    (step : ∀ b i b', i ∈ batchOf deviceId changes nowMs → P b →
      Takes person ((personSeq db.people person).1 + 1) b i b' → P b') :
    P (mergeBatch db person deviceId changes nowMs) :=
  List.foldlRecOn _ _ start fun b hb i member => step b i _ member hb (take_takes person _ b i)

/-- What the merge loop leaves under a key: the row that was there, or one of
    the person's written in this push. -/
theorem mergeBatch_get (db : Store) (person deviceId : String) (changes : List Value) (nowMs : Int)
    (k : String × ItemKey) :
    (mergeBatch db person deviceId changes nowMs).items.get k = db.items.get k ∨
      (k.1 = person ∧ ∃ r, (mergeBatch db person deviceId changes nowMs).items.get k = some r ∧
        r.seq = (personSeq db.people person).1 + 1) := by
  refine mergeBatch_induction (P := fun b => b.items.get k = db.items.get k ∨ (k.1 = person ∧
    ∃ r, b.items.get k = some r ∧ r.seq = (personSeq db.people person).1 + 1))
    db person deviceId changes nowMs (.inl rfl) ?_
  intro b i b' _ ih takes
  cases takes with
  | superseded => exact ih
  | lastHome => exact ih
  | written =>
      simp only [get_upsert]
      split
      · rename_i same
        exact .inr ⟨by rw [← same]; rfl, _, rfl, rfl⟩
      · exact ih

theorem mergeBatch_idle (db : Store) (person deviceId : String) (changes : List Value) (nowMs : Int)
    (idle : (mergeBatch db person deviceId changes nowMs).applied = 0) :
    (mergeBatch db person deviceId changes nowMs).items = db.items := by
  have kept := mergeBatch_induction (P := fun b => b.items = db.items ∨ 0 < b.applied)
    db person deviceId changes nowMs (.inl rfl) (by
      intro b i b' _ ih takes
      cases takes with
      | superseded => exact ih
      | lastHome => exact ih
      | written => exact .inr (Nat.succ_pos _))
  rcases kept with same | wrote
  · exact same
  · omega

/-! ## The collection -/

/-- A collection only drops tombstones of the person that are no redirects, none
    newer than the floor it leaves; and it raises the floor above no row of
    theirs. -/
structure CollectSpec (items : Items) (person : String) (floor : Int) (answer : Items × Int) :
    Prop where
  sub : ∀ r ∈ answer.1.rows, r ∈ items.rows
  dropped : ∀ r ∈ items.rows, r ∉ answer.1.rows →
    r.person = person ∧ r.item.deleted = true ∧ r.item.mergedInto = none ∧ r.seq ≤ answer.2
  raises : floor ≤ answer.2
  bound : ∀ top, floor ≤ top → (∀ r ∈ items.rows, r.person = person → r.seq ≤ top) → answer.2 ≤ top

theorem collect_spec (items : Items) (person : String) (floor nowMs : Int) :
    CollectSpec items person floor (collect items person floor nowMs) := by
  simp only [collect]
  cases top : ((items.rows.filter (Row.purged person (nowMs - tombstoneKeepMs))).map (·.seq)).max? with
  | none => exact ⟨fun r hr => hr, fun r hr gone => absurd hr gone, le_rfl, fun top low _ => low⟩
  | some m =>
      obtain ⟨reached, above⟩ := List.max?_eq_some_iff.mp top
      refine ⟨fun r hr => ((mem_deleteWhere _ _ r).mp hr).1, fun r hr gone => ?_, le_max_left _ _,
        fun bound low all => ?_⟩
      · rw [mem_deleteWhere] at gone
        have chosen : r.purged person (nowMs - tombstoneKeepMs) = true := by simpa [hr] using gone
        have below := above r.seq (List.mem_map_of_mem (List.mem_filter.mpr ⟨hr, chosen⟩))
        simp only [Row.purged, Bool.and_eq_true, beq_iff_eq, Option.isNone_iff_eq_none] at chosen
        exact ⟨chosen.1.1.1, chosen.1.1.2, chosen.1.2, below.trans (le_max_right _ _)⟩
      · obtain ⟨r, member, rfl⟩ := List.mem_map.mp reached
        obtain ⟨hr, chosen⟩ := List.mem_filter.mp member
        simp only [Row.purged, Bool.and_eq_true, beq_iff_eq] at chosen
        exact max_le low (all r hr chosen.1.1.1)

/-! ## Other people -/

/-- A push for one person leaves every other person's rows and cursor as they
    were. -/
theorem push_other (db : Store) (person deviceId : String) (changes : List Value) (nowMs : Int)
    {other : String} (different : other ≠ person) :
    (∀ k, (push db person deviceId changes nowMs).1.items.get (other, k) = db.items.get (other, k)) ∧
      personSeq (push db person deviceId changes nowMs).1.people other = personSeq db.people other := by
  have merged : ∀ k, (mergeBatch db person deviceId changes nowMs).items.get (other, k) =
      db.items.get (other, k) := fun k => by
    rcases mergeBatch_get db person deviceId changes nowMs (other, k) with same | ⟨mine, -⟩
    · exact same
    · exact absurd mine different
  simp only [push]
  split
  · refine ⟨fun k => ?_, personSeq_upsert_of_ne _ _ _ different⟩
    have spec := collect_spec (mergeBatch db person deviceId changes nowMs).items person
      (personSeq db.people person).2 nowMs
    rcases get_of_subset spec.sub (other, k) with same | ⟨-, r, held, gone⟩
    · exact same.trans (merged k)
    · have owner : r.person = other := congrArg Prod.fst (key_of_get held)
      exact absurd (owner.symm.trans (spec.dropped r (mem_of_get held) gone).1) different
  · exact ⟨merged, rfl⟩

end K2.Homes
