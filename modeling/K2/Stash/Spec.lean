import K2.Stash.Store

/-! # What the stash operations do

One inversion lemma per operation: `Takes` lists the ways one record of a batch
can go, `mergeBatch_induction` carries an invariant through the merge loop, and
`collectTombstones_spec` says which rows a collection may drop. Every later
result about the store goes through these.
-/

namespace K2.Stash

open KeyedTable

/-! ## One record of a batch -/

/-- How the merge loop goes on from `b` with one pushed record. -/
inductive Takes (person : String) (next : Int) (b : Batch) (p : Record × Value) : Batch → Prop where
  | superseded (ex : Record) (held : getRecord b.items person p.1.id = some ex)
      (kept : p.1.beats ex = false) :
      Takes person next b p { b with superseded := b.superseded + 1 }
  | capped (newer : ∀ ex, getRecord b.items person p.1.id = some ex → p.1.beats ex = true)
      (live : p.1.isLive = true)
      (dead : ∀ ex, getRecord b.items person p.1.id = some ex → ex.isLive = false)
      (full : liveCap ≤ b.live) :
      Takes person next b p { b with rejected := b.rejected ++ [⟨p.2, .capReached⟩] }
  | written (live : Int)
      (newer : ∀ ex, getRecord b.items person p.1.id = some ex → p.1.beats ex = true)
      (counted : live + ((getRecord b.items person p.1.id).filter Record.isLive).toList.length =
        b.live + if p.1.isLive then 1 else 0)
      (room : live ≤ b.live ∨ b.live < liveCap) :
      Takes person next b p
        { b with items := b.items.upsert ⟨person, p.1, next⟩, live, applied := b.applied + 1 }

theorem take_takes (person : String) (next : Int) (b : Batch) (p : Record × Value) :
    Takes person next b p (b.take person next p) := by
  obtain ⟨r, sent⟩ := p
  simp only [Batch.take]
  cases held : getRecord b.items person r.id with
  | none =>
      simp only [Option.any_none, Bool.false_eq_true, if_false, Bool.not_false, Bool.and_true]
      split
      · rename_i full
        simp only [Bool.and_eq_true, decide_eq_true_eq] at full
        exact .capped (by simp [held]) full.1 (by simp [held]) full.2
      · rename_i room
        simp only [Bool.and_eq_true, decide_eq_true_eq, not_and] at room
        cases live : r.isLive with
        | true => exact .written _ (by simp [held]) (by simp [held, live]) (.inr (not_le.mp (room live)))
        | false => exact .written _ (by simp [held]) (by simp [held, live]) (.inl le_rfl)
  | some ex =>
      simp only [Option.any_some]
      cases beaten : r.beats ex with
      | false =>
          simp only [Bool.not_false, if_true]
          exact .superseded ex held beaten
      | true =>
          have newer : ∀ x, getRecord b.items person r.id = some x → r.beats x = true := by
            intro x hx
            rw [held] at hx
            cases hx
            exact beaten
          simp only [Bool.not_true, Bool.false_eq_true, if_false]
          split
          · rename_i full
            simp only [Bool.and_eq_true, decide_eq_true_eq, Bool.not_eq_true'] at full
            refine .capped newer full.1.1 (fun x hx => ?_) full.2
            rw [held] at hx
            cases hx
            exact full.1.2
          · rename_i room
            simp only [Bool.and_eq_true, decide_eq_true_eq, Bool.not_eq_true', not_and] at room
            refine .written _ newer ?_ ?_
            · simp only [held, Option.filter]
              cases r.isLive <;> cases ex.isLive <;> simp
            · cases live : r.isLive with
              | false => exact .inl (by cases ex.isLive <;> simp only <;> omega)
              | true =>
                  cases was : ex.isLive with
                  | false => exact .inr (not_le.mp (room ⟨live, was⟩))
                  | true => exact .inl le_rfl

/-- The record under an id is live exactly when the row under its key is a live
    row of the person. -/
theorem getRecord_filter (items : Items) (person id : String) :
    ((getRecord items person id).filter Record.isLive).toList.length =
      ((items.get (person, id)).filter (Row.liveOf person)).toList.length := by
  cases held : items.get (person, id) with
  | none => simp [getRecord, held]
  | some r =>
      have owner : r.person = person := congrArg Prod.fst (key_of_get held)
      cases live : r.record.isLive <;> simp [getRecord, held, Row.liveOf, owner, live, Option.filter]

theorem takes_live {person : String} {next : Int} {b b' : Batch} {p : Record × Value}
    (takes : Takes person next b p b') (counted : b.live = liveCount b.items person) :
    b'.live = liveCount b'.items person := by
  cases takes with
  | superseded => exact counted
  | capped => exact counted
  | written live newer moves =>
      have moved := count_upsert b.items ⟨person, p.1, next⟩ (Row.liveOf person)
      have counts : Row.liveOf person ⟨person, p.1, next⟩ = p.1.isLive := by simp [Row.liveOf]
      rw [getRecord_filter] at moves
      rw [counts, Row.key] at moved
      simp only [liveCount] at counted ⊢
      split at moves <;> simp_all <;> omega

/-! ## The merge loop -/

/-- The records of a push in the order the merge loop takes them. -/
def batchOf (deviceId : String) (changes : List Value) (nowMs : Int) : List (Record × Value) :=
  tombstonesFirst (parsed deviceId changes nowMs)

theorem tombstonesFirst_perm (ps : List (Record × Value)) : (tombstonesFirst ps).Perm ps :=
  List.perm_append_comm.trans (List.filter_append_perm (·.1.isLive) ps)

theorem mem_tombstonesFirst {ps : List (Record × Value)} {p : Record × Value} :
    p ∈ tombstonesFirst ps ↔ p ∈ ps := (tombstonesFirst_perm ps).mem_iff

/-- An invariant of the merge loop: it holds when the loop starts and one record
    keeps it. -/
theorem mergeBatch_induction {P : Batch → Prop} (db : Store) (person deviceId : String)
    (changes : List Value) (nowMs : Int)
    (start : P ⟨db.items, liveCount db.items person, 0, 0, refused deviceId changes nowMs⟩)
    (step : ∀ b p b', p ∈ batchOf deviceId changes nowMs → P b →
      Takes person ((personSeq db.people person).1 + 1) b p b' → P b') :
    P (mergeBatch db person deviceId changes nowMs) :=
  List.foldlRecOn _ _ start fun b hb p member => step b p _ member hb (take_takes person _ b p)

/-- What the merge loop leaves under a key: the row that was there, or one of
    the person's written in this push. -/
theorem mergeBatch_get (db : Store) (person deviceId : String) (changes : List Value) (nowMs : Int)
    (k : String × String) :
    (mergeBatch db person deviceId changes nowMs).items.get k = db.items.get k ∨
      (k.1 = person ∧ ∃ r, (mergeBatch db person deviceId changes nowMs).items.get k = some r ∧
        r.seq = (personSeq db.people person).1 + 1) := by
  refine mergeBatch_induction (P := fun b => b.items.get k = db.items.get k ∨ (k.1 = person ∧
    ∃ r, b.items.get k = some r ∧ r.seq = (personSeq db.people person).1 + 1))
    db person deviceId changes nowMs (.inl rfl) ?_
  intro b p b' _ ih takes
  cases takes with
  | superseded => exact ih
  | capped => exact ih
  | written =>
      simp only [get_upsert]
      split
      · rename_i same
        exact .inr ⟨by rw [← same]; rfl, _, rfl, rfl⟩
      · exact ih

theorem mergeBatch_idle (db : Store) (person deviceId : String) (changes : List Value) (nowMs : Int)
    (idle : (mergeBatch db person deviceId changes nowMs).applied = 0) :
    (mergeBatch db person deviceId changes nowMs).items = db.items := by
  have kept := mergeBatch_induction (P := fun b => b.items = db.items ∨ 0 < b.applied)
    db person deviceId changes nowMs (.inl rfl) (by
      intro b p b' _ ih takes
      cases takes with
      | superseded => exact ih
      | capped => exact ih
      | written => exact .inr (Nat.succ_pos _))
  rcases kept with same | wrote
  · exact same
  · omega

theorem push_rejected (db : Store) (person deviceId : String) (changes : List Value) (nowMs : Int) :
    (push db person deviceId changes nowMs).2.rejected =
      (mergeBatch db person deviceId changes nowMs).rejected := by
  simp only [push]
  by_cases wrote : 0 < (mergeBatch db person deviceId changes nowMs).applied <;> simp [wrote]

/-! ## The collection -/

private theorem le_foldl_seq (rows : List Row) (start : Int) :
    start ≤ rows.foldl (fun m r => max m r.seq) start ∧
      ∀ r ∈ rows, r.seq ≤ rows.foldl (fun m r => max m r.seq) start := by
  induction rows generalizing start with
  | nil => exact ⟨le_rfl, by simp⟩
  | cons r rest ih =>
      obtain ⟨above, all⟩ := ih (max start r.seq)
      refine ⟨(le_max_left _ _).trans above, fun x hx => ?_⟩
      rcases List.mem_cons.mp hx with rfl | hx
      · exact (le_max_right _ _).trans above
      · exact all x hx

private theorem foldl_seq_le (rows : List Row) (start bound : Int) (low : start ≤ bound)
    (all : ∀ r ∈ rows, r.seq ≤ bound) : rows.foldl (fun m r => max m r.seq) start ≤ bound := by
  induction rows generalizing start with
  | nil => exact low
  | cons r rest ih =>
      exact ih _ (max_le low (all r (by simp))) fun x hx => all x (List.mem_cons_of_mem _ hx)

theorem le_maxSeq {rows : List Row} {r : Row} (member : r ∈ rows) : r.seq ≤ maxSeq rows := by
  cases top : (rows.map (·.seq)).max? with
  | none => simp_all
  | some m =>
      rw [maxSeq, top]
      exact (List.max?_eq_some_iff.mp top).2 _ (List.mem_map_of_mem member)

theorem maxSeq_le {rows : List Row} {bound : Int} (low : 0 ≤ bound)
    (all : ∀ r ∈ rows, r.seq ≤ bound) : maxSeq rows ≤ bound := by
  cases top : (rows.map (·.seq)).max? with
  | none => rw [maxSeq, top]; exact low
  | some m =>
      rw [maxSeq, top]
      obtain ⟨r, hr, rfl⟩ := List.mem_map.mp (List.max?_eq_some_iff.mp top).1
      exact all r hr

theorem mem_oldestTombstones {items : Items} {person : String} {excess : Nat} {r : Row}
    (member : r ∈ oldestTombstones items person excess) :
    r ∈ items.rows ∧ r.tombstoneOf person = true := by
  have := List.mem_of_mem_take member
  rw [(List.perm_insertionSort _ _).mem_iff] at this
  exact List.mem_filter.mp this

/-- A collection only drops tombstones of the person, none newer than the floor
    it asks for; and it asks for no floor above every row of theirs. -/
structure CollectSpec (items : Items) (person : String) (answer : Items × Int) : Prop where
  sub : ∀ r ∈ answer.1.rows, r ∈ items.rows
  dropped : ∀ r ∈ items.rows, r ∉ answer.1.rows → r.tombstoneOf person = true ∧ r.seq ≤ answer.2
  bound : ∀ top, 0 ≤ top → (∀ r ∈ items.rows, r.ofPerson person = true → r.seq ≤ top) →
    answer.2 ≤ top

theorem collectTombstones_spec (items : Items) (person : String) (nowMs : Int) :
    CollectSpec items person (collectTombstones items person nowMs) := by
  have aged_mine : ∀ r : Row, r.agedOut person (nowMs - tombstoneKeepMs) = true →
      r.tombstoneOf person = true := fun r aged => by
    simp only [Row.agedOut, Bool.and_eq_true] at aged
    exact aged.1
  have mine : ∀ r : Row, r.tombstoneOf person = true → r.ofPerson person = true := fun r h => by
    simp only [Row.tombstoneOf, Bool.and_eq_true] at h
    exact h.1
  have aged_dropped : ∀ r ∈ items.rows,
      r ∉ (items.deleteWhere (Row.agedOut person (nowMs - tombstoneKeepMs))).rows →
      r ∈ items.rows.filter (Row.agedOut person (nowMs - tombstoneKeepMs)) := by
    intro r hr gone
    rw [mem_deleteWhere] at gone
    exact List.mem_filter.mpr ⟨hr, by simpa [hr] using gone⟩
  simp only [collectTombstones]
  split
  · refine ⟨fun r hr => ?_, fun r hr gone => ?_, fun top low all => ?_⟩
    · exact ((mem_deleteWhere _ _ r).mp ((mem_deleteWhere _ _ r).mp hr).1).1
    · by_cases kept : r ∈ (items.deleteWhere (Row.agedOut person (nowMs - tombstoneKeepMs))).rows
      · rw [mem_deleteWhere] at gone
        have listed := by simpa only [kept, true_and, decide_eq_false_iff_not, not_not] using gone
        obtain ⟨x, hx, same⟩ := List.mem_map.mp listed
        have := (items.deleteWhere _).eq_of_key (mem_oldestTombstones hx).1 kept same
        subst this
        exact ⟨(mem_oldestTombstones hx).2, (le_foldl_seq _ _).2 _ hx⟩
      · have := aged_dropped r hr kept
        exact ⟨aged_mine r (List.mem_filter.mp this).2, (le_maxSeq this).trans (le_foldl_seq _ _).1⟩
    · refine foldl_seq_le _ _ _ (maxSeq_le low fun r hr => ?_) fun r hr => ?_
      · obtain ⟨hr, aged⟩ := List.mem_filter.mp hr
        exact all r hr (mine r (aged_mine r aged))
      · obtain ⟨hr, dead⟩ := mem_oldestTombstones hr
        exact all r ((mem_deleteWhere _ _ r).mp hr).1 (mine r dead)
  · refine ⟨fun r hr => ((mem_deleteWhere _ _ r).mp hr).1, fun r hr gone => ?_, fun top low all => ?_⟩
    · have := aged_dropped r hr gone
      exact ⟨aged_mine r (List.mem_filter.mp this).2, le_maxSeq this⟩
    · refine maxSeq_le low fun r hr => ?_
      obtain ⟨hr, aged⟩ := List.mem_filter.mp hr
      exact all r hr (mine r (aged_mine r aged))

/-- A collection leaves a stash of live records within the cap as it is. -/
theorem collectTombstones_of_live (items : Items) (person : String) (nowMs : Int)
    (live : ∀ r ∈ items.rows, r.person = person → r.record.isLive = true)
    (few : items.count (Row.ofPerson person) ≤ maxRows) :
    (collectTombstones items person nowMs).1 = items := by
  have kept : items.deleteWhere (Row.agedOut person (nowMs - tombstoneKeepMs)) = items := by
    refine KeyedTable.ext (List.filter_eq_self.mpr fun r hr => ?_)
    by_cases mine : r.person = person
    · simp [Row.agedOut, Row.tombstoneOf, live r hr mine]
    · simp [Row.agedOut, Row.tombstoneOf, mine]
  simp only [collectTombstones, kept, not_lt.mpr few, if_false]

/-! ## Other people -/

/-- Tables that hold the same rows of a person count them alike. -/
theorem count_of_rows {old new : Items} {person : String}
    (same : ∀ id, new.get (person, id) = old.get (person, id)) {p : Row → Bool}
    (mine : ∀ r, p r = true → r.person = person) : new.count p = old.count p :=
  count_eq_of_get fun r chosen => by
    rw [Row.key, mine r chosen]
    exact same r.record.id

/-- A push for one person leaves every other person's rows and cursor as they
    were. -/
theorem push_other (db : Store) (person deviceId : String) (changes : List Value) (nowMs : Int)
    {other : String} (different : other ≠ person) :
    (∀ id, (push db person deviceId changes nowMs).1.items.get (other, id) = db.items.get (other, id)) ∧
      personSeq (push db person deviceId changes nowMs).1.people other = personSeq db.people other := by
  have merged : ∀ id, (mergeBatch db person deviceId changes nowMs).items.get (other, id) =
      db.items.get (other, id) := fun id => by
    rcases mergeBatch_get db person deviceId changes nowMs (other, id) with same | ⟨mine, -⟩
    · exact same
    · exact absurd mine different
  simp only [push]
  split
  · refine ⟨fun id => ?_, personSeq_upsert_of_ne _ _ _ different⟩
    have spec := collectTombstones_spec (mergeBatch db person deviceId changes nowMs).items person nowMs
    rcases get_of_subset spec.sub (other, id) with same | ⟨-, r, held, gone⟩
    · exact same.trans (merged id)
    · have dead := (spec.dropped r (mem_of_get held) gone).1
      have owner : r.person = other := congrArg Prod.fst (key_of_get held)
      simp only [Row.tombstoneOf, Bool.and_eq_true, beq_iff_eq] at dead
      exact absurd (owner.symm.trans dead.1) different
  · exact ⟨merged, rfl⟩

end K2.Stash
