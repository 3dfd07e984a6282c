import K2.GardenData.HistoryPages
import K2.GardenData.RestoreRuns

/-! # What the history feed says

The value of a change is found at the next change of its key, or in the live entry.
Both are there: the reaper takes changes oldest first, and the trim blanks them oldest
first, so what a kept before-value leans on is kept with it.
-/

namespace K2.GardenData

/-! ## What the log keeps -/

/-- An entry is at least as new as every change of its key and has its own while an
    older one is kept; blanked changes are the oldest ones. -/
structure Logged (s : Store) : Prop where
  entry : ∀ c ∈ s.changes.rows, ∀ e, s.entries.get (c.space, c.key) = some e → c.rev ≤ e.rev ∧
    (c.rev < e.rev → ∃ c' ∈ s.changes.rows, c'.space = c.space ∧ c'.key = c.key ∧ c'.rev = e.rev)
  trimmed : ∀ c ∈ s.changes.rows, ∀ c' ∈ s.changes.rows, c.space = c'.space → c.rev ≤ c'.rev →
    c'.prevKind = none → c.prevKind = none

section Logged

variable {b : Backend} {s s' : Store} {space : Space} {moment : Moment} {ops : List Op} {who : String}
  {mark : Option RestoreMark} {planned : List Planned}

theorem Logged.write (logged : Logged s) (kept : Store.Kept s) (wrote : Wrote moment space who mark planned s s') :
    Logged s' := by
  constructor
  · intro c member e found
    have there := KeyedTable.mem_of_get found
    have own := KeyedTable.key_of_get found
    rcases Store.wrote_entry wrote there with ⟨p, listed, effective, rfl⟩ | old
    · -- the key is one the write changed: its new entry is above every change
      obtain ⟨here, key⟩ := Prod.mk.inj own
      have new := KeyedTable.mem_of_get (wrote.lands.change p listed effective)
      refine ⟨?_, fun _ => ⟨_, new, here, key, rfl⟩⟩
      rcases Store.wrote_change wrote member with ⟨p', -, -, rfl⟩ | older
      · exact le_rfl
      · have below := kept.change c older
        rw [← here] at below
        exact below.trans (Int.le_add_one le_rfl)
    · rcases Store.wrote_change wrote member with ⟨p, listed, effective, rfl⟩ | older
      · -- the change is new, so its entry is the write's
        have landed := wrote.lands.entry p listed effective
        cases found.symm.trans landed
        exact ⟨le_rfl, fun above => absurd above (lt_irrefl _)⟩
      · have found' : s.entries.get (c.space, c.key) = some e := own ▸ KeyedTable.get_of_mem old
        obtain ⟨le, above⟩ := logged.entry c older e found'
        refine ⟨le, fun lt => ?_⟩
        obtain ⟨c', there', same⟩ := above lt
        exact ⟨c', change_stays kept wrote there', same⟩
  · intro c member c' member' here le blank
    rcases Store.wrote_change wrote member' with ⟨p, -, -, rfl⟩ | old'
    · cases blank
    · rcases Store.wrote_change wrote member with ⟨p, -, -, rfl⟩ | old
      · have below := kept.change c' old'
        have le : s.headRev space + 1 ≤ c'.rev := le
        have here : space = c'.space := here
        rw [← here] at below
        omega
      · exact logged.trimmed c old c' old' here le blank

theorem Logged.reap (logged : Logged s) (now : Int)
    (ordered : ∀ c ∈ s.changes.rows, ∀ c' ∈ s.changes.rows, c.space = c'.space → c.rev ≤ c'.rev → c.time ≤ c'.time) :
    Logged (s.reap now).1 := by
  have rows : ∀ c, c ∈ (s.reap now).1.changes.rows ↔ c ∈ s.changes.rows ∧ ¬c.time < now - changeLogKeepSecs :=
    fun c => by simp [Store.reap]
  constructor
  · intro c member e found
    obtain ⟨there, young⟩ := (rows c).mp member
    have found' : s.entries.get (c.space, c.key) = some e := by
      have deleted : (s.reap now).1.entries = s.entries.deleteWhere (Store.dead now) := rfl
      rw [deleted, KeyedTable.get_deleteWhere] at found
      exact (Option.filter_eq_some_iff.mp found).1
    obtain ⟨le, above⟩ := logged.entry c there e found'
    refine ⟨le, fun lt => ?_⟩
    obtain ⟨c', there', here, key, rev⟩ := above lt
    have later := ordered c there c' there' here.symm (by omega)
    exact ⟨c', (rows c').mpr ⟨there', by omega⟩, here, key, rev⟩
  · exact fun c member c' member' => logged.trimmed c ((rows c).mp member).1 c' ((rows c').mp member').1

theorem Logged.trimSpace (logged : Logged s) (max : Int) (n : Nat) (full : Space × Int) :
    Logged (Store.trimSpace max (s, n) full).1 := by
  rw [Store.trimSpace]
  dsimp only
  split
  · exact logged
  next cut _ =>
    have rows : ∀ c, c ∈ (s.changes.updateWhere
        (fun c => c.space = full.1 && decide (c.rev ≤ cut) && c.prevKind.isSome) ChangeRow.clear fun _ => rfl).rows ↔
        ∃ old ∈ s.changes.rows, (if (old.space = full.1 && decide (old.rev ≤ cut) && old.prevKind.isSome) = true
          then old.clear else old) = c := fun c => KeyedTable.mem_updateWhere ..
    have same : ∀ c : ChangeRow, ∀ c', (if (c.space = full.1 && decide (c.rev ≤ cut) && c.prevKind.isSome) = true
        then c.clear else c) = c' → c'.space = c.space ∧ c'.key = c.key ∧ c'.rev = c.rev := by
      rintro c c' rfl
      split <;> exact ⟨rfl, rfl, rfl⟩
    constructor
    · intro c member e found
      obtain ⟨old, there, becomes⟩ := (rows c).mp member
      obtain ⟨here, key, rev⟩ := same old c becomes
      rw [here, key] at found ⊢
      rw [rev]
      obtain ⟨le, above⟩ := logged.entry old there e found
      refine ⟨le, fun lt => ?_⟩
      obtain ⟨later, there', here', key', rev'⟩ := above lt
      obtain ⟨same_space, same_key, same_rev⟩ := same later _ rfl
      exact ⟨_, (rows _).mpr ⟨later, there', rfl⟩, same_space.trans here', same_key.trans key', same_rev.trans rev'⟩
    · intro c member c' member' here le blank
      obtain ⟨old, there, becomes⟩ := (rows c).mp member
      obtain ⟨old', there', becomes'⟩ := (rows c').mp member'
      obtain ⟨space_eq, -, rev_eq⟩ := same old c becomes
      obtain ⟨space_eq', -, rev_eq'⟩ := same old' c' becomes'
      rw [space_eq, space_eq'] at here
      rw [rev_eq, rev_eq'] at le
      by_cases cut_old : (old.space = full.1 && decide (old.rev ≤ cut) && old.prevKind.isSome) = true
      · rw [if_pos cut_old] at becomes
        exact becomes ▸ rfl
      · rw [if_neg cut_old] at becomes
        subst becomes
        by_cases cut_old' : (old'.space = full.1 && decide (old'.rev ≤ cut) && old'.prevKind.isSome) = true
        · -- a newer change was blanked now, so this one was blank already
          simp only [Bool.and_eq_true, decide_eq_true_eq] at cut_old cut_old'
          by_contra known
          exact cut_old ⟨⟨here.trans cut_old'.1.1, le.trans cut_old'.1.2⟩, Option.isSome_iff_ne_none.mpr known⟩
        · rw [if_neg cut_old'] at becomes'
          subst becomes'
          exact logged.trimmed old there old' there' here le blank

theorem Logged.trim (logged : Logged s) (max now : Int) : Logged (s.trimHistory max now).1 := by
  have folded : ∀ (fulls : List (Space × Int)) (n : Nat), Logged (fulls.foldl (Store.trimSpace max) (s, n)).1 := by
    intro fulls
    induction fulls using List.reverseRecOn with
    | nil => exact fun n => logged
    | append_singleton fulls full ih =>
        intro n
        rw [List.foldl_append]
        exact (ih n).trimSpace max _ full
  obtain ⟨entry, trimmed⟩ := folded (s.overfull max) 0
  exact ⟨entry, trimmed⟩

/-- Of two kept changes of a space the older one is not younger in time. -/
theorem Recorded.at_le {past : Int → String → Option String} {time : Int → Int} {low : Int}
    (recorded : Recorded s space past time low) {c c' : ChangeRow} (member : c ∈ s.changes.rows)
    (member' : c' ∈ s.changes.rows) (here : c.space = space) (here' : c'.space = space) (le : c.rev ≤ c'.rev) :
    c.time ≤ c'.time := by
  have above := recorded.above c member here
  have positive := recorded.low_pos
  have below := recorded.kept.change c' member'
  rw [here'] at below
  rw [recorded.times c member here, recorded.times c' member' here']
  exact recorded.ordered c.rev c'.rev (by omega) le below

theorem ran_logged (run : Timeline) (forward : run.Forward) : Logged (Store.ran b run) := by
  induction run using List.reverseRecOn with
  | nil => exact ⟨fun c member => (nomatch (show c ∈ [] from member)), fun c member => (nomatch (show c ∈ [] from member))⟩
  | append_singleton run e ih =>
      obtain ⟨earlier, -⟩ := Timeline.forward_append forward
      have logged := ih earlier
      rw [ran_append]
      obtain ⟨now, step⟩ := e
      cases step with
      | write fileBytes target ops who indexed mark =>
          simp only [Store.historyStep]
          rcases writeWith_cases b (Store.ran b run) ⟨now, fileBytes⟩ target ops who indexed mark with
            ⟨e, refused⟩ | ⟨planned, plan, ⟨-, idle⟩ | ⟨-, s', wrote, answer⟩⟩
          · rw [refused]
            exact logged
          · rw [idle]
            exact logged
          · rw [answer]
            exact logged.write (ran_kept run) wrote
      | reap =>
          refine logged.reap now fun c member c' member' here le => ?_
          obtain ⟨past, time, trace⟩ := traced b c.space run earlier
          obtain ⟨low, recorded⟩ := trace.recorded
          exact recorded.at_le member member' rfl here.symm le
      | trim max => exact logged.trim max now

/-- A change is a delete where its rev left its key without a value. -/
theorem ran_deleted (run : Timeline) {c : ChangeRow} (member : c ∈ (Store.ran b run).changes.rows) :
    ∃ early, early <+: run ∧ (Store.ran b early).headRev c.space = c.rev ∧
      c.deleted = ((Store.ran b early).text c.space c.key).isNone := by
  induction run using List.reverseRecOn generalizing c with
  | nil => exact nomatch (show c ∈ [] from member)
  | append_singleton run e ih =>
      have older : ∀ old ∈ (Store.ran b run).changes.rows, old.space = c.space → old.key = c.key → old.rev = c.rev →
          old.deleted = c.deleted → ∃ early, early <+: run ++ [e] ∧ (Store.ran b early).headRev c.space = c.rev ∧
            c.deleted = ((Store.ran b early).text c.space c.key).isNone := by
        intro old there space key rev deleted
        obtain ⟨early, pre, head, dead⟩ := ih there
        rw [space] at head dead
        rw [rev] at head
        rw [key, deleted] at dead
        exact ⟨early, pre.trans (List.prefix_append _ _), head, dead⟩
      rw [ran_append] at member
      obtain ⟨now, step⟩ := e
      cases step with
      | write fileBytes target ops who indexed mark =>
          simp only [Store.historyStep] at member
          rcases writeWith_cases b (Store.ran b run) ⟨now, fileBytes⟩ target ops who indexed mark with
            ⟨e, refused⟩ | ⟨planned, plan, ⟨-, idle⟩ | ⟨-, s', wrote, answer⟩⟩
          · rw [refused] at member
            exact older c member rfl rfl rfl rfl
          · rw [idle] at member
            exact older c member rfl rfl rfl rfl
          · rw [answer] at member
            rcases Store.wrote_change wrote member with ⟨p, listed, effective, rfl⟩ | old
            · have ran : Store.ran b (run ++ [(now, .write fileBytes target ops who indexed mark)]) = s' := by
                rw [ran_append, Store.historyStep, answer]
              refine ⟨_, List.prefix_rfl, ?_, ?_⟩
              · rw [ran]
                exact ((Store.wrote_heads wrote target).1).trans (if_pos rfl)
              · have text := wrote_text plan wrote listed
                rw [if_pos effective] at text
                rw [ran]
                exact congrArg Option.isNone text.symm
            · exact older c old rfl rfl rfl rfl
      | reap => exact older c ((KeyedTable.mem_deleteWhere _ _ _).mp member).1 rfl rfl rfl rfl
      | trim max =>
          obtain ⟨old, there, rfl | rfl⟩ := (trimHistory_faded _ max now).from_old c member
          · exact older c there rfl rfl rfl rfl
          · exact older old there rfl rfl rfl rfl

end Logged

/-! ## A change's value -/

instance : Std.Total fun c c' : ChangeRow => c.rev ≤ c'.rev := ⟨fun c c' => le_total c.rev c'.rev⟩

instance : IsTrans ChangeRow fun c c' => c.rev ≤ c'.rev := ⟨fun _ _ _ => le_trans⟩

section Value

variable {b : Backend} {s : Store} {space : Space} {run : Timeline} {past : Int → String → Option String}
  {time : Int → Int} {low : Int} {c : ChangeRow}

theorem nextChange_some {c' : ChangeRow} (found : s.nextChange space c = some c') :
    c' ∈ s.changes.rows ∧ c'.space = space ∧ c'.key = c.key ∧ c.rev < c'.rev ∧
      ∀ c'' ∈ s.changes.rows, c''.space = space → c''.key = c.key → c.rev < c''.rev → c'.rev ≤ c''.rev := by
  obtain ⟨rest, sorted_eq⟩ := List.head?_eq_some_iff.mp found
  have listed : ∀ x, x ∈ c' :: rest ↔ (x ∈ s.changes.rows ∧ x.space = space) ∧ x.key = c.key ∧ c.rev < x.rev := by
    intro x
    rw [← sorted_eq, (List.perm_insertionSort _ _).mem_iff, List.mem_filter, mem_changesOf, Bool.and_eq_true,
      decide_eq_true_eq, decide_eq_true_eq]
  have sorted : (c' :: rest).Pairwise fun x y : ChangeRow => x.rev ≤ y.rev :=
    sorted_eq ▸ List.pairwise_insertionSort ..
  obtain ⟨⟨member, here⟩, key, later⟩ := (listed c').mp List.mem_cons_self
  refine ⟨member, here, key, later, fun c'' member'' here'' key'' later'' => ?_⟩
  rcases List.mem_cons.mp ((listed c'').mpr ⟨⟨member'', here''⟩, key'', later''⟩) with rfl | after
  · exact le_rfl
  · exact (List.pairwise_cons.mp sorted).1 c'' after

theorem nextChange_none (absent : s.nextChange space c = none) :
    ∀ c' ∈ s.changes.rows, c'.space = space → c'.key = c.key → ¬c.rev < c'.rev := by
  intro c' member here key later
  have empty := List.head?_eq_none_iff.mp absent
  have listed : c' ∈ ([] : List ChangeRow) := by
    rw [← empty, (List.perm_insertionSort _ _).mem_iff, List.mem_filter, mem_changesOf]
    exact ⟨⟨member, here⟩, by rw [decide_eq_true key, decide_eq_true later]; rfl⟩
  cases listed

/-- A before-value that was not trimmed is what the key held before. -/
theorem Recorded.prev_eq (recorded : Recorded s space past time low) (member : c ∈ s.changes.rows)
    (here : c.space = space) (known : c.prevKind ≠ none) :
    c.prevKind = some (if c.prev.isSome then 1 else 0) ∧ c.prev = past (c.rev - 1) c.key := by
  have kind := (recorded.kinds c member here).resolve_left known
  refine ⟨kind, (recorded.explains.known c.undo ⟨c, member, here, rfl⟩ c.prev ?_).symm⟩
  rw [ChangeRow.undo, kind]
  rfl

theorem liveAt_last (logged : Logged s) (member : c ∈ s.changes.rows) (here : c.space = space)
    (last : ∀ c' ∈ s.changes.rows, c'.space = space → c'.key = c.key → ¬c.rev < c'.rev) :
    s.liveAt space c.key c.rev = s.text space c.key := by
  rw [Store.liveAt, Store.text]
  cases found : s.entries.get (space, c.key) with
  | none => rw [Store.live_of_none found]; rfl
  | some e =>
      obtain ⟨le, above⟩ := logged.entry c member e (here.symm ▸ found)
      have same : e.rev = c.rev := by
        refine le_antisymm (not_lt.mp fun lt => ?_) le
        obtain ⟨c', member', here', key', rev'⟩ := above lt
        exact last c' member' (here'.trans here) key' (rev' ▸ lt)
      rw [Store.live_of_some found, Option.filter_some, decide_eq_true same]
      cases e.deleted <;> rfl

/-- Where its own before-value was not trimmed, a change's value is what the key
    held right after it. -/
theorem valueAfter_eq (recorded : Recorded s space past time low) (logged : Logged s)
    (deleted : c.deleted = (past c.rev c.key).isNone) (member : c ∈ s.changes.rows) (here : c.space = space)
    (known : c.prevKind ≠ none) : s.valueAfter b space c = b.parseValue (past c.rev c.key) := by
  have above := recorded.above c member here
  rw [Store.valueAfter]
  cases held : past c.rev c.key with
  | none =>
      rw [held] at deleted
      rw [deleted]
      rfl
  | some t =>
      rw [held] at deleted
      rw [deleted, Option.isNone_some, if_neg Bool.false_ne_true]
      cases next : s.nextChange space c with
      | some c' =>
          obtain ⟨member', here', key, later, first⟩ := nextChange_some next
          have told := mt (logged.trimmed c member c' member' (here.trans here'.symm) later.le) known
          obtain ⟨kind, -⟩ := recorded.prev_eq member' here' told
          have prev : past c.rev c'.key = c'.prev := by
            refine recorded.explains.past_of_first (u := c'.undo) (by omega) ⟨c', member', here', rfl⟩ later
              (here' ▸ recorded.kept.change c' member') ?_ (by rw [ChangeRow.undo, kind]; rfl)
            rintro u ⟨c'', member'', here'', rfl⟩ same later''
            exact first c'' member'' here'' (same.trans key) later''
          rw [key, held] at prev
          dsimp only
          rw [kind, ← prev, Option.isSome_some, if_pos rfl, if_pos rfl]
      | none =>
          have last := nextChange_none next
          have quiet := recorded.explains.past_of_quiet (k := c.key) (by omega) (here ▸ recorded.kept.change c member)
            le_rfl (by
              rintro u ⟨c', member', here', rfl⟩ same later
              exact absurd later (last c' member' here' same))
          dsimp only
          rw [liveAt_last logged member here last, recorded.now, quiet, held]

/-- A change's value is read where the texts the space's keys held are. -/
theorem valueAfter_reads (recorded : Recorded s space past time low)
    (reads : ∀ r key, 0 ≤ r → r ≤ s.headRev space → ∃ v, b.parseValue (past r key) = .ok v) :
    ∃ v, s.valueAfter b space c = .ok v := by
  have low_pos := recorded.low_pos
  rw [Store.valueAfter]
  split
  · exact ⟨_, rfl⟩
  cases next : s.nextChange space c with
  | some c' =>
      obtain ⟨member', here', -⟩ := nextChange_some next
      dsimp only
      split
      next one =>
        obtain ⟨-, prev⟩ := recorded.prev_eq member' here' (by rw [one]; exact Option.some_ne_none _)
        have above := recorded.above c' member' here'
        have below := recorded.kept.change c' member'
        rw [here'] at below
        rw [prev]
        exact reads _ _ (by omega) (by omega)
      next => exact ⟨_, rfl⟩
  | none =>
      dsimp only
      have live := reads (s.headRev space) c.key (recorded.kept.nonneg space) le_rfl
      rw [← recorded.now] at live
      rw [Store.liveAt]
      cases found : s.entries.get (space, c.key) with
      | none => exact ⟨_, rfl⟩
      | some e =>
          rw [Store.text, Store.live_of_some found] at live
          rw [Option.filter_some]
          cases dead : e.deleted with
          | true => rw [Bool.not_true, Bool.and_false]; exact ⟨_, rfl⟩
          | false =>
              rw [dead] at live
              cases decide (e.rev = c.rev) with
              | true => exact live
              | false => exact ⟨_, rfl⟩

end Value

end K2.GardenData
