import K2.GardenData.Changes
import K2.GardenData.StoreRuns
import K2.Lib.Feed

/-! # Following the change feed

A client keeps a copy of the live keys it may see and follows `changes` page by
page, while others write and the reaper runs. The reaper's `reapedRev` speaks for
whole revs: a client that stands inside a rev when that rev's tombstones are taken
is not told to start over.
-/

namespace K2.GardenData

/-! ## One page -/

section Page

variable {b : Backend} {s : Store}

/-- In the feed's order, each row once. -/
def feedLt (e e' : EntryRow) : Prop := e.rev < e'.rev ∨ (e.rev = e'.rev ∧ e.key < e'.key)

theorem change_fields {e : EntryRow} {c : Change} (shown : s.change b e = .ok c) : c.key = e.key ∧
    c.rev = e.rev ∧ c.deleted = e.deleted ∧ b.parseValue e.value = .ok c.value := by
  simp only [Store.change, map_eq_ok] at shown
  obtain ⟨value, parsed, rfl⟩ := shown
  exact ⟨rfl, rfl, rfl, parsed⟩

/-- A page shows the first rows, and its cursor stands before all the others. -/
def Cut (b : Backend) (s : Store) (rows : List EntryRow) (items : List Change) (next : Option Cursor) :
    Prop :=
  ∃ taken rest, rows = taken ++ rest ∧ taken.map (s.change b) = items.map .ok ∧
    match next with
    | none => rest = []
    | some c => (∀ e ∈ rest, c.before e = true) ∧ ∃ e ∈ taken, c.since = e.rev

/-- The rows of the last rev taken start at `groupStart`. -/
structure Grouped (taken : List EntryRow) (groupStart : Nat) : Prop where
  le : groupStart ≤ taken.length
  apart : ∀ e ∈ taken.take groupStart, ∀ e' ∈ taken.drop groupStart, e.rev < e'.rev
  last : ∀ l, taken.getLast? = some l → l ∈ taken.drop groupStart

theorem grouped_nil : Grouped [] 0 := ⟨le_rfl, by simp, by simp⟩

theorem Grouped.push {taken : List EntryRow} {groupStart : Nat} {l e : EntryRow}
    (grouped : Grouped (taken ++ [l]) groupStart) (sorted : (taken ++ [l] ++ [e]).Pairwise feedLt) :
    Grouped (taken ++ [l] ++ [e]) (if l.rev ≠ e.rev then (taken ++ [l]).length else groupStart) := by
  rw [List.pairwise_append] at sorted
  obtain ⟨before, -, ends⟩ := sorted
  split
  · rename_i newer
    refine ⟨by simp, ?_, by simp⟩
    intro x hx y hy
    rw [List.take_left'  rfl] at hx
    rw [List.drop_left' rfl, List.mem_singleton] at hy
    subst hy
    have last_lt : l.rev < y.rev := by
      rcases ends l (by simp) y (by simp) with lt | ⟨same, -⟩
      · exact lt
      · exact absurd same newer
    rcases List.mem_append.mp hx with hx | hx
    · rcases (List.pairwise_append.mp before).2.2 x hx l (by simp) with lt | ⟨same, -⟩ <;> omega
    · rw [List.mem_singleton.mp hx]
      exact last_lt
  · rename_i same
    have le := grouped.le
    refine ⟨by simp at le ⊢; omega, ?_, ?_⟩
    · intro x hx y hy
      rw [List.take_append_of_le_length le] at hx
      rw [List.drop_append_of_le_length le] at hy
      rcases List.mem_append.mp hy with hy | hy
      · exact grouped.apart x hx y hy
      · rw [List.mem_singleton.mp hy, ← not_not.mp same]
        exact grouped.apart x hx l (grouped.last l (by simp))
    · intro l' last
      rw [List.drop_append_of_le_length le]
      simp only [List.getLast?_append, List.getLast?_singleton, Option.some_or, Option.some.injEq] at last
      simp [last]

theorem shows_last {taken : List EntryRow} {l : EntryRow} {items : List Change} {last : Change}
    (shown : (taken ++ [l]).map (s.change b) = (items ++ [last]).map .ok) : s.change b l = .ok last := by
  simp only [List.map_append, List.map_singleton] at shown
  exact List.singleton_inj.mp (List.append_inj_right' shown rfl)

theorem take_shown {full : List EntryRow} {items : List Change} {n : Nat} (positive : 0 < n)
    (le : n ≤ full.length) (shown : full.map (s.change b) = items.map .ok) :
    ∃ x c, x ∈ full.take n ∧ s.change b x = .ok c ∧ (items.take n).getLast? = some c := by
  have cut : (full.take n).map (s.change b) = (items.take n).map .ok := by
    rw [List.map_take, List.map_take, shown]
  rcases List.eq_nil_or_concat (full.take n) with none_left | ⟨before, x, split⟩
  · have : (full.take n).length = n := List.length_take_of_le le
    rw [none_left] at this
    simp at this
    omega
  · rw [split, List.concat_eq_append] at cut
    rcases List.eq_nil_or_concat (items.take n) with none_left | ⟨early, c, split'⟩
    · rw [none_left] at cut
      simp at cut
    · rw [split', List.concat_eq_append] at cut
      refine ⟨x, c, by simp [split], shows_last cut, ?_⟩
      rw [split', List.concat_eq_append, List.getLast?_concat]

/-- Where a full page ends, the rows it doesn't show come after its cursor. -/
theorem cutPage_cut {taken rest : List EntryRow} {l e : EntryRow} {items : List Change} {last : Change}
    {groupStart : Nat} (start : Nat) (grouped : Grouped (taken ++ [l]) groupStart)
    (start_eq : last.rev = e.rev → start = groupStart)
    (sorted : (taken ++ [l] ++ e :: rest).Pairwise feedLt)
    (shown : (taken ++ [l]).map (s.change b) = (items ++ [last]).map .ok) :
    Cut b s (taken ++ [l] ++ e :: rest) (Store.cutPage (items ++ [last]) last start e).1
      (Store.cutPage (items ++ [last]) last start e).2.1 := by
  obtain ⟨key, rev, -⟩ := change_fields (shows_last shown)
  have after_l : ∀ x ∈ e :: rest, feedLt l x := (List.pairwise_append.mp sorted).2.2 l (by simp)
  have from_e : ∀ x ∈ e :: rest, e.rev ≤ x.rev := by
    have tail := (List.pairwise_append.mp sorted).2.1
    intro x hx
    rcases List.mem_cons.mp hx with rfl | hx
    · exact le_rfl
    · rcases (List.pairwise_cons.mp tail).1 x hx with lt | ⟨same, -⟩ <;> omega
  simp only [Store.cutPage]
  split
  · rename_i newer
    refine ⟨taken ++ [l], e :: rest, rfl, shown, ?_, l, by simp, rev⟩
    intro x hx
    have e_newer : l.rev < e.rev := by
      rcases after_l e (by simp) with lt | ⟨same, -⟩
      · exact lt
      · exact absurd (rev.trans same) newer
    have := from_e x hx
    simp only [Cursor.before, Bool.or_false, decide_eq_true_eq]
    omega
  · rename_i same
    rw [not_not] at same
    split
    · -- The unfinished rev is dropped: the page ends with the rev before it.
      rename_i positive
      rw [start_eq same] at positive ⊢
      obtain ⟨x, c, member, shows_x, ends⟩ := take_shown positive grouped.le shown
      have x_before_l := grouped.apart x member l (grouped.last l (by simp))
      refine ⟨(taken ++ [l]).take groupStart, (taken ++ [l]).drop groupStart ++ e :: rest, ?_, ?_, ?_⟩
      · rw [← List.append_assoc, List.take_append_drop]
      · rw [List.map_take, List.map_take, shown]
      · rw [ends, Option.map_some]
        refine ⟨?_, x, member, (change_fields shows_x).2.1⟩
        intro y hy
        have := (change_fields shows_x).2.1
        simp only [Cursor.before, Bool.or_false, decide_eq_true_eq]
        rcases List.mem_append.mp hy with hy | hy
        · have := grouped.apart x member y hy
          omega
        · have := from_e y hy
          omega
    · refine ⟨taken ++ [l], e :: rest, rfl, shown, ?_, l, by simp, same.symm.trans rev⟩
      intro x hx
      have := from_e x hx
      simp only [Cursor.before, Bool.or_eq_true, Bool.and_eq_true, decide_eq_true_eq]
      rcases after_l x hx with lt | ⟨same_rev, below⟩
      · exact .inl (by omega)
      · exact .inr ⟨by omega, key ▸ below⟩

theorem fillPage_cut {rest : List EntryRow} (taken : List EntryRow) (items : List Change)
    {items' : List Change} {bytes groupStart : Nat} {next : Option Cursor} {partly : Bool}
    (grouped : Grouped taken groupStart)
    (sorted : (taken ++ rest).Pairwise feedLt) (shown : taken.map (s.change b) = items.map .ok)
    (filled : Store.fillPage b s rest items bytes groupStart = .ok (items', next, partly)) :
    Cut b s (taken ++ rest) items' next := by
  induction rest generalizing taken items bytes groupStart with
  | nil =>
      cases filled
      exact ⟨taken, [], rfl, shown, rfl⟩
  | cons e rest ih =>
      have more : ∀ c, s.change b e = .ok c →
          (taken ++ [e]).map (s.change b) = (items ++ [c]).map .ok := fun c shows_e => by
        rw [List.map_append, List.map_append, shown, List.map_singleton, List.map_singleton, shows_e]
      have sorted' : (taken ++ [e] ++ rest).Pairwise feedLt := by simpa using sorted
      simp only [Store.fillPage] at filled
      rcases List.eq_nil_or_concat taken with rfl | ⟨early, l, rfl⟩
      · have none_yet : items = [] := by simpa using shown.symm
        subst none_yet
        simp only [List.getLast?_nil, bind_eq_ok] at filled
        obtain ⟨c, shows_e, filled⟩ := filled
        have alone : Grouped ([] ++ [e]) groupStart := by
          have := grouped.le
          have zero : groupStart = 0 := by simpa using this
          subst zero
          exact ⟨by simp, by simp, by simp⟩
        simpa using ih _ _ alone sorted' (more c shows_e) filled
      · rw [List.concat_eq_append] at *
        rcases List.eq_nil_or_concat items with rfl | ⟨shown_early, last, rfl⟩
        · simp at shown
        · rw [List.concat_eq_append] at *
          simp only [List.getLast?_concat] at filled
          have rev := (change_fields (shows_last shown)).2.1
          split at filled
          · have cut := cutPage_cut
              (if last.rev ≠ e.rev then (shown_early ++ [last]).length else groupStart) grouped
              (fun same => if_neg (not_not.mpr same)) sorted shown
            rw [Except.ok.inj filled] at cut
            exact cut
          · simp only [bind_eq_ok] at filled
            obtain ⟨c, shows_e, filled⟩ := filled
            have pushed := grouped.push (e := e) (by
              refine sorted.sublist ?_
              simp)
            rw [← rev] at pushed
            have length_eq : (shown_early ++ [last]).length = (early ++ [l]).length := by
              have := congrArg List.length shown
              simpa using this.symm
            rw [length_eq] at filled
            simpa using ih _ _ pushed sorted' (more c shows_e) filled

/-! ### The rows of a page -/

instance : Std.Total feedLe where
  total e e' := by
    rcases lt_trichotomy e.rev e'.rev with lt | same | gt
    · exact .inl (.inl lt)
    · exact (le_total e.key e'.key).imp (fun le => .inr ⟨same, le⟩) fun le => .inr ⟨same.symm, le⟩
    · exact .inr (.inl gt)

instance : IsTrans EntryRow feedLe where
  trans x y z := by
    rintro (lt | ⟨same, le⟩) (lt' | ⟨same', le'⟩)
    · exact .inl (lt.trans lt')
    · exact .inl (same' ▸ lt)
    · exact .inl (same ▸ lt')
    · exact .inr ⟨same.trans same', le.trans le'⟩

theorem mem_feedRows {space : Space} {start : Cursor} {pre : String} {filter : Filter} {e : EntryRow} :
    e ∈ s.feedRows space start pre filter ↔
      e ∈ s.entries.rows ∧ e.space = space ∧ start.before e = true ∧ passes e.key pre filter = true := by
  simp only [Store.feedRows, List.mem_filter, (List.perm_insertionSort _ _).mem_iff, Bool.and_eq_true,
    decide_eq_true_eq, and_assoc]

theorem feedRows_sorted (space : Space) (start : Cursor) (pre : String) (filter : Filter) :
    (s.feedRows space start pre filter).Pairwise feedLt := by
  have rows : (s.entries.rows.filter fun e => e.space = space && start.before e).Nodup :=
    (List.Nodup.of_map _ s.entries.distinct).filter _
  have sorted := (List.pairwise_insertionSort feedLe
    (s.entries.rows.filter fun e => e.space = space && start.before e)).and
      ((List.perm_insertionSort feedLe _).nodup_iff.mpr rows)
  refine (sorted.imp_of_mem ?_).filter _
  rintro x y hx hy ⟨le, apart⟩
  rw [(List.perm_insertionSort _ _).mem_iff, List.mem_filter, Bool.and_eq_true, decide_eq_true_eq] at hx hy
  rcases le with lt | ⟨same, le⟩
  · exact .inl lt
  · refine .inr ⟨same, lt_of_le_of_ne le fun same_key => apart ?_⟩
    refine s.entries.eq_of_key hx.1 hy.1 ?_
    rw [EntryRow.pk, EntryRow.pk, hx.2.1, hy.2.1, same_key]

/-- A page answers from the floor on, with the rows after its cursor cut where it
    is full. -/
theorem changesFrom_spec {space : Space} {start : Cursor} {pre : String} {filter : Filter}
    {page : ChangesPage} (fetched : s.changesFrom b space start pre filter = .ok page) :
    s.reapedRev space ≤ start.since ∧ page.head = s.headRev space ∧
      Cut b s (s.feedRows space start pre filter) page.items page.next := by
  simp only [Store.changesFrom, bind_eq_ok] at fetched
  obtain ⟨⟨⟩, -, fetched⟩ := fetched
  split at fetched
  · cases fetched
  · rename_i low
    simp only [bind_eq_ok] at fetched
    obtain ⟨⟨items, next, partly⟩, filled, same⟩ := fetched
    cases same
    refine ⟨not_lt.mp low, rfl, ?_⟩
    exact fillPage_cut [] [] grouped_nil (feedRows_sorted ..) rfl filled

end Page

/-! ## The store as a feed -/

/-- What a client may see of a key: the document of a live key that passes. -/
def Store.visible (b : Backend) (s : Store) (space : Space) (pre : String) (filter : Filter) (key : String) :
    Option (Except DataError Value) :=
  if passes key pre filter then (s.live space key).text.map fun t => b.parseValue (some t) else none

def Store.feed (b : Backend) (s : Store) (space : Space) (pre : String) (filter : Filter) :
    Feed String (Except DataError Value) where
  entry key :=
    if passes key pre filter then
      (s.entries.get (space, key)).map fun e => ⟨e.value.map fun t => b.parseValue (some t), e.rev⟩
    else none
  cursor := s.headRev space
  floor := s.reapedRev space

def Cursor.place (c : Cursor) : Place String := ⟨c.since, c.after⟩

theorem before_iff_later {c : Cursor} {e : EntryRow} :
    c.before e = true ↔ Feed.later c.place e.key e.rev := by
  obtain ⟨since, after⟩ := c
  cases after <;> simp [Cursor.before, Feed.later, Feed.inside, Cursor.place]

section Feed

variable {b : Backend} {s s' : Store} {space : Space} {pre : String} {filter : Filter}

theorem feed_live (key : String) :
    (s.feed b space pre filter).live key = s.visible b space pre filter key := by
  simp only [Feed.live, Store.feed, Store.visible]
  split
  · cases found : s.entries.get (space, key) with
    | none => simp [Store.live_of_none found]
    | some e =>
        rw [Store.live_of_some found]
        cases gone : e.deleted with
        | true => simp [EntryRow.value_of_deleted gone]
        | false => simp
  · rfl

theorem feed_entry {key : String} {fe : FeedEntry (Except DataError Value)}
    (held : (s.feed b space pre filter).entry key = some fe) :
    passes key pre filter = true ∧ ∃ e, s.entries.get (space, key) = some e ∧
      fe = ⟨e.value.map fun t => b.parseValue (some t), e.rev⟩ := by
  simp only [Store.feed] at held
  split at held
  · rename_i passing
    obtain ⟨e, found, rfl⟩ := Option.map_eq_some_iff.mp held
    exact ⟨passing, e, found, rfl⟩
  · cases held

theorem feed_entry_of_get {key : String} {e : EntryRow} (passing : passes key pre filter = true)
    (found : s.entries.get (space, key) = some e) : (s.feed b space pre filter).entry key =
      some ⟨e.value.map fun t => b.parseValue (some t), e.rev⟩ := by
  simp [Store.feed, passing, found]

/-! ### Writes -/

section Write

variable {moment : Moment} {target : Space} {who : String} {mark : Option RestoreMark}
  {planned : List Planned}

theorem wrote_reaped (wrote : Wrote moment target who mark planned s s') :
    s'.reapedRev space = s.reapedRev space := by
  by_cases here : space = target
  · subst here
    simp only [Store.reapedRev, wrote.spaces, KeyedTable.get_upsert, Store.counted]
    cases found : s.spaces.get space with
    | none => simp
    | some row =>
        have same : row.space = space := KeyedTable.key_of_get found
        simp [same]
  · simp only [Store.reapedRev, Store.wrote_spaces wrote here]

/-- A write to the space stamps what it changes with the next rev. -/
theorem wrote_feed (wrote : Wrote moment space who mark planned s s') :
    Feed.Writes (s.feed b space pre filter) (s'.feed b space pre filter) where
  cursor := by
    have own := (Store.wrote_heads wrote space).1
    rw [if_pos rfl] at own
    exact own
  floor := wrote_reaped wrote
  entry := by
    intro key
    have own := (Store.wrote_heads wrote space).1
    rw [if_pos rfl] at own
    by_cases passing : passes key pre filter = true
    · by_cases changed : ∃ p ∈ planned, p.effective = true ∧ p.op.key = key
      · obtain ⟨p, listed, effective, rfl⟩ := changed
        exact .inr ⟨_, feed_entry_of_get passing (wrote.lands.entry p listed effective), own.symm⟩
      · refine .inl ?_
        simp only [Store.feed]
        rw [wrote.lands.entry_kept]
        intro p listed effective same
        exact changed ⟨p, listed, effective, (Prod.ext_iff.mp same).2⟩
    · exact .inl (by simp [Store.feed, passing])

theorem wrote_feed_apart (wrote : Wrote moment target who mark planned s s') (apart : space ≠ target) :
    s'.feed b space pre filter = s.feed b space pre filter := by
  have entries : ∀ key, s'.entries.get (space, key) = s.entries.get (space, key) := by
    intro key
    apply wrote.lands.entry_kept
    intro p _ _ same
    exact apart (Prod.ext_iff.mp same).1.symm
  have own := (Store.wrote_heads wrote space).1
  rw [if_neg apart] at own
  simp only [Store.feed, entries, own, wrote_reaped wrote]

end Write

/-! ### The reaper -/

theorem le_topDead {now : Int} {e : EntryRow} (member : e ∈ s.entries.rows)
    (taken : Store.dead now e = true) : ∃ top, s.topDead now e.space = some top ∧ e.rev ≤ top := by
  have listed : e.rev ∈ (s.entries.rows.filter fun x => Store.dead now x && x.space = e.space).map (·.rev) :=
    List.mem_map.mpr ⟨e, List.mem_filter.mpr ⟨member, by simp [taken]⟩, rfl⟩
  cases top : s.topDead now e.space with
  | none =>
      simp only [Store.topDead, List.max?_eq_none_iff] at top
      rw [top] at listed
      cases listed
  | some n => exact ⟨n, rfl, (List.max?_eq_some_iff.mp top).2 _ listed⟩

theorem reap_feed (kept : Store.Kept s) (now : Int) :
    Feed.Forgets (s.feed b space pre filter) ((s.reap now).1.feed b space pre filter) := by
  have floor : s.reapedRev space ≤ (s.reap now).1.reapedRev space := by
    simp only [Store.reapedRev, Store.reap_spaces]
    cases s.spaces.get space with
    | none => exact le_rfl
    | some row =>
        simp only [Option.map_some, Option.getD_some]
        split
        · exact le_max_left _ _
        · exact le_rfl
  refine ⟨?_, floor, fun key => ?_⟩
  · simp only [Store.feed, Store.headRev, Store.reap_spaces]
    cases s.spaces.get space with
    | none => rfl
    | some row =>
        simp only [Option.map_some, Option.getD_some]
        split <;> rfl
  · have entries : (s.reap now).1.entries.get (space, key) =
        (s.entries.get (space, key)).filter fun e => !Store.dead now e := KeyedTable.get_deleteWhere ..
    by_cases passing : passes key pre filter = true
    · cases found : s.entries.get (space, key) with
      | none => exact .inl (by simp [Store.feed, entries, found])
      | some e =>
          cases taken : Store.dead now e with
          | false => exact .inl (by simp [Store.feed, entries, found, Option.filter, taken])
          | true =>
              refine .inr ⟨by simp [Store.feed, entries, found, Option.filter, taken], _,
                feed_entry_of_get passing found, ?_, ?_⟩
              · simp only [Store.dead, Bool.and_eq_true] at taken
                simp [EntryRow.value_of_deleted taken.1]
              · have member := KeyedTable.mem_of_get found
                have here : e.space = space := Store.space_of_get found
                obtain ⟨top, raised, le⟩ := le_topDead member taken
                obtain ⟨row, held, -⟩ := kept.spaceRow member
                have row_space : row.space = e.space := KeyedTable.key_of_get held
                rw [here] at held row_space raised
                simp only [Store.feed, Store.reapedRev, Store.reap_spaces, held, row_space, raised,
                  Option.map_some, Option.getD_some, Option.isSome_some, if_true]
                omega
    · exact .inl (by simp [Store.feed, passing])

/-! ### Pages -/

/-- A client of the feed. -/
structure Client where
  cursor : Cursor
  mirror : FinMap String Value

/-- One change, applied. -/
def applyChange (m : FinMap String Value) (c : Change) : FinMap String Value :=
  if c.deleted then FinMap.erase m c.key else FinMap.insert m c.key c.value

/-- A page, applied: the next one starts at its cursor, or after its head. -/
def Client.take (c : Client) (page : ChangesPage) : Client where
  cursor := page.next.getD ⟨page.head, none⟩
  mirror := page.items.foldl applyChange c.mirror

/-- What a mirror holds, as documents. -/
def documents (m : FinMap String Value) (key : String) : Option (Except DataError Value) :=
  (FinMap.lookup m key).map .ok

/-- What a change says of its key. -/
def Change.document (c : Change) : Option (Except DataError Value) :=
  if c.deleted then none else some (.ok c.value)

theorem documents_applyChange (m : FinMap String Value) (c : Change) :
    documents (applyChange m c) = Function.update (documents m) c.key c.document := by
  funext key
  simp only [documents, applyChange, Change.document]
  by_cases same : key = c.key
  · subst same
    cases c.deleted <;> simp [FinMap.lookup_erase]
  · rw [Function.update_of_ne same]
    cases c.deleted <;> simp [documents, FinMap.lookup_erase, FinMap.lookup_insert, Ne.symm same]

theorem documents_take (items : List Change) (m : FinMap String Value) :
    documents (items.foldl applyChange m) =
      Feed.patch (documents m) (items.map fun c => (c.key, c.document)) := by
  induction items generalizing m with
  | nil => rfl
  | cons c rest ih =>
      rw [List.foldl_cons, ih, documents_applyChange]
      rfl

theorem document_of_change {e : EntryRow} {c : Change} (shown : s.change b e = .ok c) :
    c.document = e.value.map fun t => b.parseValue (some t) := by
  obtain ⟨-, -, deleted, parsed⟩ := change_fields shown
  have check := e.check
  cases value : e.value with
  | none =>
      rw [value] at check
      simp [Change.document, deleted, check]
  | some t =>
      rw [value] at check parsed
      simp [Change.document, deleted, check, parsed]

/-- The items of a page are entries as they stand, all of them up to its cursor. -/
theorem page_feed (kept : Store.Kept s) {start : Cursor} {page : ChangesPage}
    (fetched : s.changesFrom b space start pre filter = .ok page) :
    Feed.Pages (s.feed b space pre filter) start.place (page.next.getD ⟨page.head, none⟩).place
      (page.items.map fun c => (c.key, c.document)) := by
  obtain ⟨-, head, taken, rest, rows, shown, ends⟩ := changesFrom_spec fetched
  have row : ∀ e ∈ taken, e ∈ s.entries.rows ∧ e.space = space ∧ start.before e = true ∧
      passes e.key pre filter = true := fun e member =>
    mem_feedRows.mp (rows ▸ List.mem_append_left rest member)
  have get_row : ∀ e ∈ s.entries.rows, e.space = space → s.entries.get (space, e.key) = some e := by
    rintro e member rfl
    exact KeyedTable.get_of_mem member
  constructor
  · cases next : page.next with
    | none => exact head.le
    | some c =>
        rw [next] at ends
        obtain ⟨-, e, member, since⟩ := ends
        obtain ⟨held, here, -⟩ := row e member
        have := (kept.rev e held).2
        rw [here] at this
        simp only [Option.getD_some, Cursor.place, Store.feed]
        omega
  · intro key v listed
    obtain ⟨c, member, same⟩ := List.mem_map.mp listed
    cases same
    have : Except.ok c ∈ taken.map (s.change b) := by
      rw [shown]
      exact List.mem_map_of_mem member
    obtain ⟨e, took, shows_c⟩ := List.mem_map.mp this
    obtain ⟨held, here, -, passing⟩ := row e took
    refine ⟨⟨e.value.map fun t => b.parseValue (some t), e.rev⟩, ?_, (document_of_change shows_c).symm⟩
    rw [(change_fields shows_c).1]
    exact feed_entry_of_get passing (get_row e held here)
  · intro key fe held later
    obtain ⟨passing, e, found, rfl⟩ := feed_entry held
    have key_eq : e.key = key := (Prod.ext_iff.mp (KeyedTable.key_of_get found)).2
    subst key_eq
    have listed : e ∈ taken ++ rest := by
      rw [← rows, mem_feedRows]
      exact ⟨KeyedTable.mem_of_get found, Store.space_of_get found, before_iff_later.mpr later, passing⟩
    rcases List.mem_append.mp listed with member | left
    · right
      have : s.change b e ∈ page.items.map Except.ok := by
        rw [← shown]
        exact List.mem_map_of_mem member
      obtain ⟨c, here, shows_c⟩ := List.mem_map.mp this
      refine List.mem_map.mpr ⟨c, here, ?_⟩
      rw [(change_fields shows_c.symm).1, document_of_change shows_c.symm]
    · left
      cases next : page.next with
      | none =>
          rw [next] at ends
          rw [ends] at left
          cases left
      | some c =>
          rw [next] at ends
          exact before_iff_later.mp (ends.1 e left)

end Feed

/-! ## Runs -/

/-- A store and a client of one of its spaces. -/
structure Following where
  store : Store
  client : Client

section Run

variable (b : Backend) (space : Space) (pre : String) (filter : Filter)

/-- A copy of the live keys of now. -/
structure Client.Fresh (s : Store) (c : Client) : Prop where
  cursor : c.cursor = ⟨s.headRev space, none⟩
  mirror : ∀ key, documents c.mirror key = s.visible b space pre filter key

/-- What can happen next: a write to any space, the reaper when it is `allowed`,
    one page, or a fresh copy. -/
inductive Step (allowed : Following → Int → Prop) : Following → Following → Prop where
  | write (f : Following) (moment : Moment) (target : Space) (ops : List Op) (who : String)
      (indexed : Bool) (mark : Option RestoreMark) :
      Step allowed f ⟨(f.store.writeWith b moment target ops who indexed mark).1, f.client⟩
  | reap (f : Following) (now : Int) (may : allowed f now) :
      Step allowed f ⟨(f.store.reap now).1, f.client⟩
  | page (f : Following) (page : ChangesPage)
      (fetched : f.store.changesFrom b space f.client.cursor pre filter = .ok page) :
      Step allowed f ⟨f.store, f.client.take page⟩
  | copy (f : Following) (c : Client) (fresh : c.Fresh b space pre filter f.store) :
      Step allowed f ⟨f.store, c⟩

/-- The reaper takes, in the rev the client stands inside, no tombstone beyond the
    client's key of which the client still has the value. -/
def Clear (f : Following) (now : Int) : Prop :=
  ∀ e ∈ f.store.entries.rows, e.space = space → Store.dead now e = true →
    e.rev = f.client.cursor.since → (∃ a, f.client.cursor.after = some a ∧ a < e.key) →
    FinMap.lookup f.client.mirror e.key = none

/-- The client mirrors the feed of a kept store up to its place. -/
structure Abreast (f : Following) : Prop where
  kept : Store.Kept f.store
  mirrors : Feed.MirrorsTo (f.store.feed b space pre filter) f.client.cursor.place
    (documents f.client.mirror)

variable {b space pre filter}

theorem abreast_of_fresh {s : Store} {c : Client} (kept : Store.Kept s)
    (fresh : c.Fresh b space pre filter s) : Abreast b space pre filter ⟨s, c⟩ := by
  refine ⟨kept, ?_⟩
  have same : documents c.mirror = (s.feed b space pre filter).live :=
    funext fun key => (fresh.mirror key).trans (feed_live key).symm
  rw [same, fresh.cursor]
  exact Feed.mirrorsTo_copy

theorem dead_of_gone {s : Store} {now : Int} {key : String} {fe : FeedEntry (Except DataError Value)}
    (held : (s.feed b space pre filter).entry key = some fe)
    (gone : ((s.reap now).1.feed b space pre filter).entry key = none) :
    ∃ e ∈ s.entries.rows, e.space = space ∧ e.key = key ∧ e.rev = fe.seq ∧ Store.dead now e = true := by
  obtain ⟨passing, e, found, rfl⟩ := feed_entry held
  refine ⟨e, KeyedTable.mem_of_get found, Store.space_of_get found,
    (Prod.ext_iff.mp (KeyedTable.key_of_get found)).2, rfl, ?_⟩
  by_contra alive
  have kept : (s.reap now).1.entries.get (space, key) = some e := by
    refine (KeyedTable.get_deleteWhere ..).trans ?_
    rw [found]
    simp [Option.filter, alive]
  rw [feed_entry_of_get passing kept] at gone
  cases gone

theorem Abreast.step {f g : Following} (abreast : Abreast b space pre filter f)
    (step : Step b space pre filter (Clear space) f g) : Abreast b space pre filter g := by
  cases step with
  | write moment target ops who indexed mark =>
      refine ⟨abreast.kept.after_write b moment target ops who indexed mark, ?_⟩
      rcases writeWith_cases b f.store moment target ops who indexed mark with
        ⟨e, refused⟩ | ⟨planned, -, ⟨-, idle⟩ | ⟨-, s', wrote, answer⟩⟩
      · rw [refused]
        exact abreast.mirrors
      · rw [idle]
        exact abreast.mirrors
      · rw [answer]
        by_cases here : space = target
        · subst here
          exact abreast.mirrors.write (wrote_feed wrote)
        · rw [wrote_feed_apart wrote here]
          exact abreast.mirrors
  | reap now clear =>
      refine ⟨abreast.kept.reap now, ?_⟩
      refine abreast.mirrors.forget (reap_feed abreast.kept now) fun key fe held gone inside => ?_
      obtain ⟨e, member, here, rfl, rev, taken⟩ := dead_of_gone held gone
      have absent := clear e member here taken (rev.trans inside.1) inside.2
      rw [documents, absent]
      rfl
  | page page fetched =>
      refine ⟨abreast.kept, ?_⟩
      have low := (changesFrom_spec fetched).1
      simp only [Client.take, documents_take]
      exact abreast.mirrors.page (page_feed abreast.kept fetched) low
  | copy c fresh => exact abreast_of_fresh abreast.kept fresh

theorem Abreast.run {f g : Following} (abreast : Abreast b space pre filter f)
    (run : Relation.ReflTransGen (Step b space pre filter (Clear space)) f g) :
    Abreast b space pre filter g := by
  induction run with
  | refl => exact abreast
  | tail _ step ih => exact ih.step step

end Run

/-- A client that follows the feed from a fresh copy of a reached store mirrors
    what it may see whenever a page has no next one, if no reaper takes a
    tombstone it still needs in the rev it stands inside. -/
theorem feed_complete (b : Backend) (calls : List Call) {space : Space} {pre : String} {filter : Filter}
    {client : Client} {f : Following}
    (fresh : client.Fresh b space pre filter (History.after (Store.call b) Store.empty calls))
    (run : Relation.ReflTransGen (Step b space pre filter (Clear space))
      ⟨History.after (Store.call b) Store.empty calls, client⟩ f)
    {page : ChangesPage}
    (fetched : f.store.changesFrom b space f.client.cursor pre filter = .ok page)
    (last : page.next = none) :
    page.head = f.store.headRev space ∧
      ∀ key, documents (f.client.take page).mirror key = f.store.visible b space pre filter key := by
  have abreast := (abreast_of_fresh (Store.kept_of_run b calls) fresh).run run
  obtain ⟨low, head, -⟩ := changesFrom_spec fetched
  have now := (abreast.step (.page f page fetched)).mirrors
  refine ⟨head, fun key => ?_⟩
  rw [← feed_live]
  refine congrFun (now.live ?_ ?_) key
  · have := abreast.mirrors.since_le
    simp only [Client.take, last, Option.getD_none, Cursor.place, Store.feed] at this ⊢
    omega
  · intro k fe held later
    obtain ⟨-, e, found, rfl⟩ := feed_entry held
    have below := (abreast.kept.rev e (KeyedTable.mem_of_get found)).2
    rw [Store.space_of_get found] at below
    simp only [Client.take, last, Option.getD_none, Cursor.place, Feed.later, Feed.inside, reduceCtorEq,
      false_and, exists_false, and_false, or_false] at later
    omega

/-! ### A rev over a page

One save of two keys: `obj/1`, with a value of `n` letters that fills a page, and
`obj/2`, which is deleted.
-/

namespace LongRev

/-- A string of `n` letters, and its JSON text. -/
def letters (n : Nat) : String := String.ofList (List.replicate n 'x')

def lettersText (n : Nat) : String := String.ofList ('"' :: List.replicate n 'x' ++ ['"'])

theorem byteLen_lettersText (n : Nat) : Text.byteLen (lettersText n) = n + 2 := by
  have inner : (String.ofList (List.replicate n 'x')).utf8ByteSize = n := by
    induction n with
    | zero => rfl
    | succ n ih =>
        rw [List.replicate_succ', String.ofList_append, String.utf8ByteSize_append, ih]
        rfl
  have quote : (String.ofList ['"']).utf8ByteSize = 1 := rfl
  rw [lettersText, List.cons_append, ← List.singleton_append, String.ofList_append, String.ofList_append,
    Text.byteLen, String.utf8ByteSize_append, String.utf8ByteSize_append, inner]
  omega

theorem canonical_letters {n : Nat} (fits : n + 2 ≤ maxValueBytes) :
    canonical (.string (letters n)) = .ok (lettersText n) := by
  have rendered : (Value.string (letters n)).render = '"' :: List.replicate n 'x' ++ ['"'] := by
    have plain : escapeChar 'x' = ['x'] := by decide
    simp only [Value.render, renderString, letters, String.toList_ofList, List.flatMap_replicate, plain,
      List.flatten_replicate_singleton]
  have short : ¬ Text.byteLen (lettersText n) > maxValueBytes := by
    rw [byteLen_lettersText]
    omega
  rw [lettersText] at short
  simp only [canonical, rendered, if_neg short]
  rfl

def board : Space := ⟨"save:board"⟩

/-- A store whose JSON reader knows the two documents. -/
def backend (n : Nat) : Backend where
  maxFileBytes := 1024
  fromStr := fun t =>
    if t = lettersText n then .ok (.string (letters n))
    else if t = "1" then .ok (.number (.int 1))
    else .error "expected value at line 1 column 1"

def firstPut : Call := .put ⟨0, 0⟩ board "obj/2" (.number (.int 1)) none "owner"

def save (n : Nat) : List Op := [.put "obj/1" (.string (letters n)) none, .delete "obj/2" none]

def row (key : String) (rev : Int) (value : Option String) (moment : Int) : EntryRow :=
  ⟨board, key, rev, !value.isSome, value, (value.map Text.byteLen).getD 0, moment, "owner", by simp⟩

/-- After the first put, and after the save. -/
def before : Store where
  entries := ⟨[row "obj/2" 1 (some "1") 0], List.nodup_singleton _⟩
  changes := ⟨[⟨board, 1, "obj/2", false, "owner", 0, none, some 0, none⟩], List.nodup_singleton _⟩
  spaces := ⟨[⟨board, 1, 0, 1, 1, 0, 0, none⟩], List.nodup_singleton _⟩
  restores := .empty
  blobs := .empty

theorem saved_entries (n : Nat) :
    ([row "obj/2" 2 none 10, row "obj/1" 2 (some (lettersText n)) 10].map EntryRow.pk).Nodup := by
  simp [row, EntryRow.pk]

def savedChanges : List ChangeRow :=
  [⟨board, 1, "obj/2", false, "owner", 0, none, some 0, none⟩, ⟨board, 2, "obj/1", false, "owner", 10, none, some 0, none⟩,
    ⟨board, 2, "obj/2", true, "owner", 10, some "1", some 1, none⟩]

theorem saved_changes : (savedChanges.map ChangeRow.pk).Nodup := by
  decide +kernel

def saved (n : Nat) : Store where
  entries := ⟨[row "obj/2" 2 none 10, row "obj/1" 2 (some (lettersText n)) 10], saved_entries n⟩
  changes := ⟨savedChanges, saved_changes⟩
  spaces := .upsert .empty ⟨board, 2, 0, n + 2, 1, 0, 10, none⟩
  restores := .empty
  blobs := .empty

theorem after_firstPut (n : Nat) : History.after (Store.call (backend n)) .empty [firstPut] = before := rfl

theorem write_save {n : Nat} (fits : n + 2 ≤ maxValueBytes) :
    before.writeWith (backend n) ⟨10, 0⟩ board (save n) "owner" true none = (saved n, .ok (2, true)) := by
  have shaped : shapes false true [] 0 (save n) =
      .ok [⟨.put "obj/1" (.string (letters n)) none, .write (lettersText n), none⟩,
        ⟨.delete "obj/2" none, .delete, none⟩] := by
    have first : validateKey "obj/1" = .ok () := by rfl
    have second : validateKey "obj/2" = .ok () := by rfl
    simp [save, shapes, shape, refsIn, canonical_letters fits, Op.key, first, second, bind, Except.bind]
  have planned : before.planWrite (backend n) ⟨10, 0⟩ board (save n) true =
      .ok [⟨.put "obj/1" (.string (letters n)) none, .write (lettersText n), none, ⟨0, 0, none⟩⟩,
        ⟨.delete "obj/2" none, .delete, none, ⟨1, 1, some "1"⟩⟩] := by
    have off : board.isData = false := by rfl
    rw [Store.planWrite, off, shaped]
    rfl
  have landed : before.landWrite ⟨10, 0⟩ board
      [⟨.put "obj/1" (.string (letters n)) none, .write (lettersText n), none, ⟨0, 0, none⟩⟩,
        ⟨.delete "obj/2" none, .delete, none, ⟨1, 1, some "1"⟩⟩] "owner" none 2 (n + 2) 1 =
      .ok (saved n) := by
    have small : ¬ ((n : Int) + 2 > (limits board).1) := by
      have limit : (limits board).1 = maxSaveBytes := by rfl
      rw [limit]
      simp only [maxSaveBytes, maxValueBytes] at *
      omega
    rw [Store.landWrite, if_neg small]
    rfl
  have bytes : before.headBytes board +
      ([⟨.put "obj/1" (.string (letters n)) none, .write (lettersText n), none, ⟨0, 0, none⟩⟩,
        ⟨.delete "obj/2" none, .delete, none, ⟨1, 1, some "1"⟩⟩].map Planned.bytes).sum = n + 2 := by
    have held : before.headBytes board = 1 := by rfl
    simp only [held, List.map_cons, List.map_nil, List.sum_cons, List.sum_nil, Planned.bytes,
      byteLen_lettersText]
    simp
  have keys : before.headKeys board +
      ([⟨.put "obj/1" (.string (letters n)) none, .write (lettersText n), none, ⟨0, 0, none⟩⟩,
        ⟨.delete "obj/2" none, .delete, none, ⟨1, 1, some "1"⟩⟩].map Planned.keys).sum = 1 := by rfl
  have rev : before.headRev board + 1 = 2 := by rfl
  rw [Store.writeWith, planned]
  simp only [bind, Except.bind, bytes, keys, rev, landed]
  rfl

/-- What a client holds after the first put, and after one page of the save. -/
def client : Client := ⟨⟨1, none⟩, ⟨[("obj/2", .number (.int 1))], List.nodup_singleton _⟩⟩

theorem parse_one (n : Nat) : (backend n).parseValue (some "1") = .ok (.number (.int 1)) := by
  have other : "1" ≠ lettersText n := by
    intro same
    have := byteLen_lettersText n
    rw [← same] at this
    have one : Text.byteLen "1" = 1 := rfl
    omega
  simp only [Backend.parseValue, backend, if_neg other]
  rfl

theorem parse_letters (n : Nat) :
    (backend n).parseValue (some (lettersText n)) = .ok (.string (letters n)) := by
  simp [Backend.parseValue, backend]

theorem visible_before (n : Nat) (key : String) : before.visible (backend n) board "" none key =
    if key = "obj/2" then some (.ok (.number (.int 1))) else none := by
  have passing : passes key "" none = true := rfl
  rw [Store.visible, if_pos passing]
  split
  · rename_i there
    have live : before.live board key = ⟨1, 1, some "1"⟩ := by
      rw [there]
      rfl
    rw [live, Option.map_some, parse_one]
  · rename_i apart
    have absent : before.entries.get (board, key) = none := by
      rw [KeyedTable.get_eq_none]
      rintro e (_ | ⟨-, ⟨⟩⟩) same
      exact apart (Prod.ext_iff.mp same).2.symm
    rw [Store.live_of_none absent]
    rfl

theorem client_fresh (n : Nat) : client.Fresh (backend n) board "" none before := by
  refine ⟨rfl, fun key => ?_⟩
  rw [visible_before]
  by_cases there : key = "obj/2"
  · rw [if_pos there, there]
    rfl
  · have one : client.mirror = FinMap.insert .empty "obj/2" (.number (.int 1)) := rfl
    rw [if_neg there, documents, one, FinMap.lookup_insert_of_ne _ _ (Ne.symm there)]
    rfl

/-- The save's first page, full after `obj/1`. -/
def firstPage (n : Nat) : ChangesPage where
  head := 2
  items := [⟨"obj/1", 2, false, .string (letters n), "owner", 10, none⟩]
  next := some ⟨2, some "obj/1"⟩
  partly := true

theorem first_page {n : Nat} (beyond : pageBytes < n + 2 + 138) :
    (saved n).changesFrom (backend n) board client.cursor "" none = .ok (firstPage n) := by
  have rows : (saved n).feedRows board client.cursor "" none =
      [row "obj/1" 2 (some (lettersText n)) 10, row "obj/2" 2 none 10] := by
    have order : ¬ "obj/2" ≤ "obj/1" := by decide
    have later : ¬ feedLe (row "obj/2" 2 none 10) (row "obj/1" 2 (some (lettersText n)) 10) := by
      rintro (lt | ⟨-, le⟩)
      · exact absurd lt (lt_irrefl _)
      · exact absurd le order
    have both : (saved n).entries.rows.filter (fun e => e.space = board && client.cursor.before e) =
        [row "obj/2" 2 none 10, row "obj/1" 2 (some (lettersText n)) 10] := rfl
    rw [Store.feedRows, both]
    simp only [List.insertionSort_cons, List.insertionSort_nil, List.orderedInsert_nil,
      List.orderedInsert_cons, if_neg later]
    rfl
  have size : (row "obj/1" 2 (some (lettersText n)) 10).rowBytes = n + 2 + 69 := by
    simp only [EntryRow.rowBytes, row, rowBytes, Option.map_some, Option.getD_some, byteLen_lettersText]
    have key : Text.byteLen "obj/1" = 5 := by rfl
    omega
  have shown : (saved n).change (backend n) (row "obj/1" 2 (some (lettersText n)) 10) =
      .ok ⟨"obj/1", 2, false, .string (letters n), "owner", 10, none⟩ := by
    simp only [Store.change, row, parse_letters]
    rfl
  have full : 0 + (n + 2 + 69) + (row "obj/2" 2 none 10).rowBytes > pageBytes := by
    have key : (row "obj/2" 2 none 10).rowBytes = 69 := by rfl
    omega
  have low : (saved n).reapedRev board = 0 := rfl
  have valid : validatePrefix "" = .ok () := rfl
  rw [Store.changesFrom, rows, low]
  simp only [client, valid, Store.fillPage, shown, size, bind, Except.bind, List.getLast?_nil,
    List.nil_append, List.getLast?_singleton, decide_eq_true full, Bool.or_true, if_true]
  rfl

theorem given (n : Nat) :
    Cursor.before ⟨2, some "obj/1"⟩ (row "obj/1" 2 (some (lettersText n)) 10) = false := by
  simp [Cursor.before, row]

theorem due : Cursor.before ⟨2, some "obj/1"⟩ (row "obj/2" 2 none 10) = true := by
  have order : "obj/1" < "obj/2" := by decide
  simp only [Cursor.before, row, order, decide_true, Bool.and_true, Bool.or_true]

def secondPage : ChangesPage := ⟨2, [⟨"obj/2", 2, true, .null, "owner", 10, none⟩], none, false⟩

theorem second_page (n : Nat) : (saved n).changesFrom (backend n) board
    (client.take (firstPage n)).cursor "" none = .ok secondPage := by
  have rows : (saved n).feedRows board (client.take (firstPage n)).cursor "" none =
      [row "obj/2" 2 none 10] := by
    have held : (saved n).entries.rows =
        [row "obj/2" 2 none 10, row "obj/1" 2 (some (lettersText n)) 10] := rfl
    have next : (client.take (firstPage n)).cursor = ⟨2, some "obj/1"⟩ := rfl
    have here : ∀ key rev value moment, (row key rev value moment).space = board := fun _ _ _ _ => rfl
    rw [Store.feedRows, held, next]
    simp only [List.filter_cons, here, given, due, decide_true, Bool.and_true, Bool.and_false, if_true,
      List.filter_nil]
    rfl
  have low : (saved n).reapedRev board = 0 := rfl
  rw [Store.changesFrom, rows, low]
  rfl

/-- The reaper of a week later takes `obj/2`'s tombstone. -/
def reaped (n : Nat) : Store := ((saved n).reap (11 + tombstoneKeepSecs)).1

theorem last_page (n : Nat) :
    (reaped n).changesFrom (backend n) board (client.take (firstPage n)).cursor "" none =
    .ok ⟨2, [], none, false⟩ := by
  have none_left : (reaped n).feedRows board (client.take (firstPage n)).cursor "" none = [] := by
    have left : (reaped n).entries.rows = [row "obj/1" 2 (some (lettersText n)) 10] := rfl
    have next : (client.take (firstPage n)).cursor = ⟨2, some "obj/1"⟩ := rfl
    simp [Store.feedRows, left, next, given]
  have low : (reaped n).reapedRev board = 2 := rfl
  rw [Store.changesFrom, none_left, low]
  rfl

theorem visible_reaped (n : Nat) : (reaped n).visible (backend n) board "" none "obj/2" = none := by
  rfl

end LongRev

theorem feed_complete_two_pages :
    documents ((LongRev.client.take (LongRev.firstPage 61400)).take LongRev.secondPage).mirror =
      (LongRev.saved 61400).visible (LongRev.backend 61400) LongRev.board "" none := by
  have fits : 61400 + 2 ≤ maxValueBytes := by decide
  have beyond : pageBytes < 61400 + 2 + 138 := by decide
  have fresh := LongRev.client_fresh 61400
  rw [← LongRev.after_firstPut 61400] at fresh
  have save : Step (LongRev.backend 61400) LongRev.board "" none (Clear LongRev.board)
      ⟨LongRev.before, LongRev.client⟩ ⟨LongRev.saved 61400, LongRev.client⟩ := by
    have landed : LongRev.saved 61400 = (LongRev.before.writeWith (LongRev.backend 61400) ⟨10, 0⟩
        LongRev.board (LongRev.save 61400) "owner" true none).1 := by
      rw [LongRev.write_save fits]
    rw [landed]
    exact .write ..
  exact funext (feed_complete (LongRev.backend 61400) [LongRev.firstPut] fresh
    ((Relation.ReflTransGen.single save).tail (.page _ _ (LongRev.first_page beyond)))
    (LongRev.second_page 61400) rfl).2

/-- A client that stands inside a rev isn't told of the tombstones the reaper takes
    from the rest of it: it keeps a key that was deleted. -/
theorem missed_delete : ∃ (b : Backend) (calls : List Call) (space : Space) (c : Client) (moment : Moment)
    (ops : List Op) (now : Int) (page last : ChangesPage),
    let s := History.after (Store.call b) Store.empty calls
    let s₁ := (s.writeWith b moment space ops "owner" true none).1
    let s₂ := (s₁.reap now).1
    c.Fresh b space "" none s ∧
      s₁.changesFrom b space c.cursor "" none = .ok page ∧
      s₂.changesFrom b space (c.take page).cursor "" none = .ok last ∧ last.next = none ∧
      documents ((c.take page).take last).mirror "obj/2" = some (.ok (.number (.int 1))) ∧
      s₂.visible b space "" none "obj/2" = none := by
  have fits : 61400 + 2 ≤ maxValueBytes := by decide
  have beyond : pageBytes < 61400 + 2 + 138 := by decide
  refine ⟨LongRev.backend 61400, [LongRev.firstPut], LongRev.board, LongRev.client, ⟨10, 0⟩,
    LongRev.save 61400, 11 + tombstoneKeepSecs, LongRev.firstPage 61400, ⟨2, [], none, false⟩, ?_⟩
  simp only [LongRev.after_firstPut, LongRev.write_save fits]
  exact ⟨LongRev.client_fresh _, LongRev.first_page beyond, LongRev.last_page _, trivial, rfl,
    LongRev.visible_reaped _⟩

end K2.GardenData
