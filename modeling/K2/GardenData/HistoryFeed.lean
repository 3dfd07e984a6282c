import K2.GardenData.HistoryRuns

/-! # Following the feed

Pages read through `next` list each change kept at the first page once, newest
first, whatever is written between them: a write's changes are newer than every
row a later page asks for.
-/

namespace K2.GardenData

/-! ## The order of a listing -/

/-- By rev, newest first, then by key. -/
def newer (c c' : ChangeRow) : Prop := c'.rev < c.rev ∨ (c.rev = c'.rev ∧ c.key < c'.key)

instance : Std.Irrefl newer where
  irrefl c := by
    rintro (lt | ⟨-, lt⟩)
    · exact lt_irrefl _ lt
    · exact lt_irrefl _ lt

theorem newer_trans {x y z : ChangeRow} (first : newer x y) (second : newer y z) : newer x z := by
  rcases first with lt | ⟨same, lt⟩
  · rcases second with lt' | ⟨same', -⟩
    · exact .inl (lt'.trans lt)
    · exact .inl (same' ▸ lt)
  · rcases second with lt' | ⟨same', lt'⟩
    · exact .inl (same ▸ lt')
    · exact .inr ⟨same.trans same', lt.trans lt'⟩

instance : Std.Asymm newer where
  asymm x _ lt gt := irrefl x (newer_trans lt gt)

instance : Std.Total newestLe where
  total c c' := by
    rcases lt_trichotomy c.rev c'.rev with lt | same | gt
    · exact .inr (.inl lt)
    · exact (le_total c.key c'.key).imp (fun le => .inr ⟨same, le⟩) fun le => .inr ⟨same.symm, le⟩
    · exact .inl (.inl gt)

instance : IsTrans ChangeRow newestLe where
  trans x y z := by
    rintro (lt | ⟨same, le⟩) (lt' | ⟨same', le'⟩)
    · exact .inl (lt'.trans lt)
    · exact .inl (same' ▸ lt)
    · exact .inl (same ▸ lt')
    · exact .inr ⟨same.trans same', le.trans le'⟩

section Rows

variable {s s' : Store} {space : Space} {q : HistoryQuery} {filter : Option (List String)}

theorem mem_historyRows {c : ChangeRow} : c ∈ s.historyRows space q filter ↔
    (c ∈ s.changes.rows ∧ c.space = space) ∧ (q.beyond c = true ∧ q.matchesKey c.key = true) ∧
      readable c.key filter = true := by
  rw [Store.historyRows, List.mem_filter, (List.perm_insertionSort _ _).mem_iff, List.mem_filter, mem_changesOf,
    Bool.and_eq_true, and_assoc]

theorem historyRows_sorted : (s.historyRows space q filter).Pairwise newer := by
  have rows : s.changes.rows.Nodup := s.changes.distinct.of_map
  have distinct : (s.historyRows space q filter).Nodup :=
    ((List.perm_insertionSort _ _).nodup_iff.mpr ((rows.filter _).filter _)).filter _
  have sorted : (s.historyRows space q filter).Pairwise newestLe := (List.pairwise_insertionSort ..).filter _
  refine (sorted.and distinct).imp_of_mem ?_
  rintro c c' member member' ⟨lt | ⟨same, le⟩, apart⟩
  · exact .inl lt
  · refine .inr ⟨same, lt_of_le_of_ne le fun key => apart ?_⟩
    obtain ⟨⟨there, here⟩, -⟩ := mem_historyRows.mp member
    obtain ⟨⟨there', here'⟩, -⟩ := mem_historyRows.mp member'
    exact s.changes.eq_of_key there there' (Prod.ext (here.trans here'.symm) (Prod.ext same key))

theorem beyond_of_newer {c c' : ChangeRow} (beyond : q.beyond c = true) (later : newer c c') :
    q.beyond c' = true := by
  simp only [HistoryQuery.beyond, Bool.or_eq_true, decide_eq_true_eq] at beyond ⊢
  generalize q.before.getD (2 ^ 63 - 1) = before at beyond ⊢
  generalize (if q.before.isSome = true then q.after else none) = after at beyond ⊢
  rcases beyond with lt | inside
  · refine .inl ?_
    rcases later with lt' | ⟨same, -⟩
    · exact lt'.trans lt
    · exact same ▸ lt
  · cases after with
    | none => cases inside
    | some a =>
        simp only [Bool.and_eq_true, decide_eq_true_eq] at inside ⊢
        rcases later with lt' | ⟨same, key⟩
        · exact .inl (inside.1 ▸ lt')
        · exact .inr ⟨same.symm.trans inside.1, inside.2.trans key⟩

theorem continued_beyond {last c : ChangeRow} :
    (q.continued (last.rev, some last.key)).beyond c = true ↔ newer last c := by
  change (decide (c.rev < last.rev) || decide (c.rev = last.rev) && decide (last.key < c.key)) = true ↔ newer last c
  simp only [Bool.or_eq_true, Bool.and_eq_true, decide_eq_true_eq]
  exact or_congr_right (and_congr_left' eq_comm)

/-- The next page's rows are those left, whatever newer ones came since. -/
theorem historyRows_continued {taken rest : List ChangeRow} {last : ChangeRow}
    (rows : s.historyRows space q filter = taken ++ last :: rest)
    (stays : ∀ c ∈ s.changes.rows, c ∈ s'.changes.rows)
    (new : ∀ c ∈ s'.changes.rows, c.space = space → c ∈ s.changes.rows ∨ last.rev < c.rev) :
    s'.historyRows space (q.continued (last.rev, some last.key)) filter = rest := by
  have sorted : (taken ++ last :: rest).Pairwise newer := rows ▸ historyRows_sorted
  rw [List.pairwise_append, List.pairwise_cons] at sorted
  obtain ⟨-, ⟨after, rest_sorted⟩, before⟩ := sorted
  have listed : ∀ c, c ∈ taken ++ last :: rest ↔ _ := fun c => rows ▸ mem_historyRows
  have own := (listed last).mp (List.mem_append_right _ List.mem_cons_self)
  refine historyRows_sorted.eq_of_mem_iff rest_sorted fun c => ?_
  rw [mem_historyRows, continued_beyond]
  constructor
  · rintro ⟨⟨member, here⟩, ⟨later, asked⟩, read⟩
    have there : c ∈ s.changes.rows := by
      refine (new c member here).resolve_right fun above => ?_
      rcases later with lt | ⟨same, -⟩ <;> omega
    have in_rows := (listed c).mpr ⟨⟨there, here⟩, ⟨beyond_of_newer own.2.1.1 later, asked⟩, read⟩
    rcases List.mem_append.mp in_rows with earlier | in_rows
    · exact absurd (newer_trans later (before c earlier last List.mem_cons_self)) (irrefl last)
    · exact (List.mem_cons.mp in_rows).resolve_left fun same => irrefl last (same ▸ later)
  · intro member
    obtain ⟨⟨there, here⟩, ⟨-, asked⟩, read⟩ := (listed c).mp (List.mem_append_right _ (List.mem_cons_of_mem _ member))
    exact ⟨⟨stays c there, here⟩, ⟨after c member, asked⟩, read⟩

end Rows

/-! ## A page -/

/-- What a page says of a change is so: what its key held right after its rev and
    before it, as the space was then in the run. -/
structure HistoryItem.Faithful (b : Backend) (space : Space) (run : Timeline) (item : HistoryItem) : Prop where
  after : ∃ early, early <+: run ∧ (Store.ran b early).headRev space = item.rev
  before : ∃ early, early <+: run ∧ (Store.ran b early).headRev space = item.rev - 1
  deleted : ∀ early, early <+: run → (Store.ran b early).headRev space = item.rev →
    item.deleted = ((Store.ran b early).text space item.key).isNone
  prev : item.prevKind ≠ .unknown → ∀ early, early <+: run → (Store.ran b early).headRev space = item.rev - 1 →
    b.parseValue ((Store.ran b early).text space item.key) = .ok item.prev ∧
      (item.prevKind = .none ↔ (Store.ran b early).text space item.key = none)
  value : item.prevKind ≠ .unknown → ∀ early, early <+: run → (Store.ran b early).headRev space = item.rev →
    b.parseValue ((Store.ran b early).text space item.key) = .ok item.value

section Page

variable {b : Backend} {space : Space} {run : Timeline}

theorem historyItem_faithful (forward : run.Forward)
    (reads : ∀ early, early <+: run → ∀ key t, (Store.ran b early).text space key = some t → ∃ v, b.fromStr t = .ok v)
    {c : ChangeRow} (member : c ∈ (Store.ran b run).changes.rows) (here : c.space = space) :
    ∃ item, (Store.ran b run).historyItem b space c = .ok item ∧ item.place = c.place ∧ item.Faithful b space run := by
  obtain ⟨past, time, trace⟩ := traced b space run forward
  obtain ⟨low, recorded⟩ := trace.recorded
  have logged := ran_logged (b := b) run forward
  have low_pos := recorded.low_pos
  have above := recorded.above c member here
  have below := recorded.kept.change c member
  rw [here] at below
  have texts : ∀ early, early <+: run → ∀ r, (Store.ran b early).headRev space = r → ∀ key,
      (Store.ran b early).text space key = past r key := by
    rintro early pre r rfl key
    rw [(trace.early early pre).2.2]
  have readable : ∀ r key, 0 ≤ r → r ≤ (Store.ran b run).headRev space → ∃ v, b.parseValue (past r key) = .ok v := by
    intro r key nonneg le
    obtain ⟨early, pre, head⟩ := trace.reached r nonneg le
    rw [← texts early pre r head key]
    cases held : (Store.ran b early).text space key with
    | none => exact ⟨_, rfl⟩
    | some t =>
        obtain ⟨v, read⟩ := reads early pre key t held
        exact ⟨v, by rw [Backend.parseValue, read]⟩
  have deleted : c.deleted = (past c.rev c.key).isNone := by
    obtain ⟨early, pre, head, gone⟩ := ran_deleted (b := b) run member
    rw [here] at head gone
    rw [gone, texts early pre c.rev head]
  obtain ⟨value, valued⟩ := valueAfter_reads recorded (c := c) readable
  have known : PrevKind.of c.prevKind ≠ .unknown → c.prevKind ≠ none := by
    rintro told none_told
    rw [none_told] at told
    exact told rfl
  -- the before-value is read where the row has one
  obtain ⟨prev, prev_read, prev_eq⟩ : ∃ prev,
      (if PrevKind.of c.prevKind = .value then b.parseValue c.prev else .ok .null) = .ok prev ∧
        (c.prevKind ≠ none → b.parseValue (past (c.rev - 1) c.key) = .ok prev ∧
          (PrevKind.of c.prevKind = .none ↔ past (c.rev - 1) c.key = none)) := by
    by_cases told : c.prevKind = none
    · exact ⟨.null, by rw [told]; rfl, fun told' => absurd told told'⟩
    · obtain ⟨kind, prev⟩ := recorded.prev_eq member here told
      obtain ⟨v, read⟩ := readable (c.rev - 1) c.key (by omega) (by omega)
      rw [kind, prev]
      cases held : past (c.rev - 1) c.key with
      | none => exact ⟨.null, rfl, fun _ => ⟨rfl, fun _ => rfl, fun _ => rfl⟩⟩
      | some t =>
          rw [held] at read
          exact ⟨v, read, fun _ => ⟨read, ⟨fun same => (by cases same), fun same => (by cases same)⟩⟩⟩
  refine ⟨⟨c.key, c.rev, c.deleted, value, prev, .of c.prevKind, c.author, c.time, c.restoreId⟩, ?_, rfl, ?_⟩
  · simp only [Store.historyItem, bind, Except.bind, valued]
    by_cases told : PrevKind.of c.prevKind = .value
    · rw [if_pos told] at prev_read ⊢
      rw [prev_read]
    · rw [if_neg told] at prev_read ⊢
      cases prev_read
      rfl
  · constructor
    case after => exact trace.reached c.rev (by omega) below
    case before => exact trace.reached (c.rev - 1) (by omega) (by omega)
    case deleted => exact fun early pre head => by rw [texts early pre _ head]; exact deleted
    case prev => exact fun told early pre head => by rw [texts early pre _ head]; exact prev_eq (known told)
    case value =>
      intro told early pre head
      rw [texts early pre _ head, ← valueAfter_eq recorded logged deleted member here (known told)]
      exact valued

/-- A page is filled from the rows in order; it has at least one where rows are left. -/
theorem fillHistory_spec {limit : Nat} (some_fit : 1 ≤ limit) (input rows : List ChangeRow) (bytes : Nat) :
    ∃ taken rest more, fillHistory limit input rows bytes = (rows ++ taken, more) ∧ input = taken ++ rest ∧
      (more = false ∧ rest = [] ∨ more = true ∧ rows ++ taken ≠ []) := by
  induction input generalizing rows bytes with
  | nil => exact ⟨[], [], false, by rw [fillHistory, List.append_nil], rfl, .inl ⟨rfl, rfl⟩⟩
  | cons c later ih =>
      rw [fillHistory]
      split
      next full =>
        refine ⟨[], c :: later, true, by rw [List.append_nil], rfl, .inr ⟨rfl, ?_⟩⟩
        rintro empty
        rw [List.append_nil] at empty
        subst empty
        simp at full
        omega
      next =>
        obtain ⟨taken, rest, more, filled, split, standing⟩ := ih (rows ++ [c]) (bytes + c.weight)
        refine ⟨c :: taken, rest, more, ?_, by rw [split]; rfl, ?_⟩
        · rw [filled, List.append_assoc, List.singleton_append]
        · rw [List.append_assoc, List.singleton_append] at standing
          exact standing

theorem historyItems_faithful (forward : run.Forward)
    (reads : ∀ early, early <+: run → ∀ key t, (Store.ran b early).text space key = some t → ∃ v, b.fromStr t = .ok v)
    (rows : List ChangeRow) (kept : ∀ c ∈ rows, c ∈ (Store.ran b run).changes.rows ∧ c.space = space) :
    ∃ items, rows.mapM ((Store.ran b run).historyItem b space) = .ok items ∧
      items.map HistoryItem.place = rows.map ChangeRow.place ∧ ∀ item ∈ items, item.Faithful b space run := by
  induction rows with
  | nil => exact ⟨[], rfl, rfl, nofun⟩
  | cons c rest ih =>
      obtain ⟨items, made, places, faithful⟩ := ih fun x member => kept x (List.mem_cons_of_mem _ member)
      obtain ⟨member, here⟩ := kept c List.mem_cons_self
      obtain ⟨item, item_made, place, item_faithful⟩ := historyItem_faithful forward reads member here
      refine ⟨item :: items, ?_, ?_, List.forall_mem_cons.mpr ⟨item_faithful, faithful⟩⟩
      · rw [List.mapM_cons, item_made]
        simp only [bind, Except.bind, made]
        rfl
      · rw [List.map_cons, List.map_cons, place, places]

variable {q : HistoryQuery} (filter : Option (List String))

/-- One page: the first rows of the listing, and where the others continue. -/
theorem history_page (forward : run.Forward)
    (reads : ∀ early, early <+: run → ∀ key t, (Store.ran b early).text space key = some t → ∃ v, b.fromStr t = .ok v)
    (accepted : q.key.forM validateKey = .ok () ∧ validatePrefix q.pre = .ok ()) :
    ∃ page taken rest, (Store.ran b run).history b space q filter = .ok page ∧
      (Store.ran b run).historyRows space q filter = taken ++ rest ∧
      page.items.map HistoryItem.place = taken.map ChangeRow.place ∧
      (∀ item ∈ page.items, item.Faithful b space run) ∧
      (page.next = none ∧ rest = [] ∨
        ∃ before last, taken = before ++ [last] ∧ page.next = some (last.rev, some last.key)) := by
  obtain ⟨taken, rest, more, filled, split, standing⟩ := fillHistory_spec
    (le_min (le_max_right q.limit 1) (by decide : 1 ≤ maxHistoryLimit)) ((Store.ran b run).historyRows space q filter) [] 0
  rw [List.nil_append] at filled standing
  obtain ⟨items, made, places, faithful⟩ := historyItems_faithful forward reads taken fun c member =>
    (mem_historyRows.mp (split ▸ List.mem_append_left _ member)).1
  refine ⟨⟨((Store.ran b run).restorable space).1, ((Store.ran b run).restorable space).2, items,
    if more then items.getLast?.map fun l => (l.rev, some l.key) else none⟩, taken, rest, ?_, split, places, faithful, ?_⟩
  · simp only [Store.history, bind, Except.bind, accepted.1, accepted.2, filled, made]
  · rcases standing with ⟨rfl, rfl⟩ | ⟨rfl, some_taken⟩
    · exact .inl ⟨rfl, rfl⟩
    · obtain ⟨before, last, rfl⟩ := (List.eq_nil_or_concat' taken).resolve_left some_taken
      refine .inr ⟨before, last, rfl, ?_⟩
      have ends := congrArg List.getLast? places
      rw [List.getLast?_map, List.getLast?_map, List.getLast?_concat] at ends
      obtain ⟨item, final, place⟩ := Option.map_eq_some_iff.mp ends
      obtain ⟨rev, key⟩ := Prod.mk.inj place
      rw [if_pos rfl, final, Option.map_some, rev, key]

end Page

/-! ## The listing -/

section Follow

variable {b : Backend} {space : Space} {filter : Option (List String)}

/-- Writes leave every change row, and their own are above every rev before them. -/
theorem ran_writes (run : Timeline) {later : Timeline} (writes : ∀ e ∈ later, e.2.isWrite = true) :
    (∀ c ∈ (Store.ran b run).changes.rows, c ∈ (Store.ran b (run ++ later)).changes.rows) ∧
      (∀ c ∈ (Store.ran b (run ++ later)).changes.rows,
        c ∈ (Store.ran b run).changes.rows ∨ (Store.ran b run).headRev c.space < c.rev) ∧
      ∀ space, (Store.ran b run).headRev space ≤ (Store.ran b (run ++ later)).headRev space := by
  induction later using List.reverseRecOn with
  | nil => exact ⟨by simp, fun c member => .inl (by simpa using member), by simp⟩
  | append_singleton later e ih =>
      obtain ⟨stays, new, grows⟩ := ih fun x member => writes x (List.mem_append_left _ member)
      have kept := ran_kept (b := b) (run ++ later)
      have last := writes e (List.mem_append_right _ List.mem_cons_self)
      rw [← List.append_assoc, ran_append]
      obtain ⟨now, step⟩ := e
      cases step with
      | reap => cases last
      | trim max => cases last
      | write fileBytes target ops who indexed mark =>
          simp only [Store.historyStep]
          rcases writeWith_cases b (Store.ran b (run ++ later)) ⟨now, fileBytes⟩ target ops who indexed mark with
            ⟨e, refused⟩ | ⟨planned, plan, ⟨-, idle⟩ | ⟨-, s', wrote, answer⟩⟩
          · rw [refused]
            exact ⟨stays, new, grows⟩
          · rw [idle]
            exact ⟨stays, new, grows⟩
          · rw [answer]
            refine ⟨fun c member => change_stays kept wrote (stays c member), fun c member => ?_, fun space => ?_⟩
            · rcases Store.wrote_change wrote member with ⟨p, -, -, rfl⟩ | old
              · exact .inr (Int.lt_add_one_of_le (grows target))
              · exact new c old
            · rw [(Store.wrote_heads wrote space).1]
              split
              next here =>
                subst here
                exact (grows space).trans (Int.le_add_one le_rfl)
              next => exact grows space

variable (filter) in
theorem followHistory_rows (laters : List Timeline) {run : Timeline} {q : HistoryQuery}
    (forward : (run ++ laters.flatten).Forward) (writes : ∀ e ∈ laters.flatten, e.2.isWrite = true)
    (reads : ∀ early, early <+: run ++ laters.flatten → ∀ key t,
      (Store.ran b early).text space key = some t → ∃ v, b.fromStr t = .ok v)
    (accepted : q.key.forM validateKey = .ok () ∧ validatePrefix q.pre = .ok ()) :
    ∃ pages ended rest, followHistory b space filter laters run q = .ok (pages, ended) ∧
      ((Store.ran b run).historyRows space q filter).map ChangeRow.place =
        (pages.flatMap (·.2.items)).map HistoryItem.place ++ rest ∧
      (ended = true → rest = []) ∧
      (((Store.ran b run).historyRows space q filter).length ≤ laters.length → ended = true) ∧
      ∀ page ∈ pages, page.1 <+: run ++ laters.flatten ∧ ∀ item ∈ page.2.items, item.Faithful b space page.1 := by
  induction laters generalizing run q with
  | nil =>
      rw [List.flatten_nil, List.append_nil] at forward reads ⊢
      obtain ⟨page, taken, rest, made, split, places, faithful, standing⟩ :=
        history_page filter forward reads accepted
      refine ⟨[(run, page)], page.next.isNone, rest.map ChangeRow.place, ?_, ?_, ?_, ?_, ?_⟩
      · simp only [followHistory, bind, Except.bind, made]
      · rw [split, List.map_append, ← places, List.flatMap_singleton]
      · intro ended
        rcases standing with ⟨-, rfl⟩ | ⟨before, last, -, next⟩
        · rfl
        · rw [next] at ended
          cases ended
      · intro short
        rcases standing with ⟨next, -⟩ | ⟨before, last, rfl, -⟩
        · rw [next]
          rfl
        · rw [split, List.length_append, List.length_append, List.length_singleton, List.length_nil] at short
          omega
      · exact List.forall_mem_singleton.mpr ⟨List.prefix_rfl, faithful⟩
  | cons later laters ih =>
      rw [List.flatten_cons, ← List.append_assoc] at forward reads ⊢
      rw [List.flatten_cons, List.forall_mem_append] at writes
      have own : run <+: run ++ later ++ laters.flatten :=
        (List.prefix_append run later).trans (List.prefix_append _ _)
      obtain ⟨page, taken, rest, made, split, places, faithful, standing⟩ := history_page filter
        (forward.sublist (own.sublist.map Prod.fst)) (fun early pre => reads early (pre.trans own)) accepted
      rcases standing with ⟨next, rfl⟩ | ⟨before, last, rfl, next⟩
      · refine ⟨[(run, page)], true, [], ?_, ?_, fun _ => rfl, fun _ => rfl, ?_⟩
        · simp only [followHistory, bind, Except.bind, made, next]
        · rw [split, List.append_nil, List.append_nil, ← places, List.flatMap_singleton]
        · exact List.forall_mem_singleton.mpr ⟨own, faithful⟩
      · -- the page after is of the rows left
        rw [List.append_assoc, List.singleton_append] at split
        obtain ⟨stays, new, -⟩ := ran_writes (b := b) run writes.1
        have listed : last ∈ (Store.ran b run).historyRows space q filter :=
          split ▸ List.mem_append_right _ List.mem_cons_self
        obtain ⟨⟨there, here⟩, -⟩ := mem_historyRows.mp listed
        have below := (ran_kept run).change last there
        have rows := historyRows_continued split stays fun c member in_space =>
          (new c member).imp_right fun above => (here ▸ below).trans_lt (in_space ▸ above)
        obtain ⟨pages, ended, left, followed, places', ends, enough, sound⟩ :=
          ih (q := q.continued (last.rev, some last.key)) forward writes.2 reads accepted
        rw [rows] at places' enough
        refine ⟨(run, page) :: pages, ended, left, ?_, ?_, ends, fun short => enough ?_, ?_⟩
        · simp only [followHistory, bind, Except.bind, made, next, followed]
        · rw [split, List.map_append, List.flatMap_cons]
          dsimp only
          rw [List.map_append, List.append_assoc, ← places', places, List.map_append, List.append_assoc]
          rfl
        · rw [split, List.length_append, List.length_cons, List.length_cons] at short
          omega
        · exact List.forall_mem_cons.mpr ⟨⟨own, faithful⟩, sound⟩

end Follow

/-- Where a query starts, for a rev that isn't the largest one a query can name. -/
theorem beyond_iff {q : HistoryQuery} {c : ChangeRow} (fits : c.rev < 2 ^ 63 - 1) :
    q.beyond c = true ↔ ∀ before, q.before = some before →
      c.rev < before ∨ c.rev = before ∧ ∃ after, q.after = some after ∧ after < c.key := by
  obtain ⟨key, pre, before, after, limit⟩ := q
  cases before with
  | none =>
      change (decide (c.rev < 2 ^ 63 - 1) || false) = true ↔ _
      rw [decide_eq_true fits]
      exact ⟨fun _ => nofun, fun _ => rfl⟩
  | some before =>
      cases after with
      | none =>
          change (decide (c.rev < before) || false) = true ↔ _
          simp
      | some a =>
          change (decide (c.rev < before) || decide (c.rev = before) && decide (a < c.key)) = true ↔ _
          simp

/-- In every run of writes, reaper passes and trims, pages followed through `next`,
    with any writes between them, list the kept changes a query asks for, each once,
    by rev and then by key; and what an item says of its change is so. (A rev is an
    `i64`, and the largest one is not listed.) -/
theorem history_complete (b : Backend) (run : Timeline) (laters : List Timeline)
    (forward : (run ++ laters.flatten).Forward) (writes : ∀ e ∈ laters.flatten, e.2.isWrite = true)
    (space : Space) (q : HistoryQuery) (accepted : q.key.forM validateKey = .ok () ∧ validatePrefix q.pre = .ok ())
    (filter : Option (List String)) (fits : (Store.ran b run).headRev space < 2 ^ 63 - 1)
    (reads : ∀ early, early <+: run ++ laters.flatten → ∀ key t,
      (Store.ran b early).text space key = some t → ∃ v, b.fromStr t = .ok v) :
    ∃ pages ended rest, followHistory b space filter laters run q = .ok (pages, ended) ∧
      let listed := (pages.flatMap (·.2.items)).map HistoryItem.place
      (listed ++ rest).Pairwise (fun x y => y.1 < x.1 ∨ (x.1 = y.1 ∧ x.2 < y.2)) ∧
      (∀ rev key, (rev, key) ∈ listed ++ rest ↔
        (∃ c ∈ (Store.ran b run).changes.rows, c.space = space ∧ c.rev = rev ∧ c.key = key) ∧
          q.matchesKey key = true ∧ readable key filter = true ∧
          ∀ before, q.before = some before → rev < before ∨ rev = before ∧ ∃ after, q.after = some after ∧ after < key) ∧
      (ended = true → rest = []) ∧ ((listed ++ rest).length ≤ laters.length → ended = true) ∧
      ∀ page ∈ pages, page.1 <+: run ++ laters.flatten ∧ ∀ item ∈ page.2.items, item.Faithful b space page.1 := by
  obtain ⟨pages, ended, rest, followed, places, ends, enough, sound⟩ :=
    followHistory_rows filter laters forward writes reads accepted
  refine ⟨pages, ended, rest, followed, ?_, ?_, ends, ?_, sound⟩
  · rw [← places]
    exact List.pairwise_map.mpr historyRows_sorted
  · intro rev key
    have below : ∀ c ∈ (Store.ran b run).changes.rows, c.space = space → c.rev < 2 ^ 63 - 1 := by
      rintro c member rfl
      exact ((ran_kept run).change c member).trans_lt fits
    rw [← places, List.mem_map]
    constructor
    · rintro ⟨c, listed, place⟩
      obtain ⟨rfl, rfl⟩ := Prod.mk.inj place
      obtain ⟨⟨member, here⟩, ⟨beyond, asked⟩, read⟩ := mem_historyRows.mp listed
      exact ⟨⟨c, member, here, rfl, rfl⟩, asked, read, (beyond_iff (below c member here)).mp beyond⟩
    · rintro ⟨⟨c, member, here, rfl, rfl⟩, asked, read, start⟩
      exact ⟨c, mem_historyRows.mpr ⟨⟨member, here⟩, ⟨(beyond_iff (below c member here)).mpr start, asked⟩, read⟩, rfl⟩
  · rw [← places, List.length_map]
    exact enough

theorem history_complete_deleted : ∃ pages ended rest,
    followHistory smallBackend ⟨"data:board"⟩ none
      [[(3, .write 0 ⟨"data:board"⟩ [.put "obj/2" (.number (.int 1)) none] "owner" true none)]] deletedRun
      ⟨none, "obj/", none, none, 1⟩ = .ok (pages, ended) ∧
    (1, "obj/1") ∈ (pages.flatMap (·.2.items)).map HistoryItem.place ++ rest ∧
    ∀ page ∈ pages, ∀ item ∈ page.2.items, item.Faithful smallBackend ⟨"data:board"⟩ page.1 := by
  have texts : ∀ early ∈ (deletedRun ++
      [(3, HistoryStep.write 0 ⟨"data:board"⟩ [.put "obj/2" (.number (.int 1)) none] "owner" true none)]).inits,
      ∀ e ∈ (Store.ran smallBackend early).entries.rows, e.value = none ∨ e.value = some "1" := by decide +kernel
  obtain ⟨pages, ended, rest, followed, -, members, -, -, sound⟩ := history_complete smallBackend deletedRun
    [[(3, .write 0 ⟨"data:board"⟩ [.put "obj/2" (.number (.int 1)) none] "owner" true none)]] (by decide) (by decide)
    ⟨"data:board"⟩ ⟨none, "obj/", none, none, 1⟩ ⟨rfl, by decide +kernel⟩ none (by decide +kernel)
    (fun early pre key t held =>
      (smallBackend_reads (texts early ((List.mem_inits ..).mpr pre)) held).imp fun _ => And.left)
  exact ⟨pages, ended, rest, followed, (members 1 "obj/1").mpr ⟨by decide +kernel, by decide +kernel, rfl, nofun⟩,
    fun page member => (sound page member).2⟩

end K2.GardenData
