import K2.GardenData.Snapshots

/-! # A snapshot and back

The set is decided twice, when the keys are saved and when they are restored. The
lists a set is made of come back as they were, so both sets agree on every key that
no further skip covers; the values come back through one more parse than their
stored texts.
-/

namespace K2.GardenData

/-! ## What a document says -/

section Document

variable {items : List (String × Value)}

theorem nestingItems_le {values : List Value} {n : Nat} :
    nestingItems values ≤ n ↔ ∀ v ∈ values, nesting v ≤ n := by
  induction values with
  | nil => simp [nestingItems]
  | cons v rest ih => simp [nestingItems, ih]

theorem nesting_jsonStrings (names : List String) : nesting (jsonStrings names) = 1 := by
  have flat : nestingItems (names.map .string) ≤ 0 := nestingItems_le.mpr fun v there => by
    obtain ⟨name, -, rfl⟩ := List.mem_map.mp there
    simp [nesting]
  rw [jsonStrings, nesting, Nat.le_zero.mp flat]

theorem nesting_snapshotJson (space : Space) (set : KeySet) (rev now : Int) (label : Option String) :
    nesting (snapshotJson space set rev now label items) ≤ maxNesting ↔ ∀ item ∈ items, nesting item.2 ≤ 124 := by
  have label_flat : nesting ((label.map Value.string).getD .null) = 0 := by
    cases label <;> simp [nesting]
  have inner : nestingItems (items.map itemJson) ≤ 125 ↔ ∀ item ∈ items, nesting item.2 ≤ 124 := by
    rw [nestingItems_le, List.forall_mem_map]
    refine forall₂_congr fun item _ => ?_
    have wrapped : nesting (itemJson item) = nesting item.2 + 1 := by simp [itemJson, nesting, nestingMembers]
    rw [wrapped]
    omega
  rw [← inner]
  simp only [snapshotJson, nesting, nestingMembers, nesting_jsonStrings, label_flat, maxNesting]
  omega

theorem readStrings_jsonStrings {v : Value} {name : String} {names : List String}
    (there : member v name = some (jsonStrings names)) : readStrings v name = .ok names := by
  have each : (names.map Value.string).mapM (fun p => okOr p.asStr (notSnapshot name)) = .ok names := by
    clear there
    induction names with
    | nil => rfl
    | cons first rest ih =>
        rw [List.map_cons, List.mapM_cons]
        exact bind_eq_ok.mpr ⟨first, rfl, bind_eq_ok.mpr ⟨rest, ih, rfl⟩⟩
  rw [readStrings, there]
  exact each

theorem readItems_written (table : FinMap String Value) (valid : ∀ item ∈ items, validateKey item.1 = .ok ())
    (once : (items.map Prod.fst).Nodup) :
    ∃ table', (items.map itemJson).foldlM readItem table = .ok table' ∧
      ∀ key, table'.lookup key = (items.lookup key).or (table.lookup key) := by
  induction items generalizing table with
  | nil => exact ⟨table, rfl, fun _ => rfl⟩
  | cons item rest ih =>
      rw [List.forall_mem_cons] at valid
      rw [List.map_cons, List.nodup_cons] at once
      obtain ⟨table', read, found⟩ := ih (table.insert item.1 item.2) valid.2 once.2
      have one : readItem table (itemJson item) = .ok (table.insert item.1 item.2) :=
        bind_eq_ok.mpr ⟨item.1, rfl, bind_eq_ok.mpr ⟨(), valid.1, bind_eq_ok.mpr ⟨item.2, rfl, rfl⟩⟩⟩
      refine ⟨table', ?_, fun key => ?_⟩
      · rw [List.map_cons, List.foldlM_cons, one]
        exact read
      · rw [found, FinMap.lookup_insert, List.lookup_cons]
        by_cases own : key = item.1
        · have absent : rest.lookup key = none := by
            rw [List.lookup_eq_none_iff]
            intro p there
            rw [bne_iff_ne]
            exact fun same => once.1 (List.mem_map.mpr ⟨p, there, same.symm.trans own⟩)
          rw [own] at absent
          simp [absent, own]
        · simp [Ne.symm own, beq_eq_false_iff_ne.mpr own]

theorem readSnapshot_written (hash : String) (space : Space) (set : KeySet) {rev : Int} (now : Int) (label : Option String)
    (fits : -(2 ^ 63) ≤ rev ∧ rev < 2 ^ 63) (valid : ∀ item ∈ items, validateKey item.1 = .ok ())
    (once : (items.map Prod.fst).Nodup) :
    ∃ table : FinMap String Value, readSnapshot hash space (snapshotJson space set rev now label items) =
        .ok ⟨hash, set.prefixes, set.excepts, rev, table⟩ ∧ ∀ key, table.lookup key = items.lookup key := by
  obtain ⟨table, read, found⟩ := readItems_written .empty valid once
  refine ⟨table, ?_, fun key => by rw [found]; simp⟩
  have prefixes : readStrings (snapshotJson space set rev now label items) "prefixes" = .ok set.prefixes :=
    readStrings_jsonStrings rfl
  have excepts : readStrings (snapshotJson space set rev now label items) "except" = .ok set.excepts :=
    readStrings_jsonStrings rfl
  have version : (member (snapshotJson space set rev now label items) "v").bind Value.asU64 = some snapshotVersion := rfl
  have format : (member (snapshotJson space set rev now label items) "format").bind Value.asStr = some snapshotFormat := rfl
  rw [readSnapshot, if_neg (not_not.mpr format), if_neg (not_not.mpr version)]
  refine bind_eq_ok.mpr ⟨space.widget, rfl, ?_⟩
  refine (if_neg fun apart => apart rfl).trans ?_
  refine bind_eq_ok.mpr ⟨_, prefixes, bind_eq_ok.mpr ⟨_, excepts, bind_eq_ok.mpr ⟨rev, ?_, ?_⟩⟩⟩
  · rw [okOr_eq_ok]
    exact if_pos fits
  · exact bind_eq_ok.mpr ⟨_, rfl, bind_eq_ok.mpr ⟨table, read, rfl⟩⟩

end Document

/-! ## What is saved -/

section Saved

variable {b : Backend} {s : Store} {space : Space} {set : KeySet} {canRead : String → Bool}
  {items : List (String × Value)} {rows : List EntryRow} {e : EntryRow}

theorem mem_liveRows : e ∈ s.liveRows space ↔ e ∈ s.entries.rows ∧ e.space = space ∧ e.deleted = false := by
  rw [Store.liveRows, (List.perm_insertionSort _ _).mem_iff, List.mem_filter, Bool.and_eq_true, decide_eq_true_eq,
    Bool.not_eq_true']

theorem nodup_liveRows (s : Store) (space : Space) : ((s.liveRows space).map (·.key)).Nodup := by
  refine List.Nodup.map_on (fun e there e' there' same => ?_)
    ((List.perm_insertionSort _ _).nodup_iff.mpr ((List.Nodup.of_map _ s.entries.distinct).filter _))
  obtain ⟨member, here, -⟩ := mem_liveRows.mp there
  obtain ⟨member', here', -⟩ := mem_liveRows.mp there'
  exact s.entries.eq_of_key member member' (Prod.ext (here.trans here'.symm) same)

theorem text_of_liveRow (there : e ∈ s.liveRows space) : ∃ t, e.value = some t ∧ s.text space e.key = some t := by
  obtain ⟨member, rfl, alive⟩ := mem_liveRows.mp there
  have check := e.check
  rw [alive] at check
  obtain ⟨t, value⟩ := Option.ne_none_iff_exists'.mp (fun absent => by
    rw [show e.value = none from absent] at check
    cases check)
  have found : s.entries.get (e.space, e.key) = some e := KeyedTable.get_of_mem member
  refine ⟨t, value, ?_⟩
  rw [Store.text, Store.live_of_some found, alive]
  exact value

theorem liveRow_of_text {key : String} (live : s.text space key ≠ none) : ∃ e ∈ s.liveRows space, e.key = key := by
  obtain ⟨e, listed, own⟩ := List.mem_map.mp (mem_liveNames.mpr live)
  obtain ⟨member, here⟩ := List.mem_filter.mp listed
  rw [Bool.and_eq_true, decide_eq_true_eq, Bool.not_eq_true'] at here
  exact ⟨e, mem_liveRows.mpr ⟨member, here⟩, own⟩

theorem saveItems_spec (ok : saveItems b set canRead rows = .ok items) :
    items.map Prod.fst = (rows.filter (set.contains ·.key)).map (·.key) ∧
      ∀ item ∈ items, ∃ e ∈ rows, e.key = item.1 ∧ set.contains item.1 = true ∧ b.parseValue e.value = .ok item.2 := by
  induction rows generalizing items with
  | nil =>
      cases ok
      exact ⟨rfl, nofun⟩
  | cons e rest ih =>
      rw [saveItems] at ok
      split at ok
      next apart =>
        obtain ⟨keys, each⟩ := ih ok
        rw [Bool.not_eq_true'] at apart
        refine ⟨by rw [keys, List.filter_cons_of_neg (by simp [apart])], fun item there => ?_⟩
        obtain ⟨e', listed, rest⟩ := each item there
        exact ⟨e', List.mem_cons_of_mem _ listed, rest⟩
      next covered =>
        rw [Bool.not_eq_true', Bool.not_eq_false] at covered
        split at ok
        · cases ok
        · obtain ⟨v, read, ok⟩ := bind_eq_ok.mp ok
          obtain ⟨more, later, same⟩ := bind_eq_ok.mp ok
          cases same
          obtain ⟨keys, each⟩ := ih later
          have first : (e :: rest).filter (set.contains ·.key) = e :: rest.filter (set.contains ·.key) :=
            List.filter_cons_of_pos covered
          refine ⟨by rw [List.map_cons, keys, first, List.map_cons], ?_⟩
          rw [List.forall_mem_cons]
          refine ⟨⟨e, List.mem_cons_self, rfl, covered, read⟩, fun item there => ?_⟩
          obtain ⟨e', listed, rest⟩ := each item there
          exact ⟨e', List.mem_cons_of_mem _ listed, rest⟩

theorem nodup_saved (ok : saveItems b set canRead (s.liveRows space) = .ok items) : (items.map Prod.fst).Nodup := by
  rw [(saveItems_spec ok).1]
  exact (nodup_liveRows s space).sublist (List.filter_sublist.map _)

theorem saved_text (ok : saveItems b set canRead (s.liveRows space) = .ok items) {item : String × Value}
    (there : item ∈ items) :
    set.contains item.1 = true ∧ ∃ t, s.text space item.1 = some t ∧ b.fromStr t = .ok item.2 := by
  obtain ⟨e, listed, own, covered, read⟩ := (saveItems_spec ok).2 item there
  obtain ⟨t, value, text⟩ := text_of_liveRow listed
  rw [value, Backend.parseValue] at read
  refine ⟨covered, t, own ▸ text, ?_⟩
  split at read
  next v parsed => rw [parsed, Except.ok.inj read]
  next => cases read

theorem saved_keys (ok : saveItems b set canRead (s.liveRows space) = .ok items) {key : String}
    (covered : set.contains key = true) (live : s.text space key ≠ none) : ∃ v, (key, v) ∈ items := by
  obtain ⟨e, listed, rfl⟩ := liveRow_of_text live
  have key_there : e.key ∈ items.map Prod.fst := by
    rw [(saveItems_spec ok).1]
    exact List.mem_map.mpr ⟨e, List.mem_filter.mpr ⟨listed, covered⟩, rfl⟩
  obtain ⟨⟨key, v⟩, there, same⟩ := List.mem_map.mp key_there
  exact ⟨v, same ▸ there⟩

theorem saved_wants (ok : saveItems b set canRead (s.liveRows space) = .ok items)
    (reads : ∀ key t, set.contains key = true → s.text space key = some t → b.Rereads t) (key : String) :
    ((items.lookup key).map fun v => String.ofList v.render) =
      if set.contains key = true then s.text space key else none := by
  cases found : items.lookup key with
  | none =>
      split
      next covered =>
        refine Eq.symm (not_not.mp fun live => ?_)
        obtain ⟨v, there⟩ := saved_keys ok covered live
        rw [List.lookup_eq_none_iff] at found
        exact absurd (found _ there) (by simp)
      next => rfl
  | some v =>
      have there : (key, v) ∈ items := by
        obtain ⟨before, after, rfl, -⟩ := List.lookup_eq_some_iff.mp found
        simp
      obtain ⟨covered, t, text, parsed⟩ := saved_text ok there
      obtain ⟨v', parsed', wrote⟩ := reads key t covered text
      rw [if_pos covered, text, Option.map_some, canonical_eq wrote]
      have same : v = v' := Except.ok.inj (parsed.symm.trans parsed')
      rw [same]

end Saved

/-! ## Keys of a run -/

section Keys

variable {b : Backend} {s : Store} {space : Space} {moment : Moment} {ops : List Op} {indexed : Bool}

theorem shapes_valid {blobsOn : Bool} {seen : List String} {i : Nat} {shaped : List Shaped}
    (ok : shapes blobsOn indexed seen i ops = .ok shaped) : ∀ op ∈ ops, validateKey op.key = .ok () := by
  induction ops generalizing seen i shaped with
  | nil => exact nofun
  | cons op rest ih =>
      simp only [shapes, bind_eq_ok] at ok
      obtain ⟨⟨⟩, valid, ok⟩ := ok
      split at ok
      · cases ok
      · obtain ⟨sh, -, ok⟩ := bind_eq_ok.mp ok
        obtain ⟨more, later, -⟩ := bind_eq_ok.mp ok
        exact List.forall_mem_cons.mpr ⟨valid, ih later⟩

theorem planWrite_valid {planned : List Planned} (plan : s.planWrite b moment space ops indexed = .ok planned) :
    ∀ p ∈ planned, validateKey p.op.key = .ok () := by
  obtain ⟨ops_eq, -⟩ := planWrite_spec plan
  obtain ⟨shaped, ok, -⟩ := bind_eq_ok.mp plan
  intro p listed
  exact shapes_valid ok p.op (ops_eq ▸ List.mem_map_of_mem listed)

theorem historyStep_valid (valid : ∀ e ∈ s.entries.rows, validateKey e.key = .ok ()) (step : Int × HistoryStep) :
    ∀ e ∈ (s.historyStep b step).entries.rows, validateKey e.key = .ok () := by
  obtain ⟨now, step⟩ := step
  cases step with
  | write fileBytes target ops who indexed mark =>
      simp only [Store.historyStep]
      rcases writeWith_cases b s ⟨now, fileBytes⟩ target ops who indexed mark with
        ⟨e, refused⟩ | ⟨planned, plan, ⟨-, idle⟩ | ⟨-, s', wrote, answer⟩⟩
      · rw [refused]
        exact valid
      · rw [idle]
        exact valid
      · rw [answer]
        intro e member
        rcases Store.wrote_entry wrote member with ⟨p, listed, -, rfl⟩ | old
        · exact planWrite_valid plan p listed
        · exact valid e old
  | reap => exact fun e member => valid e ((KeyedTable.mem_deleteWhere _ _ _).mp member).1
  | trim max =>
      have faded := trimHistory_faded s max now
      rw [Store.historyStep, faded.entries]
      exact valid

theorem ran_valid (run : Timeline) : ∀ e ∈ (Store.ran b run).entries.rows, validateKey e.key = .ok () :=
  List.foldlRecOn run (Store.historyStep b) (motive := fun s => ∀ e ∈ s.entries.rows, validateKey e.key = .ok ())
    (fun e member => nomatch (show e ∈ [] from member)) fun _ valid step _ => historyStep_valid valid step

theorem saved_valid {set : KeySet} {canRead : String → Bool} {items : List (String × Value)} {run : Timeline}
    (ok : saveItems b set canRead ((Store.ran b run).liveRows space) = .ok items) :
    ∀ item ∈ items, validateKey item.1 = .ok () := by
  intro item there
  obtain ⟨e, listed, own, -⟩ := (saveItems_spec ok).2 item there
  exact own ▸ ran_valid run e (mem_liveRows.mp listed).1

end Keys

/-! ## Clean sets -/

section Clean

variable {what : String} {list out start : List String} {limit : Nat}

/-- A prefix that a set may list. -/
def Listable (p : String) : Prop := p ≠ "" ∧ validatePrefix p = .ok ()

theorem cleanPrefix_spec {p : String} {next : List String} (ok : cleanPrefix what start p = .ok next) :
    Listable p ∧ next = if p ∈ start then start else start ++ [p] := by
  rw [cleanPrefix] at ok
  split at ok
  · cases ok
  next some_text =>
    obtain ⟨⟨⟩, valid, same⟩ := bind_eq_ok.mp ok
    exact ⟨⟨some_text, valid⟩, (Except.ok.inj same).symm⟩

theorem cleanPrefix_ok {p : String} (listable : Listable p) (new : p ∉ start) :
    cleanPrefix what start p = .ok (start ++ [p]) := by
  rw [cleanPrefix, if_neg listable.1]
  exact bind_eq_ok.mpr ⟨(), listable.2, by rw [if_neg new]⟩

theorem cleaned_spec (ok : list.foldlM (cleanPrefix what) start = .ok out) (once : start.Nodup)
    (listable : ∀ p ∈ start, Listable p) :
    out.Nodup ∧ (∀ p ∈ out, Listable p) ∧ out.length ≤ start.length + list.length := by
  induction list generalizing start with
  | nil =>
      cases ok
      exact ⟨once, listable, le_rfl⟩
  | cons p rest ih =>
      rw [List.foldlM_cons, bind_eq_ok] at ok
      obtain ⟨next, one, later⟩ := ok
      obtain ⟨may, same⟩ := cleanPrefix_spec one
      split at same
      next there =>
        subst same
        obtain ⟨once', listable', short⟩ := ih later once listable
        exact ⟨once', listable', short.trans (by simp)⟩
      next new =>
        subst same
        obtain ⟨once', listable', short⟩ := ih later
          (List.nodup_append.mpr ⟨once, List.nodup_singleton p, fun q there r only => by
            rw [List.mem_singleton] at only
            rintro rfl
            exact new (only ▸ there)⟩)
          (fun q there => (List.mem_append.mp there).elim (listable q) fun own => (List.mem_singleton.mp own) ▸ may)
        exact ⟨once', listable', short.trans (by simp; omega)⟩

theorem clean_kept (once : (start ++ list).Nodup) (listable : ∀ p ∈ list, Listable p) :
    list.foldlM (cleanPrefix what) start = .ok (start ++ list) := by
  induction list generalizing start with
  | nil => rw [List.append_nil]; rfl
  | cons p rest ih =>
      rw [List.forall_mem_cons] at listable
      have new : p ∉ start := fun there =>
        (List.nodup_append.mp once).2.2 p there p List.mem_cons_self rfl
      rw [List.foldlM_cons, cleanPrefix_ok listable.1 new]
      have split : start ++ p :: rest = start ++ [p] ++ rest := by simp
      rw [split] at once ⊢
      exact ih once listable.2

/-- Cleaning a clean list leaves it as it is, whatever it is cleaned for. -/
theorem cleanPrefixes_idem (ok : cleanPrefixes what list limit = .ok out) (other : String) :
    cleanPrefixes other out limit = .ok out := by
  rw [cleanPrefixes] at ok
  split at ok
  · cases ok
  next short =>
    obtain ⟨kept, folded, rfl⟩ := map_eq_ok.mp ok
    obtain ⟨once, listable, length⟩ := cleaned_spec folded List.nodup_nil fun p there => absurd there List.not_mem_nil
    have perm := List.perm_insertionSort (· ≤ ·) kept
    have sorted : (kept.insertionSort (· ≤ ·)).insertionSort (· ≤ ·) = kept.insertionSort (· ≤ ·) :=
      (List.sortedLE_insertionSort).pairwise.insertionSort_eq
    have again : (kept.insertionSort (· ≤ ·)).foldlM (cleanPrefix other) [] = .ok (kept.insertionSort (· ≤ ·)) :=
      clean_kept (perm.nodup_iff.mpr once) fun p there => listable p (perm.mem_iff.mp there)
    rw [List.length_nil] at length
    rw [cleanPrefixes, if_neg (by rw [perm.length_eq]; omega), again]
    exact congrArg Except.ok sorted

end Clean

theorem KeySet.new_again {ps es ks ps' es' ks' : List String} {set set' : KeySet}
    (made : KeySet.new ps es ks = .ok set) (made' : KeySet.new ps' es' ks' = .ok set') :
    KeySet.new set.prefixes set.excepts set'.skips = .ok ⟨set.prefixes, set.excepts, set'.skips⟩ := by
  simp only [KeySet.new, bind_eq_ok] at made made'
  obtain ⟨p, prefixes, e, excepts, k, -, same⟩ := made
  obtain ⟨p', -, e', -, k', skips, same'⟩ := made'
  cases same
  cases same'
  rw [KeySet.new]
  exact bind_eq_ok.mpr ⟨_, cleanPrefixes_idem prefixes _, bind_eq_ok.mpr ⟨_, cleanPrefixes_idem excepts _,
    bind_eq_ok.mpr ⟨_, cleanPrefixes_idem skips _, rfl⟩⟩⟩

/-! ## A restore alone -/

section Alone

variable {b : Backend} {s s' : Store} {space : Space} {c : RestoreCall} {moment : Moment} {ids : Nat → String}
  {covers : String → Bool} {want : String → Option String}

/-- What a restore's write does: nothing, or all of its plan. -/
inductive Writes (b : Backend) (s : Store) (space : Space) (ops : List Op) : Store → Prop where
  | nothing (idle : ops = []) : Writes b s space ops s
  | lands {moment : Moment} {who : String} {mark : RestoreMark} {planned : List Planned} {s' : Store}
      (plan : s.planWrite b moment space ops true = .ok planned)
      (wrote : Wrote moment space who (some mark) planned s s') : Writes b s space ops s'

/-- One round of a restore, with what a round after it would do. -/
theorem restoreRound_cases (left : Nat) (rounds : ∀ left', left = left' + 1 →
      (∃ e, restoreRounds b space c moment ids left' s = (s, .error e)) ∨
      ∃ s' answer, restoreRounds b space c moment ids left' s = (s', .ok answer) ∧
        s.restorePlan b space c.set c.canWrite c.target = .ok answer.plan ∧ Writes b s space answer.plan.ops s') :
    (∃ e, restoreRounds b space c moment ids left s = (s, .error e)) ∨
    ∃ s' answer, restoreRounds b space c moment ids left s = (s', .ok answer) ∧
      s.restorePlan b space c.set c.canWrite c.target = .ok answer.plan ∧ Writes b s space answer.plan.ops s' := by
  rw [restoreRounds]
  cases planned : s.restorePlan b space c.set c.canWrite c.target with
  | error e => exact .inl ⟨e, rfl⟩
  | ok plan =>
      dsimp only
      split
      next idle => exact .inr ⟨s, _, rfl, rfl, .nothing (List.isEmpty_iff.mp idle)⟩
      next some_op =>
        rw [Store.writeMarked]
        rcases writeWith_cases b s moment space plan.ops c.who true (some (plan.mark (ids left))) with
          ⟨e, refused⟩ | ⟨listed, follows, ⟨-, idle⟩ | ⟨-, s', wrote, answer⟩⟩
        · rw [refused]
          cases e with
          | conflict key rev op =>
              cases left with
              | zero => exact .inl ⟨_, rfl⟩
              | succ left => exact planned ▸ rounds left rfl
          | _ => exact .inl ⟨_, rfl⟩
        · rw [idle]
          exact .inl ⟨_, rfl⟩
        · rw [answer]
          exact .inr ⟨s', _, rfl, rfl, .lands follows wrote⟩

/-- A restore that nothing crosses answers an error and leaves the store as it is, or
    has written its plan. -/
theorem restoreRounds_cases (s : Store) (space : Space) (c : RestoreCall) (moment : Moment) (ids : Nat → String) (left : Nat) :
    (∃ e, restoreRounds b space c moment ids left s = (s, .error e)) ∨
    ∃ s' answer, restoreRounds b space c moment ids left s = (s', .ok answer) ∧
      s.restorePlan b space c.set c.canWrite c.target = .ok answer.plan ∧ Writes b s space answer.plan.ops s' := by
  induction left with
  | zero => exact restoreRound_cases 0 fun left' same => by cases same
  | succ left ih => exact restoreRound_cases (left + 1) fun left' same => by cases same; exact ih

/-- A plan that is written where it was made brings what it covers to where it is
    wanted, and leaves every other key alone. -/
theorem Brings.written {ops : List Op} (brings : Brings b s space covers want ops) (kept : Store.Kept s)
    (reads : b.RereadsTo s space covers want) (written : Writes b s space ops s') (key : String) :
    (covers key = true → s'.text space key = want key) ∧ (covers key = false → s'.live space key = s.live space key) := by
  cases written with
  | nothing idle =>
      subst idle
      exact ⟨fun covered => brings.rest key covered List.not_mem_nil, fun _ => rfl⟩
  | lands plan wrote =>
      refine ⟨fun covered => ?_, fun apart => ?_⟩
      · exact (brings.lands kept (fun key => kept.seen space key) plan wrote).mpr
          ⟨fun _ _ there => there, reads⟩ key covered
      · refine wrote_apart wrote fun p listed _ same => ?_
        obtain ⟨ops_eq, -⟩ := planWrite_spec plan
        have own : key = p.op.key := (Prod.mk.inj same).2.symm
        have covered := (brings.each p.op (ops_eq ▸ List.mem_map_of_mem listed)).1
        rw [own, covered] at apart
        cases apart

end Alone

/-! ## A snapshot's plan -/

section Plan

variable {b : Backend} {s : Store} {space : Space} {canWrite : String → Bool}

theorem foldlM_total {α β : Type} {step : β → α → Except DataError β} {list : List α}
    (each : ∀ a ∈ list, ∀ acc, ∃ acc', step acc a = .ok acc') (acc : β) : ∃ acc', list.foldlM step acc = .ok acc' := by
  induction list generalizing acc with
  | nil => exact ⟨acc, rfl⟩
  | cons a rest ih =>
      rw [List.forall_mem_cons] at each
      obtain ⟨next, one⟩ := each.1 acc
      obtain ⟨last, later⟩ := ih each.2 next
      exact ⟨last, by rw [List.foldlM_cons]; exact bind_eq_ok.mpr ⟨next, one, later⟩⟩

/-- Does a request name what a snapshot saved, or nothing? -/
def NamesSaved (set saved : KeySet) : Prop :=
  set.prefixes = [] ∧ set.excepts = [] ∨ set.prefixes = saved.prefixes ∧ set.excepts = saved.excepts

theorem canonical_of_rereads {v : Value} (reads : b.Rereads (String.ofList v.render)) :
    canonical v = .ok (String.ofList v.render) := by
  obtain ⟨v', -, wrote⟩ := reads
  have same := canonical_eq wrote
  rw [canonical, ← same] at wrote
  exact wrote

/-- A snapshot whose texts can be read has a plan wherever its keys may be
    written. -/
theorem planSnapshot_ok {doc : SnapshotDoc} {set saved : KeySet}
    (made : KeySet.new doc.prefixes doc.excepts set.skips = .ok saved) (names : NamesSaved set saved)
    (reads : ∀ key v, doc.items.lookup key = some v → b.Rereads (String.ofList v.render))
    (rights : ∀ key, saved.contains key = true → canWrite key = true) :
    ∃ plan, s.planSnapshot b space set canWrite doc = .ok plan := by
  have passes : ¬((!set.prefixes.isEmpty || !set.excepts.isEmpty) &&
      (decide (set.prefixes ≠ saved.prefixes) || decide (set.excepts ≠ saved.excepts))) = true := by
    rcases names with ⟨none, none'⟩ | ⟨same, same'⟩
    · simp [none, none']
    · simp [same, same']
  obtain ⟨targets, collected⟩ : ∃ targets, snapshotTargets (s.liveNames space) doc.items.rows saved = .ok targets := by
    refine foldlM_total (fun item there acc => ?_) _
    have found : doc.items.lookup item.1 = some item.2 := FinMap.mem_rows_iff.mp (List.mem_of_mem_filter there)
    rw [canonical_of_rereads (reads item.1 item.2 found)]
    exact ⟨_, rfl⟩
  obtain ⟨ops, planned⟩ := (snapshot_targets collected).planned (b := b) rights fun key t _ held _ => by
    obtain ⟨v, item, rfl⟩ := Option.map_eq_some_iff.mp held
    exact reads key v item
  exact ⟨_, bind_eq_ok.mpr ⟨saved, made, (if_neg passes).trans
    (bind_eq_ok.mpr ⟨targets, collected, bind_eq_ok.mpr ⟨ops, planned, rfl⟩⟩)⟩⟩

end Plan

/-! ## Skips -/

/-- Is a key under a skip that no prefix names? -/
def KeySet.skipped (set : KeySet) (key : String) : Bool :=
  set.skips.any fun s => under s key && !set.prefixes.any fun p => under s p && under p key

section Skips

variable {set : KeySet} {skips : List String} {key : String}

theorem KeySet.not_skipped (covered : set.contains key = true) : set.skipped key = false := by
  rw [KeySet.contains] at covered
  split at covered
  · cases covered
  · exact (Bool.not_eq_true' _).mp covered

theorem KeySet.contains_further (further : ∀ s ∈ set.skips, s ∈ skips) (key : String) :
    (⟨set.prefixes, set.excepts, skips⟩ : KeySet).contains key =
      (set.contains key && !(⟨set.prefixes, set.excepts, skips⟩ : KeySet).skipped key) := by
  have wider : set.skipped key = true → (⟨set.prefixes, set.excepts, skips⟩ : KeySet).skipped key = true := by
    simp only [KeySet.skipped, List.any_eq_true]
    rintro ⟨s, there, skipped⟩
    exact ⟨s, further s there, skipped⟩
  have split_set : ∀ set : KeySet, set.contains key =
      ((set.prefixes.isEmpty || set.prefixes.any (under · key)) && !set.excepts.any (under · key) &&
        !set.skipped key) := by
    intro set
    rw [KeySet.contains, KeySet.skipped]
    cases set.prefixes.isEmpty || set.prefixes.any (under · key) <;> cases set.excepts.any (under · key) <;> simp
  rw [split_set, split_set set]
  cases further_skipped : (⟨set.prefixes, set.excepts, skips⟩ : KeySet).skipped key with
  | true => simp
  | false =>
      cases skipped : set.skipped key with
      | true => rw [wider skipped] at further_skipped; cases further_skipped
      | false => simp

end Skips

/-! ## There and back -/

/-- The file of a set's keys restores them: it is read, and from every later state
    of the run a request that skips at least what the save did, and names no other
    keys, has a plan where its keys may be written. A restore that is answered
    brings each saved key that the skips leave to its saved text, and leaves every
    other key as it is. -/
def RestoresSaved (b : Backend) (run : Timeline) (space : Space) (set : KeySet) (bytes : List UInt8) : Prop :=
  ∀ hash, ∃ doc, parseSnapshot b hash bytes space = .ok doc ∧
    ∀ (later : Timeline) (set' : KeySet), (∃ ps es ks, KeySet.new ps es ks = .ok set') →
      (∀ s ∈ set.skips, s ∈ set'.skips) → NamesSaved set' set →
      let s := Store.ran b (run ++ later)
      let covers := fun key => set.contains key && !(⟨set.prefixes, set.excepts, set'.skips⟩ : KeySet).skipped key
      (∀ canWrite, (∀ key, covers key = true → canWrite key = true) →
        ∃ plan, s.restorePlan b space set' canWrite (.snapshot doc) = .ok plan) ∧
      ∀ canWrite who moment ids s' answer,
        s.restore b space ⟨.snapshot doc, set', canWrite, who⟩ moment ids = (s', .ok answer) →
        ∀ key, (covers key = true → s'.text space key = (Store.ran b run).text space key) ∧
          (covers key = false → s'.live space key = s.live space key)

/-- What is saved is read back as it is written: each text, and the file. -/
def ReadsSaved (b : Backend) (run : Timeline) (space : Space) (set : KeySet) (label : Option String)
    (canRead : String → Bool) (now : Int) : Prop :=
  (∀ key t, set.contains key = true → (Store.ran b run).text space key = some t → b.Rereads t) ∧
    ∀ doc n, (Store.ran b run).saved b space set label canRead now = .ok (doc, n) → nesting doc ≤ maxNesting →
      b.fromStr (String.ofList doc.render) = .ok doc

section Back

variable {b : Backend} {run : Timeline} {space : Space} {set : KeySet} {items : List (String × Value)}
  {canRead : String → Bool}

theorem restores_written (data : space.isData = true) {ps es ks : List String} (made : KeySet.new ps es ks = .ok set)
    (ok : saveItems b set canRead ((Store.ran b run).liveRows space) = .ok items)
    (reads : ∀ key t, set.contains key = true → (Store.ran b run).text space key = some t → b.Rereads t) {table : FinMap String Value}
    (found : ∀ key, table.lookup key = items.lookup key) (hash : String) {rev : Int} {later : Timeline}
    {set' : KeySet} {ps' es' ks' : List String} (made' : KeySet.new ps' es' ks' = .ok set')
    (further : ∀ s ∈ set.skips, s ∈ set'.skips) (names : NamesSaved set' set) :
    let doc : SnapshotDoc := ⟨hash, set.prefixes, set.excepts, rev, table⟩
    let s := Store.ran b (run ++ later)
    let covers := fun key => set.contains key && !(⟨set.prefixes, set.excepts, set'.skips⟩ : KeySet).skipped key
    (∀ canWrite, (∀ key, covers key = true → canWrite key = true) →
      ∃ plan, s.restorePlan b space set' canWrite (.snapshot doc) = .ok plan) ∧
    ∀ canWrite who moment ids s' answer,
      s.restore b space ⟨.snapshot doc, set', canWrite, who⟩ moment ids = (s', .ok answer) →
      ∀ key, (covers key = true → s'.text space key = (Store.ran b run).text space key) ∧
        (covers key = false → s'.live space key = s.live space key) := by
  intro doc s covers
  have covers_eq : (⟨set.prefixes, set.excepts, set'.skips⟩ : KeySet).contains = covers :=
    funext (KeySet.contains_further further)
  have wants : ∀ key, ((doc.items.lookup key).map fun v => String.ofList v.render) =
      if set.contains key = true then (Store.ran b run).text space key else none := fun key => by
    rw [show doc.items.lookup key = items.lookup key from found key]
    exact saved_wants ok reads key
  have rereads : ∀ key v, doc.items.lookup key = some v → b.Rereads (String.ofList v.render) := by
    intro key v item
    have want := wants key
    rw [item, Option.map_some] at want
    split at want
    next covered => exact reads key _ covered want.symm
    next => cases want
  have plan_eq : ∀ canWrite, s.restorePlan b space set' canWrite (.snapshot doc) =
      s.planSnapshot b space set' canWrite doc := fun canWrite => by
    rw [Store.restorePlan, data]
    rfl
  refine ⟨fun canWrite rights => ?_, fun canWrite who moment ids s' answer done key => ?_⟩
  · rw [plan_eq]
    exact planSnapshot_ok (KeySet.new_again made made') names rereads fun key covered => rights key (covers_eq ▸ covered)
  · rcases restoreRounds_cases (b := b) s space ⟨.snapshot doc, set', canWrite, who⟩ moment ids (restoreTries - 1) with ⟨e, refused⟩ |
      ⟨s'', answer', wrote, planned, written⟩
    · cases done.symm.trans refused
    · obtain ⟨rfl, same⟩ := Prod.mk.inj (done.symm.trans wrote)
      obtain rfl := Except.ok.inj same
      obtain ⟨-, brings⟩ := planSnapshot_brings ((plan_eq canWrite).symm.trans planned)
      obtain ⟨lands, stays⟩ := brings.written (ran_kept _) (fun key t _ held _ => by
        obtain ⟨v, item, rfl⟩ := Option.map_eq_some_iff.mp held
        exact rereads key v item) written key
      have covers_key : (⟨set.prefixes, set.excepts, set'.skips⟩ : KeySet).contains key = covers key := congrFun covers_eq key
      refine ⟨fun covered => ?_, fun apart => stays (covers_key.trans apart)⟩
      rw [lands (covers_key.trans covered), wants, if_pos (Bool.and_eq_true _ _ |>.mp covered).1]

end Back

/-- A set's keys saved after a run come back from their file, at every later state
    of the run and whatever the request skips further, only if no saved value nests
    deeper than 124 arrays and objects: the file puts three around each. And they do
    so then if all of it is read back as it is written. A request with the save's own
    skips covers all of the set. -/
theorem snapshot_restores (b : Backend) (run : Timeline) (space : Space) (ps es ks : List String) (set : KeySet)
    (made : KeySet.new ps es ks = .ok set) (label : Option String) (canRead : String → Bool) (now : Int)
    (bytes : List UInt8) (rev : Int) (n : Nat)
    (saved : (Store.ran b run).snapshotDoc b space set label canRead now = .ok (bytes, rev, n))
    (fits : (Store.ran b run).headRev space < 2 ^ 63)
    (limit : ∀ doc n, (Store.ran b run).saved b space set label canRead now = .ok (doc, n) → b.RefusesDeep doc) :
    let shallow := ∀ key t v, set.contains key = true → (Store.ran b run).text space key = some t →
      b.fromStr t = .ok v → nesting v ≤ 124
    (RestoresSaved b run space set bytes → shallow) ∧
    (shallow → ReadsSaved b run space set label canRead now → RestoresSaved b run space set bytes) ∧
    ∀ key, set.contains key = true → set.skipped key = false := by
  intro shallow
  rw [← and_assoc]
  refine ⟨?_, fun key => KeySet.not_skipped⟩
  obtain ⟨⟨doc, n'⟩, made_doc, sized⟩ := bind_eq_ok.mp saved
  have limit := limit doc n' made_doc
  dsimp only at sized
  split at sized
  · cases sized
  next small =>
    cases sized
    have same_doc := made_doc
    rw [Store.saved] at made_doc
    split at made_doc
    · cases made_doc
    next data =>
      rw [Bool.not_eq_true', Bool.not_eq_false] at data
      obtain ⟨items, ok, same⟩ := bind_eq_ok.mp made_doc
      cases same
      have flat_iff : (∀ item ∈ items, nesting item.2 ≤ 124) ↔ shallow := by
        constructor
        · intro flat key t v covered text parsed
          obtain ⟨v', there⟩ := saved_keys ok covered (by rw [text]; exact Option.some_ne_none t)
          obtain ⟨-, t', text', parsed'⟩ := saved_text ok there
          obtain rfl := Option.some.inj (text.symm.trans text')
          obtain rfl := Except.ok.inj (parsed.symm.trans parsed')
          exact flat _ there
        · intro flat item there
          obtain ⟨covered, t, text, parsed⟩ := saved_text ok there
          exact flat item.1 t item.2 covered text parsed
      have slice : ∀ v, b.fromSlice (toVec v) = b.fromStr (String.ofList v.render) := fun v => by
        rw [Backend.fromSlice, toVec, fromUtf8_utf8]
      rw [← flat_iff, ← nesting_snapshotJson space set ((Store.ran b run).headRev space) now label]
      constructor
      · intro restores
        by_contra deep
        obtain ⟨e, refused⟩ := limit (not_le.mp deep)
        obtain ⟨doc, read, -⟩ := restores ""
        rw [parseSnapshot, slice, refused] at read
        cases read
      · rintro flat ⟨texts, file⟩ hash
        obtain ⟨table, read, found⟩ := readSnapshot_written hash space set now label
          ⟨by have := (ran_kept (b := b) run).nonneg space; omega, fits⟩ (saved_valid ok) (nodup_saved ok)
        refine ⟨⟨hash, set.prefixes, set.excepts, (Store.ran b run).headRev space, table⟩, ?_,
          fun later set' clean further names => ?_⟩
        · rw [parseSnapshot, slice, file _ _ same_doc flat]
          exact read
        · obtain ⟨ps', es', ks', made'⟩ := clean
          exact restores_written data made ok texts found hash made' further names

/-! ### A saved key, and one too deep -/

namespace Saving

def board : Space := ⟨"data:board"⟩

def put (key : String) (v : Value) : Timeline := [(0, .write 0 board [.put key v none] "owner" true none)]

def one : Value := .number (.int 1)

/-- The file of one key. -/
def doc : Value := snapshotJson board ⟨[], [], []⟩ 1 5 none [("obj/1", one)]

def reader (v doc : Value) : Backend where
  maxFileBytes := 1000
  fromStr text :=
    if text = String.ofList v.render then .ok v
    else if text = String.ofList doc.render ∧ nesting doc ≤ maxNesting then .ok doc
    else .error "recursion limit exceeded"

def bars : Nat → Value
  | 0 => .array []
  | n + 1 => .array [bars n]

/-- A value of 125 arrays, as deep as a call's body may carry. -/
def deep : Value := bars 124

def deepDoc : Value := snapshotJson board ⟨[], [], []⟩ 1 5 none [("deep", deep)]

def row (key : String) (v : Value) : EntryRow where
  space := board
  key := key
  rev := 1
  deleted := false
  value := some (String.ofList v.render)
  size := Text.byteLen (String.ofList v.render)
  updatedAt := 0
  updatedBy := "owner"
  check := rfl

section Reader

variable {v doc : Value} {key : String}

theorem reader_value (rows : (Store.ran (reader v doc) (put key v)).entries.rows = [row key v]) {k t : String}
    (text : (Store.ran (reader v doc) (put key v)).text board k = some t) :
    t = String.ofList v.render ∧ (reader v doc).fromStr t = .ok v := by
  obtain ⟨e, member, value⟩ := entry_of_text text
  rw [rows, List.mem_singleton] at member
  subst member
  obtain rfl := Option.some.inj value
  exact ⟨rfl, if_pos rfl⟩

theorem reader_rereads (rows : (Store.ran (reader v doc) (put key v)).entries.rows = [row key v])
    (short : canonical v = .ok (String.ofList v.render)) (k t : String)
    (text : (Store.ran (reader v doc) (put key v)).text board k = some t) : (reader v doc).Rereads t := by
  obtain ⟨rfl, parsed⟩ := reader_value rows text
  exact ⟨v, parsed, short⟩

theorem reader_file (apart : String.ofList doc.render ≠ String.ofList v.render) : (reader v doc).RefusesDeep doc ∧
    (nesting doc ≤ maxNesting → (reader v doc).fromStr (String.ofList doc.render) = .ok doc) := by
  refine ⟨fun deep => ⟨_, (if_neg apart).trans (if_neg fun both => ?_)⟩,
    fun flat => (if_neg apart).trans (if_pos ⟨rfl, flat⟩)⟩
  exact absurd both.2 (not_le.mpr deep)

theorem reader_saved (rows : (Store.ran (reader v doc) (put key v)).entries.rows = [row key v])
    (head : (Store.ran (reader v doc) (put key v)).headRev board = 1) :
    (Store.ran (reader v doc) (put key v)).saved (reader v doc) board ⟨[], [], []⟩ none (fun _ => true) 5 =
      .ok (snapshotJson board ⟨[], [], []⟩ 1 5 none [(key, v)], 1) := by
  have listed : (Store.ran (reader v doc) (put key v)).liveRows board = [row key v] := by
    rw [Store.liveRows, rows]
    rfl
  have read : (reader v doc).parseValue (row key v).value = .ok v := by
    have parsed : (reader v doc).fromStr (String.ofList v.render) = .ok v := if_pos rfl
    rw [row, Backend.parseValue, parsed]
  rw [Store.saved, listed, head]
  refine bind_eq_ok.mpr ⟨[(key, v)], ?_, rfl⟩
  exact bind_eq_ok.mpr ⟨v, read, rfl⟩

theorem reader_document (rows : (Store.ran (reader v doc) (put key v)).entries.rows = [row key v])
    (head : (Store.ran (reader v doc) (put key v)).headRev board = 1)
    (made : doc = snapshotJson board ⟨[], [], []⟩ 1 5 none [(key, v)])
    (apart : String.ofList doc.render ≠ String.ofList v.render) (doc' : Value) (n : Nat)
    (saved : (Store.ran (reader v doc) (put key v)).saved (reader v doc) board ⟨[], [], []⟩ none (fun _ => true) 5 =
      .ok (doc', n)) : (reader v doc).RefusesDeep doc' ∧
    (nesting doc' ≤ maxNesting → (reader v doc).fromStr (String.ofList doc'.render) = .ok doc') := by
  obtain ⟨same, -⟩ := Prod.mk.inj (Except.ok.inj (saved.symm.trans (reader_saved rows head)))
  rw [same, ← made]
  exact reader_file apart

theorem reader_refuses (apart : String.ofList doc.render ≠ String.ofList v.render) (deep : ¬nesting doc ≤ maxNesting)
    (hash : String) : parseSnapshot (reader v doc) hash (toVec doc) board = .error (notSnapshot "not JSON") := by
  have refused : (reader v doc).fromStr (String.ofList doc.render) = .error "recursion limit exceeded" :=
    (if_neg apart).trans (if_neg fun both => deep both.2)
  have slice : (reader v doc).fromSlice (toVec doc) = (reader v doc).fromStr (String.ofList doc.render) := by
    rw [Backend.fromSlice, toVec, fromUtf8_utf8]
  rw [parseSnapshot, slice, refused]

end Reader

end Saving

theorem snapshot_restores_one : RestoresSaved (Saving.reader Saving.one Saving.doc) (Saving.put "obj/1" Saving.one)
    Saving.board ⟨[], [], []⟩ (toVec Saving.doc) := by
  have rows : (Store.ran (Saving.reader Saving.one Saving.doc) (Saving.put "obj/1" Saving.one)).entries.rows =
    [Saving.row "obj/1" Saving.one] := by decide +kernel
  have document := Saving.reader_document rows (by decide +kernel) rfl (by decide +kernel)
  refine (snapshot_restores (Saving.reader Saving.one Saving.doc) (Saving.put "obj/1" Saving.one) Saving.board
    [] [] [] ⟨[], [], []⟩ rfl none (fun _ => true) 5 (toVec Saving.doc) 1 1 (by decide +kernel) (by decide +kernel)
    fun doc n saved => (document doc n saved).1).2.1 ?_
    ⟨fun key t _ => Saving.reader_rereads rows rfl key t, fun doc n saved => (document doc n saved).2⟩
  intro key t v _ text parsed
  cases parsed.symm.trans (Saving.reader_value rows text).2
  decide

theorem deep_value_lost :
    ¬ ∀ (b : Backend) (run : Timeline) (space : Space) (ps es ks : List String) (set : KeySet),
      KeySet.new ps es ks = .ok set → ∀ (label : Option String) (canRead : String → Bool) (now : Int)
      (bytes : List UInt8) (rev : Int) (n : Nat),
      (Store.ran b run).snapshotDoc b space set label canRead now = .ok (bytes, rev, n) →
      (∀ doc n, (Store.ran b run).saved b space set label canRead now = .ok (doc, n) → b.RefusesDeep doc) →
      ReadsSaved b run space set label canRead now → RestoresSaved b run space set bytes := by
  intro restores
  have rows : (Store.ran (Saving.reader Saving.deep Saving.deepDoc) (Saving.put "deep" Saving.deep)).entries.rows =
    [Saving.row "deep" Saving.deep] := by decide +kernel
  have apart : String.ofList Saving.deepDoc.render ≠ String.ofList Saving.deep.render := by decide +kernel
  have deep := restores (Saving.reader Saving.deep Saving.deepDoc) (Saving.put "deep" Saving.deep) Saving.board [] [] []
    ⟨[], [], []⟩ rfl none (fun _ => true) 5 (toVec Saving.deepDoc) 1 1 (by decide +kernel)
    (fun doc n saved => (Saving.reader_document rows (by decide +kernel) rfl apart doc n saved).1)
    ⟨fun key t _ => Saving.reader_rereads rows (by decide +kernel) key t,
      fun doc n saved => (Saving.reader_document rows (by decide +kernel) rfl apart doc n saved).2⟩
  obtain ⟨doc, read, -⟩ := deep ""
  cases read.symm.trans (Saving.reader_refuses apart (by decide +kernel) "")

end K2.GardenData
