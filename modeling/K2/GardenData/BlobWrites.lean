import K2.GardenData.BlobCounts
import K2.GardenData.BlobStore
import K2.GardenData.Recorded

/-! # Blobs through writes, deletes and moves

A space's live values and its blob tables move together: a write sets the refs of
the keys it changes to those of the new values, a delete leaves nothing that names,
and a move takes values and refs along.
-/

namespace K2.GardenData

open Store (movedFrom movedFrom_eq_some mem_placed)

namespace BlobTables

section Spaces

variable {t t' : BlobTables} {space : String}

theorem naming_congr {hash : String}
    (same : ∀ r : BlobRef, r.space = space → r.hash = hash → (r ∈ t'.refs.rows ↔ r ∈ t.refs.rows)) :
    t'.naming space hash = t.naming space hash := by
  refine KeyedTable.count_eq_of_get fun r chosen => ?_
  simp only [Bool.and_eq_true, decide_eq_true_eq] at chosen
  have rows := same r chosen.1 chosen.2
  rw [Option.ext_iff]
  intro r'
  rw [KeyedTable.get_eq_some, KeyedTable.get_eq_some]
  constructor
  · rintro ⟨there, rfl⟩
    exact ⟨rows.mp there, rfl⟩
  · rintro ⟨there, rfl⟩
    exact ⟨rows.mpr there, rfl⟩

theorem mem_refs_deleteSpace {r : BlobRef} :
    r ∈ (t.deleteSpace space).refs.rows ↔ r ∈ t.refs.rows ∧ r.space ≠ space := by
  simp [deleteSpace]

theorem mem_held_deleteSpace {row : SpaceBlob} :
    row ∈ (t.deleteSpace space).held.rows ↔ row ∈ t.held.rows ∧ row.space ≠ space := by
  simp [deleteSpace]

/-- A row as a deleted space leaves it. -/
def letGoAs (tomb : String) (now : Int) (row : SpaceBlob) : SpaceBlob :=
  { row with space := tomb, refs := 0, firstRefAt := row.firstRefAt.or (some now), unrefAt := row.unrefAt.or (some now) }

theorem tombstoneSpace_spec {now : Int} {rand : String} (dropped : t.tombstoneSpace space now rand = .ok t') :
    t'.refs = t.refs ∧ ∃ tomb, (⟨tomb⟩ : Space).isData = false ∧
      t'.held.rows = t.held.rows.map fun row => if row.space = space then letGoAs tomb now row else row := by
  simp only [tombstoneSpace] at dropped
  split at dropped
  · rename_i held moved
    cases dropped
    refine ⟨rfl, _, isData_tombstone (toString now ++ ":" ++ rand ++ ":" ++ space), ?_⟩
    have rows := KeyedTable.rows_of_rekey moved
    simp only [decide_eq_true_eq] at rows
    simpa only [letGoAs, String.append_assoc] using rows
  · cases dropped

/-- A delete of a space leaves none of its refs, and its rows as let-go copies. -/
theorem Counted.dropSpace (counted : t.Counted) {now : Int} {rand : String}
    (dropped : t.tombstoneSpace space now rand = .ok t') :
    (t'.deleteSpace space).Counted ∧
      (∀ r, r ∈ (t'.deleteSpace space).refs.rows ↔ r ∈ t.refs.rows ∧ r.space ≠ space) ∧
      ∀ row ∈ (t'.deleteSpace space).held.rows, ∃ old ∈ t.held.rows, old.hash = row.hash := by
  obtain ⟨refs, tomb, not_data, rows⟩ := tombstoneSpace_spec dropped
  have named : ∀ r, r ∈ (t'.deleteSpace space).refs.rows ↔ r ∈ t.refs.rows ∧ r.space ≠ space := by
    intro r
    rw [mem_refs_deleteSpace, refs]
  have back : ∀ row ∈ (t'.deleteSpace space).held.rows, (row ∈ t.held.rows ∧ row.space ≠ space) ∨
      ∃ old ∈ t.held.rows, row = letGoAs tomb now old := by
    intro row member
    obtain ⟨member, apart⟩ := mem_held_deleteSpace.mp member
    rw [rows] at member
    obtain ⟨old, there, rfl⟩ := List.mem_map.mp member
    split at apart
    next own => exact .inr ⟨old, there, if_pos own⟩
    next other => exact .inl ⟨(if_neg other).symm ▸ there, (if_neg other).symm ▸ other⟩
  refine ⟨⟨?_, ?_, ?_, ?_⟩, named, ?_⟩
  · exact fun r member => counted.data r ((named r).mp member).1
  · intro r member
    obtain ⟨there, apart⟩ := (named r).mp member
    obtain ⟨row, found⟩ := Option.isSome_iff_exists.mp (counted.held r there)
    obtain ⟨held, own⟩ := KeyedTable.get_eq_some.mp found
    have here : row.space = r.space := (Prod.ext_iff.mp own).1
    have stays : row ∈ (t'.deleteSpace space).held.rows := by
      rw [mem_held_deleteSpace, rows, here]
      exact ⟨List.mem_map.mpr ⟨row, held, if_neg (here.trans_ne apart)⟩, apart⟩
    rw [← own, KeyedTable.get_of_mem stays]
    rfl
  · intro row member
    rcases back row member with ⟨there, apart⟩ | ⟨old, there, rfl⟩
    · rw [counted.count row there]
      refine congrArg Nat.cast (naming_congr fun r here _ => ?_).symm
      rw [named]
      exact and_iff_left (here.trans_ne apart)
    · have zero : (t'.deleteSpace space).naming tomb old.hash = 0 := by
        refine naming_eq_zero fun r member here => ?_
        have data := counted.data r ((named r).mp member).1
        rw [here, not_data] at data
        cases data
      simp only [letGoAs, zero]
      rfl
  · intro row member
    rcases back row member with ⟨there, -⟩ | ⟨old, there, rfl⟩
    · exact counted.unref row there
    · exact fun _ => rfl
  · intro row member
    rcases back row member with ⟨there, -⟩ | ⟨old, there, rfl⟩
    · exact ⟨row, there, rfl⟩
    · exact ⟨old, there, rfl⟩

/-! ### Moves -/

theorem space_eq_iff {name : String} {space : Space} : (⟨name⟩ : Space) = space ↔ name = space.name := by
  obtain ⟨other⟩ := space
  simp only [Space.mk.injEq]

theorem moveSpace_spec {source target : Space} (moved : t.moveSpace source.name target.name = .ok t') :
    (t'.refs.rows = (t.refs.rows.filter fun r => (⟨r.space⟩ : Space) ≠ target).map fun r =>
      if (⟨r.space⟩ : Space) = source then { r with space := target.name } else r) ∧
    t'.held.rows = (t.held.rows.filter fun row => (⟨row.space⟩ : Space) ≠ target).map fun row =>
      if (⟨row.space⟩ : Space) = source then { row with space := target.name } else row := by
  simp only [moveSpace] at moved
  split at moved
  · rename_i refs held moved_refs moved_held
    cases moved
    have refs_rows := KeyedTable.rows_of_rekey moved_refs
    have held_rows := KeyedTable.rows_of_rekey moved_held
    simp only [decide_eq_true_eq] at refs_rows held_rows
    simp only [ne_eq, space_eq_iff]
    refine ⟨refs_rows.trans ?_, held_rows.trans ?_⟩
    · simp [deleteSpace, KeyedTable.deleteWhere]
    · simp [deleteSpace, KeyedTable.deleteWhere]
  · cases moved
  · cases moved

theorem mem_moved_refs {source target : Space} (moved : t.moveSpace source.name target.name = .ok t') {r : BlobRef} :
    r ∈ t'.refs.rows ↔ ∃ origin, movedFrom source target ⟨r.space⟩ = some origin ∧
      { r with space := origin.name } ∈ t.refs.rows := by
  rw [(moveSpace_spec moved).1]
  exact mem_placed (fun r : BlobRef => ⟨r.space⟩) (fun r x => { r with space := x.name }) (fun _ _ => rfl)
    (fun _ => rfl) (fun _ _ _ => rfl) ..

theorem mem_moved_held {source target : Space} (moved : t.moveSpace source.name target.name = .ok t')
    {row : SpaceBlob} : row ∈ t'.held.rows ↔ ∃ origin, movedFrom source target ⟨row.space⟩ = some origin ∧
      { row with space := origin.name } ∈ t.held.rows := by
  rw [(moveSpace_spec moved).2]
  exact mem_placed (fun row : SpaceBlob => ⟨row.space⟩) (fun row x => { row with space := x.name }) (fun _ _ => rfl)
    (fun _ => rfl) (fun _ _ _ => rfl) ..

theorem naming_moved {source target : Space} (moved : t.moveSpace source.name target.name = .ok t')
    (space hash : String) : t'.naming space hash =
      ((movedFrom source target ⟨space⟩).map fun origin => t.naming origin.name hash).getD 0 := by
  have pulled : t'.naming space hash = t.refs.rows.countP fun r =>
      movedFrom source target ⟨space⟩ = some ⟨r.space⟩ && r.hash = hash := by
    rw [naming, KeyedTable.count, (moveSpace_spec moved).1, List.countP_map, List.countP_filter]
    refine List.countP_congr fun r _ => ?_
    simp only [Function.comp_apply, Bool.and_eq_true, decide_eq_true_eq, movedFrom_eq_some]
    by_cases own : (⟨r.space⟩ : Space) = source
    · have place : target = ⟨space⟩ ↔ target.name = space := by rw [eq_comm, space_eq_iff, eq_comm]
      rw [if_pos own, if_pos own, place]
      tauto
    · have place : (⟨r.space⟩ : Space) = ⟨space⟩ ↔ r.space = space := space_eq_iff
      rw [if_neg own, if_neg own, place]
      tauto
  rw [pulled]
  cases movedFrom source target ⟨space⟩ with
  | none => simp
  | some origin =>
      obtain ⟨name⟩ := origin
      refine List.countP_congr fun r _ => ?_
      simp only [Option.some.injEq, Space.mk.injEq, eq_comm]

theorem Counted.moveSpace (counted : t.Counted) {source target : Space} (kind : source.isData = target.isData)
    (moved : t.moveSpace source.name target.name = .ok t') : t'.Counted := by
  have data_of : ∀ {name : String} {origin : Space}, movedFrom source target ⟨name⟩ = some origin →
      origin.isData = true → (⟨name⟩ : Space).isData = true := by
    intro name origin place data
    obtain ⟨-, placed⟩ := movedFrom_eq_some.mp place
    split at placed
    next own => rw [← placed, ← kind, ← own, data]
    next other => rw [← placed, data]
  constructor
  case data =>
    intro r member
    obtain ⟨origin, place, there⟩ := (mem_moved_refs moved).mp member
    exact data_of place (counted.data _ there)
  case held =>
    intro r member
    obtain ⟨origin, place, there⟩ := (mem_moved_refs moved).mp member
    obtain ⟨row, found⟩ := Option.isSome_iff_exists.mp (counted.held _ there)
    obtain ⟨held, own⟩ := KeyedTable.get_eq_some.mp found
    obtain ⟨here, same⟩ := Prod.mk.inj own
    simp only at here same
    have stays : { row with space := r.space } ∈ t'.held.rows :=
      (mem_moved_held moved).mpr ⟨origin, place, by rw [← here]; exact held⟩
    have key : (r.space, r.hash) = SpaceBlob.key { row with space := r.space } := by rw [← same]; rfl
    rw [key, KeyedTable.get_of_mem stays]
    rfl
  case count =>
    intro row member
    obtain ⟨origin, place, there⟩ := (mem_moved_held moved).mp member
    rw [naming_moved moved, place, Option.map_some, Option.getD_some]
    exact counted.count _ there
  case unref =>
    intro row member
    obtain ⟨origin, place, there⟩ := (mem_moved_held moved).mp member
    exact counted.unref { row with space := origin.name } there

theorem setAuxRev_counted {rev : Int} (counted : t.Counted) : (t.setAuxRev space rev).Counted :=
  ⟨counted.data, counted.held, counted.count, counted.unref⟩

end Spaces

end BlobTables

/-! ## Values and refs -/

/-- What a key names: the refs of the value whose text it holds, and nothing
    without one. -/
def Names : Option String → (String → Prop) → Prop
  | none, named => ∀ h, ¬ named h
  | some t, named => ∃ v, canonical v = .ok t ∧ ∀ h, named h ↔ h ∈ walkRefs v

/-- The live values and the blob tables agree. -/
structure Linked (s : Store) : Prop where
  counted : s.blobs.Counted
  named : ∀ space : Space, space.isData = true → ∀ key,
    Names (s.text space key) fun h => ⟨space.name, key, h⟩ ∈ s.blobs.refs.rows

/-- Every blob a space holds now was held before, by some space. -/
def HeldBefore (s s' : Store) : Prop :=
  ∀ row ∈ s'.blobs.held.rows, ∃ old ∈ s.blobs.held.rows, old.hash = row.hash

theorem HeldBefore.refl (s : Store) : HeldBefore s s := fun row member => ⟨row, member, rfl⟩

theorem HeldBefore.trans {s s' s'' : Store} (first : HeldBefore s s') (second : HeldBefore s' s'') :
    HeldBefore s s'' := by
  intro row member
  obtain ⟨mid, there, same⟩ := second row member
  obtain ⟨old, before, same'⟩ := first mid there
  exact ⟨old, before, same'.trans same⟩

theorem HeldBefore.of_keys {s s' : Store}
    (keys : ∀ k, (s'.blobs.held.get k).isSome = (s.blobs.held.get k).isSome) : HeldBefore s s' := by
  intro row member
  have there : (s.blobs.held.get row.key).isSome := by
    rw [← keys, KeyedTable.get_of_mem member]
    rfl
  obtain ⟨old, found⟩ := Option.isSome_iff_exists.mp there
  obtain ⟨before, own⟩ := KeyedTable.get_eq_some.mp found
  exact ⟨old, before, (Prod.ext_iff.mp own).2⟩

/-- The live entries of a space whose keys have a ref to a hash. -/
def Store.namers (s : Store) (space : Space) (hash : String) : List EntryRow :=
  s.entries.rows.filter fun e =>
    e.space = space && !e.deleted && decide (⟨space.name, e.key, hash⟩ ∈ s.blobs.refs.rows)

theorem entry_of_live {s : Store} {space : Space} {key : String} (there : s.text space key ≠ none) :
    ∃ e ∈ s.entries.rows, e.space = space ∧ e.key = key ∧ e.deleted = false := by
  cases found : s.entries.get (space, key) with
  | none =>
      rw [Store.text, Store.live_of_none found] at there
      exact absurd rfl there
  | some e =>
      obtain ⟨member, own⟩ := KeyedTable.get_eq_some.mp found
      obtain ⟨here, same⟩ := Prod.mk.inj own
      refine ⟨e, member, here, same, ?_⟩
      cases gone : e.deleted with
      | false => rfl
      | true =>
          rw [Store.text, Store.live_of_some found, gone] at there
          exact absurd rfl there

theorem Linked.naming_eq {s : Store} (linked : Linked s) (space : Space) (hash : String) :
    s.blobs.naming space.name hash = (s.namers space hash).length := by
  have refs_once : (s.blobs.refs.rows.filter fun r => r.space = space.name && r.hash = hash).Nodup :=
    (List.Nodup.of_map id s.blobs.refs.distinct).filter _
  have entries_once : (s.namers space hash).Nodup := (List.Nodup.of_map EntryRow.pk s.entries.distinct).filter _
  have keys : ((s.namers space hash).map EntryRow.key).Nodup := by
    refine List.Nodup.map_on (fun e member e' member' same => ?_) entries_once
    simp only [Store.namers, List.mem_filter, Bool.and_eq_true, decide_eq_true_eq] at member member'
    exact s.entries.eq_of_key member.1 member'.1 (Prod.ext (member.2.1.1.trans member'.2.1.1.symm) same)
  have refs_keys : ((s.blobs.refs.rows.filter fun r => r.space = space.name && r.hash = hash).map BlobRef.key).Nodup := by
    refine List.Nodup.map_on (fun r member r' member' same => ?_) refs_once
    simp only [List.mem_filter, Bool.and_eq_true, decide_eq_true_eq] at member member'
    obtain ⟨space₁, key₁, hash₁⟩ := r
    obtain ⟨space₂, key₂, hash₂⟩ := r'
    simp only at member member' same
    rw [member.2.1, member.2.2, member'.2.1, member'.2.2, same]
  rw [BlobTables.naming, KeyedTable.count, List.countP_eq_length_filter, ← List.length_map BlobRef.key,
    ← @List.length_map _ _ (s.namers space hash) EntryRow.key]
  refine ((List.perm_ext_iff_of_nodup refs_keys keys).mpr fun key => ?_).length_eq
  simp only [List.mem_map, List.mem_filter, Store.namers, Bool.and_eq_true, decide_eq_true_eq, Bool.not_eq_true']
  constructor
  · rintro ⟨⟨_, key, hash⟩, ⟨member, rfl, rfl⟩, rfl⟩
    have named := linked.named space (linked.counted.data _ member) key
    have live : s.text space key ≠ none := by
      intro gone
      rw [gone] at named
      exact named hash member
    obtain ⟨e, there, here, same, alive⟩ := entry_of_live live
    exact ⟨e, ⟨there, ⟨here, alive⟩, same ▸ member⟩, same⟩
  · rintro ⟨e, ⟨-, ⟨-, -⟩, named⟩, rfl⟩
    exact ⟨_, ⟨named, rfl, rfl⟩, rfl⟩

theorem linked_empty : Linked .empty := ⟨BlobTables.counted_empty, fun _ _ _ _ => nofun⟩

/-- A planned op carries the refs of the value it writes. -/
def Planned.Carries (p : Planned) : Prop :=
  (p.refs.getD []).Nodup ∧ ∀ t, p.act = .write t → ∃ v, canonical v = .ok t ∧
    ∀ h, h ∈ p.refs.getD [] ↔ h ∈ walkRefs v

section Plan

variable {b : Backend} {s : Store} {moment : Moment} {space : Space} {ops : List Op} {indexed : Bool} {i : Nat}

theorem scanRefs_spec {v : Value} {refs : List String} (scanned : scanRefs v = .ok refs) :
    refs.Nodup ∧ ∀ h, h ∈ refs ↔ h ∈ walkRefs v := by
  simp only [scanRefs] at scanned
  split at scanned
  · cases scanned
  · cases scanned
    exact ⟨nodup_sortedSet _, fun h => mem_sortedSet⟩

theorem refsIn_spec {op : Op} {v : Value} {refs : Option (List String)}
    (found : refsIn true indexed i op v = .ok refs) :
    (refs.getD []).Nodup ∧ ∀ h, h ∈ refs.getD [] ↔ h ∈ walkRefs v := by
  simp only [refsIn, if_true, map_eq_ok, mapError_eq_ok] at found
  obtain ⟨names, scanned, rfl⟩ := found
  exact scanRefs_spec scanned

theorem shape_carries {op : Op} {sh : Shaped} (shaped : shape true indexed i op = .ok sh) :
    (sh.refs.getD []).Nodup ∧ ∀ t, sh.act = .write t → ∃ v, canonical v = .ok t ∧
      ∀ h, h ∈ sh.refs.getD [] ↔ h ∈ walkRefs v := by
  cases op with
  | put key value ifRev =>
      simp only [shape, bind_eq_ok] at shaped
      obtain ⟨refs, found, text, wrote, same⟩ := shaped
      cases same
      obtain ⟨once, named⟩ := refsIn_spec found
      refine ⟨once, fun t same => ?_⟩
      cases same
      exact ⟨value, wrote, named⟩
  | delete key ifRev =>
      cases shaped
      exact ⟨List.nodup_nil, fun t same => by cases same⟩
  | patch key part ifRev =>
      simp only [shape, bind_eq_ok] at shaped
      obtain ⟨-, -, same⟩ := shaped
      cases same
      exact ⟨List.nodup_nil, fun t same => by cases same⟩

theorem merge_carries (data : space.isData = true) {live : Live} {sh : Shaped} {p : Planned}
    (shaped : (sh.refs.getD []).Nodup ∧ ∀ t, sh.act = .write t → ∃ v, canonical v = .ok t ∧
      ∀ h, h ∈ sh.refs.getD [] ↔ h ∈ walkRefs v)
    (planned : sh.merge b space indexed i live = .ok p) : p.Carries := by
  obtain ⟨op, act, refs⟩ := sh
  cases op with
  | put key value ifRev =>
      cases planned
      exact shaped
  | delete key ifRev =>
      cases planned
      exact shaped
  | patch key part ifRev =>
      simp only [Shaped.merge, bind_eq_ok] at planned
      obtain ⟨current, -, answer, -, planned⟩ := planned
      cases answer with
      | none =>
          cases planned
          exact ⟨shaped.1, fun t same => by cases same⟩
      | some doc =>
          simp only [bind_eq_ok, data] at planned
          obtain ⟨refs', found, text, wrote, same⟩ := planned
          cases same
          obtain ⟨once, named⟩ := refsIn_spec found
          refine ⟨once, fun t same => ?_⟩
          cases same
          exact ⟨doc, wrote, named⟩

theorem shapes_mem {blobsOn : Bool} {seen : List String} {shaped : List Shaped}
    (ok : shapes blobsOn indexed seen i ops = .ok shaped) :
    ∀ sh ∈ shaped, ∃ i op, shape blobsOn indexed i op = .ok sh := by
  induction ops generalizing seen i shaped with
  | nil =>
      cases ok
      exact nofun
  | cons op rest ih =>
      simp only [shapes, bind_eq_ok] at ok
      obtain ⟨-, -, ok⟩ := ok
      split at ok
      · cases ok
      · simp only [bind_eq_ok] at ok
        obtain ⟨sh, here, more, later, same⟩ := ok
        cases same
        intro sh' member
        rcases List.mem_cons.mp member with rfl | member
        · exact ⟨i, op, here⟩
        · exact ih later sh' member

theorem plans_mem {shaped : List Shaped} {planned : List Planned} (ok : plans b s space indexed i shaped = .ok planned) :
    ∀ p ∈ planned, ∃ sh ∈ shaped, ∃ i live, sh.merge b space indexed i live = .ok p := by
  induction shaped generalizing i planned with
  | nil =>
      cases ok
      exact nofun
  | cons sh rest ih =>
      simp only [plans, bind_eq_ok] at ok
      obtain ⟨p, here, more, later, same⟩ := ok
      cases same
      intro p' member
      rcases List.mem_cons.mp member with rfl | member
      · refine ⟨sh, List.mem_cons_self, i, s.live space sh.op.key, ?_⟩
        simp only [plan] at here
        split at here
        · split at here
          · cases here
          · exact here
        · exact here
      · obtain ⟨sh', listed, merged⟩ := ih later p' member
        exact ⟨sh', List.mem_cons_of_mem _ listed, merged⟩

theorem planWrite_carries (data : space.isData = true) {planned : List Planned}
    (ok : s.planWrite b moment space ops indexed = .ok planned) : ∀ p ∈ planned, p.Carries := by
  simp only [Store.planWrite, bind_eq_ok] at ok
  obtain ⟨shaped, shapes_ok, ok⟩ := ok
  split at ok
  · cases ok
  · intro p member
    obtain ⟨sh, listed, i, live, merged⟩ := plans_mem ok p member
    rw [data] at shapes_ok
    obtain ⟨i', op, shaped_op⟩ := shapes_mem shapes_ok sh listed
    exact merge_carries data (shape_carries shaped_op) merged

end Plan

/-! ## A write -/

section Land

variable {space : Space} {rev now : Int} {who : String} {restoreId : Option String} {s s' : Store}

/-- The refs an op that lands leaves its key. -/
def Planned.names (p : Planned) : List String :=
  match p.act with
  | .write _ => p.refs.getD []
  | _ => []

theorem store_blobs {p : Planned} {text : Option String} {refs : List String}
    (ok : p.store space rev now who restoreId text refs s = .ok s') :
    s'.blobs = if space.isData then s.blobs.setKeyRefs space.name p.op.key refs now else s.blobs := by
  simp only [Planned.store] at ok
  split at ok
  · cases ok
  · cases ok
    rfl

theorem land_blobs {p : Planned} (ok : p.land space rev now who restoreId s = .ok s') :
    (p.effective = false ∧ s' = s) ∨ (p.effective = true ∧
      s'.blobs = if space.isData then s.blobs.setKeyRefs space.name p.op.key p.names now else s.blobs) := by
  rcases land_cases ok with idle | ⟨effective, -⟩
  · exact .inl idle
  · refine .inr ⟨effective, ?_⟩
    cases act : p.act with
    | write t =>
        simp only [Planned.land, act] at ok
        rw [store_blobs ok, Planned.names, act]
    | delete =>
        simp only [Planned.land, act] at ok
        split at ok
        · rw [store_blobs ok, Planned.names, act]
        · rename_i gone
          simp [Planned.effective, act, gone] at effective
    | patch => simp [Planned.effective, act] at effective
    | skip => simp [Planned.effective, act] at effective

theorem Planned.Carries.names_nodup {p : Planned} (carries : p.Carries) : p.names.Nodup := by
  unfold Planned.names
  split
  · exact carries.1
  · exact List.nodup_nil

theorem text_landed {p : Planned} (ok : p.land space rev now who restoreId s = .ok s') (effective : p.effective = true)
    (other : Space) (key : String) : s'.text other key =
      if (other, key) = (space, p.op.key) then p.text else s.text other key := by
  have lands := lands_of_effective ok effective
  by_cases own : (other, key) = (space, p.op.key)
  · rw [if_pos own]
    obtain ⟨rfl, rfl⟩ := Prod.mk.inj own
    have entry : s'.entries.get (other, p.op.key) = some (p.entry other rev now who p.text) := by
      rw [lands.entries, KeyedTable.get_upsert]
      exact if_pos rfl
    rw [Store.text, Store.live_of_some entry]
    cases text : p.text <;> simp [Planned.entry]
  · rw [if_neg own]
    have kept : s'.entries.get (other, key) = s.entries.get (other, key) :=
      land_entry_kept ok fun _ same => own same.symm
    simp only [Store.text, Store.live, kept]

theorem Linked.land (linked : Linked s) {p : Planned} (carries : space.isData = true → p.Carries)
    (held : space.isData = true → ∀ h ∈ p.names, (s.blobs.held.get (space.name, h)).isSome)
    (ok : p.land space rev now who restoreId s = .ok s') :
    Linked s' ∧ ∀ k, (s'.blobs.held.get k).isSome = (s.blobs.held.get k).isSome := by
  rcases land_blobs ok with ⟨-, rfl⟩ | ⟨effective, blobs⟩
  · exact ⟨linked, fun _ => rfl⟩
  · have text := text_landed ok effective
    by_cases data : space.isData = true
    · rw [if_pos data] at blobs
      have sets := linked.counted.setKeyRefs p.op.key now data (carries data).names_nodup (held data)
      rw [← blobs] at sets
      refine ⟨⟨sets.counted, fun other other_data key => ?_⟩, sets.keys⟩
      rw [text]
      split
      next own =>
        obtain ⟨rfl, rfl⟩ := Prod.mk.inj own
        have named : (fun h => ⟨other.name, p.op.key, h⟩ ∈ s'.blobs.refs.rows) = fun h => h ∈ p.names :=
          funext fun h => propext (sets.own h)
        rw [named]
        cases act : p.act with
        | write t =>
            simp only [Planned.text, Planned.names, act]
            exact (carries data).2 t act
        | _ =>
            simp only [Planned.text, Planned.names, act]
            exact fun h => List.not_mem_nil
      next apart =>
        have named : (fun h => ⟨other.name, key, h⟩ ∈ s'.blobs.refs.rows) =
            fun h => ⟨other.name, key, h⟩ ∈ s.blobs.refs.rows := by
          refine funext fun h => propext (sets.others ⟨other.name, key, h⟩ fun same => apart ?_)
          obtain ⟨name, key_eq⟩ := Prod.mk.inj same
          exact Prod.ext (congrArg Space.mk name) key_eq
        rw [named]
        exact linked.named other other_data key
    · rw [if_neg data] at blobs
      refine ⟨⟨blobs ▸ linked.counted, fun other other_data key => ?_⟩, fun k => by rw [blobs]⟩
      rw [text, blobs, if_neg]
      · exact linked.named other other_data key
      · intro own
        exact data ((Prod.mk.inj own).1 ▸ other_data)

theorem Linked.landAll {planned : List Planned} (linked : Linked s) (carries : space.isData = true → ∀ p ∈ planned, p.Carries)
    (held : space.isData = true → ∀ p ∈ planned, ∀ h ∈ p.names, (s.blobs.held.get (space.name, h)).isSome)
    (ok : landAll space rev now who restoreId planned s = .ok s') :
    Linked s' ∧ ∀ k, (s'.blobs.held.get k).isSome = (s.blobs.held.get k).isSome := by
  induction planned generalizing s with
  | nil =>
      cases ok
      exact ⟨linked, fun _ => rfl⟩
  | cons p rest ih =>
      simp only [GardenData.landAll, bind_eq_ok] at ok
      obtain ⟨between, here, later⟩ := ok
      obtain ⟨linked', keys⟩ := linked.land (fun data => carries data p List.mem_cons_self)
        (fun data => held data p List.mem_cons_self) here
      obtain ⟨linked'', keys'⟩ := ih linked' (fun data q member => carries data q (List.mem_cons_of_mem _ member))
        (fun data q member h named => (keys _).trans (held data q (List.mem_cons_of_mem _ member) h named)) later
      exact ⟨linked'', fun k => (keys' k).trans (keys k)⟩

end Land

section Write

variable {b : Backend} {s s' : Store} {moment : Moment} {space : Space} {ops : List Op} {who : String}
  {indexed : Bool} {mark : Option RestoreMark}

theorem writeWith_lands (b : Backend) (s : Store) (moment : Moment) (space : Space) (ops : List Op) (who : String)
    (indexed : Bool) (mark : Option RestoreMark) : ((s.writeWith b moment space ops who indexed mark).1 = s ∧
      ∀ rev, (s.writeWith b moment space ops who indexed mark).2 ≠ .ok (rev, true)) ∨
    ∃ planned rev bytes keys, s.planWrite b moment space ops indexed = .ok planned ∧
      s.landWrite moment space planned who mark rev bytes keys =
        .ok (s.writeWith b moment space ops who indexed mark).1 := by
  simp only [Store.writeWith]
  cases planned_eq : s.planWrite b moment space ops indexed with
  | error e => exact .inl ⟨rfl, fun rev same => by cases same⟩
  | ok planned =>
      cases some_effect : planned.any Planned.effective with
      | false => exact .inl (by simp [Store.commit, bind, Except.bind, some_effect])
      | true =>
          cases landed : s.landWrite moment space planned who mark (s.headRev space + 1)
              (s.headBytes space + (planned.map Planned.bytes).sum)
              (s.headKeys space + (planned.map Planned.keys).sum) with
          | error e => exact .inl (by simp [Store.commit, bind, Except.bind, some_effect, landed])
          | ok s' =>
              refine .inr ⟨planned, _, _, _, rfl, landed.trans ?_⟩
              simp [Store.commit, bind, Except.bind, some_effect, landed]

theorem mem_namedRefs {planned : List Planned} {p : Planned} (listed : p ∈ planned) {h : String} (named : h ∈ p.names) :
    h ∈ namedRefs planned := by
  rw [namedRefs, mem_sortedSet, List.mem_flatMap]
  exact ⟨p, listed, named⟩

theorem recordRestore_blobs {rev now : Int} (ok : recordRestore s space who now rev mark = .ok s') :
    s'.blobs = s.blobs ∧ s'.entries = s.entries := by
  refine ⟨?_, (recordRestore_tables ok).1⟩
  cases mark with
  | none =>
      cases ok
      rfl
  | some m =>
      simp only [recordRestore] at ok
      split at ok
      · cases ok
        rfl
      · cases ok

theorem seenBlobs_linked {rev : Int} (linked : Linked s) : Linked (s.seenBlobs space rev) := by
  simp only [Store.seenBlobs]
  split
  · exact ⟨BlobTables.setAuxRev_counted linked.counted, linked.named⟩
  · exact linked

theorem seenBlobs_held (s : Store) (space : Space) (rev : Int) :
    (s.seenBlobs space rev).blobs.held = s.blobs.held := by
  simp only [Store.seenBlobs]
  split <;> rfl

theorem Linked.of_blobs (linked : Linked s) (blobs : s'.blobs = s.blobs) (entries : s'.entries = s.entries) :
    Linked s' := by
  refine ⟨blobs ▸ linked.counted, fun space data key => ?_⟩
  rw [Store.text, Store.live, entries, blobs]
  exact linked.named space data key

theorem Linked.landWrite (linked : Linked s) {planned : List Planned} {rev bytes keys : Int}
    (plan : s.planWrite b moment space ops indexed = .ok planned)
    (landed : s.landWrite moment space planned who mark rev bytes keys = .ok s') : Linked s' ∧ HeldBefore s s' := by
  simp only [Store.landWrite] at landed
  split at landed
  · cases landed
  · split at landed
    · cases landed
    · simp only [bind_eq_ok] at landed
      obtain ⟨blobs, checked, mid, all, restored, recorded, same⟩ := landed
      cases same
      have back : BlobTables.TakesBack s.blobs blobs ∧
          (space.isData = true → ∀ h ∈ namedRefs planned, (blobs.held.get (space.name, h)).isSome) := by
        simp only [Store.heldBlobs] at checked
        split at checked
        · rename_i data
          obtain ⟨back, all⟩ := linked.counted.checkHeld data checked
          exact ⟨back, fun _ => all⟩
        · rename_i save
          cases checked
          exact ⟨linked.counted.takesBack, fun data => absurd data save⟩
      obtain ⟨takes, held⟩ := back
      have start : Linked { s with blobs } := by
        refine ⟨takes.counted, fun other data key => ?_⟩
        simp only [takes.refs]
        exact linked.named other data key
      obtain ⟨linked', held_keys⟩ := start.landAll (fun data => planWrite_carries data plan)
        (fun data p listed h named => held data h (mem_namedRefs listed named)) all
      obtain ⟨blobs_eq, entries_eq⟩ := recordRestore_blobs recorded
      refine ⟨((seenBlobs_linked linked').of_blobs blobs_eq entries_eq).of_blobs rfl rfl, ?_⟩
      have first : HeldBefore s { s with blobs } := takes.hashes
      refine first.trans ((HeldBefore.of_keys held_keys).trans (HeldBefore.of_keys fun k => ?_))
      simp only [blobs_eq, seenBlobs_held]

theorem Linked.write (linked : Linked s) (b : Backend) (moment : Moment) (space : Space) (ops : List Op) (who : String)
    (indexed : Bool) (mark : Option RestoreMark) : Linked (s.writeWith b moment space ops who indexed mark).1 ∧
      HeldBefore s (s.writeWith b moment space ops who indexed mark).1 := by
  rcases writeWith_lands b s moment space ops who indexed mark with ⟨same, -⟩ | ⟨planned, rev, bytes, keys, plan, landed⟩
  · rw [same]
    exact ⟨linked, HeldBefore.refl s⟩
  · exact linked.landWrite plan landed

end Write

/-! ## Deletes, moves and the reaper -/

section Calls

variable {s : Store}

theorem Linked.reap (linked : Linked s) (now : Int) : Linked (s.reap now).1 ∧ HeldBefore s (s.reap now).1 := by
  refine ⟨⟨linked.counted, fun space data key => ?_⟩, HeldBefore.refl s⟩
  rw [reap_text]
  exact linked.named space data key

theorem text_of_without {s s' : Store} {space : Space} (entries : s'.entries = s.entries.deleteWhere (·.space = space))
    (other : Space) (key : String) : s'.text other key = if other = space then none else s.text other key := by
  rw [Store.text, Store.live_of_without entries]
  split <;> rfl

theorem Linked.dropSpace (linked : Linked s) (space : Space) (now : Int) (rand : String) :
    Linked (s.dropSpace space now rand).1 ∧ HeldBefore s (s.dropSpace space now rand).1 := by
  simp only [Store.dropSpace]
  cases dropped : s.blobs.tombstoneSpace space.name now rand with
  | error e => exact ⟨linked, HeldBefore.refl s⟩
  | ok blobs =>
      obtain ⟨counted, refs, hashes⟩ := linked.counted.dropSpace dropped
      refine ⟨⟨⟨counted.data, counted.held, counted.count, counted.unref⟩, fun other data key => ?_⟩, hashes⟩
      have named : ∀ h, ⟨other.name, key, h⟩ ∈ (blobs.deleteSpace space.name).refs.rows ↔
          ⟨other.name, key, h⟩ ∈ s.blobs.refs.rows ∧ other.name ≠ space.name := fun h => refs ⟨other.name, key, h⟩
      simp only [Store.commit]
      rw [text_of_without rfl]
      split
      next own => exact fun h there => ((named h).mp there).2 (congrArg Space.name own)
      next apart =>
        have same : (fun h => ⟨other.name, key, h⟩ ∈ (blobs.deleteSpace space.name).refs.rows) =
            fun h => ⟨other.name, key, h⟩ ∈ s.blobs.refs.rows := by
          refine funext fun h => propext ((named h).trans (and_iff_left fun same => apart ?_))
          exact (BlobTables.space_eq_iff).mpr same
        exact same ▸ linked.named other data key

theorem text_of_moved {s s' : Store} {source target : Space}
    (rows : s'.entries.rows = (s.entries.deleteWhere (·.space = target)).rows.map
      fun e => if e.space = source then { e with space := target } else e) (other : Space) (key : String) :
    s'.text other key = (movedFrom source target other).bind fun origin => s.text origin key := by
  have live := Store.live_of_moved rows other key
  rw [Store.text, live]
  cases movedFrom source target other <;> rfl

theorem moveRows_spec {s s' : Store} {source target : Space} (moved : s.moveRows source target = .ok s') :
    s'.entries.rows = (s.entries.deleteWhere (·.space = target)).rows.map
        (fun e => if e.space = source then { e with space := target } else e) ∧
      ∃ blobs, s.blobs.moveSpace source.name target.name = .ok blobs ∧
        s'.blobs = blobs.moveAuxRev source.name target.name := by
  simp only [Store.moveRows, bind_eq_ok, okOr_eq_ok] at moved
  obtain ⟨entries, entries_eq, changes, -, blobs, blobs_eq, spaces, -, same⟩ := moved
  cases same
  refine ⟨?_, blobs, blobs_eq, rfl⟩
  simpa using KeyedTable.rows_of_rekey entries_eq

theorem moveAuxRev_tables (t : BlobTables) (source target : String) :
    (t.moveAuxRev source target).refs = t.refs ∧ (t.moveAuxRev source target).held = t.held := by
  simp only [BlobTables.moveAuxRev]
  split <;> exact ⟨rfl, rfl⟩

theorem Linked.moveRows (linked : Linked s) {s' : Store} {source target : Space} (kind : source.isData = target.isData)
    (moved : s.moveRows source target = .ok s') : Linked s' ∧ HeldBefore s s' := by
  obtain ⟨rows, blobs, moved_blobs, blobs_eq⟩ := moveRows_spec moved
  have counted := linked.counted.moveSpace kind moved_blobs
  obtain ⟨refs, held⟩ := moveAuxRev_tables blobs source.name target.name
  rw [← blobs_eq] at refs held
  refine ⟨⟨⟨?_, ?_, ?_, ?_⟩, fun other data key => ?_⟩, ?_⟩
  · rw [refs]
    exact counted.data
  · rw [refs, held]
    exact counted.held
  · simp only [BlobTables.naming, refs, held]
    exact counted.count
  · rw [held]
    exact counted.unref
  · have named : ∀ h, ⟨other.name, key, h⟩ ∈ s'.blobs.refs.rows ↔ ∃ origin, movedFrom source target other = some origin ∧
        ⟨origin.name, key, h⟩ ∈ s.blobs.refs.rows := by
      intro h
      rw [refs]
      exact BlobTables.mem_moved_refs moved_blobs
    rw [text_of_moved rows]
    cases place : movedFrom source target other with
    | none =>
        intro h there
        obtain ⟨origin, place', -⟩ := (named h).mp there
        rw [place] at place'
        cases place'
    | some origin =>
        have same : (fun h => ⟨other.name, key, h⟩ ∈ s'.blobs.refs.rows) =
            fun h => ⟨origin.name, key, h⟩ ∈ s.blobs.refs.rows := by
          refine funext fun h => propext ((named h).trans ?_)
          simp [place]
        rw [same, Option.bind_some]
        refine linked.named origin ?_ key
        obtain ⟨-, placed⟩ := movedFrom_eq_some.mp place
        split at placed
        next own => rw [own, kind, placed, data]
        next apart => rw [placed, data]
  · intro row member
    rw [held] at member
    obtain ⟨origin, -, there⟩ := (BlobTables.mem_moved_held moved_blobs).mp member
    exact ⟨_, there, rfl⟩

theorem Linked.moveSpace (linked : Linked s) (source target : Space) :
    Linked (s.moveSpace source target).1 ∧ HeldBefore s (s.moveSpace source target).1 := by
  simp only [Store.moveSpace]
  split
  · exact ⟨linked, HeldBefore.refl s⟩
  · rename_i kind
    split
    · exact ⟨linked, HeldBefore.refl s⟩
    · split
      · exact ⟨linked, HeldBefore.refl s⟩
      · cases moved : s.moveRows source target with
        | error e => exact ⟨linked, HeldBefore.refl s⟩
        | ok s' => exact linked.moveRows (not_not.mp kind) moved

end Calls

end K2.GardenData
