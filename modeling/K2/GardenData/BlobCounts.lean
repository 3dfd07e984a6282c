import K2.GardenData.Blobs
import Mathlib.Data.List.Dedup

/-! # Counting the keys that name a blob

A row of a space counts the refs to its hash, and only the rows of a data space
are named. Every operation on the tables keeps that: a key's refs move the counts
by the difference, a tombstone's rows are not named, and a row that comes back is
not named yet.
-/

namespace K2.GardenData

theorem isData_tombstone (rest : String) : (⟨tombstonePrefix ++ rest⟩ : Space).isData = false := by
  simp only [Space.isData, tombstonePrefix, String.toList_append]
  rfl

theorem isData_of_tombstoneOf {name space : String} (tomb : BlobTables.tombstoneOf name space = true) :
    (⟨name⟩ : Space).isData = false := by
  simp only [BlobTables.tombstoneOf, Bool.and_eq_true] at tomb
  obtain ⟨rest, same⟩ := List.isPrefixOf_iff_prefix.mp tomb.1
  simp only [Space.isData, ← same]
  rfl

theorem nodup_sortedSet (names : List String) : (sortedSet names).Nodup :=
  (List.perm_insertionSort _ _).nodup_iff.mpr (List.nodup_dedup names)

theorem mem_sortedSet {names : List String} {h : String} : h ∈ sortedSet names ↔ h ∈ names := by
  rw [sortedSet, (List.perm_insertionSort _ _).mem_iff, List.mem_dedup]

/-- A row that one key less names, and one that one more does. -/
def SpaceBlob.less (now : Int) (b : SpaceBlob) : SpaceBlob :=
  { b with refs := max (b.refs - 1) 0, unrefAt := if b.refs - 1 ≤ 0 then some now else b.unrefAt }

def SpaceBlob.more (now : Int) (b : SpaceBlob) : SpaceBlob :=
  { b with refs := b.refs + 1, unrefAt := none, firstRefAt := b.firstRefAt.or (some now) }

namespace BlobTables

/-- The keys of a space that name a hash. -/
def naming (t : BlobTables) (space hash : String) : Nat := t.refs.count fun r => r.space = space && r.hash = hash

/-- The counts are right: only data spaces are named, a hash that is named is held,
    each row counts the keys that name it, and only one that none names is let go. -/
structure Counted (t : BlobTables) : Prop where
  data : ∀ r ∈ t.refs.rows, (⟨r.space⟩ : Space).isData = true
  held : ∀ r ∈ t.refs.rows, (t.held.get (r.space, r.hash)).isSome
  count : ∀ row ∈ t.held.rows, row.refs = t.naming row.space row.hash
  unref : ∀ row ∈ t.held.rows, row.unrefAt ≠ none → row.refs = 0

section Counts

variable {t t' : BlobTables} {space key hash : String} {now : Int}

theorem counted_empty : empty.Counted := ⟨nofun, nofun, nofun, nofun⟩

theorem naming_eq_zero {t : BlobTables} {space hash : String}
    (unnamed : ∀ r ∈ t.refs.rows, r.space = space → r.hash ≠ hash) : t.naming space hash = 0 := by
  rw [naming, KeyedTable.count, List.countP_eq_zero]
  intro r member
  simpa using unnamed r member

theorem Counted.unnamed (counted : t.Counted) (absent : t.held.get (space, hash) = none) :
    t.naming space hash = 0 := by
  refine naming_eq_zero fun r member here same => ?_
  have there := counted.held r member
  rw [here, same, absent] at there
  cases there

/-! ### One ref more or less -/

theorem mem_down {r : BlobRef} :
    r ∈ (t.down space key hash now).refs.rows ↔ r ∈ t.refs.rows ∧ r ≠ ⟨space, key, hash⟩ := by
  simp [down]

theorem mem_up {r : BlobRef} :
    r ∈ (t.up space key hash now).refs.rows ↔ r = ⟨space, key, hash⟩ ∨ r ∈ t.refs.rows := by
  simp only [up, KeyedTable.mem_upsert, id_eq]
  tauto

theorem mem_held_down {row : SpaceBlob} : row ∈ (t.down space key hash now).held.rows ↔
    ∃ old ∈ t.held.rows, (if old.key = (space, hash) then old.less now else old) = row := by
  have rows := KeyedTable.mem_updateWhere t.held (·.key = (space, hash)) (SpaceBlob.less now) (fun _ => rfl) row
  simp only [decide_eq_true_eq] at rows
  exact rows

theorem mem_held_up {row : SpaceBlob} : row ∈ (t.up space key hash now).held.rows ↔
    ∃ old ∈ t.held.rows, (if old.key = (space, hash) then old.more now else old) = row := by
  have rows := KeyedTable.mem_updateWhere t.held (·.key = (space, hash)) (SpaceBlob.more now) (fun _ => rfl) row
  simp only [decide_eq_true_eq] at rows
  exact rows

theorem held_down (k : String × String) :
    ((t.down space key hash now).held.get k).isSome = (t.held.get k).isSome :=
  KeyedTable.isSome_get_updateWhere t.held (·.key = (space, hash)) (SpaceBlob.less now) (fun _ => rfl) k

theorem held_up (k : String × String) :
    ((t.up space key hash now).held.get k).isSome = (t.held.get k).isSome :=
  KeyedTable.isSome_get_updateWhere t.held (·.key = (space, hash)) (SpaceBlob.more now) (fun _ => rfl) k

theorem naming_down (there : ⟨space, key, hash⟩ ∈ t.refs.rows) (now : Int) (space' hash' : String) :
    t.naming space' hash' =
      (t.down space key hash now).naming space' hash' + if space = space' ∧ hash = hash' then 1 else 0 := by
  have total := t.refs.count_deleteKeys [⟨space, key, hash⟩] (by simpa using there) (List.nodup_singleton _)
    (· = ⟨space, key, hash⟩) (by simp) fun r => r.space = space' && r.hash = hash'
  rw [naming, naming, ← total, List.countP_singleton]
  simp [down]

theorem naming_up (new : ⟨space, key, hash⟩ ∉ t.refs.rows) (now : Int) (space' hash' : String) :
    (t.up space key hash now).naming space' hash' =
      t.naming space' hash' + if space = space' ∧ hash = hash' then 1 else 0 := by
  have absent : t.refs.get ⟨space, key, hash⟩ = none := by
    rw [KeyedTable.get_eq_none]
    rintro r member rfl
    exact new member
  have total := t.refs.count_upsert ⟨space, key, hash⟩ fun r => r.space = space' && r.hash = hash'
  rw [id_eq, absent] at total
  simpa [naming, up] using total

theorem Counted.down (counted : t.Counted) (there : ⟨space, key, hash⟩ ∈ t.refs.rows) (now : Int) :
    (t.down space key hash now).Counted where
  data := fun r member => counted.data r (mem_down.mp member).1
  held := fun r member => (held_down _).trans (counted.held r (mem_down.mp member).1)
  count := by
    intro row member
    obtain ⟨old, before, rfl⟩ := mem_held_down.mp member
    have count := counted.count old before
    have moved := naming_down there now old.space old.hash
    split
    next own =>
      obtain ⟨rfl, rfl⟩ := Prod.mk.inj own
      rw [if_pos ⟨rfl, rfl⟩] at moved
      simp only [SpaceBlob.less]
      omega
    next apart =>
      rw [if_neg fun own => apart (Prod.ext own.1.symm own.2.symm)] at moved
      omega
  unref := by
    intro row member
    obtain ⟨old, before, rfl⟩ := mem_held_down.mp member
    have unref := counted.unref old before
    split
    next own =>
      simp only [SpaceBlob.less]
      split
      next last =>
        intro _
        omega
      next named =>
        intro let_go
        have := unref let_go
        omega
    next apart => exact unref

theorem Counted.up (counted : t.Counted) (data : (⟨space⟩ : Space).isData = true)
    (held : (t.held.get (space, hash)).isSome) (new : ⟨space, key, hash⟩ ∉ t.refs.rows) (now : Int) :
    (t.up space key hash now).Counted where
  data := by
    intro r member
    rcases mem_up.mp member with rfl | member
    · exact data
    · exact counted.data r member
  held := by
    intro r member
    rw [held_up]
    rcases mem_up.mp member with rfl | member
    · exact held
    · exact counted.held r member
  count := by
    intro row member
    obtain ⟨old, before, rfl⟩ := mem_held_up.mp member
    have count := counted.count old before
    have moved := naming_up new now old.space old.hash
    split
    next own =>
      obtain ⟨rfl, rfl⟩ := Prod.mk.inj own
      rw [if_pos ⟨rfl, rfl⟩] at moved
      simp only [SpaceBlob.more]
      omega
    next apart =>
      rw [if_neg fun own => apart (Prod.ext own.1.symm own.2.symm)] at moved
      omega
  unref := by
    intro row member
    obtain ⟨old, before, rfl⟩ := mem_held_up.mp member
    split
    next own => exact fun let_go => absurd rfl let_go
    next apart => exact counted.unref old before

/-! ### A key's refs -/

theorem downs (space key : String) (now : Int) {hashes : List String} (counted : t.Counted) (once : hashes.Nodup)
    (there : ∀ h ∈ hashes, ⟨space, key, h⟩ ∈ t.refs.rows) :
    let t' := hashes.foldl (fun t h => t.down space key h now) t
    t'.Counted ∧ (∀ r, r ∈ t'.refs.rows ↔ r ∈ t.refs.rows ∧ ∀ h ∈ hashes, r ≠ ⟨space, key, h⟩) ∧
      ∀ k, (t'.held.get k).isSome = (t.held.get k).isSome := by
  induction hashes generalizing t with
  | nil => exact ⟨counted, fun r => by simp, fun _ => rfl⟩
  | cons h rest ih =>
      rw [List.nodup_cons] at once
      simp only [List.mem_cons, forall_eq_or_imp] at there
      obtain ⟨counted', refs, keys⟩ := ih (counted.down there.1 now) once.2 fun h' later => by
        refine mem_down.mpr ⟨there.2 h' later, fun same => ?_⟩
        cases same
        exact once.1 later
      refine ⟨counted', fun r => ?_, fun k => (keys k).trans (held_down k)⟩
      rw [List.foldl_cons, refs, mem_down, List.forall_mem_cons, and_assoc]

theorem ups (key : String) (now : Int) {hashes : List String} (counted : t.Counted) (once : hashes.Nodup)
    (data : (⟨space⟩ : Space).isData = true) (held : ∀ h ∈ hashes, (t.held.get (space, h)).isSome)
    (new : ∀ h ∈ hashes, ⟨space, key, h⟩ ∉ t.refs.rows) :
    let t' := hashes.foldl (fun t h => t.up space key h now) t
    t'.Counted ∧ (∀ r, r ∈ t'.refs.rows ↔ r ∈ t.refs.rows ∨ ∃ h ∈ hashes, r = ⟨space, key, h⟩) ∧
      ∀ k, (t'.held.get k).isSome = (t.held.get k).isSome := by
  induction hashes generalizing t with
  | nil => exact ⟨counted, fun r => by simp, fun _ => rfl⟩
  | cons h rest ih =>
      rw [List.nodup_cons] at once
      simp only [List.mem_cons, forall_eq_or_imp] at held new
      obtain ⟨counted', refs, keys⟩ := ih (counted.up data held.1 new.1 now) once.2
        (fun h' later => (held_up _).trans (held.2 h' later)) fun h' later there => by
          rcases mem_up.mp there with same | old
          · cases same
            exact once.1 later
          · exact new.2 h' later old
      refine ⟨counted', fun r => ?_, fun k => (keys k).trans (held_up k)⟩
      rw [List.foldl_cons, refs, mem_up, List.exists_mem_cons_iff]
      tauto

/-- What setting a key's refs does: the key names exactly the new ones, and no other
    ref and no held blob comes or goes. -/
structure Sets (t t' : BlobTables) (space key : String) (new : List String) : Prop where
  counted : t'.Counted
  own : ∀ h, ⟨space, key, h⟩ ∈ t'.refs.rows ↔ h ∈ new
  others : ∀ r : BlobRef, (r.space, r.key) ≠ (space, key) → (r ∈ t'.refs.rows ↔ r ∈ t.refs.rows)
  keys : ∀ k, (t'.held.get k).isSome = (t.held.get k).isSome

theorem Counted.setKeyRefs (counted : t.Counted) (key : String) (now : Int) {new : List String} (data : (⟨space⟩ : Space).isData = true)
    (once : new.Nodup) (held : ∀ h ∈ new, (t.held.get (space, h)).isSome) :
    Sets t (t.setKeyRefs space key new now) space key new := by
  simp only [BlobTables.setKeyRefs]
  have own : ∀ h, h ∈ sortedSet ((t.refs.rows.filter fun r => r.space = space && r.key = key).map (·.hash)) ↔
      ⟨space, key, h⟩ ∈ t.refs.rows := by
    intro h
    rw [mem_sortedSet, List.mem_map]
    constructor
    · rintro ⟨r, member, rfl⟩
      obtain ⟨there, same⟩ := List.mem_filter.mp member
      obtain ⟨rfl, rfl⟩ : r.space = space ∧ r.key = key := by simpa using same
      exact there
    · exact fun there => ⟨_, List.mem_filter.mpr ⟨there, by simp⟩, rfl⟩
  generalize sorted : sortedSet ((t.refs.rows.filter fun r => r.space = space && r.key = key).map (·.hash)) = old at own
  have old_once : old.Nodup := sorted ▸ nodup_sortedSet _
  obtain ⟨counted₁, refs₁, keys₁⟩ := downs space key now counted
    (old_once.filter (· ∉ new)) fun h member => (own h).mp (List.mem_filter.mp member).1
  obtain ⟨counted₂, refs₂, keys₂⟩ := ups key now counted₁ (once.filter (· ∉ old)) data
    (fun h member => (keys₁ _).trans (held h (List.mem_filter.mp member).1)) fun h member there => by
      have absent := (List.mem_filter.mp member).2
      simp only [decide_not, Bool.not_eq_true', decide_eq_false_iff_not] at absent
      exact absent ((own h).mpr ((refs₁ _).mp there).1)
  refine ⟨counted₂, fun h => ?_, fun r apart => ?_, fun k => (keys₂ k).trans (keys₁ k)⟩
  · rw [refs₂, refs₁, ← own h]
    simp only [List.mem_filter, decide_not, Bool.not_eq_true', decide_eq_false_iff_not, BlobRef.mk.injEq, true_and,
      exists_eq_right', ne_eq]
    constructor
    · rintro (⟨there, stays⟩ | ⟨named, -⟩)
      · by_contra gone
        exact stays h ⟨there, gone⟩ rfl
      · exact named
    · intro named
      by_cases there : h ∈ old
      · exact .inl ⟨there, fun h' gone same => gone.2 (same ▸ named)⟩
      · exact .inr ⟨named, there⟩
  · have other : ∀ h, r ≠ ⟨space, key, h⟩ := fun h same => apart (by rw [same])
    rw [refs₂, refs₁]
    simp [other]

/-! ### Copies that come back -/

/-- The copy of a hash that a deleted space left, the newest first. -/
def copyOf (t : BlobTables) (space hash : String) : Option SpaceBlob :=
  ((t.held.rows.filter fun b => b.hash = hash).insertionSort fun a b => b.addedAt ≤ a.addedAt).find?
    fun b => tombstoneOf b.space space

theorem copyOf_spec {b : SpaceBlob} (found : t.copyOf space hash = some b) :
    b ∈ t.held.rows ∧ b.hash = hash ∧ tombstoneOf b.space space = true := by
  have member := List.mem_of_find?_eq_some found
  rw [(List.perm_insertionSort _ _).mem_iff, List.mem_filter, decide_eq_true_eq] at member
  have tomb := List.find?_some (p := fun b : SpaceBlob => tombstoneOf b.space space) found
  exact ⟨member.1, member.2, tomb⟩

theorem reclaim_spec (back : t.reclaim space hash = some t') : ∃ b, t.copyOf space hash = some b ∧ t'.refs = t.refs ∧
    t'.held.rows = t.held.rows.map fun r => if r.key = b.key then { r with space } else r := by
  unfold reclaim at back
  split at back
  · cases back
  · rename_i b found
    obtain ⟨held, moved, rfl⟩ := Option.map_eq_some_iff.mp back
    refine ⟨b, found, rfl, ?_⟩
    have rows := KeyedTable.rows_of_rekey moved
    simp only [decide_eq_true_eq] at rows
    exact rows

theorem mem_reclaim {b : SpaceBlob} (member : b ∈ t.held.rows)
    (rows : t'.held.rows = t.held.rows.map fun r => if r.key = b.key then { r with space } else r) (row : SpaceBlob) :
    row ∈ t'.held.rows ↔ row = { b with space } ∨ (row ∈ t.held.rows ∧ row ≠ b) := by
  rw [rows, List.mem_map]
  constructor
  · rintro ⟨old, there, rfl⟩
    split
    next same =>
      rw [t.held.eq_of_key there member same]
      exact .inl rfl
    next apart => exact .inr ⟨there, fun same => apart (congrArg SpaceBlob.key same)⟩
  · rintro (rfl | ⟨there, apart⟩)
    · exact ⟨b, member, if_pos rfl⟩
    · exact ⟨row, there, if_neg fun same => apart (t.held.eq_of_key there member same)⟩

theorem Counted.naming_tombstone (counted : t.Counted) (tomb : (⟨space⟩ : Space).isData = false) :
    t.naming space hash = 0 := by
  refine naming_eq_zero fun r member here => ?_
  have data := counted.data r member
  rw [here, tomb] at data
  cases data

/-- What a write's check does to the tables: copies come back, and no ref and no
    blob a data space holds goes. -/
structure TakesBack (t t' : BlobTables) : Prop where
  counted : t'.Counted
  refs : t'.refs = t.refs
  keeps : ∀ k : String × String, (⟨k.1⟩ : Space).isData = true → (t.held.get k).isSome → (t'.held.get k).isSome
  hashes : ∀ row ∈ t'.held.rows, ∃ old ∈ t.held.rows, old.hash = row.hash

theorem Counted.takesBack (counted : t.Counted) : TakesBack t t :=
  ⟨counted, rfl, fun _ _ => id, fun row member => ⟨row, member, rfl⟩⟩

theorem TakesBack.trans {t'' : BlobTables} (first : TakesBack t t') (second : TakesBack t' t'') : TakesBack t t'' where
  counted := second.counted
  refs := second.refs.trans first.refs
  keeps := fun k data there => second.keeps k data (first.keeps k data there)
  hashes := by
    intro row member
    obtain ⟨mid, there, same⟩ := second.hashes row member
    obtain ⟨old, before, same'⟩ := first.hashes mid there
    exact ⟨old, before, same'.trans same⟩

theorem Counted.reclaim (counted : t.Counted) (absent : t.held.get (space, hash) = none)
    (back : t.reclaim space hash = some t') : TakesBack t t' ∧ (t'.held.get (space, hash)).isSome := by
  obtain ⟨b, found, refs, rows⟩ := reclaim_spec back
  obtain ⟨member, rfl, tomb⟩ := copyOf_spec found
  have mem := mem_reclaim member rows
  have unnamed := counted.unnamed absent
  have not_data := isData_of_tombstoneOf tomb
  have keeps : ∀ k : String × String, (⟨k.1⟩ : Space).isData = true → (t.held.get k).isSome →
      (t'.held.get k).isSome := by
    intro k data held
    obtain ⟨row, found⟩ := Option.isSome_iff_exists.mp held
    obtain ⟨there, rfl⟩ := KeyedTable.get_eq_some.mp found
    have stays := (mem row).mpr (.inr ⟨there, fun same => by
      rw [SpaceBlob.key, same, not_data] at data
      cases data⟩)
    rw [KeyedTable.get_of_mem stays]
    rfl
  refine ⟨⟨⟨?_, ?_, ?_, ?_⟩, refs, keeps, ?_⟩, ?_⟩
  · rw [refs]
    exact counted.data
  · rw [refs]
    exact fun r named => keeps _ (counted.data r named) (counted.held r named)
  · have same : ∀ space' hash', t'.naming space' hash' = t.naming space' hash' := by
      intro space' hash'
      rw [naming, naming, refs]
    intro row there
    rw [same]
    rcases (mem row).mp there with rfl | ⟨old, -⟩
    · have zero := counted.count b member
      rw [counted.naming_tombstone not_data] at zero
      rw [unnamed]
      exact zero
    · exact counted.count row old
  · intro row there
    rcases (mem row).mp there with rfl | ⟨old, -⟩
    · exact counted.unref b member
    · exact counted.unref row old
  · intro row there
    rcases (mem row).mp there with rfl | ⟨old, -⟩
    · exact ⟨b, member, rfl⟩
    · exact ⟨row, old, rfl⟩
  · have there := (mem { b with space }).mpr (.inl rfl)
    have found : t'.held.get (space, b.hash) = some { b with space } := KeyedTable.get_of_mem there
    rw [found]
    rfl

theorem Counted.missingOf (counted : t.Counted) (data : (⟨space⟩ : Space).isData = true) (hashes : List String) :
    TakesBack t (missingOf space t hashes).1 ∧
      ∀ h ∈ hashes, h ∈ (missingOf space t hashes).2 ∨ ((missingOf space t hashes).1.held.get (space, h)).isSome := by
  induction hashes generalizing t with
  | nil => exact ⟨counted.takesBack, nofun⟩
  | cons h rest ih =>
      rw [BlobTables.missingOf]
      split
      next there =>
        obtain ⟨back, all⟩ := ih counted
        refine ⟨back, fun h' listed => ?_⟩
        rcases List.mem_cons.mp listed with rfl | later
        · exact .inr (back.keeps _ data there)
        · exact all h' later
      next absent =>
        have none_held : t.held.get (space, h) = none := by simpa using absent
        split
        next mid reclaimed =>
          obtain ⟨one, there⟩ := counted.reclaim none_held reclaimed
          obtain ⟨back, all⟩ := ih one.counted
          refine ⟨one.trans back, fun h' listed => ?_⟩
          rcases List.mem_cons.mp listed with rfl | later
          · exact .inr (back.keeps _ data there)
          · exact all h' later
        next missing =>
          obtain ⟨back, all⟩ := ih counted
          refine ⟨back, fun h' listed => ?_⟩
          rcases List.mem_cons.mp listed with rfl | later
          · exact .inl List.mem_cons_self
          · exact (all h' later).imp_left (List.mem_cons_of_mem _)

theorem Counted.checkHeld (counted : t.Counted) (data : (⟨space⟩ : Space).isData = true) {hashes : List String}
    (checked : t.checkHeld space hashes = .ok t') :
    TakesBack t t' ∧ ∀ h ∈ hashes, (t'.held.get (space, h)).isSome := by
  obtain ⟨back, all⟩ := counted.missingOf data hashes
  simp only [BlobTables.checkHeld] at checked
  split at checked
  · rename_i mid none_missing
    cases checked
    rw [none_missing] at back all
    exact ⟨back, fun h listed => (all h listed).resolve_left List.not_mem_nil⟩
  · cases checked

end Counts

end BlobTables

end K2.GardenData
