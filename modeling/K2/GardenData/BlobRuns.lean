import K2.GardenData.BlobWrites
import K2.GardenData.StoreRuns

/-! # Blobs over whole runs

Any sequence of writes, deletes and moves of spaces, uploads and collections from
the empty store: what a live key names is held and on disk, and only what no key
names is dropped.
-/

namespace K2.GardenData

namespace BlobStore

/-! ## Steps -/

/-- What happens to the store and its files. -/
inductive Step where
  | write (moment : Moment) (space : Space) (ops : List Op) (who : String) (indexed : Bool)
      (mark : Option RestoreMark)
  | dropSpace (space : Space) (now : Int) (rand : String)
  | moveSpace (source target : Space)
  | reap (now : Int)
  | put (fs : FileSystem) (upload : Upload)
  | gc (fs : FileSystem) (now : Int)

section Steps

variable (b : Backend) (r : BlobReader) (caps : BlobCaps) (s : BlobStore)

def next : Step → BlobStore
  | .write moment space ops who indexed mark => { s with data := (s.data.writeWith b moment space ops who indexed mark).1 }
  | .dropSpace space now rand => { s with data := (s.data.dropSpace space now rand).1 }
  | .moveSpace source target => { s with data := (s.data.moveSpace source target).1 }
  | .reap now => { s with data := (s.data.reap now).1 }
  | .put fs upload => (s.blobPut r caps fs upload).1
  | .gc fs now => (s.blobGc fs now).1

def after (steps : List Step) : BlobStore := steps.foldl (next b r caps) empty

end Steps

/-! ## What a drop leaves -/

/-- Values and refs agree, every row has its file's row, and that its file. -/
structure Stored (s : BlobStore) : Prop where
  linked : Linked s.data
  file : ∀ row ∈ s.held.rows, (s.files.get row.hash).isSome
  disk : ∀ f ∈ s.files.rows, (s.disk.lookup f.hash).isSome

/-- The rows a key names stay as they are. -/
def Spares (s s' : BlobStore) : Prop := ∀ row ∈ s.held.rows, 0 < row.refs → row ∈ s'.held.rows

theorem Spares.refl (s : BlobStore) : s.Spares s := fun _ member _ => member

theorem Spares.trans {s s' s'' : BlobStore} (first : s.Spares s') (second : s'.Spares s'') : s.Spares s'' :=
  fun row member named => second row (first row member named) named

theorem stored_empty : Stored empty := ⟨linked_empty, nofun, nofun⟩

section Drops

variable {s s' : BlobStore} {fs : FileSystem}

theorem removeFile_spec (s : BlobStore) (fs : FileSystem) (hash : String) :
    (s.removeFile fs hash).1.data = s.data ∧ (s.removeFile fs hash).1.files = s.files ∧
      ∀ other, other ≠ hash → (s.removeFile fs hash).1.disk.lookup other = s.disk.lookup other := by
  simp only [removeFile]
  split
  · exact ⟨rfl, rfl, fun _ _ => rfl⟩
  · split
    · exact ⟨rfl, rfl, fun _ _ => rfl⟩
    · split
      · exact ⟨rfl, rfl, fun _ _ => rfl⟩
      · refine ⟨rfl, rfl, fun other apart => ?_⟩
        rw [FinMap.lookup_erase, if_neg (Ne.symm apart)]

theorem Stored.removeFile (stored : Stored s) (fs : FileSystem) {hash : String} (unknown : s.files.get hash = none) :
    Stored (s.removeFile fs hash).1 := by
  obtain ⟨data, files, disk⟩ := removeFile_spec s fs hash
  refine ⟨data ▸ stored.linked, ?_, ?_⟩
  · rw [held, data, files]
    exact stored.file
  · rw [files]
    intro f member
    rw [disk f.hash]
    · exact stored.disk f member
    · exact KeyedTable.get_eq_none.mp unknown f member

theorem withHeld_linked (linked : Linked s.data) {held : KeyedTable SpaceBlob.key}
    (sub : ∀ row ∈ held.rows, row ∈ s.held.rows) (named : ∀ row ∈ s.held.rows, 0 < row.refs → row ∈ held.rows) :
    Linked (s.withHeld held).data := by
  refine ⟨⟨linked.counted.data, ?_, ?_, ?_⟩, linked.named⟩
  · intro r member
    obtain ⟨row, found⟩ := Option.isSome_iff_exists.mp (linked.counted.held r member)
    obtain ⟨there, own⟩ := KeyedTable.get_eq_some.mp found
    obtain ⟨here, same⟩ : row.space = r.space ∧ row.hash = r.hash := Prod.mk.inj own
    have counts := linked.counted.count row there
    have one : 0 < s.data.blobs.naming r.space r.hash :=
      List.countP_pos_iff.mpr ⟨r, member, by simp⟩
    rw [here, same] at counts
    have stays := named row there (by omega)
    have found' : held.get (r.space, r.hash) = some row := own ▸ KeyedTable.get_of_mem stays
    exact Option.isSome_iff_exists.mpr ⟨row, found'⟩
  · exact fun row member => linked.counted.count row (sub row member)
  · exact fun row member => linked.counted.unref row (sub row member)

/-- The store without a row of `space_blobs`, and without one of `blobs`. -/
def withoutRow (s : BlobStore) (space hash : String) : BlobStore :=
  s.withHeld (s.held.deleteWhere (·.key = (space, hash)))

def withoutFile (s : BlobStore) (hash : String) : BlobStore := { s with files := s.files.deleteWhere (·.hash = hash) }

theorem dropRow_cases (s : BlobStore) (fs : FileSystem) (space hash : String) :
    (s.dropRow fs space hash).1 = s.withoutRow space hash ∨
    ((∀ row ∈ (s.withoutRow space hash).held.rows, row.hash ≠ hash) ∧
      ((s.dropRow fs space hash).1 = (s.withoutRow space hash).withoutFile hash ∨
        (s.dropRow fs space hash).1 = (((s.withoutRow space hash).withoutFile hash).removeFile fs hash).1)) := by
  unfold dropRow
  dsimp only
  split
  · exact .inl rfl
  · rename_i last
    refine .inr ⟨fun row member same => last (List.any_eq_true.mpr ⟨row, member, decide_eq_true same⟩), ?_⟩
    split
    · exact .inl rfl
    · refine .inr ?_
      rw [withoutRow, withoutFile]
      split
      next removed => rw [removed]
      next failed => rw [failed]

theorem mem_withoutRow {row : SpaceBlob} {space hash : String} :
    row ∈ (s.withoutRow space hash).held.rows ↔ row ∈ s.held.rows ∧ row.key ≠ (space, hash) := by
  simp [withoutRow, withHeld, held]

theorem Stored.withoutFile (stored : Stored s) {hash : String} (last : ∀ row ∈ s.held.rows, row.hash ≠ hash) :
    Stored (s.withoutFile hash) := by
  refine ⟨stored.linked, fun row member => ?_, fun f member => ?_⟩
  · obtain ⟨f, found⟩ := Option.isSome_iff_exists.mp (stored.file row member)
    have kept : decide (f.hash = hash) = false := by
      rw [KeyedTable.key_of_get found]
      exact decide_eq_false (last row member)
    rw [BlobStore.withoutFile, KeyedTable.get_deleteWhere, found, Option.filter_some, kept]
    rfl
  · exact stored.disk f ((KeyedTable.mem_deleteWhere _ _ _).mp member).1

theorem withoutFile_unknown (s : BlobStore) (hash : String) : (s.withoutFile hash).files.get hash = none := by
  rw [KeyedTable.get_eq_none]
  intro f member
  simpa using ((KeyedTable.mem_deleteWhere _ _ _).mp member).2

theorem Stored.dropRow (stored : Stored s) (fs : FileSystem) {row : SpaceBlob} (idle : ∀ other ∈ s.held.rows, other.key = row.key →
    other.refs ≤ 0) : Stored (s.dropRow fs row.space row.hash).1 ∧ s.Spares (s.dropRow fs row.space row.hash).1 ∧
      ∀ other ∈ (s.dropRow fs row.space row.hash).1.held.rows, other ∈ s.held.rows := by
  have sub : ∀ other ∈ (s.withoutRow row.space row.hash).held.rows, other ∈ s.held.rows :=
    fun other member => (mem_withoutRow.mp member).1
  have spares : s.Spares (s.withoutRow row.space row.hash) := by
    refine fun other member named => mem_withoutRow.mpr ⟨member, fun own => ?_⟩
    have := idle other member own
    omega
  have left : Stored (s.withoutRow row.space row.hash) :=
    ⟨withHeld_linked stored.linked sub spares, fun other member => stored.file other (sub other member), stored.disk⟩
  rcases dropRow_cases s fs row.space row.hash with same | ⟨last, same | same⟩
  · rw [same]
    exact ⟨left, spares, sub⟩
  · rw [same]
    exact ⟨left.withoutFile last, spares, sub⟩
  · have removed := (left.withoutFile last).removeFile fs (withoutFile_unknown _ row.hash)
    obtain ⟨data, -⟩ := removeFile_spec ((s.withoutRow row.space row.hash).withoutFile row.hash) fs row.hash
    rw [same]
    refine ⟨removed, fun other member named => ?_, fun other member => ?_⟩
    · rw [held, data]
      exact spares other member named
    · rw [held, data] at member
      exact sub other member

/-- Dropping listed rows that no key names, one after the other. -/
theorem Stored.dropUntil (stored : Stored s) (freed : SpaceBlob → Int → Int) (need : Int) {rows : List SpaceBlob}
    (idle : ∀ row ∈ rows, ∀ other ∈ s.held.rows, other.key = row.key → other.refs ≤ 0) (sum : Int) :
    Stored (dropUntil fs freed need rows sum s).1 ∧ s.Spares (dropUntil fs freed need rows sum s).1 := by
  induction rows generalizing s sum with
  | nil => exact ⟨stored, Spares.refl s⟩
  | cons row rest ih =>
      rw [BlobStore.dropUntil]
      split
      · exact ⟨stored, Spares.refl s⟩
      · obtain ⟨stored', spares, sub⟩ := stored.dropRow fs (idle row List.mem_cons_self)
        generalize s.dropRow fs row.space row.hash = answer at stored' spares sub ⊢
        obtain ⟨s', e | bytes⟩ := answer
        · exact ⟨stored', spares⟩
        · obtain ⟨stored'', spares'⟩ := ih stored' (fun later listed other member =>
            idle later (List.mem_cons_of_mem _ listed) other (sub other member)) (sum + freed row bytes)
          exact ⟨stored'', spares.trans spares'⟩

theorem Stored.dropLetGo (stored : Stored s) (fs : FileSystem) (freed : SpaceBlob → Int → Int) (need : Int)
    (chosen : SpaceBlob → Bool) (let_go : ∀ row, chosen row = true → row.refs ≤ 0) (le : SpaceBlob → SpaceBlob → Prop) [DecidableRel le] (sum : Int) :
    Stored (BlobStore.dropUntil fs freed need ((s.held.rows.filter chosen).insertionSort le) sum s).1 ∧
      s.Spares (BlobStore.dropUntil fs freed need ((s.held.rows.filter chosen).insertionSort le) sum s).1 := by
  refine stored.dropUntil freed need (fun row listed other member own => ?_) sum
  rw [(List.perm_insertionSort _ _).mem_iff, List.mem_filter] at listed
  rw [s.held.eq_of_key member listed.1 own]
  exact let_go row listed.2

theorem refs_of_letGo {row : SpaceBlob} (gone : letGo row = true) : row.refs ≤ 0 := by
  simp only [letGo, Bool.and_eq_true, decide_eq_true_eq] at gone
  exact gone.1

end Drops

/-! ## An upload -/

section Put

variable {s : BlobStore} {r : BlobReader} {caps : BlobCaps} {fs : FileSystem} {u : Upload}

theorem writeFile_spec {hash : String} {s' : BlobStore} (wrote : s.writeFile fs hash = .ok s') :
    s'.data = s.data ∧ s'.files = s.files ∧ (s'.disk.lookup hash).isSome ∧
      ∀ other, (s.disk.lookup other).isSome → (s'.disk.lookup other).isSome := by
  simp only [writeFile] at wrote
  split at wrote
  · cases wrote
  · split at wrote
    · rename_i there
      cases wrote
      exact ⟨rfl, rfl, there, fun _ => id⟩
    · split at wrote
      · cases wrote
      · cases wrote
        refine ⟨rfl, rfl, by rw [FinMap.lookup_insert_self]; rfl, fun other there => ?_⟩
        rw [FinMap.lookup_insert]
        split
        · rfl
        · exact there

/-- The store with an upload's rows. -/
def withUpload (s : BlobStore) (r : BlobReader) (u : Upload) : BlobStore :=
  { s.withHeld (s.held.upsert (u.row r)) with
    files := if (s.files.get (u.hash r)).isSome then s.files else s.files.upsert (u.file r) }

/-- An upload that gets this far is refused with at most its file left, or adds its
    rows, which were not there. -/
theorem insertBlob_cases (s : BlobStore) (r : BlobReader) (fs : FileSystem) (u : Upload) :
    (s.insertBlob r fs u).1 = s ∨ ∃ s', s.writeFile fs (u.hash r) = .ok s' ∧ ((s.insertBlob r fs u).1 = s' ∨
      (s'.held.get (u.space.name, u.hash r) = none ∧ (s.insertBlob r fs u).1 = s'.withUpload r u)) := by
  unfold insertBlob
  cases wrote : s.writeFile fs (u.hash r) with
  | error e => exact .inl rfl
  | ok s' =>
      refine .inr ⟨s', rfl, ?_⟩
      cases inserted : s'.held.insertNew (u.row r) with
      | none => exact .inl (by simp only [inserted])
      | some held =>
          obtain ⟨new, rfl⟩ := KeyedTable.insertNew_eq_some.mp inserted
          refine .inr ⟨new, ?_⟩
          have same : { s'.withHeld (s'.held.upsert (u.row r)) with
              files := if (s'.files.get (u.hash r)).isSome then s'.files else s'.files.upsert (u.file r) } =
            s'.withUpload r u := rfl
          simp only [inserted, same]
          cases (s'.withUpload r u).blobRow u.space.name (u.hash r) with
          | error e => rfl
          | ok row => cases row <;> rfl

theorem Stored.withUpload (stored : Stored s) (new : s.held.get (u.space.name, u.hash r) = none)
    (disk : (s.disk.lookup (u.hash r)).isSome) : Stored (s.withUpload r u) ∧ s.Spares (s.withUpload r u) := by
  have mem : ∀ row, row ∈ (s.withUpload r u).held.rows ↔ row = u.row r ∨ row ∈ s.held.rows := by
    intro row
    rw [BlobStore.withUpload, withHeld, held, KeyedTable.mem_upsert]
    refine or_congr_right (and_iff_left_of_imp fun member => ?_)
    exact KeyedTable.get_eq_none.mp new row member
  have files : ∀ hash, (s.files.get hash).isSome → ((s.withUpload r u).files.get hash).isSome := by
    intro hash there
    simp only [BlobStore.withUpload]
    split
    · exact there
    · rw [KeyedTable.get_upsert]
      split
      · rfl
      · exact there
  refine ⟨⟨⟨⟨stored.linked.counted.data, ?_, ?_, ?_⟩, stored.linked.named⟩, ?_, ?_⟩, ?_⟩
  · intro ref member
    have there := stored.linked.counted.held ref member
    obtain ⟨row, found⟩ := Option.isSome_iff_exists.mp there
    obtain ⟨held, own⟩ := KeyedTable.get_eq_some.mp found
    have stays := KeyedTable.get_of_mem ((mem row).mpr (.inr held))
    rw [own] at stays
    exact Option.isSome_iff_exists.mpr ⟨row, stays⟩
  · intro row member
    rcases (mem row).mp member with rfl | old
    · have unnamed := stored.linked.counted.unnamed new
      exact (congrArg Nat.cast unnamed).symm
    · exact stored.linked.counted.count row old
  · intro row member
    rcases (mem row).mp member with rfl | old
    · exact fun let_go => absurd rfl let_go
    · exact stored.linked.counted.unref row old
  · intro row member
    rcases (mem row).mp member with rfl | old
    · simp only [BlobStore.withUpload]
      split
      next known => exact known
      next unknown =>
        rw [KeyedTable.get_upsert]
        exact congrArg Option.isSome (if_pos rfl)
    · exact files row.hash (stored.file row old)
  · intro f member
    simp only [BlobStore.withUpload] at member
    split at member
    next known => exact stored.disk f member
    next unknown =>
      rcases (KeyedTable.mem_upsert _ _ _).mp member with rfl | ⟨old, -⟩
      · exact disk
      · exact stored.disk f old
  · exact fun row member _ => (mem row).mpr (.inr member)

/-- What an upload adds: its row, named by no key, and its file. -/
theorem Stored.insertBlob (stored : Stored s) (r : BlobReader) (fs : FileSystem) (u : Upload) :
    Stored (s.insertBlob r fs u).1 ∧ s.Spares (s.insertBlob r fs u).1 := by
  rcases insertBlob_cases s r fs u with same | ⟨s', wrote, outcome⟩
  · rw [same]
    exact ⟨stored, Spares.refl s⟩
  · obtain ⟨data, files, there, kept⟩ := writeFile_spec wrote
    have stored' : Stored s' := by
      refine ⟨data ▸ stored.linked, ?_, ?_⟩
      · rw [held, data, files]
        exact stored.file
      · rw [files]
        exact fun f member => kept _ (stored.disk f member)
    have spares : s.Spares s' := by
      intro row member _
      rw [held, data]
      exact member
    rcases outcome with same | ⟨new, same⟩
    · rw [same]
      exact ⟨stored', spares⟩
    · rw [same]
      obtain ⟨stored'', spares'⟩ := stored'.withUpload new there
      exact ⟨stored'', spares.trans spares'⟩

theorem Stored.fitStore (stored : Stored s) (r : BlobReader) (caps : BlobCaps) (fs : FileSystem) (u : Upload) :
    Stored (s.fitStore r caps fs u).1 ∧ s.Spares (s.fitStore r caps fs u).1 := by
  simp only [BlobStore.fitStore]
  split
  · exact stored.insertBlob r fs u
  · obtain ⟨stored', spares⟩ := stored.dropLetGo fs (fun _ bytes => bytes)
      (s.totalBytes + u.size - caps.store) letGo (fun _ => refs_of_letGo) (fun a b =>
        (a.space = u.space.name && b.space ≠ u.space.name) ||
          ((a.space = u.space.name ↔ b.space = u.space.name) && older a b)) 0
    unfold gcPressure
    generalize BlobStore.dropUntil fs (fun _ bytes => bytes) _ _ 0 s = answer at stored' spares ⊢
    obtain ⟨s', e | freed⟩ := answer
    · exact ⟨stored', spares⟩
    · simp only
      split
      · exact ⟨stored', spares⟩
      · obtain ⟨stored'', spares'⟩ := stored'.insertBlob r fs u
        exact ⟨stored'', spares.trans spares'⟩

theorem Stored.fitSpace (stored : Stored s) (r : BlobReader) (caps : BlobCaps) (fs : FileSystem) (u : Upload) :
    Stored (s.fitSpace r caps fs u).1 ∧ s.Spares (s.fitSpace r caps fs u).1 := by
  simp only [BlobStore.fitSpace]
  split
  · exact stored.fitStore r caps fs u
  · obtain ⟨stored', spares⟩ := stored.dropLetGo fs (fun row _ => row.size)
      (s.data.blobs.charged u.space.name + u.size - caps.space)
      (fun row => row.space = u.space.name && letGo row)
      (fun row chosen => refs_of_letGo (Bool.and_eq_true _ _ |>.mp chosen).2) (fun a b => older a b) 0
    unfold freeOwnLetGo
    generalize BlobStore.dropUntil fs (fun row _ => row.size) _ _ 0 s = answer at stored' spares ⊢
    obtain ⟨s', e | freed⟩ := answer
    · exact ⟨stored', spares⟩
    · simp only
      split
      · exact ⟨stored', spares⟩
      · obtain ⟨stored'', spares'⟩ := stored'.fitStore r caps fs u
        exact ⟨stored'', spares.trans spares'⟩

theorem Stored.blobPut (stored : Stored s) (r : BlobReader) (caps : BlobCaps) (fs : FileSystem) (u : Upload) :
    Stored (s.blobPut r caps fs u).1 ∧ s.Spares (s.blobPut r caps fs u).1 := by
  have still : Stored s ∧ s.Spares s := ⟨stored, Spares.refl s⟩
  simp only [BlobStore.blobPut]
  split
  · exact still
  · split
    · exact still
    · split
      · exact still
      · exact still
      · split
        · exact still
        · exact stored.fitSpace r caps fs u

end Put

/-! ## A collection -/

section Gc

variable {s : BlobStore} {fs : FileSystem} {now : Int}

theorem removeOrphans_spec (stored : Stored s) (fs : FileSystem) (files : List BlobFile)
    (unknown : ∀ f ∈ files, s.files.get f.hash = none) (report : BlobGcReport) :
    Stored (removeOrphans fs files report s).1 ∧ (removeOrphans fs files report s).1.data = s.data ∧
      (removeOrphans fs files report s).1.files = s.files := by
  induction files generalizing s report with
  | nil => exact ⟨stored, rfl, rfl⟩
  | cons f rest ih =>
      rw [removeOrphans]
      have removed := stored.removeFile fs (unknown f List.mem_cons_self)
      obtain ⟨data, files, -⟩ := removeFile_spec s fs f.hash
      generalize s.removeFile fs f.hash = answer at removed data files ⊢
      obtain ⟨s', e | gone⟩ := answer
      · exact ⟨removed, data, files⟩
      · obtain ⟨stored', data', files'⟩ := ih removed
          (fun f' later => by rw [files]; exact unknown f' (List.mem_cons_of_mem _ later)) _
        exact ⟨stored', data'.trans data, files'.trans files⟩

theorem removeStrays_spec (stored : Stored s) (fs : FileSystem) (now : Int) (files : List (String × Int)) (report : BlobGcReport) :
    Stored (removeStrays fs now files report s).1 ∧ (removeStrays fs now files report s).1.data = s.data ∧
      (removeStrays fs now files report s).1.files = s.files := by
  induction files generalizing s report with
  | nil => exact ⟨stored, rfl, rfl⟩
  | cons f rest ih =>
      obtain ⟨hash, written⟩ := f
      rw [removeStrays]
      split
      · rename_i stray
        simp only [Bool.and_eq_true, Option.isNone_iff_eq_none] at stray
        have removed := stored.removeFile fs stray.1
        obtain ⟨data, files, -⟩ := removeFile_spec s fs hash
        generalize s.removeFile fs hash = answer at removed data files ⊢
        obtain ⟨s', e | gone⟩ := answer
        · exact ⟨removed, data, files⟩
        · obtain ⟨stored', data', files'⟩ := ih removed _
          exact ⟨stored', data'.trans data, files'.trans files⟩
      · exact ih stored report

theorem refs_of_stale {row : SpaceBlob} (old : stale now row = true) : row.refs ≤ 0 := by
  simp only [stale, Bool.and_eq_true, decide_eq_true_eq] at old
  exact old.1

/-- The tables after a collection: the old rows that no key names are gone, and the
    files no space holds. -/
def collected (s : BlobStore) (now : Int) : BlobStore :=
  { s.withHeld (s.held.deleteWhere (stale now)) with
    files := s.files.deleteWhere fun f => !(s.held.deleteWhere (stale now)).rows.any (·.hash = f.hash) }

theorem Stored.collected (stored : Stored s) (now : Int) :
    Stored (s.collected now) ∧ s.Spares (s.collected now) := by
  have sub : ∀ row ∈ (s.held.deleteWhere (stale now)).rows, row ∈ s.held.rows :=
    fun row member => ((KeyedTable.mem_deleteWhere _ _ _).mp member).1
  have spares : ∀ row ∈ s.held.rows, 0 < row.refs → row ∈ (s.held.deleteWhere (stale now)).rows := by
    intro row member named
    refine (KeyedTable.mem_deleteWhere _ _ _).mpr ⟨member, ?_⟩
    rw [Bool.eq_false_iff]
    intro old
    have := refs_of_stale old
    omega
  refine ⟨⟨withHeld_linked stored.linked sub spares, fun row member => ?_, fun f member => ?_⟩, spares⟩
  · obtain ⟨f, found⟩ := Option.isSome_iff_exists.mp (stored.file row (sub row member))
    have known : (s.held.deleteWhere (stale now)).rows.any (·.hash = f.hash) = true := by
      rw [List.any_eq_true]
      exact ⟨row, member, decide_eq_true (KeyedTable.key_of_get found).symm⟩
    rw [BlobStore.collected, KeyedTable.get_deleteWhere, found, Option.filter_some, known]
    rfl
  · exact stored.disk f ((KeyedTable.mem_deleteWhere _ _ _).mp member).1

theorem blobGc_spec (stored : Stored s) (fs : FileSystem) (now : Int) :
    Stored (s.blobGc fs now).1 ∧ (s.blobGc fs now).1.data = (s.collected now).data ∧
      (s.blobGc fs now).1.files = (s.collected now).files := by
  let orphans := s.files.rows.filter fun f => !(s.held.deleteWhere (stale now)).rows.any (·.hash = f.hash)
  have gone : ∀ f ∈ orphans, (s.collected now).files.get f.hash = none := by
    intro f listed
    obtain ⟨-, orphan⟩ := List.mem_filter.mp listed
    rw [KeyedTable.get_eq_none]
    intro f' member same
    have kept := ((KeyedTable.mem_deleteWhere _ _ _).mp member).2
    rw [same, orphan] at kept
    cases kept
  have removed := removeOrphans_spec (stored.collected now).1 fs orphans gone ⟨s.held.count (stale now), 0, 0⟩
  unfold blobGc
  dsimp only
  split
  next s' report done =>
    have answer : removeOrphans fs orphans ⟨s.held.count (stale now), 0, 0⟩ (s.collected now) = (s', .ok report) := done
    rw [answer] at removed
    obtain ⟨stored', data, files⟩ := removed
    obtain ⟨stored'', data', files'⟩ := removeStrays_spec stored' fs now s'.disk.rows report
    exact ⟨stored'', data'.trans data, files'.trans files⟩
  next s' e failed =>
    have answer : removeOrphans fs orphans ⟨s.held.count (stale now), 0, 0⟩ (s.collected now) = (s', .error e) := failed
    rw [answer] at removed
    exact removed

theorem Stored.blobGc (stored : Stored s) (fs : FileSystem) (now : Int) :
    Stored (s.blobGc fs now).1 ∧ s.Spares (s.blobGc fs now).1 := by
  obtain ⟨stored', data, -⟩ := blobGc_spec stored fs now
  refine ⟨stored', fun row member named => ?_⟩
  rw [held, data]
  exact (stored.collected now).2 row member named

end Gc

/-! ## Runs -/

section Run

variable {b : Backend} {r : BlobReader} {caps : BlobCaps} {s : BlobStore}

theorem Stored.tables (stored : Stored s) {data : Store} (linked : Linked data) (before : HeldBefore s.data data) :
    Stored { s with data } := by
  refine ⟨linked, fun row member => ?_, stored.disk⟩
  obtain ⟨old, there, same⟩ := before row member
  exact same ▸ stored.file old there

theorem Stored.next (stored : Stored s) (step : Step) : Stored (s.next b r caps step) := by
  cases step with
  | write moment space ops who indexed mark =>
      obtain ⟨linked, before⟩ := stored.linked.write b moment space ops who indexed mark
      exact stored.tables linked before
  | dropSpace space now rand =>
      obtain ⟨linked, before⟩ := stored.linked.dropSpace space now rand
      exact stored.tables linked before
  | moveSpace source target =>
      obtain ⟨linked, before⟩ := stored.linked.moveSpace source target
      exact stored.tables linked before
  | reap now =>
      obtain ⟨linked, before⟩ := stored.linked.reap now
      exact stored.tables linked before
  | put fs upload => exact (stored.blobPut r caps fs upload).1
  | gc fs now => exact (stored.blobGc fs now).1

variable (b r caps) in
theorem stored_after (steps : List Step) : Stored (after b r caps steps) :=
  List.foldlRecOn steps (BlobStore.next b r caps) stored_empty fun _ stored step _ => stored.next step

end Run

end BlobStore

/-- In every run of writes, space deletes and moves, uploads and collections, each
    ref in a live value of a data space has its row and its file, the refs are those
    of the live values, each row counts the live keys that name it, only one that
    none names is let go, and neither an upload nor a collection drops one that is
    named. -/
theorem named_blobs_kept (b : Backend) (r : BlobReader) (caps : BlobCaps) (steps : List BlobStore.Step) :
    let s := BlobStore.after b r caps steps
    let refs := s.data.blobs.refs.rows
    (∀ space : Space, space.isData = true → ∀ key,
      (s.data.text space key = none → ∀ h, ⟨space.name, key, h⟩ ∉ refs) ∧
      ∀ t, s.data.text space key = some t → ∃ v, canonical v = .ok t ∧
        (∀ h, ⟨space.name, key, h⟩ ∈ refs ↔ h ∈ walkRefs v) ∧
        ∀ h ∈ walkRefs v, (s.held.get (space.name, h)).isSome ∧ (s.disk.lookup h).isSome) ∧
    (∀ ref ∈ refs, (⟨ref.space⟩ : Space).isData = true) ∧
    (∀ row ∈ s.held.rows, row.refs = (s.data.namers ⟨row.space⟩ row.hash).length ∧
      (row.unrefAt ≠ none → row.refs = 0)) ∧
    (∀ row ∈ s.held.rows, 0 < row.refs →
      (∀ fs upload, row ∈ (s.blobPut r caps fs upload).1.held.rows ∧
        ((s.blobPut r caps fs upload).1.disk.lookup row.hash).isSome) ∧
      ∀ fs now, row ∈ (s.blobGc fs now).1.held.rows ∧ ((s.blobGc fs now).1.disk.lookup row.hash).isSome) := by
  intro s refs
  have stored : s.Stored := BlobStore.stored_after b r caps steps
  have on_disk : ∀ {s' : BlobStore}, s'.Stored → ∀ row ∈ s'.held.rows, (s'.disk.lookup row.hash).isSome := by
    intro s' stored' row member
    obtain ⟨f, found⟩ := Option.isSome_iff_exists.mp (stored'.file row member)
    obtain ⟨there, same⟩ := KeyedTable.get_eq_some.mp found
    exact same ▸ stored'.disk f there
  refine ⟨fun space data key => ?_, stored.linked.counted.data, fun row member => ⟨?_, ?_⟩,
    fun row member named => ⟨fun fs upload => ?_, fun fs now => ?_⟩⟩
  · have named := stored.linked.named space data key
    constructor
    · intro gone
      rw [gone] at named
      exact named
    · intro t live
      rw [live] at named
      obtain ⟨v, wrote, same⟩ := named
      refine ⟨v, wrote, same, fun h inside => ?_⟩
      have there := stored.linked.counted.held _ ((same h).mpr inside)
      obtain ⟨row, found⟩ := Option.isSome_iff_exists.mp there
      obtain ⟨member, own⟩ := KeyedTable.get_eq_some.mp found
      have here : row.hash = h := (Prod.mk.inj own).2
      exact ⟨there, here ▸ on_disk stored row member⟩
  · rw [stored.linked.counted.count row member]
    exact congrArg Nat.cast (stored.linked.naming_eq ⟨row.space⟩ row.hash)
  · exact stored.linked.counted.unref row member
  · obtain ⟨stored', spares⟩ := stored.blobPut r caps fs upload
    exact ⟨spares row member named, on_disk stored' row (spares row member named)⟩
  · obtain ⟨stored', spares⟩ := stored.blobGc fs now
    exact ⟨spares row member named, on_disk stored' row (spares row member named)⟩

/-! ### A file that is pasted and named -/

namespace Paste

/-- A hash of every file's first byte, and one mime. -/
def reader : BlobReader where
  sha256Hex := fun bytes => String.ofList (List.replicate 64 (if bytes.head? = some 1 then 'a' else 'b'))
  sniff := fun _ => "application/octet-stream"

def fs : FileSystem := ⟨0, none, fun _ => none⟩

def upload (bytes : List UInt8) : BlobStore.Upload := ⟨0, ⟨"data:board"⟩, bytes, some "a.bin", "owner"⟩

def name (key : String) (files : List (List UInt8)) : BlobStore.Step :=
  .write ⟨1, 0⟩ ⟨"data:board"⟩ [.put key (.array (files.map fun bytes => .string (refOf (reader.sha256Hex bytes)))) none]
    "owner" true none

def steps : List BlobStore.Step := [.put fs (upload [1, 2]), name "obj/1" [[1, 2]]]

def row : SpaceBlob :=
  { (upload [1, 2]).row reader with refs := 1, firstRefAt := some 1 }

end Paste

theorem named_blobs_kept_paste :
    let s := BlobStore.after smallBackend Paste.reader {} Paste.steps
    ∀ fs now, Paste.row ∈ (s.blobGc fs now).1.held.rows ∧
      ((s.blobGc fs now).1.disk.lookup Paste.row.hash).isSome :=
  ((named_blobs_kept smallBackend Paste.reader {} Paste.steps).2.2.2 Paste.row (by decide +kernel)
    (by decide)).2

end K2.GardenData
