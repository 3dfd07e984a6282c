import K2.GardenData.QuotaRuns

/-! # What a refused upload takes

A refusal comes after rows were dropped to make room, each for good. What is gone
then is a set of let-go rows, and with them the files no other row holds.
-/

namespace K2.GardenData

namespace BlobStore

variable {s s' : BlobStore} {r : BlobReader} {caps : BlobCaps} {fs : FileSystem} {u : Upload}
  {gone later : SpaceBlob → Bool} {row : SpaceBlob} {rows : List SpaceBlob}

/-- Rows that go hold a hash, and no row that stays does. -/
def frees (s : BlobStore) (gone : SpaceBlob → Bool) (hash : String) : Bool :=
  (s.held.rows.any fun row => gone row && row.hash = hash) &&
    !(s.held.deleteWhere gone).rows.any (·.hash = hash)

/-- The store without some rows, and without the files only they held. -/
def shed (s : BlobStore) (gone : SpaceBlob → Bool) : BlobStore :=
  { s.withHeld (s.held.deleteWhere gone) with
    files := s.files.deleteWhere fun f => s.frees gone f.hash
    disk := s.disk.deleteWhere fun f => s.frees gone f.1 && (s.files.get f.1).isSome }

theorem mem_shed : row ∈ (s.shed gone).held.rows ↔ row ∈ s.held.rows ∧ gone row = false :=
  KeyedTable.mem_deleteWhere _ _ _

theorem frees_eq_true {hash : String} : s.frees gone hash = true ↔
    (∃ row ∈ s.held.rows, gone row = true ∧ row.hash = hash) ∧
      ∀ row ∈ s.held.rows, gone row = false → row.hash ≠ hash := by
  simp [frees]

theorem shed_congr (same : ∀ row ∈ s.held.rows, gone row = later row) : s.shed gone = s.shed later := by
  have frees_eq : s.frees gone = s.frees later := funext fun hash => by
    rw [Bool.eq_iff_iff, frees_eq_true, frees_eq_true]
    refine and_congr (exists_congr fun row => and_congr_right fun member => by rw [same row member])
      (forall₂_congr fun row member => by rw [same row member])
  rw [shed, shed, KeyedTable.deleteWhere_congr same, frees_eq]

theorem shed_eq_self : s.shed gone = s ↔ ∀ row ∈ s.held.rows, gone row = false := by
  constructor
  · intro same row member
    rw [← same] at member
    exact (mem_shed.mp member).2
  · intro stay
    have frees_eq : ∀ hash, s.frees gone hash = false := fun hash => Bool.eq_false_iff.mpr fun freed => by
      obtain ⟨⟨row, member, goes, -⟩, -⟩ := frees_eq_true.mp freed
      rw [stay row member] at goes
      cases goes
    rw [shed, KeyedTable.deleteWhere_eq_self.mpr stay, KeyedTable.deleteWhere_eq_self.mpr fun f _ => frees_eq f.hash,
      KeyedTable.deleteWhere_eq_self.mpr fun f _ => by rw [frees_eq f.1, Bool.false_and]]
    rfl

theorem shed_shed (s : BlobStore) (gone later : SpaceBlob → Bool) :
    (s.shed gone).shed later = s.shed fun row => gone row || later row := by
  have held_eq : (s.shed gone).held = s.held.deleteWhere gone := rfl
  have left : ∀ hash, ((s.frees gone hash || (s.shed gone).frees later hash)) =
      s.frees (fun row => gone row || later row) hash := by
    intro hash
    rw [Bool.eq_iff_iff]
    simp only [Bool.or_eq_true, frees_eq_true, mem_shed, Bool.or_eq_false_iff]
    constructor
    · rintro (⟨⟨row, member, goes, same⟩, none⟩ | ⟨⟨row, ⟨member, -⟩, goes, same⟩, none⟩)
      · exact ⟨⟨row, member, .inl goes, same⟩, fun other there stays => none other there stays.1⟩
      · exact ⟨⟨row, member, .inr goes, same⟩, fun other there stays => none other ⟨there, stays.1⟩ stays.2⟩
    · rintro ⟨⟨row, member, goes, same⟩, none⟩
      by_cases kept : ∃ other ∈ s.held.rows, gone other = false ∧ other.hash = hash
      · -- One is left after the first rows, so the later ones take the last.
        obtain ⟨other, there, stays, own⟩ := kept
        have taken : later other = true :=
          Bool.of_not_eq_false fun leaves => none other there ⟨stays, leaves⟩ own
        exact .inr ⟨⟨other, ⟨there, stays⟩, taken, own⟩, fun last ⟨inside, left⟩ leaves => none last inside ⟨left, leaves⟩⟩
      · have first : gone row = true := Bool.of_not_eq_false fun stays => kept ⟨row, member, stays, same⟩
        exact .inl ⟨⟨row, member, first, same⟩, fun other there stays own => kept ⟨other, there, stays, own⟩⟩
  have files : ∀ hash, ((s.frees gone hash && (s.files.get hash).isSome) ||
      ((s.shed gone).frees later hash && ((s.shed gone).files.get hash).isSome)) =
      (s.frees (fun row => gone row || later row) hash && (s.files.get hash).isSome) := by
    intro hash
    rw [← left, show (s.shed gone).files = s.files.deleteWhere fun f => s.frees gone f.hash from rfl,
      KeyedTable.get_deleteWhere]
    cases found : s.files.get hash with
    | none => simp
    | some f =>
        rw [Option.filter_some, KeyedTable.key_of_get found]
        cases s.frees gone hash <;> simp
  have held_twice : (s.held.deleteWhere gone).deleteWhere later = s.held.deleteWhere fun row => gone row || later row :=
    KeyedTable.deleteWhere_deleteWhere ..
  have files_twice : (s.shed gone).files.deleteWhere (fun f => (s.shed gone).frees later f.hash) =
      s.files.deleteWhere fun f => s.frees (fun row => gone row || later row) f.hash :=
    (KeyedTable.deleteWhere_deleteWhere ..).trans (KeyedTable.deleteWhere_congr fun f _ => left f.hash)
  have disk_twice : (s.shed gone).disk.deleteWhere
        (fun f => (s.shed gone).frees later f.1 && ((s.shed gone).files.get f.1).isSome) =
      s.disk.deleteWhere fun f => s.frees (fun row => gone row || later row) f.1 && (s.files.get f.1).isSome :=
    (KeyedTable.deleteWhere_deleteWhere ..).trans (KeyedTable.deleteWhere_congr fun f _ => files f.1)
  have whole : (s.shed gone).shed later =
      { s.withHeld ((s.held.deleteWhere gone).deleteWhere later) with
        files := s.files.deleteWhere fun f => s.frees (fun row => gone row || later row) f.hash
        disk := s.disk.deleteWhere fun f =>
          s.frees (fun row => gone row || later row) f.1 && (s.files.get f.1).isSome } := by
    rw [← files_twice, ← disk_twice]
    rfl
  rw [whole, held_twice, shed]

/-! ## Drops -/

/-- A fault of the file system, not a quota. -/
def Fault (e : DataError) : Prop := ∃ m, e = .badRequest m ∨ e = .unavailable m

theorem removeFile_fault {hash : String} {e : DataError} (failed : (s.removeFile fs hash).2 = .error e) : Fault e := by
  simp only [removeFile] at failed
  split at failed
  · exact ⟨_, .inl (Except.error.inj failed).symm⟩
  · split at failed
    · cases failed
    · split at failed
      · exact ⟨_, .inr (Except.error.inj failed).symm⟩
      · cases failed

/-- A file that is removed, or was gone already, is off the disk. -/
theorem removeFile_ok {hash : String} {gone : Bool} (done : (s.removeFile fs hash).2 = .ok gone) :
    (s.removeFile fs hash).1 = { s with disk := s.disk.erase hash } := by
  simp only [removeFile] at done ⊢
  split at done
  · cases done
  · rename_i valid
    rw [if_neg valid]
    split at done
    · rename_i absent
      rw [if_pos absent, FinMap.erase, KeyedTable.deleteWhere_eq_self.mpr]
      intro f member
      refine decide_eq_false fun same => ?_
      have there : s.disk.lookup hash = some f.2 := FinMap.mem_rows_iff.mp (same ▸ member)
      rw [there] at absent
      cases absent
    · rename_i present
      rw [if_neg present]
      split at done
      · cases done
      · rfl

/-- The size a file table has under a hash. -/
def fileSize (s : BlobStore) (hash : String) : Int := ((s.files.get hash).map (·.size)).getD 0

theorem frees_row (member : row ∈ s.held.rows) (hash : String) :
    s.frees (· = row) hash =
      (row.hash = hash && !(s.withoutRow row.space row.hash).held.rows.any (·.hash = hash) : Bool) := by
  have rows : (s.withoutRow row.space row.hash).held.rows = (s.held.deleteWhere (· = row)).rows := by
    refine congrArg KeyedTable.rows (KeyedTable.deleteWhere_congr fun other there => ?_)
    rw [Bool.eq_iff_iff, decide_eq_true_eq, decide_eq_true_eq]
    exact ⟨fun keys => s.held.eq_of_key there member keys, fun same => same ▸ rfl⟩
  have own : (s.held.rows.any fun other => other = row && other.hash = hash) = decide (row.hash = hash) := by
    rw [Bool.eq_iff_iff, List.any_eq_true, decide_eq_true_eq]
    constructor
    · rintro ⟨other, -, both⟩
      simp only [Bool.and_eq_true, decide_eq_true_eq] at both
      exact both.1 ▸ both.2
    · exact fun same => ⟨row, member, by simp [same]⟩
  rw [frees, own, rows]

theorem shed_row (member : row ∈ s.held.rows) : (s.shed (· = row)).data = (s.withoutRow row.space row.hash).data := by
  have rows : s.held.deleteWhere (·.key = (row.space, row.hash)) = s.held.deleteWhere (· = row) := by
    refine KeyedTable.deleteWhere_congr fun other there => ?_
    rw [Bool.eq_iff_iff, decide_eq_true_eq, decide_eq_true_eq]
    exact ⟨fun keys => s.held.eq_of_key there member keys, fun same => same ▸ rfl⟩
  rw [withoutRow, rows]
  rfl

theorem dropRow_eq (s : BlobStore) (fs : FileSystem) (space hash : String) : s.dropRow fs space hash =
    if (s.withoutRow space hash).held.rows.any (·.hash = hash) then (s.withoutRow space hash, .ok 0)
    else match ((s.withoutRow space hash).files.get hash).map (·.size) with
      | none => ((s.withoutRow space hash).withoutFile hash, .ok 0)
      | some size => match ((s.withoutRow space hash).withoutFile hash).removeFile fs hash with
          | (s, .ok _) => (s, .ok size)
          | (s, .error e) => (s, .error e) := rfl

theorem shed_of {t : BlobStore} (data : (s.shed gone).data = t.data)
    (files : (s.files.deleteWhere fun f => s.frees gone f.hash) = t.files)
    (disk : (s.disk.deleteWhere fun f => s.frees gone f.1 && (s.files.get f.1).isSome) = t.disk) :
    t = s.shed gone := by
  obtain ⟨d, f, k⟩ := t
  cases data
  cases files
  cases disk
  rfl

theorem dropRow_ok {bytes : Int} (member : row ∈ s.held.rows)
    (done : (s.dropRow fs row.space row.hash).2 = .ok bytes) :
    (s.dropRow fs row.space row.hash).1 = s.shed (· = row) ∧
      bytes = if s.frees (· = row) row.hash then s.fileSize row.hash else 0 := by
  have freed := frees_row member
  have data := shed_row member
  rw [dropRow_eq] at done ⊢
  cases others : (s.withoutRow row.space row.hash).held.rows.any (·.hash = row.hash) with
  | true =>
      rw [others, if_pos rfl] at done
      have none : ∀ hash, s.frees (· = row) hash = false := fun hash => by
        rw [freed]
        by_cases same : row.hash = hash
        · rw [← same, others, Bool.not_true, Bool.and_false]
        · rw [decide_eq_false same, Bool.false_and]
      rw [if_pos rfl, none, if_neg Bool.false_ne_true]
      refine ⟨shed_of data ?_ ?_, (Except.ok.inj done).symm⟩
      · exact KeyedTable.deleteWhere_eq_self.mpr fun f _ => none f.hash
      · exact KeyedTable.deleteWhere_eq_self.mpr fun f _ => by rw [none f.1, Bool.false_and]
  | false =>
      have only : ∀ hash, s.frees (· = row) hash = decide (hash = row.hash) := fun hash => by
        rw [freed]
        by_cases same : row.hash = hash
        · rw [← same, others, decide_eq_true rfl, Bool.true_and, Bool.not_false]
        · rw [decide_eq_false same, Bool.false_and, decide_eq_false (Ne.symm same)]
      have files : (s.files.deleteWhere fun f => s.frees (· = row) f.hash) =
          s.files.deleteWhere (·.hash = row.hash) :=
        KeyedTable.deleteWhere_congr fun f _ => only f.hash
      have known : (s.withoutRow row.space row.hash).files = s.files := rfl
      rw [others, if_neg Bool.false_ne_true, known] at done
      rw [if_neg Bool.false_ne_true, only, decide_eq_true rfl, if_pos rfl, fileSize, known]
      cases found : s.files.get row.hash with
      | none =>
          rw [found] at done
          refine ⟨shed_of data files ?_, (Except.ok.inj done).symm⟩
          refine KeyedTable.deleteWhere_eq_self.mpr fun d _ => ?_
          rw [only]
          by_cases same : d.1 = row.hash
          · rw [same, found, Option.isSome_none, Bool.and_false]
          · rw [decide_eq_false same, Bool.false_and]
      | some f =>
          rw [found] at done
          have disk : (s.disk.deleteWhere fun d => s.frees (· = row) d.1 && (s.files.get d.1).isSome) =
              s.disk.erase row.hash := KeyedTable.deleteWhere_congr fun d _ => by
            rw [only]
            by_cases same : d.1 = row.hash
            · rw [same, found, decide_eq_true rfl]
              rfl
            · rw [decide_eq_false same, Bool.false_and]
          have removed : ∀ taken, (((s.withoutRow row.space row.hash).withoutFile row.hash).removeFile fs row.hash).2 =
              .ok taken → _ := fun _ => removeFile_ok
          dsimp only [Option.map_some, Option.getD_some] at done ⊢
          generalize ((s.withoutRow row.space row.hash).withoutFile row.hash).removeFile fs row.hash = answer at done removed ⊢
          obtain ⟨s', e | taken⟩ := answer
          · cases done
          · refine ⟨?_, (Except.ok.inj done).symm⟩
            have erased : s' = _ := removed taken rfl
            rw [erased]
            exact shed_of data files disk

theorem dropRow_fault {space hash : String} {e : DataError} (failed : (s.dropRow fs space hash).2 = .error e) :
    Fault e := by
  rw [dropRow_eq] at failed
  split at failed
  · cases failed
  · split at failed
    · cases failed
    · have fault : ∀ e, (((s.withoutRow space hash).withoutFile hash).removeFile fs hash).2 = .error e → Fault e :=
        fun _ => removeFile_fault
      generalize ((s.withoutRow space hash).withoutFile hash).removeFile fs hash = answer at failed fault
      obtain ⟨s', e' | gone⟩ := answer
      · exact fault e (by simpa using failed)
      · cases failed

theorem sum_without {files : List BlobFile} (once : (files.map (·.hash)).Nodup) (hash : String) :
    ((files.filter fun f => !decide (f.hash = hash)).map (·.size)).sum +
      ((files.find? fun f => f.hash = hash).map (·.size)).getD 0 = (files.map (·.size)).sum := by
  induction files with
  | nil => rfl
  | cons f rest ih =>
      rw [List.map_cons, List.nodup_cons] at once
      rw [List.filter_cons, List.find?_cons, List.map_cons, List.sum_cons]
      by_cases same : f.hash = hash
      · have others : rest.filter (fun f => !decide (f.hash = hash)) = rest := by
          rw [List.filter_eq_self]
          intro other there
          have apart : other.hash ≠ hash := fun own => once.1 (List.mem_map.mpr ⟨other, there, own.trans same.symm⟩)
          simp [apart]
        rw [decide_eq_true same, others]
        exact Int.add_comm _ _
      · have later := ih once.2
        rw [decide_eq_false same]
        simp only [Bool.not_false, if_true, List.map_cons, List.sum_cons]
        omega

theorem total_dropRow {space hash : String} {bytes : Int} (done : (s.dropRow fs space hash).2 = .ok bytes) :
    (s.dropRow fs space hash).1.totalBytes + bytes = s.totalBytes := by
  have less : ((s.withoutRow space hash).withoutFile hash).totalBytes +
      (((s.withoutRow space hash).files.get hash).map (·.size)).getD 0 = s.totalBytes :=
    sum_without s.files.distinct hash
  rw [dropRow_eq] at done ⊢
  split at done
  next others =>
    rw [if_pos others]
    cases done
    exact Int.add_zero _
  next last =>
    rw [if_neg last]
    cases known : ((s.withoutRow space hash).files.get hash).map (·.size) with
    | none =>
        rw [known] at done less
        cases done
        exact less
    | some size =>
        rw [known] at done less
        have files := (removeFile_spec ((s.withoutRow space hash).withoutFile hash) fs hash).2.1
        dsimp only at done ⊢
        generalize ((s.withoutRow space hash).withoutFile hash).removeFile fs hash = answer at done files ⊢
        obtain ⟨s', e | gone⟩ := answer
        · cases done
        · cases done
          rw [← less]
          exact congrArg (fun files : KeyedTable BlobFile.hash => (files.rows.map (·.size)).sum + bytes) files

/-! ## Runs of drops -/

variable {freed : SpaceBlob → Int → Int} {need sum total : Int}

theorem dropUntil_fault {e : DataError} (failed : (dropUntil fs freed need rows sum s).2 = .error e) : Fault e := by
  induction rows generalizing s sum with
  | nil => cases failed
  | cons row rest ih =>
      rw [dropUntil] at failed
      split at failed
      · cases failed
      · have fault : ∀ e, (s.dropRow fs row.space row.hash).2 = .error e → Fault e := fun _ => dropRow_fault
        generalize s.dropRow fs row.space row.hash = answer at failed fault
        obtain ⟨s', e' | bytes⟩ := answer
        · exact fault e (by simpa using failed)
        · exact ih failed

/-- A run of drops takes a first part of its rows, and all of them when it falls
    short. -/
theorem dropUntil_ok (once : rows.Nodup) (listed : ∀ row ∈ rows, row ∈ s.held.rows)
    (done : (dropUntil fs freed need rows sum s).2 = .ok total) :
    ∃ early, early <+: rows ∧ (dropUntil fs freed need rows sum s).1 = s.shed (· ∈ early) ∧
      (total < need → early = rows) := by
  induction rows generalizing s sum with
  | nil =>
      refine ⟨[], List.prefix_rfl, ?_, fun _ => rfl⟩
      exact (shed_eq_self.mpr fun row _ => decide_eq_false List.not_mem_nil).symm
  | cons row rest ih =>
      rw [List.nodup_cons] at once
      rw [List.forall_mem_cons] at listed
      rw [dropUntil] at done ⊢
      split at done
      next enough =>
        rw [if_pos enough]
        cases done
        refine ⟨[], List.nil_prefix, ?_, fun short => absurd short (by omega)⟩
        exact (shed_eq_self.mpr fun row _ => decide_eq_false List.not_mem_nil).symm
      next more =>
        rw [if_neg more]
        have ok : ∀ bytes, (s.dropRow fs row.space row.hash).2 = .ok bytes → _ := fun _ => dropRow_ok listed.1
        generalize s.dropRow fs row.space row.hash = answer at ok done ⊢
        obtain ⟨s', e | bytes⟩ := answer
        · cases done
        · have shed_first : s' = s.shed (· = row) := (ok bytes rfl).1
          subst shed_first
          have still : ∀ other ∈ rest, other ∈ (s.shed (· = row)).held.rows := fun other there =>
            mem_shed.mpr ⟨listed.2 other there, decide_eq_false fun same => once.1 (same ▸ there)⟩
          obtain ⟨early, front, state, short⟩ := ih once.2 still done
          refine ⟨row :: early, List.cons_prefix_cons.mpr ⟨rfl, front⟩, ?_, fun less => by rw [short less]⟩
          refine state.trans ((shed_shed ..).trans (shed_congr fun other _ => ?_))
          rw [Bool.eq_iff_iff]
          simp

theorem total_dropUntil (done : (dropUntil fs (fun _ bytes => bytes) need rows sum s).2 = .ok total) :
    (dropUntil fs (fun _ bytes => bytes) need rows sum s).1.totalBytes + total = s.totalBytes + sum := by
  induction rows generalizing s sum with
  | nil =>
      cases done
      rfl
  | cons row rest ih =>
      rw [dropUntil] at done ⊢
      split at done
      next enough =>
        rw [if_pos enough]
        cases done
        rfl
      next more =>
        rw [if_neg more]
        have less : ∀ bytes, (s.dropRow fs row.space row.hash).2 = .ok bytes → _ := fun _ => total_dropRow
        generalize s.dropRow fs row.space row.hash = answer at less done ⊢
        obtain ⟨s', e | bytes⟩ := answer
        · cases done
        · have later := ih done
          have first : s'.totalBytes + bytes = s.totalBytes := less bytes rfl
          dsimp only at later ⊢
          omega

/-! ## An upload -/

variable {e : DataError}

/-- The rows a refusal takes. -/
def given (u : Upload) : DataError → SpaceBlob → Bool
  | .spaceFull what, row => what = "blobs" && row.space = u.space.name && letGo row
  | .storeFull, row => letGo row
  | _, _ => false

theorem insertBlob_fault (failed : (s.insertBlob r fs u).2 = .error e) : Fault e := by
  simp only [insertBlob, writeFile] at failed
  split at failed
  next e' wrote =>
    obtain rfl := Except.error.inj failed
    split at wrote
    · exact ⟨_, .inl (Except.error.inj wrote).symm⟩
    · split at wrote
      · cases wrote
      · split at wrote
        · exact ⟨_, .inr (Except.error.inj wrote).symm⟩
        · cases wrote
  next s' wrote =>
    split at failed
    · exact ⟨_, .inr (Except.error.inj failed).symm⟩
    · split at failed
      · cases failed
      · exact ⟨_, .inr (Except.error.inj failed).symm⟩
      next e' found =>
        obtain rfl := Except.error.inj failed
        rw [blobRow] at found
        split at found
        · exact ⟨_, .inl (Except.error.inj found).symm⟩
        · cases found

theorem sheds_picked {p : SpaceBlob → Bool} {order : SpaceBlob → SpaceBlob → Bool}
    (done : (dropUntil fs freed need ((s.held.rows.filter p).insertionSort fun a b => order a b) 0 s).2 = .ok total) :
    ∃ early : List SpaceBlob, (∀ row ∈ early, p row = true) ∧
      (dropUntil fs freed need ((s.held.rows.filter p).insertionSort fun a b => order a b) 0 s).1 =
        s.shed (· ∈ early) ∧
      (total < need → s.shed (· ∈ early) = s.shed p) := by
  have picked : ∀ row, row ∈ (s.held.rows.filter p).insertionSort (fun a b => order a b) ↔
      row ∈ s.held.rows ∧ p row = true := fun row => by
    rw [(List.perm_insertionSort _ _).mem_iff, List.mem_filter]
  have once : ((s.held.rows.filter p).insertionSort fun a b => order a b).Nodup :=
    (List.perm_insertionSort _ _).nodup_iff.mpr (s.data.blobs.nodup_held.filter _)
  obtain ⟨early, front, state, short⟩ := dropUntil_ok once (fun row there => ((picked row).mp there).1) done
  refine ⟨early, fun row there => ((picked row).mp (front.subset there)).2, state, fun less => ?_⟩
  refine shed_congr fun row member => ?_
  rw [Bool.eq_iff_iff, decide_eq_true_eq, short less, picked]
  exact and_iff_right member

theorem gcPressure_ok {asking : String} (done : (s.gcPressure fs asking need).2 = .ok total) :
    (total < need → (s.gcPressure fs asking need).1 = s.shed letGo) ∧
      (s.gcPressure fs asking need).1.totalBytes + total = s.totalBytes := by
  obtain ⟨early, -, state, short⟩ := sheds_picked done
  exact ⟨fun less => state.trans (short less), (total_dropUntil done).trans (Int.add_zero _)⟩

theorem freeOwnLetGo_ok {space : String} (done : (s.freeOwnLetGo fs space need).2 = .ok total) :
    ∃ early : List SpaceBlob, (∀ row ∈ early, letGo row = true) ∧
      (s.freeOwnLetGo fs space need).1 = s.shed (· ∈ early) ∧
      (total < need → (s.freeOwnLetGo fs space need).1 = s.shed fun row => row.space = space && letGo row) := by
  obtain ⟨early, own, state, short⟩ := sheds_picked done
  exact ⟨early, fun row there => (Bool.and_eq_true _ _ |>.mp (own row there)).2, state,
    fun less => state.trans (short less)⟩

theorem fitStore_refuses (failed : (s.fitStore r caps fs u).2 = .error e) :
    Fault e ∨ e = .storeFull ∧ (s.fitStore r caps fs u).1 = s.shed letGo := by
  simp only [fitStore] at failed ⊢
  split at failed
  next room => exact .inl (insertBlob_fault failed)
  next full =>
    rw [if_neg full]
    have fault : ∀ e, (s.gcPressure fs u.space.name (s.totalBytes + u.size - caps.store)).2 = .error e → Fault e :=
      fun _ => dropUntil_fault
    have took : ∀ total, (s.gcPressure fs u.space.name (s.totalBytes + u.size - caps.store)).2 = .ok total → _ :=
      fun _ => gcPressure_ok
    generalize s.gcPressure fs u.space.name (s.totalBytes + u.size - caps.store) = answer at fault took failed ⊢
    obtain ⟨s', e' | total⟩ := answer
    · exact .inl (fault e (by simpa using failed))
    · obtain ⟨short, bytes⟩ := took total rfl
      dsimp only at short bytes failed ⊢
      split at failed
      next overrun =>
        rw [if_pos overrun]
        cases failed
        exact .inr ⟨rfl, short (by omega)⟩
      next fits => exact .inl (insertBlob_fault failed)

/-- What a space gave up first is among what the folder would take. -/
theorem fitSpace_refuses (failed : (s.fitSpace r caps fs u).2 = .error e) :
    Fault e ∨ (s.fitSpace r caps fs u).1 = s.shed (given u e) := by
  simp only [fitSpace] at failed ⊢
  split at failed
  next room =>
    rw [if_pos room]
    refine (fitStore_refuses failed).imp_right ?_
    rintro ⟨rfl, state⟩
    exact state
  next full =>
    rw [if_neg full]
    have fault : ∀ e, (s.freeOwnLetGo fs u.space.name (s.data.blobs.charged u.space.name + u.size - caps.space)).2 =
      .error e → Fault e := fun _ => dropUntil_fault
    have took : ∀ total, (s.freeOwnLetGo fs u.space.name
      (s.data.blobs.charged u.space.name + u.size - caps.space)).2 = .ok total → _ := fun _ => freeOwnLetGo_ok
    generalize s.freeOwnLetGo fs u.space.name (s.data.blobs.charged u.space.name + u.size - caps.space) = answer
      at fault took failed ⊢
    obtain ⟨s', e' | total⟩ := answer
    · exact .inl (fault e (by simpa using failed))
    · obtain ⟨early, own, state, short⟩ := took total rfl
      dsimp only at state short failed ⊢
      split at failed
      next less =>
        rw [if_pos less]
        cases failed
        exact .inr (short less)
      next enough =>
        rw [if_neg enough]
        refine (fitStore_refuses failed).imp_right ?_
        rintro ⟨rfl, rest⟩
        rw [rest, state, shed_shed]
        refine shed_congr fun row _ => ?_
        rw [Bool.eq_iff_iff, Bool.or_eq_true, decide_eq_true_eq]
        exact ⟨fun either => either.elim (own row) id, .inr⟩

/-- A refusal is a fault or an upload that is no file, or takes what its quota does. -/
theorem blobPut_refuses (failed : (s.blobPut r caps fs u).2 = .error e) :
    Fault e ∨ (∃ m, e = .tooLarge m) ∨ (s.blobPut r caps fs u).1 = s.shed (given u e) := by
  simp only [blobPut] at failed ⊢
  split at failed
  · exact .inl ⟨_, .inl (Except.error.inj failed).symm⟩
  next data =>
    rw [if_neg data]
    split at failed
    · exact .inr (.inl ⟨_, (Except.error.inj failed).symm⟩)
    next small =>
      rw [if_neg small]
      split at failed
      next e' invalid =>
        obtain rfl := Except.error.inj failed
        rw [blobRow] at invalid
        split at invalid
        · exact .inl ⟨_, .inl (Except.error.inj invalid).symm⟩
        · cases invalid
      · cases failed
      next new =>
        split at failed
        next full =>
          rw [if_pos full]
          cases failed
          exact .inr (.inr (shed_eq_self.mpr fun row _ => rfl).symm)
        next room =>
          rw [if_neg room]
          exact (fitSpace_refuses failed).imp_right .inr

end BlobStore

open BlobStore (given)

/-- An upload refused for a quota leaves the store without a set of let-go rows and
    the files only they held. Over its uploader's pending cap it takes none, over its
    space's quota all of that space, over the folder's all there are; so it leaves the
    store as it was exactly when there are none of these. A row that a key names, or
    that none has let go, is never taken. -/
theorem refused_put (s : BlobStore) (r : BlobReader) (caps : BlobCaps) (fs : FileSystem) (u : BlobStore.Upload)
    (e : DataError) (quota : (∃ what, e = .spaceFull what) ∨ e = .storeFull)
    (refused : (s.blobPut r caps fs u).2 = .error e) :
    let after := (s.blobPut r caps fs u).1
    after = s.shed (given u e) ∧
    (after = s ↔ ∀ row ∈ s.held.rows, given u e row = false) ∧
    (∀ row, row ∈ after.held.rows ↔ row ∈ s.held.rows ∧ given u e row = false) ∧
    (∀ f ∈ s.files.rows, f ∉ after.files.rows ↔
      (∃ row ∈ s.held.rows, given u e row = true ∧ row.hash = f.hash) ∧ ∀ row ∈ after.held.rows, row.hash ≠ f.hash) ∧
    ∀ row ∈ s.held.rows, 0 < row.refs ∨ row.unrefAt = none → row ∈ after.held.rows := by
  intro after
  have state : after = s.shed (given u e) := by
    rcases BlobStore.blobPut_refuses refused with ⟨m, rfl | rfl⟩ | ⟨m, rfl⟩ | took
    · simp at quota
    · simp at quota
    · simp at quota
    · exact took
  rw [state]
  refine ⟨rfl, BlobStore.shed_eq_self, fun row => BlobStore.mem_shed, fun f there => ?_, fun row member idle => ?_⟩
  · have kept : f ∈ (s.shed (given u e)).files.rows ↔ f ∈ s.files.rows ∧ s.frees (given u e) f.hash = false :=
      KeyedTable.mem_deleteWhere _ _ _
    rw [kept, and_iff_right there, Bool.not_eq_false, BlobStore.frees_eq_true]
    refine and_congr_right fun _ => forall_congr' fun row => ?_
    rw [BlobStore.mem_shed, and_imp]
  · refine BlobStore.mem_shed.mpr ⟨member, ?_⟩
    have kept : BlobStore.letGo row = false := by
      rw [BlobStore.letGo, Bool.and_eq_false_iff, decide_eq_false_iff_not]
      refine idle.imp (fun named => by omega) fun unset => ?_
      rw [unset]
      rfl
    cases e <;> simp [given, kept]

/-! ### A file too large for its space -/

namespace Spill

def caps : BlobCaps := { space := 3 }

/-- A key names a file of two bytes, then no more. -/
def steps : List BlobStore.Step :=
  Paste.steps ++ [.write ⟨2, 0⟩ ⟨"data:board"⟩ [.delete "obj/1" none] "owner" true none]

def s : BlobStore := BlobStore.after smallBackend Paste.reader caps steps

/-- Four bytes never fit in three. -/
def upload : BlobStore.Upload := Paste.upload [2, 3, 4, 5]

end Spill

theorem refused_put_spill :
    let after := (Spill.s.blobPut Paste.reader Spill.caps Paste.fs Spill.upload).1
    after = Spill.s ↔ ∀ row ∈ Spill.s.held.rows, given Spill.upload (.spaceFull "blobs") row = false :=
  (refused_put Spill.s Paste.reader Spill.caps Paste.fs Spill.upload (.spaceFull "blobs") (.inl ⟨_, rfl⟩)
    (by decide +kernel)).2.1

theorem refused_put_takes_a_copy :
    ¬ ∀ (b : Backend) (r : BlobReader) (caps : BlobCaps) (steps : List BlobStore.Step) (fs : FileSystem)
      (u : BlobStore.Upload) (e : DataError), (∃ what, e = .spaceFull what) ∨ e = .storeFull →
      let s := BlobStore.after b r caps steps
      (s.blobPut r caps fs u).2 = .error e →
      (s.blobPut r caps fs u).1.held.rows = s.held.rows ∧ (s.blobPut r caps fs u).1.files.rows = s.files.rows ∧
        (s.blobPut r caps fs u).1.disk.rows = s.disk.rows := by
  intro untouched
  have same := untouched smallBackend Paste.reader Spill.caps Spill.steps Paste.fs Spill.upload (.spaceFull "blobs")
    (.inl ⟨_, rfl⟩) (by decide +kernel)
  have gone : (Spill.s.blobPut Paste.reader Spill.caps Paste.fs Spill.upload).1.held.rows = [] := by decide +kernel
  have held : Spill.s.held.rows ≠ [] := by decide +kernel
  exact held (same.1.symm.trans gone)

end K2.GardenData
