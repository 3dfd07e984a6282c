import K2.GardenData.BlobRuns
import Mathlib.Algebra.BigOperators.Group.List.Basic

/-! # Quotas over whole runs

The caps are checked when bytes come in. A delete, a move or a collection only
lowers what they bound, and an upload is checked against all three; but a write
that takes a deleted space's copies back adds rows to the space's quota without
looking at it.
-/

namespace K2.GardenData

open Store (movedFrom movedFrom_eq_some)

/-! ## Sums of sizes -/

/-- The sizes of the rows a test selects. -/
def sizeSum (p : SpaceBlob → Bool) (rows : List SpaceBlob) : Int := ((rows.filter p).map (·.size)).sum

section Sums

variable {p q : SpaceBlob → Bool} {rows : List SpaceBlob}

theorem sizeSum_cons (row : SpaceBlob) (rows : List SpaceBlob) :
    sizeSum p (row :: rows) = (if p row then row.size else 0) + sizeSum p rows := by
  simp only [sizeSum, List.filter_cons]
  split <;> simp

/-- Rows that are left, each as large as before and counted only where it was. -/
theorem sizeSum_le {c : SpaceBlob → Bool} {f : SpaceBlob → SpaceBlob} (same : ∀ row, (f row).size = row.size)
    (sizes : ∀ row ∈ rows, 0 ≤ row.size)
    (counted : ∀ row ∈ rows, c row = true → p (f row) = true → q row = true) :
    sizeSum p ((rows.filter c).map f) ≤ sizeSum q rows := by
  induction rows with
  | nil => exact le_rfl
  | cons row rest ih =>
      rw [List.forall_mem_cons] at sizes counted
      have later := ih sizes.2 counted.2
      have size := sizes.1
      rw [List.filter_cons, sizeSum_cons]
      by_cases stays : c row = true
      · rw [if_pos stays, List.map_cons, sizeSum_cons, same]
        by_cases here : p (f row) = true
        · rw [if_pos here, if_pos (counted.1 stays here)]
          omega
        · rw [if_neg here]
          split <;> omega
      · rw [if_neg stays]
        split <;> omega

theorem sizeSum_append (rows more : List SpaceBlob) : sizeSum p (rows ++ more) = sizeSum p rows + sizeSum p more := by
  simp [sizeSum]

/-- Rows that change, but not their size nor whether they are counted. -/
theorem sizeSum_map {f : SpaceBlob → SpaceBlob} (same : ∀ row, (f row).size = row.size)
    (counted : ∀ row, p (f row) = p row) (rows : List SpaceBlob) : sizeSum p (rows.map f) = sizeSum p rows := by
  induction rows with
  | nil => rfl
  | cons row rest ih => rw [List.map_cons, sizeSum_cons, sizeSum_cons, same, counted, ih]

theorem sizeSum_change {b : SpaceBlob} (b' : SpaceBlob) (once : rows.Nodup) (member : b ∈ rows) :
    sizeSum p (rows.map fun row => if row = b then b' else row) + (if p b then b.size else 0) =
      sizeSum p rows + if p b' then b'.size else 0 := by
  induction rows with
  | nil => cases member
  | cons first rest ih =>
      rw [List.nodup_cons] at once
      rw [List.map_cons, sizeSum_cons, sizeSum_cons]
      rcases List.mem_cons.mp member with rfl | later
      · have untouched : rest.map (fun row => if row = b then b' else row) = rest := by
          refine (List.map_congr_left fun other there => if_neg ?_).trans (List.map_id rest)
          rintro rfl
          exact once.1 there
        rw [if_pos rfl, untouched]
        omega
      · have apart : first ≠ b := fun same => once.1 (same ▸ later)
        rw [if_neg apart]
        have := ih once.2 later
        omega

theorem sizeSum_without {row : SpaceBlob} (once : rows.Nodup) (member : row ∈ rows) (selected : p row = true) :
    sizeSum p (rows.filter (· ≠ row)) + row.size = sizeSum p rows := by
  induction rows with
  | nil => cases member
  | cons first rest ih =>
      rw [List.nodup_cons] at once
      rw [List.filter_cons, sizeSum_cons]
      rcases List.mem_cons.mp member with rfl | later
      · have untouched : rest.filter (· ≠ row) = rest := by
          rw [List.filter_eq_self]
          exact fun other there => decide_eq_true fun same => once.1 (same ▸ there)
        rw [if_neg (by simp), untouched, if_pos selected]
        omega
      · have apart : first ≠ row := fun same => once.1 (same ▸ later)
        rw [if_pos (decide_eq_true apart), sizeSum_cons]
        have := ih once.2 later
        omega

end Sums

namespace BlobTables

theorem charged_eq (t : BlobTables) (space : String) :
    t.charged space = sizeSum (·.space = space) t.held.rows := rfl

theorem pendingOf_eq (t : BlobTables) (who : String) :
    t.pendingOf who = sizeSum (fun row => row.addedBy = who && row.firstRefAt.isNone) t.held.rows := rfl

/-- Sizes are sizes, and no uploader has more unnamed than the cap. -/
structure Pends (caps : BlobCaps) (t : BlobTables) : Prop where
  sizes : ∀ row ∈ t.held.rows, 0 ≤ row.size
  pending : ∀ who, t.pendingOf who ≤ caps.pending

/-- Every data space is within its quota. -/
def Within (caps : BlobCaps) (t : BlobTables) : Prop :=
  ∀ space : Space, space.isData = true → t.charged space.name ≤ caps.space

section Tables

variable {caps : BlobCaps} {t t' : BlobTables} {space key hash : String} {now : Int}

/-- Rows are left, each as it was but for its space and its times: a named row stays
    named. -/
theorem Pends.of_rows (pends : t.Pends caps) {c : SpaceBlob → Bool} {f : SpaceBlob → SpaceBlob}
    (rows : t'.held.rows = (t.held.rows.filter c).map f) (size : ∀ row, (f row).size = row.size)
    (addedBy : ∀ row, (f row).addedBy = row.addedBy)
    (named : ∀ row, (f row).firstRefAt = none → row.firstRefAt = none) : t'.Pends caps := by
  constructor
  · intro row member
    rw [rows] at member
    obtain ⟨old, kept, rfl⟩ := List.mem_map.mp member
    rw [size]
    exact pends.sizes old (List.mem_filter.mp kept).1
  · intro who
    refine le_trans ?_ (pends.pending who)
    rw [pendingOf_eq, pendingOf_eq, rows]
    refine sizeSum_le size pends.sizes fun row _ _ selected => ?_
    simp only [Bool.and_eq_true, decide_eq_true_eq, Option.isNone_iff_eq_none] at selected ⊢
    exact ⟨(addedBy row).symm.trans selected.1, named row selected.2⟩

/-! ### Counting refs -/

/-- The rows are counted anew: each stays in its space, as large as it was. -/
def Recounts (t t' : BlobTables) : Prop :=
  ∃ f : SpaceBlob → SpaceBlob, t'.held.rows = t.held.rows.map f ∧ ∀ row, (f row).space = row.space ∧
    (f row).size = row.size ∧ (f row).addedBy = row.addedBy ∧ ((f row).firstRefAt = none → row.firstRefAt = none)

theorem Recounts.refl (t : BlobTables) : Recounts t t :=
  ⟨id, (List.map_id _).symm, fun _ => ⟨rfl, rfl, rfl, id⟩⟩

theorem Recounts.trans {t'' : BlobTables} (first : Recounts t t') (second : Recounts t' t'') : Recounts t t'' := by
  obtain ⟨f, rows, keeps⟩ := first
  obtain ⟨g, rows', keeps'⟩ := second
  refine ⟨g ∘ f, by rw [rows', rows, List.map_map], fun row => ?_⟩
  obtain ⟨space, size, addedBy, named⟩ := keeps row
  obtain ⟨space', size', addedBy', named'⟩ := keeps' (f row)
  exact ⟨space'.trans space, size'.trans size, addedBy'.trans addedBy, named ∘ named'⟩

theorem Recounts.pends (recounts : Recounts t t') (pends : t.Pends caps) : t'.Pends caps := by
  obtain ⟨f, rows, keeps⟩ := recounts
  refine pends.of_rows (c := fun _ => true) (f := f) (by rw [rows, List.filter_true]) (fun row => (keeps row).2.1)
    (fun row => (keeps row).2.2.1) fun row => (keeps row).2.2.2

theorem Recounts.charged (recounts : Recounts t t') (space : String) : t'.charged space = t.charged space := by
  obtain ⟨f, rows, keeps⟩ := recounts
  rw [charged_eq, charged_eq, rows]
  exact sizeSum_map (fun row => (keeps row).2.1) (fun row => by rw [(keeps row).1]) _

theorem recounts_down : Recounts t (t.down space key hash now) := by
  refine ⟨fun row => if row.key = (space, hash) then row.less now else row, ?_, fun row => ?_⟩
  · simp only [down, KeyedTable.updateWhere, decide_eq_true_eq]
    rfl
  · dsimp only
    split <;> exact ⟨rfl, rfl, rfl, id⟩

theorem recounts_up : Recounts t (t.up space key hash now) := by
  refine ⟨fun row => if row.key = (space, hash) then row.more now else row, ?_, fun row => ?_⟩
  · simp only [up, KeyedTable.updateWhere, decide_eq_true_eq]
    rfl
  · dsimp only
    split
    · exact ⟨rfl, rfl, rfl, fun unnamed => by simp [SpaceBlob.more] at unnamed⟩
    · exact ⟨rfl, rfl, rfl, id⟩

theorem recounts_foldl {step : BlobTables → String → BlobTables} (one : ∀ t h, Recounts t (step t h))
    (hashes : List String) (t : BlobTables) : Recounts t (hashes.foldl step t) := by
  induction hashes generalizing t with
  | nil => exact Recounts.refl t
  | cons h rest ih => exact (one t h).trans (ih (step t h))

theorem recounts_setKeyRefs (t : BlobTables) (space key : String) (new : List String) (now : Int) :
    Recounts t (t.setKeyRefs space key new now) :=
  (recounts_foldl (fun _ _ => recounts_down) _ t).trans (recounts_foldl (fun _ _ => recounts_up) _ _)

/-! ### Copies that come back -/

/-- The bytes a write takes back: the copies a deleted space left of the hashes it
    names and does not hold. -/
def regained (t : BlobTables) (space : String) (hashes : List String) : Int :=
  (hashes.map fun h =>
    if (t.held.get (space, h)).isSome then 0 else ((t.copyOf space h).map (·.size)).getD 0).sum

theorem nodup_held (t : BlobTables) : t.held.rows.Nodup := List.Nodup.of_map SpaceBlob.key t.held.distinct

/-- A reclaim charges the space, and no other data space, for its copy. -/
theorem reclaim_charged (data : (⟨space⟩ : Space).isData = true) (back : t.reclaim space hash = some t') : ∃ b, t.copyOf space hash = some b ∧
    t'.charged space = t.charged space + b.size ∧
    ∀ other : Space, other.isData = true → other.name ≠ space → t'.charged other.name = t.charged other.name := by
  obtain ⟨b, found, -, rows⟩ := reclaim_spec back
  obtain ⟨member, rfl, tomb⟩ := copyOf_spec found
  have not_data := isData_of_tombstoneOf tomb
  have changed : t'.held.rows = t.held.rows.map fun row => if row = b then { b with space } else row := by
    rw [rows]
    refine List.map_congr_left fun row there => ?_
    by_cases same : row = b
    · rw [if_pos (congrArg SpaceBlob.key same), if_pos same, same]
    · rw [if_neg fun keys => same (t.held.eq_of_key there member keys), if_neg same]
  have elsewhere : ∀ name : String, (⟨name⟩ : Space).isData = true → b.space ≠ name := by
    rintro name data rfl
    rw [not_data] at data
    cases data
  refine ⟨b, found, ?_, fun other other_data apart => ?_⟩
  · have total := sizeSum_change (p := (·.space = space)) { b with space } t.nodup_held member
    simp only [elsewhere space data, decide_false, decide_true, Bool.false_eq_true, if_false, if_true] at total
    rw [charged_eq, charged_eq, changed]
    omega
  · have total := sizeSum_change (p := (·.space = other.name)) { b with space } t.nodup_held member
    simp only [elsewhere other.name other_data, Ne.symm apart, decide_false, Bool.false_eq_true, if_false] at total
    rw [charged_eq, charged_eq, changed]
    omega

theorem reclaim_pends (pends : t.Pends caps) (back : t.reclaim space hash = some t') : t'.Pends caps := by
  obtain ⟨b, -, -, rows⟩ := reclaim_spec back
  refine pends.of_rows (c := fun _ => true) (f := fun row => if row.key = b.key then { row with space } else row)
    (by rw [rows, List.filter_true]) (fun row => ?_) (fun row => ?_) fun row => ?_
  · split <;> rfl
  · split <;> rfl
  · split <;> exact id

theorem reclaim_other (back : t.reclaim space hash = some t') (other : String) (apart : other ≠ hash) :
    (t'.held.get (space, other)).isSome = (t.held.get (space, other)).isSome ∧
      t'.copyOf space other = t.copyOf space other := by
  obtain ⟨b, found, -, rows⟩ := reclaim_spec back
  obtain ⟨member, rfl, -⟩ := copyOf_spec found
  constructor
  · rw [Bool.eq_iff_iff, Option.isSome_iff_exists, Option.isSome_iff_exists]
    simp only [KeyedTable.get_eq_some, mem_reclaim member rows]
    constructor
    · rintro ⟨row, rfl | ⟨there, -⟩, own⟩
      · exact absurd (Prod.mk.inj own).2.symm apart
      · exact ⟨row, there, own⟩
    · rintro ⟨row, there, own⟩
      refine ⟨row, .inr ⟨there, ?_⟩, own⟩
      rintro rfl
      exact apart (Prod.mk.inj own).2.symm
  · have hashes : ((fun row : SpaceBlob => decide (row.hash = other)) ∘ fun row =>
        if row.key = b.key then { row with space } else row) = fun row => decide (row.hash = other) := by
      funext row
      simp only [Function.comp_apply]
      split <;> rfl
    have same : (t.held.rows.filter fun row => row.hash = other).map
        (fun row => if row.key = b.key then { row with space } else row) =
          t.held.rows.filter fun row => row.hash = other := by
      refine (List.map_congr_left fun row there => if_neg fun keys => apart ?_).trans (List.map_id _)
      rw [← of_decide_eq_true (List.mem_filter.mp there).2]
      exact (Prod.mk.inj keys).2
    rw [copyOf, copyOf, rows, List.filter_map, hashes, same]

theorem missingOf_quota (pends : t.Pends caps) (data : (⟨space⟩ : Space).isData = true) {hashes : List String}
    (once : hashes.Nodup) :
    (missingOf space t hashes).1.Pends caps ∧
    (∀ other : Space, other.isData = true → other.name ≠ space →
      (missingOf space t hashes).1.charged other.name = t.charged other.name) ∧
    ((missingOf space t hashes).2 = [] →
      (missingOf space t hashes).1.charged space = t.charged space + t.regained space hashes) := by
  induction hashes generalizing t with
  | nil => exact ⟨pends, fun _ _ _ => rfl, fun _ => (add_zero _).symm⟩
  | cons h rest ih =>
      rw [List.nodup_cons] at once
      have step : t.regained space (h :: rest) =
          (if (t.held.get (space, h)).isSome then 0 else ((t.copyOf space h).map (·.size)).getD 0) +
            t.regained space rest := by
        rw [regained, regained, List.map_cons, List.sum_cons]
      rw [missingOf]
      split
      next there =>
        obtain ⟨pends', others, all⟩ := ih pends once.2
        rw [if_pos there] at step
        exact ⟨pends', others, fun none_missing => by rw [all none_missing]; omega⟩
      next absent =>
        rw [if_neg absent] at step
        split
        next mid back =>
          obtain ⟨b, found, charged, others⟩ := reclaim_charged data back
          obtain ⟨pends', others', all⟩ := ih (reclaim_pends pends back) once.2
          refine ⟨pends', fun other data apart => (others' other data apart).trans (others other data apart),
            fun none_missing => ?_⟩
          have same : mid.regained space rest = t.regained space rest := by
            rw [regained, regained]
            refine congrArg List.sum (List.map_congr_left fun h' later => ?_)
            obtain ⟨held, copy⟩ := reclaim_other back h' fun same => once.1 (same ▸ later)
            rw [held, copy]
          rw [found] at step
          simp only [Option.map_some, Option.getD_some] at step
          rw [all none_missing, charged, same]
          omega
        next missing =>
          obtain ⟨pends', others, -⟩ := ih pends once.2
          exact ⟨pends', others, fun none_missing => by cases none_missing⟩

theorem checkHeld_quota (pends : t.Pends caps) (data : (⟨space⟩ : Space).isData = true) {hashes : List String}
    (once : hashes.Nodup) (checked : t.checkHeld space hashes = .ok t') : t'.Pends caps ∧
      (∀ other : Space, other.isData = true → other.name ≠ space → t'.charged other.name = t.charged other.name) ∧
      t'.charged space = t.charged space + t.regained space hashes := by
  obtain ⟨pends', others, all⟩ := missingOf_quota pends data once
  simp only [checkHeld] at checked
  split at checked
  · rename_i mid none_missing
    cases checked
    rw [none_missing] at pends' others all
    exact ⟨pends', others, all rfl⟩
  · cases checked

/-! ### Deletes and moves -/

theorem dropSpace_quota (pends : t.Pends caps) {rand : String}
    (dropped : t.tombstoneSpace space now rand = .ok t') : (t'.deleteSpace space).Pends caps ∧
      ∀ other : Space, other.isData = true → (t'.deleteSpace space).charged other.name ≤ t.charged other.name := by
  obtain ⟨-, tomb, not_data, rows⟩ := tombstoneSpace_spec dropped
  have left : (t'.deleteSpace space).held.rows =
      (t.held.rows.filter fun row => (if row.space = space then letGoAs tomb now row else row).space ≠ space).map
        fun row => if row.space = space then letGoAs tomb now row else row := by
    have filtered : (t'.deleteSpace space).held.rows = t'.held.rows.filter fun row => row.space ≠ space := by
      simp [deleteSpace, KeyedTable.deleteWhere]
    rw [filtered, rows, List.filter_map]
    rfl
  refine ⟨pends.of_rows left (fun row => ?_) (fun row => ?_) fun row => ?_, fun other data => ?_⟩
  · split <;> rfl
  · split <;> rfl
  · split
    · exact fun unnamed => by simp [letGoAs] at unnamed
    · exact id
  · rw [charged_eq, charged_eq, left]
    refine sizeSum_le (fun row => ?_) pends.sizes fun row _ _ selected => ?_
    · split <;> rfl
    · split at selected
      next own =>
        have here : tomb = other.name := of_decide_eq_true selected
        rw [here, data] at not_data
        cases not_data
      next apart => exact selected

theorem moveSpace_quota (pends : t.Pends caps) {source target : Space}
    (moved : t.moveSpace source.name target.name = .ok t') : t'.Pends caps ∧
      ∀ other : Space, t'.charged other.name ≤
        ((movedFrom source target other).map fun origin => t.charged origin.name).getD 0 := by
  have rows := (moveSpace_spec moved).2
  refine ⟨pends.of_rows rows (fun row => ?_) (fun row => ?_) fun row => ?_, fun other => ?_⟩
  · split <;> rfl
  · split <;> rfl
  · split <;> exact id
  · have place : ∀ row : SpaceBlob, (⟨row.space⟩ : Space) ≠ target →
        (if (⟨row.space⟩ : Space) = source then { row with space := target.name } else row).space = other.name →
          movedFrom source target other = some ⟨row.space⟩ := by
      intro row apart here
      refine movedFrom_eq_some.mpr ⟨apart, ?_⟩
      split at here
      next own => rw [if_pos own, ← space_eq_iff.mpr here]
      next other_space => rw [if_neg other_space, ← space_eq_iff.mpr here]
    have size : ∀ row : SpaceBlob,
        (if (⟨row.space⟩ : Space) = source then { row with space := target.name } else row).size = row.size := by
      intro row
      split <;> rfl
    rw [charged_eq, rows]
    cases from_origin : movedFrom source target other with
    | none =>
        have none_left := sizeSum_le (p := (·.space = other.name)) (q := fun _ => false) size pends.sizes
          fun row _ apart here => by
            have from_row := place row (of_decide_eq_true apart) (of_decide_eq_true here)
            rw [from_origin] at from_row
            cases from_row
        simpa [sizeSum] using none_left
    | some origin =>
        refine sizeSum_le size pends.sizes fun row _ apart here => ?_
        have from_row := place row (of_decide_eq_true apart) (of_decide_eq_true here)
        rw [from_origin] at from_row
        exact decide_eq_true (congrArg Space.name (Option.some.inj from_row)).symm

end Tables

end BlobTables

/-! ## Writes, deletes and moves of the store -/

section Store

variable {caps : BlobCaps} {s s' : Store} {space : Space} {rev now : Int} {who : String} {restoreId : Option String}

theorem landAll_recounts {planned : List Planned} (ok : landAll space rev now who restoreId planned s = .ok s') :
    BlobTables.Recounts s.blobs s'.blobs := by
  induction planned generalizing s with
  | nil =>
      cases ok
      exact BlobTables.Recounts.refl _
  | cons p rest ih =>
      simp only [landAll, bind_eq_ok] at ok
      obtain ⟨between, here, later⟩ := ok
      refine BlobTables.Recounts.trans ?_ (ih later)
      rcases land_blobs here with ⟨-, rfl⟩ | ⟨-, blobs⟩
      · exact BlobTables.Recounts.refl _
      · rw [blobs]
        split
        · exact BlobTables.recounts_setKeyRefs ..
        · exact BlobTables.Recounts.refl _

/-- A write that lands charges its space for what it takes back, and no other. -/
theorem landWrite_quota (pends : s.blobs.Pends caps) {moment : Moment} {mark : Option RestoreMark}
    {planned : List Planned} {bytes keys : Int}
    (landed : s.landWrite moment space planned who mark rev bytes keys = .ok s') : s'.blobs.Pends caps ∧
      ∀ other : Space, other.isData = true → s'.blobs.charged other.name = s.blobs.charged other.name +
        if other = space then s.blobs.regained space.name (namedRefs planned) else 0 := by
  simp only [Store.landWrite] at landed
  split at landed
  · cases landed
  · split at landed
    · cases landed
    · simp only [bind_eq_ok] at landed
      obtain ⟨blobs, checked, mid, all, restored, recorded, same⟩ := landed
      cases same
      have recounts := landAll_recounts all
      obtain ⟨blobs_eq, -⟩ := recordRestore_blobs recorded
      have held : restored.blobs.held = mid.blobs.held := by rw [blobs_eq, seenBlobs_held]
      have checked_quota : blobs.Pends caps ∧ ∀ other : Space, other.isData = true → blobs.charged other.name =
          s.blobs.charged other.name +
            if other = space then s.blobs.regained space.name (namedRefs planned) else 0 := by
        simp only [Store.heldBlobs] at checked
        split at checked
        · rename_i data
          obtain ⟨pends', others, own⟩ := BlobTables.checkHeld_quota pends data (nodup_sortedSet _) checked
          refine ⟨pends', fun other other_data => ?_⟩
          split
          next here =>
            rw [here, own]
            rfl
          next apart =>
            rw [others other other_data fun same => apart (congrArg Space.mk same), add_zero]
        · rename_i save
          cases checked
          refine ⟨pends, fun other data => ?_⟩
          rw [if_neg, add_zero]
          rintro rfl
          exact save data
      obtain ⟨pends', charged⟩ := checked_quota
      have pends'' := recounts.pends pends'
      refine ⟨⟨?_, ?_⟩, fun other data => ?_⟩
      · simp only [held]
        exact pends''.sizes
      · simp only [BlobTables.pendingOf_eq, held]
        exact pends''.pending
      · simp only [BlobTables.charged_eq, held]
        exact (recounts.charged other.name).trans (charged other data)

end Store

/-! ## Drops -/

namespace BlobStore

section Drops

variable {caps : BlobCaps} {s s' s'' : BlobStore} {fs : FileSystem}

/-- Rows and files were dropped, and nothing else. -/
structure Lowers (s s' : BlobStore) : Prop where
  held : ∃ c, s'.held.rows = s.held.rows.filter c
  files : ∃ c, s'.files.rows = s.files.rows.filter c

theorem Lowers.refl (s : BlobStore) : Lowers s s :=
  ⟨⟨fun _ => true, (List.filter_true _).symm⟩, fun _ => true, (List.filter_true _).symm⟩

theorem Lowers.trans (first : Lowers s s') (second : Lowers s' s'') : Lowers s s'' := by
  obtain ⟨⟨c, held⟩, d, files⟩ := first
  obtain ⟨⟨c', held'⟩, d', files'⟩ := second
  exact ⟨⟨_, by rw [held', held, List.filter_filter]⟩, _, by rw [files', files, List.filter_filter]⟩

/-- What the caps bound: the uploads no key names, and the files. -/
structure Capped (caps : BlobCaps) (s : BlobStore) : Prop where
  pends : s.data.blobs.Pends caps
  sizes : ∀ f ∈ s.files.rows, 0 ≤ f.size
  store : s.totalBytes ≤ caps.store

theorem Lowers.pending (lowers : Lowers s s') (sizes : ∀ row ∈ s.held.rows, 0 ≤ row.size) (who : String) :
    s'.data.blobs.pendingOf who ≤ s.data.blobs.pendingOf who := by
  obtain ⟨c, rows⟩ := lowers.held
  have le := sizeSum_le (p := fun row => row.addedBy = who && row.firstRefAt.isNone) (c := c) (f := id)
    (fun _ => rfl) sizes fun _ _ _ => id
  rw [List.map_id, ← rows] at le
  exact le

theorem Lowers.charged (lowers : Lowers s s') (sizes : ∀ row ∈ s.held.rows, 0 ≤ row.size) (space : String) :
    s'.data.blobs.charged space ≤ s.data.blobs.charged space := by
  obtain ⟨c, rows⟩ := lowers.held
  have le := sizeSum_le (p := (·.space = space)) (c := c) (f := id) (fun _ => rfl) sizes fun _ _ _ => id
  rw [List.map_id, ← rows] at le
  exact le

theorem sum_sizes_filter {files : List BlobFile} (sizes : ∀ f ∈ files, 0 ≤ f.size) (c : BlobFile → Bool) :
    ((files.filter c).map (·.size)).sum ≤ (files.map (·.size)).sum := by
  induction files with
  | nil => exact le_rfl
  | cons f rest ih =>
      rw [List.forall_mem_cons] at sizes
      have later := ih sizes.2
      have size := sizes.1
      rw [List.filter_cons, List.map_cons, List.sum_cons]
      split
      · rw [List.map_cons, List.sum_cons]
        omega
      · omega

theorem Lowers.total (lowers : Lowers s s') (sizes : ∀ f ∈ s.files.rows, 0 ≤ f.size) :
    s'.totalBytes ≤ s.totalBytes := by
  obtain ⟨c, rows⟩ := lowers.files
  rw [totalBytes, totalBytes, rows]
  exact sum_sizes_filter sizes c

theorem Lowers.capped (lowers : Lowers s s') (capped : Capped caps s) : Capped caps s' where
  pends := by
    obtain ⟨c, rows⟩ := lowers.held
    refine ⟨fun row member => ?_, fun who => (lowers.pending capped.pends.sizes who).trans (capped.pends.pending who)⟩
    have member : row ∈ s'.held.rows := member
    rw [rows] at member
    exact capped.pends.sizes row (List.mem_filter.mp member).1
  sizes := by
    obtain ⟨c, rows⟩ := lowers.files
    rw [rows]
    exact fun f member => capped.sizes f (List.mem_filter.mp member).1
  store := (lowers.total capped.sizes).trans capped.store

theorem Lowers.within (lowers : Lowers s s') (capped : Capped caps s) (within : s.data.blobs.Within caps) :
    s'.data.blobs.Within caps :=
  fun space data => (lowers.charged capped.pends.sizes space.name).trans (within space data)

theorem lowers_removeFile (s : BlobStore) (fs : FileSystem) (hash : String) : Lowers s (s.removeFile fs hash).1 := by
  obtain ⟨data, files, -⟩ := removeFile_spec s fs hash
  refine ⟨⟨fun _ => true, ?_⟩, fun _ => true, ?_⟩
  · rw [held, data, List.filter_true]
    rfl
  · rw [files, List.filter_true]

theorem lowers_dropRow (s : BlobStore) (fs : FileSystem) (space hash : String) :
    Lowers s (s.dropRow fs space hash).1 := by
  have row : Lowers s (s.withoutRow space hash) := ⟨⟨_, rfl⟩, fun _ => true, (List.filter_true _).symm⟩
  have file : Lowers (s.withoutRow space hash) ((s.withoutRow space hash).withoutFile hash) :=
    ⟨⟨fun _ => true, (List.filter_true _).symm⟩, _, rfl⟩
  rcases dropRow_cases s fs space hash with same | ⟨-, same | same⟩
  · exact same ▸ row
  · exact same ▸ row.trans file
  · exact same ▸ (row.trans file).trans (lowers_removeFile ..)

theorem lowers_dropUntil (freed : SpaceBlob → Int → Int) (need : Int) (rows : List SpaceBlob) (sum : Int)
    (s : BlobStore) : Lowers s (dropUntil fs freed need rows sum s).1 := by
  induction rows generalizing s sum with
  | nil => exact Lowers.refl s
  | cons row rest ih =>
      rw [dropUntil]
      split
      · exact Lowers.refl s
      · have one := lowers_dropRow s fs row.space row.hash
        generalize s.dropRow fs row.space row.hash = answer at one ⊢
        obtain ⟨s', e | bytes⟩ := answer
        · exact one
        · exact one.trans (ih (sum + freed row bytes) s')

theorem charged_dropRow (fs : FileSystem) {row : SpaceBlob} (member : row ∈ s.held.rows) :
    (s.dropRow fs row.space row.hash).1.data.blobs.charged row.space + row.size =
      s.data.blobs.charged row.space ∧
    ∀ other ∈ s.held.rows, other ≠ row → other ∈ (s.dropRow fs row.space row.hash).1.held.rows := by
  have data : (s.dropRow fs row.space row.hash).1.data = (s.withoutRow row.space row.hash).data := by
    rcases dropRow_cases s fs row.space row.hash with same | ⟨-, same | same⟩
    · rw [same]
    · rw [same]
      rfl
    · rw [same, (removeFile_spec ..).1]
      rfl
  have rows : (s.withoutRow row.space row.hash).held.rows = s.held.rows.filter (· ≠ row) := by
    have filtered : (s.withoutRow row.space row.hash).held.rows =
        s.held.rows.filter fun other => !decide (other.key = (row.space, row.hash)) := rfl
    rw [filtered]
    refine List.filter_congr fun other there => ?_
    by_cases same : other = row
    · subst same
      simp [SpaceBlob.key]
    · have apart : other.key ≠ (row.space, row.hash) := fun keys => same (s.held.eq_of_key there member keys)
      simp [same, apart]
  constructor
  · have total := sizeSum_without (p := (·.space = row.space)) s.data.blobs.nodup_held member (decide_eq_true rfl)
    have left : (s.withoutRow row.space row.hash).data.blobs.held.rows = s.data.blobs.held.rows.filter (· ≠ row) := rows
    rw [data, BlobTables.charged_eq, BlobTables.charged_eq, left, total]
  · intro other there apart
    rw [held, data]
    change other ∈ (s.withoutRow row.space row.hash).held.rows
    rw [rows]
    exact List.mem_filter.mpr ⟨there, decide_eq_true apart⟩

theorem charged_dropUntil {space : String} {need : Int} {rows : List SpaceBlob} (once : rows.Nodup)
    (own : ∀ row ∈ rows, row ∈ s.held.rows ∧ row.space = space) (sum freed : Int)
    (done : (dropUntil fs (fun row _ => row.size) need rows sum s).2 = .ok freed) :
    (dropUntil fs (fun row _ => row.size) need rows sum s).1.data.blobs.charged space + freed =
      s.data.blobs.charged space + sum := by
  induction rows generalizing s sum with
  | nil =>
      cases done
      rfl
  | cons row rest ih =>
      rw [List.nodup_cons] at once
      rw [List.forall_mem_cons] at own
      obtain ⟨⟨member, rfl⟩, own⟩ := own
      rw [dropUntil] at done ⊢
      split at done
      next enough =>
        rw [if_pos enough]
        cases done
        rfl
      next more =>
        rw [if_neg more]
        obtain ⟨charged, stays⟩ := charged_dropRow fs member
        generalize s.dropRow fs row.space row.hash = answer at charged stays done ⊢
        obtain ⟨s', e | bytes⟩ := answer
        · cases done
        · have later := ih once.2 (fun other listed => ⟨stays other (own other listed).1 fun same =>
            once.1 (same ▸ listed), (own other listed).2⟩) (sum + row.size) done
          dsimp only at charged later ⊢
          rw [later]
          omega

end Drops

end BlobStore

end K2.GardenData
