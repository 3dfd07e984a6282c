import K2.GardenData.BlobQuotas

/-! # The caps over whole runs

Uploads and collections keep all three caps, and so do deletes and moves. A write
keeps a space's cap when what it takes back fits beside what the space holds.
-/

namespace K2.GardenData

open Store (movedFrom movedFrom_eq_some)

namespace BlobStore

/-- The caps are kept, and so is every space's quota. -/
def Keeps (caps : BlobCaps) (s s' : BlobStore) : Prop :=
  Capped caps s' ∧ (s.data.blobs.Within caps → s'.data.blobs.Within caps)

theorem Keeps.trans {caps : BlobCaps} {s s' s'' : BlobStore} (first : Keeps caps s s') (second : Keeps caps s' s'') :
    Keeps caps s s'' :=
  ⟨second.1, second.2 ∘ first.2⟩

/-! ## An upload -/

section Put

variable {caps : BlobCaps} {s s' : BlobStore} {r : BlobReader} {fs : FileSystem} {u : Upload}

theorem Lowers.keeps (lowers : Lowers s s') (capped : Capped caps s) : Keeps caps s s' :=
  ⟨lowers.capped capped, lowers.within capped⟩

/-- There is room for an upload in its space and beside its uploader's others. -/
structure HasRoom (caps : BlobCaps) (u : Upload) (s : BlobStore) : Prop where
  space : s.data.blobs.charged u.space.name + u.size ≤ caps.space
  pending : s.data.blobs.pendingOf u.who + u.size ≤ caps.pending

theorem Lowers.hasRoom (lowers : Lowers s s') (capped : Capped caps s) (room : HasRoom caps u s) : HasRoom caps u s' := by
  have charged := lowers.charged capped.pends.sizes u.space.name
  have pending := lowers.pending capped.pends.sizes u.who
  have space := room.space
  have others := room.pending
  exact ⟨by omega, by omega⟩

theorem sizeSum_upload {p : SpaceBlob → Bool} (new : s.held.get (u.space.name, u.hash r) = none) :
    sizeSum p (s.withUpload r u).held.rows = sizeSum p s.held.rows + if p (u.row r) then u.size else 0 := by
  have rows : (s.withUpload r u).held.rows = s.held.rows ++ [u.row r] :=
    KeyedTable.rows_upsert_of_get (r := u.row r) new
  have none_left : sizeSum p [] = 0 := rfl
  rw [rows, sizeSum_append, sizeSum_cons, none_left, add_zero]
  rfl

theorem keeps_withUpload (capped : Capped caps s) (room : HasRoom caps u s)
    (store : s.files.get (u.hash r) = none → s.totalBytes + u.size ≤ caps.store)
    (new : s.held.get (u.space.name, u.hash r) = none) : Keeps caps s (s.withUpload r u) := by
  have size : 0 ≤ u.size := Int.natCast_nonneg _
  refine ⟨⟨⟨fun row member => ?_, fun who => ?_⟩, fun f member => ?_, ?_⟩, fun within space data => ?_⟩
  · have member : row ∈ (s.held.upsert (u.row r)).rows := member
    rcases (KeyedTable.mem_upsert _ _ _).mp member with rfl | ⟨old, -⟩
    · exact size
    · exact capped.pends.sizes row old
  · have total := sizeSum_upload (p := fun row => row.addedBy = who && row.firstRefAt.isNone) new
    have others := capped.pends.pending who
    rw [BlobTables.pendingOf_eq] at others ⊢
    refine total.trans_le ?_
    split
    next own =>
      have same : u.who = who := of_decide_eq_true (Bool.and_eq_true _ _ |>.mp own).1
      rw [← same]
      exact room.pending
    next apart =>
      rw [add_zero]
      exact others
  · simp only [withUpload] at member
    split at member
    next known => exact capped.sizes f member
    next unknown =>
      rcases (KeyedTable.mem_upsert _ _ _).mp member with rfl | ⟨old, -⟩
      · exact size
      · exact capped.sizes f old
  · simp only [totalBytes, withUpload]
    split
    next known => exact capped.store
    next unknown =>
      have absent : s.files.get (u.hash r) = none := by simpa using unknown
      have rows : (s.files.upsert (u.file r)).rows = s.files.rows ++ [u.file r] :=
        KeyedTable.rows_upsert_of_get (r := u.file r) absent
      rw [rows, List.map_append, List.sum_append, List.map_cons, List.map_nil, List.sum_singleton]
      exact store absent
  · have total := sizeSum_upload (p := (·.space = space.name)) new
    have others := within space data
    rw [BlobTables.charged_eq] at others ⊢
    refine total.trans_le ?_
    split
    next own =>
      have same : u.space.name = space.name := of_decide_eq_true own
      rw [← same]
      exact room.space
    next apart =>
      rw [add_zero]
      exact others

theorem keeps_insertBlob (capped : Capped caps s) (room : HasRoom caps u s)
    (store : s.files.get (u.hash r) = none → s.totalBytes + u.size ≤ caps.store) :
    Keeps caps s (s.insertBlob r fs u).1 := by
  rcases insertBlob_cases s r fs u with same | ⟨s', wrote, outcome⟩
  · rw [same]
    exact (Lowers.refl s).keeps capped
  · obtain ⟨data, files, -⟩ := writeFile_spec wrote
    have lowers : Lowers s s' := by
      refine ⟨⟨fun _ => true, ?_⟩, fun _ => true, ?_⟩
      · rw [held, data, List.filter_true]
        rfl
      · rw [files, List.filter_true]
    rcases outcome with same | ⟨new, same⟩
    · rw [same]
      exact lowers.keeps capped
    · rw [same]
      refine (lowers.keeps capped).trans
        (keeps_withUpload (lowers.capped capped) (lowers.hasRoom capped room) (fun absent => ?_) new)
      rw [files] at absent
      have total := lowers.total capped.sizes
      have left := store absent
      omega

theorem keeps_fitStore (capped : Capped caps s) (room : HasRoom caps u s) :
    Keeps caps s (s.fitStore r caps fs u).1 := by
  simp only [fitStore]
  split
  next small =>
    refine keeps_insertBlob capped room fun absent => ?_
    rw [absent] at small
    simp only [Option.isSome_none, Bool.false_or, decide_eq_true_eq] at small
    omega
  next full =>
    have lowers : Lowers s (s.gcPressure fs u.space.name (s.totalBytes + u.size - caps.store)).1 :=
      lowers_dropUntil ..
    generalize s.gcPressure fs u.space.name (s.totalBytes + u.size - caps.store) = answer at lowers ⊢
    obtain ⟨s', e | bytes⟩ := answer
    · exact lowers.keeps capped
    · dsimp only at lowers ⊢
      split
      next still => exact lowers.keeps capped
      next freed =>
        refine (lowers.keeps capped).trans
          (keeps_insertBlob (lowers.capped capped) (lowers.hasRoom capped room) fun _ => ?_)
        omega

theorem charged_freeOwnLetGo (s : BlobStore) (fs : FileSystem) (space : String) (need : Int) :
    ∀ freed, (s.freeOwnLetGo fs space need).2 = .ok freed →
      (s.freeOwnLetGo fs space need).1.data.blobs.charged space + freed = s.data.blobs.charged space := by
  intro freed done
  have once : ((s.held.rows.filter fun row => row.space = space && letGo row).insertionSort
      fun a b => older a b).Nodup :=
    (List.perm_insertionSort _ _).nodup_iff.mpr (s.data.blobs.nodup_held.filter _)
  refine (charged_dropUntil once (fun row listed => ?_) 0 freed done).trans (add_zero _)
  rw [(List.perm_insertionSort _ _).mem_iff, List.mem_filter, Bool.and_eq_true, decide_eq_true_eq] at listed
  exact ⟨listed.1, listed.2.1⟩

theorem keeps_fitSpace (capped : Capped caps s) (pending : s.data.blobs.pendingOf u.who + u.size ≤ caps.pending) :
    Keeps caps s (s.fitSpace r caps fs u).1 := by
  simp only [fitSpace]
  split
  next room => exact keeps_fitStore capped ⟨by omega, pending⟩
  next full =>
    have lowers : Lowers s
        (s.freeOwnLetGo fs u.space.name (s.data.blobs.charged u.space.name + u.size - caps.space)).1 :=
      lowers_dropUntil ..
    have charged := charged_freeOwnLetGo s fs u.space.name
      (s.data.blobs.charged u.space.name + u.size - caps.space)
    generalize s.freeOwnLetGo fs u.space.name (s.data.blobs.charged u.space.name + u.size - caps.space) = answer
      at lowers charged ⊢
    obtain ⟨s', e | freed⟩ := answer
    · exact lowers.keeps capped
    · have charged := charged freed rfl
      dsimp only at lowers charged ⊢
      split
      next short => exact lowers.keeps capped
      next enough =>
        have unnamed := lowers.pending capped.pends.sizes u.who
        exact (lowers.keeps capped).trans
          (keeps_fitStore (lowers.capped capped) ⟨by omega, by omega⟩)

theorem keeps_blobPut (capped : Capped caps s) : Keeps caps s (s.blobPut r caps fs u).1 := by
  have still : Keeps caps s s := (Lowers.refl s).keeps capped
  simp only [blobPut]
  split
  · exact still
  · split
    · exact still
    · split
      · exact still
      · exact still
      · split
        next full => exact still
        next room => exact keeps_fitSpace capped (by omega)

end Put

/-! ## Every step -/

section Steps

variable {b : Backend} {r : BlobReader} {caps : BlobCaps} {s s' : BlobStore}

theorem lowers_blobGc (stored : Stored s) (fs : FileSystem) (now : Int) : Lowers s (s.blobGc fs now).1 := by
  obtain ⟨-, data, files⟩ := blobGc_spec stored fs now
  refine ⟨⟨fun row => !stale now row, ?_⟩, _, congrArg KeyedTable.rows files⟩
  rw [held, data]
  rfl

theorem Capped.tables (capped : Capped caps s) {data : Store} (pends : data.blobs.Pends caps) :
    Capped caps { s with data } :=
  ⟨pends, capped.sizes, capped.store⟩

theorem keeps_dropSpace (capped : Capped caps s) (space : Space) (now : Int) (rand : String) :
    Keeps caps s { s with data := (s.data.dropSpace space now rand).1 } := by
  simp only [Store.dropSpace]
  cases dropped : s.data.blobs.tombstoneSpace space.name now rand with
  | error e => exact (Lowers.refl s).keeps capped
  | ok blobs =>
      obtain ⟨pends, charged⟩ := BlobTables.dropSpace_quota capped.pends dropped
      exact ⟨capped.tables ⟨pends.sizes, pends.pending⟩,
        fun within other data => (charged other data).trans (within other data)⟩

theorem keeps_moveSpace (capped : Capped caps s) (source target : Space) :
    Keeps caps s { s with data := (s.data.moveSpace source target).1 } := by
  have still : Keeps caps s s := (Lowers.refl s).keeps capped
  simp only [Store.moveSpace]
  split
  · exact still
  · rename_i kind
    split
    · exact still
    · split
      · exact still
      · cases moved : s.data.moveRows source target with
        | error e => exact still
        | ok after =>
            obtain ⟨-, blobs, moved_blobs, same⟩ := moveRows_spec moved
            obtain ⟨pends, charged⟩ := BlobTables.moveSpace_quota capped.pends moved_blobs
            have rows : after.blobs.held = blobs.held := by rw [same, (moveAuxRev_tables ..).2]
            have moved_pends : after.blobs.Pends caps := by
              refine ⟨rows ▸ pends.sizes, ?_⟩
              simp only [BlobTables.pendingOf_eq, rows]
              exact pends.pending
            refine ⟨capped.tables moved_pends, fun within other data => ?_⟩
            have from_origin := charged other
            rw [BlobTables.charged_eq, ← rows, ← BlobTables.charged_eq] at from_origin
            refine from_origin.trans ?_
            cases place : movedFrom source target other with
            | none => exact Int.natCast_nonneg _
            | some origin =>
                -- the rows that arrive come from a space of the same kind
                refine within origin ?_
                obtain ⟨-, placed⟩ := movedFrom_eq_some.mp place
                split at placed
                next own => rw [own, not_not.mp kind, placed, data]
                next apart => rw [placed, data]

/-- What a write takes back fits in its space's quota. -/
def Fits (b : Backend) (caps : BlobCaps) (s : BlobStore) : Step → Prop
  | .write moment space ops _ indexed _ => space.isData = true →
      ∀ planned ∈ (s.data.planWrite b moment space ops indexed).toOption,
        s.data.blobs.charged space.name + s.data.blobs.regained space.name (namedRefs planned) ≤ caps.space
  | _ => True

instance (step : Step) : Decidable (Fits b caps s step) :=
  match step with
  | .write .. => inferInstanceAs (Decidable (_ = true → ∀ planned ∈ Except.toOption _, _ ≤ _))
  | .dropSpace .. | .moveSpace .. | .reap .. | .put .. | .gc .. => .isTrue trivial

theorem keeps_write (capped : Capped caps s) {moment : Moment} {space : Space} {ops : List Op} {who : String}
    {indexed : Bool} {mark : Option RestoreMark} :
    Capped caps (s.next b r caps (.write moment space ops who indexed mark)) ∧
      (Fits b caps s (.write moment space ops who indexed mark) → s.data.blobs.Within caps →
        (s.next b r caps (.write moment space ops who indexed mark)).data.blobs.Within caps) := by
  rcases writeWith_lands b s.data moment space ops who indexed mark with ⟨same, -⟩ | ⟨planned, rev, bytes, keys, plan, landed⟩
  · rw [next, same]
    exact ⟨capped, fun _ => id⟩
  · obtain ⟨pends, charged⟩ := landWrite_quota capped.pends landed
    refine ⟨capped.tables pends, fun fits within other data => (charged other data).trans_le ?_⟩
    split
    next own =>
      rw [own]
      exact fits (own ▸ data) planned (by rw [plan]; rfl)
    next apart =>
      rw [add_zero]
      exact within other data

/-- Every step keeps the caps, and one that fits keeps the quotas. -/
theorem keeps_next (stored : Stored s) (capped : Capped caps s) (step : Step) :
    Capped caps (s.next b r caps step) ∧
      (Fits b caps s step → s.data.blobs.Within caps → (s.next b r caps step).data.blobs.Within caps) := by
  cases step with
  | write moment space ops who indexed mark => exact keeps_write capped
  | dropSpace space now rand => exact (keeps_dropSpace capped space now rand).imp_right fun within _ => within
  | moveSpace source target => exact (keeps_moveSpace capped source target).imp_right fun within _ => within
  | reap now => exact ⟨capped.tables ⟨capped.pends.sizes, capped.pends.pending⟩, fun _ => id⟩
  | put fs upload => exact (keeps_blobPut capped).imp_right fun within _ => within
  | gc fs now => exact ((lowers_blobGc stored fs now).keeps capped).imp_right fun within _ => within

/-- Every write of a run fits where it is made. -/
def AllFit (b : Backend) (r : BlobReader) (caps : BlobCaps) : BlobStore → List Step → Prop
  | _, [] => True
  | s, step :: rest => Fits b caps s step ∧ AllFit b r caps (s.next b r caps step) rest

instance decidableAllFit (b : Backend) (r : BlobReader) (caps : BlobCaps) :
    (s : BlobStore) → (steps : List Step) → Decidable (AllFit b r caps s steps)
  | _, [] => .isTrue trivial
  | s, step :: rest =>
      have := decidableAllFit b r caps (s.next b r caps step) rest
      inferInstanceAs (Decidable (_ ∧ _))

theorem capped_empty (caps : BlobCaps) : Capped caps empty :=
  ⟨⟨nofun, fun _ => Int.natCast_nonneg _⟩, nofun, Int.natCast_nonneg _⟩

theorem within_empty (caps : BlobCaps) : empty.data.blobs.Within caps := fun _ _ => Int.natCast_nonneg _

theorem capped_run (stored : Stored s) (capped : Capped caps s) (steps : List Step) :
    Capped caps (steps.foldl (next b r caps) s) ∧ (AllFit b r caps s steps → s.data.blobs.Within caps →
      (steps.foldl (next b r caps) s).data.blobs.Within caps) := by
  induction steps generalizing s with
  | nil => exact ⟨capped, fun _ => id⟩
  | cons step rest ih =>
      obtain ⟨capped', within⟩ := keeps_next (b := b) (r := r) stored capped step
      obtain ⟨later, within'⟩ := ih (stored.next step) capped'
      exact ⟨later, fun fits start => within' fits.2 (within fits.1 start)⟩

end Steps

theorem fits_of_within (capped : Capped caps s) {moment : Moment} {space : Space} {ops : List Op} {who : String}
    {indexed : Bool} {mark : Option RestoreMark} {rev : Int}
    (landed : (s.data.writeWith b moment space ops who indexed mark).2 = .ok (rev, true))
    (within : (s.next b r caps (.write moment space ops who indexed mark)).data.blobs.Within caps) :
    Fits b caps s (.write moment space ops who indexed mark) := by
  intro data planned there
  rcases writeWith_lands b s.data moment space ops who indexed mark with ⟨-, refused⟩ | ⟨_, rev', bytes, keys, plan, ok⟩
  · exact absurd landed (refused rev)
  · rw [plan] at there
    cases there
    have charged := (landWrite_quota capped.pends ok).2 space data
    rw [if_pos rfl] at charged
    exact charged ▸ within space data

end BlobStore

/-- In every run of uploads, writes, space deletes and moves, and collections, no
    uploader's never named files pass the pending cap and the folder never passes
    the store's. Every data space stays within its own when each write of the run
    fits: what the write takes back of a deleted space goes in beside what its space
    holds. A write that lands where all spaces are within theirs leaves them so only
    if it fits. -/
theorem caps_kept (b : Backend) (r : BlobReader) (caps : BlobCaps) (steps : List BlobStore.Step) :
    let s := BlobStore.after b r caps steps
    (∀ who, s.data.blobs.pendingOf who ≤ caps.pending) ∧ s.totalBytes ≤ caps.store ∧
    (BlobStore.AllFit b r caps .empty steps →
      ∀ space : Space, space.isData = true → s.data.blobs.charged space.name ≤ caps.space) ∧
    ∀ moment space ops who indexed mark rev, s.data.blobs.Within caps →
      (s.data.writeWith b moment space ops who indexed mark).2 = .ok (rev, true) →
      let step := BlobStore.Step.write moment space ops who indexed mark
      ((s.next b r caps step).data.blobs.Within caps ↔ BlobStore.Fits b caps s step) := by
  intro s
  obtain ⟨capped, within⟩ := BlobStore.capped_run (b := b) (r := r) BlobStore.stored_empty
    (BlobStore.capped_empty caps) steps
  refine ⟨capped.pends.pending, capped.store, fun fits => within fits (BlobStore.within_empty caps), ?_⟩
  intro moment space ops who indexed mark rev start landed step
  constructor
  · exact BlobStore.fits_of_within capped landed
  · exact fun fits => (BlobStore.keeps_next (BlobStore.stored_after b r caps steps) capped step).2 fits start

/-! ### A space that is deleted, refilled and restored -/

namespace Refill

def caps : BlobCaps := ⟨3, 100, 100⟩

def deleted : List BlobStore.Step := Paste.steps ++ [.dropSpace ⟨"data:board"⟩ 2 "0badcafe"]

/-- The file comes back alone, or beside another of its size. -/
def restored : List BlobStore.Step := deleted ++ [Paste.name "obj/1" [[1, 2]]]

def refilled : List BlobStore.Step :=
  deleted ++ [.put Paste.fs (Paste.upload [2, 3]), Paste.name "obj/1" [[1, 2]]]

end Refill

theorem caps_kept_restored :
    let s := BlobStore.after smallBackend Paste.reader Refill.caps Refill.restored
    ∀ space : Space, space.isData = true → s.data.blobs.charged space.name ≤ 3 :=
  (caps_kept smallBackend Paste.reader Refill.caps Refill.restored).2.2.1 (by decide +kernel)

theorem refilled_space_over_its_cap :
    ¬ ∀ (caps : BlobCaps) (steps : List BlobStore.Step) (space : Space), space.isData = true →
      (BlobStore.after smallBackend Paste.reader caps steps).data.blobs.charged space.name ≤ caps.space := by
  intro kept
  have three := kept Refill.caps Refill.refilled ⟨"data:board"⟩ (by decide)
  have four : (BlobStore.after smallBackend Paste.reader Refill.caps Refill.refilled).data.blobs.charged
      "data:board" = 4 := by decide +kernel
  rw [four] at three
  exact absurd three (by decide)

end K2.GardenData
