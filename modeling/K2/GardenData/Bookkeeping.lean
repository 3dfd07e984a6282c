import K2.GardenData.Writes
import K2.Lib.Machines

/-! # A space's counters

The `spaces` row counts the live entries and their bytes from plan to plan. In
every store reached from the empty one the counters are what a scan of the
entries would find.
-/

namespace K2.GardenData

/-! ## What a scan finds -/

namespace EntryRow

/-- What an entry adds to a space's bytes: the length of its live value. -/
def bytesIn (space : Space) (e : EntryRow) : Nat :=
  if e.space = space then (e.value.map Text.byteLen).getD 0 else 0

def keysIn (space : Space) (e : EntryRow) : Nat := if e.space = space ∧ e.deleted = false then 1 else 0

end EntryRow

namespace Store

/-- The sum of the lengths of a space's live values. -/
def liveBytes (s : Store) (space : Space) : Nat := s.entries.weigh (·.bytesIn space)

/-- The number of a space's live entries. -/
def liveKeys (s : Store) (space : Space) : Nat := s.entries.weigh (·.keysIn space)

/-- The counters of every space are right and within its limits. -/
structure Kept (s : Store) : Prop where
  rev : ∀ e ∈ s.entries.rows, 1 ≤ e.rev ∧ e.rev ≤ s.headRev e.space
  size : ∀ e ∈ s.entries.rows, e.size = (e.value.map Text.byteLen).getD 0
  change : ∀ c ∈ s.changes.rows, c.rev ≤ s.headRev c.space
  nonneg : ∀ space, 0 ≤ s.headRev space
  bytes : ∀ space, s.headBytes space = s.liveBytes space
  keys : ∀ space, s.headKeys space = s.liveKeys space
  bytes_le : ∀ space, s.headBytes space ≤ (limits space).1
  keys_le : ∀ space, s.headKeys space ≤ (limits space).2

theorem kept_empty : Kept empty := by
  constructor
  · intro e member
    cases member
  · intro e member
    cases member
  · intro c member
    cases member
  · intro space
    rfl
  · intro space
    rfl
  · intro space
    rfl
  · intro space
    simp only [headBytes, empty, KeyedTable.get_empty, limits]
    split <;> decide
  · intro space
    simp only [headKeys, empty, KeyedTable.get_empty, limits]
    split <;> decide

/-! ## Writes -/

section Write

variable {s s' : Store} {moment : Moment} {space : Space} {who : String} {mark : Option RestoreMark}
  {planned : List Planned}

theorem headRev_of_get {row : SpaceRow} (found : s.spaces.get space = some row) :
    s.headRev space = row.rev := by
  simp [headRev, found]

theorem counted_space (s : Store) (space : Space) (rev bytes keys now : Int) :
    (s.counted space rev bytes keys now).space = space := by
  simp only [counted]
  split
  · rename_i row found
    have here : row.space = space := KeyedTable.key_of_get found
    exact here
  · rfl

private theorem counted_counters (s : Store) (space : Space) (rev bytes keys now : Int) :
    (s.counted space rev bytes keys now).rev = rev ∧ (s.counted space rev bytes keys now).bytes = bytes ∧
      (s.counted space rev bytes keys now).keys = keys := by
  simp only [counted]
  split <;> exact ⟨rfl, rfl, rfl⟩

theorem counted_updatedAt (s : Store) (space : Space) (rev bytes keys now : Int) :
    (s.counted space rev bytes keys now).updatedAt = now := by
  simp only [counted]
  split <;> rfl

theorem wrote_heads (wrote : Wrote moment space who mark planned s s') (other : Space) :
    s'.headRev other = (if other = space then s.headRev space + 1 else s.headRev other) ∧
    s'.headBytes other = (if other = space then s.headBytes space + (planned.map Planned.bytes).sum
      else s.headBytes other) ∧
    s'.headKeys other = (if other = space then s.headKeys space + (planned.map Planned.keys).sum
      else s.headKeys other) := by
  obtain ⟨rev, bytes, keys⟩ := counted_counters s space (s.headRev space + 1)
    (s.headBytes space + (planned.map Planned.bytes).sum)
    (s.headKeys space + (planned.map Planned.keys).sum) moment.now
  simp only [headRev, headBytes, headKeys, wrote.spaces, KeyedTable.get_upsert, counted_space]
  by_cases here : other = space
  · subst here
    simp only [if_true, Option.map_some, Option.getD_some]
    exact ⟨rev, bytes, keys⟩
  · simp only [Ne.symm here, here, if_false, and_self]

theorem wrote_spaces (wrote : Wrote moment space who mark planned s s') {other : Space}
    (apart : other ≠ space) : s'.spaces.get other = s.spaces.get other := by
  rw [wrote.spaces, KeyedTable.get_upsert, counted_space]
  exact if_neg (Ne.symm apart)

/-- The entries after a write: its own at the new rev, and those it left. -/
theorem wrote_entry (wrote : Wrote moment space who mark planned s s') {e : EntryRow}
    (member : e ∈ s'.entries.rows) :
    (∃ p ∈ planned, p.effective = true ∧
      e = p.entry space (s.headRev space + 1) moment.now who p.text) ∨ e ∈ s.entries.rows := by
  have found := KeyedTable.get_of_mem member
  by_cases own : ∃ p ∈ planned, p.effective = true ∧ (space, p.op.key) = e.pk
  · obtain ⟨p, listed, effective, same⟩ := own
    rw [← same, wrote.lands.entry p listed effective] at found
    exact .inl ⟨p, listed, effective, (Option.some.inj found).symm⟩
  · rw [wrote.lands.entry_kept _ fun p listed effective same => own ⟨p, listed, effective, same⟩] at found
    exact .inr (KeyedTable.mem_of_get found)

theorem wrote_change (wrote : Wrote moment space who mark planned s s') {c : ChangeRow}
    (member : c ∈ s'.changes.rows) :
    (∃ p ∈ planned, p.effective = true ∧
      c = p.change space (s.headRev space + 1) moment.now who (mark.map (·.id)) p.text.isNone) ∨
      c ∈ s.changes.rows := by
  have found := KeyedTable.get_of_mem member
  by_cases own : ∃ p ∈ planned, p.effective = true ∧ (space, s.headRev space + 1, p.op.key) = c.pk
  · obtain ⟨p, listed, effective, same⟩ := own
    rw [← same, wrote.lands.change p listed effective] at found
    exact .inl ⟨p, listed, effective, (Option.some.inj found).symm⟩
  · rw [wrote.lands.change_kept _ fun p listed effective same => own ⟨p, listed, effective, same⟩] at found
    exact .inr (KeyedTable.mem_of_get found)

theorem live_of_none {key : String} (absent : s.entries.get (space, key) = none) :
    s.live space key = ⟨0, 0, none⟩ := by
  simp only [live, absent]

theorem live_of_some {key : String} {e : EntryRow} (found : s.entries.get (space, key) = some e) :
    s.live space key = if e.deleted then ⟨0, 0, none⟩ else ⟨e.rev, e.size, e.value⟩ := by
  simp only [live, found]

theorem space_of_get {key : String} {e : EntryRow} (found : s.entries.get (space, key) = some e) :
    e.space = space :=
  (Prod.ext_iff.mp (KeyedTable.key_of_get found)).1

theorem Kept.live_bytes (kept : Kept s) (key : String) :
    ((s.entries.get (space, key)).map (·.bytesIn space)).getD 0 = (s.live space key).size := by
  cases found : s.entries.get (space, key) with
  | none => rw [live_of_none found, Option.map_none, Option.getD_none]
  | some e =>
      have size := kept.size e (KeyedTable.mem_of_get found)
      rw [live_of_some found]
      simp only [Option.map_some, Option.getD_some, EntryRow.bytesIn, space_of_get found, if_true]
      split
      · rename_i gone
        rw [EntryRow.value_of_deleted gone, Option.map_none, Option.getD_none]
      · exact size.symm

theorem Kept.live_keys (kept : Kept s) (key : String) :
    ((s.entries.get (space, key)).map (·.keysIn space)).getD 0 =
      if (s.live space key).rev = 0 then 0 else 1 := by
  cases found : s.entries.get (space, key) with
  | none => simp [live_of_none found]
  | some e =>
      have rev := (kept.rev e (KeyedTable.mem_of_get found)).1
      rw [live_of_some found]
      simp only [Option.map_some, Option.getD_some, EntryRow.keysIn, space_of_get found, true_and]
      cases e.deleted with
      | true => simp
      | false =>
          have : e.rev ≠ 0 := by omega
          simp [this]

theorem wrote_weigh_apart (wrote : Wrote moment space who mark planned s s') {w : EntryRow → Nat}
    (apart : ∀ e : EntryRow, e.space = space → w e = 0) : s'.entries.weigh w = s.entries.weigh w := by
  have total := wrote.weigh w (fun _ => 0) (fun _ _ _ => rfl) fun p _ _ => by
    rw [apart (p.entry space _ moment.now who p.text) rfl]
    cases found : s.entries.get (space, p.op.key) with
    | none => rfl
    | some e => simp [apart e (space_of_get found)]
  have nothing : (planned.map fun _ => (0 : Int)).sum = 0 := by
    induction planned with
    | nil => rfl
    | cons p rest ih => simp
  omega

theorem Kept.write_bytes {b : Backend} {ops : List Op} {indexed : Bool} (kept : Kept s)
    (plan : s.planWrite b moment space ops indexed = .ok planned)
    (wrote : Wrote moment space who mark planned s s') (other : Space) :
    s'.headBytes other = s'.liveBytes other := by
  obtain ⟨-, -, follows⟩ := planWrite_spec plan
  rw [(wrote_heads wrote other).2.1]
  split
  · rename_i here
    subst here
    have idle : ∀ p ∈ planned, p.effective = false → p.bytes = 0 := by
      intro p _ idle
      cases act : p.act <;> simp_all [Planned.effective, Planned.bytes]
    have total := wrote.weigh (·.bytesIn other) Planned.bytes idle fun p listed effective => by
      rw [kept.live_bytes, ← (follows p listed).live]
      cases act : p.act <;>
        simp_all [Planned.effective, Planned.bytes, Planned.text, EntryRow.bytesIn, Planned.entry]
    rw [kept.bytes]
    exact total.symm
  · rename_i apart
    rw [kept.bytes, liveBytes, liveBytes, wrote_weigh_apart wrote]
    intro e here
    rw [EntryRow.bytesIn, here, if_neg (Ne.symm apart)]

theorem Kept.write_keys {b : Backend} {ops : List Op} {indexed : Bool} (kept : Kept s)
    (plan : s.planWrite b moment space ops indexed = .ok planned)
    (wrote : Wrote moment space who mark planned s s') (other : Space) :
    s'.headKeys other = s'.liveKeys other := by
  obtain ⟨-, -, follows⟩ := planWrite_spec plan
  rw [(wrote_heads wrote other).2.2]
  split
  · rename_i here
    subst here
    have idle : ∀ p ∈ planned, p.effective = false → p.keys = 0 := by
      intro p _ idle
      cases act : p.act <;> simp_all [Planned.effective, Planned.keys]
    have total := wrote.weigh (·.keysIn other) Planned.keys idle fun p listed effective => by
      rw [kept.live_keys, ← (follows p listed).live]
      cases act : p.act <;>
        simp_all [Planned.effective, Planned.keys, Planned.text, EntryRow.keysIn, Planned.entry]
      split <;> rfl
    rw [kept.keys]
    exact total.symm
  · rename_i apart
    rw [kept.keys, liveKeys, liveKeys, wrote_weigh_apart wrote]
    intro e here
    rw [EntryRow.keysIn, here, if_neg fun both => apart both.1.symm]

theorem headRev_grows (wrote : Wrote moment space who mark planned s s') (other : Space) :
    s.headRev other ≤ s'.headRev other := by
  rw [(wrote_heads wrote other).1]
  split
  · rename_i here
    rw [here]
    omega
  · exact le_rfl

theorem Kept.write {b : Backend} {ops : List Op} {indexed : Bool} (kept : Kept s)
    (plan : s.planWrite b moment space ops indexed = .ok planned)
    (wrote : Wrote moment space who mark planned s s') : Kept s' := by
  have own : s'.headRev space = s.headRev space + 1 := by rw [(wrote_heads wrote space).1, if_pos rfl]
  constructor
  · intro e member
    rcases wrote_entry wrote member with ⟨p, -, -, rfl⟩ | old
    · have := kept.nonneg space
      simp only [Planned.entry, own]
      omega
    · have := kept.rev e old
      have := headRev_grows wrote e.space
      omega
  · intro e member
    rcases wrote_entry wrote member with ⟨p, -, -, rfl⟩ | old
    · rfl
    · exact kept.size e old
  · intro c member
    rcases wrote_change wrote member with ⟨p, -, -, rfl⟩ | old
    · rw [Planned.change, own]
    · exact (kept.change c old).trans (headRev_grows wrote c.space)
  · exact fun other => (kept.nonneg other).trans (headRev_grows wrote other)
  · exact kept.write_bytes plan wrote
  · exact kept.write_keys plan wrote
  · intro other
    rw [(wrote_heads wrote other).2.1]
    split
    · rename_i here
      rw [here]
      exact wrote.bytes
    · exact kept.bytes_le other
  · intro other
    rw [(wrote_heads wrote other).2.2]
    split
    · rename_i here
      rw [here]
      exact wrote.keys
    · exact kept.keys_le other

end Write

/-! ## Other calls -/

/-- The counters of a space are those of the row found under its name. -/
structure SameHeads (s s' : Store) (space space' : Space) : Prop where
  rev : s'.headRev space' = s.headRev space
  bytes : s'.headBytes space' = s.headBytes space
  keys : s'.headKeys space' = s.headKeys space

theorem sameHeads_of_map {s s' : Store} {space space' : Space} {f : SpaceRow → SpaceRow}
    (found : s'.spaces.get space' = (s.spaces.get space).map f)
    (same : ∀ row, (f row).rev = row.rev ∧ (f row).bytes = row.bytes ∧ (f row).keys = row.keys) :
    SameHeads s s' space space' := by
  constructor
  · simp only [headRev, found, Option.map_map]
    exact congrArg (·.getD 0) (congrArg (Option.map · _) (funext fun row => (same row).1))
  · simp only [headBytes, found, Option.map_map]
    exact congrArg (·.getD 0) (congrArg (Option.map · _) (funext fun row => (same row).2.1))
  · simp only [headKeys, found, Option.map_map]
    exact congrArg (·.getD 0) (congrArg (Option.map · _) (funext fun row => (same row).2.2))

theorem heads_of_none {s : Store} {space : Space} (absent : s.spaces.get space = none) :
    s.headRev space = 0 ∧ s.headBytes space = 0 ∧ s.headKeys space = 0 := by
  simp [headRev, headBytes, headKeys, absent]

theorem limits_nonneg (space : Space) : 0 ≤ (limits space).1 ∧ 0 ≤ (limits space).2 := by
  simp only [limits]
  split <;> decide

/-- A store whose every space is one of a kept store's, or has nothing. -/
theorem Kept.of_spaces {s s' : Store} (kept : Kept s)
    (entry : ∀ e ∈ s'.entries.rows, ∃ x ∈ s.entries.rows, e.rev = x.rev ∧ e.size = x.size ∧
      e.value = x.value ∧ SameHeads s s' x.space e.space)
    (change : ∀ c ∈ s'.changes.rows, ∃ x ∈ s.changes.rows, c.rev = x.rev ∧ SameHeads s s' x.space c.space)
    (each : ∀ space, (∃ source, SameHeads s s' source space ∧ s'.liveBytes space = s.liveBytes source ∧
        s'.liveKeys space = s.liveKeys source ∧ limits space = limits source) ∨
      (s'.spaces.get space = none ∧ s'.liveBytes space = 0 ∧ s'.liveKeys space = 0)) :
    Kept s' := by
  constructor
  · intro e member
    obtain ⟨x, hx, rev, -, -, heads⟩ := entry e member
    rw [rev, heads.rev]
    exact kept.rev x hx
  · intro e member
    obtain ⟨x, hx, -, size, value, -⟩ := entry e member
    rw [size, value]
    exact kept.size x hx
  · intro c member
    obtain ⟨x, hx, rev, heads⟩ := change c member
    rw [rev, heads.rev]
    exact kept.change x hx
  · intro space
    rcases each space with ⟨source, heads, -⟩ | ⟨absent, -⟩
    · rw [heads.rev]
      exact kept.nonneg source
    · exact (heads_of_none absent).1.symm.le
  · intro space
    rcases each space with ⟨source, heads, bytes, -⟩ | ⟨absent, bytes, -⟩
    · rw [heads.bytes, bytes]
      exact kept.bytes source
    · rw [(heads_of_none absent).2.1, bytes]
      rfl
  · intro space
    rcases each space with ⟨source, heads, -, keys, -⟩ | ⟨absent, -, keys⟩
    · rw [heads.keys, keys]
      exact kept.keys source
    · rw [(heads_of_none absent).2.2, keys]
      rfl
  · intro space
    rcases each space with ⟨source, heads, -, -, limit⟩ | ⟨absent, -⟩
    · rw [heads.bytes, limit]
      exact kept.bytes_le source
    · rw [(heads_of_none absent).2.1]
      exact (limits_nonneg space).1
  · intro space
    rcases each space with ⟨source, heads, -, -, limit⟩ | ⟨absent, -⟩
    · rw [heads.keys, limit]
      exact kept.keys_le source
    · rw [(heads_of_none absent).2.2]
      exact (limits_nonneg space).2

theorem reap_spaces (s : Store) (now : Int) (space : Space) :
    (s.reap now).1.spaces.get space = (s.spaces.get space).map fun row =>
      if (s.topDead now row.space).isSome then
        { row with reapedRev := max row.reapedRev ((s.topDead now row.space).getD 0) }
      else row := by
  simp only [Store.reap, KeyedTable.get_updateWhere]

theorem Kept.reap {s : Store} (kept : Kept s) (now : Int) : Kept (s.reap now).1 := by
  have heads : ∀ space, SameHeads s (s.reap now).1 space space := fun space => by
    refine sameHeads_of_map (reap_spaces s now space) fun row => ?_
    split <;> exact ⟨rfl, rfl, rfl⟩
  have gone : ∀ e : EntryRow, dead now e = true → e.deleted = true ∧ e.value = none := by
    intro e taken
    simp only [dead, Bool.and_eq_true] at taken
    exact ⟨taken.1, EntryRow.value_of_deleted taken.1⟩
  refine kept.of_spaces ?_ ?_ ?_
  · intro e member
    exact ⟨e, ((KeyedTable.mem_deleteWhere _ _ _).mp member).1, rfl, rfl, rfl, heads e.space⟩
  · intro c member
    exact ⟨c, ((KeyedTable.mem_deleteWhere _ _ _).mp member).1, rfl, heads c.space⟩
  · intro space
    refine .inl ⟨space, heads space, ?_, ?_, rfl⟩
    · refine KeyedTable.weigh_deleteWhere_of_zero fun e _ taken => ?_
      simp [EntryRow.bytesIn, (gone e taken).2]
    · refine KeyedTable.weigh_deleteWhere_of_zero fun e _ taken => ?_
      simp [EntryRow.keysIn, (gone e taken).1]

/-- Of a table without a space's rows, every other space weighs what it did. -/
theorem without_space {s s' : Store} {space : Space}
    (entries : s'.entries = s.entries.deleteWhere (·.space = space)) (other : Space) :
    (other = space → s'.liveBytes other = 0 ∧ s'.liveKeys other = 0) ∧
      (other ≠ space → s'.liveBytes other = s.liveBytes other ∧ s'.liveKeys other = s.liveKeys other) := by
  simp only [liveBytes, liveKeys, entries]
  constructor
  · rintro rfl
    constructor
    all_goals
      refine KeyedTable.weigh_eq_zero fun e member => ?_
      have := ((KeyedTable.mem_deleteWhere _ _ _).mp member).2
      simp_all [EntryRow.bytesIn, EntryRow.keysIn]
  · intro apart
    constructor
    all_goals
      refine KeyedTable.weigh_deleteWhere_of_zero fun e _ here => ?_
      have : e.space = space := by simpa using here
      simp [EntryRow.bytesIn, EntryRow.keysIn, this, Ne.symm apart]

theorem get_without {s : Store} {space other : Space} :
    (s.spaces.deleteWhere (·.space = space)).get other =
      if other = space then none else s.spaces.get other := by
  rw [KeyedTable.get_deleteWhere]
  cases found : s.spaces.get other with
  | none => simp
  | some row =>
      have here : row.space = other := KeyedTable.key_of_get found
      by_cases same : other = space <;> simp [Option.filter, here, same]

theorem live_of_without {s s' : Store} {space : Space} (entries : s'.entries = s.entries.deleteWhere (·.space = space))
    (other : Space) (key : String) : s'.live other key = if other = space then ⟨0, 0, none⟩ else s.live other key := by
  have got : s'.entries.get (other, key) = (s.entries.get (other, key)).filter fun e => !decide (e.space = space) := by
    rw [entries, KeyedTable.get_deleteWhere]
  cases found : s.entries.get (other, key) with
  | none =>
      rw [found, Option.filter_none] at got
      rw [live_of_none got, live_of_none found, ite_self]
  | some e =>
      have here : e.space = other := (Prod.ext_iff.mp (KeyedTable.key_of_get found)).1
      rw [found, ← here] at got
      by_cases own : other = space
      · rw [Option.filter_some, here, if_neg (by simp [own])] at got
        rw [if_pos own, live_of_none got]
      · rw [Option.filter_some, here, if_pos (by simp [own])] at got
        rw [if_neg own, live_of_some got, live_of_some found]

theorem dropSpace_cases (s : Store) (space : Space) (now : Int) (rand : String) :
    (∃ e, s.dropSpace space now rand = (s, .error e)) ∨
      ∃ s', s.dropSpace space now rand = (s', .ok ()) ∧
        s'.entries = s.entries.deleteWhere (·.space = space) ∧
        s'.changes = s.changes.deleteWhere (·.space = space) ∧
        s'.spaces = s.spaces.deleteWhere (·.space = space) := by
  simp only [Store.dropSpace]
  cases s.blobs.tombstoneSpace space.name now rand with
  | error e => exact .inl ⟨e, rfl⟩
  | ok blobs => exact .inr ⟨_, rfl, rfl, rfl, rfl⟩

theorem Kept.dropSpace {s : Store} (kept : Kept s) (space : Space) (now : Int) (rand : String) :
    Kept (s.dropSpace space now rand).1 := by
  rcases dropSpace_cases s space now rand with ⟨e, refused⟩ | ⟨s', dropped, entries, changes, spaces⟩
  · rw [refused]
    exact kept
  · rw [dropped]
    have heads : ∀ {other : Space}, other ≠ space → SameHeads s s' other other := fun apart => by
      refine sameHeads_of_map (f := id) ?_ fun row => ⟨rfl, rfl, rfl⟩
      rw [spaces, get_without, if_neg apart, Option.map_id]
      rfl
    refine kept.of_spaces ?_ ?_ ?_
    · intro e member
      rw [entries] at member
      obtain ⟨old, apart⟩ := (KeyedTable.mem_deleteWhere _ _ _).mp member
      exact ⟨e, old, rfl, rfl, rfl, heads (by simpa using apart)⟩
    · intro c member
      rw [changes] at member
      obtain ⟨old, apart⟩ := (KeyedTable.mem_deleteWhere _ _ _).mp member
      exact ⟨c, old, rfl, heads (by simpa using apart)⟩
    · intro other
      by_cases here : other = space
      · obtain ⟨bytes, keys⟩ := (without_space entries other).1 here
        refine .inr ⟨?_, bytes, keys⟩
        rw [spaces, get_without, if_pos here]
      · obtain ⟨bytes, keys⟩ := (without_space entries other).2 here
        exact .inl ⟨other, heads here, bytes, keys, rfl⟩

/-- A move is refused, or replaces the target's rows by those of its source. -/
theorem moveSpace_cases (s : Store) (source target : Space) :
    (∃ e, s.moveSpace source target = (s, .error e)) ∨
      ∃ (s' : Store) (spaces : KeyedTable SpaceRow.space), s.moveSpace source target = (s', .ok ()) ∧
        source.isData = target.isData ∧
        s'.entries.rows = (s.entries.deleteWhere (·.space = target)).rows.map
          (fun e => if e.space = source then { e with space := target } else e) ∧
        s'.changes.rows = (s.changes.deleteWhere (·.space = target)).rows.map
          (fun c => if c.space = source then { c with space := target } else c) ∧
        spaces.rows = (s.spaces.deleteWhere (·.space = target)).rows.map
          (fun r => if r.space = source then { r with space := target } else r) ∧
        s'.spaces = spaces.updateWhere (·.space = target) (fun r => { r with orphanedAt := none })
          fun _ => rfl := by
  simp only [Store.moveSpace]
  split
  · exact .inl ⟨_, rfl⟩
  · rename_i kind
    split
    · exact .inl ⟨_, rfl⟩
    · split
      · exact .inl ⟨_, rfl⟩
      · cases moved : s.moveRows source target with
        | error e => exact .inl ⟨e, rfl⟩
        | ok s' =>
            simp only [Store.moveRows, bind_eq_ok, okOr_eq_ok] at moved
            obtain ⟨entries, entries_eq, changes, changes_eq, blobs, -, spaces, spaces_eq, same⟩ := moved
            cases same
            refine .inr ⟨_, spaces, rfl, not_not.mp kind, ?_, ?_, ?_, rfl⟩
            · simpa using KeyedTable.rows_of_rekey entries_eq
            · simpa using KeyedTable.rows_of_rekey changes_eq
            · simpa using KeyedTable.rows_of_rekey spaces_eq

/-- The space whose rows a move leaves under a name. -/
def movedFrom (source target other : Space) : Option Space :=
  if other = target then (if source = target then none else some source)
  else if other = source then none
  else some other

section Move

variable {s s' : Store} {source target : Space}

/-- A row that stays or moves stands under the name its space's rows go to. -/
theorem movedFrom_eq_some {space other : Space} : movedFrom source target other = some space ↔
    space ≠ target ∧ (if space = source then target else space) = other := by
  simp only [movedFrom]
  by_cases here : space = source
  · subst here
    by_cases at_target : other = target
    · by_cases same : space = target <;> simp [at_target, same]
    · by_cases at_source : other = space
      · subst at_source
        simp [at_target, Ne.symm at_target]
      · simp [at_target, at_source, Ne.symm at_target]
  · by_cases at_target : other = target
    · by_cases same : source = target
      · simp [at_target, same]
      · simp [at_target, same, here, Ne.symm here]
    · by_cases at_source : other = source
      · subst at_source
        simp [at_target, here]
      · simp only [at_target, at_source, here, if_false, Option.some.injEq]
        constructor
        · rintro rfl
          exact ⟨at_target, rfl⟩
        · exact fun both => both.2.symm

/-- A row after a move is one of the space its own space's rows come from. -/
theorem mem_placed {ρ : Type} (space : ρ → Space) (put : ρ → Space → ρ) (space_put : ∀ r x, space (put r x) = x)
    (put_own : ∀ r, put r (space r) = r) (put_put : ∀ r x y, put (put r x) y = put r y) (source target : Space)
    (rows : List ρ) (r : ρ) :
    r ∈ (rows.filter fun r => space r ≠ target).map (fun r => if space r = source then put r target else r) ↔
      ∃ origin, movedFrom source target (space r) = some origin ∧ put r origin ∈ rows := by
  rw [List.mem_map]
  constructor
  · rintro ⟨old, member, rfl⟩
    obtain ⟨there, apart⟩ := List.mem_filter.mp member
    refine ⟨space old, movedFrom_eq_some.mpr ⟨of_decide_eq_true apart, ?_⟩, ?_⟩
    · split
      · exact (space_put ..).symm
      · rfl
    · split
      · rw [put_put, put_own]
        exact there
      · rw [put_own]
        exact there
  · rintro ⟨origin, place, there⟩
    obtain ⟨apart, placed⟩ := movedFrom_eq_some.mp place
    refine ⟨_, List.mem_filter.mpr ⟨there, decide_eq_true (by rw [space_put]; exact apart)⟩, ?_⟩
    rw [space_put]
    split at placed
    next own => rw [if_pos own, put_put, placed, put_own]
    next other => rw [if_neg other, placed, put_own]

/-- What is found under a name after a move is what was found under the name its
    rows come from. -/
theorem get_placed {ρ κ : Type} [DecidableEq κ] {keyOf : ρ → κ} (t t' : KeyedTable keyOf) (space : ρ → Space)
    (put : ρ → Space → ρ) (name : Space → κ) (space_put : ∀ r x, space (put r x) = x)
    (put_own : ∀ r, put r (space r) = r) (put_put : ∀ r x y, put (put r x) y = put r y)
    (named : ∀ r x y, keyOf r = name x → space r = x ∧ keyOf (put r y) = name y)
    (rows : t'.rows = (t.deleteWhere (decide <| space · = target)).rows.map
      fun r => if space r = source then put r target else r) (other : Space) :
    t'.get (name other) = ((movedFrom source target other).bind fun origin => t.get (name origin)).map (put · other) := by
  have placed := mem_placed space put space_put put_own put_put source target t.rows
  have filtered : (t.deleteWhere (decide <| space · = target)).rows = t.rows.filter fun r => space r ≠ target := by
    simp [KeyedTable.deleteWhere]
  rw [← filtered, ← rows] at placed
  cases found : t'.get (name other) with
  | some r =>
      obtain ⟨member, own⟩ := KeyedTable.get_eq_some.mp found
      obtain ⟨rfl, -⟩ := named r other other own
      obtain ⟨origin, place, there⟩ := (placed r).mp member
      have before : t.get (name origin) = some (put r origin) :=
        (named r (space r) origin own).2 ▸ KeyedTable.get_of_mem there
      rw [place, Option.bind_some, before, Option.map_some, put_put, put_own]
  | none =>
      cases place : movedFrom source target other with
      | none => rfl
      | some origin =>
          rw [Option.bind_some]
          cases before : t.get (name origin) with
          | none => rfl
          | some r =>
              obtain ⟨there, own⟩ := KeyedTable.get_eq_some.mp before
              obtain ⟨rfl, renamed⟩ := named r origin other own
              have member : put r other ∈ t'.rows :=
                (placed _).mpr ⟨space r, by rwa [space_put], by rwa [put_put, put_own]⟩
              exact absurd renamed (KeyedTable.get_eq_none.mp found _ member)

theorem moved_get {spaces : KeyedTable SpaceRow.space}
    (rows : spaces.rows = (s.spaces.deleteWhere (·.space = target)).rows.map
      fun r => if r.space = source then { r with space := target } else r) (other : Space) :
    spaces.get other = ((movedFrom source target other).bind s.spaces.get).map
      fun r => { r with space := other } :=
  get_placed s.spaces spaces SpaceRow.space (fun r x => { r with space := x }) id (fun _ _ => rfl) (fun _ => rfl)
    (fun _ _ _ => rfl) (fun _ _ _ own => ⟨own, rfl⟩) rows other

theorem live_of_moved (rows : s'.entries.rows = (s.entries.deleteWhere (·.space = target)).rows.map
      fun e => if e.space = source then { e with space := target } else e) (other : Space) (key : String) :
    s'.live other key = ((movedFrom source target other).map fun origin => s.live origin key).getD ⟨0, 0, none⟩ := by
  have got : s'.entries.get (other, key) = ((movedFrom source target other).bind fun origin =>
      s.entries.get (origin, key)).map fun e => { e with space := other } :=
    get_placed s.entries s'.entries EntryRow.space (fun e x => { e with space := x }) (·, key) (fun _ _ => rfl) (fun _ => rfl)
      (fun _ _ _ => rfl) (fun _ _ _ own => ⟨(Prod.mk.inj own).1, Prod.ext rfl (Prod.mk.inj own).2⟩) rows other
  cases place : movedFrom source target other with
  | none =>
      rw [place] at got
      exact live_of_none got
  | some origin =>
      rw [place, Option.bind_some] at got
      rw [Option.map_some, Option.getD_some]
      cases before : s.entries.get (origin, key) with
      | none =>
          rw [before] at got
          rw [live_of_none got, live_of_none before]
      | some e =>
          rw [before] at got
          rw [live_of_some got, live_of_some before]

theorem moved_weigh {v : EntryRow → Nat} (blind : ∀ e : EntryRow, v { e with space := target } = v e)
    (rows : s'.entries.rows = (s.entries.deleteWhere (·.space = target)).rows.map
      fun e => if e.space = source then { e with space := target } else e) (other : Space) :
    s'.entries.weigh (fun e => if e.space = other then v e else 0) =
      ((movedFrom source target other).map fun space =>
        s.entries.weigh fun e => if e.space = space then v e else 0).getD 0 := by
  have pulled : s'.entries.weigh (fun e => if e.space = other then v e else 0) =
      (s.entries.deleteWhere (·.space = target)).weigh fun e =>
        if movedFrom source target other = some e.space then v e else 0 := by
    rw [KeyedTable.weigh, rows, List.map_map, KeyedTable.weigh]
    congr 1
    apply List.map_congr_left
    intro e member
    have apart : e.space ≠ target := by simpa using ((KeyedTable.mem_deleteWhere _ _ _).mp member).2
    have placed : (if e.space = source then { e with space := target } else e).space = other ↔
        movedFrom source target other = some e.space := by
      rw [movedFrom_eq_some, and_iff_right apart]
      split <;> rfl
    have weighed : v (if e.space = source then { e with space := target } else e) = v e := by
      split
      · exact blind e
      · rfl
    simp only [Function.comp_apply, placed, weighed]
  rw [pulled]
  cases from_r : movedFrom source target other with
  | none =>
      simp only [reduceCtorEq, if_false, Option.map_none, Option.getD_none]
      exact KeyedTable.weigh_eq_zero fun _ _ => rfl
  | some space =>
      simp only [Option.some.injEq, Option.map_some, Option.getD_some]
      rw [KeyedTable.weigh_deleteWhere_of_zero fun e _ there => ?_]
      · exact KeyedTable.weigh_congr fun e _ => by simp only [eq_comm]
      · have there : e.space = target := by simpa using there
        rw [there, if_neg (movedFrom_eq_some.mp from_r).1]

theorem Kept.moveSpace (kept : Kept s) (source target : Space) : Kept (s.moveSpace source target).1 := by
  rcases moveSpace_cases s source target with
    ⟨e, refused⟩ | ⟨s', spaces, moved, kind, entries, changes, spaces_rows, updated⟩
  · rw [refused]
    exact kept
  · rw [moved]
    have heads : ∀ {space other : Space}, movedFrom source target other = some space →
        SameHeads s s' space other := by
      intro space other from_r
      refine sameHeads_of_map (f := fun r => if other = target then
        { r with space := other, orphanedAt := none } else { r with space := other }) ?_ fun row => ?_
      · rw [updated, KeyedTable.get_updateWhere, moved_get spaces_rows, from_r, Option.bind_some,
          Option.map_map]
        congr 1
        funext row
        simp only [Function.comp_apply, decide_eq_true_eq]
      · split <;> exact ⟨rfl, rfl, rfl⟩
    refine kept.of_spaces ?_ ?_ ?_
    · intro e member
      rw [entries, List.mem_map] at member
      obtain ⟨x, old, rfl⟩ := member
      obtain ⟨old, apart⟩ := (KeyedTable.mem_deleteWhere _ _ _).mp old
      have from_x := heads (movedFrom_eq_some.mpr ⟨by simpa using apart, rfl⟩)
      refine ⟨x, old, ?_⟩
      split
      · rename_i here
        rw [if_pos here] at from_x
        exact ⟨rfl, rfl, rfl, from_x⟩
      · rename_i other
        rw [if_neg other] at from_x
        exact ⟨rfl, rfl, rfl, from_x⟩
    · intro c member
      rw [changes, List.mem_map] at member
      obtain ⟨x, old, rfl⟩ := member
      obtain ⟨old, apart⟩ := (KeyedTable.mem_deleteWhere _ _ _).mp old
      have from_x := heads (movedFrom_eq_some.mpr ⟨by simpa using apart, rfl⟩)
      refine ⟨x, old, ?_⟩
      split
      · rename_i here
        rw [if_pos here] at from_x
        exact ⟨rfl, from_x⟩
      · rename_i other
        rw [if_neg other] at from_x
        exact ⟨rfl, from_x⟩
    · intro other
      have bytes := moved_weigh (v := fun e => (e.value.map Text.byteLen).getD 0) (fun _ => rfl) entries other
      have keys := moved_weigh (v := fun e => if e.deleted = false then 1 else 0) (fun _ => rfl) entries other
      simp only [← ite_and] at keys
      cases from_o : movedFrom source target other with
      | none =>
          rw [from_o] at bytes keys
          refine .inr ⟨?_, bytes, keys⟩
          rw [updated, KeyedTable.get_updateWhere, moved_get spaces_rows, from_o]
          rfl
      | some space =>
          rw [from_o] at bytes keys
          refine .inl ⟨space, heads from_o, bytes, keys, ?_⟩
          obtain ⟨-, place⟩ := movedFrom_eq_some.mp from_o
          rw [← place, limits, limits]
          split
          · rename_i here
            rw [here, kind]
          · rfl

end Move

/-! ## What a write stamps -/

/-- The keys a write changes: all it puts, the live ones it deletes, and those
    its patches change. -/
def touched (b : Backend) (s : Store) (space : Space) (ops : List Op) : List String :=
  (ops.filter fun op => op.changes b (s.live space op.key)).map Op.key

/-- A write's new rev, on its space, on the entry of every changed key and on one
    change row for each, and nowhere else. -/
structure Stamped (s s' : Store) (space : Space) (keys : List String) : Prop where
  rev : ∃ row, s'.spaces.get space = some row ∧ row.rev = s.headRev space + 1
  others : ∀ other ≠ space, s'.spaces.get other = s.spaces.get other
  entry : ∀ k ∈ keys, ∃ e, s'.entries.get (space, k) = some e ∧ e.rev = s.headRev space + 1
  entry_kept : ∀ pk, (pk.1 = space → pk.2 ∉ keys) → s'.entries.get pk = s.entries.get pk
  new : ∀ k, s.changes.get (space, s.headRev space + 1, k) = none
  change : ∀ k ∈ keys, ∃ c, s'.changes.get (space, s.headRev space + 1, k) = some c ∧
    c.prev = (s.live space k).text ∧ c.prevKind = some (if (s.live space k).rev = 0 then 0 else 1) ∧
    (c.deleted = true ↔ (s'.live space k).rev = 0)
  change_kept : ∀ pk, (pk.1 = space ∧ pk.2.1 = s.headRev space + 1 → pk.2.2 ∉ keys) →
    s'.changes.get pk = s.changes.get pk

section Stamp

variable {b : Backend} {s s' : Store} {moment : Moment} {space : Space} {ops : List Op} {who : String}
  {indexed : Bool} {mark : Option RestoreMark} {planned : List Planned}

theorem follows_effective {p : Planned} (follows : Follows b s space p) :
    p.effective = p.op.changes b (s.live space p.op.key) := by
  rw [← follows.live]
  obtain ⟨op, act, refs, live⟩ := p
  cases follows.decided with
  | put wrote => rfl
  | delete => rfl
  | merge read changed wrote => simp [Planned.effective, Op.changes, read, changed]
  | skip read same => simp [Planned.effective, Op.changes, read, same]

/-- The planned ops that take effect are those of the changed keys. -/
theorem mem_touched (plan : s.planWrite b moment space ops indexed = .ok planned) {k : String} :
    k ∈ s.touched b space ops ↔ ∃ p ∈ planned, p.effective = true ∧ p.op.key = k := by
  obtain ⟨ops_eq, -, follows⟩ := planWrite_spec plan
  simp only [touched, List.mem_map, List.mem_filter, ← ops_eq]
  constructor
  · rintro ⟨op, ⟨⟨p, listed, rfl⟩, changes⟩, rfl⟩
    exact ⟨p, listed, (follows_effective (follows p listed)).trans changes, rfl⟩
  · rintro ⟨p, listed, effective, rfl⟩
    exact ⟨p.op, ⟨⟨p, listed, rfl⟩, (follows_effective (follows p listed)).symm.trans effective⟩, rfl⟩

theorem Kept.stamped (kept : Kept s) (plan : s.planWrite b moment space ops indexed = .ok planned)
    (wrote : Wrote moment space who mark planned s s') : Stamped s s' space (s.touched b space ops) := by
  obtain ⟨-, -, follows⟩ := planWrite_spec plan
  have rev_pos : s.headRev space + 1 ≠ 0 := by
    have := kept.nonneg space
    omega
  constructor
  · refine ⟨_, ?_, (counted_counters s space (s.headRev space + 1)
      (s.headBytes space + (planned.map Planned.bytes).sum)
      (s.headKeys space + (planned.map Planned.keys).sum) moment.now).1⟩
    rw [wrote.spaces, KeyedTable.get_upsert, counted_space, if_pos rfl]
  · exact fun other => wrote_spaces wrote
  · intro k member
    obtain ⟨p, listed, effective, rfl⟩ := (mem_touched plan).mp member
    exact ⟨_, wrote.lands.entry p listed effective, rfl⟩
  · intro pk apart
    apply wrote.lands.entry_kept
    rintro p listed effective rfl
    exact apart rfl ((mem_touched plan).mpr ⟨p, listed, effective, rfl⟩)
  · intro k
    rw [KeyedTable.get_eq_none]
    intro c member same
    have rev := kept.change c member
    simp only [ChangeRow.pk, Prod.mk.injEq] at same
    rw [same.1, same.2.1] at rev
    omega
  · intro k member
    obtain ⟨p, listed, effective, rfl⟩ := (mem_touched plan).mp member
    refine ⟨_, wrote.lands.change p listed effective, ?_, ?_, ?_⟩
    · rw [← (follows p listed).live]
      rfl
    · rw [← (follows p listed).live]
      simp [Planned.change]
    · rw [live_of_some (wrote.lands.entry p listed effective)]
      cases text : p.text <;> simp [Planned.change, Planned.entry, rev_pos]
  · intro pk apart
    apply wrote.lands.change_kept
    rintro p listed effective rfl
    exact apart ⟨rfl, rfl⟩ ((mem_touched plan).mpr ⟨p, listed, effective, rfl⟩)

/-- What a write answers and does. -/
inductive Outcome (b : Backend) (s : Store) (space : Space) (ops : List Op) :
    Store × Except DataError (Int × Bool) → Prop where
  | refused (e : DataError)
      (why : ∀ key rev op, e = .conflict key rev op → Mismatch s space ops key rev) :
      Outcome b s space ops (s, .error e)
  | idle (matched : ∀ op ∈ ops, ∀ n, op.ifRev = some n → n = (s.live space op.key).rev)
      (untouched : s.touched b space ops = []) :
      Outcome b s space ops (s, .ok (s.headRev space, false))
  | wrote (s' : Store) (matched : ∀ op ∈ ops, ∀ n, op.ifRev = some n → n = (s.live space op.key).rev)
      (some_touched : s.touched b space ops ≠ []) (stamped : Stamped s s' space (s.touched b space ops))
      (kept : Kept s') : Outcome b s space ops (s', .ok (s.headRev space + 1, true))

variable (b moment space ops who indexed mark) in
theorem Kept.outcome (kept : Kept s) :
    Outcome b s space ops (s.writeWith b moment space ops who indexed mark) := by
  rcases writeWith_cases b s moment space ops who indexed mark with ⟨e, refused⟩ | ⟨planned, plan, rest⟩
  · rw [refused]
    refine .refused e fun key rev op same => ?_
    rw [same] at refused
    exact writeWith_conflict refused
  · obtain ⟨ops_eq, -, follows⟩ := planWrite_spec plan
    have matched : ∀ op ∈ ops, ∀ n, op.ifRev = some n → n = (s.live space op.key).rev := by
      intro op member n wanted
      rw [← ops_eq, List.mem_map] at member
      obtain ⟨p, listed, rfl⟩ := member
      rw [← (follows p listed).live]
      exact (follows p listed).ifRev n wanted
    rcases rest with ⟨none_effective, same⟩ | ⟨some_effective, s', wrote, same⟩
    · rw [same]
      refine .idle matched (List.eq_nil_iff_forall_not_mem.mpr fun k member => ?_)
      obtain ⟨p, listed, effective, -⟩ := (mem_touched plan).mp member
      have := List.any_eq_false.mp none_effective p listed
      exact this effective
    · rw [same]
      refine .wrote s' matched ?_ (kept.stamped plan wrote) (kept.write plan wrote)
      obtain ⟨p, listed, effective⟩ := List.any_eq_true.mp some_effective
      exact List.ne_nil_of_mem ((mem_touched plan).mpr ⟨p, listed, effective, rfl⟩)

end Stamp

end Store

end K2.GardenData
