import K2.GardenData.History
import K2.GardenData.PatchRuns
import K2.Lib.Histories

/-! # What the change rows record

In any run of writes, reaper passes and trims under a clock that never goes back,
a space's change rows are an undo log of it: whole from the first row kept on, and
right wherever they still say what was before.
-/

namespace K2.GardenData

open UndoLog (Undo Explains)

/-! ## Runs -/

/-- What happens to the store at a time. -/
inductive HistoryStep where
  | write (fileBytes : Nat) (space : Space) (ops : List Op) (who : String) (indexed : Bool)
      (mark : Option RestoreMark)
  | reap
  | trim (max : Int)
  deriving Repr

/-- A run of steps, each at a time. -/
abbrev Timeline := List (Int × HistoryStep)

/-- The clock never goes back. -/
def Timeline.Forward (run : Timeline) : Prop := (run.map Prod.fst).Pairwise (· ≤ ·)

instance (run : Timeline) : Decidable run.Forward := inferInstanceAs (Decidable (List.Pairwise _ _))

/-- The steps at or before a time. -/
def Timeline.upTo (run : Timeline) (t : Int) : Timeline := run.takeWhile (·.1 ≤ t)

namespace Store

variable (b : Backend)

def historyStep (s : Store) : Int × HistoryStep → Store
  | (now, .write fileBytes space ops who indexed mark) =>
      (s.writeWith b ⟨now, fileBytes⟩ space ops who indexed mark).1
  | (now, .reap) => (s.reap now).1
  | (now, .trim max) => (s.trimHistory max now).1

/-- The store after a run from the empty one. -/
def ran (run : Timeline) : Store := run.foldl (historyStep b) .empty

/-- A key's text. -/
def text (s : Store) (space : Space) (key : String) : Option String := (s.live space key).text

end Store

/-! ## The log of a space -/

def ChangeRow.undo (c : ChangeRow) : Undo String (Option String) := ⟨c.rev, c.key, c.prevKind.map fun _ => c.prev⟩

def Store.undos (s : Store) (space : Space) : Set (Undo String (Option String)) :=
  {u | ∃ c ∈ s.changes.rows, c.space = space ∧ c.undo = u}

/-- The change rows of a space, from rev `low` on, record what its keys held after
    each rev (`past`) and when the rev was written. -/
structure Recorded (s : Store) (space : Space) (past : Int → String → Option String) (time : Int → Int)
    (low : Int) : Prop where
  kept : Store.Kept s
  now : s.text space = past (s.headRev space)
  explains : Explains (s.undos space) past low (s.headRev space)
  low_pos : 1 ≤ low
  low_le : low ≤ s.headRev space + 1
  above : ∀ c ∈ s.changes.rows, c.space = space → low ≤ c.rev
  dense : ∀ r, low ≤ r → r ≤ s.headRev space → ∃ c ∈ s.changes.rows, c.space = space ∧ c.rev = r
  kinds : ∀ c ∈ s.changes.rows, c.space = space →
    c.prevKind = none ∨ c.prevKind = some (if c.prev.isSome then 1 else 0)
  times : ∀ c ∈ s.changes.rows, c.space = space → c.time = time c.rev
  updated : (s.spaces.get space).map (·.updatedAt) =
    if s.headRev space = 0 then none else some (time (s.headRev space))
  ordered : ∀ i j, 1 ≤ i → i ≤ j → j ≤ s.headRev space → time i ≤ time j

section Recorded

variable {s s' : Store} {space : Space} {past : Int → String → Option String} {time : Int → Int} {low : Int}

theorem recorded_empty (space : Space) : Recorded .empty space (fun _ _ => none) (fun _ => 0) 1 where
  kept := Store.kept_empty
  now := rfl
  explains := ⟨fun _ _ _ _ changed => absurd rfl changed, fun u logged => by
    obtain ⟨c, member, -⟩ := logged
    cases member⟩
  low_pos := le_rfl
  low_le := le_rfl
  above _ member := by cases member
  dense r from_low to_head := by
    have head : Store.empty.headRev space = 0 := rfl
    omega
  kinds _ member := by cases member
  times _ member := by cases member
  updated := rfl
  ordered i j _ _ to_head := by
    have head : Store.empty.headRev space = 0 := rfl
    omega

/-! ## A write -/

section Write

variable {b : Backend} {moment : Moment} {target : Space} {ops : List Op} {who : String} {indexed : Bool}
  {mark : Option RestoreMark} {planned : List Planned}

theorem text_apart (wrote : Wrote moment target who mark planned s s') (apart : space ≠ target) :
    s'.text space = s.text space := by
  funext key
  rw [Store.text, Store.text, wrote_apart wrote]
  intro p _ _ same
  exact apart (Prod.ext_iff.mp same).1.symm

theorem change_stays (kept : Store.Kept s) (wrote : Wrote moment target who mark planned s s') {c : ChangeRow}
    (member : c ∈ s.changes.rows) : c ∈ s'.changes.rows := by
  have below := kept.change c member
  refine KeyedTable.mem_of_get ((wrote.lands.change_kept c.pk ?_).trans (KeyedTable.get_of_mem member))
  intro p _ _ same
  simp only [ChangeRow.pk, Prod.mk.injEq] at same
  rw [← same.1, ← same.2.1] at below
  omega

theorem Recorded.write_apart (recorded : Recorded s space past time low) (kept' : Store.Kept s')
    (wrote : Wrote moment target who mark planned s s') (apart : space ≠ target) :
    Recorded s' space past time low := by
  have head : s'.headRev space = s.headRev space := by rw [(Store.wrote_heads wrote space).1, if_neg apart]
  have back : ∀ c ∈ s'.changes.rows, c.space = space → c ∈ s.changes.rows := by
    intro c member here
    rcases Store.wrote_change wrote member with ⟨p, -, -, rfl⟩ | old
    · exact absurd here.symm apart
    · exact old
  have same : s'.undos space = s.undos space := by
    ext u
    constructor
    · rintro ⟨c, member, here, rfl⟩
      exact ⟨c, back c member here, here, rfl⟩
    · rintro ⟨c, member, here, rfl⟩
      exact ⟨c, change_stays recorded.kept wrote member, here, rfl⟩
  constructor
  case kept => exact kept'
  case now => rw [text_apart wrote apart, head, recorded.now]
  case explains => rw [same, head]; exact recorded.explains
  case low_pos => exact recorded.low_pos
  case low_le => rw [head]; exact recorded.low_le
  case above => exact fun c member here => recorded.above c (back c member here) here
  case dense =>
    rw [head]
    intro r from_low to_head
    obtain ⟨c, member, at_r⟩ := recorded.dense r from_low to_head
    exact ⟨c, change_stays recorded.kept wrote member, at_r⟩
  case kinds => exact fun c member here => recorded.kinds c (back c member here) here
  case times => exact fun c member here => recorded.times c (back c member here) here
  case updated => rw [head, Store.wrote_spaces wrote apart]; exact recorded.updated
  case ordered => rw [head]; exact recorded.ordered

theorem change_prev (kept : Store.Kept s) (plan : s.planWrite b moment space ops indexed = .ok planned)
    {p : Planned} (listed : p ∈ planned) (who : String) (rev : Int) (deleted : Bool) (restoreId : Option String) :
    (p.change space rev moment.now who restoreId deleted).prev = s.text space p.op.key ∧
      (p.change space rev moment.now who restoreId deleted).prevKind =
        some (if (s.text space p.op.key).isSome then 1 else 0) := by
  obtain ⟨-, -, follows⟩ := planWrite_spec plan
  have live := (follows p listed).live
  have absent := kept.live_text space p.op.key
  rw [Planned.change, Store.text, live]
  refine ⟨rfl, congrArg some ?_⟩
  cases text : (s.live space p.op.key).text with
  | none => rw [if_neg (not_not.mpr (absent.mpr text))]; rfl
  | some t =>
      have there : (s.live space p.op.key).rev ≠ 0 := fun zero => by rw [absent.mp zero] at text; cases text
      rw [if_pos there]
      rfl

/-- A write to the space: a new rev, with a row for each key it changes. -/
theorem Recorded.write (recorded : Recorded s space past time low) (kept' : Store.Kept s')
    (plan : s.planWrite b moment space ops indexed = .ok planned) (some_effective : planned.any Planned.effective = true)
    (wrote : Wrote moment space who mark planned s s')
    (later : ∀ r, 1 ≤ r → r ≤ s.headRev space → time r ≤ moment.now) :
    Recorded s' space (Function.update past (s.headRev space + 1) (s'.text space))
      (Function.update time (s.headRev space + 1) moment.now) low := by
  have head : s'.headRev space = s.headRev space + 1 := by rw [(Store.wrote_heads wrote space).1, if_pos rfl]
  have nonneg := recorded.kept.nonneg space
  have past_old : ∀ r ≤ s.headRev space,
      Function.update past (s.headRev space + 1) (s'.text space) r = past r :=
    fun r le => Function.update_of_ne (by omega) ..
  have time_old : ∀ r ≤ s.headRev space,
      Function.update time (s.headRev space + 1) moment.now r = time r :=
    fun r le => Function.update_of_ne (by omega) ..
  obtain ⟨q, q_listed, q_effective⟩ := List.any_eq_true.mp some_effective
  have landed := fun p listed effective => KeyedTable.mem_of_get (wrote.lands.change p listed effective)
  constructor
  case kept => exact kept'
  case now => rw [head, Function.update_self]
  case explains =>
    rw [head]
    refine recorded.explains.commit past_old ?_ ?_ ?_
    · rintro u ⟨c, member, here, rfl⟩
      exact ⟨c, change_stays recorded.kept wrote member, here, rfl⟩
    · intro key changed
      rw [Function.update_self, ← recorded.now] at changed
      obtain ⟨p, listed, effective, rfl⟩ : ∃ p ∈ planned, p.effective = true ∧ p.op.key = key := by
        by_contra none_own
        refine changed (congrArg Live.text (wrote_apart wrote fun p listed effective same => ?_))
        exact none_own ⟨p, listed, effective, (Prod.ext_iff.mp same).2⟩
      exact ⟨_, ⟨_, landed p listed effective, rfl, rfl⟩, rfl, rfl⟩
    · rintro u ⟨c, member, here, rfl⟩
      rcases Store.wrote_change wrote member with ⟨p, listed, -, rfl⟩ | old
      · obtain ⟨prev, kind⟩ := change_prev recorded.kept plan listed who (s.headRev space + 1)
          p.text.isNone (mark.map (·.id))
        refine .inr ⟨rfl, ?_⟩
        rw [ChangeRow.undo, kind, prev, recorded.now]
        rfl
      · exact .inl ⟨⟨c, old, here, rfl⟩, here ▸ recorded.kept.change c old⟩
  case low_pos => exact recorded.low_pos
  case low_le =>
    have := recorded.low_le
    omega
  case above =>
    intro c member here
    rcases Store.wrote_change wrote member with ⟨p, -, -, rfl⟩ | old
    · exact recorded.low_le
    · exact recorded.above c old here
  case dense =>
    rw [head]
    intro r from_low to_head
    rcases Int.lt_or_eq_of_le to_head with below | rfl
    · obtain ⟨c, member, at_r⟩ := recorded.dense r from_low (by omega)
      exact ⟨c, change_stays recorded.kept wrote member, at_r⟩
    · exact ⟨_, landed q q_listed q_effective, rfl, rfl⟩
  case kinds =>
    intro c member here
    rcases Store.wrote_change wrote member with ⟨p, listed, -, rfl⟩ | old
    · obtain ⟨prev, kind⟩ := change_prev recorded.kept plan listed who (s.headRev space + 1)
        p.text.isNone (mark.map (·.id))
      exact .inr (by rw [kind, prev])
    · exact recorded.kinds c old here
  case times =>
    intro c member here
    rcases Store.wrote_change wrote member with ⟨p, -, -, rfl⟩ | old
    · exact (Function.update_self (s.headRev space + 1) moment.now time).symm
    · rw [recorded.times c old here, time_old c.rev (here ▸ recorded.kept.change c old)]
  case updated =>
    have row := wrote.spaces
    rw [head, if_neg (by omega), Function.update_self, row, KeyedTable.get_upsert, Store.counted_space, if_pos rfl,
      Option.map_some, Store.counted_updatedAt]
  case ordered =>
    rw [head]
    intro i j i_pos le to_head
    rcases Int.lt_or_eq_of_le to_head with below | rfl
    · rw [time_old i (by omega), time_old j (by omega)]
      exact recorded.ordered i j i_pos le (by omega)
    · rw [Function.update_self]
      rcases Int.lt_or_eq_of_le le with before | rfl
      · rw [time_old i (by omega)]
        exact later i i_pos (by omega)
      · rw [Function.update_self]

end Write

/-! ## The reaper -/

theorem reap_text (s : Store) (now : Int) (space : Space) : (s.reap now).1.text space = s.text space := by
  funext key
  rw [Store.text, Store.reap_live, Store.text]

theorem Recorded.reap (recorded : Recorded s space past time low) (now : Int) :
    ∃ low', Recorded (s.reap now).1 space past time low' := by
  have head := Store.reap_headRev s now space
  obtain ⟨cut, low_le, cut_le, taken⟩ := UndoLog.exists_cut (P := fun r => time r < now - changeLogKeepSecs)
    recorded.low_le fun i j from_low le to_head old => by
      have := recorded.low_pos
      have := recorded.ordered i j (by omega) le to_head
      omega
  have mem : ∀ c, c.space = space → (c ∈ (s.reap now).1.changes.rows ↔ c ∈ s.changes.rows ∧ cut ≤ c.rev) := by
    intro c here
    have rows : c ∈ (s.reap now).1.changes.rows ↔ c ∈ s.changes.rows ∧ ¬ c.time < now - changeLogKeepSecs := by
      simp [Store.reap]
    rw [rows]
    refine and_congr_right fun member => ?_
    have below := taken c.rev (recorded.above c member here) (here ▸ recorded.kept.change c member)
    rw [recorded.times c member here, below]
    exact not_lt
  refine ⟨cut, ?_⟩
  constructor
  case kept => exact recorded.kept.reap now
  case now => rw [reap_text, head]; exact recorded.now
  case explains =>
    rw [head]
    refine recorded.explains.prune low_le ?_ ?_
    · rintro u ⟨c, member, here, rfl⟩ from_cut
      exact ⟨_, ⟨c, (mem c here).mpr ⟨member, from_cut⟩, here, rfl⟩, rfl, rfl⟩
    · rintro u ⟨c, member, here, rfl⟩
      exact .inl ⟨c, ((mem c here).mp member).1, here, rfl⟩
  case low_pos => exact recorded.low_pos.trans low_le
  case low_le => rw [head]; exact cut_le
  case above => exact fun c member here => ((mem c here).mp member).2
  case dense =>
    rw [head]
    intro r from_cut to_head
    obtain ⟨c, member, here, rfl⟩ := recorded.dense r (low_le.trans from_cut) to_head
    exact ⟨c, (mem c here).mpr ⟨member, from_cut⟩, here, rfl⟩
  case kinds => exact fun c member here => recorded.kinds c ((mem c here).mp member).1 here
  case times => exact fun c member here => recorded.times c ((mem c here).mp member).1 here
  case updated =>
    rw [head, ← recorded.updated, Store.reap_spaces, Option.map_map]
    congr 1
    funext row
    simp only [Function.comp_apply]
    split <;> rfl
  case ordered => rw [head]; exact recorded.ordered

/-! ## The trim -/

/-- Some rows were cleared, and nothing else that a space's history reads. -/
structure Faded (s s' : Store) : Prop where
  entries : s'.entries = s.entries
  spaces : s'.spaces = s.spaces
  from_old : ∀ c' ∈ s'.changes.rows, ∃ c ∈ s.changes.rows, c' = c ∨ c' = c.clear
  stays : ∀ c ∈ s.changes.rows, c ∈ s'.changes.rows ∨ c.clear ∈ s'.changes.rows

theorem Faded.refl (s : Store) : Faded s s :=
  ⟨rfl, rfl, fun c member => ⟨c, member, .inl rfl⟩, fun _ member => .inl member⟩

theorem Faded.trans {s'' : Store} (first : Faded s s') (second : Faded s' s'') : Faded s s'' where
  entries := second.entries.trans first.entries
  spaces := second.spaces.trans first.spaces
  from_old c'' member := by
    obtain ⟨c', member', rfl | rfl⟩ := second.from_old c'' member
    · exact first.from_old c'' member'
    · obtain ⟨c, there, rfl | rfl⟩ := first.from_old c' member'
      · exact ⟨c', there, .inr rfl⟩
      · exact ⟨c, there, .inr rfl⟩
  stays c member := by
    rcases first.stays c member with same | cleared
    · exact second.stays c same
    · exact .inr ((second.stays _ cleared).elim id id)

theorem trimSpace_faded (max : Int) (s : Store × Nat) (full : Space × Int) :
    Faded s.1 (Store.trimSpace max s full).1 := by
  simp only [Store.trimSpace]
  split
  next => exact Faded.refl s.1
  next cut _ =>
    refine ⟨rfl, rfl, ?_, ?_⟩
    · intro c' member
      obtain ⟨c, there, rfl⟩ := (KeyedTable.mem_updateWhere _ _ ChangeRow.clear (fun _ => rfl) _).mp member
      refine ⟨c, there, ?_⟩
      split
      · exact .inr rfl
      · exact .inl rfl
    · intro c member
      by_cases chosen : (decide (c.space = full.1) && decide (c.rev ≤ cut) && c.prevKind.isSome) = true
      · exact .inr ((KeyedTable.mem_updateWhere _ _ ChangeRow.clear (fun _ => rfl) _).mpr ⟨c, member, if_pos chosen⟩)
      · exact .inl ((KeyedTable.mem_updateWhere _ _ ChangeRow.clear (fun _ => rfl) _).mpr ⟨c, member, if_neg chosen⟩)

theorem trimHistory_faded (s : Store) (max now : Int) : Faded s (s.trimHistory max now).1 := by
  have folded : ∀ (fulls : List (Space × Int)) (n : Nat),
      Faded s (fulls.foldl (Store.trimSpace max) (s, n)).1 := by
    intro fulls
    induction fulls using List.reverseRecOn with
    | nil => exact fun n => Faded.refl s
    | append_singleton fulls full ih =>
        intro n
        rw [List.foldl_append]
        exact (ih n).trans (trimSpace_faded max _ full)
  have trimmed := folded (s.overfull max) 0
  exact ⟨trimmed.entries, trimmed.spaces, trimmed.from_old, trimmed.stays⟩

theorem Faded.kept (faded : Faded s s') (kept : Store.Kept s) : Store.Kept s' := by
  have heads : s'.headRev = s.headRev := by
    funext other
    rw [Store.headRev, faded.spaces, Store.headRev]
  constructor
  case rev => rw [faded.entries, heads]; exact kept.rev
  case size => rw [faded.entries]; exact kept.size
  case change =>
    rw [heads]
    intro c' member
    obtain ⟨c, there, rfl | rfl⟩ := faded.from_old c' member
    · exact kept.change c' there
    · exact kept.change c there
  case nonneg => rw [heads]; exact kept.nonneg
  case bytes =>
    simp only [Store.headBytes, Store.liveBytes, faded.spaces, faded.entries]
    exact kept.bytes
  case keys =>
    simp only [Store.headKeys, Store.liveKeys, faded.spaces, faded.entries]
    exact kept.keys
  case bytes_le =>
    simp only [Store.headBytes, faded.spaces]
    exact kept.bytes_le
  case keys_le =>
    simp only [Store.headKeys, faded.spaces]
    exact kept.keys_le

theorem Faded.text (faded : Faded s s') : s'.text = s.text := by
  funext other key
  simp only [Store.text, Store.live, faded.entries]

theorem Recorded.faded (recorded : Recorded s space past time low) (faded : Faded s s') :
    Recorded s' space past time low := by
  have head : s'.headRev space = s.headRev space := by rw [Store.headRev, faded.spaces, Store.headRev]
  constructor
  case kept => exact faded.kept recorded.kept
  case now => rw [faded.text, head]; exact recorded.now
  case explains =>
    rw [head]
    refine recorded.explains.prune le_rfl ?_ ?_
    · rintro u ⟨c, member, here, rfl⟩ -
      rcases faded.stays c member with same | cleared
      · exact ⟨_, ⟨c, same, here, rfl⟩, rfl, rfl⟩
      · exact ⟨_, ⟨c.clear, cleared, here, rfl⟩, rfl, rfl⟩
    · rintro u ⟨c', member, here, rfl⟩
      obtain ⟨c, there, rfl | rfl⟩ := faded.from_old c' member
      · exact .inl ⟨c', there, here, rfl⟩
      · exact .inr rfl
  case low_pos => exact recorded.low_pos
  case low_le => rw [head]; exact recorded.low_le
  case above =>
    intro c' member here
    obtain ⟨c, there, rfl | rfl⟩ := faded.from_old c' member
    · exact recorded.above c' there here
    · exact recorded.above c there here
  case dense =>
    rw [head]
    intro r from_low to_head
    obtain ⟨c, member, at_r⟩ := recorded.dense r from_low to_head
    rcases faded.stays c member with same | cleared
    · exact ⟨c, same, at_r⟩
    · exact ⟨c.clear, cleared, at_r⟩
  case kinds =>
    intro c' member here
    obtain ⟨c, there, rfl | rfl⟩ := faded.from_old c' member
    · exact recorded.kinds c' there here
    · exact .inl rfl
  case times =>
    intro c' member here
    obtain ⟨c, there, rfl | rfl⟩ := faded.from_old c' member
    · exact recorded.times c' there here
    · exact recorded.times c there here
  case updated => rw [head, faded.spaces]; exact recorded.updated
  case ordered => rw [head]; exact recorded.ordered

/-! ## One step, and a run -/

/-- A step at a time no rev was written after: at most one more rev, at that time. -/
theorem Recorded.step (recorded : Recorded s space past time low) (b : Backend) (now : Int) (step : HistoryStep)
    (later : ∀ r, 1 ≤ r → r ≤ s.headRev space → time r ≤ now) :
    ∃ past' time' low', Recorded (s.historyStep b (now, step)) space past' time' low' ∧
      (∀ r ≤ s.headRev space, past' r = past r ∧ time' r = time r) ∧
      ((s.historyStep b (now, step)).headRev space = s.headRev space ∨
        ((s.historyStep b (now, step)).headRev space = s.headRev space + 1 ∧
          time' (s.headRev space + 1) = now)) := by
  cases step with
  | write fileBytes target ops who indexed mark =>
      simp only [Store.historyStep]
      rcases writeWith_cases b s ⟨now, fileBytes⟩ target ops who indexed mark with
        ⟨e, refused⟩ | ⟨planned, plan, ⟨-, idle⟩ | ⟨some_effective, s', wrote, answer⟩⟩
      · rw [refused]
        exact ⟨past, time, low, recorded, fun _ _ => ⟨rfl, rfl⟩, .inl rfl⟩
      · rw [idle]
        exact ⟨past, time, low, recorded, fun _ _ => ⟨rfl, rfl⟩, .inl rfl⟩
      · rw [answer]
        have kept' := recorded.kept.write plan wrote
        have head := (Store.wrote_heads wrote space).1
        by_cases here : space = target
        · subst here
          rw [if_pos rfl] at head
          refine ⟨_, _, low, recorded.write kept' plan some_effective wrote later, fun r le => ⟨?_, ?_⟩,
            .inr ⟨head, Function.update_self ..⟩⟩
          · exact Function.update_of_ne (by omega) ..
          · exact Function.update_of_ne (by omega) ..
        · rw [if_neg here] at head
          exact ⟨past, time, low, recorded.write_apart kept' wrote here, fun _ _ => ⟨rfl, rfl⟩, .inl head⟩
  | reap =>
      obtain ⟨low', recorded'⟩ := recorded.reap now
      exact ⟨past, time, low', recorded', fun _ _ => ⟨rfl, rfl⟩, .inl (Store.reap_headRev s now space)⟩
  | trim max =>
      have faded := trimHistory_faded s max now
      refine ⟨past, time, low, recorded.faded faded, fun _ _ => ⟨rfl, rfl⟩, .inl ?_⟩
      exact congrArg (fun spaces : KeyedTable SpaceRow.space => ((spaces.get space).map (·.rev)).getD 0) faded.spaces

end Recorded

namespace Timeline

theorem upTo_of_isPrefix (run : Timeline) (t : Int) : run.upTo t <+: run := List.takeWhile_prefix _

theorem upTo_of_le {run : Timeline} {t : Int} (all : ∀ e ∈ run, e.1 ≤ t) : run.upTo t = run :=
  List.takeWhile_eq_self_iff.mpr fun e member => decide_eq_true (all e member)

theorem upTo_append_of_le {run : Timeline} {t : Int} (all : ∀ e ∈ run, e.1 ≤ t) (e : Int × HistoryStep) :
    upTo (run ++ [e]) t = if e.1 ≤ t then run ++ [e] else run := by
  rw [upTo, List.takeWhile_append_of_pos fun e member => decide_eq_true (all e member)]
  by_cases within : e.1 ≤ t <;> simp [within]

theorem upTo_append_of_gt {run : Timeline} {t : Int} (beyond : ∃ e ∈ run, t < e.1) (e : Int × HistoryStep) :
    upTo (run ++ [e]) t = run.upTo t := by
  obtain ⟨late, member, after⟩ := beyond
  rw [upTo, List.takeWhile_append, if_neg, upTo]
  intro full
  have whole := (upTo_of_isPrefix run t).eq_of_length full
  have := of_decide_eq_true (List.takeWhile_eq_self_iff.mp whole late member)
  omega

theorem forward_append {run : Timeline} {e : Int × HistoryStep} (forward : Forward (run ++ [e])) :
    run.Forward ∧ ∀ early ∈ run, early.1 ≤ e.1 := by
  rw [Forward, List.map_append, List.map_singleton, List.pairwise_append] at forward
  exact ⟨forward.1, fun early member => forward.2.2 _ (List.mem_map_of_mem member) _ (List.mem_singleton.mpr rfl)⟩

end Timeline

theorem ran_append (b : Backend) (run : Timeline) (e : Int × HistoryStep) :
    Store.ran b (run ++ [e]) = (Store.ran b run).historyStep b e := List.foldl_concat ..

/-- What a run did to a space, rev by rev: what its keys held after each, and when
    each was written. -/
structure Traced (b : Backend) (space : Space) (run : Timeline) (past : Int → String → Option String)
    (time : Int → Int) : Prop where
  recorded : ∃ low, Recorded (Store.ran b run) space past time low
  early : ∀ early, early <+: run → 0 ≤ (Store.ran b early).headRev space ∧
    (Store.ran b early).headRev space ≤ (Store.ran b run).headRev space ∧
    (Store.ran b early).text space = past ((Store.ran b early).headRev space)
  reached : ∀ r, 0 ≤ r → r ≤ (Store.ran b run).headRev space →
    ∃ early, early <+: run ∧ (Store.ran b early).headRev space = r
  asOf : ∀ t r, 1 ≤ r → r ≤ (Store.ran b run).headRev space →
    (time r ≤ t ↔ r ≤ (Store.ran b (run.upTo t)).headRev space)

theorem traced (b : Backend) (space : Space) (run : Timeline) (forward : run.Forward) :
    ∃ past time, Traced b space run past time := by
  induction run using List.reverseRecOn with
  | nil =>
      refine ⟨_, _, ⟨1, recorded_empty space⟩, ?_, ?_, ?_⟩
      · intro early pre
        rw [List.prefix_nil.mp pre]
        exact ⟨le_rfl, le_rfl, rfl⟩
      · intro r nonneg le
        exact ⟨[], List.prefix_rfl, le_antisymm nonneg le⟩
      · intro t r pos le
        have head : (Store.ran b []).headRev space = 0 := rfl
        omega
  | append_singleton run e ih =>
      obtain ⟨forward, before⟩ := Timeline.forward_append forward
      obtain ⟨past, time, trace⟩ := ih forward
      obtain ⟨low, recorded⟩ := trace.recorded
      obtain ⟨now, step⟩ := e
      have later : ∀ r, 1 ≤ r → r ≤ (Store.ran b run).headRev space → time r ≤ now := by
        intro r pos le
        rw [trace.asOf now r pos le, Timeline.upTo_of_le before]
        exact le
      obtain ⟨past', time', low', recorded', old, grown⟩ := recorded.step b now step later
      rw [← ran_append] at recorded' grown
      have grows : (Store.ran b run).headRev space ≤ (Store.ran b (run ++ [(now, step)])).headRev space := by
        rcases grown with same | ⟨more, -⟩ <;> omega
      have newest : ∀ r, (Store.ran b run).headRev space < r →
          r ≤ (Store.ran b (run ++ [(now, step)])).headRev space → time' r = now := by
        intro r new le
        rcases grown with same | ⟨more, at_now⟩
        · omega
        · obtain rfl : r = (Store.ran b run).headRev space + 1 := by omega
          exact at_now
      refine ⟨past', time', ⟨low', recorded'⟩, ?_, ?_, ?_⟩
      · intro early pre
        rcases List.prefix_concat_iff.mp pre with rfl | pre
        · exact ⟨recorded'.kept.nonneg space, le_rfl, recorded'.now⟩
        · obtain ⟨nonneg, le, text⟩ := trace.early early pre
          exact ⟨nonneg, le.trans grows, text.trans (old _ le).1.symm⟩
      · intro r nonneg le
        rcases Int.lt_or_le ((Store.ran b run).headRev space) r with new | within
        · refine ⟨_, List.prefix_rfl, ?_⟩
          rcases grown with same | ⟨more, -⟩ <;> omega
        · obtain ⟨early, pre, head⟩ := trace.reached r nonneg within
          exact ⟨early, pre.trans (List.prefix_append _ _), head⟩
      · intro t r pos le
        by_cases all : ∀ e ∈ run, e.1 ≤ t
        · -- every step before is within `t`: only the last one can be beyond it
          rw [Timeline.upTo_append_of_le all]
          rcases Int.lt_or_le ((Store.ran b run).headRev space) r with new | within
          · rw [newest r new le]
            split <;> omega
          · have whole := trace.asOf t r pos within
            rw [Timeline.upTo_of_le all] at whole
            rw [(old r within).2]
            refine ⟨fun _ => ?_, fun _ => whole.mpr within⟩
            split
            · exact le
            · exact within
        · simp only [not_forall, not_le] at all
          obtain ⟨late, member, after⟩ := all
          have := before late member
          rw [Timeline.upTo_append_of_gt ⟨late, member, after⟩]
          have cut := (trace.early _ (Timeline.upTo_of_isPrefix run t)).2.1
          rcases Int.lt_or_le ((Store.ran b run).headRev space) r with new | within
          · rw [newest r new le]
            simp only at after this
            omega
          · rw [(old r within).2]
            exact trace.asOf t r pos within

end K2.GardenData
