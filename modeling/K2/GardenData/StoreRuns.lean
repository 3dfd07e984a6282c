import K2.GardenData.Bookkeeping

/-! # Runs of the store

Any sequence of calls from the empty store, each at any time and with a file of
any size: the counters of every space stay right, and every write stamps what it
changed.
-/

namespace K2.GardenData

/-- A call, with the moment it finds. -/
inductive Call where
  | put (moment : Moment) (space : Space) (key : String) (value : Value) (ifRev : Option Int) (who : String)
  | delete (moment : Moment) (space : Space) (key : String) (ifRev : Option Int) (who : String)
  | apply (moment : Moment) (space : Space) (ops : List Op) (who : String)
  | moveSpace (source target : Space)
  | dropSpace (space : Space) (now : Int) (rand : String)
  | reap (now : Int)
  deriving Repr

/-- The space and the ops of a write. -/
def Call.writes : Call → Option (Space × List Op)
  | .put _ space key value ifRev _ => some (space, [.put key value ifRev])
  | .delete _ space key ifRev _ => some (space, [.delete key ifRev])
  | .apply _ space ops _ => some (space, ops)
  | .moveSpace .. | .dropSpace .. | .reap _ => none

namespace Store

variable (b : Backend)

/-- The store after a call, and the rev it answers, if any. -/
def call (s : Store) : Call → Store × Except DataError (Option Int)
  | .put moment space key value ifRev who =>
      let (s, answer) := s.put b moment space key value ifRev who
      (s, answer.map some)
  | .delete moment space key ifRev who => s.delete b moment space key ifRev who
  | .apply moment space ops who =>
      let (s, answer) := s.apply b moment space ops who
      (s, answer.map some)
  | .moveSpace source target =>
      let (s, answer) := s.moveSpace source target
      (s, answer.map fun _ => none)
  | .dropSpace space now rand =>
      let (s, answer) := s.dropSpace space now rand
      (s, answer.map fun _ => none)
  | .reap now => ((s.reap now).1, .ok none)

variable {b} {s : Store}

/-- A write call is the core write of its ops, but for the empty batch. -/
theorem call_of_writes {c : Call} {space : Space} {ops : List Op} (writes : c.writes = some (space, ops)) :
    (ops = [] ∧ ∃ m, s.call b c = (s, .error (.badRequest m))) ∨
      ∃ moment who indexed, ∃ f : Int × Bool → Option Int, s.call b c =
        ((s.write b moment space ops who indexed).1, (s.write b moment space ops who indexed).2.map f) := by
  cases c with
  | put moment space key value ifRev who =>
      cases writes
      refine .inr ⟨moment, who, false, fun a => some a.1, ?_⟩
      simp only [call, put]
      cases (s.write b moment space [.put key value ifRev] who false).2 <;> rfl
  | delete moment space key ifRev who =>
      cases writes
      exact .inr ⟨moment, who, false, _, rfl⟩
  | apply moment space ops who =>
      cases writes
      cases ops with
      | nil => exact .inl ⟨rfl, _, rfl⟩
      | cons op rest =>
          refine .inr ⟨moment, who, true, fun a => some a.1, ?_⟩
          simp only [call, apply, List.isEmpty_cons, Bool.false_eq_true, if_false]
          cases (s.write b moment space (op :: rest) who true).2 <;> rfl
  | moveSpace source target => cases writes
  | dropSpace space now rand => cases writes
  | reap now => cases writes

theorem Kept.after_write (kept : Kept s) (b : Backend) (moment : Moment) (space : Space) (ops : List Op)
    (who : String) (indexed : Bool) (mark : Option RestoreMark) :
    Kept (s.writeWith b moment space ops who indexed mark).1 := by
  have outcome := kept.outcome b moment space ops who indexed mark
  generalize s.writeWith b moment space ops who indexed mark = result at outcome ⊢
  cases outcome with
  | refused e why => exact kept
  | idle matched untouched => exact kept
  | wrote s' matched some_touched stamped kept' => exact kept'

theorem Kept.call (kept : Kept s) (c : Call) : Kept (s.call b c).1 := by
  cases writes : c.writes with
  | some target =>
      rcases call_of_writes (b := b) (s := s) writes with ⟨-, m, refused⟩ | ⟨moment, who, indexed, f, same⟩
      · rw [refused]
        exact kept
      · rw [same]
        exact kept.after_write b moment target.1 target.2 who indexed none
  | none =>
      cases c with
      | put moment space key value ifRev who => cases writes
      | delete moment space key ifRev who => cases writes
      | apply moment space ops who => cases writes
      | moveSpace source target => exact kept.moveSpace source target
      | dropSpace space now rand => exact kept.dropSpace space now rand
      | reap now => exact kept.reap now

theorem kept_of_run (b : Backend) (calls : List Call) :
    Kept (History.after (Store.call b) .empty calls) :=
  History.invariant (P := fun _ s => Kept s) kept_empty (fun _ _ c kept => kept.call c) calls

theorem Kept.row (kept : Kept s) {row : SpaceRow} (member : row ∈ s.spaces.rows) :
    row.bytes = s.liveBytes row.space ∧ row.keys = s.liveKeys row.space ∧
      row.bytes ≤ (limits row.space).1 ∧ row.keys ≤ (limits row.space).2 := by
  have found := KeyedTable.get_of_mem member
  have bytes : s.headBytes row.space = row.bytes := by simp [headBytes, found]
  have keys : s.headKeys row.space = row.keys := by simp [headKeys, found]
  rw [← bytes, ← keys]
  exact ⟨kept.bytes _, kept.keys _, kept.bytes_le _, kept.keys_le _⟩

theorem Kept.spaceRow (kept : Kept s) {e : EntryRow} (member : e ∈ s.entries.rows) :
    ∃ row, s.spaces.get e.space = some row ∧ e.rev ≤ row.rev := by
  obtain ⟨positive, below⟩ := kept.rev e member
  cases found : s.spaces.get e.space with
  | none =>
      rw [(heads_of_none found).1] at below
      omega
  | some row =>
      rw [headRev_of_get found] at below
      exact ⟨row, rfl, below⟩

theorem Kept.tombstone (kept : Kept s) {e : EntryRow} (member : e ∈ s.entries.rows)
    (gone : e.deleted = true) : e.size = 0 ∧ e.value = none := by
  have value := EntryRow.value_of_deleted gone
  refine ⟨?_, value⟩
  rw [kept.size e member, value]
  rfl

theorem Kept.live_rev (kept : Kept s) (space : Space) (key : String) : (s.live space key).rev = 0 ↔
    ¬ ∃ e, s.entries.get (space, key) = some e ∧ e.deleted = false := by
  cases found : s.entries.get (space, key) with
  | none => simp [live_of_none found]
  | some e =>
      have rev := (kept.rev e (KeyedTable.mem_of_get found)).1
      rw [live_of_some found]
      cases gone : e.deleted with
      | true => simp [gone]
      | false =>
          have : e.rev ≠ 0 := by omega
          simp [gone, this]

theorem Kept.answers (kept : Kept s) {c : Call} {space : Space} {ops : List Op}
    (writes : c.writes = some (space, ops)) :
    (∀ e, (s.call b c).2 = .error e → (s.call b c).1 = s ∧
      ∀ key rev op, e = .conflict key rev op → Mismatch s space ops key rev) ∧
    ∀ rev, (s.call b c).2 = .ok rev →
      (∀ op ∈ ops, ∀ n, op.ifRev = some n → n = (s.live space op.key).rev) ∧
      (s.touched b space ops = [] → (s.call b c).1 = s) ∧
      (s.touched b space ops ≠ [] → Stamped s (s.call b c).1 space (s.touched b space ops)) := by
  rcases call_of_writes (b := b) (s := s) writes with ⟨-, m, refused⟩ | ⟨moment, who, indexed, f, same⟩
  · rw [refused]
    constructor
    · intro e error
      cases error
      exact ⟨rfl, fun key rev op same => by cases same⟩
    · intro rev ok
      cases ok
  · have outcome := kept.outcome b moment space ops who indexed none
    rw [same]
    simp only [Store.write]
    generalize s.writeWith b moment space ops who indexed none = result at outcome ⊢
    cases outcome with
    | refused e why =>
        constructor
        · intro e' error
          cases error
          exact ⟨rfl, why⟩
        · intro rev ok
          cases ok
    | idle matched untouched =>
        constructor
        · intro e error
          cases error
        · intro rev _
          exact ⟨matched, fun _ => rfl, fun some_touched => absurd untouched some_touched⟩
    | wrote s' matched some_touched stamped kept' =>
        constructor
        · intro e error
          cases error
        · intro rev _
          exact ⟨matched, fun untouched => absurd untouched some_touched, fun _ => stamped⟩

end Store

/-- In every store reached from the empty one the counters are right, and a write
    is refused whole, changes nothing, or stamps what it changes. -/
theorem bookkept (b : Backend) (calls : List Call) :
    let s := History.after (Store.call b) Store.empty calls
    (∀ row ∈ s.spaces.rows, row.bytes = s.liveBytes row.space ∧ row.keys = s.liveKeys row.space ∧
      row.bytes ≤ (limits row.space).1 ∧ row.keys ≤ (limits row.space).2) ∧
    (∀ e ∈ s.entries.rows, (∃ row, s.spaces.get e.space = some row ∧ e.rev ≤ row.rev) ∧
      (e.deleted = true → e.size = 0 ∧ e.value = none)) ∧
    (∀ space key, (s.live space key).rev = 0 ↔
      ¬ ∃ e, s.entries.get (space, key) = some e ∧ e.deleted = false) ∧
    ∀ (c : Call) (space : Space) (ops : List Op), c.writes = some (space, ops) →
      (∀ e, (s.call b c).2 = .error e → (s.call b c).1 = s ∧
        ∀ key rev op, e = .conflict key rev op → Mismatch s space ops key rev) ∧
      ∀ rev, (s.call b c).2 = .ok rev →
        (∀ op ∈ ops, ∀ n, op.ifRev = some n → n = (s.live space op.key).rev) ∧
        (s.touched b space ops = [] → (s.call b c).1 = s) ∧
        (s.touched b space ops ≠ [] →
          Store.Stamped s (s.call b c).1 space (s.touched b space ops)) := by
  intro s
  have kept : Store.Kept s := Store.kept_of_run b calls
  exact ⟨fun row => kept.row, fun e member => ⟨kept.spaceRow member, kept.tombstone member⟩,
    kept.live_rev, fun c space ops => kept.answers⟩

/-- A store whose JSON reader knows one document. -/
def smallBackend : Backend where
  maxFileBytes := 1024
  fromStr := fun t => if t = "1" then .ok (.number (.int 1)) else .error "expected value at line 1 column 1"

/-- One put at a second. -/
def smallPut (now n : Int) (ifRev : Option Int) : Call :=
  .put ⟨now, 0⟩ ⟨"data:board"⟩ "obj/1" (.number (.int n)) ifRev "owner"

theorem bookkept_two_puts :
    let s := History.after (Store.call smallBackend) Store.empty [smallPut 0 1 (some 0)]
    Store.Stamped s (s.call smallBackend (smallPut 1 25 (some 1))).1 ⟨"data:board"⟩ ["obj/1"] :=
  ((bookkept smallBackend [smallPut 0 1 (some 0)]).2.2.2 (smallPut 1 25 (some 1)) _ _ rfl).2 (some 2)
    rfl |>.2.2 (by decide +kernel)

end K2.GardenData
