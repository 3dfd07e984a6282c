import K2.LoginThrottle.Limiter
import Mathlib.Logic.Function.Basic

/-! # Runs of the limiter

Whatever is called in whatever order, a table holds at most `CAPACITY` keys of
its own door, and under each key the newest of its hits, no more than one over
the limit it was last recorded with. -/

namespace K2.LoginThrottle

structure Table.Sound (door : Door) (hist : String → List Int) (limits : String → Option Nat) (t : Table) : Prop where
  size : t.rows.length ≤ CAPACITY
  own : ∀ row ∈ t.rows, table row.1 = door
  filled : t.Filled
  newest : ∀ row ∈ t.rows, row.2 <:+ hist row.1
  short : ∀ row ∈ t.rows, ∃ limit ∈ limits row.1, row.2.length ≤ limit + 1

namespace Table

section
variable {door : Door} {hist : String → List Int} {limits : String → Option Nat}

theorem sound_empty : Sound door hist limits (.empty : Table) where
  size := Nat.zero_le _
  own _ mem := absurd mem List.not_mem_nil
  filled _ mem := absurd mem List.not_mem_nil
  newest _ mem := absurd mem List.not_mem_nil
  short _ mem := absurd mem List.not_mem_nil

theorem Sound.shrunk {t t' : Table} (sound : Sound door hist limits t) (h : Shrunk t t') :
    Sound door hist limits t' where
  size := h.length_le.trans sound.size
  own row mem := by
    obtain ⟨_, q, before, _⟩ := h row mem
    exact sound.own (row.1, q) before
  filled := h.filled
  newest row mem := by
    obtain ⟨_, q, before, suffix⟩ := h row mem
    exact suffix.trans (sound.newest _ before)
  short row mem := by
    obtain ⟨_, q, before, suffix⟩ := h row mem
    obtain ⟨limit, last, bound⟩ := sound.short _ before
    exact ⟨limit, last, suffix.length_le.trans bound⟩

theorem length_insert_of_mem {t : Table} {key : String} {old : List Int} (mem : (key, old) ∈ t.rows) (q : List Int) :
    (t.insert key q).rows.length = t.rows.length := by
  simp only [FinMap.insert, KeyedTable.upsert]
  rw [if_pos (List.mem_map.mpr ⟨(key, old), mem, rfl⟩), List.length_map]

/-- The table into which a hit is pushed. -/
def readied (order : HashOrder) (t : Table) (key : String) (now : Int) : Table :=
  makeRoom order (t.pruneKey key now) key now

theorem check_and_record_eq (order : HashOrder) (t : Table) (key : String) (limit : Nat) (now : Int) :
    t.checkAndRecord order key limit now =
      ((readied order t key now).insert key ((readied order t key now).pushed key limit now),
        if limit < ((readied order t key now).pushed key limit now).length then .Limited else .Allow) := rfl

theorem shrunk_readied {t : Table} (filled : t.Filled) (order : HashOrder) (key : String) (now : Int) :
    Shrunk t (readied order t key now) :=
  have pruned := shrunk_prune_key filled key now
  pruned.trans (shrunk_make_room pruned.filled order key now)

theorem length_recorded {t : Table} (bounded : t.rows.length ≤ CAPACITY) (filled : t.Filled) (order : HashOrder)
    (key : String) (now : Int) (q : List Int) : ((readied order t key now).insert key q).rows.length ≤ CAPACITY := by
  have pruned := (shrunk_prune_key filled key now).length_le.trans bounded
  cases found : (t.pruneKey key now).hits key with
  | some old =>
    have unchanged : readied order t key now = t.pruneKey key now := by
      rw [readied, makeRoom, if_neg (fun both => by rw [found] at both; cases both.1)]
    rw [unchanged, length_insert_of_mem (hits_eq_some.mp found)]
    exact pruned
  | none =>
    have room : (readied order t key now).rows.length < CAPACITY := length_make_room pruned order found
    have absent : (readied order t key now).get key = none := by
      have shrunk := shrunk_make_room (shrunk_prune_key filled key now).filled order key now
      refine KeyedTable.get_eq_none.mpr fun row mem same => ?_
      obtain ⟨_, old, before, _⟩ := shrunk row mem
      exact hits_eq_none.mp found _ before same
    rw [FinMap.insert, KeyedTable.rows_upsert_of_get absent, List.length_append, List.length_singleton]
    exact room

theorem pushed_suffix {t : Table} {past : List Int} {key : String} (newest : ∀ q, t.hits key = some q → q <:+ past)
    (limit : Nat) (now : Int) : t.pushed key limit now <:+ past ++ [now] := by
  have kept : (t.hits key).getD [] <:+ past := by
    cases found : t.hits key with
    | none => exact List.nil_suffix
    | some q => exact newest q found
  obtain ⟨front, whole⟩ := kept
  exact (SlidingWindow.rtake_suffix ..).trans ⟨front, by rw [← List.append_assoc, whole]⟩

theorem Sound.recorded {t : Table} (sound : Sound door hist limits t) {key : String} (own : table key = door)
    (order : HashOrder) (limit : Nat) (now : Int) :
    Sound door (Function.update hist key (hist key ++ [now])) (Function.update limits key (some limit))
      (t.checkAndRecord order key limit now).1 := by
  have ready := sound.shrunk (shrunk_readied sound.filled order key now)
  have pushed : (readied order t key now).pushed key limit now <:+ hist key ++ [now] :=
    pushed_suffix (fun q found => ready.newest _ (hits_eq_some.mp found)) limit now
  rw [check_and_record_eq]
  refine ⟨length_recorded sound.size sound.filled .., ?_, ?_, ?_, ?_⟩
  all_goals
    intro row mem
    rcases (KeyedTable.mem_upsert ..).mp mem with rfl | ⟨before, other⟩
  · exact own
  · exact ready.own row before
  · refine List.ne_nil_of_length_pos ?_
    rw [Table.pushed, SlidingWindow.length_rtake, List.length_append, List.length_singleton]
    omega
  · exact ready.filled row before
  · rw [Function.update_self]
    exact pushed
  · rw [Function.update_of_ne other]
    exact ready.newest row before
  · refine ⟨limit, Function.update_self .., ?_⟩
    rw [Table.pushed, SlidingWindow.length_rtake]
    exact Nat.min_le_left ..
  · rw [Function.update_of_ne other]
    exact ready.short row before

end

theorem Sound.elsewhere {door : Door} {hist : String → List Int} {limits : String → Option Nat} {t : Table}
    (sound : Sound door hist limits t) {key : String} (other : table key ≠ door) (hits : List Int)
    (limit : Option Nat) : Sound door (Function.update hist key hits) (Function.update limits key limit) t := by
  have away : ∀ row ∈ t.rows, row.1 ≠ key := fun row mem same => other (same ▸ sound.own row mem)
  refine ⟨sound.size, sound.own, sound.filled, fun row mem => ?_, fun row mem => ?_⟩
  · rw [Function.update_of_ne (away row mem)]
    exact sound.newest row mem
  · rw [Function.update_of_ne (away row mem)]
    exact sound.short row mem

end Table

/-! ## What was called -/

def Call.records (call : Call) : Bool := call.operation ≠ .isLimited

def recorded (calls : List Call) (key : String) : List Call :=
  calls.filter fun call => call.records ∧ call.bucket = key

/-- The times of a key's recorded attempts, in the order of the calls. -/
def hitsOf (calls : List Call) (key : String) : List Int := (recorded calls key).map Call.now

/-- The limit a key was last recorded with. -/
def lastLimit (calls : List Call) (key : String) : Option Nat := (recorded calls key).getLast?.map Call.limit

section
variable (calls : List Call) {call : Call}

theorem recorded_append (key : String) :
    recorded (calls ++ [call]) key =
      if call.records ∧ call.bucket = key then recorded calls key ++ [call] else recorded calls key := by
  rw [recorded, List.filter_append]
  by_cases h : call.records ∧ call.bucket = key
  · rw [if_pos h, List.filter_cons_of_pos (by simpa using h)]
    rfl
  · rw [if_neg h, List.filter_cons_of_neg (by simpa using h), List.filter_nil, List.append_nil]
    rfl

theorem hitsOf_recorded (records : call.records) :
    hitsOf (calls ++ [call]) =
      Function.update (hitsOf calls) call.bucket (hitsOf calls call.bucket ++ [call.now]) := by
  funext key
  by_cases same : call.bucket = key
  · rw [← same, Function.update_self, hitsOf, recorded_append, if_pos ⟨records, rfl⟩, List.map_append]
    rfl
  · rw [Function.update_of_ne (Ne.symm same), hitsOf, recorded_append, if_neg (fun h => same h.2)]
    rfl

theorem lastLimit_recorded (records : call.records) :
    lastLimit (calls ++ [call]) = Function.update (lastLimit calls) call.bucket (some call.limit) := by
  funext key
  by_cases same : call.bucket = key
  · rw [← same, Function.update_self, lastLimit, recorded_append, if_pos ⟨records, rfl⟩, List.getLast?_concat]
    rfl
  · rw [Function.update_of_ne (Ne.symm same), lastLimit, recorded_append, if_neg (fun h => same h.2)]
    rfl

theorem recorded_asked (asks : call.records = false) : recorded (calls ++ [call]) = recorded calls := by
  funext key
  rw [recorded_append, if_neg (fun h => by rw [asks] at h; cases h.1)]

theorem hitsOf_asked (asks : call.records = false) : hitsOf (calls ++ [call]) = hitsOf calls := by
  funext key
  rw [hitsOf, recorded_asked calls asks]
  rfl

theorem lastLimit_asked (asks : call.records = false) : lastLimit (calls ++ [call]) = lastLimit calls := by
  funext key
  rw [lastLimit, recorded_asked calls asks]
  rfl

end

/-- What a call leaves in its table. -/
def left (t : Table) (call : Call) : Table :=
  if call.records then (t.checkAndRecord call.order call.bucket call.limit call.now).1
  else t.pruneKey call.bucket call.now

theorem tableOf_step (s : Store) (call : Call) (door : Door) :
    (step s call).1.tableOf door =
      if door = table call.bucket then left (s.tableOf (table call.bucket)) call else s.tableOf door := by
  rw [← Store.tableOf_put]
  unfold step left Call.records
  cases call.operation <;> rfl

theorem run_append (calls : List Call) (call : Call) : run (calls ++ [call]) = (step (run calls) call).1 := by
  rw [run, List.foldl_append]
  rfl

/-- Every table is sound after any calls, with any times and limits. -/
theorem sound_run (calls : List Call) (door : Door) :
    Table.Sound door (hitsOf calls) (lastLimit calls) ((run calls).tableOf door) := by
  induction calls using List.reverseRecOn generalizing door with
  | nil => cases door <;> exact Table.sound_empty
  | append_singleton calls call ih =>
    rw [run_append, tableOf_step]
    by_cases own : door = table call.bucket
    · subst own
      rw [if_pos rfl, left]
      cases records : call.records with
      | false =>
        rw [if_neg (by decide), hitsOf_asked calls records, lastLimit_asked calls records]
        exact (ih _).shrunk (Table.shrunk_prune_key (ih _).filled _ _)
      | true =>
        rw [if_pos rfl, hitsOf_recorded calls records, lastLimit_recorded calls records]
        exact (ih _).recorded rfl ..
    · rw [if_neg own]
      cases records : call.records with
      | false =>
        rw [hitsOf_asked calls records, lastLimit_asked calls records]
        exact ih door
      | true =>
        rw [hitsOf_recorded calls records, lastLimit_recorded calls records]
        exact (ih door).elsewhere (Ne.symm own) ..

end K2.LoginThrottle
