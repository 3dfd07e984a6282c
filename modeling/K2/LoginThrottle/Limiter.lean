import K2.Lib.Windows
import K2.Lib.Table
import Mathlib.Algebra.Group.Int.Defs
import Mathlib.Data.List.MinMax
import Mathlib.Data.List.Perm.Subperm

/-! # The login limiter

Per-key queues of login times in one table for each door. A full table sweeps
what has expired and then evicts a key, the one whose newest hit is oldest; which
of several such keys it finds first depends on the order of the hash map, so
every call carries an order. -/

namespace K2.LoginThrottle

def WINDOW_SECS : Int := 300

def CAPACITY : Nat := 4096

def SKIN_KEY_PREFIX : String := "skin:"

def RESET_KEY_PREFIX : String := "reset:"

def PAIR_KEY_PREFIX : String := "apppair:"

inductive Verdict
  | Allow
  | Limited
deriving DecidableEq, Repr

/-- `i64::saturatingSub`. -/
def saturatingSub (a b : Int) : Int := max (-2 ^ 63) (min (2 ^ 63 - 1) (a - b))

def expired (now t : Int) : Bool := decide (WINDOW_SECS ≤ saturatingSub now t)

theorem expired_iff {now t : Int} : expired now t = true ↔ 300 ≤ now - t := by
  unfold expired saturatingSub WINDOW_SECS
  rw [decide_eq_true_iff, le_max_iff, le_min_iff]
  constructor
  · rintro (low | ⟨_, h⟩)
    · exact absurd low (by decide)
    · exact h
  · exact fun h => .inr ⟨by decide, h⟩

/-- The 300 s before a time. -/
def window : SlidingWindow Int where
  live now t := !expired now t
  later {now t t'} after alive := by
    rw [Bool.not_eq_true', ← Bool.not_eq_true, expired_iff] at *
    omega
  gone {now now' t} after alive := by
    rw [Bool.not_eq_true', ← Bool.not_eq_true, expired_iff] at *
    omega

theorem live_iff {now t : Int} : window.live now t = true ↔ now - t < 300 := by
  have h : expired now t = true ↔ 300 ≤ now - t := expired_iff
  simp only [window, Bool.not_eq_true', ← Bool.not_eq_true, h]
  omega

def pruneQueue (q : List Int) (now : Int) : List Int := q.dropWhile fun t => expired now t

theorem prune_queue_eq (q : List Int) (now : Int) : pruneQueue q now = window.prune now q := by
  simp [pruneQueue, SlidingWindow.prune, window]

/-- A key and its hits, oldest first. -/
abbrev Row := String × List Int

/-- The order in which a hash map happens to list its rows. -/
structure HashOrder where
  list : List Row → List Row
  perm : ∀ rows, (list rows).Perm rows

def HashOrder.insertion : HashOrder := ⟨id, List.Perm.refl⟩

abbrev Table := FinMap String (List Int)

namespace Table

def hits (t : Table) (key : String) : Option (List Int) := t.lookup key

def pruneKey (t : Table) (key : String) (now : Int) : Table :=
  match t.hits key with
  | some q =>
    if pruneQueue q now = [] then t.erase key else t.insert key (pruneQueue q now)
  | none => t

def sweepExpired (t : Table) (now : Int) : Table :=
  (t.updateWhere (fun _ => true) (fun row => (row.1, pruneQueue row.2 now)) fun _ => rfl).deleteWhere
    fun row => row.2 = []

/-- `i64::MIN` for no hits. -/
def latest (row : Row) : Int := row.2.getLast?.getD (-2 ^ 63)

/-- The first listed row whose newest hit is the oldest. -/
def oldest (rows : List Row) : Option Row := @List.argmin Row Int Int.instLinearOrder.toPreorder inferInstance latest rows

def evictLeastRecent (order : HashOrder) (t : Table) : Table :=
  match oldest (order.list t.rows) with
  | some victim => t.erase victim.1
  | none => t

/-- A full table makes room for a key that is new to it. -/
def makeRoom (order : HashOrder) (t : Table) (key : String) (now : Int) : Table :=
  if t.hits key = none ∧ CAPACITY ≤ t.rows.length then
    if CAPACITY ≤ (t.sweepExpired now).rows.length then (t.sweepExpired now).evictLeastRecent order
    else t.sweepExpired now
  else t

/-- The key's hits after this one. A queue never reaches `usize::MAX` hits, so
    that `limit + 1` needs no saturation. -/
def pushed (t : Table) (key : String) (limit : Nat) (now : Int) : List Int :=
  ((t.hits key).getD [] ++ [now]).rtake (limit + 1)

def checkAndRecord (order : HashOrder) (t : Table) (key : String) (limit : Nat) (now : Int) : Table × Verdict :=
  let roomy := makeRoom order (t.pruneKey key now) key now
  let q := roomy.pushed key limit now
  (roomy.insert key q, if limit < q.length then .Limited else .Allow)

def isLimited (t : Table) (key : String) (limit : Nat) (now : Int) : Table × Bool :=
  let pruned := t.pruneKey key now
  (pruned, (pruned.hits key).any fun q => limit ≤ q.length)

end Table

inductive Door
  | Connect
  | Skin
  | Reset
  | AppPair
deriving DecidableEq, Repr

structure Store where
  connect : Table
  skin : Table
  reset : Table
  pair : Table

namespace Store

def default : Store := ⟨KeyedTable.empty, KeyedTable.empty, KeyedTable.empty, KeyedTable.empty⟩

def tableOf (s : Store) : Door → Table
  | .Connect => s.connect
  | .Skin => s.skin
  | .Reset => s.reset
  | .AppPair => s.pair

def put (s : Store) (door : Door) (t : Table) : Store :=
  match door with
  | .Connect => { s with connect := t }
  | .Skin => { s with skin := t }
  | .Reset => { s with reset := t }
  | .AppPair => { s with pair := t }

theorem tableOf_put (s : Store) (door other : Door) (t : Table) :
    (s.put door t).tableOf other = if other = door then t else s.tableOf other := by
  cases door <;> cases other <;> rfl

end Store

def startsWith (key start : String) : Bool := start.toList.isPrefixOf key.toList

/-- The door whose table a key counts in. -/
def table (key : String) : Door :=
  if startsWith key SKIN_KEY_PREFIX then .Skin
  else if startsWith key RESET_KEY_PREFIX then .Reset
  else if startsWith key PAIR_KEY_PREFIX then .AppPair
  else .Connect

/-- An empty key counts as `-`. -/
def effective (key : String) : String := if key = "" then "-" else key

inductive Operation
  | checkAndRecordWithLimit
  | isLimited
  | recordWithLimit
deriving DecidableEq, Repr

structure Call where
  operation : Operation
  key : String
  limit : Nat
  now : Int
  order : HashOrder

inductive Answer
  | verdict (v : Verdict)
  | limited (b : Bool)
  | done
deriving DecidableEq, Repr

def Call.bucket (call : Call) : String := effective call.key

/-- One call under the lock. -/
def step (s : Store) (call : Call) : Store × Answer :=
  let key := call.bucket
  let t := s.tableOf (table key)
  match call.operation with
  | .checkAndRecordWithLimit =>
    let r := t.checkAndRecord call.order key call.limit call.now
    (s.put (table key) r.1, .verdict r.2)
  | .isLimited =>
    let r := t.isLimited key call.limit call.now
    (s.put (table key) r.1, .limited r.2)
  | .recordWithLimit => (s.put (table key) (t.checkAndRecord call.order key call.limit call.now).1, .done)

def run (calls : List Call) : Store := calls.foldl (fun s call => (step s call).1) Store.default

end K2.LoginThrottle

/-! ## What the table operations keep

Pruning, sweeping and eviction only take hits away: every row that is left was
there before, under its key, with the same newest hit. -/

namespace K2.LoginThrottle.Table

/-- Every row is what is left of one. -/
def Shrunk (t t' : Table) : Prop := ∀ row ∈ t'.rows, row.2 ≠ [] ∧ ∃ q, (row.1, q) ∈ t.rows ∧ row.2 <:+ q

/-- No key without hits. -/
def Filled (t : Table) : Prop := ∀ row ∈ t.rows, row.2 ≠ []

theorem Shrunk.refl {t : Table} (filled : t.Filled) : Shrunk t t :=
  fun row mem => ⟨filled row mem, row.2, mem, List.suffix_refl _⟩

theorem Shrunk.trans {t t' t'' : Table} (h : Shrunk t t') (h' : Shrunk t' t'') : Shrunk t t'' := by
  intro row mem
  obtain ⟨filled, q', mem', suffix'⟩ := h' row mem
  obtain ⟨_, q, mem, suffix⟩ := h _ mem'
  exact ⟨filled, q, mem, suffix'.trans suffix⟩

theorem Shrunk.filled {t t' : Table} (h : Shrunk t t') : t'.Filled := fun row mem => (h row mem).1

/-- A table has no more rows than there are keys it takes them from. -/
theorem length_le_of_keys {t : Table} {keys : List String} (sub : ∀ row ∈ t.rows, row.1 ∈ keys) :
    t.rows.length ≤ keys.length := by
  have listed : t.rows.map Prod.fst ⊆ keys := by
    intro key mem
    obtain ⟨row, member, rfl⟩ := List.mem_map.mp mem
    exact sub row member
  have bound := (List.subperm_of_subset t.distinct listed).length_le
  rwa [List.length_map] at bound

theorem Shrunk.length_le {t t' : Table} (h : Shrunk t t') : t'.rows.length ≤ t.rows.length := by
  have bound : t'.rows.length ≤ (t.rows.map Prod.fst).length := length_le_of_keys fun row mem => by
    obtain ⟨_, q, before, _⟩ := h row mem
    exact List.mem_map.mpr ⟨(row.1, q), before, rfl⟩
  rwa [List.length_map] at bound

theorem hits_eq_some {t : Table} {key : String} {q : List Int} : t.hits key = some q ↔ (key, q) ∈ t.rows :=
  FinMap.mem_rows_iff.symm

theorem hits_eq_none {t : Table} {key : String} : t.hits key = none ↔ ∀ row ∈ t.rows, row.1 ≠ key := by
  rw [hits, FinMap.lookup, Option.map_eq_none_iff, KeyedTable.get_eq_none]

theorem prune_queue_suffix (q : List Int) (now : Int) : pruneQueue q now <:+ q := List.dropWhile_suffix _

theorem prune_key_of_none {t : Table} {key : String} (absent : t.hits key = none) (now : Int) :
    t.pruneKey key now = t := by
  rw [pruneKey, absent]

theorem prune_key_of_some {t : Table} {key : String} {q : List Int} (present : t.hits key = some q) (now : Int) :
    t.pruneKey key now =
      if pruneQueue q now = [] then t.erase key else t.insert key (pruneQueue q now) := by
  rw [pruneKey, present]

theorem shrunk_prune_key {t : Table} (filled : t.Filled) (key : String) (now : Int) : Shrunk t (t.pruneKey key now) := by
  cases found : t.hits key with
  | none =>
    rw [prune_key_of_none found]
    exact Shrunk.refl filled
  | some q =>
    rw [prune_key_of_some found]
    by_cases empty : pruneQueue q now = []
    · rw [if_pos empty]
      exact fun row mem => Shrunk.refl filled row ((KeyedTable.mem_deleteWhere ..).mp mem).1
    · rw [if_neg empty]
      intro row mem
      rcases (KeyedTable.mem_upsert ..).mp mem with rfl | ⟨before, _⟩
      · exact ⟨empty, q, hits_eq_some.mp found, prune_queue_suffix q now⟩
      · exact Shrunk.refl filled row before

theorem mem_sweep_expired {t : Table} {now : Int} {row : Row} :
    row ∈ (t.sweepExpired now).rows ↔ row.2 ≠ [] ∧ ∃ q, (row.1, q) ∈ t.rows ∧ row.2 = pruneQueue q now := by
  rw [sweepExpired, KeyedTable.mem_deleteWhere, KeyedTable.mem_updateWhere, decide_eq_false_iff_not, and_comm]
  refine and_congr_right fun _ => ?_
  constructor
  · rintro ⟨old, mem, rfl⟩
    exact ⟨old.2, mem, rfl⟩
  · rintro ⟨q, mem, same⟩
    exact ⟨(row.1, q), mem, Prod.ext rfl same.symm⟩

theorem shrunk_sweep_expired (t : Table) (now : Int) : Shrunk t (t.sweepExpired now) := by
  intro row mem
  obtain ⟨filled, q, mem, same⟩ := mem_sweep_expired.mp mem
  exact ⟨filled, q, mem, same ▸ prune_queue_suffix q now⟩

/-- Only one key goes, and no row has an older newest hit. -/
theorem evicted {order : HashOrder} {t : Table} {row : Row} (mem : row ∈ t.rows)
    (dropped : row ∉ (t.evictLeastRecent order).rows) : ∀ other ∈ t.rows, latest row ≤ latest other := by
  unfold evictLeastRecent at dropped
  cases found : oldest (order.list t.rows) with
  | none =>
    rw [found] at dropped
    exact absurd mem dropped
  | some victim =>
    rw [found] at dropped
    simp only [FinMap.erase, KeyedTable.mem_deleteWhere, decide_eq_false_iff_not, not_and, not_not] at dropped
    have listed : victim ∈ order.list t.rows := List.argmin_mem found
    have same : row = victim := t.eq_of_key mem ((order.perm _).mem_iff.mp listed) (dropped mem)
    intro other member
    rw [same]
    exact List.le_of_mem_argmin ((order.perm _).mem_iff.mpr member) found

theorem shrunk_evict_least_recent {t : Table} (filled : t.Filled) (order : HashOrder) :
    Shrunk t (t.evictLeastRecent order) := by
  unfold evictLeastRecent
  cases oldest (order.list t.rows) with
  | none => exact Shrunk.refl filled
  | some victim => exact fun row mem => Shrunk.refl filled row ((KeyedTable.mem_deleteWhere ..).mp mem).1

theorem length_evict_least_recent {order : HashOrder} {t : Table} (kept : t.rows ≠ []) :
    (t.evictLeastRecent order).rows.length < t.rows.length := by
  unfold evictLeastRecent
  cases found : oldest (order.list t.rows) with
  | none =>
    have none_listed : order.list t.rows = [] := List.argmin_eq_none.mp found
    exact absurd (none_listed ▸ order.perm t.rows).symm.eq_nil kept
  | some victim =>
    have listed := (order.perm t.rows).mem_iff.mp (List.argmin_mem found)
    exact List.length_filter_lt_length_iff_exists.mpr ⟨victim, listed, by simp⟩

theorem shrunk_make_room {t : Table} (filled : t.Filled) (order : HashOrder) (key : String) (now : Int) :
    Shrunk t (makeRoom order t key now) := by
  unfold makeRoom
  have swept := shrunk_sweep_expired t now
  split
  · split
    · exact swept.trans (shrunk_evict_least_recent swept.filled order)
    · exact swept
  · exact Shrunk.refl filled

theorem length_make_room {t : Table} (bounded : t.rows.length ≤ CAPACITY) (order : HashOrder) {key : String}
    {now : Int} (absent : t.hits key = none) : (makeRoom order t key now).rows.length < CAPACITY := by
  unfold makeRoom
  have swept := (shrunk_sweep_expired t now).length_le
  by_cases full : CAPACITY ≤ t.rows.length
  · rw [if_pos ⟨absent, full⟩]
    by_cases still : CAPACITY ≤ (t.sweepExpired now).rows.length
    · rw [if_pos still]
      have kept : (t.sweepExpired now).rows ≠ [] := by
        intro empty
        rw [empty] at still
        exact absurd still (by decide)
      have less : ((t.sweepExpired now).evictLeastRecent order).rows.length < (t.sweepExpired now).rows.length :=
        length_evict_least_recent kept
      omega
    · rw [if_neg still]
      omega
  · rw [if_neg (fun both => full both.2)]
    omega

end K2.LoginThrottle.Table
