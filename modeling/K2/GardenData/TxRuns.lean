import K2.GardenData.Tx

/-! # Transactions over whole runs

Any callers call the table in any order. A history says of each id who began it
last, for which space, and what was staged since; the table always agrees with
it. What a commit takes, and what another caller can reach, follow.
-/

namespace K2.GardenData

open History

inductive TxCall where
  | begin (caller : TxOwner) (space : Space) (now : Int) (draws : List String)
  | spaceOf (id : String) (caller : TxOwner) (now : Int)
  | add (id : String) (caller : TxOwner) (ops : List Op) (now : Int)
  | take (id : String) (caller : TxOwner) (now : Int)
  | abort (id : String) (caller : TxOwner)
  | expire (now : Int)

inductive TxAnswer where
  /-- No fresh id was drawn yet. -/
  | drawing
  | begun (id : String) (expiresAt : Int)
  | space (s : Space)
  | status (s : TxStatus)
  | taken (space : Space) (ops : List Op)
  | aborted (was : Bool)
  | expired (n : Nat)
  | refused (e : DataError)

/-- The id a call presents, and who presents it. -/
def TxCall.presents : TxCall → Option (String × TxOwner)
  | .spaceOf id caller _ | .add id caller _ _ | .take id caller _ | .abort id caller => some (id, caller)
  | .begin .. | .expire _ => none

namespace TxTable

/-- One call on the table and its answer. -/
def step (t : TxTable) : TxCall → TxTable × TxAnswer
  | .begin caller space now draws =>
      match t.begin caller space now draws with
      | (t, none) => (t, .drawing)
      | (t, some (.ok (id, expiresAt))) => (t, .begun id expiresAt)
      | (t, some (.error e)) => (t, .refused e)
  | .spaceOf id caller now =>
      match t.spaceOf id caller now with
      | (t, .ok s) => (t, .space s)
      | (t, .error e) => (t, .refused e)
  | .add id caller ops now =>
      match t.add id caller ops now with
      | (t, .ok s) => (t, .status s)
      | (t, .error e) => (t, .refused e)
  | .take id caller now =>
      match t.take id caller now with
      | (t, .ok (s, ops)) => (t, .taken s ops)
      | (t, .error e) => (t, .refused e)
  | .abort id caller => ((t.abort id caller).1, .aborted (t.abort id caller).2)
  | .expire now => ((t.expire now).1, .expired (t.expire now).2)

/-! ## What each call can do -/

/-- The ways the idle check of `live` can go. -/
inductive Lives (t : TxTable) (id : String) (caller : TxOwner) (now : Int) :
    TxTable × Except DataError Staged → Prop where
  | closed (absent : t.opened.lookup id = none) :
      Lives t id caller now (t, .error (t.missing id caller now))
  | foreign (s : Staged) (found : t.opened.lookup id = some s) (other : s.owner ≠ caller) :
      Lives t id caller now (t, .error .badTx)
  | timedOut (s : Staged) (found : t.opened.lookup id = some s) (own : s.owner = caller) :
      Lives t id caller now
        (rememberExpired { t with opened := t.opened.erase id } id s.owner now, .error .txExpired)
  | live (s : Staged) (found : t.opened.lookup id = some s) (own : s.owner = caller) :
      Lives t id caller now (t, .ok s)

theorem live_lives (t : TxTable) (id : String) (caller : TxOwner) (now : Int) :
    Lives t id caller now (t.live id caller now) := by
  simp only [live]
  cases found : t.opened.lookup id with
  | none => exact .closed found
  | some s =>
      by_cases own : s.owner = caller
      · subst own
        simp only [ne_eq, not_true, if_false]
        split
        · exact .timedOut s found rfl
        · exact .live s found rfl
      · simp only [ne_eq, own, not_false_eq_true, if_true]
        exact .foreign s found own

/-- The ways one call can go. -/
inductive Does (t : TxTable) : TxCall → TxTable → TxAnswer → Prop where
  | busy (caller space now draws) :
      Does t (.begin caller space now draws) (t.expire now).1 (.refused .busy)
  | drawing (caller space now draws) :
      Does t (.begin caller space now draws) (t.expire now).1 .drawing
  | begun (caller space now draws) (draw : String)
      (room : (t.expire now).1.opened.count (fun e => e.2.owner.bucket = caller.bucket) < caller.cap)
      (unused : (t.expire now).1.opened.lookup ((t.expire now).1.epoch ++ draw) = none)
      (forgotten : (t.expire now).1.expired.lookup ((t.expire now).1.epoch ++ draw) = none) :
      Does t (.begin caller space now draws)
        { (t.expire now).1 with
          opened := (t.expire now).1.opened.insert ((t.expire now).1.epoch ++ draw)
            (.fresh caller space now) }
        (.begun ((t.expire now).1.epoch ++ draw) (Staged.fresh caller space now).expiresAt)
  | closed (c : TxCall) (id caller now) (presents : c.presents = some (id, caller))
      (absent : t.opened.lookup id = none) : Does t c t (.refused (t.missing id caller now))
  | foreign (c : TxCall) (id caller) (presents : c.presents = some (id, caller))
      (s : Staged) (found : t.opened.lookup id = some s) (other : s.owner ≠ caller) :
      Does t c t (.refused .badTx)
  | timedOut (c : TxCall) (id caller now) (presents : c.presents = some (id, caller))
      (s : Staged) (found : t.opened.lookup id = some s) (own : s.owner = caller) :
      Does t c (rememberExpired { t with opened := t.opened.erase id } id s.owner now)
        (.refused .txExpired)
  | space (id caller now) (s : Staged) (found : t.opened.lookup id = some s)
      (own : s.owner = caller) : Does t (.spaceOf id caller now) t (.space s.space)
  | dropped (id caller ops now) (s : Staged) (found : t.opened.lookup id = some s)
      (own : s.owner = caller) (e : DataError) :
      Does t (.add id caller ops now) { t with opened := t.opened.erase id } (.refused e)
  | full (id caller ops now) (s : Staged) (found : t.opened.lookup id = some s)
      (own : s.owner = caller) : Does t (.add id caller ops now) t (.refused .busy)
  | staged (id caller ops now) (s : Staged) (found : t.opened.lookup id = some s)
      (own : s.owner = caller) (fits : partFailure s ops = none)
      (room : t.stagedBytes + opsBytes ops ≤ maxTxStagedBytes) (st : TxStatus) :
      Does t (.add id caller ops now)
        { t with opened := t.opened.insert id (s.extend ops now fits) } (.status st)
  | empty (id caller now) (s : Staged) (found : t.opened.lookup id = some s)
      (own : s.owner = caller) (e : DataError) :
      Does t (.take id caller now) { t with opened := t.opened.erase id } (.refused e)
  | taken (id caller now) (s : Staged) (found : t.opened.lookup id = some s)
      (own : s.owner = caller) :
      Does t (.take id caller now) { t with opened := t.opened.erase id } (.taken s.space s.ops)
  | notAborted (id caller) (other : ∀ s, t.opened.lookup id = some s → s.owner ≠ caller) :
      Does t (.abort id caller) t (.aborted false)
  | aborted (id caller) (s : Staged) (found : t.opened.lookup id = some s)
      (own : s.owner = caller) :
      Does t (.abort id caller) { t with opened := t.opened.erase id } (.aborted true)
  | expired (now n) : Does t (.expire now) (t.expire now).1 (.expired n)

private theorem filter_values (m : FinMap String Staged) (p : Staged → Bool) :
    (m.values.filter p).length = m.count fun e => p e.2 := by
  simp [FinMap.values, KeyedTable.count, List.filter_map, List.countP_eq_length_filter,
    Function.comp_def]

/-- What presenting an id comes to: a refusal, or the caller's own open transaction. -/
theorem live_cases (t : TxTable) {c : TxCall} {id : String} {caller : TxOwner} (now : Int)
    (presents : c.presents = some (id, caller)) :
    (∃ t' e, t.live id caller now = (t', .error e) ∧ Does t c t' (.refused e)) ∨
      ∃ s, t.live id caller now = (t, .ok s) ∧ t.opened.lookup id = some s ∧ s.owner = caller := by
  have lives := live_lives t id caller now
  generalize t.live id caller now = answer at lives ⊢
  cases lives with
  | closed absent => exact .inl ⟨_, _, rfl, .closed c id caller now presents absent⟩
  | foreign s found other => exact .inl ⟨_, _, rfl, .foreign c id caller presents s found other⟩
  | timedOut s found own => exact .inl ⟨_, _, rfl, .timedOut c id caller now presents s found own⟩
  | live s found own => exact .inr ⟨s, rfl, found, own⟩

theorem step_does (t : TxTable) (c : TxCall) : Does t c (t.step c).1 (t.step c).2 := by
  cases c with
  | begin caller space now draws =>
      simp only [step, TxTable.begin, filter_values]
      split
      · rename_i h
        split at h
        · cases h
        · split at h
          · cases h
            exact .drawing ..
          · cases h
      · rename_i h
        split at h
        · cases h
        · rename_i roomy
          split at h
          · cases h
          · rename_i id drawn
            cases h
            obtain ⟨draw, -, rfl⟩ := List.mem_map.mp (List.mem_of_find?_eq_some drawn)
            have fresh := List.find?_some drawn
            simp only [Bool.and_eq_true, Option.isNone_iff_eq_none] at fresh
            exact .begun caller space now draws draw (not_le.mp roomy) fresh.1 fresh.2
      · rename_i h
        split at h
        · cases h
          exact .busy ..
        · split at h <;> cases h
  | spaceOf id caller now =>
      rcases t.live_cases (c := .spaceOf id caller now) now rfl with
        ⟨t', e, refused, does⟩ | ⟨s, alive, found, own⟩
      · simpa only [step, TxTable.spaceOf, refused, Except.map] using does
      · simpa only [step, TxTable.spaceOf, alive, Except.map] using Does.space id caller now s found own
  | add id caller ops now =>
      rcases t.live_cases (c := .add id caller ops now) now rfl with
        ⟨t', e, refused, does⟩ | ⟨s, alive, found, own⟩
      · simpa only [step, TxTable.add, refused] using does
      · simp only [step, TxTable.add, alive]
        split
        · rename_i h
          split at h
          · cases h
          · rename_i fits
            split at h
            · cases h
            · rename_i room
              cases h
              exact .staged id caller ops now s found own fits (not_lt.mp room) _
        · rename_i h
          split at h
          · cases h
            exact .dropped id caller ops now s found own _
          · split at h
            · cases h
              exact .full id caller ops now s found own
            · cases h
  | take id caller now =>
      rcases t.live_cases (c := .take id caller now) now rfl with
        ⟨t', e, refused, does⟩ | ⟨s, alive, found, own⟩
      · simpa only [step, TxTable.take, refused] using does
      · simp only [step, TxTable.take, alive]
        by_cases empty : s.ops.isEmpty = true
        · simp only [empty, if_true]
          exact .empty id caller now s found own _
        · simp only [empty]
          exact .taken id caller now s found own
  | abort id caller =>
      simp only [step, TxTable.abort]
      cases found : t.opened.lookup id with
      | none => exact .notAborted id caller (by simp [found])
      | some s =>
          by_cases own : s.owner = caller
          · simp only [own, if_true]
            exact .aborted id caller s found own
          · simp only [own, if_false]
            exact .notAborted id caller fun s' found' => by
              rw [found] at found'
              cases found'
              exact own
  | expire now => exact .expired now _

/-! ## What a history says of an id -/

end TxTable

/-- A transaction as its callers know it. -/
structure Begun where
  owner : TxOwner
  space : Space
  ops : List Op

/-- What one more answered call says of the transaction under `id`. -/
def noteTx (id : String) (b : Option Begun) : TxCall × TxAnswer → Option Begun
  | (.begin caller space _ _, .begun drawn _) => if drawn = id then some ⟨caller, space, []⟩ else b
  | (.add other _ ops _, .status _) =>
      if other = id then b.map fun x => { x with ops := x.ops ++ ops } else b
  | _ => b

/-- The transaction the last `begin` of `id` opened, with the ops of every
    successful `add` on it since. -/
def begunTx (id : String) (h : List (TxCall × TxAnswer)) : Option Begun := h.foldl (noteTx id) none

@[simp] theorem begunTx_snoc (id : String) (h : List (TxCall × TxAnswer)) (e : TxCall × TxAnswer) :
    begunTx id (h ++ [e]) = noteTx id (begunTx id h) e := by
  simp [begunTx]

def TxAnswer.begins (id : String) : TxAnswer → Bool
  | .begun drawn _ => drawn = id
  | _ => false

namespace TxTable

/-- The table agrees with what its history says of each id. -/
structure Agrees (h : List (TxCall × TxAnswer)) (t : TxTable) : Prop where
  opened : ∀ id s, t.opened.lookup id = some s → begunTx id h = some ⟨s.owner, s.space, s.ops⟩
  expired : ∀ id o expiredAt, t.expired.lookup id = some (o, expiredAt) →
    ∃ b, begunTx id h = some b ∧ b.owner = o
  epoch : ∀ id b, begunTx id h = some b → t.ofEpoch id = true

/-! ### Timing out -/

@[simp] theorem rememberExpired_opened (t : TxTable) (id : String) (o : TxOwner) (now : Int) :
    (t.rememberExpired id o now).opened = t.opened := rfl

@[simp] theorem rememberExpired_epoch (t : TxTable) (id : String) (o : TxOwner) (now : Int) :
    (t.rememberExpired id o now).epoch = t.epoch := rfl

private theorem lookup_deleteWhere {m : FinMap String (TxOwner × Int)} {p} {id : String} {v}
    (found : FinMap.lookup (m.deleteWhere p) id = some v) : m.lookup id = some v := by
  rw [← FinMap.mem_rows_iff] at found ⊢
  exact ((KeyedTable.mem_deleteWhere _ _ _).mp found).1

theorem rememberExpired_lookup {t : TxTable} {id : String} {o : TxOwner} {now : Int} {other : String}
    {v} (found : (t.rememberExpired id o now).expired.lookup other = some v) :
    (id = other ∧ v = (o, now)) ∨ t.expired.lookup other = some v := by
  simp only [rememberExpired, FinMap.lookup_insert] at found
  split at found
  · rename_i same
    exact .inl ⟨same, (Option.some.inj found).symm⟩
  · refine .inr ?_
    split at found
    · split at found
      · exact lookup_deleteWhere (lookup_deleteWhere found)
      · exact lookup_deleteWhere found
    · exact lookup_deleteWhere found

/-- What an id that is not open anew leaves agreeing: its transaction closed, and
    perhaps remembered for its owner. -/
theorem Agrees.erase {h : List (TxCall × TxAnswer)} {t : TxTable} (agrees : Agrees h t) (id : String) :
    Agrees h { t with opened := t.opened.erase id } := by
  refine ⟨fun other s found => ?_, agrees.expired, agrees.epoch⟩
  rw [FinMap.lookup_erase] at found
  split at found
  · cases found
  · exact agrees.opened other s found

theorem Agrees.timeOut {h : List (TxCall × TxAnswer)} {t : TxTable} (agrees : Agrees h t) {id : String}
    {s : Staged} (found : t.opened.lookup id = some s) (now : Int) :
    Agrees h (rememberExpired { t with opened := t.opened.erase id } id s.owner now) := by
  have closed := agrees.erase id
  refine ⟨closed.opened, fun other o expiredAt remembered => ?_, closed.epoch⟩
  rcases rememberExpired_lookup remembered with ⟨rfl, same⟩ | before
  · cases same
    exact ⟨_, agrees.opened _ s found, rfl⟩
  · exact agrees.expired other o expiredAt before

theorem Agrees.dropIdle {h : List (TxCall × TxAnswer)} {t : TxTable} (agrees : Agrees h t) (now : Int)
    (id : String) : Agrees h (t.dropIdle now id) := by
  simp only [TxTable.dropIdle]
  split
  · rename_i s found
    exact agrees.timeOut found now
  · exact agrees

theorem Agrees.expire {h : List (TxCall × TxAnswer)} {t : TxTable} (agrees : Agrees h t) (now : Int) :
    Agrees h (t.expire now).1 :=
  List.foldlRecOn _ _ agrees fun _ kept id _ => kept.dropIdle now id

theorem ofEpoch_append (t : TxTable) (draw : String) : t.ofEpoch (t.epoch ++ draw) = true := by
  simp [ofEpoch, String.toList_append]

/-! ### One call -/

/-- A call that neither begins nor stages leaves what the history says. -/
private theorem Agrees.silent {h : List (TxCall × TxAnswer)} {t : TxTable} (agrees : Agrees h t)
    {e : TxCall × TxAnswer} (silent : ∀ id b, noteTx id b e = b) : Agrees (h ++ [e]) t := by
  exact ⟨by simpa only [begunTx_snoc, silent] using agrees.opened,
    by simpa only [begunTx_snoc, silent] using agrees.expired,
    by simpa only [begunTx_snoc, silent] using agrees.epoch⟩

theorem Agrees.begun {h : List (TxCall × TxAnswer)} {t : TxTable} (agrees : Agrees h t) (caller : TxOwner)
    (space : Space) (now : Int) (draws : List String) (draw : String)
    (forgotten : t.expired.lookup (t.epoch ++ draw) = none) (expiresAt : Int) :
    Agrees (h ++ [(.begin caller space now draws, .begun (t.epoch ++ draw) expiresAt)])
      { t with opened := t.opened.insert (t.epoch ++ draw) (.fresh caller space now) } := by
  refine ⟨fun id s found => ?_, fun id o expiredAt remembered => ?_, fun id b said => ?_⟩
  · rw [FinMap.lookup_insert] at found
    split at found
    · rename_i same
      cases found
      simp [noteTx, same, Staged.fresh]
    · rename_i different
      simp only [begunTx_snoc, noteTx, if_neg different]
      exact agrees.opened id s found
  · have different : t.epoch ++ draw ≠ id := fun same => by
      rw [same] at forgotten
      exact absurd (forgotten.symm.trans remembered) (by simp)
    simp only [begunTx_snoc, noteTx, if_neg different]
    exact agrees.expired id o expiredAt remembered
  · simp only [begunTx_snoc, noteTx] at said
    split at said
    · rename_i same
      subst same
      exact t.ofEpoch_append draw
    · exact agrees.epoch id b said

theorem Agrees.staged {h : List (TxCall × TxAnswer)} {t : TxTable} (agrees : Agrees h t) {id : String}
    (caller : TxOwner) {ops : List Op} (now : Int) {s : Staged} (found : t.opened.lookup id = some s)
    (fits : partFailure s ops = none) (st : TxStatus) :
    Agrees (h ++ [(.add id caller ops now, .status st)])
      { t with opened := t.opened.insert id (s.extend ops now fits) } := by
  refine ⟨fun other s' found' => ?_, fun other o expiredAt remembered => ?_, fun other b said => ?_⟩
  · rw [FinMap.lookup_insert] at found'
    simp only [begunTx_snoc, noteTx]
    split at found'
    · rename_i same
      subst same
      cases found'
      rw [if_pos rfl, agrees.opened id s found]
      rfl
    · rename_i different
      rw [if_neg different]
      exact agrees.opened other s' found'
  · obtain ⟨b, said, owner⟩ := agrees.expired other o expiredAt remembered
    simp only [begunTx_snoc, noteTx, said, Option.map_some]
    split
    · exact ⟨_, rfl, owner⟩
    · exact ⟨_, rfl, owner⟩
  · simp only [begunTx_snoc, noteTx] at said
    split at said
    · obtain ⟨b', said', -⟩ := Option.map_eq_some_iff.mp said
      exact agrees.epoch other b' said'
    · exact agrees.epoch other b said

theorem agrees_step {h : List (TxCall × TxAnswer)} {t : TxTable} (c : TxCall) (agrees : Agrees h t) :
    Agrees (h ++ [(c, (t.step c).2)]) (t.step c).1 := by
  have does := step_does t c
  generalize (t.step c).1 = t' at does ⊢
  generalize (t.step c).2 = a at does ⊢
  cases does with
  | busy caller space now draws => exact (agrees.expire now).silent fun _ _ => rfl
  | drawing caller space now draws => exact (agrees.expire now).silent fun _ _ => rfl
  | begun caller space now draws draw room unused forgotten =>
      exact (agrees.expire now).begun caller space now draws draw forgotten _
  | closed c id caller now presents absent =>
      refine agrees.silent fun other b => ?_
      cases c <;> rfl
  | foreign c id caller presents s found other =>
      refine agrees.silent fun other b => ?_
      cases c <;> rfl
  | timedOut c id caller now presents s found own =>
      refine (agrees.timeOut found now).silent fun other b => ?_
      cases c <;> rfl
  | space id caller now s found own => exact agrees.silent fun _ _ => rfl
  | dropped id caller ops now s found own e => exact (agrees.erase id).silent fun _ _ => rfl
  | full id caller ops now s found own => exact agrees.silent fun _ _ => rfl
  | staged id caller ops now s found own fits room st => exact agrees.staged caller now found fits st
  | empty id caller now s found own e => exact (agrees.erase id).silent fun _ _ => rfl
  | taken id caller now s found own => exact (agrees.erase id).silent fun _ _ => rfl
  | notAborted id caller other => exact agrees.silent fun _ _ => rfl
  | aborted id caller s found own => exact (agrees.erase id).silent fun _ _ => rfl
  | expired now n => exact (agrees.expire now).silent fun _ _ => rfl

theorem agrees_new (epoch : String) : Agrees [] (withEpoch epoch) :=
  ⟨fun _ _ found => by simp [withEpoch] at found, fun _ _ _ found => by simp [withEpoch] at found,
    fun _ _ said => by simp [begunTx] at said⟩

theorem agrees_run (epoch : String) (calls : List TxCall) :
    Agrees (history step (withEpoch epoch) calls) (after step (withEpoch epoch) calls) :=
  invariant (agrees_new epoch) (fun _ _ c agrees => agrees_step c agrees) calls

/-! ## Atomic staging -/

/-- After an owner's part was refused for anything but `busy`, the id is not
    open. -/
theorem closed_after_refusal {h : List (TxCall × TxAnswer)} {t : TxTable} (agrees : Agrees h t)
    {id : String} {caller : TxOwner} {ops : List Op} {now : Int} {e : DataError}
    (refused : (t.step (.add id caller ops now)).2 = .refused e) (notBusy : e ≠ .busy)
    (own : ∀ b, begunTx id h = some b → b.owner = caller) :
    (t.step (.add id caller ops now)).1.opened.lookup id = none := by
  have does := step_does t (.add id caller ops now)
  rw [refused] at does
  generalize (t.step (.add id caller ops now)).1 = t' at does ⊢
  cases does with
  | closed _ id caller now presents absent =>
      cases presents
      exact absent
  | foreign _ id caller presents s found other =>
      cases presents
      exact absurd (own _ (agrees.opened _ s found)) other
  | timedOut _ id caller now presents s found mine =>
      cases presents
      simp [FinMap.lookup_erase]
  | dropped id caller ops now s found own e => simp [FinMap.lookup_erase]
  | full id caller ops now s found mine => exact absurd rfl notBusy

theorem expire_closed {t : TxTable} (now : Int) {id : String} (closed : t.opened.lookup id = none) :
    (t.expire now).1.opened.lookup id = none := by
  refine List.foldlRecOn (motive := fun t : TxTable => t.opened.lookup id = none) _ _ closed
    fun t closed other _ => ?_
  simp only [TxTable.dropIdle]
  split
  · simp [FinMap.lookup_erase, closed]
  · exact closed

/-- A closed id stays closed until a `begin` draws it. -/
theorem closed_step {t : TxTable} {id : String} (c : TxCall) (closed : t.opened.lookup id = none)
    (not_begun : (t.step c).2.begins id = false) : (t.step c).1.opened.lookup id = none := by
  have does := step_does t c
  generalize (t.step c).1 = t' at does ⊢
  generalize (t.step c).2 = a at does not_begun
  have erased : ∀ other, FinMap.lookup (t.opened.erase other) id = none := fun other => by
    simp [FinMap.lookup_erase, closed]
  cases does with
  | busy caller space now draws => exact expire_closed now closed
  | drawing caller space now draws => exact expire_closed now closed
  | begun caller space now draws draw room unused forgotten =>
      have different : ¬ (t.expire now).1.epoch ++ draw = id := by
        simpa [TxAnswer.begins] using not_begun
      rw [FinMap.lookup_insert_of_ne _ _ different]
      exact expire_closed now closed
  | closed => exact closed
  | foreign => exact closed
  | timedOut c other caller now presents s found own => exact erased other
  | space => exact closed
  | dropped other => exact erased other
  | full => exact closed
  | staged other caller ops now s found own fits room st =>
      have different : other ≠ id := fun same => by simp [← same, found] at closed
      rw [FinMap.lookup_insert_of_ne _ _ different]
      exact closed
  | empty other => exact erased other
  | taken other => exact erased other
  | notAborted => exact closed
  | aborted other => exact erased other
  | expired now n => exact expire_closed now closed

/-- What a successful `take` hands back, said by the history before it. -/
theorem taken_begun {h : List (TxCall × TxAnswer)} {t : TxTable} (agrees : Agrees h t) {id : String}
    {caller : TxOwner} {now : Int} {space : Space} {ops : List Op}
    (taken : (t.step (.take id caller now)).2 = .taken space ops) :
    begunTx id h = some ⟨caller, space, ops⟩ ∧ (ops.map Op.key).Nodup ∧ ops.length ≤ maxTxOps ∧
      opsBytes ops ≤ maxTxBytes := by
  have does := step_does t (.take id caller now)
  rw [taken] at does
  generalize (t.step (.take id caller now)).1 = t' at does
  cases does with
  | taken id caller now s found own =>
      exact ⟨own ▸ agrees.opened id s found, s.distinct, s.ops_le, s.bytes_eq ▸ s.bytes_le⟩

theorem not_taken_of_closed {t : TxTable} {id : String} (caller : TxOwner) (now : Int)
    (closed : t.opened.lookup id = none) (space : Space) (ops : List Op) :
    (t.step (.take id caller now)).2 ≠ .taken space ops := by
  intro taken
  have does := step_does t (.take id caller now)
  rw [taken] at does
  generalize (t.step (.take id caller now)).1 = t' at does
  cases does with
  | taken id caller now s found own => simp [found] at closed

theorem Does.presented {t t' : TxTable} {c : TxCall} {a : TxAnswer} (does : Does t c t' a) {id : String}
    {caller : TxOwner} (presents : c.presents = some (id, caller)) :
    (∃ s, t.opened.lookup id = some s ∧ s.owner = caller) ∨
      t' = t ∧ ((∃ now, a = .refused (t.missing id caller now)) ∨ a = .refused .badTx ∨
        c = .abort id caller ∧ a = .aborted false) := by
  cases does with
  | busy | drawing | begun | expired => cases presents
  | closed _ other who now presents' absent =>
      rw [presents] at presents'
      cases presents'
      exact .inr ⟨rfl, .inl ⟨now, rfl⟩⟩
  | foreign => exact .inr ⟨rfl, .inr (.inl rfl)⟩
  | timedOut _ other who now presents' s found own =>
      rw [presents] at presents'
      cases presents'
      exact .inl ⟨s, found, own⟩
  | space | full | taken | aborted =>
      rename_i s found own
      cases presents
      exact .inl ⟨s, found, own⟩
  | dropped | empty =>
      rename_i s found own e
      cases presents
      exact .inl ⟨s, found, own⟩
  | staged other who ops now s found own fits room st =>
      cases presents
      exact .inl ⟨s, found, own⟩
  | notAborted other who =>
      cases presents
      exact .inr ⟨rfl, .inr (.inr ⟨rfl, rfl⟩)⟩

/-- A caller who presents an id somebody else began last is refused, and changes
    nothing. -/
theorem foreign_refused {h : List (TxCall × TxAnswer)} {t : TxTable} (agrees : Agrees h t) {c : TxCall}
    {id : String} {caller : TxOwner} (presents : c.presents = some (id, caller)) {b : Begun}
    (begun : begunTx id h = some b) (foreign : b.owner ≠ caller) :
    t.step c = (t, .refused .badTx) ∨ (t.step c = (t, .aborted false) ∧ c = .abort id caller) := by
  have not_own : ∀ s, t.opened.lookup id = some s → s.owner ≠ caller := fun s found => by
    rw [agrees.opened id s found] at begun
    cases begun
    exact foreign
  have badTx : ∀ now, t.missing id caller now = .badTx := fun now => by
    simp only [missing]
    cases remembered : t.expired.lookup id with
    | none => simp [agrees.epoch id b begun]
    | some e =>
        obtain ⟨b', begun', owner⟩ := agrees.expired id e.1 e.2 remembered
        rw [begun] at begun'
        cases begun'
        simp [← owner, foreign]
  obtain ⟨s, found, own⟩ | ⟨same, refusal⟩ := (step_does t c).presented presents
  · exact absurd own (not_own s found)
  · rcases refusal with ⟨now, answer⟩ | answer | ⟨abort, answer⟩
    · exact .inl (Prod.ext same (answer.trans (by rw [badTx])))
    · exact .inl (Prod.ext same answer)
    · exact .inr ⟨Prod.ext same answer, abort⟩

/-- In every run, a successful `take` hands back the space of the id's `begin` and
    the ops of all successful parts since, in order, each key once and within
    the caps; and after the owner was refused a part for anything but `busy`, no
    `take` of the id succeeds until it is begun anew. Another caller's part is
    refused, and changes nothing. -/
theorem stages_atomically (epoch : String) (calls : List TxCall) :
    (∀ before id caller now space ops later,
      history step (withEpoch epoch) calls =
        before ++ (.take id caller now, .taken space ops) :: later →
      begunTx id before = some ⟨caller, space, ops⟩ ∧ (ops.map Op.key).Nodup ∧
        ops.length ≤ maxTxOps ∧ opsBytes ops ≤ maxTxBytes) ∧
    (∀ before id caller ops now e between taker takenAt answer later,
      history step (withEpoch epoch) calls =
        before ++ (.add id caller ops now, .refused e) ::
          (between ++ (.take id taker takenAt, answer) :: later) →
      e ≠ .busy → (∀ b, begunTx id before = some b → b.owner = caller) →
      (∀ event ∈ between, event.2.begins id = false) →
      ∀ space staged, answer ≠ .taken space staged) ∧
    ∀ id caller ops now b, begunTx id (history step (withEpoch epoch) calls) = some b → b.owner ≠ caller →
      (after step (withEpoch epoch) calls).step (.add id caller ops now) =
        (after step (withEpoch epoch) calls, .refused .badTx) := by
  refine ⟨?_, ?_, fun id caller ops now b begun foreign => ?_⟩
  · intro before id caller now space ops later same
    obtain ⟨done, rest, -, rfl, answered, -⟩ := history_split same
    exact taken_begun (agrees_run epoch done) answered.symm
  · intro before id caller ops now e between taker takenAt answer later same notBusy own unbegun
      space staged
    obtain ⟨done, rest, -, rfl, answered, after_refusal⟩ := history_split same
    obtain ⟨done', rest', -, rfl, answered', -⟩ := history_split after_refusal.symm
    have closed := closed_after_refusal (agrees_run epoch done) answered.symm notBusy own
    have still := keeps (I := fun t : TxTable => t.opened.lookup id = none)
      (Q := fun e : TxCall × TxAnswer => e.2.begins id = false) (fun t c => closed_step c) closed unbegun
    rw [answered']
    exact not_taken_of_closed taker takenAt still space staged
  · exact (foreign_refused (agrees_run epoch calls) (c := .add id caller ops now) rfl begun foreign).resolve_right (by simp)

/-- Another agent presents an open id, and is refused; its owner then commits. -/
def refusedAndTaken : List TxCall :=
  [.begin (.agent "w-1") ⟨"data:board"⟩ 0 ["000000000000000000000000"],
    .add "0badcafe000000000000000000000000" (.agent "w-1") [.delete "obj/1" none] 1,
    .add "0badcafe000000000000000000000000" (.agent "w-2") [.delete "obj/2" none] 2,
    .take "0badcafe000000000000000000000000" (.agent "w-1") 3]

/-- A part that was refused for something else than `busy` need not close the id:
    another caller's part is refused, and leaves the transaction to its owner. -/
theorem taken_after_foreign_refusal :
    ¬ ∀ before id caller ops now e between taker takenAt answer later,
      history step (withEpoch "0badcafe") refusedAndTaken =
        before ++ (.add id caller ops now, .refused e) ::
          (between ++ (.take id taker takenAt, answer) :: later) →
      e ≠ .busy → ∀ space staged, answer ≠ .taken space staged := by
  intro claimed
  refine claimed ((history step (withEpoch "0badcafe") refusedAndTaken).take 2)
    "0badcafe000000000000000000000000" (.agent "w-2") [.delete "obj/2" none] 2 .badTx []
    (.agent "w-1") 3 (.taken ⟨"data:board"⟩ [.delete "obj/1" none]) [] ?_ (by decide)
    ⟨"data:board"⟩ [.delete "obj/1" none] rfl
  rfl

/-! ## Isolation between callers -/

theorem expired_own {h : List (TxCall × TxAnswer)} {t : TxTable} (agrees : Agrees h t) {c : TxCall}
    {id : String} {caller : TxOwner} (presents : c.presents = some (id, caller))
    (here : t.ofEpoch id = true) (answered : (t.step c).2 = .refused .txExpired) :
    ∃ b, begunTx id h = some b ∧ b.owner = caller := by
  obtain ⟨s, found, own⟩ | ⟨-, refusal⟩ := (step_does t c).presented presents
  · exact ⟨_, agrees.opened id s found, own⟩
  · rw [answered] at refusal
    obtain ⟨now, expired⟩ | expired | ⟨-, expired⟩ := refusal
    · simp only [missing] at expired
      cases remembered : t.expired.lookup id with
      | none => simp [remembered, here] at expired
      | some e =>
          obtain ⟨b, begun, owner⟩ := agrees.expired id e.1 e.2 remembered
          refine ⟨b, begun, owner.trans ?_⟩
          by_contra different
          simp [remembered, different] at expired
    · cases expired
    · cases expired

/-- No bucket has more open than its cap, and all staged values fit the daemon's
    budget. -/
structure Capped (t : TxTable) : Prop where
  perBucket : ∀ o : TxOwner, t.opened.count (fun e => e.2.owner.bucket = o.bucket) ≤ o.cap
  staged : t.stagedBytes ≤ maxTxStagedBytes

theorem cap_of_bucket {o o' : TxOwner} (same : o.bucket = o'.bucket) : o.cap = o'.cap := by
  cases o <;> cases o' <;> simp_all [TxOwner.bucket, TxOwner.cap]

theorem stagedBytes_eq (t : TxTable) : t.stagedBytes = t.opened.weigh fun e => e.2.bytes := by
  simp [stagedBytes, FinMap.values, KeyedTable.weigh, Function.comp_def]

theorem Capped.erase {t : TxTable} (capped : Capped t) (id : String) :
    Capped { t with opened := t.opened.erase id } := by
  refine ⟨fun o => ?_, ?_⟩
  · have := t.opened.count_deleteWhere_add (·.1 = id) fun e => e.2.owner.bucket = o.bucket
    have := capped.perBucket o
    simp only [FinMap.erase]
    omega
  · have := capped.staged
    rw [stagedBytes_eq] at this ⊢
    exact (t.opened.weigh_deleteWhere_le _ _).trans this

theorem Capped.dropIdle {t : TxTable} (capped : Capped t) (now : Int) (id : String) :
    Capped (t.dropIdle now id) := by
  simp only [TxTable.dropIdle]
  split
  · exact ⟨(capped.erase id).perBucket, (capped.erase id).staged⟩
  · exact capped

theorem Capped.expire {t : TxTable} (capped : Capped t) (now : Int) : Capped (t.expire now).1 :=
  List.foldlRecOn _ _ capped fun _ kept id _ => kept.dropIdle now id

theorem Capped.begun {t : TxTable} (capped : Capped t) {id : String} {caller : TxOwner}
    (room : t.opened.count (fun e => e.2.owner.bucket = caller.bucket) < caller.cap)
    (unused : t.opened.lookup id = none) (space : Space) (now : Int) :
    Capped { t with opened := t.opened.insert id (.fresh caller space now) } := by
  have absent : t.opened.get id = none := by
    simpa [FinMap.lookup] using unused
  refine ⟨fun o => ?_, ?_⟩
  · have grown := t.opened.count_upsert (id, .fresh caller space now) fun e => e.2.owner.bucket = o.bucket
    simp only [absent, Option.filter_none, Option.toList_none, List.length_nil, Nat.add_zero] at grown
    simp only [FinMap.insert, grown]
    split
    · rename_i same
      have same : caller.bucket = o.bucket := of_decide_eq_true same
      rw [← same, ← cap_of_bucket same]
      exact room
    · exact capped.perBucket o
  · have grown := t.opened.weigh_upsert (id, .fresh caller space now) fun e => e.2.bytes
    have := capped.staged
    rw [stagedBytes_eq] at this ⊢
    simp only [absent, Option.map_none, Option.getD_none, Nat.add_zero, Staged.fresh] at grown
    simp only [FinMap.insert, Staged.fresh, grown]
    exact this

theorem Capped.part {t : TxTable} (capped : Capped t) {id : String} {ops : List Op} (now : Int) {s : Staged}
    (found : t.opened.lookup id = some s) (fits : partFailure s ops = none)
    (room : t.stagedBytes + opsBytes ops ≤ maxTxStagedBytes) :
    Capped { t with opened := t.opened.insert id (s.extend ops now fits) } := by
  have held : t.opened.get id = some (id, s) := by
    rw [← FinMap.mem_rows_iff] at found
    exact KeyedTable.get_of_mem found
  refine ⟨fun o => ?_, ?_⟩
  · have grown := t.opened.count_upsert (id, s.extend ops now fits) fun e => e.2.owner.bucket = o.bucket
    have := capped.perBucket o
    simp only [FinMap.insert]
    by_cases mine : s.owner.bucket = o.bucket <;>
      simp [held, mine, Staged.extend, Option.filter] at grown <;> simp only [Staged.extend] <;> omega
  · have grown := t.opened.weigh_upsert (id, s.extend ops now fits) fun e => e.2.bytes
    rw [stagedBytes_eq] at room ⊢
    simp only [held, Option.map_some, Option.getD_some, Staged.extend] at grown
    simp only [FinMap.insert, Staged.extend]
    omega

theorem capped_step {t : TxTable} (c : TxCall) (capped : Capped t) : Capped (t.step c).1 := by
  have does := step_does t c
  generalize (t.step c).1 = t' at does ⊢
  generalize (t.step c).2 = a at does
  cases does with
  | busy caller space now draws => exact capped.expire now
  | drawing caller space now draws => exact capped.expire now
  | begun caller space now draws draw room unused forgotten =>
      exact (capped.expire now).begun room unused space now
  | closed => exact capped
  | foreign => exact capped
  | timedOut c id caller now presents s found own =>
      exact ⟨(capped.erase id).perBucket, (capped.erase id).staged⟩
  | space => exact capped
  | dropped id => exact capped.erase id
  | full => exact capped
  | staged id caller ops now s found own fits room st => exact capped.part now found fits room
  | empty id => exact capped.erase id
  | taken id => exact capped.erase id
  | notAborted => exact capped
  | aborted id => exact capped.erase id
  | expired now => exact capped.expire now

theorem capped_run (epoch : String) (calls : List TxCall) :
    Capped (after step (withEpoch epoch) calls) :=
  invariant (P := fun _ t => Capped t)
    ⟨fun o => by simp [withEpoch, KeyedTable.count], by simp [withEpoch, stagedBytes, FinMap.values]⟩
    (fun _ _ c capped => capped_step c capped) calls

/-- In every run, a caller who presents an id that somebody else began is refused
    and changes nothing, only its owner hears that an id of this epoch expired,
    every bucket keeps its cap and the staged bytes keep theirs. -/
theorem callers_isolated (epoch : String) (calls : List TxCall) :
    (∀ c id caller b, c.presents = some (id, caller) →
      begunTx id (history step (withEpoch epoch) calls) = some b → b.owner ≠ caller →
      (after step (withEpoch epoch) calls).step c =
          (after step (withEpoch epoch) calls, .refused .badTx) ∨
        ((after step (withEpoch epoch) calls).step c =
          (after step (withEpoch epoch) calls, .aborted false) ∧ c = .abort id caller)) ∧
    (∀ c id caller, c.presents = some (id, caller) →
      (after step (withEpoch epoch) calls).ofEpoch id = true →
      ((after step (withEpoch epoch) calls).step c).2 = .refused .txExpired →
      ∃ b, begunTx id (history step (withEpoch epoch) calls) = some b ∧ b.owner = caller) ∧
    (∀ o : TxOwner, ((after step (withEpoch epoch) calls).opened.values.filter
      fun s => s.owner.bucket = o.bucket).length ≤ o.cap) ∧
    (after step (withEpoch epoch) calls).stagedBytes ≤ maxTxStagedBytes := by
  have agrees := agrees_run epoch calls
  have capped := capped_run epoch calls
  refine ⟨fun c id caller b presents begun foreign => foreign_refused agrees presents begun foreign,
    fun c id caller presents here answered => expired_own agrees presents here answered,
    fun o => ?_, capped.staged⟩
  rw [filter_values]
  exact capped.perBucket o

end TxTable

end K2.GardenData
