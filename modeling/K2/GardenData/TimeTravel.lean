import K2.GardenData.Recorded
import Mathlib.Data.List.Infix

/-! # Back to an earlier rev

A plan brings every key of its set to what it held right after a rev, or at a
time, and touches no other key. It does so by a value: the text a key had is read
and put again, and a text that is not read back as itself (a float the reader is
one off on) comes back as another.
-/

namespace K2.GardenData

/-- A stored text is read back as a value of the same text. -/
def Backend.Rereads (b : Backend) (t : String) : Prop := ∃ v, b.fromStr t = .ok v ∧ canonical v = .ok t

/-- The texts that covered keys are to be brought to are read back as they are. -/
def Backend.RereadsTo (b : Backend) (s : Store) (space : Space) (covers : String → Bool)
    (want : String → Option String) : Prop :=
  ∀ key t, covers key = true → want key = some t → s.text space key ≠ some t → b.Rereads t

/-! ## The oldest rev -/

section Oldest

variable {s : Store} {space : Space} {past : Int → String → Option String} {time : Int → Int} {low : Int}

theorem mem_changesOf {c : ChangeRow} : c ∈ s.changesOf space ↔ c ∈ s.changes.rows ∧ c.space = space := by
  rw [Store.changesOf, List.mem_filter, decide_eq_true_eq]

/-- From the oldest rev on the log is whole, and every later row says what was
    before it. -/
theorem Recorded.restorable (recorded : Recorded s space past time low) :
    (s.restorable space).1 = s.headRev space ∧ 0 ≤ (s.restorable space).2 ∧
      (s.restorable space).2 ≤ s.headRev space ∧ low ≤ (s.restorable space).2 + 1 ∧
      ∀ c ∈ s.changesOf space, (s.restorable space).2 < c.rev → c.prevKind ≠ none := by
  have nonneg := recorded.kept.nonneg space
  have low_le := recorded.low_le
  refine ⟨rfl, ?_⟩
  cases first : ((s.changesOf space).map (·.rev)).min? with
  | none =>
      simp only [Store.restorable, first]
      have none_left : s.changesOf space = [] := by simpa using first
      refine ⟨by omega, by omega, ?_, ?_⟩
      · by_contra whole
        obtain ⟨c, member, here, -⟩ := recorded.dense low le_rfl (by omega)
        have := mem_changesOf.mpr ⟨member, here⟩
        rw [none_left] at this
        cases this
      · rw [none_left]
        exact fun c member => nomatch member
  | some m =>
      simp only [Store.restorable, first]
      obtain ⟨c, member, rfl⟩ := List.mem_map.mp (List.min?_eq_some_iff.mp first).1
      obtain ⟨there, here⟩ := mem_changesOf.mp member
      have above := recorded.above c there here
      obtain ⟨unknown, known⟩ : ∃ unknown, unknown =
          (((s.changesOf space).filter (·.prevKind.isNone)).map (·.rev)).max?.getD 0 := ⟨_, rfl⟩
      rw [← known]
      have zero : 0 ≤ max (max (c.rev - 1) unknown) 0 := le_max_right ..
      have from_first : c.rev - 1 ≤ max (max (c.rev - 1) unknown) 0 :=
        (le_max_left _ _).trans (le_max_left _ _)
      have from_unknown : unknown ≤ max (max (c.rev - 1) unknown) 0 :=
        (le_max_right _ _).trans (le_max_left _ _)
      generalize max (max (c.rev - 1) unknown) 0 = oldest at zero from_first from_unknown ⊢
      refine ⟨by omega, by omega, by omega, ?_⟩
      intro c' member' later blank
      have below := recorded.kept.change c' (mem_changesOf.mp member').1
      rw [(mem_changesOf.mp member').2] at below
      have listed : c'.rev ∈ ((s.changesOf space).filter (·.prevKind.isNone)).map (·.rev) :=
        List.mem_map_of_mem (List.mem_filter.mpr ⟨member', by rw [blank]; rfl⟩)
      cases top : (((s.changesOf space).filter (·.prevKind.isNone)).map (·.rev)).max? with
      | none =>
          rw [List.max?_eq_none_iff.mp top] at listed
          cases listed
      | some u =>
          have le := (List.max?_eq_some_iff.mp top).2 _ listed
          rw [top, Option.getD_some] at known
          omega

end Oldest

/-! ## Targets -/

instance : Std.Total changeLe where
  total c c' := by
    rcases lt_trichotomy c.rev c'.rev with lt | same | gt
    · exact .inl (.inl lt)
    · exact (le_total c.key c'.key).imp (fun le => .inr ⟨same, le⟩) fun le => .inr ⟨same.symm, le⟩
    · exact .inr (.inl gt)

instance : IsTrans ChangeRow changeLe where
  trans x y z := by
    rintro (lt | ⟨same, le⟩) (lt' | ⟨same', le'⟩)
    · exact .inl (lt.trans lt')
    · exact .inl (same' ▸ lt)
    · exact .inl (same ▸ lt')
    · exact .inr ⟨same.trans same', le.trans le'⟩

/-- Of rows that all say what was before, the first of each covered key counts. -/
theorem collectTargets_spec (set : KeySet) (rows : List ChangeRow)
    (known : ∀ c ∈ rows, c.prevKind = some (if c.prev.isSome then 1 else 0))
    (targets : FinMap String (Option String)) :
    ∃ targets', collectTargets set rows targets = .ok targets' ∧ ∀ key, targets'.lookup key =
      (targets.lookup key).or (if set.contains key then (rows.find? (·.key = key)).map (·.prev) else none) := by
  induction rows generalizing targets with
  | nil => exact ⟨targets, rfl, fun key => by simp⟩
  | cons c rest ih =>
      have known_rest := fun x member => known x (List.mem_cons_of_mem c member)
      by_cases passed : ((targets.lookup c.key).isSome || !set.contains c.key) = true
      · obtain ⟨targets', collected, found⟩ := ih known_rest targets
        refine ⟨targets', by rw [collectTargets, if_pos passed, collected], fun key => ?_⟩
        rw [found key, List.find?_cons]
        by_cases own : c.key = key
        · subst own
          simp only [Bool.or_eq_true, Bool.not_eq_true'] at passed
          rcases passed with held | apart
          · obtain ⟨v, held⟩ := Option.isSome_iff_exists.mp held
            rw [held, Option.some_or, Option.some_or]
          · rw [apart, if_neg Bool.false_ne_true, if_neg Bool.false_ne_true]
        · rw [decide_eq_false own]
      · obtain ⟨targets', collected, found⟩ := ih known_rest (targets.insert c.key c.prev)
        have kind := known c List.mem_cons_self
        refine ⟨targets', ?_, fun key => ?_⟩
        · rw [collectTargets, if_neg passed, kind]
          cases prev : c.prev with
          | none => rw [← collected, prev]; rfl
          | some text => rw [← collected, prev]; rfl
        · rw [found key, FinMap.lookup_insert, List.find?_cons]
          by_cases own : c.key = key
          · subst own
            simp only [Bool.or_eq_true, not_or, Bool.not_eq_true', Bool.not_eq_false] at passed
            have free : targets.lookup c.key = none := by simpa using passed.1
            rw [if_pos rfl, free, passed.2, if_pos rfl, decide_eq_true rfl]
            rfl
          · rw [if_neg own, decide_eq_false own]

/-! ## Ops -/

/-- What a plan has an op do: put the value its target's text is read as, or delete. -/
inductive Op.Sets (b : Backend) : Op → Option String → Prop where
  | put {key v ifRev t} (read : b.fromStr t = .ok v) : Sets b (.put key v ifRev) (some t)
  | delete {key ifRev} : Sets b (.delete key ifRev) none

/-- The key comes to the target when the target's text is read back as itself. -/
theorem Op.Sets.makes_iff {b : Backend} {op : Op} {want : Option String} (sets : op.Sets b want)
    (text : Option String) : op.Makes b text want ↔ ∀ t, want = some t → b.Rereads t := by
  cases sets with
  | put read =>
      constructor
      · rintro ⟨wrote⟩ t ⟨⟩
        exact ⟨_, read, wrote⟩
      · intro reads
        obtain ⟨v, read', wrote⟩ := reads _ rfl
        cases read.symm.trans read'
        exact .put wrote
  | delete => exact ⟨nofun, fun _ => .delete⟩

/-- Ops that bring keys to their targets: one for each key that is elsewhere, with
    the rev the key has, and none for the others. -/
structure Reaches (b : Backend) (live : String → Live) (targets : List (String × Option String))
    (ops : List Op) : Prop where
  once : (ops.map Op.key).Nodup
  each : ∀ op ∈ ops, op.ifRev = some (live op.key).rev ∧ ∃ want, (op.key, want) ∈ targets ∧
    (live op.key).text ≠ want ∧ op.Sets b want
  rest : ∀ key want, (key, want) ∈ targets → key ∉ ops.map Op.key → (live key).text = want

section Ops

variable {b : Backend} {live : String → Live}

theorem planOp_spec {key : String} {want : Option String} {planned : Option Op}
    (ok : planOp b (live key) key want = .ok planned) :
    (planned = none ∧ (live key).text = want) ∨
    ∃ op, planned = some op ∧ op.key = key ∧ op.ifRev = some (live key).rev ∧ (live key).text ≠ want ∧
      op.Sets b want := by
  cases want with
  | none =>
      cases there : (live key).text with
      | none =>
          rw [planOp, there] at ok
          cases ok
          exact .inl ⟨rfl, rfl⟩
      | some t =>
          rw [planOp, there] at ok
          cases ok
          exact .inr ⟨_, rfl, rfl, rfl, nofun, .delete⟩
  | some t =>
      rw [planOp] at ok
      split at ok
      next same =>
        cases ok
        exact .inl ⟨rfl, same⟩
      next apart =>
        split at ok
        next read =>
          cases ok
          exact .inr ⟨_, rfl, rfl, rfl, apart, .put read⟩
        next => cases ok

/-- Where the text that is wanted can be read, there is a plan for its key. -/
theorem planOp_ok (key : String) {want : Option String}
    (reads : ∀ t, want = some t → (live key).text ≠ some t → ∃ v, b.fromStr t = .ok v) :
    ∃ planned, planOp b (live key) key want = .ok planned := by
  cases want with
  | none => cases there : (live key).text <;> exact ⟨_, by rw [planOp, there]⟩
  | some t =>
      by_cases same : (live key).text = some t
      · exact ⟨none, by rw [planOp, if_pos same]⟩
      · obtain ⟨v, read⟩ := reads t rfl same
        exact ⟨_, by rw [planOp, if_neg same, read]⟩

theorem planOps_spec {canWrite : String → Bool} {targets : List (String × Option String)} {ops : List Op}
    (distinct : (targets.map Prod.fst).Nodup) (planned : planOps b live canWrite targets = .ok ops) :
    Reaches b live targets ops := by
  induction targets generalizing ops with
  | nil =>
      cases planned
      exact ⟨List.nodup_nil, nofun, nofun⟩
  | cons target rest ih =>
      obtain ⟨key, want⟩ := target
      rw [List.map_cons, List.nodup_cons] at distinct
      rw [planOps] at planned
      obtain ⟨one, first, planned⟩ := bind_eq_ok.mp planned
      have of_rest : ∀ {ops : List Op}, Reaches b live rest ops → ∀ op ∈ ops, op.ifRev = some (live op.key).rev ∧
          ∃ want', (op.key, want') ∈ (key, want) :: rest ∧ (live op.key).text ≠ want' ∧ op.Sets b want' := by
        intro ops reaches op member
        obtain ⟨ifRev, want', listed, apart, sets⟩ := reaches.each op member
        exact ⟨ifRev, want', List.mem_cons_of_mem _ listed, apart, sets⟩
      rcases planOp_spec first with ⟨rfl, there⟩ | ⟨op, rfl, rfl, ifRev, apart, sets⟩
      · have reaches := ih distinct.2 planned
        refine ⟨reaches.once, of_rest reaches, ?_⟩
        intro other want' listed absent
        rcases List.mem_cons.mp listed with same | listed
        · obtain ⟨rfl, rfl⟩ := Prod.mk.inj same
          exact there
        · exact reaches.rest other want' listed absent
      · simp only at planned
        split at planned
        next => cases planned
        next =>
          obtain ⟨more, later, same⟩ := bind_eq_ok.mp planned
          cases same
          have reaches := ih distinct.2 later
          refine ⟨?_, ?_, ?_⟩
          · rw [List.map_cons, List.nodup_cons]
            refine ⟨fun again => ?_, reaches.once⟩
            obtain ⟨other, member, same⟩ := List.mem_map.mp again
            obtain ⟨-, want', listed, -⟩ := reaches.each other member
            exact distinct.1 (same ▸ List.mem_map.mpr ⟨_, listed, rfl⟩)
          · intro other member
            rcases List.mem_cons.mp member with rfl | member
            · exact ⟨ifRev, want, List.mem_cons_self, apart, sets⟩
            · exact of_rest reaches other member
          · intro other want' listed absent
            rw [List.map_cons, List.mem_cons, not_or] at absent
            rcases List.mem_cons.mp listed with same | listed
            · exact absurd (Prod.mk.inj same).1 absent.1
            · exact reaches.rest other want' listed absent.2

theorem planOps_ok {canWrite : String → Bool} {targets : List (String × Option String)}
    (rights : ∀ target ∈ targets, canWrite target.1 = true)
    (reads : ∀ target ∈ targets, ∀ t, target.2 = some t → (live target.1).text ≠ some t →
      ∃ v, b.fromStr t = .ok v) : ∃ ops, planOps b live canWrite targets = .ok ops := by
  induction targets with
  | nil => exact ⟨[], rfl⟩
  | cons target rest ih =>
      obtain ⟨key, want⟩ := target
      rw [List.forall_mem_cons] at rights reads
      obtain ⟨ops, planned⟩ := ih rights.2 reads.2
      obtain ⟨one, first⟩ := planOp_ok key reads.1
      rw [planOps, first]
      cases one with
      | none => exact ⟨ops, planned⟩
      | some op =>
          refine ⟨op :: ops, ?_⟩
          simp only [bind, Except.bind, rights.1, Bool.not_true, Bool.false_eq_true, if_false, planned]

theorem mem_inOrder {targets : FinMap String (Option String)} {key : String} {want : Option String} :
    (key, want) ∈ inOrder targets ↔ targets.lookup key = some want := by
  rw [inOrder, (List.perm_insertionSort _ _).mem_iff, FinMap.mem_rows_iff]

/-- Ops that bring the covered keys of a space where they are wanted, and touch no
    other key and none that is there already. -/
structure Brings (b : Backend) (s : Store) (space : Space) (covers : String → Bool)
    (want : String → Option String) (ops : List Op) : Prop where
  once : (ops.map Op.key).Nodup
  each : ∀ op ∈ ops, covers op.key = true ∧ op.ifRev = some (s.live space op.key).rev ∧
    s.text space op.key ≠ want op.key ∧ op.Sets b (want op.key)
  rest : ∀ key, covers key = true → key ∉ ops.map Op.key → s.text space key = want key

/-- A table of targets that says where the covered keys are wanted. -/
structure Targets (s : Store) (space : Space) (covers : String → Bool) (want : String → Option String)
    (targets : FinMap String (Option String)) : Prop where
  wanted : ∀ key v, targets.lookup key = some v → covers key = true ∧ v = want key
  others : ∀ key, covers key = true → targets.lookup key = none → s.text space key = want key

section Targets

variable {s : Store} {space : Space} {covers : String → Bool} {want : String → Option String}
  {canWrite : String → Bool} {targets : FinMap String (Option String)}

theorem Targets.brings (table : Targets s space covers want targets) {ops : List Op}
    (planned : planOps b (s.live space) canWrite (inOrder targets) = .ok ops) : Brings b s space covers want ops := by
  have distinct : ((inOrder targets).map Prod.fst).Nodup :=
    ((List.perm_insertionSort _ _).map Prod.fst).nodup_iff.mpr targets.distinct
  have reaches := planOps_spec distinct planned
  refine ⟨reaches.once, ?_, ?_⟩
  · intro op member
    obtain ⟨ifRev, v, listed, apart, sets⟩ := reaches.each op member
    obtain ⟨covered, rfl⟩ := table.wanted _ _ (mem_inOrder.mp listed)
    exact ⟨covered, ifRev, apart, sets⟩
  · intro key covered absent
    cases target : targets.lookup key with
    | none => exact table.others key covered target
    | some v =>
        rw [← (table.wanted key v target).2]
        exact reaches.rest key v (mem_inOrder.mpr target) absent

theorem Targets.planned (table : Targets s space covers want targets)
    (rights : ∀ key, covers key = true → canWrite key = true) (reads : b.RereadsTo s space covers want) :
    ∃ ops, planOps b (s.live space) canWrite (inOrder targets) = .ok ops := by
  refine planOps_ok (fun target member => rights _ (table.wanted _ _ (mem_inOrder.mp member)).1) ?_
  intro target member t same apart
  obtain ⟨covered, held⟩ := table.wanted _ _ (mem_inOrder.mp member)
  obtain ⟨v, read, -⟩ := reads target.1 t covered (held.symm.trans same) apart
  exact ⟨v, read⟩

end Targets

theorem replays_one {text text' : Option String} {landed : Landed} :
    Replays b text [landed] text' ↔ landed.Makes b text text' := by
  constructor
  · intro replays
    obtain ⟨log, same⟩ : ∃ log, log = [landed] := ⟨_, rfl⟩
    rw [← same] at replays
    cases replays with
    | nil => cases same
    | snoc before last =>
        obtain ⟨rfl, one⟩ := List.append_inj' (same.trans (List.nil_append _).symm) rfl
        cases one
        generalize none_before : ([] : List Landed) = log at before
        cases before with
        | nil => exact last
        | snoc => simp at none_before
  · exact .snoc .nil

/-- Applied, the ops leave every covered key where it is wanted, just when each text
    they are to bring is read back as itself. -/
theorem Brings.replays_iff {s : Store} {space : Space} {covers : String → Bool} {want : String → Option String}
    {ops : List Op} (brings : Brings b s space covers want ops) :
    (∀ key, covers key = true →
      Replays b (s.text space key) ((ops.filter (·.key = key)).map .op) (want key)) ↔
      b.RereadsTo s space covers want := by
  have makes : ∀ op ∈ ops, (Replays b (s.text space op.key) ((ops.filter (·.key = op.key)).map .op) (want op.key) ↔
      ∀ t, want op.key = some t → b.Rereads t) := by
    intro op member
    obtain ⟨-, -, -, sets⟩ := brings.each op member
    rw [filter_own brings.once member, List.map_singleton, replays_one, ← sets.makes_iff]
    refine ⟨fun landed => ?_, .op⟩
    cases landed with
    | op makes => exact makes
  constructor
  · intro lands key t covered held apart
    by_cases own : key ∈ ops.map Op.key
    · obtain ⟨op, member, rfl⟩ := List.mem_map.mp own
      exact (makes op member).mp (lands _ covered) t held
    · exact absurd (held ▸ brings.rest key covered own) apart
  · intro reads key covered
    by_cases own : key ∈ ops.map Op.key
    · obtain ⟨op, member, rfl⟩ := List.mem_map.mp own
      exact (makes op member).mpr fun t held => reads op.key t covered held (held ▸ (brings.each op member).2.2.1)
    · have none_own : ops.filter (·.key = key) = [] := by
        rw [List.filter_eq_nil_iff]
        intro op member same
        exact own (List.mem_map.mpr ⟨op, member, of_decide_eq_true same⟩)
      rw [none_own, brings.rest key covered own]
      exact .nil

end Ops

/-! ## Plans -/

section Plan

variable {b : Backend} {s : Store} {space : Space} {past : Int → String → Option String} {time : Int → Int}
  {low r : Int} {set : KeySet} {canWrite : String → Bool}

theorem mem_changesAfter {c : ChangeRow} :
    c ∈ s.changesAfter space r ↔ c ∈ s.changesOf space ∧ r < c.rev := by
  rw [Store.changesAfter, (List.perm_insertionSort _ _).mem_iff, List.mem_filter, decide_eq_true_eq]

/-- What a key held after a rev is what its first later row says was before it, or
    what it holds now. -/
theorem Recorded.past_eq (recorded : Recorded s space past time low) (from_oldest : (s.restorable space).2 ≤ r)
    (to_head : r ≤ s.headRev space) (key : String) :
    past r key = ((s.changesAfter space r).find? (·.key = key)).elim (s.text space key) (·.prev) := by
  obtain ⟨-, -, -, low_le, known⟩ := recorded.restorable
  cases found : (s.changesAfter space r).find? (·.key = key) with
  | none =>
      rw [Option.elim_none, recorded.now]
      refine (recorded.explains.past_of_quiet (by omega) to_head le_rfl ?_).symm
      rintro u ⟨c, member, here, rfl⟩ same later
      have listed := mem_changesAfter.mpr ⟨mem_changesOf.mpr ⟨member, here⟩, later⟩
      exact absurd (decide_eq_true same) (List.find?_eq_none.mp found c listed)
  | some c =>
      obtain ⟨own, before, rest, split, apart⟩ := List.find?_eq_some_iff_append.mp found
      obtain ⟨listed, later⟩ := mem_changesAfter.mp (List.mem_of_find?_eq_some found)
      obtain ⟨member, here⟩ := mem_changesOf.mp listed
      have sorted : (s.changesAfter space r).Pairwise changeLe := List.pairwise_insertionSort ..
      rw [split, List.pairwise_append, List.pairwise_cons] at sorted
      have told : c.undo.before = some c.prev := by
        rcases recorded.kinds c member here with unknown | kind
        · exact absurd unknown (known c listed (by omega))
        · rw [ChangeRow.undo, kind]
          rfl
      have same : c.undo.key = key := of_decide_eq_true own
      rw [Option.elim_some, ← same]
      refine recorded.explains.past_of_first (by omega) ⟨c, member, here, rfl⟩ later
        (here ▸ recorded.kept.change c member) ?_ told
      rintro u ⟨c', member', here', rfl⟩ same' later'
      have listed' := mem_changesAfter.mpr ⟨mem_changesOf.mpr ⟨member', here'⟩, later'⟩
      rw [split, List.mem_append, List.mem_cons] at listed'
      rcases listed' with earlier | rfl | after
      · have own' : decide (c'.key = key) = true := decide_eq_true (same'.trans same)
        have other := apart c' earlier
        rw [own'] at other
        cases other
      · exact le_rfl
      · rcases sorted.2.1.1 c' after with lt | ⟨eq, -⟩
        · exact le_of_lt lt
        · exact le_of_eq eq

theorem Recorded.targets (recorded : Recorded s space past time low) (set : KeySet)
    (from_oldest : (s.restorable space).2 ≤ r) (to_head : r ≤ s.headRev space) :
    ∃ targets, collectTargets set (s.changesAfter space r) .empty = .ok targets ∧
      Targets s space set.contains (past r) targets := by
  obtain ⟨-, -, -, -, known⟩ := recorded.restorable
  obtain ⟨targets, collected, found⟩ := collectTargets_spec set (s.changesAfter space r)
    (fun c member => by
      obtain ⟨listed, later⟩ := mem_changesAfter.mp member
      obtain ⟨there, here⟩ := mem_changesOf.mp listed
      exact (recorded.kinds c there here).resolve_left (known c listed (by omega))) .empty
  simp only [FinMap.lookup_empty, Option.none_or] at found
  have past_eq := recorded.past_eq from_oldest to_head
  refine ⟨targets, collected, ?_, ?_⟩
  · intro key v target
    rw [found key] at target
    split at target
    next covered =>
      obtain ⟨c, first, rfl⟩ := Option.map_eq_some_iff.mp target
      rw [past_eq key, first]
      exact ⟨covered, rfl⟩
    next => cases target
  · intro key covered target
    rw [found key, if_pos covered, Option.map_eq_none_iff] at target
    rw [past_eq key, target]
    rfl

/-- A plan back to a rev brings its keys to what they held then. -/
theorem Recorded.planBack (recorded : Recorded s space past time low) {source : Value} {plan : RestorePlan}
    (planned : s.planBack b space set canWrite r source = .ok plan) :
    (s.restorable space).2 ≤ r ∧ r ≤ s.headRev space ∧ plan.toRev = some r ∧ plan.set = set ∧
      Brings b s space set.contains (past r) plan.ops := by
  have head : (s.restorable space).1 = s.headRev space := rfl
  simp only [Store.planBack, head] at planned
  split at planned
  next => cases planned
  next to_head =>
    split at planned
    next => cases planned
    next from_oldest =>
      obtain ⟨targets, collected, table⟩ := recorded.targets set (not_lt.mp from_oldest) (not_lt.mp to_head)
      obtain ⟨targets', same, planned⟩ := bind_eq_ok.mp planned
      cases collected.symm.trans same
      obtain ⟨ops, listed, same⟩ := bind_eq_ok.mp planned
      cases same
      exact ⟨not_lt.mp from_oldest, not_lt.mp to_head, rfl, rfl, table.brings listed⟩

/-- There is one back to a rev that can be restored, where its texts are read. -/
theorem Recorded.planBack_ok (recorded : Recorded s space past time low) (from_oldest : (s.restorable space).2 ≤ r)
    (to_head : r ≤ s.headRev space) (rights : ∀ key, set.contains key = true → canWrite key = true)
    (reads : b.RereadsTo s space set.contains (past r)) (source : Value) :
    ∃ plan, s.planBack b space set canWrite r source = .ok plan := by
  obtain ⟨targets, collected, table⟩ := recorded.targets set from_oldest to_head
  obtain ⟨ops, planned⟩ := table.planned rights reads
  have head : (s.restorable space).1 = s.headRev space := rfl
  refine ⟨.of ops (some r) set source, ?_⟩
  simp only [Store.planBack, head]
  rw [if_neg (not_lt.mpr to_head), if_neg (not_lt.mpr from_oldest)]
  simp only [bind, Except.bind, collected, planned]

theorem planBack_refused (before : r < (s.restorable space).2) (to_head : r ≤ s.headRev space) (source : Value) :
    s.planBack b space set canWrite r source = .error noHistory := by
  have head : (s.restorable space).1 = s.headRev space := rfl
  simp only [Store.planBack, head]
  rw [if_neg (not_lt.mpr to_head), if_pos before]

end Plan

/-! ## Runs -/

/-- A plan brings each key of its set to what it is wanted to hold, and has no op
    for a key outside the set or already there. -/
structure RestorePlan.Exact (b : Backend) (s : Store) (space : Space) (set : KeySet)
    (want : String → Option String) (plan : RestorePlan) : Prop where
  reached : ∀ key, set.contains key = true →
    Replays b (s.text space key) ((plan.ops.filter (·.key = key)).map .op) (want key)
  needed : ∀ op ∈ plan.ops, set.contains op.key = true ∧ s.text space op.key ≠ want op.key

section Run

variable {b : Backend} {space : Space} {run : Timeline} {past : Int → String → Option String} {time : Int → Int}

/-- A time means the rev the space had after the steps up to it, or is refused. -/
theorem Traced.revAt (trace : Traced b space run past time) (t : Int) :
    (Store.ran b run).revAt space t = .error noHistory ∨
      (Store.ran b run).revAt space t = .ok ((Store.ran b (run.upTo t)).headRev space) := by
  obtain ⟨low, recorded⟩ := trace.recorded
  obtain ⟨nonneg, to_head, -⟩ := trace.early _ (Timeline.upTo_of_isPrefix run t)
  have asOf := trace.asOf t
  have low_pos := recorded.low_pos
  -- a row of the rev the space had then, if that rev is still in the log
  have row_then : low ≤ (Store.ran b (run.upTo t)).headRev space → ∃ c ∈ (Store.ran b run).changesOf space,
      c.time ≤ t ∧ c.rev = (Store.ran b (run.upTo t)).headRev space := by
    intro from_low
    obtain ⟨c, member, here, rev⟩ := recorded.dense _ from_low to_head
    refine ⟨c, mem_changesOf.mpr ⟨member, here⟩, ?_, rev⟩
    rw [recorded.times c member here, rev]
    exact (asOf _ (by omega) to_head).mpr le_rfl
  cases last : (((Store.ran b run).changesOf space).filter (·.time ≤ t) |>.map (·.rev)).max? with
  | some r =>
      refine .inr ?_
      obtain ⟨r_listed, most⟩ := List.max?_eq_some_iff.mp last
      obtain ⟨c, chosen, rfl⟩ := List.mem_map.mp r_listed
      obtain ⟨listed, within⟩ := List.mem_filter.mp chosen
      obtain ⟨member, here⟩ := mem_changesOf.mp listed
      have above := recorded.above c member here
      have below := recorded.kept.change c member
      rw [here] at below
      have before := (asOf c.rev (by omega) below).mp (recorded.times c member here ▸ of_decide_eq_true within)
      obtain ⟨c', listed', within', rev⟩ := row_then (by omega)
      have after := most _ (List.mem_map_of_mem (List.mem_filter.mpr ⟨listed', decide_eq_true within'⟩))
      simp only [Store.revAt, last]
      exact congrArg Except.ok (by omega)
  | none =>
      have none_within : ∀ c ∈ (Store.ran b run).changesOf space, ¬ c.time ≤ t := by
        intro c listed within
        have absent := List.filter_eq_nil_iff.mp (List.map_eq_nil_iff.mp (List.max?_eq_none_iff.mp last)) c listed
        exact absent (decide_eq_true within)
      have before_log : (Store.ran b (run.upTo t)).headRev space < low := by
        by_contra from_low
        obtain ⟨c, listed, within, -⟩ := row_then (by omega)
        exact none_within c listed within
      have updated := recorded.updated
      cases first : (((Store.ran b run).changesOf space).map (·.rev)).min? with
      | some m =>
          simp only [Store.revAt, last, first]
          split
          next one =>
            -- the log starts at rev 1
            cases one
            obtain ⟨c, listed, rev⟩ := List.mem_map.mp (List.min?_eq_some_iff.mp first).1
            obtain ⟨member, here⟩ := mem_changesOf.mp listed
            have := recorded.above c member here
            exact .inr (congrArg Except.ok (by omega))
          next no _ => cases no
          next no _ => cases no
          next => exact .inl rfl
      | none =>
          cases written : ((Store.ran b run).spaces.get space).map (·.updatedAt) with
          | none =>
              simp only [Store.revAt, last, first, written]
              rw [written] at updated
              have : (Store.ran b run).headRev space = 0 := by
                by_contra some_rev
                rw [if_neg some_rev] at updated
                cases updated
              exact .inr (congrArg Except.ok (by omega))
          | some u =>
              simp only [Store.revAt, last, first, written]
              rw [written] at updated
              split
              next within =>
                split at updated
                next => cases updated
                next some_rev =>
                  have := recorded.kept.nonneg space
                  have last_within : time ((Store.ran b run).headRev space) ≤ t := Option.some.inj updated ▸ within
                  have := (asOf _ (by omega) le_rfl).mp last_within
                  exact .inr (congrArg Except.ok (by omega))
              next => exact .inl rfl

theorem Brings.exact_iff {s : Store} {set : KeySet} {want : String → Option String} {plan : RestorePlan}
    (brings : Brings b s space set.contains want plan.ops) :
    plan.Exact b s space set want ↔ b.RereadsTo s space set.contains want := by
  rw [← brings.replays_iff]
  exact ⟨fun plan_exact => plan_exact.reached,
    fun reached => ⟨reached, fun op member => ⟨(brings.each op member).1, (brings.each op member).2.2.1⟩⟩⟩

/-- Back to a rev of the run that can be restored: to what its keys held then, just
    when the texts are read back as they are. -/
theorem Traced.planBack_iff (trace : Traced b space run past time) {r : Int} {set : KeySet}
    {canWrite : String → Bool} (from_oldest : ((Store.ran b run).restorable space).2 ≤ r)
    (to_head : r ≤ (Store.ran b run).headRev space)
    (rights : ∀ key, set.contains key = true → canWrite key = true) (source : Value) :
    (∃ plan, (Store.ran b run).planBack b space set canWrite r source = .ok plan ∧ plan.toRev = some r ∧
      plan.Exact b (Store.ran b run) space set (past r)) ↔
      b.RereadsTo (Store.ran b run) space set.contains (past r) := by
  obtain ⟨low, recorded⟩ := trace.recorded
  constructor
  · rintro ⟨plan, planned, -, plan_exact⟩
    obtain ⟨-, -, -, -, brings⟩ := recorded.planBack planned
    exact brings.exact_iff.mp plan_exact
  · intro reads
    obtain ⟨plan, planned⟩ := recorded.planBack_ok from_oldest to_head rights reads source
    obtain ⟨-, -, rev, -, brings⟩ := recorded.planBack planned
    exact ⟨plan, planned, rev, brings.exact_iff.mpr reads⟩

end Run

/-- In every run of writes, reaper passes and trims under a clock that never goes
    back, each rev from the oldest one that can be restored has a plan that is exact
    just when the texts it brings back are read as themselves; every earlier rev is
    refused, and a time means the state after the steps up to it or is refused. -/
theorem time_travel_exact_iff (b : Backend) (run : Timeline) (forward : run.Forward) (space : Space)
    (data : space.isData = true) (set : KeySet) (canWrite : String → Bool)
    (rights : ∀ key, set.contains key = true → canWrite key = true) :
    let s := Store.ran b run
    (∀ r, (s.restorable space).2 ≤ r → r ≤ (s.restorable space).1 →
      (∃ early, early <+: run ∧ (Store.ran b early).headRev space = r) ∧
      ∀ early, early <+: run → (Store.ran b early).headRev space = r →
        ((∃ plan, s.restorePlan b space set canWrite (.rev r) = .ok plan ∧ plan.toRev = some r ∧
          plan.Exact b s space set ((Store.ran b early).text space)) ↔
          b.RereadsTo s space set.contains ((Store.ran b early).text space))) ∧
    (∀ r, r < (s.restorable space).2 → s.restorePlan b space set canWrite (.rev r) = .error noHistory) ∧
    ∀ t, s.restorePlan b space set canWrite (.at t) = .error noHistory ∨
      ((∃ plan, s.restorePlan b space set canWrite (.at t) = .ok plan ∧
        plan.toRev = some ((Store.ran b (run.upTo t)).headRev space) ∧
        plan.Exact b s space set ((Store.ran b (run.upTo t)).text space)) ↔
        b.RereadsTo s space set.contains ((Store.ran b (run.upTo t)).text space)) := by
  dsimp only
  obtain ⟨past, time, trace⟩ := traced b space run forward
  obtain ⟨low, recorded⟩ := trace.recorded
  obtain ⟨head, oldest_nonneg, oldest_le, -, -⟩ := recorded.restorable
  refine ⟨?_, ?_, ?_⟩
  · intro r from_oldest to_head
    refine ⟨trace.reached r (by omega) (head ▸ to_head), fun early pre rev => ?_⟩
    obtain ⟨-, -, text⟩ := trace.early early pre
    rw [text, rev, Store.restorePlan, data]
    exact trace.planBack_iff from_oldest (head ▸ to_head) rights _
  · intro r before
    rw [Store.restorePlan, data]
    exact planBack_refused before (by omega) _
  · intro t
    rw [Store.restorePlan, data]
    simp only [Bool.not_true, Bool.false_eq_true, if_false]
    rcases trace.revAt t with refused | rev
    · exact .inl (by rw [refused]; rfl)
    · obtain ⟨-, to_head, text⟩ := trace.early _ (Timeline.upTo_of_isPrefix run t)
      simp only [rev, bind, Except.bind]
      rcases Int.lt_or_le ((Store.ran b (run.upTo t)).headRev space) ((Store.ran b run).restorable space).2 with
        before | from_oldest
      · exact .inl (planBack_refused before to_head _)
      · rw [text]
        exact .inr (trace.planBack_iff from_oldest to_head rights _)

theorem entry_of_text {s : Store} {space : Space} {key t : String} (held : s.text space key = some t) :
    ∃ e ∈ s.entries.rows, e.value = some t := by
  rw [Store.text] at held
  cases found : s.entries.get (space, key) with
  | none =>
      rw [Store.live_of_none found] at held
      cases held
  | some e =>
      rw [Store.live_of_some found] at held
      split at held
      · cases held
      · exact ⟨e, KeyedTable.mem_of_get found, held⟩

/-- A key written, deleted, and the history trimmed. -/
def deletedRun : Timeline :=
  [(0, .write 0 ⟨"data:board"⟩ [.put "obj/1" (.number (.int 1)) none] "owner" true none),
    (1, .write 0 ⟨"data:board"⟩ [.delete "obj/1" none] "owner" true none), (2, .trim 1024)]

theorem smallBackend_reads {s : Store} (texts : ∀ e ∈ s.entries.rows, e.value = none ∨ e.value = some "1")
    {space : Space} {key t : String} (held : s.text space key = some t) : smallBackend.Rereads t := by
  obtain ⟨e, member, value⟩ := entry_of_text held
  rcases texts e member with absent | one
  · rw [value] at absent
    cases absent
  · obtain rfl := Option.some.inj (value.symm.trans one)
    exact ⟨.number (.int 1), rfl, rfl⟩

theorem time_travel_exact_iff_deleted : ∃ plan,
    (Store.ran smallBackend deletedRun).restorePlan smallBackend ⟨"data:board"⟩ ⟨[], [], []⟩ (fun _ => true)
      (.rev 1) = .ok plan ∧ plan.toRev = some 1 ∧
    plan.Exact smallBackend (Store.ran smallBackend deletedRun) ⟨"data:board"⟩ ⟨[], [], []⟩
      ((Store.ran smallBackend (deletedRun.take 1)).text ⟨"data:board"⟩) :=
  (((time_travel_exact_iff smallBackend deletedRun (by decide) ⟨"data:board"⟩ (by decide) ⟨[], [], []⟩
    (fun _ => true) (fun _ _ => rfl)).1 1 (by decide +kernel) (by decide +kernel)).2 _ (List.take_prefix ..)
    (by decide +kernel)).mpr fun _ _ _ held _ => smallBackend_reads (by decide +kernel) held

/-- A store whose JSON reader is one off on a float, as `serde_json` is where it reads
    floats fast. -/
def driftingBackend : Backend where
  maxFileBytes := 1024
  fromStr := fun t =>
    if t = "1.0000000000000001e-24" then .ok (.number (.float "1e-24"))
    else if t = "1e-24" then .ok (.number (.float "1.0000000000000001e-24"))
    else .error "expected value at line 1 column 1"

/-- A float written, and deleted. -/
def driftedRun : Timeline :=
  [(0, .write 0 ⟨"data:board"⟩ [.put "obj/1" (.number (.float "1.0000000000000001e-24")) none] "owner" true none),
    (1, .write 0 ⟨"data:board"⟩ [.delete "obj/1" none] "owner" true none)]

theorem float_drifts : ¬ ∃ plan,
    (Store.ran driftingBackend driftedRun).restorePlan driftingBackend ⟨"data:board"⟩ ⟨[], [], []⟩ (fun _ => true)
      (.rev 1) = .ok plan ∧
    plan.Exact driftingBackend (Store.ran driftingBackend driftedRun) ⟨"data:board"⟩ ⟨[], [], []⟩
      ((Store.ran driftingBackend (driftedRun.take 1)).text ⟨"data:board"⟩) := by
  rintro ⟨plan, planned, plan_exact⟩
  have ops : plan.ops = [.put "obj/1" (.number (.float "1e-24")) (some 0)] := by
    cases planned
    rfl
  have lands := plan_exact.reached "obj/1" rfl
  rw [ops] at lands
  cases replays_one.mp lands with
  | op makes =>
      cases makes with
      | put wrote => cases wrote

end K2.GardenData
