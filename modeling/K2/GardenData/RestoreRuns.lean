import K2.GardenData.TimeTravel

/-! # Restores among other writes

`store.restore` plans, then writes the plan's ops with the revs the plan saw; when
one of them has changed it plans again. Only the keys the plan has an op for are
checked at the write, so a key that was at its target when the plan was made may
be elsewhere when the restore lands; and what is put is the value a target's text
is read as.
-/

namespace K2.GardenData

/-! ## The restore -/

/-- A finished restore: its id and new rev, none when nothing changed. -/
structure Restored where
  id : Option String
  rev : Option Int
  plan : RestorePlan

/-- A call of `store.restore`. -/
structure RestoreCall where
  target : RestoreTarget
  set : KeySet
  canWrite : String → Bool
  who : String

/-- Where a restore stands between two of its steps, with the tries it has left
    after this one. -/
inductive RestoreStanding where
  | planning (left : Nat)
  | writing (left : Nat) (plan : RestorePlan)
  | done (answer : Except DataError Restored)

/-- The rev a call answered. -/
def RestoreStanding.rev : RestoreStanding → Option Int
  | .done (.ok a) => a.rev
  | _ => none

section Restore

variable (b : Backend) (space : Space) (c : RestoreCall)

def restoreRounds (moment : Moment) (ids : Nat → String) : Nat → Store → Store × Except DataError Restored
  | left, s =>
      match s.restorePlan b space c.set c.canWrite c.target with
      | .error e => (s, .error e)
      | .ok plan =>
          if plan.ops.isEmpty then (s, .ok ⟨none, none, plan⟩)
          else match s.writeMarked b moment space plan.ops c.who (plan.mark (ids left)) with
            | (s, .ok rev) => (s, .ok ⟨some (ids left), some rev, plan⟩)
            | (s, .error (.conflict key rev op)) =>
                match left with
                | 0 => (s, .error (.conflict key rev op))
                | left + 1 => restoreRounds moment ids left s
            | (s, .error e) => (s, .error e)

/-- Plan and write a restore as one new rev. `ids` are the ids drawn for its tries. -/
def Store.restore (moment : Moment) (ids : Nat → String) (s : Store) : Store × Except DataError Restored :=
  restoreRounds b space c moment ids (restoreTries - 1) s

/-- The next step of a call: its plan, or its write. -/
def RestoreCall.step (moment : Moment) (id : String) (s : Store) : RestoreStanding → Store × RestoreStanding
  | .planning left =>
      match s.restorePlan b space c.set c.canWrite c.target with
      | .error e => (s, .done (.error e))
      | .ok plan => (s, if plan.ops.isEmpty then .done (.ok ⟨none, none, plan⟩) else .writing left plan)
  | .writing left plan =>
      match s.writeMarked b moment space plan.ops c.who (plan.mark id) with
      | (s, .ok rev) => (s, .done (.ok ⟨some id, some rev, plan⟩))
      | (s, .error (.conflict key rev op)) =>
          (s, match left with
            | 0 => .done (.error (.conflict key rev op))
            | left + 1 => .planning left)
      | (s, .error e) => (s, .done (.error e))
  | .done a => (s, .done a)

/-- The tries left where a call stands. -/
def RestoreStanding.left : RestoreStanding → Nat
  | .planning left | .writing left _ => left
  | .done _ => 0

/-- This many steps of a call that is alone. -/
def RestoreCall.steps (moment : Moment) (ids : Nat → String) : Nat → Store × RestoreStanding → Store × RestoreStanding
  | 0, st => st
  | n + 1, st => RestoreCall.steps moment ids n (c.step b space moment (ids st.2.left) st.1 st.2)

variable {b space c}

theorem restore_steps_done (moment : Moment) (ids : Nat → String) (n : Nat) (s : Store)
    (a : Except DataError Restored) : c.steps b space moment ids n (s, .done a) = (s, .done a) := by
  induction n with
  | zero => rfl
  | succ n ih => exact ih

/-- One round is two steps, which answer or stand before the next round. -/
theorem restoreRounds_two (moment : Moment) (ids : Nat → String) (left more : Nat) (s : Store)
    (next : ∀ s left', left = left' + 1 → c.steps b space moment ids more (s, .planning left') =
      ((restoreRounds b space c moment ids left' s).1, .done (restoreRounds b space c moment ids left' s).2)) :
    c.steps b space moment ids (more + 2) (s, .planning left) =
      ((restoreRounds b space c moment ids left s).1, .done (restoreRounds b space c moment ids left s).2) := by
  have two : c.steps b space moment ids (more + 2) (s, .planning left) = c.steps b space moment ids (more + 1)
      (c.step b space moment (ids left) s (.planning left)) := rfl
  rw [two, RestoreCall.step, restoreRounds]
  cases s.restorePlan b space c.set c.canWrite c.target with
  | error e => exact restore_steps_done moment ids _ s _
  | ok plan =>
      simp only
      cases nothing : plan.ops.isEmpty with
      | true => exact restore_steps_done moment ids _ s _
      | false =>
          have one : c.steps b space moment ids (more + 1) (s, .writing left plan) = c.steps b space moment ids more
              (c.step b space moment (ids left) s (.writing left plan)) := rfl
          simp only [Bool.false_eq_true, if_false]
          rw [one, RestoreCall.step]
          rcases s.writeMarked b moment space plan.ops c.who (plan.mark (ids left)) with ⟨s', e | rev⟩
          · cases e with
            | conflict key rev op =>
                cases left with
                | zero => exact restore_steps_done moment ids _ s' _
                | succ left => exact next s' left rfl
            | _ => exact restore_steps_done moment ids _ s' _
          · exact restore_steps_done moment ids _ s' _

theorem restoreRounds_eq_steps (moment : Moment) (ids : Nat → String) (left : Nat) (s : Store) :
    c.steps b space moment ids (2 * (left + 1)) (s, .planning left) =
      ((restoreRounds b space c moment ids left s).1, .done (restoreRounds b space c moment ids left s).2) := by
  induction left generalizing s with
  | zero => exact restoreRounds_two moment ids 0 0 s nofun
  | succ left ih =>
      refine restoreRounds_two moment ids (left + 1) (2 * (left + 1)) s fun s' left' same => ?_
      cases same
      exact ih s'

theorem restore_eq_steps (moment : Moment) (ids : Nat → String) (s : Store) :
    c.steps b space moment ids (2 * restoreTries) (s, .planning (restoreTries - 1)) =
      ((s.restore b space c moment ids).1, .done (s.restore b space c moment ids).2) :=
  restoreRounds_eq_steps moment ids (restoreTries - 1) s

end Restore

/-! ## What a plan is for -/

/-- The keys a restore is to bring back: a snapshot's own, less the skips. -/
def RestoreTarget.covers (set : KeySet) : RestoreTarget → KeySet
  | .rev _ | .at _ => set
  | .snapshot doc => ⟨doc.prefixes, doc.excepts, set.skips⟩

/-- What a restore planned after a run is to bring a space's keys to. -/
def RestoreTarget.Aims (b : Backend) (space : Space) (run : Timeline) (want : String → Option String) :
    RestoreTarget → Prop
  | .rev r => ∃ early, early <+: run ∧ (Store.ran b early).headRev space = r ∧ want = (Store.ran b early).text space
  | .at t => want = (Store.ran b (run.upTo t)).text space
  | .snapshot doc => want = fun key => (doc.items.lookup key).map fun v => String.ofList v.render

section Sets

theorem mem_cleanPrefixes {what : String} {list out : List String} {max : Nat}
    (cleaned : cleanPrefixes what list max = .ok out) (p : String) : p ∈ out ↔ p ∈ list := by
  have folded : ∀ (more start kept : List String), more.foldlM (cleanPrefix what) start = .ok kept →
      (p ∈ kept ↔ p ∈ start ∨ p ∈ more) := by
    intro more
    induction more with
    | nil =>
        intro start kept same
        cases same
        simp
    | cons q rest ih =>
        intro start kept same
        rw [List.foldlM_cons, bind_eq_ok] at same
        obtain ⟨next, one, later⟩ := same
        rw [ih next kept later]
        simp only [cleanPrefix] at one
        split at one
        · cases one
        · obtain ⟨⟨⟩, -, same⟩ := bind_eq_ok.mp one
          cases same
          split
          next there =>
            simp only [List.mem_cons]
            constructor
            · rintro (old | later)
              · exact .inl old
              · exact .inr (.inr later)
            · rintro (old | rfl | later)
              · exact .inl old
              · exact .inl there
              · exact .inr later
          next => simp [or_assoc]
  rw [cleanPrefixes] at cleaned
  split at cleaned
  · cases cleaned
  · obtain ⟨kept, done, rfl⟩ := map_eq_ok.mp cleaned
    rw [(List.perm_insertionSort _ _).mem_iff, folded list [] kept done]
    simp

/-- A key set covers by what its lists hold, not by their order. -/
theorem KeySet.contains_congr {set set' : KeySet} (prefixes : ∀ p, p ∈ set.prefixes ↔ p ∈ set'.prefixes)
    (excepts : ∀ p, p ∈ set.excepts ↔ p ∈ set'.excepts) (skips : ∀ p, p ∈ set.skips ↔ p ∈ set'.skips) :
    set.contains = set'.contains := by
  have any_congr : ∀ {l l' : List String} (f : String → Bool), (∀ p, p ∈ l ↔ p ∈ l') → l.any f = l'.any f := by
    intro l l' f same
    rw [Bool.eq_iff_iff, List.any_eq_true, List.any_eq_true]
    exact exists_congr fun p => and_congr_left fun _ => same p
  have empty : set.prefixes.isEmpty = set'.prefixes.isEmpty := by
    rw [Bool.eq_iff_iff, List.isEmpty_iff, List.isEmpty_iff, List.eq_nil_iff_forall_not_mem,
      List.eq_nil_iff_forall_not_mem]
    exact forall_congr' fun p => not_congr (prefixes p)
  funext key
  simp only [KeySet.contains, empty, any_congr _ prefixes, any_congr _ excepts, any_congr _ skips]

theorem KeySet.contains_new {prefixes excepts skips : List String} {set : KeySet}
    (made : KeySet.new prefixes excepts skips = .ok set) :
    set.contains = (⟨prefixes, excepts, skips⟩ : KeySet).contains := by
  simp only [KeySet.new, bind_eq_ok] at made
  obtain ⟨ps, cleaned, es, cleaned', ss, cleaned'', same⟩ := made
  cases same
  exact contains_congr (mem_cleanPrefixes cleaned) (mem_cleanPrefixes cleaned') (mem_cleanPrefixes cleaned'')

end Sets

section Aims

variable {b : Backend} {s : Store} {space : Space} {set : KeySet} {canWrite : String → Bool}

theorem canonical_eq {v : Value} {t : String} (wrote : canonical v = .ok t) : t = String.ofList v.render := by
  simp only [canonical] at wrote
  split at wrote
  · cases wrote
  · exact (Except.ok.inj wrote).symm

theorem lookup_goners (keys : List String) (targets : FinMap String (Option String)) (key : String) :
    (keys.foldl (fun targets key => targets.insert key none) targets).lookup key =
      if key ∈ keys then some none else targets.lookup key := by
  induction keys generalizing targets with
  | nil => simp
  | cons k rest ih =>
      rw [List.foldl_cons, ih, FinMap.lookup_insert]
      by_cases later : key ∈ rest
      · simp [later]
      · by_cases own : k = key
        · simp [later, own]
        · simp [later, own, Ne.symm own]

theorem lookup_covered (items : List (String × Value)) (key : String) :
    (items.filter fun item => set.contains item.1).lookup key =
      if set.contains key then items.lookup key else none := by
  induction items with
  | nil => simp
  | cons item rest ih =>
      obtain ⟨k, v⟩ := item
      rw [List.filter_cons, List.lookup_cons]
      by_cases covered : set.contains k = true
      · rw [if_pos covered, List.lookup_cons, ih]
        by_cases own : key = k
        · subst own
          simp [covered]
        · simp [beq_eq_false_iff_ne.mpr own]
      · rw [if_neg covered, ih]
        by_cases own : key = k
        · subst own
          simp [covered]
        · simp [beq_eq_false_iff_ne.mpr own]

theorem lookup_rows (items : FinMap String Value) (key : String) : items.rows.lookup key = items.lookup key := by
  rw [FinMap.lookup, KeyedTable.get]
  induction items.rows with
  | nil => rfl
  | cons item rest ih =>
      obtain ⟨k, v⟩ := item
      rw [List.lookup_cons, List.find?_cons]
      by_cases own : key = k
      · simp [own]
      · rw [beq_eq_false_iff_ne.mpr own, ih, decide_eq_false (Ne.symm own)]

/-- The targets of a snapshot: its items, and none for what is live beside them. -/
theorem snapshotTargets_spec {live : List String} {items : List (String × Value)}
    {targets : FinMap String (Option String)} (distinct : (items.map Prod.fst).Nodup)
    (collected : snapshotTargets live items set = .ok targets) (key : String) :
    targets.lookup key = if set.contains key then
        match items.lookup key with
        | some v => some (some (String.ofList v.render))
        | none => if key ∈ live then some none else none
      else none := by
  have folded : ∀ (more : List (String × Value)) (start kept : FinMap String (Option String)),
      (more.map Prod.fst).Nodup →
      more.foldlM (fun targets item => (canonical item.2).map fun text => targets.insert item.1 (some text)) start =
        .ok kept → kept.lookup key = match more.lookup key with
          | some v => some (some (String.ofList v.render))
          | none => start.lookup key := by
    intro more
    induction more with
    | nil =>
        intro start kept _ same
        cases same
        rfl
    | cons item rest ih =>
        intro start kept once same
        obtain ⟨k, v⟩ := item
        rw [List.map_cons, List.nodup_cons] at once
        rw [List.foldlM_cons, bind_eq_ok] at same
        obtain ⟨next, one, later⟩ := same
        obtain ⟨text, wrote, rfl⟩ := map_eq_ok.mp one
        rw [ih _ kept once.2 later, FinMap.lookup_insert, List.lookup_cons]
        by_cases own : key = k
        · subst own
          have absent : rest.lookup key = none := by
            rw [List.lookup_eq_none_iff]
            intro p member
            rw [bne_iff_ne]
            exact fun same => once.1 (List.mem_map.mpr ⟨p, member, same.symm⟩)
          rw [absent, if_pos rfl, canonical_eq wrote]
          simp
        · rw [if_neg (Ne.symm own), beq_eq_false_iff_ne.mpr own]
  have kept := folded (items.filter fun item => set.contains item.1) _ targets
    (distinct.sublist (List.filter_sublist.map _)) collected
  rw [kept, lookup_goners, lookup_covered]
  by_cases covered : set.contains key = true
  · simp [covered]
  · simp [covered]

theorem mem_liveNames {key : String} : key ∈ s.liveNames space ↔ s.text space key ≠ none := by
  have listed : key ∈ s.liveNames space ↔ ∃ e ∈ s.entries.rows, e.pk = (space, key) ∧ e.deleted = false := by
    simp only [Store.liveNames, List.mem_map, List.mem_filter, Bool.and_eq_true, decide_eq_true_eq,
      Bool.not_eq_true', EntryRow.pk, Prod.mk.injEq]
    constructor
    · rintro ⟨e, ⟨member, here, alive⟩, own⟩
      exact ⟨e, member, ⟨here, own⟩, alive⟩
    · rintro ⟨e, member, ⟨here, own⟩, alive⟩
      exact ⟨e, ⟨member, here, alive⟩, own⟩
  rw [listed, Store.text]
  cases found : s.entries.get (space, key) with
  | none =>
      rw [Store.live_of_none found]
      refine ⟨?_, fun absent => absurd rfl absent⟩
      rintro ⟨e, member, own, -⟩
      exact absurd own (KeyedTable.get_eq_none.mp found e member)
  | some e =>
      obtain ⟨member, own⟩ := KeyedTable.get_eq_some.mp found
      rw [Store.live_of_some found]
      constructor
      · rintro ⟨e', member', own', alive⟩
        obtain rfl := s.entries.eq_of_key member' member (own'.trans own.symm)
        have check := e'.check
        rw [alive] at check ⊢
        intro absent
        rw [show e'.value = none from absent] at check
        cases check
      · intro there
        refine ⟨e, member, own, ?_⟩
        cases gone : e.deleted with
        | false => rfl
        | true =>
            rw [gone] at there
            exact absurd rfl there

theorem snapshot_targets {doc : SnapshotDoc} {saved : KeySet} {targets : FinMap String (Option String)}
    (collected : snapshotTargets (s.liveNames space) doc.items.rows saved = .ok targets) :
    Targets s space saved.contains (fun key => (doc.items.lookup key).map fun v => String.ofList v.render)
      targets := by
  have found := snapshotTargets_spec doc.items.distinct collected
  have items : ∀ key, doc.items.rows.lookup key = doc.items.lookup key := fun key => lookup_rows doc.items key
  refine ⟨?_, ?_⟩
  · intro key v target
    rw [found key, items key] at target
    split at target
    next covered =>
      refine ⟨covered, ?_⟩
      cases item : doc.items.lookup key with
      | some v' =>
          rw [item] at target
          exact (Option.some.inj target).symm
      | none =>
          rw [item] at target
          simp only at target
          split at target
          · exact (Option.some.inj target).symm
          · cases target
    next => cases target
  · intro key covered target
    rw [found key, items key, if_pos covered] at target
    cases item : doc.items.lookup key with
    | some v =>
        rw [item] at target
        cases target
    | none =>
        rw [item] at target
        simp only at target
        split at target
        next => cases target
        next absent => exact not_not.mp (mt mem_liveNames.mpr absent)

/-- A snapshot's plan brings the keys it saved back to its items. -/
theorem planSnapshot_brings {doc : SnapshotDoc} {plan : RestorePlan}
    (planned : s.planSnapshot b space set canWrite doc = .ok plan) :
    plan.set.contains = (⟨doc.prefixes, doc.excepts, set.skips⟩ : KeySet).contains ∧
      Brings b s space (⟨doc.prefixes, doc.excepts, set.skips⟩ : KeySet).contains
        (fun key => (doc.items.lookup key).map fun v => String.ofList v.render) plan.ops := by
  obtain ⟨saved, made, planned⟩ := bind_eq_ok.mp planned
  have covers := KeySet.contains_new made
  dsimp only at planned
  split at planned
  next => split at planned <;> cases planned
  next =>
    obtain ⟨targets, collected, planned⟩ := bind_eq_ok.mp planned
    obtain ⟨ops, listed, same⟩ := bind_eq_ok.mp planned
    cases same
    exact ⟨covers, covers ▸ (snapshot_targets collected).brings listed⟩

/-- A plan made after a run brings the keys its target covers where the target
    aims. -/
theorem restorePlan_brings {run : Timeline} (forward : run.Forward) {target : RestoreTarget} {plan : RestorePlan}
    (planned : (Store.ran b run).restorePlan b space set canWrite target = .ok plan) :
    plan.set.contains = (target.covers set).contains ∧ ∃ want, target.Aims b space run want ∧
      Brings b (Store.ran b run) space (target.covers set).contains want plan.ops := by
  obtain ⟨past, time, trace⟩ := traced b space run forward
  obtain ⟨low, recorded⟩ := trace.recorded
  obtain ⟨-, oldest_nonneg, -⟩ := recorded.restorable
  unfold Store.restorePlan at planned
  split at planned
  next => cases planned
  next =>
    match target with
    | .rev r =>
        obtain ⟨from_oldest, to_head, -, set_eq, brings⟩ := recorded.planBack planned
        obtain ⟨early, pre, rev⟩ := trace.reached r (by omega) to_head
        obtain ⟨-, -, text⟩ := trace.early early pre
        rw [rev] at text
        exact ⟨by rw [set_eq]; rfl, past r, ⟨early, pre, rev, text.symm⟩, brings⟩
    | .at t =>
        obtain ⟨r, rev, planned⟩ := bind_eq_ok.mp planned
        obtain ⟨-, -, -, set_eq, brings⟩ := recorded.planBack planned
        rcases trace.revAt t with refused | rev'
        · rw [refused] at rev
          cases rev
        · obtain rfl := Except.ok.inj (rev.symm.trans rev')
          obtain ⟨-, -, text⟩ := trace.early _ (Timeline.upTo_of_isPrefix run t)
          exact ⟨by rw [set_eq]; rfl, _, text.symm, brings⟩
    | .snapshot doc =>
        obtain ⟨covers, brings⟩ := planSnapshot_brings planned
        exact ⟨covers, _, rfl, brings⟩

end Aims

/-! ## What an op makes of a text -/

theorem Op.Makes.unique {b : Backend} {op : Op} {t made made' : Option String} (one : op.Makes b t made)
    (two : op.Makes b t made') : made = made' := by
  cases one with
  | put wrote =>
      cases two with
      | put wrote' => exact congrArg some (Except.ok.inj (wrote.symm.trans wrote'))
  | delete =>
      cases two with
      | delete => rfl
  | merge read changed wrote =>
      cases two with
      | merge read' changed' wrote' =>
          cases read.symm.trans read'
          cases changed.symm.trans changed'
          exact congrArg some (Except.ok.inj (wrote.symm.trans wrote'))
      | keep read' same =>
          cases read.symm.trans read'
          cases changed.symm.trans same
  | keep read same =>
      cases two with
      | merge read' changed wrote =>
          cases read.symm.trans read'
          cases changed.symm.trans same
      | keep read' same' => rfl

/-! ## A plan written later -/

section Later

variable {b : Backend} {seen s s' : Store} {moment : Moment} {space : Space} {covers : String → Bool}
  {want : String → Option String} {ops : List Op} {who : String} {indexed : Bool} {mark : Option RestoreMark}
  {planned : List Planned}

/-- Where a plan's ops land, their keys are as the plan saw them. -/
theorem Brings.made (brings : Brings b seen space covers want ops) (kept : Store.Kept s)
    (known : ∀ key, s.Seen space key (seen.live space key).rev (seen.text space key))
    (plan : s.planWrite b moment space ops indexed = .ok planned) (wrote : Wrote moment space who mark planned s s')
    {op : Op} (member : op ∈ ops) : s.text space op.key = seen.text space op.key ∧ op.Sets b (want op.key) ∧
      op.Makes b (s.text space op.key) (s'.text space op.key) := by
  obtain ⟨ops_eq, -, follows⟩ := planWrite_spec plan
  rw [← ops_eq] at member
  obtain ⟨p, listed, rfl⟩ := List.mem_map.mp member
  obtain ⟨-, ifRev, -, sets⟩ := brings.each p.op (ops_eq ▸ member)
  have matched : (s.live space p.op.key).rev = (seen.live space p.op.key).rev := by
    rw [← (follows p listed).live]
    exact ((follows p listed).ifRev _ ifRev).symm
  have made := makes_of_follows kept (follows p listed)
  rw [← wrote_text plan wrote listed] at made
  exact ⟨(known p.op.key).same matched, sets, made⟩

/-- A covered key without an op was where it is wanted, and stays where it is. -/
theorem Brings.left (plan : s.planWrite b moment space ops indexed = .ok planned)
    (wrote : Wrote moment space who mark planned s s') (key : String) (own : key ∉ ops.map Op.key) :
    s'.text space key = s.text space key := by
  obtain ⟨ops_eq, -⟩ := planWrite_spec plan
  refine congrArg Live.text (wrote_apart wrote fun p listed _ same => own ?_)
  rw [← ops_eq, List.map_map]
  exact List.mem_map.mpr ⟨p, listed, (Prod.ext_iff.mp same).2⟩

/-- A plan that lands brings every covered key where it is wanted just when those
    that were there already are there still, and the texts it brings are read back
    as they are. -/
theorem Brings.lands (brings : Brings b seen space covers want ops) (kept : Store.Kept s)
    (known : ∀ key, s.Seen space key (seen.live space key).rev (seen.text space key))
    (plan : s.planWrite b moment space ops indexed = .ok planned) (wrote : Wrote moment space who mark planned s s') :
    (∀ key, covers key = true → s'.text space key = want key) ↔
      (∀ key, covers key = true → seen.text space key = want key → s.text space key = want key) ∧
      b.RereadsTo seen space covers want := by
  have left := Brings.left plan wrote
  constructor
  · intro lands
    constructor
    · intro key covered there
      have own : key ∉ ops.map Op.key := by
        intro own
        obtain ⟨op, member, rfl⟩ := List.mem_map.mp own
        exact (brings.each op member).2.2.1 there
      rw [← left key own]
      exact lands key covered
    · intro key t covered held apart
      by_cases own : key ∈ ops.map Op.key
      · obtain ⟨op, member, rfl⟩ := List.mem_map.mp own
        obtain ⟨-, sets, makes⟩ := brings.made kept known plan wrote member
        exact (sets.makes_iff _).mp (lands _ covered ▸ makes) t held
      · exact absurd (held ▸ brings.rest key covered own) apart
  · rintro ⟨still, reads⟩ key covered
    by_cases own : key ∈ ops.map Op.key
    · obtain ⟨op, member, rfl⟩ := List.mem_map.mp own
      obtain ⟨-, sets, makes⟩ := brings.made kept known plan wrote member
      refine makes.unique ((sets.makes_iff _).mpr fun t held => reads op.key t covered held ?_)
      exact held ▸ (brings.each op member).2.2.1
    · rw [left key own]
      exact still key covered (brings.rest key covered own)

end Later

/-! ## What a run keeps -/

section Ran

variable {b : Backend} {space : Space}

theorem historyStep_kept {s : Store} (kept : Store.Kept s) (e : Int × HistoryStep) :
    Store.Kept (s.historyStep b e) := by
  obtain ⟨now, step⟩ := e
  cases step with
  | write fileBytes target ops who indexed mark =>
      simp only [Store.historyStep]
      rcases writeWith_cases b s ⟨now, fileBytes⟩ target ops who indexed mark with
        ⟨e, refused⟩ | ⟨planned, plan, ⟨-, idle⟩ | ⟨-, s', wrote, answer⟩⟩
      · rw [refused]
        exact kept
      · rw [idle]
        exact kept
      · rw [answer]
        exact kept.write plan wrote
  | reap => exact kept.reap now
  | trim max => exact (trimHistory_faded s max now).kept kept

theorem historyStep_seen {s : Store} {key : String} {rev : Int} {text : Option String}
    (seen : s.Seen space key rev text) (e : Int × HistoryStep) :
    (s.historyStep b e).Seen space key rev text := by
  obtain ⟨now, step⟩ := e
  cases step with
  | write fileBytes target ops who indexed mark =>
      simp only [Store.historyStep]
      rcases writeWith_cases b s ⟨now, fileBytes⟩ target ops who indexed mark with
        ⟨e, refused⟩ | ⟨planned, plan, ⟨-, idle⟩ | ⟨-, s', wrote, answer⟩⟩
      · rw [refused]
        exact seen
      · rw [idle]
        exact seen
      · rw [answer]
        exact seen.write wrote
  | reap => exact seen.reap now
  | trim max =>
      have faded := trimHistory_faded s max now
      have head : (s.trimHistory max now).1.headRev space = s.headRev space := by
        rw [Store.headRev, Store.headRev, faded.spaces]
      have live : (s.trimHistory max now).1.live space key = s.live space key := by
        rw [Store.live, Store.live, faded.entries]
      exact ⟨head.symm ▸ seen.le, seen.absent, live.symm ▸ seen.same⟩

theorem ran_kept (run : Timeline) : Store.Kept (Store.ran b run) :=
  List.foldlRecOn run (Store.historyStep b) Store.kept_empty fun _ kept e _ => historyStep_kept kept e

/-- What was read of a key at some point of a run is known at its end. -/
theorem ran_seen {early run : Timeline} (pre : early <+: run) (key : String) :
    (Store.ran b run).Seen space key ((Store.ran b early).live space key).rev
      ((Store.ran b early).text space key) := by
  obtain ⟨rest, rfl⟩ := pre
  rw [Store.ran, List.foldl_append]
  have start := (ran_kept (b := b) early).seen space key
  induction rest using List.reverseRecOn with
  | nil => exact start
  | append_singleton rest e ih =>
      rw [List.foldl_concat]
      exact historyStep_seen ih e

end Ran

/-! ## A restore among other writes -/

/-- What happens next: the call's own step, at a moment and with the id drawn for
    it, or a step of somebody else. -/
inductive RestoreMove where
  | step (moment : Moment) (id : String)
  | other (now : Int) (step : HistoryStep)

def RestoreMove.now : RestoreMove → Int
  | .step moment _ => moment.now
  | .other now _ => now

/-- The store and the call, with the steps the store has taken and those it had
    taken when the plan was made. -/
structure Restoring where
  store : Store
  call : RestoreStanding
  trace : Timeline
  planned : Timeline

namespace Restoring

section Run

variable (b : Backend) (space : Space) (c : RestoreCall)

def start : Restoring := ⟨.empty, .planning (restoreTries - 1), [], []⟩

def next (r : Restoring) : RestoreMove → Restoring
  | .other now step => { r with store := r.store.historyStep b (now, step), trace := r.trace ++ [(now, step)] }
  | .step moment id =>
      let (store, call) := c.step b space moment id r.store r.call
      match r.call with
      | .planning _ => { r with store, call, planned := r.trace }
      | .writing _ plan =>
          { r with store, call, trace := r.trace ++
              [(moment.now, .write moment.fileBytes space plan.ops c.who true (some (plan.mark id)))] }
      | .done _ => { r with store, call }

def after (moves : List RestoreMove) : Restoring := moves.foldl (next b space c) start

/-- The plan that stands is the one of the store it was made in. -/
structure Sound (r : Restoring) : Prop where
  store : r.store = Store.ran b r.trace
  early : r.planned <+: r.trace
  plan : ∀ left plan, r.call = .writing left plan →
    (Store.ran b r.planned).restorePlan b space c.set c.canWrite c.target = .ok plan

variable {b space c}

theorem step_writing_store (moment : Moment) (id : String) (s : Store) (left : Nat) (plan : RestorePlan) :
    (c.step b space moment id s (.writing left plan)).1 =
      s.historyStep b (moment.now, .write moment.fileBytes space plan.ops c.who true (some (plan.mark id))) := by
  simp only [RestoreCall.step, Store.writeMarked, Store.historyStep]
  rcases s.writeWith b moment space plan.ops c.who true (some (plan.mark id)) with ⟨s', e | ⟨rev, changed⟩⟩
  · cases e <;> rfl
  · cases changed <;> rfl

theorem step_planning_store (moment : Moment) (id : String) (s : Store) (left : Nat) :
    (c.step b space moment id s (.planning left)).1 = s := by
  simp only [RestoreCall.step]
  cases s.restorePlan b space c.set c.canWrite c.target <;> rfl

variable (b space c) in
theorem step_plan (moment : Moment) (id : String) (s : Store) (st : RestoreStanding) (left : Nat)
    (plan : RestorePlan) (stands : (c.step b space moment id s st).2 = .writing left plan) :
    (∃ left', st = .planning left') ∧ s.restorePlan b space c.set c.canWrite c.target = .ok plan := by
  cases st with
  | planning left' =>
      refine ⟨⟨left', rfl⟩, ?_⟩
      simp only [RestoreCall.step] at stands
      cases made : s.restorePlan b space c.set c.canWrite c.target with
      | error e =>
          rw [made] at stands
          cases stands
      | ok plan' =>
          rw [made] at stands
          simp only at stands
          split at stands
          · cases stands
          · cases stands
            rfl
  | writing left' plan' =>
      simp only [RestoreCall.step] at stands
      split at stands
      · cases stands
      · split at stands <;> cases stands
      · cases stands
  | done a => cases stands

theorem Sound.next {r : Restoring} (sound : Sound b space c r) (m : RestoreMove) :
    Sound b space c (r.next b space c m) := by
  cases m with
  | other now step =>
      refine ⟨?_, sound.early.trans (List.prefix_append _ _), sound.plan⟩
      simp only [Restoring.next, ran_append, sound.store]
  | step moment id =>
      have plan := step_plan b space c moment id r.store r.call
      simp only [Restoring.next]
      cases standing : r.call with
      | planning left =>
          rw [standing] at plan
          refine ⟨(step_planning_store ..).trans sound.store, List.prefix_rfl, fun left' plan' stands => ?_⟩
          rw [← sound.store]
          exact (plan left' plan' stands).2
      | writing left made =>
          rw [standing] at plan
          refine ⟨?_, sound.early.trans (List.prefix_append _ _), fun left' plan' stands => ?_⟩
          · rw [ran_append, ← sound.store]
            exact step_writing_store ..
          · obtain ⟨⟨_, impossible⟩, -⟩ := plan left' plan' stands
            cases impossible
      | done a =>
          rw [standing] at plan
          refine ⟨sound.store, sound.early, fun left' plan' stands => ?_⟩
          obtain ⟨⟨_, impossible⟩, -⟩ := plan left' plan' stands
          cases impossible

theorem start_sound : Sound b space c start := ⟨rfl, List.prefix_rfl, nofun⟩

variable (b space c) in
theorem sound_after (moves : List RestoreMove) : Sound b space c (after b space c moves) :=
  List.foldlRecOn moves (next b space c) start_sound fun _ sound m _ => sound.next m

/-- The steps the store takes are moves of the run, in their order. -/
theorem trace_times (moves : List RestoreMove) :
    ((after b space c moves).trace.map Prod.fst).Sublist (moves.map RestoreMove.now) := by
  induction moves using List.reverseRecOn with
  | nil => exact List.Sublist.refl _
  | append_singleton moves m ih =>
      rw [after, List.foldl_concat, List.map_append, List.map_singleton]
      cases m with
      | other now step =>
          simp only [next, List.map_append, List.map_singleton]
          exact ih.append (List.Sublist.refl _)
      | step moment id =>
          have kept := ih.trans (List.sublist_append_left _ [moment.now])
          simp only [next]
          cases standing : (moves.foldl (next b space c) start).call with
          | planning left => exact kept
          | writing left plan =>
              simp only [List.map_append, List.map_singleton]
              exact ih.append (List.Sublist.refl _)
          | done a => exact kept

variable (b space c) in
theorem trace_forward {moves : List RestoreMove} (forward : (moves.map RestoreMove.now).Pairwise (· ≤ ·)) :
    (after b space c moves).trace.Forward := forward.sublist (trace_times moves)

variable (b space c) in
/-- An answer is final. -/
theorem done_stays {a : Except DataError Restored} {r : Restoring} (answered : r.call = .done a)
    (moves : List RestoreMove) : (moves.foldl (next b space c) r).call = .done a := by
  induction moves generalizing r with
  | nil => exact answered
  | cons m rest ih =>
      apply ih
      cases m with
      | other now step => exact answered
      | step moment id =>
          simp only [next, answered]
          rfl

variable (b space c) in
/-- A step of a call writes nothing, or answers with the new rev. -/
theorem step_wrote (moment : Moment) (id : String) (s : Store) (st : RestoreStanding) :
    ((c.step b space moment id s st).1 = s ∧ ((∀ a, st ≠ .done a) → (c.step b space moment id s st).2.rev = none)) ∨
    ∃ left plan planned, st = .writing left plan ∧ s.planWrite b moment space plan.ops true = .ok planned ∧
      Wrote moment space c.who (some (plan.mark id)) planned s (c.step b space moment id s st).1 ∧
      (c.step b space moment id s st).2 = .done (.ok ⟨some id, some (s.headRev space + 1), plan⟩) := by
  cases st with
  | planning left =>
      refine .inl ⟨step_planning_store .., fun _ => ?_⟩
      simp only [RestoreCall.step]
      cases s.restorePlan b space c.set c.canWrite c.target with
      | error e => rfl
      | ok plan => cases nothing : plan.ops.isEmpty <;> simp only [nothing] <;> rfl
  | done a => exact .inl ⟨rfl, fun waiting => absurd rfl (waiting a)⟩
  | writing left plan =>
      simp only [RestoreCall.step, Store.writeMarked]
      rcases writeWith_cases b s moment space plan.ops c.who true (some (plan.mark id)) with
        ⟨e, refused⟩ | ⟨planned, follows, ⟨-, idle⟩ | ⟨-, s', wrote, answer⟩⟩
      · rw [refused]
        cases e with
        | conflict key rev op => cases left <;> exact .inl ⟨rfl, fun _ => rfl⟩
        | _ => exact .inl ⟨rfl, fun _ => rfl⟩
      · rw [idle]
        exact .inl ⟨rfl, fun _ => rfl⟩
      · rw [answer]
        exact .inr ⟨left, plan, planned, rfl, follows, wrote, rfl⟩

variable (b space c) in
theorem next_step (r : Restoring) (moment : Moment) (id : String) :
    (r.next b space c (.step moment id)).store = (c.step b space moment id r.store r.call).1 ∧
      (r.next b space c (.step moment id)).call = (c.step b space moment id r.store r.call).2 := by
  simp only [next]
  cases r.call <;> exact ⟨rfl, rfl⟩

/-- A call that will answer an error writes nothing. -/
theorem step_of_failed {moment : Moment} {id : String} {r : Restoring} {e : DataError} {later : List RestoreMove}
    (failed : (later.foldl (next b space c) (r.next b space c (.step moment id))).call = .done (.error e)) :
    (r.next b space c (.step moment id)).store = r.store := by
  obtain ⟨store, call⟩ := next_step b space c r moment id
  rcases step_wrote b space c moment id r.store r.call with
    ⟨same, -⟩ | ⟨left, plan, planned, -, -, -, answered⟩
  · exact store.trans same
  · have final := done_stays b space c (call.trans answered) later
    cases failed.symm.trans final

end Run

end Restoring

/-- In every run of a restore among other writes, reaper passes and trims, a call
    that answers a rev put what its plan read of the targets onto what the plan saw,
    and every key it covers is at its target just when those that were there when the
    plan was made are there still and each target's text is read back as itself; and
    a call that answers an error wrote nothing. -/
theorem restore_lands_iff (b : Backend) (space : Space) (c : RestoreCall) (moves : List RestoreMove)
    (forward : (moves.map RestoreMove.now).Pairwise (· ≤ ·)) :
    let run := Restoring.after b space c
    (∀ early moment id late answer rev, moves = early ++ .step moment id :: late →
      (∀ a, (run early).call ≠ .done a) → (run (early ++ [.step moment id])).call = .done (.ok answer) →
      answer.rev = some rev →
      let seen := Store.ran b (run early).planned
      let before := (run early).store
      let after := (run (early ++ [.step moment id])).store
      after.headRev space = rev ∧ answer.plan.set.contains = (c.target.covers c.set).contains ∧
      ∃ want, c.target.Aims b space (run early).planned want ∧
        (∀ op ∈ answer.plan.ops, before.text space op.key = seen.text space op.key ∧ op.Sets b (want op.key) ∧
          op.Makes b (before.text space op.key) (after.text space op.key)) ∧
        ((∀ key, answer.plan.set.contains key = true → after.text space key = want key) ↔
          (∀ key, answer.plan.set.contains key = true → seen.text space key = want key →
            before.text space key = want key) ∧
          b.RereadsTo seen space answer.plan.set.contains want)) ∧
    ∀ e, (run moves).call = .done (.error e) → ∀ early moment id late, moves = early ++ .step moment id :: late →
      (run (early ++ [.step moment id])).store = (run early).store := by
  intro run
  constructor
  · rintro early moment id late answer rev rfl waiting answered at_rev
    have sound := Restoring.sound_after b space c early
    have now : run (early ++ [.step moment id]) = (run early).next b space c (.step moment id) := List.foldl_concat ..
    obtain ⟨store, call⟩ := Restoring.next_step b space c (run early) moment id
    have early_forward : (early.map RestoreMove.now).Pairwise (· ≤ ·) := by
      rw [List.map_append] at forward
      exact forward.sublist (List.sublist_append_left _ _)
    have forward' := (Restoring.trace_forward b space c early_forward).sublist
      (sound.early.sublist.map Prod.fst)
    rw [now] at answered ⊢
    rw [store]
    rw [call] at answered
    rcases Restoring.step_wrote b space c moment id (run early).store (run early).call with
      ⟨-, none_new⟩ | ⟨left, plan, planned, standing, follows, wrote, new⟩
    · have none_rev := none_new waiting
      rw [answered, RestoreStanding.rev, at_rev] at none_rev
      cases none_rev
    · cases answered.symm.trans new
      cases at_rev
      obtain ⟨contains, want, aims, brings⟩ := restorePlan_brings forward' (sound.plan left plan standing)
      have known : ∀ key, (run early).store.Seen space key
          ((Store.ran b (run early).planned).live space key).rev ((Store.ran b (run early).planned).text space key) := by
        rw [sound.store]
        exact ran_seen sound.early
      have kept : Store.Kept (run early).store := sound.store ▸ ran_kept _
      refine ⟨?_, contains, want, aims, fun op member => brings.made kept known follows wrote member, ?_⟩
      · rw [(Store.wrote_heads wrote space).1, if_pos rfl]
      · rw [contains]
        exact brings.lands kept known follows wrote
  · rintro e failed early moment id late rfl
    simp only [run, Restoring.after, List.foldl_append, List.foldl_cons, List.foldl_nil] at failed ⊢
    exact Restoring.step_of_failed failed

/-! ### Two restores -/

namespace Restoring

/-- A restore of the whole space to its rev 1. -/
def toFirst : RestoreCall := ⟨.rev 1, ⟨[], [], []⟩, fun _ => true, "owner"⟩

def somebody (now : Int) (op : Op) : RestoreMove := .other now (.write 0 ⟨"data:board"⟩ [op] "agent" true none)

/-- A key written and deleted, and the restore's plan. -/
def untilPlan : List RestoreMove :=
  [somebody 0 (.put "obj/1" (.number (.int 1)) none), somebody 1 (.delete "obj/1" none), .step ⟨2, 0⟩ "rs-1"]

/-- A key that was not there at rev 1 is written between the plan and its write. -/
def crossed : List RestoreMove := untilPlan ++ [somebody 3 (.put "obj/2" (.number (.int 1)) none)]

end Restoring

theorem restore_misses_new_key :
    let first := Store.ran smallBackend [(0, .write 0 ⟨"data:board"⟩ [.put "obj/1" (.number (.int 1)) none] "agent" true none)]
    let before := Restoring.after smallBackend ⟨"data:board"⟩ Restoring.toFirst Restoring.crossed
    let after := Restoring.after smallBackend ⟨"data:board"⟩ Restoring.toFirst
      (Restoring.crossed ++ [.step ⟨4, 0⟩ "rs-2"])
    before.call.rev = none ∧ after.call.rev = some 4 ∧ after.store.headRev ⟨"data:board"⟩ = 4 ∧
      Restoring.toFirst.set.contains "obj/2" = true ∧ first.headRev ⟨"data:board"⟩ = 1 ∧
      first.text ⟨"data:board"⟩ "obj/2" = none ∧ after.store.text ⟨"data:board"⟩ "obj/2" = some "1" := by
  decide +kernel

theorem answer_of_rev (st : RestoreStanding) (rev : Int) (answered : st.rev = some rev) :
    ∃ a, st = .done (.ok a) ∧ a.rev = some rev := by
  unfold RestoreStanding.rev at answered
  split at answered
  · exact ⟨_, rfl, answered⟩
  · cases answered

theorem restore_lands_iff_alone :
    let run := Restoring.after smallBackend ⟨"data:board"⟩ Restoring.toFirst
    let after := run (Restoring.untilPlan ++ [.step ⟨3, 0⟩ "rs-2"])
    ∃ answer, after.call = .done (.ok answer) ∧ after.store.headRev ⟨"data:board"⟩ = 3 ∧
      ∃ want, (RestoreTarget.rev 1).Aims smallBackend ⟨"data:board"⟩ (run Restoring.untilPlan).planned want ∧
        ∀ key, answer.plan.set.contains key = true → after.store.text ⟨"data:board"⟩ key = want key := by
  intro run after
  obtain ⟨answer, answered, at_rev⟩ := answer_of_rev after.call 3 (by decide +kernel)
  have tries : (run Restoring.untilPlan).call.left ≠ 0 := by decide +kernel
  obtain ⟨head, -, want, aims, -, lands⟩ := (restore_lands_iff smallBackend ⟨"data:board"⟩ Restoring.toFirst
    (Restoring.untilPlan ++ [.step ⟨3, 0⟩ "rs-2"]) (by decide +kernel)).1 Restoring.untilPlan ⟨3, 0⟩ "rs-2" [] answer 3 rfl
    (fun a answered => tries (by rw [answered]; rfl)) answered at_rev
  have texts : ∀ early ∈ (run Restoring.untilPlan).planned.inits,
      ∀ e ∈ (Store.ran smallBackend early).entries.rows, e.value = none ∨ e.value = some "1" := by decide +kernel
  have reads : ∀ s covers, smallBackend.RereadsTo s ⟨"data:board"⟩ covers want := by
    obtain ⟨early, pre, -, rfl⟩ := aims
    exact fun _ _ _ _ _ held _ => smallBackend_reads (texts early ((List.mem_inits ..).mpr pre)) held
  refine ⟨answer, answered, head, want, aims, lands.mpr ⟨fun key _ there => ?_, reads _ _⟩⟩
  have same : (run Restoring.untilPlan).store =
      Store.ran smallBackend (run Restoring.untilPlan).planned := rfl
  exact same ▸ there

end K2.GardenData
