import K2.GardenData.StoreRuns

/-! # Racing patches

`store.patch` reads a document, merges into it and writes it at the rev it read;
when someone wrote in between, it reads again. Calls run step by step among any
other writes, and drops and moves of spaces. The log tells what each commit made of
the key, and the key's document is what the log makes of it, one entry after the
other. A space that is dropped counts its revs from 1 again, so a rev read before
may be met again by another document: nothing but the rev tells them apart.
-/

namespace K2.GardenData

open Store (movedFrom)

/-! ## The patch -/

/-- What a patch did. -/
structure Patched where
  rev : Int
  /-- The whole document after the merge. -/
  value : Value
  /-- False when the patch changed nothing. -/
  changed : Bool
  deriving Repr

/-- Read-merge-write rounds before a race without `ifRev` answers `conflict`. -/
def maxAttempts : Nat := 5

/-- What a round does with the entry it read. -/
inductive Round where
  | answer (a : Except DataError Patched)
  | put (doc : Value) (live : Int)

def round (key : String) (part : Value) (ifRev : Option Int) (cur : Option Store.Entry) : Round :=
  let live := (cur.map (·.rev)).getD 0
  if ifRev.any (· ≠ live) then .answer (.error (.conflict key live none))
  else
    match merged key (cur.map (·.value)) part with
    | .error e => .answer (.error e)
    | .ok none => .answer (.ok ⟨live, (cur.map (·.value)).getD (.object []), false⟩)
    | .ok (some doc) => .put doc live

/-- A call of `store.patch`. -/
structure PatchCall where
  part : Value
  ifRev : Option Int
  who : String

/-- Before the loop, only a race that lost every round answers this. -/
def noRound (key : String) : DataError := .conflict key 0 none

section Patch

variable (b : Backend) (moment : Moment) (space : Space) (key : String) (c : PatchCall)

def patchRounds : Nat → DataError → Store → Store × Except DataError Patched
  | 0, last, s => (s, .error last)
  | n + 1, _, s =>
      match s.get b space key with
      | .error e => (s, .error e)
      | .ok cur =>
          match round key c.part c.ifRev cur with
          | .answer a => (s, a)
          | .put doc live =>
              match s.put b moment space key doc (some live) c.who with
              | (s, .ok rev) => (s, .ok ⟨rev, doc, true⟩)
              | (s, .error (.conflict k rev op)) =>
                  -- With the caller's `ifRev` that's their conflict; without it, merge again.
                  if c.ifRev.isNone then patchRounds n (.conflict k rev op) s
                  else (s, .error (.conflict k rev op))
              | (s, .error e) => (s, .error e)

/-- Merge a partial into the document at a key. -/
def Store.patch (s : Store) : Store × Except DataError Patched :=
  match checkPartial c.part c.ifRev with
  | .error e => (s, .error e)
  | .ok () => patchRounds b moment space key c maxAttempts (noRound key) s

/-! ## Its steps -/

/-- Where a call stands between two of its steps. -/
inductive Standing where
  /-- Before a read, with this many rounds left. -/
  | reading (left : Nat) (last : DataError)
  /-- Before the conditional put. -/
  | writing (left : Nat) (doc : Value) (live : Int)
  | done (answer : Except DataError Patched)

def PatchCall.start : Standing :=
  match checkPartial c.part c.ifRev with
  | .error e => .done (.error e)
  | .ok () => .reading maxAttempts (noRound key)

/-- The next step of a call: its read, or its put. -/
def PatchCall.step (s : Store) : Standing → Store × Standing
  | .reading 0 last => (s, .done (.error last))
  | .reading (n + 1) _ =>
      match s.get b space key with
      | .error e => (s, .done (.error e))
      | .ok cur =>
          match round key c.part c.ifRev cur with
          | .answer a => (s, .done a)
          | .put doc live => (s, .writing n doc live)
  | .writing n doc live =>
      match s.put b moment space key doc (some live) c.who with
      | (s, .ok rev) => (s, .done (.ok ⟨rev, doc, true⟩))
      | (s, .error (.conflict k rev op)) =>
          if c.ifRev.isNone then (s, .reading n (.conflict k rev op))
          else (s, .done (.error (.conflict k rev op)))
      | (s, .error e) => (s, .done (.error e))
  | .done a => (s, .done a)

/-- This many steps of a call that is alone. -/
def PatchCall.steps : Nat → Store × Standing → Store × Standing
  | 0, st => st
  | n + 1, st => PatchCall.steps n (c.step b moment space key st.1 st.2)

variable {b moment space key c}

theorem steps_done (n : Nat) (s : Store) (a : Except DataError Patched) :
    c.steps b moment space key n (s, .done a) = (s, .done a) := by
  induction n with
  | zero => rfl
  | succ n ih => exact ih

theorem patchRounds_eq_steps (n : Nat) (last : DataError) (s : Store) :
    c.steps b moment space key (2 * n + 1) (s, .reading n last) =
      ((patchRounds b moment space key c n last s).1, .done (patchRounds b moment space key c n last s).2) := by
  induction n generalizing last s with
  | zero => rfl
  | succ n ih =>
      have rounds : 2 * (n + 1) + 1 = 2 * n + 1 + 1 + 1 := rfl
      rw [rounds]
      generalize 2 * n + 1 = more at ih ⊢
      simp only [PatchCall.steps, PatchCall.step, patchRounds]
      cases s.get b space key with
      | error e => exact steps_done _ s _
      | ok cur =>
          simp only
          cases round key c.part c.ifRev cur with
          | answer a => exact steps_done _ s a
          | put doc live =>
              simp only
              rcases s.put b moment space key doc (some live) c.who with ⟨s', e | rev⟩
              · cases e with
                | conflict k rev op =>
                    cases asked : c.ifRev.isNone with
                    | true => exact ih _ s'
                    | false => exact steps_done _ s' _
                | _ => exact steps_done _ s' _
              · exact steps_done _ s' _

variable (b moment space key c) in
theorem patch_eq_steps (s : Store) : c.steps b moment space key (2 * maxAttempts + 1) (s, c.start key) =
    ((s.patch b moment space key c).1, .done (s.patch b moment space key c).2) := by
  simp only [Store.patch, PatchCall.start]
  cases checkPartial c.part c.ifRev with
  | error e => exact steps_done _ s _
  | ok checked => exact patchRounds_eq_steps _ _ s

end Patch

/-! ## What ops make of a document -/

/-- A key's document, by its text. -/
def Backend.document (b : Backend) : Option String → Except DataError (Option Value)
  | none => .ok none
  | some t => (b.parseValue (some t)).map some

/-- What an op makes of its key's text. -/
inductive Op.Makes (b : Backend) : Op → Option String → Option String → Prop where
  | put {key value ifRev t text} (wrote : canonical value = .ok t) :
      Makes b (.put key value ifRev) text (some t)
  | delete {key ifRev text} : Makes b (.delete key ifRev) text none
  | merge {key part ifRev text current doc t} (read : b.document text = .ok current)
      (changed : merged key current part = .ok (some doc)) (wrote : canonical doc = .ok t) :
      Makes b (.patch key part ifRev) text (some t)
  | keep {key part ifRev text current} (read : b.document text = .ok current)
      (same : merged key current part = .ok none) : Makes b (.patch key part ifRev) text text

/-- What lands on a key: an op, or the text a drop or a move of spaces leaves it. -/
inductive Landed where
  | op (op : Op)
  | became (text : Option String)

inductive Landed.Makes (b : Backend) : Landed → Option String → Option String → Prop where
  | op {op text text'} (makes : op.Makes b text text') : Makes b (.op op) text text'
  | became {text text'} : Makes b (.became text') text text'

/-- A key's text after what landed on it, one after the other. -/
inductive Replays (b : Backend) (text : Option String) : List Landed → Option String → Prop where
  | nil : Replays b text [] text
  | snoc {log mid landed text'} (before : Replays b text log mid) (last : landed.Makes b mid text') :
      Replays b text (log ++ [landed]) text'

/-- What an op makes of a document. -/
def Op.result (current : Option Value) : Op → Option Value
  | .put _ value _ => some value
  | .delete .. => none
  | .patch key part _ =>
      match merged key current part with
      | .ok (some doc) => some doc
      | _ => current

def Landed.result (b : Backend) (current : Option Value) : Landed → Option Value
  | .op change => change.result current
  | .became text =>
      match b.document text with
      | .ok d => d
      | .error _ => none

/-- A top-level field of a document. -/
def field (doc : Option Value) (name : String) : Option Value :=
  match doc with
  | some (.object o) => Members.get o name
  | _ => none

/-- Does an op leave a field alone? -/
def Op.Spares (name : String) (op : Op) : Prop :=
  ∃ key fields ifRev, op = .patch key (.object fields) ifRev ∧ name ∉ fields.map Prod.fst

def Landed.Spares (name : String) (landed : Landed) : Prop := ∃ op, landed = .op op ∧ op.Spares name

/-- Stored, the document is read back as it is. -/
def Backend.ReadsBack (b : Backend) (v : Value) : Prop := ∀ t, canonical v = .ok t → b.fromStr t = .ok v

section Replay

variable {b : Backend}

theorem document_of_wrote {v : Value} {t : String} (reads : b.ReadsBack v) (wrote : canonical v = .ok t) :
    b.document (some t) = .ok (some v) := by
  simp only [Backend.document, Backend.parseValue, reads t wrote]
  rfl

theorem field_of_spares {name : String} {op : Op} (spares : op.Spares name) (d : Option Value) :
    field (op.result d) name = field d name := by
  obtain ⟨key, fields, ifRev, rfl, absent⟩ := spares
  have merges : ∀ o, field (some (mergePatch (.object o) (.object fields))) name = Members.get o name :=
    fun o => by
      rw [mergePatch]
      exact get_mergeFields_of_not_mem absent o
  simp only [Op.result, merged]
  cases d with
  | none => exact merges []
  | some v =>
      cases v with
      | object o =>
          simp only [Value.isObject, if_true]
          cases same : (Value.object o).same (mergePatch (.object o) (.object fields)) with
          | true => rfl
          | false => exact merges o
      | _ => rfl

theorem field_kept {name : String} {log : List Landed} (spare : ∀ landed ∈ log, landed.Spares name)
    (d : Option Value) : field (log.foldl (Landed.result b) d) name = field d name := by
  induction log generalizing d with
  | nil => rfl
  | cons landed rest ih =>
      obtain ⟨op, rfl, spares⟩ := spare landed List.mem_cons_self
      rw [List.foldl_cons, ih fun other member => spare other (List.mem_cons_of_mem _ member)]
      exact field_of_spares spares d

theorem Op.Makes.document {op : Op} {text text' : Option String} {d : Option Value} (makes : op.Makes b text text')
    (now : b.document text = .ok d) (reads : ∀ v, op.result d = some v → b.ReadsBack v) :
    b.document text' = .ok (op.result d) := by
  cases makes with
  | put wrote => exact document_of_wrote (reads _ rfl) wrote
  | delete => rfl
  | merge read changed wrote =>
      cases now.symm.trans read
      simp only [Op.result, changed] at reads ⊢
      exact document_of_wrote (reads _ rfl) wrote
  | keep read same =>
      cases now.symm.trans read
      simp only [Op.result, same]
      exact now

theorem Replays.document {text text' : Option String} {log : List Landed} {d : Option Value}
    (replays : Replays b text log text') (start : b.document text = .ok d)
    (reads : ∀ early, early <+: log → ∀ v, early.foldl (Landed.result b) d = some v → b.ReadsBack v)
    (readable : ∀ t, .became t ∈ log → ∃ d, b.document t = .ok d) :
    b.document text' = .ok (log.foldl (Landed.result b) d) := by
  induction replays with
  | nil => exact start
  | @snoc log mid landed text' before last ih =>
      have now := ih (fun early pre => reads early (pre.trans (List.prefix_append _ _)))
        fun t member => readable t (List.mem_append_left _ member)
      have final := reads _ (List.prefix_refl _)
      rw [List.foldl_append, List.foldl_cons, List.foldl_nil] at final ⊢
      cases last with
      | op makes => exact makes.document now final
      | became =>
          obtain ⟨left, read⟩ := readable text' (by simp)
          simp only [Landed.result, read]

end Replay

/-! ## Writes to a key -/

section Writes

variable {b : Backend} {s s' : Store} {moment : Moment} {space : Space} {ops : List Op} {who : String}
  {indexed : Bool} {mark : Option RestoreMark} {planned : List Planned}

theorem Store.Kept.live_text (kept : Store.Kept s) (space : Space) (key : String) :
    (s.live space key).rev = 0 ↔ (s.live space key).text = none := by
  cases found : s.entries.get (space, key) with
  | none => simp [Store.live_of_none found]
  | some e =>
      have positive := (kept.rev e (KeyedTable.mem_of_get found)).1
      have check := e.check
      rw [Store.live_of_some found]
      cases gone : e.deleted with
      | true => simp
      | false =>
          rw [gone] at check
          have apart : e.rev ≠ 0 := by omega
          have there : e.value ≠ none := by
            intro absent
            simp [absent] at check
          simp [apart, there]

theorem Store.Kept.current (kept : Store.Kept s) (b : Backend) (space : Space) (key : String) :
    b.current (s.live space key) = b.document (s.live space key).text := by
  have same := kept.live_text space key
  simp only [Backend.current]
  split
  · rename_i absent
    rw [same.mp absent]
    rfl
  · rename_i there
    cases text : (s.live space key).text with
    | none => exact absurd (same.mpr text) there
    | some t => rfl

theorem makes_of_follows (kept : Store.Kept s) {p : Planned} (follows : Follows b s space p) :
    p.op.Makes b (s.live space p.op.key).text
      (if p.effective then p.text else (s.live space p.op.key).text) := by
  have none_if := kept.live_text space p.op.key
  have current := kept.current b space p.op.key
  rw [← follows.live] at none_if current ⊢
  obtain ⟨op, act, refs, live⟩ := p
  cases follows.decided with
  | put wrote => exact .put wrote
  | delete =>
      simp only [Planned.effective, Planned.text, decide_not, Bool.not_eq_true', decide_eq_false_iff_not]
      by_cases absent : live.rev = 0
      · rw [if_neg (not_not.mpr absent), none_if.mp absent]
        exact .delete
      · rw [if_pos absent]
        exact .delete
  | merge read changed wrote => exact .merge (current ▸ read) changed wrote
  | skip read same => exact .keep (current ▸ read) same

theorem wrote_text (plan : s.planWrite b moment space ops indexed = .ok planned)
    (wrote : Wrote moment space who mark planned s s') {p : Planned} (listed : p ∈ planned) :
    (s'.live space p.op.key).text = if p.effective then p.text else (s.live space p.op.key).text := by
  split
  · rename_i effective
    rw [Store.live_of_some (wrote.lands.entry p listed effective)]
    cases text : p.text <;> simp [Planned.entry]
  · rename_i still
    obtain ⟨ops_eq, distinct, -⟩ := planWrite_spec plan
    rw [← ops_eq, List.map_map] at distinct
    have kept : s'.entries.get (space, p.op.key) = s.entries.get (space, p.op.key) := by
      apply wrote.lands.entry_kept
      rintro q other effective same
      rw [List.inj_on_of_nodup_map distinct other listed (Prod.ext_iff.mp same).2] at effective
      exact still effective
    simp only [Store.live, kept]

theorem wrote_apart (wrote : Wrote moment space who mark planned s s') {other : Space} {key : String}
    (apart : ∀ p ∈ planned, p.effective = true → (space, p.op.key) ≠ (other, key)) :
    s'.live other key = s.live other key := by
  simp only [Store.live, wrote.lands.entry_kept (other, key) apart]

theorem filter_own {ops : List Op} {op : Op} (distinct : (ops.map Op.key).Nodup)
    (member : op ∈ ops) : ops.filter (·.key = op.key) = [op] := by
  induction ops with
  | nil => cases member
  | cons x rest ih =>
      rw [List.map_cons, List.nodup_cons] at distinct
      rw [List.filter_cons]
      rcases List.mem_cons.mp member with rfl | later
      · have others : rest.filter (·.key = op.key) = [] := by
          rw [List.filter_eq_nil_iff]
          intro y there same
          exact distinct.1 (List.mem_map.mpr ⟨y, there, of_decide_eq_true same⟩)
        rw [others, if_pos (decide_eq_true rfl)]
      · have apart : x.key ≠ op.key := by
          intro same
          exact distinct.1 (same ▸ List.mem_map_of_mem later)
        rw [if_neg (by simpa using apart), ih distinct.2 later]

theorem replays_own (kept : Store.Kept s) (plan : s.planWrite b moment space ops indexed = .ok planned)
    (key : String) {text : Option String} {log : List Landed} {text' : Option String}
    (before : Replays b text log (s.live space key).text)
    (after : ∀ p ∈ planned, p.op.key = key →
      text' = if p.effective then p.text else (s.live space key).text)
    (apart : (∀ p ∈ planned, p.op.key ≠ key) → text' = (s.live space key).text) :
    Replays b text (log ++ (ops.filter (·.key = key)).map .op) text' := by
  obtain ⟨ops_eq, distinct, follows⟩ := planWrite_spec plan
  by_cases own : ∃ p ∈ planned, p.op.key = key
  · obtain ⟨p, listed, rfl⟩ := own
    have one : ops.filter (·.key = p.op.key) = [p.op] := by
      have member : p.op ∈ ops := ops_eq ▸ List.mem_map_of_mem listed
      exact filter_own distinct member
    rw [one, after p listed rfl]
    exact .snoc before (.op (makes_of_follows kept (follows p listed)))
  · have absent : ∀ p ∈ planned, p.op.key ≠ key := fun p listed same => own ⟨p, listed, same⟩
    have none_own : ops.filter (·.key = key) = [] := by
      rw [List.filter_eq_nil_iff, ← ops_eq]
      intro op member
      obtain ⟨p, listed, rfl⟩ := List.mem_map.mp member
      simpa using absent p listed
    rw [none_own, List.map_nil, List.append_nil, apart absent]
    exact before

end Writes

/-! ## What a reader knows -/

/-- A rev and a text a key had: while it has that rev, it has that text. -/
structure Store.Seen (s : Store) (space : Space) (key : String) (rev : Int) (text : Option String) :
    Prop where
  le : rev ≤ s.headRev space
  absent : rev = 0 → text = none
  same : (s.live space key).rev = rev → (s.live space key).text = text

section Seen

variable {b : Backend} {s s' : Store} {moment : Moment} {space target : Space} {ops : List Op} {who : String}
  {indexed : Bool} {mark : Option RestoreMark} {planned : List Planned} {key : String} {rev : Int}
  {text : Option String}

namespace Store

theorem Kept.seen (kept : Kept s) (space : Space) (key : String) :
    s.Seen space key (s.live space key).rev (s.live space key).text := by
  refine ⟨?_, (kept.live_text space key).mp, fun _ => rfl⟩
  have start := kept.nonneg space
  cases found : s.entries.get (space, key) with
  | none =>
      rw [live_of_none found]
      exact start
  | some e =>
      have below := (kept.rev e (KeyedTable.mem_of_get found)).2
      rw [space_of_get found] at below
      rw [live_of_some found]
      split
      · exact start
      · exact below

/-- A write leaves the key alone, takes it, or gives it a rev no reader has seen. -/
theorem Seen.write (seen : s.Seen space key rev text) (wrote : Wrote moment target who mark planned s s') :
    s'.Seen space key rev text := by
  refine ⟨seen.le.trans (headRev_grows wrote space), seen.absent, ?_⟩
  by_cases own : ∃ p ∈ planned, p.effective = true ∧ (target, p.op.key) = (space, key)
  · obtain ⟨p, listed, effective, same⟩ := own
    cases same
    rw [live_of_some (wrote.lands.entry p listed effective)]
    have le := seen.le
    cases written : p.text with
    | none => exact fun gone => (seen.absent gone.symm).symm
    | some t =>
        intro now
        simp only [Planned.entry, Option.isNone_some, Bool.false_eq_true, if_false] at now
        omega
  · rw [wrote_apart wrote fun p listed effective same => own ⟨p, listed, effective, same⟩]
    exact seen.same

theorem reap_live (s : Store) (now : Int) (space : Space) (key : String) :
    (s.reap now).1.live space key = s.live space key := by
  have left : (s.reap now).1.entries.get (space, key) = (s.entries.get (space, key)).filter (!dead now ·) :=
    KeyedTable.get_deleteWhere ..
  cases found : s.entries.get (space, key) with
  | none =>
      rw [found, Option.filter_none] at left
      rw [live_of_none left, live_of_none found]
  | some e =>
      rw [found] at left
      cases taken : dead now e with
      | true =>
          have gone : e.deleted = true := by
            simp only [dead, Bool.and_eq_true] at taken
            exact taken.1
          rw [Option.filter_some, if_neg (by simp [taken])] at left
          rw [live_of_none left, live_of_some found, gone, if_pos rfl]
      | false =>
          rw [Option.filter_some, if_pos (by simp [taken])] at left
          rw [live_of_some left, live_of_some found]

theorem reap_headRev (s : Store) (now : Int) (space : Space) :
    (s.reap now).1.headRev space = s.headRev space := by
  simp only [headRev, reap_spaces]
  cases s.spaces.get space with
  | none => rfl
  | some row =>
      simp only [Option.map_some, Option.getD_some]
      split <;> rfl

/-- A key that lives on as it was, in a space with its revs, is known as it was. -/
theorem Seen.of_same (seen : s.Seen space key rev text) (head : s'.headRev space = s.headRev space)
    (live : s'.live space key = s.live space key) : s'.Seen space key rev text :=
  ⟨head ▸ seen.le, seen.absent, live ▸ seen.same⟩

theorem Seen.reap (seen : s.Seen space key rev text) (now : Int) :
    (s.reap now).1.Seen space key rev text := seen.of_same (reap_headRev ..) (reap_live ..)

/-- A drop takes a space's documents and revs, and leaves every other space. -/
theorem dropSpace_live (s : Store) (target : Space) (now : Int) (rand : String) :
    (∃ e, s.dropSpace target now rand = (s, .error e)) ∨
      ∃ s', s.dropSpace target now rand = (s', .ok ()) ∧
        ∀ space key, if target = space then (s'.live space key).text = none
          else s'.headRev space = s.headRev space ∧ s'.live space key = s.live space key := by
  rcases dropSpace_cases s target now rand with refused | ⟨s', dropped, entries, -, spaces⟩
  · exact .inl refused
  · refine .inr ⟨s', dropped, fun space key => ?_⟩
    rw [live_of_without entries, headRev, spaces, get_without, headRev]
    by_cases own : target = space
    · simp [own]
    · simp [own, Ne.symm own]

/-- A move gives the target its source's documents, leaves the source none, and
    leaves every other space. -/
theorem moveSpace_live (s : Store) (source target : Space) :
    (∃ e, s.moveSpace source target = (s, .error e)) ∨
      ∃ s', s.moveSpace source target = (s', .ok ()) ∧
        ∀ space key, if source = space ∨ target = space then (s'.live space key).text =
            (movedFrom source target space).bind fun origin => (s.live origin key).text
          else s'.headRev space = s.headRev space ∧ s'.live space key = s.live space key := by
  rcases moveSpace_cases s source target with refused | ⟨s', spaces, moved, -, entries, -, spaces_rows, updated⟩
  · exact .inl refused
  · refine .inr ⟨s', moved, fun space key => ?_⟩
    have live := live_of_moved entries space key
    split
    · rw [live]
      cases movedFrom source target space <;> rfl
    next apart =>
      rw [not_or] at apart
      have stays : movedFrom source target space = some space := by
        rw [movedFrom, if_neg (Ne.symm apart.2), if_neg (Ne.symm apart.1)]
      rw [stays] at live
      refine ⟨?_, live⟩
      rw [headRev, headRev, updated, KeyedTable.get_updateWhere, moved_get spaces_rows, stays, Option.bind_some,
        Option.map_map, Option.map_map]
      congr 2
      funext row
      simp only [Function.comp_apply]
      split <;> rfl

end Store

end Seen

/-! ## A call's step -/

section Step

variable (b : Backend) (space : Space) (key : String) (c : PatchCall) (s : Store)

def PatchCall.op : Op := .patch key c.part c.ifRev

/-- What the next step of a call does. -/
inductive Stepped : Standing → Store × Standing → Prop where
  | failed {st : Standing} (e : DataError) (unanswered : ∀ a, st ≠ .done a) : Stepped st (s, .done (.error e))
  | idle {n : Nat} {last : DataError} {p : Patched} {current : Option Value}
      (read : b.document (s.live space key).text = .ok current)
      (same : merged key current c.part = .ok none) : Stepped (.reading n last) (s, .done (.ok p))
  | read {n m : Nat} {last : DataError} {doc : Value} {current : Option Value}
      (read : b.document (s.live space key).text = .ok current)
      (changed : merged key current c.part = .ok (some doc)) :
      Stepped (.reading n last) (s, .writing m doc (s.live space key).rev)
  | raced {n : Nat} {doc : Value} {live : Int} (e : DataError) :
      Stepped (.writing n doc live) (s, .reading n e)
  | put {n : Nat} {doc : Value} {live : Int} {moment : Moment} {s' : Store} {planned : List Planned} (rev : Int)
      (plan : s.planWrite b moment space [.put key doc (some live)] false = .ok planned)
      (wrote : Wrote moment space c.who none planned s s') :
      Stepped (.writing n doc live) (s', .done (.ok ⟨rev, doc, true⟩))
  | ended (a : Except DataError Patched) : Stepped (.done a) (s, .done a)

variable {s}

theorem get_document {cur : Option Store.Entry}
    (got : s.get b space key = .ok cur) : (cur.map (·.rev)).getD 0 = (s.live space key).rev ∧
      b.document (s.live space key).text = .ok (cur.map (·.value)) := by
  simp only [Store.get, bind_eq_ok] at got
  obtain ⟨⟨⟩, -, got⟩ := got
  cases found : s.entries.get (space, key) with
  | none =>
      rw [found] at got
      cases got
      rw [Store.live_of_none found]
      exact ⟨rfl, rfl⟩
  | some e =>
      simp only [found] at got
      rw [Store.live_of_some found]
      split at got
      · rename_i gone
        cases got
        rw [if_pos gone]
        exact ⟨rfl, rfl⟩
      · rename_i there
        simp only [bind_eq_ok] at got
        obtain ⟨value, parsed, same⟩ := got
        cases same
        rw [if_neg there]
        have check := e.check
        cases text : e.value with
        | none =>
            rw [text] at check
            exact absurd check there
        | some t =>
            rw [text] at parsed
            refine ⟨rfl, ?_⟩
            simp only [Backend.document, parsed]
            rfl

theorem round_answer {cur : Option Store.Entry} {p : Patched}
    (answered : round key c.part c.ifRev cur = .answer (.ok p)) :
    merged key (cur.map (·.value)) c.part = .ok none := by
  simp only [round] at answered
  split at answered
  · cases answered
  · split at answered
    · cases answered
    · assumption
    · cases answered

theorem round_put {cur : Option Store.Entry} {doc : Value} {live : Int}
    (asked : round key c.part c.ifRev cur = .put doc live) :
    live = (cur.map (·.rev)).getD 0 ∧ merged key (cur.map (·.value)) c.part = .ok (some doc) := by
  simp only [round] at asked
  split at asked
  · cases asked
  · split at asked
    · cases asked
    · cases asked
    · cases asked
      exact ⟨rfl, by assumption⟩

theorem put_effective {moment : Moment} {doc : Value} {live : Int} {planned : List Planned}
    (plan : s.planWrite b moment space [.put key doc (some live)] false = .ok planned) :
    ∃ p t, planned = [p] ∧ p.op = .put key doc (some live) ∧ p.effective = true ∧ p.text = some t ∧
      canonical doc = .ok t ∧ live = (s.live space key).rev := by
  obtain ⟨ops_eq, -, follows⟩ := planWrite_spec plan
  obtain ⟨p, rfl, op_eq⟩ := List.map_eq_singleton_iff.mp ops_eq
  have follow := follows p (List.mem_singleton.mpr rfl)
  have held := follow.live
  have matched := follow.ifRev live (by rw [op_eq]; rfl)
  have decided := follow.decided
  rw [op_eq] at held decided
  rw [held] at matched
  cases act : p.act with
  | write t =>
      rw [act] at decided
      cases decided with
      | put wrote =>
          exact ⟨p, t, rfl, op_eq, by simp [Planned.effective, act], by simp [Planned.text, act], wrote,
            matched⟩
  | _ =>
      rw [act] at decided
      cases decided

theorem step_stepped (moment : Moment) (st : Standing) :
    Stepped b space key c s st (c.step b moment space key s st) := by
  cases st with
  | reading n last =>
      cases n with
      | zero => exact .failed _ (by simp)
      | succ n =>
          simp only [PatchCall.step]
          cases got : s.get b space key with
          | error e => exact .failed _ (by simp)
          | ok cur =>
              obtain ⟨rev, document⟩ := get_document b space key got
              simp only
              cases asked : round key c.part c.ifRev cur with
              | answer a =>
                  cases a with
                  | error e => exact .failed _ (by simp)
                  | ok p => exact .idle document (round_answer key c asked)
              | put doc live =>
                  obtain ⟨live_eq, changed⟩ := round_put key c asked
                  rw [live_eq, rev]
                  exact .read document changed
  | writing n doc live =>
      simp only [PatchCall.step, Store.put, Store.write]
      rcases writeWith_cases b s moment space [.put key doc (some live)] c.who false none with
        ⟨e, refused⟩ | ⟨planned, plan, ⟨still, -⟩ | ⟨-, s', wrote, answer⟩⟩
      · rw [refused]
        cases e with
        | conflict k rev op =>
            simp only [Except.map]
            split
            · exact .raced _
            · exact .failed _ (by simp)
        | _ => exact .failed _ (by simp)
      · obtain ⟨p, t, rfl, -, effective, -⟩ := put_effective b space key plan
        simp [effective] at still
      · rw [answer]
        exact .put _ plan wrote
  | done a => exact .ended a

end Step

/-! ## Runs -/

/-- Calls of `store.patch` on one key, the store, and what was committed to the key,
    with the call it is of, if any. -/
structure Racing (ι : Type) where
  store : Store
  calls : ι → Standing
  log : List (Option ι × Landed)

/-- What can happen next: a call's step, another writer's write to any space, a drop
    or a move of spaces, the reaper. -/
inductive Move (ι : Type) where
  | step (i : ι) (moment : Moment)
  | write (moment : Moment) (target : Space) (ops : List Op) (who : String) (indexed : Bool)
      (mark : Option RestoreMark)
  | drop (target : Space) (now : Int) (rand : String)
  | move (source target : Space)
  | reap (now : Int)

namespace Racing

variable {ι : Type} [DecidableEq ι] (b : Backend) (space : Space) (key : String) (calls : ι → PatchCall)

def start (s : Store) : Racing ι := ⟨s, fun i => (calls i).start key, []⟩

/-- A step that answers Ok commits the call's patch. -/
def committed (i : ι) (before after : Standing) : List (Option ι × Landed) :=
  match before, after with
  | .done _, _ => []
  | _, .done (.ok _) => [(some i, .op ((calls i).op key))]
  | _, _ => []

/-- A write that answers Ok commits its op on the key. -/
def written (target : Space) (ops : List Op) : Except DataError (Int × Bool) → List (Option ι × Landed)
  | .ok _ => if target = space then (ops.filter (·.key = key)).map (none, .op ·) else []
  | .error _ => []

/-- A drop or a move that answers Ok and names the space leaves the key this text. -/
def replaced (named : Prop) [Decidable named] (text : Option String) :
    Except DataError Unit → List (Option ι × Landed)
  | .ok () => if named then [(none, .became text)] else []
  | .error _ => []

def next (r : Racing ι) : Move ι → Racing ι
  | .step i moment =>
      let (s, st) := (calls i).step b moment space key r.store (r.calls i)
      ⟨s, Function.update r.calls i st, r.log ++ committed key calls i (r.calls i) st⟩
  | .write moment target ops who indexed mark =>
      let (s, answer) := r.store.writeWith b moment target ops who indexed mark
      ⟨s, r.calls, r.log ++ written space key target ops answer⟩
  | .drop target now rand =>
      let (s, answer) := r.store.dropSpace target now rand
      ⟨s, r.calls, r.log ++ replaced (target = space) none answer⟩
  | .move source target =>
      let (s, answer) := r.store.moveSpace source target
      ⟨s, r.calls, r.log ++ replaced (source = space ∨ target = space)
        ((movedFrom source target space).bind fun origin => (r.store.live origin key).text) answer⟩
  | .reap now => ⟨(r.store.reap now).1, r.calls, r.log⟩

/-- The state after a run. -/
def after (s : Store) : List (Move ι) → Racing ι := Rounds.after (next b space key calls) (start key calls s)

/-- A drop or a move that takes the space, or puts another in its place. -/
def Resets (r : Racing ι) : Move ι → Prop
  | .drop target now rand => target = space ∧ (r.store.dropSpace target now rand).2 = .ok ()
  | .move source target => (source = space ∨ target = space) ∧ (r.store.moveSpace source target).2 = .ok ()
  | .step .. | .write .. | .reap _ => False

/-- The space is dropped or moved only while no call stands between its read and its
    put. -/
def Apart (r : Racing ι) (m : Move ι) : Prop :=
  r.Resets space m → ∀ i left doc live, r.calls i ≠ .writing left doc live

/-- A call's part of the log. -/
def own (i : ι) (log : List (Option ι × Landed)) : List (Option ι × Landed) := log.filter (·.1 = some i)

/-- The log explains the key's text, and a call about to write has merged what the
    key had at the rev it read. -/
structure Sound (s : Store) (r : Racing ι) : Prop where
  kept : Store.Kept r.store
  replays : Replays b (s.live space key).text (r.log.map Prod.snd) (r.store.live space key).text
  merged : ∀ i n doc live, r.calls i = .writing n doc live → ∃ text current,
    r.store.Seen space key live text ∧ b.document text = .ok current ∧
      GardenData.merged key current (calls i).part = .ok (some doc)
  answered : ∀ i p, r.calls i = .done (.ok p) → own i r.log = [(some i, .op ((calls i).op key))]
  silent : ∀ i, (∀ p, r.calls i ≠ .done (.ok p)) → own i r.log = []

variable {b space key calls} {s : Store}

theorem start_sound (kept : Store.Kept s) : Sound b space key calls s (start key calls s) := by
  refine ⟨kept, .nil, ?_, ?_, fun i _ => rfl⟩
  · intro i n doc live here
    simp only [start, PatchCall.start] at here
    split at here <;> cases here
  · intro i p here
    simp only [start, PatchCall.start] at here
    split at here <;> cases here

@[simp] theorem own_append (i : ι) (log more : List (Option ι × Landed)) :
    own i (log ++ more) = own i log ++ own i more :=
  List.filter_append ..

omit [DecidableEq ι] in
theorem committed_ok {i : ι} {before : Standing} (unanswered : ∀ a, before ≠ .done a) (p : Patched) :
    committed key calls i before (.done (.ok p)) = [(some i, .op ((calls i).op key))] := by
  cases before with
  | done a => exact absurd rfl (unanswered a)
  | _ => rfl

theorem own_committed_of_ne {i j : ι} (apart : j ≠ i) (before after : Standing) :
    own j (committed key calls i before after) = [] := by
  cases before with
  | done a => rfl
  | _ =>
      cases after with
      | done a =>
          cases a with
          | error e => rfl
          | ok p => simp [own, committed, Ne.symm apart]
      | _ => rfl

omit [DecidableEq ι] in
theorem written_of_none {target : Space} {ops : List Op} {answer : Except DataError (Int × Bool)}
    {e : Option ι × Landed} (member : e ∈ written space key target ops answer) : e.1 = none := by
  cases answer with
  | error e => cases member
  | ok a =>
      rw [written] at member
      split at member
      · obtain ⟨op, -, rfl⟩ := List.mem_map.mp member
        rfl
      · cases member

omit [DecidableEq ι] in
theorem replaced_of_none {named : Prop} [Decidable named] {text : Option String} {answer : Except DataError Unit}
    {e : Option ι × Landed} (member : e ∈ replaced named text answer) : e.1 = none := by
  cases answer with
  | error e => cases member
  | ok a =>
      rw [replaced] at member
      split at member
      · rw [List.mem_singleton.mp member]
      · cases member

/-- A call's step leaves the other calls' part of the log, and commits its own op
    when it answers Ok. -/
theorem Sound.own_step {r : Racing ι} (sound : Sound b space key calls s r) (i : ι) {st : Standing}
    (ended : ∀ a, r.calls i = .done a → st = .done a) (j : ι) :
    (∀ p, Function.update r.calls i st j = .done (.ok p) →
      own j (r.log ++ committed key calls i (r.calls i) st) = [(some j, .op ((calls j).op key))]) ∧
    ((∀ p, Function.update r.calls i st j ≠ .done (.ok p)) →
      own j (r.log ++ committed key calls i (r.calls i) st) = []) := by
  by_cases same : j = i
  · subst same
    rw [Function.update_self, own_append]
    cases before : r.calls j with
    | done a =>
        cases ended a before
        exact ⟨fun p ok => by simpa [committed, own] using sound.answered j p (before.trans ok),
          fun other => by simpa [committed, own] using sound.silent j (before ▸ other)⟩
    | _ =>
        have none_yet := sound.silent j (by simp [before])
        rw [none_yet, List.nil_append]
        constructor
        · rintro p rfl
          simp [committed, own]
        · intro other
          cases st with
          | done a =>
              cases a with
              | error e => rfl
              | ok p => exact absurd rfl (other p)
          | _ => rfl
  · rw [Function.update_of_ne same, own_append, own_committed_of_ne same, List.append_nil]
    exact ⟨sound.answered j, sound.silent j⟩

/-- A call's step, from what it does to the store and to the key. -/
theorem Sound.of_step {r : Racing ι} (sound : Sound b space key calls s r) (i : ι) {s' : Store} {st : Standing}
    (ended : ∀ a, r.calls i = .done a → st = .done a) (kept : Store.Kept s')
    (replays : Replays b (s.live space key).text
      ((r.log ++ committed key calls i (r.calls i) st).map Prod.snd) (s'.live space key).text)
    (seen : ∀ rev text, r.store.Seen space key rev text → s'.Seen space key rev text)
    (merges : ∀ n doc live, st = .writing n doc live → ∃ text current, s'.Seen space key live text ∧
      b.document text = .ok current ∧ GardenData.merged key current (calls i).part = .ok (some doc)) :
    Sound b space key calls s
      ⟨s', Function.update r.calls i st, r.log ++ committed key calls i (r.calls i) st⟩ := by
  refine ⟨kept, replays, ?_, fun j => (sound.own_step i ended j).1, fun j => (sound.own_step i ended j).2⟩
  intro j n doc live here
  simp only at here
  by_cases same : j = i
  · subst same
    rw [Function.update_self] at here
    exact merges n doc live here
  · rw [Function.update_of_ne same] at here
    obtain ⟨text, current, known, read, changed⟩ := sound.merged j n doc live here
    exact ⟨text, current, seen _ _ known, read, changed⟩

theorem Sound.of_still {r : Racing ι} (sound : Sound b space key calls s r) (i : ι) {st : Standing}
    (ended : ∀ a, r.calls i = .done a → st = .done a) (nothing : committed key calls i (r.calls i) st = [])
    (merges : ∀ n doc live, st = .writing n doc live → ∃ text current, r.store.Seen space key live text ∧
      b.document text = .ok current ∧ GardenData.merged key current (calls i).part = .ok (some doc)) :
    Sound b space key calls s
      ⟨r.store, Function.update r.calls i st, r.log ++ committed key calls i (r.calls i) st⟩ := by
  refine sound.of_step i ended sound.kept ?_ (fun _ _ => id) merges
  rw [nothing, List.append_nil]
  exact sound.replays

theorem Sound.step {r : Racing ι} (sound : Sound b space key calls s r) (i : ι) (moment : Moment) :
    Sound b space key calls s (r.next b space key calls (.step i moment)) := by
  have stepped := step_stepped b space key (calls i) (s := r.store) moment (r.calls i)
  simp only [next]
  generalize (calls i).step b moment space key r.store (r.calls i) = out at stepped ⊢
  obtain ⟨s', st⟩ := out
  obtain ⟨former, before⟩ : ∃ former, r.calls i = former := ⟨_, rfl⟩
  rw [before] at stepped
  dsimp only
  cases stepped with
  | failed e unanswered =>
      refine sound.of_still i ?_ ?_ (by simp)
      · intro a answered
        exact absurd (before.symm.trans answered) (unanswered a)
      · rw [before]
        cases former <;> rfl
  | idle read same =>
      refine sound.of_step i (by simp [before]) sound.kept ?_ (fun _ _ => id) (by simp)
      rw [committed_ok (by simp [before]), List.map_append]
      exact .snoc sound.replays (.op (.keep read same))
  | read read changed =>
      refine sound.of_still i (by simp [before]) ?_ ?_
      · rw [before]
        rfl
      · rintro n doc live ⟨⟩
        exact ⟨_, _, sound.kept.seen space key, read, changed⟩
  | raced e =>
      refine sound.of_still i (by simp [before]) ?_ (by simp)
      rw [before]
      rfl
  | put rev plan wrote =>
      obtain ⟨text, current, known, read, changed⟩ := sound.merged i _ _ _ before
      obtain ⟨p, t, rfl, op_eq, effective, text_eq, stored, matched⟩ := put_effective b space key plan
      have now := known.same matched.symm
      have after : (s'.live space key).text = some t := by
        have written := wrote_text plan wrote (List.mem_singleton.mpr rfl)
        rw [if_pos effective, text_eq, op_eq] at written
        exact written
      refine sound.of_step i (by simp [before]) (sound.kept.write plan wrote) ?_
        (fun _ _ seen => seen.write wrote) (by simp)
      rw [committed_ok (by simp [before]), List.map_append, after]
      exact .snoc sound.replays (.op (.merge (now ▸ read) changed stored))
  | ended a =>
      refine sound.of_still i ?_ ?_ (by simp)
      · intro a' answered
        exact before.symm.trans answered
      · rw [before]
        rfl

theorem Sound.replays_written {r : Racing ι} (sound : Sound b space key calls s r) {moment : Moment}
    {target : Space} {ops : List Op} {indexed : Bool} {planned : List Planned}
    (plan : r.store.planWrite b moment target ops indexed = .ok planned) (a : Int × Bool)
    {text' : Option String}
    (after : target = space → ∀ p ∈ planned, p.op.key = key →
      text' = if p.effective then p.text else (r.store.live space key).text)
    (apart : (∀ p ∈ planned, p.effective = true → (target, p.op.key) ≠ (space, key)) →
      text' = (r.store.live space key).text) :
    Replays b (s.live space key).text ((r.log ++ Racing.written space key target ops (.ok a)).map Prod.snd)
      text' := by
  simp only [Racing.written, List.map_append]
  split
  · rename_i here
    subst here
    rw [List.map_map]
    refine replays_own sound.kept plan key sound.replays (after rfl) fun absent => apart ?_
    intro p listed _ same
    exact absent p listed (Prod.ext_iff.mp same).2
  · rename_i elsewhere
    rw [List.map_nil, List.append_nil, apart fun p _ _ same => elsewhere (Prod.ext_iff.mp same).1]
    exact sound.replays

/-- Somebody else's step, from what it does to the store and to the key. -/
theorem Sound.of_other {r : Racing ι} (sound : Sound b space key calls s r) {s' : Store}
    {more : List (Option ι × Landed)} (nobody : ∀ e ∈ more, e.1 = none) (kept : Store.Kept s')
    (replays : Replays b (s.live space key).text ((r.log ++ more).map Prod.snd) (s'.live space key).text)
    (seen : ∀ i n doc live, r.calls i = .writing n doc live → ∀ text, r.store.Seen space key live text →
      s'.Seen space key live text) : Sound b space key calls s ⟨s', r.calls, r.log ++ more⟩ := by
  have no_own : ∀ i, own i more = [] := by
    intro i
    rw [own, List.filter_eq_nil_iff]
    intro e member
    simp [nobody e member]
  refine ⟨kept, replays, ?_, ?_, ?_⟩
  · intro i n doc live here
    obtain ⟨text, current, known, read, changed⟩ := sound.merged i n doc live here
    exact ⟨text, current, seen i n doc live here text known, read, changed⟩
  · intro i p here
    rw [own_append, no_own, List.append_nil]
    exact sound.answered i p here
  · intro i unanswered
    rw [own_append, no_own, List.append_nil]
    exact sound.silent i unanswered

theorem Sound.written {r : Racing ι} (sound : Sound b space key calls s r) (moment : Moment) (target : Space)
    (ops : List Op) (who : String) (indexed : Bool) (mark : Option RestoreMark) :
    Sound b space key calls s (r.next b space key calls (.write moment target ops who indexed mark)) := by
  simp only [next]
  rcases writeWith_cases b r.store moment target ops who indexed mark with
    ⟨e, refused⟩ | ⟨planned, plan, ⟨still, idle⟩ | ⟨-, s', wrote, answer⟩⟩
  · rw [refused]
    refine sound.of_other (fun _ => written_of_none) sound.kept ?_ fun _ _ _ _ _ _ => id
    rw [Racing.written, List.append_nil]
    exact sound.replays
  · rw [idle]
    refine sound.of_other (fun _ => written_of_none) sound.kept (sound.replays_written plan _ ?_ fun _ => rfl)
      fun _ _ _ _ _ _ => id
    intro _ p listed _
    rw [if_neg (List.any_eq_false.mp still p listed)]
  · rw [answer]
    refine sound.of_other (fun _ => written_of_none) (sound.kept.write plan wrote)
      (sound.replays_written plan _ ?_ fun apart => by rw [wrote_apart wrote apart])
      fun _ _ _ _ _ _ seen => seen.write wrote
    rintro rfl p listed rfl
    exact wrote_text plan wrote listed

/-- A drop or a move, from what it leaves of the key and of its space. -/
theorem Sound.replaced {r : Racing ι} (sound : Sound b space key calls s r) {s' : Store} (named : Prop)
    [Decidable named] {text : Option String} (kept : Store.Kept s')
    (idle : named → ∀ i left doc live, r.calls i ≠ .writing left doc live)
    (left : if named then (s'.live space key).text = text
      else s'.headRev space = r.store.headRev space ∧ s'.live space key = r.store.live space key) :
    Sound b space key calls s ⟨s', r.calls, r.log ++ replaced named text (.ok ())⟩ := by
  by_cases here : named
  · rw [if_pos here] at left
    refine sound.of_other (fun _ => replaced_of_none) kept ?_ fun i n doc live there => absurd there (idle here i n doc live)
    rw [Racing.replaced, if_pos here, List.map_append, left]
    exact .snoc sound.replays .became
  · rw [if_neg here] at left
    refine sound.of_other (fun _ => replaced_of_none) kept ?_ fun _ _ _ _ _ _ seen => seen.of_same left.1 left.2
    rw [Racing.replaced, if_neg here, List.append_nil, left.2]
    exact sound.replays

theorem Sound.refused {r : Racing ι} (sound : Sound b space key calls s r) :
    Sound b space key calls s ⟨r.store, r.calls, r.log ++ []⟩ := by
  rw [List.append_nil]
  exact sound

theorem Sound.next {r : Racing ι} (sound : Sound b space key calls s r) (m : Move ι) (apart : r.Apart space m) :
    Sound b space key calls s (r.next b space key calls m) := by
  cases m with
  | step i moment => exact sound.step i moment
  | write moment target ops who indexed mark => exact sound.written moment target ops who indexed mark
  | drop target now rand =>
      have kept := sound.kept.dropSpace target now rand
      simp only [Racing.next]
      rcases r.store.dropSpace_live target now rand with ⟨e, refused⟩ | ⟨s', dropped, left⟩
      · rw [refused]
        exact sound.refused
      · rw [dropped] at kept ⊢
        exact sound.replaced _ kept (fun here => apart ⟨here, by rw [dropped]⟩) (left space key)
  | move source target =>
      have kept := sound.kept.moveSpace source target
      simp only [Racing.next]
      rcases r.store.moveSpace_live source target with ⟨e, refused⟩ | ⟨s', moved, left⟩
      · rw [refused]
        exact sound.refused
      · rw [moved] at kept ⊢
        exact sound.replaced _ kept (fun here => apart ⟨here, by rw [moved]⟩) (left space key)
  | reap now =>
      refine ⟨sound.kept.reap now, ?_, ?_, sound.answered, sound.silent⟩
      · simp only [Racing.next, Store.reap_live]
        exact sound.replays
      · intro i n doc live here
        obtain ⟨text, current, known, read, changed⟩ := sound.merged i n doc live here
        exact ⟨text, current, known.reap now, read, changed⟩

/-- An answer is final. -/
theorem done_stays {i : ι} {a : Except DataError Patched} {r : Racing ι} (answered : r.calls i = .done a)
    (moves : List (Move ι)) : (Rounds.after (Racing.next b space key calls) r moves).calls i = .done a := by
  refine Rounds.invariant (I := fun r : Racing ι => r.calls i = .done a) (fun r m answered => ?_) answered moves
  cases m with
  | step j moment =>
      simp only [Racing.next]
      by_cases same : i = j
      · subst same
        rw [Function.update_self, answered]
        rfl
      · rw [Function.update_of_ne same]
        exact answered
  | _ => exact answered

/-- A call that will answer an error writes nothing. -/
theorem step_of_failed {i : ι} {moment : Moment} {r : Racing ι} {e : DataError} {later : List (Move ι)}
    (failed : (Rounds.after (Racing.next b space key calls) (r.next b space key calls (.step i moment)) later).calls i =
      .done (.error e)) : (r.next b space key calls (.step i moment)).store = r.store := by
  have stepped := step_stepped b space key (calls i) (s := r.store) moment (r.calls i)
  have stays : ∀ a, (r.next b space key calls (.step i moment)).calls i = .done a →
      Standing.done a = .done (.error e) := by
    intro a answered
    have kept : (Rounds.after (Racing.next b space key calls) _ later).calls i = .done a := done_stays answered later
    exact kept.symm.trans failed
  simp only [Racing.next, Function.update_self] at stays ⊢
  generalize (calls i).step b moment space key r.store (r.calls i) = out at stepped stays ⊢
  generalize r.calls i = before at stepped
  cases stepped with
  | put rev plan wrote => cases stays _ rfl
  | _ => rfl

end Racing

/-- In every run from a reached store in which the space is dropped or moved only
    while no call stands between its read and its put, the key's document is what the
    patches that answered Ok, each once, and what else landed on it make of it in the
    order of the log; a patch that answers an error writes nothing; the fields a patch
    wrote stay until an op that names them; and two patches with no field in common
    merge in either order. -/
theorem patches_keep_every_field {ι : Type} [DecidableEq ι] (b : Backend) (before : List Call)
    (space : Space) (key : String) (calls : ι → PatchCall) (moves : List (Move ι)) :
    let s := History.after (Store.call b) Store.empty before
    let run := Racing.after b space key calls s
    let log := (run moves).log
    let landed := log.map Prod.snd
    Rounds.Along (Racing.next b space key calls) (Racing.Apart space) (Racing.start key calls s) moves →
    Replays b (s.live space key).text landed ((run moves).store.live space key).text ∧
    (∀ d, b.document (s.live space key).text = .ok d →
      (∀ early, early <+: landed → ∀ v, early.foldl (Landed.result b) d = some v → b.ReadsBack v) →
      (∀ t, .became t ∈ landed → ∃ d, b.document t = .ok d) →
      b.document ((run moves).store.live space key).text = .ok (landed.foldl (Landed.result b) d)) ∧
    (∀ i p, (run moves).calls i = .done (.ok p) → Racing.own i log = [(some i, .op ((calls i).op key))]) ∧
    (∀ i e, (run moves).calls i = .done (.error e) → Racing.own i log = [] ∧
      ∀ early moment later, moves = early ++ .step i moment :: later →
        (run (early ++ [.step i moment])).store = (run early).store) ∧
    (∀ early later name, landed = early ++ later → (∀ entry ∈ later, entry.Spares name) →
      ∀ d, field (landed.foldl (Landed.result b) d) name = field (early.foldl (Landed.result b) d) name) ∧
    (∀ i j fields later, (calls i).part = .object fields → (calls j).part = .object later →
      List.Disjoint (fields.map Prod.fst) (later.map Prod.fst) → ∀ (doc : Members) (name : String),
      field (some (mergePatch (mergePatch (.object doc) (calls i).part) (calls j).part)) name =
        field (some (mergePatch (mergePatch (.object doc) (calls j).part) (calls i).part)) name) := by
  intro s run log landed apart
  have kept : Store.Kept s := Store.kept_of_run b before
  have sound : Racing.Sound b space key calls s (run moves) :=
    Rounds.keeps (fun _ m sound apart => sound.next m apart) (Racing.start_sound kept) apart
  refine ⟨sound.replays, fun d start => sound.replays.document start, sound.answered, ?_, ?_, ?_⟩
  · intro i e failed
    have unanswered : ∀ p, (run moves).calls i ≠ .done (.ok p) := by
      intro p answered
      cases failed.symm.trans answered
    refine ⟨sound.silent i unanswered, ?_⟩
    rintro early moment later rfl
    simp only [run, Racing.after, Rounds.after_append, Rounds.after] at failed ⊢
    exact Racing.step_of_failed failed
  · intro early later name split spare d
    rw [split, List.foldl_append]
    exact field_kept spare _
  · intro i j fields later first second disjoint doc name
    rw [first, second]
    simp only [mergePatch, field]
    exact get_mergeFields_comm disjoint doc name

/-! ### A race of two patches -/

namespace Race

/-- A store whose JSON reader knows the documents of the race. -/
def backend : Backend where
  maxFileBytes := 1024
  fromStr := fun t =>
    if t = "\x7b\x7d" then .ok (.object [])
    else if t = "\x7b\"a\":1\x7d" then .ok (.object [("a", .number (.int 1))])
    else .error "expected value at line 1 column 1"

def board : Space := ⟨"data:board"⟩

def put : Call := .put ⟨0, 0⟩ board "obj/1" (.object []) none "owner"

/-- One adds a field, the other another. -/
def calls (second : Bool) : PatchCall :=
  if second then ⟨.object [("b", .number (.int 2))], none, "agent"⟩
  else ⟨.object [("a", .number (.int 1))], none, "owner"⟩

def steps : List Bool → List (Move Bool) := List.map fun second => .step second ⟨1, 0⟩

/-- Both read; the first writes, another space is dropped, and the second reads again. -/
def moves : List (Move Bool) :=
  steps [false, true, false] ++ .drop ⟨"data:notes"⟩ 1 "t" :: steps [true, true, true]

/-- The first reads; the space is dropped, and the second writes before the first. -/
def dropping : List (Move Bool) := steps [false] ++ .drop board 1 "t" :: steps [true, true, false]

end Race

theorem patches_keep_every_field_race : Replays Race.backend (some "\x7b\x7d")
    [.op ((Race.calls false).op "obj/1"), .op ((Race.calls true).op "obj/1")]
    (some "\x7b\"a\":1,\"b\":2\x7d") :=
  (patches_keep_every_field Race.backend [Race.put] Race.board "obj/1" Race.calls Race.moves
    ⟨nofun, nofun, nofun, fun named => absurd named.1 (by decide), nofun, nofun, nofun, trivial⟩).1

theorem patch_lost_to_drop :
    let s := History.after (Store.call Race.backend) Store.empty [Race.put]
    let run := Racing.after Race.backend Race.board "obj/1" Race.calls s Race.dropping
    (∃ p q, run.calls false = .done (.ok p) ∧ run.calls true = .done (.ok q)) ∧
    ∃ d, Race.backend.document (run.store.live Race.board "obj/1").text = .ok d ∧ field d "b" = none ∧
      field ((run.log.map Prod.snd).foldl (Landed.result Race.backend) (some (.object []))) "b" =
        some (.number (.int 2)) :=
  ⟨⟨_, _, rfl, rfl⟩, _, rfl, rfl, rfl⟩

end K2.GardenData
