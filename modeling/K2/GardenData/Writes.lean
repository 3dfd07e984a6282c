import K2.GardenData.Store

/-! # What one write does

A write is refused and changes nothing, or follows a plan: each op decided against
its key's live state, then landed at one new rev. Everything about a write is
read off its plan.
-/

namespace K2.GardenData

@[simp] theorem mapError_eq_ok {ε α : Type} {x : Except ε α} {f : ε → ε} {a : α} :
    x.mapError f = .ok a ↔ x = .ok a := by
  cases x <;> simp [Except.mapError]

@[simp] theorem map_eq_ok {ε α β : Type} {x : Except ε α} {f : α → β} {y : β} :
    x.map f = .ok y ↔ ∃ a, x = .ok a ∧ f a = y := by
  cases x <;> simp [Except.map]

/-! ## Plans -/

/-- What an op does against a key's live state. -/
inductive Decides (b : Backend) (live : Live) : Op → Act → Prop where
  | put {key value ifRev text} (wrote : canonical value = .ok text) :
      Decides b live (.put key value ifRev) (.write text)
  | delete {key ifRev} : Decides b live (.delete key ifRev) .delete
  | merge {key part ifRev current doc text} (read : b.current live = .ok current)
      (changed : merged key current part = .ok (some doc)) (wrote : canonical doc = .ok text) :
      Decides b live (.patch key part ifRev) (.write text)
  | skip {key part ifRev current} (read : b.current live = .ok current)
      (same : merged key current part = .ok none) : Decides b live (.patch key part ifRev) .skip

/-- A planned op stands against the key's state in the store, and its `ifRev`
    matched. -/
structure Follows (b : Backend) (s : Store) (space : Space) (p : Planned) : Prop where
  live : p.live = s.live space p.op.key
  ifRev : ∀ n, p.op.ifRev = some n → n = p.live.rev
  decided : Decides b p.live p.op p.act

/-- What the shape check found. -/
inductive Shapes : Op → Act → Prop where
  | put {key value ifRev text} (wrote : canonical value = .ok text) :
      Shapes (.put key value ifRev) (.write text)
  | delete {key ifRev} : Shapes (.delete key ifRev) .delete
  | patch {key part ifRev} (checked : checkPartial part ifRev = .ok ()) :
      Shapes (.patch key part ifRev) .patch

theorem shape_spec {blobsOn indexed : Bool} {i : Nat} {op : Op} {sh : Shaped}
    (shaped : shape blobsOn indexed i op = .ok sh) : sh.op = op ∧ Shapes op sh.act := by
  cases op with
  | put key value ifRev =>
      simp only [shape, bind_eq_ok] at shaped
      obtain ⟨refs, -, text, wrote, same⟩ := shaped
      cases same
      exact ⟨rfl, .put wrote⟩
  | delete key ifRev =>
      cases shaped
      exact ⟨rfl, .delete⟩
  | patch key part ifRev =>
      simp only [shape, bind_eq_ok, mapError_eq_ok] at shaped
      obtain ⟨⟨⟩, checked, same⟩ := shaped
      cases same
      exact ⟨rfl, .patch checked⟩

theorem shapes_spec {blobsOn indexed : Bool} {seen : List String} {i : Nat} {ops : List Op}
    {shaped : List Shaped} (ok : shapes blobsOn indexed seen i ops = .ok shaped) :
    shaped.map (·.op) = ops ∧ (ops.map Op.key).Nodup ∧ (∀ k ∈ ops.map Op.key, k ∉ seen) ∧
      ∀ sh ∈ shaped, Shapes sh.op sh.act := by
  induction ops generalizing seen i shaped with
  | nil =>
      cases ok
      simp
  | cons op rest ih =>
      simp only [shapes, bind_eq_ok] at ok
      obtain ⟨-, -, ok⟩ := ok
      split at ok
      · cases ok
      · rename_i new
        simp only [bind_eq_ok] at ok
        obtain ⟨sh, here, more, later, same⟩ := ok
        cases same
        obtain ⟨op_eq, shapes_here⟩ := shape_spec here
        obtain ⟨ops_eq, distinct, apart, shapes_later⟩ := ih later
        simp only [List.map_cons, op_eq, ops_eq, List.nodup_cons, List.mem_cons, forall_eq_or_imp,
          true_and]
        refine ⟨⟨fun again => apart _ again (List.mem_cons_self ..), distinct⟩, ⟨new, ?_⟩,
          op_eq ▸ shapes_here, shapes_later⟩
        exact fun k member old => apart k member (List.mem_cons_of_mem _ old)

section Plan

variable {b : Backend} {s : Store} {space : Space} {indexed : Bool} {i : Nat}

theorem merge_spec {live : Live} {sh : Shaped} {p : Planned} (shaped : Shapes sh.op sh.act)
    (planned : sh.merge b space indexed i live = .ok p) :
    p.op = sh.op ∧ p.live = live ∧ Decides b live sh.op p.act := by
  obtain ⟨op, act, refs⟩ := sh
  cases shaped with
  | put wrote =>
      cases planned
      exact ⟨rfl, rfl, .put wrote⟩
  | delete =>
      cases planned
      exact ⟨rfl, rfl, .delete⟩
  | patch checked =>
      simp only [Shaped.merge, bind_eq_ok, mapError_eq_ok] at planned
      obtain ⟨current, read, answer, merged, planned⟩ := planned
      cases answer with
      | none =>
          cases planned
          exact ⟨rfl, rfl, .skip read merged⟩
      | some doc =>
          simp only [bind_eq_ok] at planned
          obtain ⟨refs, -, text, wrote, same⟩ := planned
          cases same
          exact ⟨rfl, rfl, .merge read merged wrote⟩

theorem plan_spec {sh : Shaped} {p : Planned} (shaped : Shapes sh.op sh.act)
    (planned : plan b s space indexed i sh = .ok p) : p.op = sh.op ∧ Follows b s space p := by
  simp only [plan] at planned
  split at planned
  · rename_i want asked
    split at planned
    · cases planned
    · rename_i matched
      obtain ⟨op, live, decided⟩ := merge_spec shaped planned
      refine ⟨op, by rw [live, op], ?_, by rw [live, op]; exact decided⟩
      intro n wanted
      rw [op, asked] at wanted
      cases wanted
      rw [live]
      exact not_not.mp matched
  · rename_i free
    obtain ⟨op, live, decided⟩ := merge_spec shaped planned
    refine ⟨op, by rw [live, op], ?_, by rw [live, op]; exact decided⟩
    intro n wanted
    rw [op, free] at wanted
    cases wanted

theorem plans_spec {shaped : List Shaped} {planned : List Planned}
    (all : ∀ sh ∈ shaped, Shapes sh.op sh.act) (ok : plans b s space indexed i shaped = .ok planned) :
    planned.map (·.op) = shaped.map (·.op) ∧ ∀ p ∈ planned, Follows b s space p := by
  induction shaped generalizing i planned with
  | nil =>
      cases ok
      simp
  | cons sh rest ih =>
      simp only [plans, bind_eq_ok] at ok
      obtain ⟨p, here, more, later, same⟩ := ok
      cases same
      simp only [List.mem_cons, forall_eq_or_imp] at all
      obtain ⟨op, follows⟩ := plan_spec all.1 here
      obtain ⟨ops, follows_all⟩ := ih all.2 later
      simp only [List.map_cons, op, ops, List.mem_cons, forall_eq_or_imp]
      exact ⟨trivial, follows, follows_all⟩

theorem planWrite_spec {moment : Moment} {ops : List Op} {planned : List Planned}
    (ok : s.planWrite b moment space ops indexed = .ok planned) :
    planned.map (·.op) = ops ∧ (ops.map Op.key).Nodup ∧ ∀ p ∈ planned, Follows b s space p := by
  simp only [Store.planWrite, bind_eq_ok] at ok
  obtain ⟨shaped, shapes_ok, ok⟩ := ok
  split at ok
  · cases ok
  · obtain ⟨ops_eq, distinct, -, all⟩ := shapes_spec shapes_ok
    obtain ⟨planned_eq, follows⟩ := plans_spec all ok
    exact ⟨planned_eq.trans ops_eq, distinct, follows⟩

end Plan

/-! ## Landing -/

/-- The text a planned op leaves under its key. -/
def Planned.text (p : Planned) : Option String :=
  match p.act with
  | .write t => some t
  | _ => none

section Land

variable {space : Space} {rev now : Int} {who : String} {restoreId : Option String}

/-- What the landing of one effective op does. -/
structure Lands (space : Space) (rev now : Int) (who : String) (restoreId : Option String) (p : Planned)
    (s s' : Store) : Prop where
  new : s.changes.get (space, rev, p.op.key) = none
  changes : s'.changes = s.changes.upsert (p.change space rev now who restoreId p.text.isNone)
  entries : s'.entries = s.entries.upsert (p.entry space rev now who p.text)
  spaces : s'.spaces = s.spaces

theorem store_lands {p : Planned} {text : Option String} {refs : List String} {s s' : Store}
    (text_eq : p.text = text)
    (ok : p.store space rev now who restoreId text refs s = .ok s') :
    Lands space rev now who restoreId p s s' := by
  subst text_eq
  simp only [Planned.store] at ok
  split at ok
  · cases ok
  · rename_i changes inserted
    obtain ⟨new, same⟩ := KeyedTable.insertNew_eq_some.mp inserted
    cases ok
    exact ⟨new, same, rfl, rfl⟩

/-- An op that changes its key lands; any other leaves the store as it is. -/
theorem land_cases {p : Planned} {s s' : Store} (ok : p.land space rev now who restoreId s = .ok s') :
    (p.effective = false ∧ s' = s) ∨
      (p.effective = true ∧ Lands space rev now who restoreId p s s') := by
  cases act : p.act with
  | write t =>
      simp only [Planned.land, act] at ok
      exact .inr ⟨by simp [Planned.effective, act], store_lands (by simp [Planned.text, act]) ok⟩
  | delete =>
      simp only [Planned.land, act] at ok
      split at ok
      · rename_i held
        exact .inr ⟨by simp [Planned.effective, act, held], store_lands (by simp [Planned.text, act]) ok⟩
      · rename_i gone
        cases ok
        exact .inl ⟨by simpa [Planned.effective, act] using gone, rfl⟩
  | patch =>
      simp only [Planned.land, act] at ok
      cases ok
      exact .inl ⟨by simp [Planned.effective, act], rfl⟩
  | skip =>
      simp only [Planned.land, act] at ok
      cases ok
      exact .inl ⟨by simp [Planned.effective, act], rfl⟩

theorem lands_of_effective {p : Planned} {s s' : Store} (ok : p.land space rev now who restoreId s = .ok s')
    (effective : p.effective = true) : Lands space rev now who restoreId p s s' := by
  rcases land_cases ok with ⟨no, -⟩ | ⟨-, lands⟩
  · rw [effective] at no
    cases no
  · exact lands

theorem land_entry_kept {p : Planned} {s s' : Store} (ok : p.land space rev now who restoreId s = .ok s')
    {pk : Space × String} (other : p.effective = true → (space, p.op.key) ≠ pk) :
    s'.entries.get pk = s.entries.get pk := by
  rcases land_cases ok with ⟨-, rfl⟩ | ⟨effective, lands⟩
  · rfl
  · rw [lands.entries, KeyedTable.get_upsert]
    exact if_neg (other effective)

theorem land_change_kept {p : Planned} {s s' : Store} (ok : p.land space rev now who restoreId s = .ok s')
    {pk : Space × Int × String} (other : p.effective = true → (space, rev, p.op.key) ≠ pk) :
    s'.changes.get pk = s.changes.get pk := by
  rcases land_cases ok with ⟨-, rfl⟩ | ⟨effective, lands⟩
  · rfl
  · rw [lands.changes, KeyedTable.get_upsert]
    exact if_neg (other effective)

/-- What the landing of a plan does: each effective op's entry and change row,
    and nothing else. -/
structure LandsAll (space : Space) (rev now : Int) (who : String) (restoreId : Option String)
    (planned : List Planned) (s s' : Store) : Prop where
  entry : ∀ p ∈ planned, p.effective = true →
    s'.entries.get (space, p.op.key) = some (p.entry space rev now who p.text)
  entry_kept : ∀ pk, (∀ p ∈ planned, p.effective = true → (space, p.op.key) ≠ pk) →
    s'.entries.get pk = s.entries.get pk
  new : ∀ p ∈ planned, p.effective = true → s.changes.get (space, rev, p.op.key) = none
  change : ∀ p ∈ planned, p.effective = true → s'.changes.get (space, rev, p.op.key) =
    some (p.change space rev now who restoreId p.text.isNone)
  change_kept : ∀ pk, (∀ p ∈ planned, p.effective = true → (space, rev, p.op.key) ≠ pk) →
    s'.changes.get pk = s.changes.get pk

theorem landAll_lands {planned : List Planned} {s s' : Store}
    (distinct : (planned.map (·.op.key)).Nodup)
    (ok : landAll space rev now who restoreId planned s = .ok s') :
    LandsAll space rev now who restoreId planned s s' := by
  induction planned generalizing s with
  | nil =>
      cases ok
      exact ⟨by simp, fun _ _ => rfl, by simp, by simp, fun _ _ => rfl⟩
  | cons p rest ih =>
      simp only [landAll, bind_eq_ok] at ok
      obtain ⟨between, here, later⟩ := ok
      simp only [List.map_cons, List.nodup_cons, List.mem_map, not_exists, not_and] at distinct
      obtain ⟨apart, distinct⟩ := distinct
      have all := ih distinct later
      have entry_later : between.entries.get (space, p.op.key) = s'.entries.get (space, p.op.key) :=
        (all.entry_kept _ fun q hq _ same => apart q hq (Prod.ext_iff.mp same).2).symm
      have change_later : between.changes.get (space, rev, p.op.key) =
          s'.changes.get (space, rev, p.op.key) := by
        refine (all.change_kept _ fun q hq _ same => apart q hq ?_).symm
        exact (Prod.ext_iff.mp (Prod.ext_iff.mp same).2).2
      constructor
      · intro q hq effective
        rcases List.mem_cons.mp hq with rfl | hq
        · rw [← entry_later, (lands_of_effective here effective).entries]
          exact KeyedTable.get_of_mem ((KeyedTable.mem_upsert ..).mpr (.inl rfl))
        · exact all.entry q hq effective
      · intro pk other
        rw [all.entry_kept pk fun q hq => other q (List.mem_cons_of_mem _ hq)]
        exact land_entry_kept here (other p (List.mem_cons_self ..))
      · intro q hq effective
        rcases List.mem_cons.mp hq with rfl | hq
        · exact (lands_of_effective here effective).new
        · rw [← land_change_kept here]
          · exact all.new q hq effective
          · intro _ same
            exact apart q hq (Prod.ext_iff.mp (Prod.ext_iff.mp same).2).2.symm
      · intro q hq effective
        rcases List.mem_cons.mp hq with rfl | hq
        · rw [← change_later, (lands_of_effective here effective).changes]
          exact KeyedTable.get_of_mem ((KeyedTable.mem_upsert ..).mpr (.inl rfl))
        · exact all.change q hq effective
      · intro pk other
        rw [all.change_kept pk fun q hq => other q (List.mem_cons_of_mem _ hq)]
        exact land_change_kept here (other p (List.mem_cons_self ..))

theorem landAll_spaces {planned : List Planned} {s s' : Store}
    (ok : landAll space rev now who restoreId planned s = .ok s') : s'.spaces = s.spaces := by
  induction planned generalizing s with
  | nil =>
      cases ok
      rfl
  | cons p rest ih =>
      simp only [landAll, bind_eq_ok] at ok
      obtain ⟨between, here, later⟩ := ok
      rw [ih later]
      rcases land_cases here with ⟨-, rfl⟩ | ⟨-, lands⟩
      · rfl
      · exact lands.spaces

/-- What a plan adds to a sum over the entries is what its ops add, each against
    the row its key had before. -/
theorem weigh_landAll {planned : List Planned} {s s' : Store} (w : EntryRow → Nat) (d : Planned → Int)
    (still : ∀ p ∈ planned, p.effective = false → d p = 0)
    (moves : ∀ p ∈ planned, p.effective = true → (w (p.entry space rev now who p.text) : Int) =
      ((s.entries.get (space, p.op.key)).map w).getD 0 + d p)
    (distinct : (planned.map (·.op.key)).Nodup)
    (ok : landAll space rev now who restoreId planned s = .ok s') :
    (s'.entries.weigh w : Int) = s.entries.weigh w + (planned.map d).sum := by
  induction planned generalizing s with
  | nil =>
      cases ok
      simp
  | cons p rest ih =>
      simp only [landAll, bind_eq_ok] at ok
      obtain ⟨between, here, later⟩ := ok
      simp only [List.map_cons, List.nodup_cons, List.mem_map, not_exists, not_and] at distinct
      obtain ⟨apart, distinct⟩ := distinct
      have rest_moves : ∀ q ∈ rest, q.effective = true → (w (q.entry space rev now who q.text) : Int) =
          ((between.entries.get (space, q.op.key)).map w).getD 0 + d q := by
        intro q hq effective
        rw [land_entry_kept here fun _ same => apart q hq (Prod.ext_iff.mp same).2.symm]
        exact moves q (List.mem_cons_of_mem _ hq) effective
      have rest_sum := ih (fun q hq => still q (List.mem_cons_of_mem _ hq)) rest_moves distinct later
      rw [rest_sum, List.map_cons, List.sum_cons]
      rcases land_cases here with ⟨no, rfl⟩ | ⟨effective, lands⟩
      · rw [still p (List.mem_cons_self ..) no]
        omega
      · have total := s.entries.weigh_upsert (p.entry space rev now who p.text) w
        rw [← lands.entries] at total
        have here_moves := moves p (List.mem_cons_self ..) effective
        have same : (p.entry space rev now who p.text).pk = (space, p.op.key) := rfl
        rw [same] at total
        omega

end Land

/-! ## A whole write -/

/-- What a write that changes something does to the tables. -/
structure Wrote (moment : Moment) (space : Space) (who : String) (mark : Option RestoreMark)
    (planned : List Planned) (s s' : Store) : Prop where
  lands : LandsAll space (s.headRev space + 1) moment.now who (mark.map (·.id)) planned s s'
  spaces : s'.spaces = s.spaces.upsert (s.counted space (s.headRev space + 1)
    (s.headBytes space + (planned.map Planned.bytes).sum)
    (s.headKeys space + (planned.map Planned.keys).sum) moment.now)
  bytes : s.headBytes space + (planned.map Planned.bytes).sum ≤ (limits space).1
  keys : s.headKeys space + (planned.map Planned.keys).sum ≤ (limits space).2
  weigh : ∀ (w : EntryRow → Nat) (d : Planned → Int),
    (∀ p ∈ planned, p.effective = false → d p = 0) →
    (∀ p ∈ planned, p.effective = true →
      (w (p.entry space (s.headRev space + 1) moment.now who p.text) : Int) =
        ((s.entries.get (space, p.op.key)).map w).getD 0 + d p) →
    (s'.entries.weigh w : Int) = s.entries.weigh w + (planned.map d).sum

theorem recordRestore_tables {s s' : Store} {space : Space} {who : String} {now rev : Int}
    {mark : Option RestoreMark} (ok : recordRestore s space who now rev mark = .ok s') :
    s'.entries = s.entries ∧ s'.changes = s.changes ∧ s'.spaces = s.spaces := by
  cases mark with
  | none =>
      cases ok
      exact ⟨rfl, rfl, rfl⟩
  | some m =>
      simp only [recordRestore] at ok
      split at ok
      · cases ok
        exact ⟨rfl, rfl, rfl⟩
      · cases ok

theorem seenBlobs_tables (s : Store) (space : Space) (rev : Int) :
    (s.seenBlobs space rev).entries = s.entries ∧ (s.seenBlobs space rev).changes = s.changes ∧
      (s.seenBlobs space rev).spaces = s.spaces := by
  simp only [Store.seenBlobs]
  split <;> exact ⟨rfl, rfl, rfl⟩

section Write

variable {b : Backend} {s : Store} {moment : Moment} {space : Space} {ops : List Op} {who : String}
  {indexed : Bool} {mark : Option RestoreMark}

theorem landWrite_wrote {planned : List Planned} {s' : Store}
    (distinct : (planned.map (·.op.key)).Nodup)
    (ok : s.landWrite moment space planned who mark (s.headRev space + 1)
      (s.headBytes space + (planned.map Planned.bytes).sum)
      (s.headKeys space + (planned.map Planned.keys).sum) = .ok s') :
    Wrote moment space who mark planned s s' := by
  simp only [Store.landWrite] at ok
  split at ok
  · cases ok
  · rename_i bytes
    split at ok
    · cases ok
    · rename_i keys
      simp only [bind_eq_ok] at ok
      obtain ⟨blobs, -, landed, all, restored, recorded, same⟩ := ok
      cases same
      obtain ⟨entries, changes, spaces⟩ := recordRestore_tables recorded
      obtain ⟨entries', changes', spaces'⟩ := seenBlobs_tables landed space (s.headRev space + 1)
      have lands := landAll_lands distinct all
      refine ⟨?_, ?_, not_lt.mp bytes, not_lt.mp keys, ?_⟩
      · constructor
        · simp only [entries, entries']
          exact lands.entry
        · simp only [entries, entries']
          exact lands.entry_kept
        · exact lands.new
        · simp only [changes, changes']
          exact lands.change
        · simp only [changes, changes']
          exact lands.change_kept
      · simp only [spaces, spaces', landAll_spaces all]
      · intro w d still moves
        simp only [entries, entries']
        have total := weigh_landAll (s := { s with blobs }) w d still moves distinct all
        exact total

variable (b s moment space ops who indexed mark) in
/-- A write is refused, changes nothing, or lands its plan at the next rev. -/
theorem writeWith_cases :
    (∃ e, s.writeWith b moment space ops who indexed mark = (s, .error e)) ∨
    ∃ planned, s.planWrite b moment space ops indexed = .ok planned ∧
      ((planned.any Planned.effective = false ∧
          s.writeWith b moment space ops who indexed mark = (s, .ok (s.headRev space, false))) ∨
        (planned.any Planned.effective = true ∧ ∃ s', Wrote moment space who mark planned s s' ∧
          s.writeWith b moment space ops who indexed mark = (s', .ok (s.headRev space + 1, true)))) := by
  simp only [Store.writeWith]
  cases planned_eq : s.planWrite b moment space ops indexed with
  | error e => exact .inl ⟨e, rfl⟩
  | ok planned =>
      have distinct : (planned.map (·.op.key)).Nodup := by
        obtain ⟨ops_eq, distinct, -⟩ := planWrite_spec planned_eq
        rw [← ops_eq, List.map_map] at distinct
        exact distinct
      cases some_effect : planned.any Planned.effective with
      | false =>
          refine .inr ⟨planned, rfl, .inl ⟨some_effect, ?_⟩⟩
          simp [Store.commit, bind, Except.bind, some_effect]
      | true =>
          cases landed : s.landWrite moment space planned who mark (s.headRev space + 1)
              (s.headBytes space + (planned.map Planned.bytes).sum)
              (s.headKeys space + (planned.map Planned.keys).sum) with
          | error e => exact .inl ⟨e, by simp [Store.commit, bind, Except.bind, some_effect, landed]⟩
          | ok s' =>
              exact .inr ⟨planned, rfl, .inr ⟨some_effect, s', landWrite_wrote distinct landed,
                by simp [Store.commit, bind, Except.bind, some_effect, landed]⟩⟩

end Write

/-! ## Conflicts -/

/-- A computation that answers no conflict. -/
def NoConflict {α : Type} (x : Except DataError α) : Prop := ∀ key rev op, x ≠ .error (.conflict key rev op)

namespace NoConflict

variable {α β : Type}

theorem ok (a : α) : NoConflict (.ok a : Except DataError α) := by
  intro key rev op same
  cases same

theorem bind {x : Except DataError α} {f : α → Except DataError β} (first : NoConflict x)
    (continued : ∀ a, NoConflict (f a)) : NoConflict (x >>= f) := by
  intro key rev op same
  cases x with
  | error e =>
      cases same
      exact first key rev op rfl
  | ok a => exact continued a key rev op same

theorem map {x : Except DataError α} {f : α → β} (free : NoConflict x) : NoConflict (x.map f) := by
  intro key rev op same
  cases x with
  | error e =>
      cases same
      exact free key rev op rfl
  | ok a => cases same

theorem mapError_atOp {x : Except DataError α} (free : NoConflict x) (indexed : Bool) (i : Nat) (op : Op) :
    NoConflict (x.mapError (atOp indexed i op)) := by
  intro key rev j same
  cases x with
  | error e =>
      cases e <;> simp_all [Except.mapError, atOp, NoConflict]
  | ok a => cases same

end NoConflict

theorem checkShape_free (text : String) (trailing : Bool) : NoConflict (checkShape text trailing) := by
  intro key rev op
  simp only [checkShape]
  split
  · simp
  · split
    · simp
    · split <;> simp

theorem validateKey_free (key : String) : NoConflict (validateKey key) := by
  simp only [validateKey]
  split
  · intro key rev op
    simp
  · exact checkShape_free key false

theorem scanRefs_free (v : Value) : NoConflict (scanRefs v) := by
  intro key rev op
  simp only [scanRefs]
  split <;> simp

theorem canonical_free (v : Value) : NoConflict (canonical v) := by
  intro key rev op
  simp only [canonical]
  split <;> simp

theorem checkPartial_free (part : Value) (ifRev : Option Int) : NoConflict (checkPartial part ifRev) := by
  intro key rev op
  simp only [checkPartial]
  split
  · simp
  · split <;> simp

theorem merged_free (name : String) (current : Option Value) (part : Value) :
    NoConflict (merged name current part) := by
  intro key rev op
  simp only [merged]
  split
  · split <;> simp
  · simp

theorem current_free (b : Backend) (live : Live) : NoConflict (b.current live) := by
  simp only [Backend.current]
  split
  · exact .ok _
  · apply NoConflict.map
    intro key rev op
    simp only [Backend.parseValue]
    split
    · simp
    · split <;> simp

theorem refsIn_free (blobsOn indexed : Bool) (i : Nat) (op : Op) (v : Value) :
    NoConflict (refsIn blobsOn indexed i op v) := by
  simp only [refsIn]
  split
  · exact ((scanRefs_free v).mapError_atOp indexed i op).map
  · exact .ok _

theorem shape_free (blobsOn indexed : Bool) (i : Nat) (op : Op) : NoConflict (shape blobsOn indexed i op) := by
  cases op with
  | put key value ifRev =>
      exact (refsIn_free _ _ _ _ _).bind fun _ => (canonical_free value).bind fun _ => .ok _
  | delete key ifRev => exact .ok _
  | patch key part ifRev => exact ((checkPartial_free part ifRev).mapError_atOp _ _ _).bind fun _ => .ok _

theorem shapes_free (blobsOn indexed : Bool) (seen : List String) (i : Nat) (ops : List Op) :
    NoConflict (shapes blobsOn indexed seen i ops) := by
  induction ops generalizing seen i with
  | nil => exact .ok _
  | cons op rest ih =>
      simp only [shapes]
      refine (validateKey_free _).bind fun _ => ?_
      split
      · intro key rev op
        simp
      · exact (shape_free _ _ _ _).bind fun _ => (ih _ _).bind fun _ => .ok _

section Conflict

variable {b : Backend} {s : Store} {space : Space} {indexed : Bool}

theorem merge_free (i : Nat) (live : Live) (sh : Shaped) : NoConflict (sh.merge b space indexed i live) := by
  obtain ⟨op, act, refs⟩ := sh
  cases op with
  | put key value ifRev => exact .ok _
  | delete key ifRev => exact .ok _
  | patch key part ifRev =>
      refine (current_free b live).bind fun current =>
        ((merged_free key current part).mapError_atOp _ _ _).bind fun answer => ?_
      cases answer with
      | none => exact .ok _
      | some doc => exact (refsIn_free _ _ _ _ _).bind fun _ => (canonical_free doc).bind fun _ => .ok _

/-- Why a write answers a conflict: an op whose `ifRev` isn't its key's live rev. -/
def Mismatch (s : Store) (space : Space) (ops : List Op) (key : String) (rev : Int) : Prop :=
  rev = (s.live space key).rev ∧ ∃ op ∈ ops, op.key = key ∧ ∃ n, op.ifRev = some n ∧ n ≠ rev

theorem plans_conflict {i : Nat} {shaped : List Shaped} {key : String} {rev : Int} {moment : Option Nat}
    (refused : plans b s space indexed i shaped = .error (.conflict key rev moment)) :
    Mismatch s space (shaped.map (·.op)) key rev := by
  induction shaped generalizing i with
  | nil => cases refused
  | cons sh rest ih =>
      simp only [plans] at refused
      cases planned : plan b s space indexed i sh with
      | error e =>
          rw [planned] at refused
          cases refused
          simp only [plan] at planned
          split at planned
          · rename_i want asked
            split at planned
            · rename_i other
              cases planned
              exact ⟨rfl, sh.op, by simp, rfl, want, asked, other⟩
            · exact absurd planned (merge_free _ _ _ _ _ _)
          · exact absurd planned (merge_free _ _ _ _ _ _)
      | ok p =>
          rw [planned] at refused
          cases later : plans b s space indexed (i + 1) rest with
          | error e =>
              simp only [later, bind, Except.bind] at refused
              cases refused
              obtain ⟨live, op, member, why⟩ := ih later
              exact ⟨live, op, List.mem_cons_of_mem _ member, why⟩
          | ok more =>
              simp only [later, bind, Except.bind] at refused
              cases refused

theorem planWrite_conflict {moment : Moment} {ops : List Op} {key : String} {rev : Int} {op : Option Nat}
    (refused : s.planWrite b moment space ops indexed = .error (.conflict key rev op)) :
    Mismatch s space ops key rev := by
  simp only [Store.planWrite] at refused
  cases shaped_eq : shapes space.isData indexed [] 0 ops with
  | error e =>
      rw [shaped_eq] at refused
      cases refused
      exact absurd shaped_eq (shapes_free _ _ _ _ _ _ _ _)
  | ok shaped =>
      simp only [shaped_eq, bind, Except.bind] at refused
      split at refused
      · cases refused
      · rw [← (shapes_spec shaped_eq).1]
        exact plans_conflict refused

theorem landAll_free (rev now : Int) (who : String) (restoreId : Option String) (planned : List Planned)
    (s : Store) : NoConflict (landAll space rev now who restoreId planned s) := by
  induction planned generalizing s with
  | nil => exact .ok _
  | cons p rest ih =>
      refine NoConflict.bind ?_ fun _ => ih _
      have stored : ∀ text refs, NoConflict (p.store space rev now who restoreId text refs s) := by
        intro text refs key n op
        simp only [Planned.store]
        split <;> simp [sqliteConflict]
      simp only [Planned.land]
      split
      · exact stored _ _
      · split
        · exact stored _ _
        · exact .ok _
      · exact .ok _
      · exact .ok _

theorem landWrite_free (moment : Moment) (planned : List Planned) (who : String) (mark : Option RestoreMark)
    (rev bytes keys : Int) : NoConflict (s.landWrite moment space planned who mark rev bytes keys) := by
  simp only [Store.landWrite]
  split
  · intro key n op
    simp
  · split
    · intro key n op
      simp
    · refine NoConflict.bind ?_ fun _ => (landAll_free _ _ _ _ _ _).bind fun _ =>
        NoConflict.bind ?_ fun _ => .ok _
      · intro key n op
        simp only [Store.heldBlobs]
        split
        · simp only [BlobTables.checkHeld]
          split <;> simp
        · simp
      · intro key n op
        simp only [recordRestore]
        split
        · simp
        · split <;> simp [sqliteConflict]

/-- A write answers a conflict only for an op whose `ifRev` isn't its key's live
    rev. -/
theorem writeWith_conflict {moment : Moment} {ops : List Op} {who : String} {mark : Option RestoreMark}
    {s' : Store} {key : String} {rev : Int} {op : Option Nat}
    (refused : s.writeWith b moment space ops who indexed mark = (s', .error (.conflict key rev op))) :
    Mismatch s space ops key rev := by
  simp only [Store.writeWith] at refused
  cases planned_eq : s.planWrite b moment space ops indexed with
  | error e =>
      rw [planned_eq] at refused
      cases refused
      exact planWrite_conflict planned_eq
  | ok planned =>
      simp only [planned_eq, bind, Except.bind] at refused
      split at refused
      · cases refused
      · cases landed : s.landWrite moment space planned who mark (s.headRev space + 1)
            (s.headBytes space + (planned.map Planned.bytes).sum)
            (s.headKeys space + (planned.map Planned.keys).sum) with
        | error e =>
            rw [landed] at refused
            cases refused
            exact absurd landed (landWrite_free _ _ _ _ _ _ _ _ _ _)
        | ok s' =>
            rw [landed] at refused
            cases refused

end Conflict

end K2.GardenData
