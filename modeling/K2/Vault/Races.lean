import K2.Vault.Versions

/-! # Concurrent operations

Each operation reads under the connection lock, drops it, and commits in a later
transaction. A `Race` is a vault and operations at any stage; a schedule says whose
turn it is. As long as every commit finds the row its operation read, the commits
are applied to the row one after another.
-/

namespace K2.Vault

/-- What a check was made on: the row, and the facts its actor was judged by. -/
structure Look where
  row : SecretMeta
  facts : Facts

def LocalVault.look (v : LocalVault) (actor : Actor) (row : SecretMeta) : Look := ⟨row, v.factsFor row actor⟩

/-- How far an operation has come, with what it holds from its reads. -/
inductive Stage where
  | fresh
  | foundPut (req : PutRequest) (newId : String) (found : Option SecretMeta × Bytes × Bool)
  | foundRotate (found : SecretMeta × Bytes × Bool)
  | foundGrant (g : GrantRequest) (newId : String) (found : SecretMeta × Facts)
  /-- Checked: the transaction is next. -/
  | ready (look : Option Look) (w : Write)
  | ended (result : Except VaultError Unit)

structure Task where
  deed : Deed
  stage : Stage

/-- A check is through: refused, answered, or with a write to make. -/
def settle (look : Option Look) : Except VaultError (Planned Unit) → Stage
  | .error e => .ended (.error e)
  | .ok (.answer _) => .ended (.ok ())
  | .ok (.write w _) => .ready look w

/-- A read that found what it was for. -/
def found {α : Type} (next : α → Stage) : Except VaultError α → Stage
  | .error e => .ended (.error e)
  | .ok a => next a

section Step

variable (fm : Formats) (v : LocalVault) (d : Deed)

/-- The first read. -/
def Deed.start : Stage :=
  match d.call with
  | .put req value newId => found (.foundPut req newId) (putFind v req value)
  | .rotate sel value => found .foundRotate (rotateFind fm v sel value)
  | .grant g newId => found (.foundGrant g newId) (grantFind v g d.actor)
  | .revoke _ => settle none (d.plan fm v)
  | .setPolicy sel _ | .disable sel | .enable sel | .destroy sel =>
      settle ((v.findRow sel).toOption.map (v.look d.actor)) (d.plan fm v)

/-- The next locked step of an operation. -/
def Task.step (t : Task) : LocalVault × Stage :=
  match t.stage with
  | .fresh => (v, t.deed.start fm v)
  | .foundPut req newId row => (v, settle (row.1.map (v.look t.deed.actor))
      (Planned.done (putFound fm v req t.deed.actor t.deed.now newId row)))
  | .foundRotate row => (v, settle (some (v.look t.deed.actor row.1))
      (Planned.done (rotateRow fm v row.1 row.2.1 t.deed.actor false row.2.2 t.deed.now)))
  | .foundGrant g newId row => (v, settle (some ⟨row.1, row.2⟩)
      (Planned.done (grantFound fm v g t.deed.actor t.deed.now newId row.1 row.2)))
  | .ready _ w =>
      match v.mutate (fm.ts t.deed.now) w with
      | .ok v' => (v', .ended (.ok ()))
      | .error e => (v, .ended (.error e))
  | .ended result => (v, .ended result)

end Step

structure Race where
  vault : LocalVault
  tasks : List Task

/-- Operations that are about to begin. -/
def Race.of (v : LocalVault) (deeds : List Deed) : Race := ⟨v, deeds.map (⟨·, .fresh⟩)⟩

/-- It is the turn of the operation at `k`. -/
def Race.advance (fm : Formats) (s : Race) (k : Nat) : Race :=
  match s.tasks[k]? with
  | none => s
  | some t => ⟨(t.step fm s.vault).1, s.tasks.set k { t with stage := (t.step fm s.vault).2 }⟩

/-! ## Commits -/

section Commits

variable (fm : Formats) (s : Race) (k : Nat)

/-- The write of a secret's row that this turn commits, and what it was checked on. -/
def Race.commit : Option (Deed × Look × Write) :=
  match s.tasks[k]? with
  | some ⟨d, .ready (some look) w⟩ =>
      if w.row.isSome && (s.vault.mutate (fm.ts d.now) w).toOption.isSome then some (d, look, w) else none
  | _ => none

/-- May the actor, as things stand, loosen the secret the way the write does? -/
def permitted (d : Deed) (look : Look) (w : Write) : Bool :=
  mayLoosen d.actor (s.vault.factsFor look.row d.actor) (w.rewritten look.row).defaultDelivery

/-- A commit finds the row its operation read, and the facts its actor was judged by. -/
def Race.upToDate : Bool :=
  match s.commit fm k with
  | some (d, look, _) =>
      s.vault.secrets.get look.row.id = some look.row && s.vault.factsFor look.row d.actor = look.facts
  | none => true

/-- Does this turn commit a loosening of the secret that its actor may make? -/
def Race.loosening (id : String) : Bool :=
  match s.commit fm k with
  | some (d, look, w) => look.row.id = id && !noLooser look.row (w.rewritten look.row) && permitted s d look w
  | none => false

/-- The operation that changes the secret's row on this turn. -/
def Race.changing (id : String) : List Deed :=
  match s.commit fm k with
  | some (d, look, _) => if look.row.id = id then [d] else []
  | none => []

end Commits

/-! ## What a call makes of a row -/

def Call.addsVersion : Call → Bool
  | .put .. | .rotate .. => true
  | _ => false

/-- The status a call moves a secret to. -/
def Call.target : Call → Option SecretStatus
  | .disable _ => some .disabled
  | .enable _ => some .active
  | .destroy _ => some .destroyed
  | _ => none

/-- A call's own change of a row. -/
inductive Effect (fm : Formats) (d : Deed) (row : SecretMeta) : SecretMeta → Prop where
  | version {m : SecretMeta} (called : d.call.addsVersion = true) (revives : revived row d.actor = .ok m) :
      Effect fm d row { m with latestVersion := m.latestVersion + 1, updatedAt := fm.ts d.now }
  | policy {sel : Selector} {p : PolicyPatch} {hosts : List String} (called : d.call = .setPolicy sel p)
      (listed : p.patchHosts fm d.actor row.hosts = .ok hosts) :
      Effect fm d row { p.patched row hosts with updatedAt := fm.ts d.now }
  | status {target : SecretStatus} (called : d.call.target = some target) :
      Effect fm d row { row with status := target, updatedAt := fm.ts d.now }

/-- Operations applied to a row one after another. -/
inductive Replays (fm : Formats) : SecretMeta → List Deed → SecretMeta → Prop where
  | nil (m : SecretMeta) : Replays fm m [] m
  | cons {a b c : SecretMeta} {d : Deed} {rest : List Deed} (effect : Effect fm d a b)
      (later : Replays fm b rest c) : Replays fm a (d :: rest) c

/-! ## What an operation holds -/

/-- A checked write: one its actor may make of the row it read, of which it makes its
    call's own change. -/
structure Ready (fm : Formats) (d : Deed) (look : Look) (w : Write) : Prop where
  allows : Allows fm d.actor look.row look.facts w
  effect : ∀ m, w.row = some m → Effect fm d look.row m

def Task.Sane (fm : Formats) (t : Task) : Prop :=
  match t.stage with
  | .foundPut .. | .foundRotate _ => t.deed.call.addsVersion = true
  | .ready (some look) w => Ready fm t.deed look w
  | .ready none w => w.row = none ∨ w.creates = true
  | .fresh | .foundGrant .. | .ended _ => True

section Sane

variable {fm : Formats} {v : LocalVault} {d : Deed}

/-- What a check leaves is sane when every write it can come to is. -/
theorem sane_settle {look : Option Look} {planned : Except VaultError (Planned Unit)}
    (write : ∀ w, planned = .ok (.write w ()) → (⟨d, .ready look w⟩ : Task).Sane fm) :
    (⟨d, settle look planned⟩ : Task).Sane fm := by
  cases planned with
  | error e => trivial
  | ok came =>
      cases came with
      | answer a => trivial
      | write w a => exact write w rfl

theorem sane_found {α : Type} {next : α → Stage} {x : Except VaultError α}
    (sane : ∀ a, (⟨d, next a⟩ : Task).Sane fm) : (⟨d, found next x⟩ : Task).Sane fm := by
  cases x with
  | error e => trivial
  | ok a => exact sane a

theorem sane_status {sel : Selector} {target : SecretStatus} (called : d.call.target = some target) {w : Write}
    (planned : setStatusPlan fm v sel d.actor target d.now = .ok (.write w ())) :
    (⟨d, .ready ((v.findRow sel).toOption.map (v.look d.actor)) w⟩ : Task).Sane fm := by
  obtain ⟨row, isRow, rfl, allows⟩ := set_status_allows planned
  rw [isRow]
  refine ⟨allows, fun m written => ?_⟩
  cases written
  exact .status called

theorem sane_start : (⟨d, d.start fm v⟩ : Task).Sane fm := by
  simp only [Deed.start]
  cases called : d.call with
  | put req value newId =>
      apply sane_found
      intro a
      simp only [Task.Sane, called, Call.addsVersion]
  | rotate sel value =>
      apply sane_found
      intro a
      simp only [Task.Sane, called, Call.addsVersion]
  | grant g newId => exact sane_found fun _ => trivial
  | revoke grantId =>
      apply sane_settle
      intro w planned
      simp only [Deed.plan, called] at planned
      obtain ⟨g, -, rfl, -⟩ := revoke_writes planned
      exact .inl rfl
  | setPolicy sel p =>
      apply sane_settle
      intro w planned
      simp only [Deed.plan, called] at planned
      obtain ⟨a, planned⟩ := done_write planned
      obtain ⟨row, isRow, ⟨hosts, listed, rfl⟩, allows⟩ := set_policy_allows planned
      rw [isRow]
      refine ⟨allows, fun m written => ?_⟩
      cases written
      exact .policy called listed
  | disable sel | enable sel | destroy sel =>
      apply sane_settle
      intro w planned
      simp only [Deed.plan, called] at planned
      exact sane_status (by rw [called]; rfl) planned

theorem sane_step {t : Task} (sane : t.Sane fm) : (⟨t.deed, (t.step fm v).2⟩ : Task).Sane fm := by
  obtain ⟨d, stage⟩ := t
  cases stage with
  | fresh => exact sane_start
  | foundPut req newId row =>
      apply sane_settle
      intro w planned
      obtain ⟨a, planned⟩ := done_write planned
      rcases put_found_allows planned with
        ⟨none, m, value, rfl, -⟩ | ⟨old, isRow, ⟨m, value, revives, rfl⟩, allows⟩
      · rw [none]
        exact .inr rfl
      · rw [isRow]
        refine ⟨allows, fun m written => ?_⟩
        cases written
        exact .version sane revives
  | foundRotate row =>
      apply sane_settle
      intro w planned
      obtain ⟨a, planned⟩ := done_write planned
      obtain ⟨⟨m, revives, rfl⟩, allows⟩ := rotate_row_allows planned
      refine ⟨allows, fun m written => ?_⟩
      cases written
      exact .version sane revives
  | foundGrant g newId row =>
      apply sane_settle
      intro w planned
      obtain ⟨a, planned⟩ := done_write planned
      obtain ⟨⟨x, rfl, -⟩, allows⟩ := grant_found_allows planned
      exact ⟨allows, fun m written => nomatch written⟩
  | ready look w =>
      simp only [Task.step]
      split <;> trivial
  | ended result => trivial

end Sane

/-! ## One turn -/

def Race.Sane (fm : Formats) (s : Race) : Prop := ∀ t ∈ s.tasks, t.Sane fm

section Turn

variable {fm : Formats} {s : Race} {k : Nat}

theorem sane_of (v : LocalVault) (deeds : List Deed) : (Race.of v deeds).Sane fm := by
  intro t member
  obtain ⟨d, -, rfl⟩ := List.mem_map.mp member
  trivial

theorem sane_advance (sane : s.Sane fm) : (s.advance fm k).Sane fm := by
  simp only [Race.advance]
  cases here : s.tasks[k]? with
  | none => exact sane
  | some t =>
      intro t' member
      rcases List.mem_or_eq_of_mem_set member with other | rfl
      · exact sane t' other
      · exact sane_step (sane t (List.mem_of_getElem? here))

/-- A turn leaves the vault alone, or carries out a write that was checked. -/
theorem advance_cases (fm : Formats) (s : Race) (k : Nat) :
    ((s.advance fm k).vault = s.vault ∧ s.commit fm k = none) ∨
      ∃ d look w, s.tasks[k]? = some ⟨d, .ready look w⟩ ∧
        w.apply (fm.ts d.now) s.vault = .ok (s.advance fm k).vault ∧
        s.commit fm k = look.bind fun l => if w.row.isSome then some (d, l, w) else none := by
  simp only [Race.advance, Race.commit]
  cases here : s.tasks[k]? with
  | none => exact .inl ⟨rfl, rfl⟩
  | some t =>
      obtain ⟨d, stage⟩ := t
      cases stage with
      | ready look w =>
          simp only [Task.step]
          cases ok : s.vault.mutate (fm.ts d.now) w with
          | error e =>
              refine .inl ⟨rfl, ?_⟩
              cases look with
              | none => rfl
              | some l => simp [Except.toOption, ok]
          | ok v' =>
              refine .inr ⟨d, look, w, rfl, ?_, ?_⟩
              · simp only [LocalVault.mutate] at ok
                split at ok
                · cases ok
                · exact ok
              · cases look with
                | none => rfl
                | some l => simp [Except.toOption, ok]
      | fresh | foundPut | foundRotate | foundGrant | ended => exact .inl ⟨rfl, rfl⟩

theorem rewritten_of_rowless {w : Write} (rowless : w.row = none) (r : SecretMeta) : w.rewritten r = r := by
  cases w with
  | grant | revoke => rfl
  | create | version | policy | status => cases rowless

theorem rows_kept {w : Write} {v v' : LocalVault} {time : String} (ok : w.apply time v = .ok v')
    (rowless : w.row = none ∨ w.creates = true) {id : String} {m : SecretMeta}
    (stored : v.secrets.get id = some m) : v'.secrets.get id = some m := by
  rcases rowless with rowless | creates
  · have existing : w.creates = false := by
      cases w with
      | grant | revoke | version | policy | status => rfl
      | create => cases rowless
    rw [apply_get ok existing, stored]
    exact congrArg some (rewritten_of_rowless rowless m)
  · cases w with
    | create m' value stamp => exact create_kept ok stored
    | version | policy | status | grant | revoke => cases creates

/-- A turn's commit, when the row it was checked on still stands, is the call's own
    change of that row. -/
theorem commit_row {d : Deed} {l : Look} {w : Write} {v v' : LocalVault} {time : String}
    (ready : Ready fm d l w) (ok : w.apply time v = .ok v') (current : v.secrets.get l.row.id = some l.row)
    (writes : w.row.isSome = true) {id : String} {m : SecretMeta} (stored : v.secrets.get id = some m) :
    ∃ m', v'.secrets.get id = some m' ∧
      ((l.row.id = id ∧ m = l.row ∧ m' = w.rewritten l.row ∧ Effect fm d m m') ∨ (l.row.id ≠ id ∧ m' = m)) := by
  have rows := apply_get ok (allows_existing ready.allows) id
  rw [stored] at rows
  refine ⟨w.rewritten m, rows, ?_⟩
  by_cases same : l.row.id = id
  · rw [← same, current] at stored
    cases stored
    obtain ⟨m', written⟩ := Option.isSome_iff_exists.mp writes
    have effect := ready.effect m' written
    refine .inl ⟨same, rfl, rfl, ?_⟩
    rw [allows_rewritten ready.allows, written]
    exact effect
  · have key := KeyedTable.key_of_get stored
    refine .inr ⟨same, allows_elsewhere ready.allows fun its => same (its.symm.trans key)⟩

theorem advance_row (sane : s.Sane fm) (current : s.upToDate fm k = true) {id : String} {m : SecretMeta}
    (stored : s.vault.secrets.get id = some m) :
    ∃ m', (s.advance fm k).vault.secrets.get id = some m' ∧ Replays fm m (s.changing fm k id) m' ∧
      (s.loosening fm k id = false → NoLooser m m') := by
  rcases advance_cases fm s k with ⟨same, idle⟩ | ⟨d, look, w, here, ok, commit⟩
  · refine ⟨m, by rwa [same], ?_, fun _ => .refl m⟩
    simpa only [Race.changing, idle] using Replays.nil m
  · have its := sane _ (List.mem_of_getElem? here)
    cases look with
    | none =>
        refine ⟨m, rows_kept ok its stored, ?_, fun _ => .refl m⟩
        simpa only [Race.changing, commit, Option.bind_none] using Replays.nil m
    | some l =>
        rw [Option.bind_some] at commit
        cases writes : w.row.isSome with
        | false =>
            rw [writes] at commit
            refine ⟨m, rows_kept ok (.inl (by simpa using writes)) stored, ?_, fun _ => .refl m⟩
            simpa [Race.changing, commit] using Replays.nil m
        | true =>
            rw [writes, if_pos rfl] at commit
            simp only [Race.upToDate, commit, Bool.and_eq_true, decide_eq_true_eq] at current
            obtain ⟨m', now, ⟨rfl, rfl, rfl, effect⟩ | ⟨other, rfl⟩⟩ :=
              commit_row its ok current.1 writes stored
            · refine ⟨_, now, ?_, fun tight => ?_⟩
              · simpa only [Race.changing, commit, if_true] using Replays.cons effect (.nil _)
              · rcases allows_no_looser its.allows with kept | may
                · exact kept
                · -- the check was made on facts that still hold, so the loosening is a permitted one
                  have may : permitted s d l w = true := by rw [permitted, current.2, may]
                  rw [← noLooser_iff]
                  simpa [Race.loosening, commit, may] using tight
            · refine ⟨m', now, ?_, fun _ => .refl m'⟩
              simpa only [Race.changing, commit, if_neg other] using Replays.nil m'

theorem destroyed_by_call {d : Deed} {row m : SecretMeta} (alive : row.status ≠ .destroyed)
    (effect : Effect fm d row m) (destroyed : m.status = .destroyed) : ∃ sel, d.call = .destroy sel := by
  cases effect with
  | version called revives =>
      rcases revived_cases revives with ⟨rfl, -⟩ | ⟨rfl, -⟩
      · exact absurd destroyed alive
      · cases destroyed
  | policy called listed => exact absurd destroyed alive
  | status called =>
      cases destroyed
      cases call : d.call with
      | destroy sel => exact ⟨sel, rfl⟩
      | put | rotate | setPolicy | grant | revoke | disable | enable =>
          rw [call] at called
          cases called

/-- A turn that destroys nothing leaves a secret's versions their values. -/
theorem advance_versions (sane : s.Sane fm) {id : String} {n : Nat} {r : VersionRow}
    (lives : ∀ d ∈ s.changing fm k id, ∀ sel, d.call ≠ .destroy sel)
    (stored : s.vault.versions.get (id, n) = some r) :
    ∃ r', (s.advance fm k).vault.versions.get (id, n) = some r' ∧ r'.value = r.value := by
  rcases advance_cases fm s k with ⟨same, -⟩ | ⟨d, look, w, here, ok, commit⟩
  · exact ⟨r, by rwa [same], rfl⟩
  · have its := sane _ (List.mem_of_getElem? here)
    have kept := apply_versions ok stored fun m written ofId destroyed => by
      subst written
      cases look with
      | none => rcases its with rowless | creates <;> contradiction
      | some l =>
          have ready : Ready fm d l (.status m) := its
          obtain ⟨ofRow, -⟩ := allows_written ready.allows rfl
          simp only [Option.bind_some, Write.row, Option.isSome_some, if_true] at commit
          simp only [Race.changing, commit, ofRow.symm.trans ofId, if_true, List.mem_singleton,
            forall_eq] at lives
          have effect := ready.effect m rfl
          have alive : l.row.status ≠ .destroyed := by
            cases ready.allows with
            | status alive may => exact alive
          obtain ⟨sel, call⟩ := destroyed_by_call alive effect destroyed
          exact lives sel call
    obtain ⟨r', now, value, -⟩ := kept
    exact ⟨r', now, value⟩

end Turn

/-! ## Whole schedules -/

theorem Replays.append {fm : Formats} {a b c : SecretMeta} {xs ys : List Deed} (first : Replays fm a xs b)
    (later : Replays fm b ys c) : Replays fm a (xs ++ ys) c := by
  induction first with
  | nil => exact later
  | cons effect _ ih => exact .cons effect (ih later)

theorem effect_version {fm : Formats} {d : Deed} {a b : SecretMeta} (effect : Effect fm d a b) :
    b.latestVersion = a.latestVersion + (if d.call.addsVersion then 1 else 0) := by
  cases effect with
  | version called revives =>
      rw [called, if_pos rfl]
      rcases revived_cases revives with ⟨rfl, -⟩ | ⟨rfl, -⟩ <;> rfl
  | policy called listed =>
      rw [called]
      rfl
  | status called =>
      cases call : d.call with
      | disable | enable | destroy => rfl
      | put | rotate | setPolicy | grant | revoke =>
          rw [call] at called
          cases called

theorem replays_version {fm : Formats} {a b : SecretMeta} {deeds : List Deed} (replays : Replays fm a deeds b) :
    b.latestVersion = a.latestVersion + deeds.countP (·.call.addsVersion) := by
  induction replays with
  | nil => rfl
  | cons effect _ ih =>
      rw [ih, effect_version effect, List.countP_cons]
      omega

section Schedule

variable (fm : Formats)

/-- The operations that change a secret's row, in the order of their commits. -/
def Race.changes (id : String) (s : Race) (schedule : List Nat) : List Deed :=
  Rounds.outputs (Race.advance fm) (fun s k => s.changing fm k id) s schedule

variable {fm} {s : Race} {id : String}

theorem sane_after (sane : s.Sane fm) (schedule : List Nat) :
    (Rounds.after (Race.advance fm) s schedule).Sane fm :=
  Rounds.invariant (fun _ _ sane => sane_advance sane) sane schedule

theorem row_after (sane : s.Sane fm) {schedule : List Nat}
    (current : Rounds.Along (Race.advance fm) (fun s k => s.upToDate fm k = true) s schedule) {m : SecretMeta}
    (stored : s.vault.secrets.get id = some m) :
    ∃ m', (Rounds.after (Race.advance fm) s schedule).vault.secrets.get id = some m' ∧
      Replays fm m (s.changes fm id schedule) m' ∧
      (Rounds.Along (Race.advance fm) (fun s k => s.loosening fm k id = false) s schedule → NoLooser m m') := by
  induction schedule generalizing s m with
  | nil => exact ⟨m, stored, .nil m, fun _ => .refl m⟩
  | cons k rest ih =>
      obtain ⟨m₁, now, change, tight⟩ := advance_row sane current.1 stored
      obtain ⟨m₂, last, changes, tighter⟩ := ih (sane_advance sane) current.2 now
      exact ⟨m₂, last, change.append changes, fun none => (tight none.1).trans (tighter none.2)⟩

theorem versions_after (sane : s.Sane fm) {schedule : List Nat} {n : Nat} {r : VersionRow}
    (lives : ∀ d ∈ s.changes fm id schedule, ∀ sel, d.call ≠ .destroy sel)
    (stored : s.vault.versions.get (id, n) = some r) :
    ∃ r', (Rounds.after (Race.advance fm) s schedule).vault.versions.get (id, n) = some r' ∧
      r'.value = r.value := by
  induction schedule generalizing s r with
  | nil => exact ⟨r, stored, rfl⟩
  | cons k rest ih =>
      simp only [Race.changes, Rounds.outputs, List.forall_mem_append] at lives
      obtain ⟨r₁, now, same⟩ := advance_versions sane lives.1 stored
      obtain ⟨r₂, last, same'⟩ := ih (sane_advance sane) lives.2 now
      exact ⟨r₂, last, same'.trans same⟩

end Schedule

/-- In any interleaving whose commits find what they were checked on, from any moment
    on: a secret's row is what the committed operations, one after another, make of it;
    it gets no looser until a permitted loosening commits; every version committed
    counts and keeps its value until the secret is destroyed. -/
theorem commits_keep_what_was_committed (fm : Formats) (v : LocalVault) (deeds : List Deed)
    {before later : List Nat} {id : String} {m : SecretMeta}
    (current : Rounds.Along (Race.advance fm) (fun s k => s.upToDate fm k = true)
      (Rounds.after (Race.advance fm) (.of v deeds) before) later)
    (stored : (Rounds.after (Race.advance fm) (.of v deeds) before).vault.secrets.get id = some m) :
    ∃ m', (Rounds.after (Race.advance fm) (Rounds.after (Race.advance fm) (.of v deeds) before)
        later).vault.secrets.get id = some m' ∧
      Replays fm m ((Rounds.after (Race.advance fm) (.of v deeds) before).changes fm id later) m' ∧
      (Rounds.Along (Race.advance fm) (fun s k => s.loosening fm k id = false)
        (Rounds.after (Race.advance fm) (.of v deeds) before) later → NoLooser m m') ∧
      m'.latestVersion = m.latestVersion +
        ((Rounds.after (Race.advance fm) (.of v deeds) before).changes fm id later).countP
          (·.call.addsVersion) ∧
      ((∀ d ∈ (Rounds.after (Race.advance fm) (.of v deeds) before).changes fm id later,
          ∀ sel, d.call ≠ .destroy sel) → ∀ n r,
        (Rounds.after (Race.advance fm) (.of v deeds) before).vault.versions.get (id, n) = some r →
        ∃ r', (Rounds.after (Race.advance fm) (Rounds.after (Race.advance fm) (.of v deeds) before)
          later).vault.versions.get (id, n) = some r' ∧ r'.value = r.value) := by
  have sane : (Rounds.after (Race.advance fm) (.of v deeds) before).Sane fm :=
    sane_after (sane_of v deeds) before
  obtain ⟨m', now, replays, tight⟩ := row_after sane current stored
  exact ⟨m', now, replays, tight, replays_version replays, fun lives n r kept => versions_after sane lives kept⟩

namespace StaleRotate

/-- A workspace key the owner gave, at its first version. -/
def key : PutRequest := { PutRequest.server "API_KEY" .apiKey [] with scope := ⟨.workspace, "ws"⟩ }

def start : LocalVault :=
  (LocalVault.fresh [] false false).next (.knowing []) ⟨.put key [1] "s1", .owner, 0⟩

def agent : Actor := .agent ⟨"ws", some "c1", false, false⟩

/-- An agent of the workspace rotates it while the owner disables it. -/
def race : Race := .of start [⟨.rotate (.id "s1") [2], agent, 0⟩, ⟨.disable (.id "s1"), .owner, 0⟩]

def after (schedule : List Nat) : Race := Rounds.after (Race.advance (.knowing [])) race schedule

def status (schedule : List Nat) : Option SecretStatus :=
  ((after schedule).vault.secrets.get "s1").map (·.status)

/-- The agent has checked, the owner's disable commits, and the agent's commit makes the
    key active again, though the agent may not loosen it. -/
theorem disable_undone : status [0, 0, 1, 1] = some .disabled ∧ status [0, 0, 1, 1, 0] = some .active ∧
    ((after [0, 0, 1, 1]).vault.secrets.get "s1").map (fun m =>
      mayLoosen agent ((after [0, 0, 1, 1]).vault.factsFor m agent) m.defaultDelivery) = some false := by
  decide

/-- When the agent first reads after the disable, the key stays disabled. -/
theorem commits_keep_what_was_committed_disable :
    ∃ m m', (after [1, 1]).vault.secrets.get "s1" = some m ∧ m.status = .disabled ∧
      (after [1, 1, 0, 0, 0]).vault.secrets.get "s1" = some m' ∧ NoLooser m m' ∧ m'.latestVersion = 2 := by
  obtain ⟨m, stored⟩ := Option.isSome_iff_exists.mp
    (by decide : ((after [1, 1]).vault.secrets.get "s1").isSome = true)
  have row : ((after [1, 1]).vault.secrets.get "s1").map (fun m => (m.status, m.latestVersion)) =
      some (.disabled, 1) := by decide
  rw [stored] at row
  obtain ⟨disabled, first⟩ := Prod.mk.inj (Option.some.inj row)
  have current : Rounds.Along (Race.advance (.knowing [])) (fun s k => s.upToDate (.knowing []) k = true)
      (Rounds.after (Race.advance (.knowing [])) race [1, 1]) [0, 0, 0] := by decide
  obtain ⟨m', now, -, tight, counted, -⟩ := commits_keep_what_was_committed (.knowing []) start _ current stored
  have one : ((after [1, 1]).changes (.knowing []) "s1" [0, 0, 0]).countP (·.call.addsVersion) = 1 := by decide
  refine ⟨m, m', stored, disabled, now, tight (by decide), ?_⟩
  rw [counted, show m.latestVersion = 1 from first]
  exact congrArg (1 + ·) one

end StaleRotate

end K2.Vault
