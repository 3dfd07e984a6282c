import K2.Vault.Resolve

/-! # What an operation may write

`Allows` says once what an actor may write about a secret, by the row it read and
the facts it was judged by; every operation's write is one of these, or creates a
secret. The second part says what a write leaves in the tables.
-/

namespace K2.Vault

/-- A secret an actor may create. -/
structure Creates (actor : Actor) (m : SecretMeta) : Prop where
  may : canCreate actor m.ns m.scope = .ok ()
  author : m.createdBy = actor.stamp
  first : m.latestVersion = 1
  capped : m.defaultDelivery.level ≤ m.deliveryCeiling.level

/-- What an actor may write about a secret whose row and facts it read. -/
inductive Allows (fm : Formats) (actor : Actor) (row : SecretMeta) (facts : Facts) : Write → Prop where
  | version {m : SecretMeta} {value : Bytes} {now : Int} (revives : revived row actor = .ok m)
      (may : canManage actor facts = .ok ()) :
      Allows fm actor row facts (.version
        { m with latestVersion := m.latestVersion + 1, updatedAt := fm.ts now } value actor.stamp)
  | policy {p : PolicyPatch} {hosts : List String} {now : Int} (alive : row.status ≠ .destroyed)
      (may : mayChange actor facts row (p.patched row hosts) = .ok ())
      (capped : (p.patched row hosts).defaultDelivery.level ≤ (p.patched row hosts).deliveryCeiling.level) :
      Allows fm actor row facts (.policy { p.patched row hosts with updatedAt := fm.ts now })
  | status {target : SecretStatus} {now : Int} (alive : row.status ≠ .destroyed)
      (may : mayMove actor facts target = .ok ()) :
      Allows fm actor row facts (.status { row with status := target, updatedAt := fm.ts now })
  | grant {g : Grant} (ofRow : g.secretId = row.id)
      (ceiling : g.delivery.level ≤ row.deliveryCeiling.level)
      (narrows : ∀ n, g.hostsNarrowed = some n → ∀ h ∈ n, h ∈ row.hosts)
      (consumer : checkConsumer row.ns g.consumer g.delivery = .ok ())
      (may : canGrant actor facts g.consumer g.delivery row.defaultDelivery = .ok ()) :
      Allows fm actor row facts (.grant g)
  | revoke {grantId : String} : Allows fm actor row facts (.revoke grantId)

/-! ## Each operation's write -/

section Checks

variable {fm : Formats} {v : LocalVault}

theorem checked_of_if {ε α β : Type} {p : Prop} [Decidable p] {e : ε} {x : Except ε α} {f : α → Except ε β}
    {b : β} (ok : (if p then .error e else x >>= f) = .ok b) : ¬p ∧ ∃ a, x = .ok a ∧ f a = .ok b := by
  split at ok
  · cases ok
  · rename_i not
    exact ⟨not, bind_eq_ok.mp ok⟩

theorem find_row_mem {sel : Selector} {m : SecretMeta} (found : v.findRow sel = .ok m) :
    v.secrets.get m.id = some m := by
  have member : m ∈ v.secrets.rows := by
    cases sel with
    | id id => exact KeyedTable.mem_of_get (okOr_eq_ok.mp found)
    | name ns scope name => exact List.mem_of_find?_eq_some (okOr_eq_ok.mp found)
  exact KeyedTable.get_of_mem member

theorem revived_cases {row m : SecretMeta} {actor : Actor} (revives : revived row actor = .ok m) :
    (m = row ∧ row.status ≠ .destroyed) ∨
      (m = { row with status := .active } ∧ actor.isSystem = true ∧ row.ns = .system) := by
  simp only [revived] at revives
  split at revives
  · split at revives
    · rename_i system
      cases revives
      simp only [Bool.and_eq_true, decide_eq_true_eq] at system
      exact .inr ⟨rfl, system⟩
    · cases revives
  · rename_i alive
    cases revives
    exact .inl ⟨rfl, alive⟩

theorem facts_revived {row m : SecretMeta} {actor : Actor} (revives : revived row actor = .ok m) :
    v.factsFor m actor = v.factsFor row actor := by
  rcases revived_cases revives with ⟨rfl, -⟩ | ⟨rfl, system, -⟩
  · rfl
  · cases actor with
    | system name => rfl
    | owner | login | agent | guest => cases system

theorem rotate_row_allows {row : SecretMeta} {value : Bytes} {actor : Actor} {idempotent trimmed : Bool}
    {now : Int} {w : Write} {a : PutOutcome}
    (ok : rotateRow fm v row value actor idempotent trimmed now = .ok (.write w a)) :
    (∃ m, revived row actor = .ok m ∧ w = .version
      { m with latestVersion := m.latestVersion + 1, updatedAt := fm.ts now } value actor.stamp) ∧
      Allows fm actor row (v.factsFor row actor) w := by
  simp only [rotateRow] at ok
  obtain ⟨m, revives, ok⟩ := bind_eq_ok.mp ok
  obtain ⟨_, -, ok⟩ := bind_eq_ok.mp ok
  obtain ⟨_, -, ok⟩ := bind_eq_ok.mp ok
  obtain ⟨_, may, ok⟩ := bind_eq_ok.mp ok
  rw [facts_revived revives] at may
  split at ok
  · cases ok
  · obtain ⟨_, -, ok⟩ := bind_eq_ok.mp ok
    cases ok
    exact ⟨⟨m, revives, rfl⟩, .version revives may⟩

theorem create_writes {req : PutRequest} {value : Bytes} {trimmed : Bool} {actor : Actor} {now : Int}
    {newId : String} {w : Write} {a : PutOutcome}
    (ok : req.create fm value trimmed actor now newId = .ok (.write w a)) :
    ∃ m, w = .create m value actor.stamp ∧ Creates actor m := by
  simp only [PutRequest.create] at ok
  split at ok
  · cases ok
  · obtain ⟨_, may, ok⟩ := bind_eq_ok.mp ok
    obtain ⟨hosts, -, ok⟩ := bind_eq_ok.mp ok
    obtain ⟨_, -, ok⟩ := bind_eq_ok.mp ok
    obtain ⟨_, -, ok⟩ := bind_eq_ok.mp ok
    split at ok
    · cases ok
    · rename_i capped
      obtain ⟨_, -, ok⟩ := bind_eq_ok.mp ok
      obtain ⟨_, -, ok⟩ := bind_eq_ok.mp ok
      obtain ⟨_, -, ok⟩ := bind_eq_ok.mp ok
      cases ok
      exact ⟨_, rfl, may, rfl, rfl, Int.not_lt.mp capped⟩

theorem put_found_allows {req : PutRequest} {actor : Actor} {now : Int} {newId : String}
    {found : Option SecretMeta × Bytes × Bool} {w : Write} {a : PutOutcome}
    (ok : putFound fm v req actor now newId found = .ok (.write w a)) :
    (found.1 = none ∧ ∃ m value, w = .create m value actor.stamp ∧ Creates actor m) ∨
      ∃ row, found.1 = some row ∧ (∃ m value, revived row actor = .ok m ∧ w = .version
        { m with latestVersion := m.latestVersion + 1, updatedAt := fm.ts now } value actor.stamp) ∧
        Allows fm actor row (v.factsFor row actor) w := by
  obtain ⟨looked, value, trimmed⟩ := found
  cases looked with
  | none =>
      obtain ⟨m, made, creates⟩ := create_writes ok
      exact .inl ⟨rfl, m, value, made, creates⟩
  | some row =>
      simp only [putFound] at ok
      obtain ⟨-, _, -, ok⟩ := checked_of_if ok
      obtain ⟨⟨m, revives, new⟩, allows⟩ := rotate_row_allows ok
      exact .inr ⟨row, rfl, ⟨m, value, revives, new⟩, allows⟩

theorem plan_policy_spec {sel : Selector} {p : PolicyPatch} {actor : Actor} {old m : SecretMeta}
    (ok : planPolicy fm v sel p actor = .ok (old, m)) :
    v.findRow sel = .ok old ∧ old.status ≠ .destroyed ∧
      mayChange actor (v.factsFor old actor) old m = .ok () ∧
      m.defaultDelivery.level ≤ m.deliveryCeiling.level ∧
      ∃ hosts, p.patchHosts fm actor old.hosts = .ok hosts ∧ m = p.patched old hosts := by
  simp only [planPolicy] at ok
  obtain ⟨row, found, ok⟩ := bind_eq_ok.mp ok
  obtain ⟨_, -, ok⟩ := bind_eq_ok.mp ok
  obtain ⟨_, -, ok⟩ := bind_eq_ok.mp ok
  obtain ⟨alive, hosts, listed, ok⟩ := checked_of_if ok
  obtain ⟨_, -, ok⟩ := bind_eq_ok.mp ok
  obtain ⟨_, may, ok⟩ := bind_eq_ok.mp ok
  split at ok
  · cases ok
  · rename_i capped
    cases ok
    exact ⟨found, alive, may, Int.not_lt.mp capped, hosts, listed, rfl⟩

theorem set_policy_allows {sel : Selector} {p : PolicyPatch} {actor : Actor} {now : Int} {w : Write}
    {a : SecretMeta} (ok : setPolicyPlan fm v sel p actor now = .ok (.write w a)) :
    ∃ row, v.findRow sel = .ok row ∧ (∃ hosts, p.patchHosts fm actor row.hosts = .ok hosts ∧
      w = .policy { p.patched row hosts with updatedAt := fm.ts now }) ∧
      Allows fm actor row (v.factsFor row actor) w := by
  simp only [setPolicyPlan] at ok
  cases planned : planPolicy fm v sel p actor with
  | error e =>
      rw [planned] at ok
      cases ok
  | ok changed =>
      obtain ⟨old, m⟩ := changed
      obtain ⟨found, alive, may, capped, hosts, listed, rfl⟩ := plan_policy_spec planned
      rw [planned] at ok
      simp only [Except.map, Except.ok.injEq] at ok
      split at ok
      · cases ok
      · cases ok
        exact ⟨old, found, ⟨hosts, listed, rfl⟩, .policy alive may capped⟩

theorem set_status_allows {sel : Selector} {actor : Actor} {target : SecretStatus} {now : Int} {w : Write}
    {a : Unit} (ok : setStatusPlan fm v sel actor target now = .ok (.write w a)) :
    ∃ row, v.findRow sel = .ok row ∧ w = .status { row with status := target, updatedAt := fm.ts now } ∧
      Allows fm actor row (v.factsFor row actor) w := by
  simp only [setStatusPlan] at ok
  obtain ⟨row, found, ok⟩ := bind_eq_ok.mp ok
  obtain ⟨_, may, ok⟩ := bind_eq_ok.mp ok
  split at ok
  · cases ok
  · rename_i alive
    split at ok
    · cases ok
    · cases ok
      exact ⟨row, found, rfl, .status alive may⟩

theorem check_target_spec {g : GrantRequest} {m : SecretMeta} (ok : g.checkTarget fm v m = .ok ()) :
    g.delivery.level ≤ m.deliveryCeiling.level ∧ checkConsumer m.ns g.consumer g.delivery = .ok () := by
  simp only [GrantRequest.checkTarget] at ok
  split at ok
  · cases ok
  · split at ok
    · cases ok
    · split at ok
      · cases ok
      · rename_i capped
        obtain ⟨_, -, ok⟩ := bind_eq_ok.mp ok
        obtain ⟨_, consumer, ok⟩ := bind_eq_ok.mp ok
        exact ⟨Int.not_lt.mp capped, consumer⟩

theorem narrowed_spec {g : GrantRequest} {m : SecretMeta} {hosts : Option (List String)}
    (ok : g.narrowed fm m = .ok hosts) : ∀ n, hosts = some n → ∀ h ∈ n, h ∈ m.hosts := by
  intro n same h member
  simp only [GrantRequest.narrowed] at ok
  split at ok
  · cases ok
    cases same
  · obtain ⟨listed, -, ok⟩ := bind_eq_ok.mp ok
    split at ok
    · cases ok
    · rename_i subset
      cases ok
      cases same
      by_contra absent
      exact subset (List.any_eq_true.mpr ⟨h, member, by simpa using absent⟩)

theorem grant_found_allows {g : GrantRequest} {actor : Actor} {now : Int} {newId : String} {m : SecretMeta}
    {facts : Facts} {w : Write} {a : Grant}
    (ok : grantFound fm v g actor now newId m facts = .ok (.write w a)) :
    (∃ x, w = .grant x ∧ x.secretId = m.id ∧ x.consumer = g.consumer) ∧ Allows fm actor m facts w := by
  simp only [grantFound] at ok
  obtain ⟨_, target, ok⟩ := bind_eq_ok.mp ok
  obtain ⟨env, -, ok⟩ := bind_eq_ok.mp ok
  obtain ⟨file, -, ok⟩ := bind_eq_ok.mp ok
  obtain ⟨hosts, narrows, ok⟩ := bind_eq_ok.mp ok
  obtain ⟨_, may, ok⟩ := bind_eq_ok.mp ok
  obtain ⟨_, -, ok⟩ := bind_eq_ok.mp ok
  cases ok
  obtain ⟨ceiling, consumer⟩ := check_target_spec target
  exact ⟨⟨_, rfl, rfl, rfl⟩, .grant rfl ceiling (narrowed_spec narrows) consumer may⟩

theorem revoke_writes {grantId : String} {actor : Actor} {w : Write} {a : Unit}
    (ok : revokePlan v grantId actor = .ok (.write w a)) :
    ∃ g, v.grants.get grantId = some g ∧ w = .revoke g.id ∧ ∃ row, v.findRow (.id g.secretId) = .ok row := by
  simp only [revokePlan] at ok
  obtain ⟨g, found, ok⟩ := bind_eq_ok.mp ok
  obtain ⟨row, its, ok⟩ := bind_eq_ok.mp ok
  split at ok
  · cases ok
    exact ⟨g, okOr_eq_ok.mp found, rfl, row, its⟩
  · cases ok

theorem done_write {α : Type} {x : Except VaultError (Planned α)} {w : Write}
    (ok : Planned.done x = .ok (.write w ())) : ∃ a, x = .ok (.write w a) := by
  cases x with
  | error e => cases ok
  | ok planned =>
      cases planned with
      | answer a => cases ok
      | write w' a =>
          cases ok
          exact ⟨a, rfl⟩

/-- What a planned write came of: a new secret, or a row, for which the actor may
    write it; a grant came of a call to grant. -/
structure Planning (fm : Formats) (v : LocalVault) (d : Deed) (w : Write) (row : SecretMeta) : Prop where
  stored : v.secrets.get row.id = some row
  allows : Allows fm d.actor row (v.factsFor row d.actor) w
  grants : ∀ x, w = .grant x → ∃ g newId, d.call = .grant g newId ∧ v.findRow g.selector = .ok row ∧
    x.secretId = row.id ∧ x.consumer = g.consumer

/-- An operation on the vault as it stands writes what its actor may. -/
theorem plan_allows {d : Deed} {w : Write} (ok : d.plan fm v = .ok (.write w ())) :
    (∃ m value, w = .create m value d.actor.stamp ∧ Creates d.actor m) ∨ ∃ row, Planning fm v d w row := by
  simp only [Deed.plan] at ok
  cases called : d.call with
  | put req value newId =>
      rw [called] at ok
      obtain ⟨a, ok⟩ := done_write ok
      obtain ⟨found, looked, ok⟩ := bind_eq_ok.mp ok
      rcases put_found_allows ok with ⟨-, made⟩ | ⟨row, isRow, ⟨m, kept, -, rfl⟩, allows⟩
      · exact .inl made
      · refine .inr ⟨row, ?_, allows, fun x same => nomatch same⟩
        simp only [putFind] at looked
        obtain ⟨_, -, looked⟩ := bind_eq_ok.mp looked
        obtain ⟨_, -, looked⟩ := bind_eq_ok.mp looked
        cases looked
        exact KeyedTable.get_of_mem (List.mem_of_find?_eq_some isRow)
  | rotate sel value =>
      rw [called] at ok
      obtain ⟨a, ok⟩ := done_write ok
      obtain ⟨found, looked, ok⟩ := bind_eq_ok.mp ok
      obtain ⟨⟨m, -, rfl⟩, allows⟩ := rotate_row_allows ok
      refine .inr ⟨found.1, ?_, allows, fun x same => nomatch same⟩
      simp only [rotateFind] at looked
      obtain ⟨row, isRow, looked⟩ := bind_eq_ok.mp looked
      obtain ⟨_, -, looked⟩ := bind_eq_ok.mp looked
      obtain ⟨-, _, -, looked⟩ := checked_of_if looked
      cases looked
      exact find_row_mem isRow
  | setPolicy sel p =>
      rw [called] at ok
      obtain ⟨a, ok⟩ := done_write ok
      obtain ⟨row, found, ⟨hosts, -, rfl⟩, allows⟩ := set_policy_allows ok
      exact .inr ⟨row, find_row_mem found, allows, fun x same => nomatch same⟩
  | grant g newId =>
      rw [called] at ok
      obtain ⟨a, ok⟩ := done_write ok
      obtain ⟨found, looked, ok⟩ := bind_eq_ok.mp ok
      cases isRow : v.findRow g.selector with
      | error e =>
          simp only [grantFind, isRow, Except.map] at looked
          cases looked
      | ok row =>
          simp only [grantFind, isRow, Except.map] at looked
          cases looked
          obtain ⟨⟨x, rfl, ofRow, consumer⟩, allows⟩ := grant_found_allows ok
          refine .inr ⟨row, find_row_mem isRow, allows, fun x' same => ?_⟩
          cases same
          exact ⟨g, newId, called, isRow, ofRow, consumer⟩
  | revoke grantId =>
      rw [called] at ok
      obtain ⟨g, -, rfl, row, found⟩ := revoke_writes ok
      exact .inr ⟨row, find_row_mem found, .revoke, fun x same => nomatch same⟩
  | disable sel | enable sel | destroy sel =>
      rw [called] at ok
      obtain ⟨row, found, rfl, allows⟩ := set_status_allows ok
      exact .inr ⟨row, find_row_mem found, allows, fun x same => nomatch same⟩

end Checks

/-! ## What a write leaves -/

/-- A secret's row after a write of an existing one. -/
def Write.rewritten (w : Write) (r : SecretMeta) : SecretMeta :=
  match w with
  | .version m _ _ | .policy m | .status m => if r.id = m.id then r.written m else r
  | .create .. | .grant _ | .revoke _ => r

def Write.creates : Write → Bool
  | .create .. => true
  | _ => false

section Writes

variable {v v' : LocalVault} {time : String} {w : Write}

theorem insert_secret_spec {m : SecretMeta} (ok : v.insertSecret m = .ok v') :
    v.secrets.get m.id = none ∧ v' = { v with secrets := v.secrets.upsert m } := by
  simp only [LocalVault.insertSecret] at ok
  split at ok
  · cases ok
  · cases inserted : v.secrets.insertNew m with
    | none =>
        rw [inserted] at ok
        cases ok
    | some secrets =>
        rw [inserted] at ok
        cases ok
        obtain ⟨absent, rfl⟩ := KeyedTable.insertNew_eq_some.mp inserted
        exact ⟨absent, rfl⟩

theorem insert_version_spec {secretId decider : String} {version : Nat} {value : Bytes}
    (ok : v.insertVersion secretId version value decider time = .ok v') :
    v.versions.get (secretId, version) = none ∧
      v' = { v with versions := v.versions.upsert ⟨secretId, version, value, time, decider, .active, none⟩ } := by
  simp only [LocalVault.insertVersion] at ok
  cases inserted : v.versions.insertNew ⟨secretId, version, value, time, decider, .active, none⟩ with
  | none =>
      rw [inserted] at ok
      cases ok
  | some versions =>
      rw [inserted] at ok
      cases ok
      obtain ⟨absent, rfl⟩ := KeyedTable.insertNew_eq_some.mp inserted
      exact ⟨absent, rfl⟩

theorem create_spec {m : SecretMeta} {value : Bytes} {stamp : String}
    (ok : (Write.create m value stamp).apply time v = .ok v') :
    v.secrets.get m.id = none ∧ v.versions.get (m.id, 1) = none ∧
      v' = { v with
        secrets := v.secrets.upsert m
        versions := v.versions.upsert ⟨m.id, 1, value, time, stamp, .active, none⟩ } := by
  simp only [Write.apply] at ok
  obtain ⟨v₁, made, ok⟩ := bind_eq_ok.mp ok
  obtain ⟨absent, rfl⟩ := insert_secret_spec made
  obtain ⟨free, rfl⟩ := insert_version_spec ok
  exact ⟨absent, free, rfl⟩

/-- A version takes a free number, and the older ones are revoked. -/
theorem version_spec {m : SecretMeta} {value : Bytes} {stamp : String}
    (ok : (Write.version m value stamp).apply time v = .ok v') :
    v.versions.get (m.id, m.latestVersion) = none ∧
      v' = (LocalVault.revokeOlder { v with
        versions := v.versions.upsert ⟨m.id, m.latestVersion, value, time, stamp, .active, none⟩ }
        m.id m.latestVersion time).updateSecret m := by
  simp only [Write.apply] at ok
  obtain ⟨v₁, inserted, ok⟩ := bind_eq_ok.mp ok
  obtain ⟨free, rfl⟩ := insert_version_spec inserted
  cases ok
  exact ⟨free, rfl⟩

theorem put_grant_spec {g : Grant} (ok : v.putGrant g = .ok v') :
    ∃ grants : KeyedTable Grant.id, v' = { v with grants } ∧
      ∀ x, x ∈ grants.rows → x = g ∨ x ∈ v.grants.rows := by
  simp only [LocalVault.putGrant] at ok
  obtain ⟨p, deleted⟩ : ∃ p, (fun x : Grant => (x.secretId = g.secretId && x.consumer = g.consumer &&
    x.delivery = g.delivery : Bool)) = p := ⟨_, rfl⟩
  rw [deleted] at ok
  cases inserted : (v.grants.deleteWhere p).insertNew g with
  | none =>
      rw [inserted] at ok
      cases ok
  | some grants =>
      rw [inserted] at ok
      cases ok
      obtain ⟨-, rfl⟩ := KeyedTable.insertNew_eq_some.mp inserted
      refine ⟨_, rfl, fun x member => ?_⟩
      rcases (KeyedTable.mem_upsert _ _ _).mp member with rfl | ⟨kept, -⟩
      · exact .inl rfl
      · exact .inr ((KeyedTable.mem_deleteWhere _ _ _).mp kept).1

theorem rows_update_secret (m : SecretMeta) :
    (v.updateSecret m).secrets.rows = v.secrets.rows.map fun r => if r.id = m.id then r.written m else r := by
  simp only [LocalVault.updateSecret, KeyedTable.updateWhere, decide_eq_true_eq]

theorem apply_rows (ok : w.apply time v = .ok v') (existing : w.creates = false) :
    v'.secrets.rows = v.secrets.rows.map w.rewritten := by
  cases w with
  | create => cases existing
  | version m value stamp =>
      obtain ⟨-, rfl⟩ := version_spec ok
      exact rows_update_secret m
  | policy m =>
      cases ok
      exact rows_update_secret m
  | status m =>
      cases ok
      rw [rows_update_secret]
      split <;> rfl
  | grant g =>
      obtain ⟨grants, rfl, -⟩ := put_grant_spec ok
      exact (List.map_id' _).symm
  | revoke grantId =>
      cases ok
      exact (List.map_id' _).symm

theorem Write.rewritten_id (w : Write) (r : SecretMeta) : (w.rewritten r).id = r.id := by
  cases w <;> simp only [Write.rewritten] <;> split <;> rfl

theorem Write.rewritten_named (w : Write) (r : SecretMeta) (ns : Namespace) (scope : Scope) (name : String) :
    (w.rewritten r).named ns scope name = r.named ns scope name := by
  cases w <;> simp only [Write.rewritten] <;> split <;> rfl

theorem apply_get (ok : w.apply time v = .ok v') (existing : w.creates = false) (id : String) :
    v'.secrets.get id = (v.secrets.get id).map w.rewritten := by
  simp only [KeyedTable.get, apply_rows ok existing, List.find?_map, Function.comp_def, w.rewritten_id]

theorem apply_named (ok : w.apply time v = .ok v') {ns : Namespace} {scope : Scope} {name : String}
    {r : SecretMeta} (found : v.secrets.rows.find? (·.named ns scope name) = some r) :
    ∃ r', v'.secrets.rows.find? (·.named ns scope name) = some r' ∧ r'.id = r.id := by
  cases existing : w.creates with
  | false =>
      refine ⟨w.rewritten r, ?_, w.rewritten_id r⟩
      simp only [apply_rows ok existing, List.find?_map, Function.comp_def, w.rewritten_named, found,
        Option.map_some]
  | true =>
      cases w with
      | create m value stamp =>
          obtain ⟨absent, -, rfl⟩ := create_spec ok
          refine ⟨r, ?_, rfl⟩
          simp only [KeyedTable.rows_upsert_of_get absent, List.find?_append, found, Option.some_or]
      | version | policy | status | grant | revoke => cases existing

theorem create_get {m : SecretMeta} {value : Bytes} {stamp : String}
    (ok : (Write.create m value stamp).apply time v = .ok v') (id : String) :
    v.secrets.get m.id = none ∧ v'.secrets.get id = if m.id = id then some m else v.secrets.get id := by
  obtain ⟨absent, -, rfl⟩ := create_spec ok
  exact ⟨absent, KeyedTable.get_upsert _ _ _⟩

theorem create_kept {m : SecretMeta} {value : Bytes} {stamp : String}
    (ok : (Write.create m value stamp).apply time v = .ok v') {id : String} {r : SecretMeta}
    (stored : v.secrets.get id = some r) : v'.secrets.get id = some r := by
  obtain ⟨absent, others⟩ := create_get ok id
  rw [others, if_neg]
  · exact stored
  · rintro rfl
    rw [absent] at stored
    cases stored

theorem apply_grants (ok : w.apply time v = .ok v') {g : Grant} (member : g ∈ v'.grants.rows) :
    g ∈ v.grants.rows ∨ w = .grant g := by
  cases w with
  | create m value stamp =>
      obtain ⟨-, -, rfl⟩ := create_spec ok
      exact .inl member
  | version m value stamp =>
      obtain ⟨-, rfl⟩ := version_spec ok
      exact .inl member
  | policy m =>
      cases ok
      exact .inl member
  | status m =>
      cases ok
      simp only [LocalVault.updateSecret] at member
      split at member
      · exact .inl ((KeyedTable.mem_deleteWhere _ _ _).mp member).1
      · exact .inl member
  | grant g' =>
      obtain ⟨grants, rfl, origin⟩ := put_grant_spec ok
      rcases origin g member with rfl | old
      · exact .inr rfl
      · exact .inl old
  | revoke grantId =>
      cases ok
      exact .inl ((KeyedTable.mem_deleteWhere _ _ _).mp member).1

theorem apply_flags (ok : w.apply time v = .ok v') :
    v'.rollback = v.rollback ∧ v'.frozen = v.frozen ∧ v'.handoffs = v.handoffs := by
  cases w with
  | create m value stamp =>
      obtain ⟨-, -, rfl⟩ := create_spec ok
      exact ⟨rfl, rfl, rfl⟩
  | version m value stamp =>
      obtain ⟨-, rfl⟩ := version_spec ok
      exact ⟨rfl, rfl, rfl⟩
  | policy m =>
      cases ok
      exact ⟨rfl, rfl, rfl⟩
  | status m =>
      cases ok
      simp only [LocalVault.updateSecret]
      split <;> exact ⟨rfl, rfl, rfl⟩
  | grant g =>
      obtain ⟨grants, rfl, -⟩ := put_grant_spec ok
      exact ⟨rfl, rfl, rfl⟩
  | revoke grantId =>
      cases ok
      exact ⟨rfl, rfl, rfl⟩

/-- An operation changes nothing, or carries out the write it came to. -/
theorem act_cases (fm : Formats) (v : LocalVault) (d : Deed) :
    (v.act fm d).1 = v ∨
      ∃ w, d.plan fm v = .ok (.write w ()) ∧ w.apply (fm.ts d.now) v = .ok (v.act fm d).1 := by
  simp only [LocalVault.act, LocalVault.perform]
  cases planned : d.plan fm v with
  | error e => exact .inl rfl
  | ok came =>
      cases came with
      | answer a => exact .inl rfl
      | write w a =>
          simp only [LocalVault.mutate]
          split
          · rename_i v' ok
            split at ok
            · cases ok
            · exact .inr ⟨w, rfl, ok⟩
          · exact .inl rfl

end Writes

/-! ## Rows -/

/-- A write that its actor may make is about the row it read. -/
def Write.row : Write → Option SecretMeta
  | .create m _ _ | .version m _ _ | .policy m | .status m => some m
  | .grant _ | .revoke _ => none

theorem allows_written {fm : Formats} {actor : Actor} {row m : SecretMeta} {facts : Facts} {w : Write}
    (allows : Allows fm actor row facts w) (writes : w.row = some m) : m.id = row.id ∧ row.written m = m := by
  cases allows with
  | version revives may =>
      cases writes
      rcases revived_cases revives with ⟨rfl, -⟩ | ⟨rfl, -⟩ <;> exact ⟨rfl, rfl⟩
  | policy | status =>
      cases writes
      exact ⟨rfl, rfl⟩
  | grant | revoke => cases writes

theorem allows_existing {fm : Formats} {actor : Actor} {row : SecretMeta} {facts : Facts} {w : Write}
    (allows : Allows fm actor row facts w) : w.creates = false := by
  cases allows <;> rfl

/-- The row after such a write, when it still is the one that was read. -/
theorem allows_rewritten {fm : Formats} {actor : Actor} {row : SecretMeta} {facts : Facts} {w : Write}
    (allows : Allows fm actor row facts w) : w.rewritten row = w.row.getD row := by
  cases allows with
  | version revives may =>
      rcases revived_cases revives with ⟨rfl, -⟩ | ⟨rfl, -⟩ <;> exact if_pos rfl
  | policy | status => exact if_pos rfl
  | grant | revoke => rfl

theorem allows_elsewhere {fm : Formats} {actor : Actor} {row : SecretMeta} {facts : Facts} {w : Write}
    (allows : Allows fm actor row facts w) {r : SecretMeta} (other : r.id ≠ row.id) : w.rewritten r = r := by
  cases allows with
  | version revives may =>
      rcases revived_cases revives with ⟨rfl, -⟩ | ⟨rfl, -⟩ <;> exact if_neg other
  | policy | status => exact if_neg other
  | grant | revoke => rfl

/-! ## Tighter and looser -/

def SecretStatus.rank : SecretStatus → Nat
  | .destroyed => 0
  | .disabled => 1
  | .active => 2

/-- `b` gives no more than `a`: no other host, no higher delivery or ceiling, the
    same injection, no livelier status. -/
structure NoLooser (a b : SecretMeta) : Prop where
  hosts : ∀ h ∈ b.hosts, h ∈ a.hosts
  delivery : b.defaultDelivery.level ≤ a.defaultDelivery.level
  ceiling : b.deliveryCeiling.level ≤ a.deliveryCeiling.level
  inject : b.inject = a.inject
  status : b.status.rank ≤ a.status.rank

/-- What no operation changes. -/
structure SameSecret (a b : SecretMeta) : Prop where
  id : b.id = a.id
  ns : b.ns = a.ns
  scope : b.scope = a.scope
  name : b.name = a.name
  kind : b.kind = a.kind
  createdBy : b.createdBy = a.createdBy
  humanGiven : b.humanGiven = a.humanGiven
  expiresAt : b.expiresAt = a.expiresAt

theorem NoLooser.refl (a : SecretMeta) : NoLooser a a :=
  ⟨fun _ member => member, le_rfl, le_rfl, rfl, le_rfl⟩

theorem NoLooser.trans {a b c : SecretMeta} (ab : NoLooser a b) (bc : NoLooser b c) : NoLooser a c where
  hosts h member := ab.hosts h (bc.hosts h member)
  delivery := bc.delivery.trans ab.delivery
  ceiling := bc.ceiling.trans ab.ceiling
  inject := bc.inject.trans ab.inject
  status := bc.status.trans ab.status

theorem SameSecret.refl (a : SecretMeta) : SameSecret a a := ⟨rfl, rfl, rfl, rfl, rfl, rfl, rfl, rfl⟩

theorem SameSecret.trans {a b c : SecretMeta} (ab : SameSecret a b) (bc : SameSecret b c) :
    SameSecret a c where
  id := bc.id.trans ab.id
  ns := bc.ns.trans ab.ns
  scope := bc.scope.trans ab.scope
  name := bc.name.trans ab.name
  kind := bc.kind.trans ab.kind
  createdBy := bc.createdBy.trans ab.createdBy
  humanGiven := bc.humanGiven.trans ab.humanGiven
  expiresAt := bc.expiresAt.trans ab.expiresAt

def noLooser (a b : SecretMeta) : Bool := !loosens a b && b.status.rank ≤ a.status.rank

theorem noLooser_iff {a b : SecretMeta} : noLooser a b = true ↔ NoLooser a b := by
  simp only [noLooser, loosens, widens, Bool.and_eq_true, Bool.not_eq_true', Bool.or_eq_false_iff,
    List.any_eq_false, decide_eq_false_iff_not, not_lt, Bool.not_eq_false, List.contains_iff_mem, gt_iff_lt, ne_eq,
    not_not, decide_eq_true_eq]
  constructor
  · rintro ⟨⟨⟨⟨hosts, delivery⟩, ceiling⟩, inject⟩, status⟩
    exact ⟨hosts, delivery, ceiling, inject, status⟩
  · rintro ⟨hosts, delivery, ceiling, inject, status⟩
    exact ⟨⟨⟨⟨hosts, delivery⟩, ceiling⟩, inject⟩, status⟩

section Allowed

variable {fm : Formats} {actor : Actor} {row m : SecretMeta} {facts : Facts} {w : Write}

theorem allows_same (allows : Allows fm actor row facts w) : SameSecret row (w.rewritten row) := by
  rw [allows_rewritten allows]
  cases allows with
  | version revives may =>
      rcases revived_cases revives with ⟨rfl, -⟩ | ⟨rfl, -⟩ <;> exact ⟨rfl, rfl, rfl, rfl, rfl, rfl, rfl, rfl⟩
  | policy | status => exact ⟨rfl, rfl, rfl, rfl, rfl, rfl, rfl, rfl⟩
  | grant | revoke => exact .refl row

/-- May the actor loosen the secret, to this default delivery? -/
def mayLoosen (actor : Actor) (facts : Facts) (delivery : Delivery) : Bool :=
  (canLoosen actor facts).toOption.isSome || acceptedHandoffCovers actor facts delivery

theorem may_loosen_of_ok {delivery : Delivery} (ok : canLoosen actor facts = .ok ()) :
    mayLoosen actor facts delivery = true := by
  simp [mayLoosen, ok, Except.toOption]

theorem allows_no_looser (allows : Allows fm actor row facts w) :
    NoLooser row (w.rewritten row) ∨ mayLoosen actor facts (w.rewritten row).defaultDelivery = true := by
  rw [allows_rewritten allows]
  cases allows with
  | version revives may =>
      rcases revived_cases revives with ⟨rfl, -⟩ | ⟨rfl, system, kept⟩
      · exact .inl ⟨fun _ member => member, le_rfl, le_rfl, rfl, le_rfl⟩
      · refine .inr (may_loosen_of_ok ?_)
        cases actor with
        | system name => simp [canLoosen, may, bind, Except.bind]
        | owner | login | agent | guest => cases system
  | @policy p hosts now alive may capped =>
      simp only [mayChange] at may
      cases loose : loosens row (p.patched row hosts) with
      | false =>
          have tight : NoLooser row (p.patched row hosts) := by
            rw [← noLooser_iff, noLooser, loose]
            exact decide_eq_true le_rfl
          exact .inl ⟨tight.hosts, tight.delivery, tight.ceiling, tight.inject, tight.status⟩
      | true =>
          refine .inr ?_
          simp only [loose, Bool.true_and] at may
          split at may
          · exact may_loosen_of_ok may
          · rename_i consented
            rw [Bool.not_eq_true', Bool.not_eq_false, Bool.and_eq_true] at consented
            exact Bool.or_eq_true_iff.mpr (.inr consented.2)
  | @status target now alive may =>
      simp only [mayMove] at may
      split at may
      · exact .inr (may_loosen_of_ok may)
      · rename_i lower
        refine .inl ⟨fun _ member => member, le_rfl, le_rfl, rfl, ?_⟩
        change target.rank ≤ row.status.rank
        cases target <;> cases held : row.status <;> simp_all [SecretStatus.rank]
  | grant | revoke => exact .inl (.refl row)

end Allowed

end K2.Vault
