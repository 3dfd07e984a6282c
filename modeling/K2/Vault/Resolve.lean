import K2.Vault.Operations

/-! # Resolving a value

The only way a value leaves the store: from the requester's rights, the first one
that covers the use, or a later one that names an env or file.
-/

namespace K2.Vault

/-- What a requester may receive a secret as. -/
structure Right where
  delivery : Delivery
  envName : Option String
  fileName : Option String
  hostsNarrowed : Option (List String)
  /-- The grant it comes from; none for the implicit right. -/
  grant : Option Grant
  deriving Repr, DecidableEq

namespace Right

def implicit (m : SecretMeta) : Right := ⟨m.defaultDelivery, none, none, none, none⟩

def ofGrant (g : Grant) : Right := ⟨g.delivery, g.envName, g.fileName, g.hostsNarrowed, some g⟩

/-- An explicit grant that names an env or file. -/
def named (r : Right) : Bool := r.grant.isSome && (r.envName.isSome || r.fileName.isSome)

def sites (m : SecretMeta) (r : Right) : List String := r.hostsNarrowed.getD m.hosts

end Right

/-- Has the requester an implicit right: a workspace its own secrets, a chat its own? -/
def Requester.owns (who : Requester) (m : SecretMeta) : Bool :=
  match who with
  | .session workspaceId sessionId =>
      match m.scope.kind with
      | .workspace => m.scope.id = workspaceId
      | .session => sessionId = some m.scope.id
      | _ => false
  | _ => false

/-- The id of a data source's consumer. -/
def sourceOf (id : String) : Option String :=
  if "source:".toList.isPrefixOf id.toList then some (String.ofList (id.toList.drop "source:".toList.length))
  else none

/-- Does a grant to this consumer name the requester? -/
def Consumer.isFor (c : Consumer) : Requester → Bool
  | .session workspaceId sessionId =>
      match c.kind with
      | .workspace => c.id = workspaceId || c.id = "*"
      | .session => sessionId = some c.id
      | _ => false
  | .publishedService id _ => c.kind = .publishedService && c.id = id
  | .engine name => c.kind = .engine && c.id = name
  | .system _ => false
  | .source id => c.kind = .daemon && sourceOf c.id = some id
  | .job workspaceId jobId _ => c.kind = .job && c.id = workspaceId ++ "/" ++ jobId
  | .compute workspaceId nodeId _ _ ownedNode =>
      match c.computeParts with
      | some (ws, node) => ws = workspaceId && (node = nodeId || (node = "*" && ownedNode))
      | none => false

section Resolve

variable (fm : Formats) (v : LocalVault) (now : Int)

/-- The requester's rights: the implicit one first, then its unexpired grants. -/
def LocalVault.effective (m : SecretMeta) (who : Requester) : List Right :=
  (if who.owns m then [.implicit m] else []) ++
    ((v.grantsFor m.id).filter fun g => !fm.past now g.expiresAt && g.consumer.isFor who).map .ofGrant

/-- Does a right cover the use? Explicit grants stop while the vault is rolled back. -/
def Right.covers (m : SecretMeta) (use : Use) (r : Right) : Bool :=
  !(r.grant.isSome && v.rollback) && use.needs.level ≤ r.delivery.level &&
    match use.target with
    | some o => (fm.checkHost o (fm.parseStored (r.sites m))).toOption.isSome
    | none => true

/-- A workspace's own secret has its unnamed right first; a grant that names an env
    or file still wins. -/
def pick (rights : List Right) : Option Right := (rights.find? Right.named).or rights.head?

def LocalVault.choose (m : SecretMeta) (use : Use) (who : Requester) : Option Right :=
  pick ((v.effective fm now m who).filter fun r => r.covers fm v m use)

/-- Why no right covers the use. -/
def refusal (m : SecretMeta) (use : Use) : VaultError :=
  match use.target with
  | some o =>
      match fm.checkHost o (fm.parseStored m.hosts) with
      | .error e => e
      | .ok _ => .forbidden "not_granted" "this workspace can't use that secret"
  | none => .forbidden "delivery_not_granted"
      ("this secret isn't delivered to you as " ++ use.needs.text)

def Requester.isCompute : Requester → Bool
  | .compute .. => true
  | _ => false

def Requester.isSystem : Requester → Bool
  | .system _ => true
  | _ => false

def Requester.isEngine : Requester → Bool
  | .engine _ => true
  | _ => false

/-- A value K2 itself uses. -/
def LocalVault.release (m : SecretMeta) (delivery : Delivery) : Except VaultError Resolved :=
  (v.decryptVersion m m.latestVersion).map fun value =>
    ⟨value, m, m.latestVersion, delivery, none, none, m.inject.getD .bearer⟩

/-- System secrets: daemon subsystems and engines only. -/
def LocalVault.resolveSystem (m : SecretMeta) (use : Use) (who : Requester) : Except VaultError Resolved :=
  let ok := who.isSystem || (m.scope.kind = .engine && who = .engine m.scope.id)
  if !ok || !(use = .system || use = .file || use = .env) then
    .error (.forbidden "vault_system_namespace" "K2's own secrets are used only by K2")
  else v.release m use.needs

/-- What the consumer gets through the right that was chosen. A value leaving for a
    node is audited first, which a frozen vault refuses. -/
def LocalVault.releaseThrough (m : SecretMeta) (who : Requester) (r : Right) : Except VaultError Resolved := do
  let value ← v.decryptVersion m m.latestVersion
  if who.isCompute && v.frozen then .error movedOut
  else
    .ok {
      value, info := m, version := m.latestVersion, delivery := r.delivery
      envName := r.envName.or (if r.delivery = .env then some (defaultEnvName m.name) else none)
      fileName := r.fileName.or (if r.delivery.level ≥ Delivery.file.level then some m.name else none)
      inject := m.inject.getD .bearer }

/-- May the secret leave at all, whoever asks? -/
def usable (m : SecretMeta) (use : Use) : Except VaultError Unit :=
  if m.status ≠ .active then .error (.forbidden "secret_not_active" "that secret is disabled")
  else if fm.past now m.expiresAt then .error (.forbidden "secret_expired" "that secret has expired")
  else if m.kind = .sshKey && use.target.isSome then .error (.forbidden "ssh_key_not_sent"
    "an ssh key is never put in a request; use agent (or file) delivery")
  else .ok ()

def LocalVault.resolve (sel : Selector) (use : Use) (who : Requester) : Except VaultError Resolved := do
  let m ← v.findRow sel
  usable fm now m use
  if m.ns = .system then v.resolveSystem m use who
  else if use = .system || who.isSystem || who.isEngine then
    -- A subsystem on the owner's behalf.
    if who.isSystem && use = .system then v.release m .none
    else .error (.forbidden "bad_use" "that use isn't allowed here")
  else
    match v.choose fm now m use who with
    | some r => v.releaseThrough m who r
    | none => .error (refusal fm m use)

end Resolve

/-! ## What a release went through -/

section Facts

variable {fm : Formats} {v : LocalVault} {now : Int} {m : SecretMeta} {use : Use} {who : Requester}

/-- A workspace, a chat, a service, a source, a job or a node: not K2 itself. -/
def Requester.isConsumer (who : Requester) : Bool := !who.isSystem && !who.isEngine

theorem check_host_eq_ok {o : Origin} {allowed : List OriginPattern} :
    fm.checkHost o allowed = .ok () ↔ ∃ p ∈ allowed, p.matchesOrigin o = true := by
  simp only [Formats.checkHost]
  split
  · rename_i nothing
    rw [List.isEmpty_iff] at nothing
    simp [nothing]
  · split
    · rename_i matched
      simpa using matched
    · rename_i matched
      simpa using matched

theorem check_host_isSome {o : Origin} {allowed : List OriginPattern} :
    (fm.checkHost o allowed).toOption.isSome = true ↔ fm.checkHost o allowed = .ok () := by
  cases fm.checkHost o allowed <;> simp [Except.toOption]

theorem mem_parse_stored {hosts : List String} {p : OriginPattern} :
    p ∈ fm.parseStored hosts ↔ ∃ h ∈ hosts, fm.parsePattern h true = .ok p := by
  simp only [Formats.parseStored, List.mem_filterMap]
  refine exists_congr fun h => and_congr_right fun _ => ?_
  cases fm.parsePattern h true <;> simp [Except.toOption]

theorem check_host_mono {o : Origin} {few many : List String} (subset : ∀ h ∈ few, h ∈ many)
    (ok : fm.checkHost o (fm.parseStored few) = .ok ()) : fm.checkHost o (fm.parseStored many) = .ok () := by
  obtain ⟨p, parsed, matched⟩ := check_host_eq_ok.mp ok
  obtain ⟨h, member, parses⟩ := mem_parse_stored.mp parsed
  exact check_host_eq_ok.mpr ⟨p, mem_parse_stored.mpr ⟨h, subset h member, parses⟩, matched⟩

theorem mem_grants_for {id : String} {g : Grant} :
    g ∈ v.grantsFor id ↔ g ∈ v.grants.rows ∧ g.secretId = id := by
  simp [LocalVault.grantsFor, List.mem_insertionSort]

theorem mem_effective {r : Right} :
    r ∈ v.effective fm now m who ↔ (who.owns m = true ∧ r = .implicit m) ∨
      ∃ g, g ∈ v.grants.rows ∧ g.secretId = m.id ∧ fm.past now g.expiresAt = false ∧
        g.consumer.isFor who = true ∧ r = .ofGrant g := by
  simp only [LocalVault.effective, List.mem_append, List.mem_map, List.mem_filter, mem_grants_for,
    Bool.and_eq_true, Bool.not_eq_true']
  apply or_congr
  · split <;> simp_all
  · apply exists_congr
    intro g
    constructor
    · rintro ⟨⟨⟨member, ofRow⟩, lasts, names⟩, rfl⟩
      exact ⟨member, ofRow, lasts, names, rfl⟩
    · rintro ⟨member, ofRow, lasts, names, rfl⟩
      exact ⟨⟨⟨member, ofRow⟩, lasts, names⟩, rfl⟩

theorem mem_of_pick {rights : List Right} {r : Right} (picked : pick rights = some r) : r ∈ rights := by
  simp only [pick] at picked
  cases found : rights.find? Right.named with
  | none =>
      rw [found, Option.none_or] at picked
      exact List.mem_of_mem_head? picked
  | some named =>
      rw [found, Option.some_or] at picked
      cases picked
      exact List.mem_of_find?_eq_some found

theorem pick_isSome {rights : List Right} {r : Right} (member : r ∈ rights) : (pick rights).isSome = true := by
  cases rights with
  | nil => cases member
  | cons first rest => simp [pick]

theorem choose_spec {r : Right} (chosen : v.choose fm now m use who = some r) :
    r ∈ v.effective fm now m who ∧ r.covers fm v m use = true := by
  have member := mem_of_pick chosen
  exact List.mem_filter.mp member

theorem choose_isSome {r : Right} (member : r ∈ v.effective fm now m who)
    (covers : r.covers fm v m use = true) :
    (v.choose fm now m use who).isSome = true :=
  pick_isSome (List.mem_filter.mpr ⟨member, covers⟩)

theorem covers_iff {r : Right} :
    r.covers fm v m use = true ↔ (r.grant.isSome && v.rollback) = false ∧
      use.needs.level ≤ r.delivery.level ∧
      ∀ o, use.target = some o → fm.checkHost o (fm.parseStored (r.sites m)) = .ok () := by
  simp only [Right.covers, Bool.and_eq_true, Bool.not_eq_true', decide_eq_true_eq, and_assoc]
  refine and_congr_right fun _ => and_congr_right fun _ => ?_
  cases use.target with
  | none => simp
  | some o => simp [check_host_isSome]

theorem usable_eq_ok :
    usable fm now m use = .ok () ↔ m.status = .active ∧ fm.past now m.expiresAt = false ∧
      (m.kind = .sshKey → use.target = none) := by
  simp only [usable]
  split
  · simp_all
  · split
    · simp_all
    · split <;> simp_all [Option.isSome_iff_ne_none]

theorem release_through_spec {right : Right} {r : Resolved} (ok : v.releaseThrough m who right = .ok r) :
    v.decryptVersion m m.latestVersion = .ok r.value ∧ r.info = m ∧ r.version = m.latestVersion ∧
      r.inject = m.inject.getD .bearer := by
  simp only [LocalVault.releaseThrough] at ok
  obtain ⟨value, opened, ok⟩ := bind_eq_ok.mp ok
  split at ok
  · cases ok
  · cases ok
    exact ⟨opened, rfl, rfl, rfl⟩

/-- A value a consumer got is of a user secret, and came through a right it has. -/
theorem resolve_through {sel : Selector} {r : Resolved} (consumer : who.isConsumer = true)
    (found : v.findRow sel = .ok m) (ok : v.resolve fm now sel use who = .ok r) :
    m.ns = .user ∧ use ≠ .system ∧ usable fm now m use = .ok () ∧
      ∃ right, v.choose fm now m use who = some right ∧ v.releaseThrough m who right = .ok r := by
  simp only [Requester.isConsumer, Bool.and_eq_true, Bool.not_eq_true'] at consumer
  simp only [LocalVault.resolve, found, consumer.1, consumer.2] at ok
  obtain ⟨m', same, ok⟩ := bind_eq_ok.mp ok
  cases same
  obtain ⟨_, usable, ok⟩ := bind_eq_ok.mp ok
  split at ok
  · have stranger : (who = .engine m.scope.id) = False := by
      rw [eq_iff_iff, iff_false]
      rintro rfl
      cases consumer.2
    simp [LocalVault.resolveSystem, consumer.1, stranger] at ok
  · rename_i user
    split at ok
    · simp at ok
    · rename_i purpose
      simp only [Bool.or_false, decide_eq_true_eq] at purpose
      refine ⟨by cases h : m.ns <;> simp_all, purpose, usable, ?_⟩
      cases chosen : v.choose fm now m use who with
      | none =>
          rw [chosen] at ok
          cases ok
      | some right =>
          rw [chosen] at ok
          exact ⟨right, rfl, ok⟩

/-- A right that covers the use gets the value, if it can be opened. -/
theorem resolve_of_right {sel : Selector} {right : Right} {value : Bytes} (consumer : who.isConsumer = true)
    (stays : who.isCompute = false) (found : v.findRow sel = .ok m) (user : m.ns = .user) (purpose : use ≠ .system)
    (ready : usable fm now m use = .ok ()) (member : right ∈ v.effective fm now m who)
    (covers : right.covers fm v m use = true) (opens : v.decryptVersion m m.latestVersion = .ok value) :
    ∃ r, v.resolve fm now sel use who = .ok r ∧ r.inject = m.inject.getD .bearer := by
  simp only [Requester.isConsumer, Bool.and_eq_true, Bool.not_eq_true'] at consumer
  obtain ⟨chosen, picked⟩ := Option.isSome_iff_exists.mp (choose_isSome member covers)
  simp [LocalVault.resolve, found, ready, user, purpose, consumer, picked, LocalVault.releaseThrough, opens, stays,
    bind, Except.bind]

end Facts

end K2.Vault
