import K2.Vault.Versions

/-! # Agents widen nothing

What the agents of one workspace can bring about: a secret a person gave and a
server secret the workspace did not create only get tighter, and the workspace
gains no right to the latter.
-/

namespace K2.Vault

/-- A chat, a job or a published service of the workspace. -/
def Requester.isOf (workspace : String) (chats : String → Prop) : Requester → Prop
  | .session workspaceId sessionId => workspaceId = workspace ∧ ∀ id, sessionId = some id → chats id
  | .job workspaceId _ _ => workspaceId = workspace
  | .publishedService _ workspaceId => workspaceId = workspace
  | .engine _ | .system _ | .source _ | .compute .. => False

def Deed.byAgentOf (workspace : String) (d : Deed) : Prop :=
  ∃ a, d.actor = .agent a ∧ a.workspaceId = workspace

/-- A server secret that the workspace did not create. -/
def Foreign (workspace : String) (m : SecretMeta) : Prop :=
  m.scope.kind = .server ∧ createdByAgentWs m.createdBy workspace = false

section Agents

variable {workspace : String} {a : AgentActor} {facts : Facts}

/-- The secrets an agent of the workspace can't loosen. -/
def Guarded (workspace : String) (facts : Facts) : Prop :=
  facts.humanGiven = true ∨ (facts.scope.kind = .server ∧ createdByAgentWs facts.createdBy workspace = false)

theorem agent_may_not_loosen (guarded : Guarded a.workspaceId facts) (delivery : Delivery) :
    mayLoosen (.agent a) facts delivery = false := by
  have refused : (canLoosen (.agent a) facts).toOption = none := by
    simp only [canLoosen]
    cases canManage (.agent a) facts with
    | error e => rfl
    | ok _ =>
        rcases guarded with given | ⟨-, foreign⟩
        · simp [bind, Except.bind, given, Except.toOption]
        · simp only [bind, Except.bind, foreign]
          split <;> rfl
  have uncovered : acceptedHandoffCovers (.agent a) facts delivery = false := by
    simp only [acceptedHandoffCovers]
    split
    · rcases guarded with given | ⟨server, -⟩
      · simp [given]
      · simp [server]
    · rfl
  rw [mayLoosen, refused, uncovered]
  rfl

theorem agent_creates {m : SecretMeta} (creates : Creates (.agent a) m) :
    createdByAgentWs m.createdBy a.workspaceId = true := by
  rw [creates.author]
  simp only [Actor.stamp]
  split
  · simp [createdByAgentWs]
  · split
    · simp [createdByAgentWs]
    · simp [createdByAgentWs]

/-- Of a foreign secret an agent can grant only what lies outside its own workspace. -/
theorem foreign_grant {c : Consumer} {delivery fallback : Delivery}
    (may : canGrant (.agent a) facts c delivery fallback = .ok ()) (server : facts.scope.kind = .server)
    (foreign : createdByAgentWs facts.createdBy a.workspaceId = false) :
    a.vaultManage = true ∧ (ownWs a c || allWs c || ownSession a c || ownJob a c || ownService c) = false := by
  have mortal : (Actor.agent a).isSystem = false := rfl
  simp only [canGrant, mortal, Bool.false_eq_true, if_false] at may
  split at may
  · cases may
  · split at may
    · cases may
    · split at may
      · rename_i manager
        simp only [itAgentGrants] at may
        split at may
        · cases may
        · rename_i outside
          simp only [Bool.and_eq_true] at manager
          exact ⟨manager.1, by simpa using outside⟩
      · rename_i manager
        obtain ⟨_, managed, -⟩ := bind_eq_ok.mp may
        simp only [canManage, manages, server, foreign, mortal, Bool.or_false, Bool.false_eq_true,
          if_false] at managed
        split at managed
        · cases managed
        · split at managed
          · rename_i manages
            simp [manages, server] at manager
          · cases managed

theorem split_once_first {ws rest : String} (plain : '/' ∉ ws.toList) :
    (Text.splitOnce '/' (ws ++ "/" ++ rest)).map (·.1) = some ws := by
  have chars : (ws ++ "/" ++ rest).toList = ws.toList ++ '/' :: rest.toList := by
    simp [String.toList_append]
  have first : (ws.toList ++ '/' :: rest.toList).takeWhile (· ≠ '/') = ws.toList := by
    rw [List.takeWhile_append_of_pos]
    · simp
    · intro c member
      simpa using fun same : c = '/' => plain (same ▸ member)
  simp only [Text.splitOnce, chars, first]
  simp

theorem outside_names_none {chats : String → Prop} (plain : '/' ∉ a.workspaceId.toList) {c : Consumer}
    {ns : Namespace} {delivery : Delivery}
    (outside : (ownWs a c || allWs c || ownSession a c || ownJob a c || ownService c) = false)
    (holds : checkConsumer ns c delivery = .ok ()) (noChat : ∀ id, chats id → c ≠ ⟨.session, id⟩)
    {who : Requester} (ofWs : who.isOf a.workspaceId chats) : c.isFor who = false := by
  simp only [Bool.or_eq_false_iff, ownWs, allWs, ownService, ownJob] at outside
  obtain ⟨⟨⟨⟨notOwn, notAll⟩, -⟩, notJob⟩, notService⟩ := outside
  cases who with
  | session workspaceId sessionId =>
      obtain ⟨rfl, mine⟩ := ofWs
      simp only [Consumer.isFor]
      split
      · rename_i kind
        simp [kind] at notOwn notAll
        simp [notOwn, notAll]
      · rename_i kind
        rw [decide_eq_false_iff_not]
        intro same
        exact noChat c.id (mine c.id same) (by rw [← kind])
      · rfl
  | publishedService id workspaceId =>
      simp only [Consumer.isFor, notService, Bool.false_and]
  | job workspaceId jobId name =>
      cases ofWs
      simp only [Consumer.isFor, Bool.and_eq_false_imp, decide_eq_true_eq, decide_eq_false_iff_not]
      intro kind same
      have split : c.jobWorkspace = (some a.workspaceId).filter (· ≠ "") := by
        simp only [Consumer.jobWorkspace, kind, ne_eq, not_true_eq_false, if_false, same,
          split_once_first plain]
      by_cases nameless : a.workspaceId = ""
      · rw [nameless] at split
        simp [checkConsumer, kind, split] at holds
      · rw [split] at notJob
        simp [nameless] at notJob
  | engine | system | source | compute => exact ofWs.elim

end Agents

/-! ## What a run keeps -/

/-- What the workspace's agents made of a vault gives the workspace no more. -/
structure Held (workspace : String) (chats : String → Prop) (start v : LocalVault) : Prop where
  rollback : v.rollback = start.rollback
  rows : ∀ id old, start.secrets.get id = some old → ∃ m, v.secrets.get id = some m ∧ SameSecret old m ∧
    (old.humanGiven = true ∨ Foreign workspace old → NoLooser old m)
  made : ∀ id m, v.secrets.get id = some m → start.secrets.get id = none →
    createdByAgentWs m.createdBy workspace = true
  names : ∀ ns scope name r, start.secrets.rows.find? (·.named ns scope name) = some r →
    ∃ r', v.secrets.rows.find? (·.named ns scope name) = some r' ∧ r'.id = r.id
  grants : ∀ g ∈ v.grants.rows, g ∈ start.grants.rows ∨ ∀ m, v.secrets.get g.secretId = some m →
    Foreign workspace m → ∀ who : Requester, who.isOf workspace chats → g.consumer.isFor who = false

section Run

variable {fm : Formats} {workspace : String} {chats : String → Prop} {start v v' : LocalVault} {time : String}
  {w : Write}

theorem Held.refl (v : LocalVault) : Held workspace chats v v where
  rollback := rfl
  rows _ old found := ⟨old, found, .refl old, fun _ => .refl old⟩
  made _ _ found none := by
    rw [none] at found
    cases found
  names _ _ _ r found := ⟨r, found, rfl⟩
  grants _ member := .inl member

theorem Foreign.of_same {old m : SecretMeta} (same : SameSecret old m) :
    Foreign workspace m ↔ Foreign workspace old := by
  rw [Foreign, Foreign, same.scope, same.createdBy]

theorem held_create {a : AgentActor} {m : SecretMeta} {value : Bytes} (ours : a.workspaceId = workspace)
    (held : Held workspace chats start v) (creates : Creates (.agent a) m)
    (ok : (Write.create m value (Actor.agent a).stamp).apply time v = .ok v') :
    Held workspace chats start v' := by
  have mine : createdByAgentWs m.createdBy workspace = true := by
    rw [← ours]
    exact agent_creates creates
  constructor
  · exact (apply_flags ok).1.trans held.rollback
  · intro id old found
    obtain ⟨m', now, kept⟩ := held.rows id old found
    exact ⟨m', create_kept ok now, kept⟩
  · intro id m' found none
    rw [(create_get ok id).2] at found
    split at found
    · cases found
      exact mine
    · exact held.made id m' found none
  · intro ns scope name r found
    obtain ⟨r₁, now, same⟩ := held.names ns scope name r found
    obtain ⟨r₂, still, same'⟩ := apply_named ok now
    exact ⟨r₂, still, same'.trans same⟩
  · intro g member
    rcases apply_grants ok member with old | made
    · rcases held.grants g old with before | shut
      · exact .inl before
      · refine .inr fun m' found foreign => ?_
        rw [(create_get ok g.secretId).2] at found
        split at found
        · cases found
          exact absurd (mine.symm.trans foreign.2) (by decide)
        · exact shut m' found foreign
    · cases made

theorem agent_rewrites {a : AgentActor} {row r : SecretMeta} (ours : a.workspaceId = workspace)
    (allows : Allows fm (.agent a) row (v.factsFor row (.agent a)) w) (stored : v.secrets.get row.id = some row)
    (found : v.secrets.get r.id = some r) :
    SameSecret r (w.rewritten r) ∧
      (r.humanGiven = true ∨ Foreign workspace r → NoLooser r (w.rewritten r)) := by
  by_cases same : r.id = row.id
  · obtain rfl := v.secrets.eq_of_key (KeyedTable.mem_of_get found) (KeyedTable.mem_of_get stored) same
    refine ⟨allows_same allows, fun guarded => ?_⟩
    rcases allows_no_looser allows with tight | may
    · exact tight
    · rw [agent_may_not_loosen (by rw [ours]; exact guarded)] at may
      cases may
  · rw [allows_elsewhere allows same]
    exact ⟨.refl r, fun _ => .refl r⟩

theorem held_write {a : AgentActor} {row : SecretMeta} (ours : a.workspaceId = workspace)
    (plain : '/' ∉ workspace.toList) (held : Held workspace chats start v)
    (stored : v.secrets.get row.id = some row)
    (allows : Allows fm (.agent a) row (v.factsFor row (.agent a)) w) (ok : w.apply time v = .ok v')
    (keepsOut : ∀ g, w = .grant g → ∀ m, v.secrets.get g.secretId = some m → Foreign workspace m →
      ∀ id, chats id → g.consumer ≠ ⟨.session, id⟩) :
    Held workspace chats start v' := by
  have rows := apply_get ok (allows_existing allows)
  have rewrites : ∀ id r, v.secrets.get id = some r → SameSecret r (w.rewritten r) ∧
      (r.humanGiven = true ∨ Foreign workspace r → NoLooser r (w.rewritten r)) := by
    intro id r found
    obtain rfl := KeyedTable.key_of_get found
    exact agent_rewrites ours allows stored found
  constructor
  · exact (apply_flags ok).1.trans held.rollback
  · intro id old found
    obtain ⟨r, now, same, tight⟩ := held.rows id old found
    obtain ⟨same', tight'⟩ := rewrites id r now
    refine ⟨w.rewritten r, by rw [rows, now]; rfl, same.trans same', fun guarded => ?_⟩
    refine (tight guarded).trans (tight' ?_)
    rwa [same.humanGiven, Foreign.of_same same]
  · intro id m found none
    rw [rows, Option.map_eq_some_iff] at found
    obtain ⟨r, before, rfl⟩ := found
    rw [(rewrites id r before).1.createdBy]
    exact held.made id r before none
  · intro ns scope name r found
    obtain ⟨r₁, now, same⟩ := held.names ns scope name r found
    obtain ⟨r₂, still, same'⟩ := apply_named ok now
    exact ⟨r₂, still, same'.trans same⟩
  · intro g member
    have before : ∀ m, v'.secrets.get g.secretId = some m → Foreign workspace m →
        ∃ r, v.secrets.get g.secretId = some r ∧ Foreign workspace r := by
      intro m found foreign
      rw [rows, Option.map_eq_some_iff] at found
      obtain ⟨r, was, rfl⟩ := found
      exact ⟨r, was, (Foreign.of_same (rewrites _ r was).1).mp foreign⟩
    rcases apply_grants ok member with old | rfl
    · rcases held.grants g old with first | shut
      · exact .inl first
      · refine .inr fun m found foreign => ?_
        obtain ⟨r, was, foreign⟩ := before m found foreign
        exact shut r was foreign
    · refine .inr fun m found foreign who ofWs => ?_
      obtain ⟨r, was, foreign⟩ := before m found foreign
      have noChat := keepsOut g rfl r was foreign
      cases allows with
      | grant ofRow ceiling narrows consumer may =>
          rw [ofRow, stored] at was
          cases was
          rw [← ours] at plain foreign ofWs
          exact outside_names_none plain (foreign_grant may foreign.1 foreign.2).2 consumer noChat ofWs

/-- A share the route lets through goes to no chat of the workspace. -/
theorem route_keeps_out {c : Arrival} {g : Grant} {a : AgentActor} {m : SecretMeta}
    (actor : c.deed.actor = .agent a) (truthful : ∀ id, chats id → ∀ ws, c.sessionWorkspace id = some ws →
      ws = a.workspaceId) (admitted : c.routeCheck v = .ok ())
    (planned : c.deed.plan fm v = .ok (.write (.grant g) ())) (found : v.secrets.get g.secretId = some m)
    (foreign : Foreign a.workspaceId m) : ∀ id, chats id → g.consumer ≠ ⟨.session, id⟩ := by
  rcases plan_allows planned with ⟨_, _, made, -⟩ | ⟨row, stored, allows, grants⟩
  · cases made
  · obtain ⟨req, newId, called, selected, ofRow, consumer⟩ := grants g rfl
    rw [actor] at allows
    cases allows with
    | grant _ _ _ _ may =>
        rw [ofRow, stored] at found
        cases found
        have manager := (foreign_grant may foreign.1 foreign.2).1
        intro id chat same
        rw [consumer] at same
        simp only [Arrival.routeCheck, called, actor, same, manager, decide_true, Bool.and_true, if_true]
          at admitted
        obtain ⟨m', found, admitted⟩ := bind_eq_ok.mp admitted
        rw [selected] at found
        cases found
        simp only [sessionSelfGrant, manager, foreign.1] at admitted
        cases placed : c.sessionWorkspace id with
        | none => simp [placed] at admitted
        | some ws =>
            rw [truthful id chat ws placed] at placed
            simp [placed] at admitted

theorem held_arrive {c : Arrival} (plain : '/' ∉ workspace.toList) (held : Held workspace chats start v)
    (agent : c.deed.byAgentOf workspace)
    (truthful : ∀ id, chats id → ∀ ws, c.sessionWorkspace id = some ws → ws = workspace) :
    Held workspace chats start (v.arrive fm c) := by
  obtain ⟨a, actor, rfl⟩ := agent
  simp only [LocalVault.arrive]
  cases admitted : c.routeCheck v with
  | error e => exact held
  | ok _ =>
      rcases act_cases fm v c.deed with same | ⟨w, planned, ok⟩
      · simpa only [LocalVault.next, same] using held
      · rcases plan_allows planned with ⟨m, value, rfl, creates⟩ | ⟨row, stored, allows, -⟩
        · rw [actor] at creates ok
          exact held_create rfl held creates ok
        · rw [actor] at allows
          refine held_write rfl plain held stored allows ok fun g made m found foreign => ?_
          rw [made] at planned
          exact route_keeps_out actor truthful admitted planned found foreign

theorem held_run (plain : '/' ∉ workspace.toList) (held : Held workspace chats start v) {calls : List Arrival}
    (agents : ∀ c ∈ calls, c.deed.byAgentOf workspace)
    (truthful : ∀ c ∈ calls, ∀ id, chats id → ∀ ws, c.sessionWorkspace id = some ws → ws = workspace) :
    Held workspace chats start (Rounds.after (LocalVault.arrive fm) v calls) := by
  induction calls generalizing v with
  | nil => exact held
  | cons c rest ih =>
      rw [List.forall_mem_cons] at agents truthful
      exact ih (held_arrive plain held agents.1 truthful.1) agents.2 truthful.2

end Run

/-! ## Rights of the workspace -/

section Rights

variable {fm : Formats} {workspace : String} {chats : String → Prop} {start v : LocalVault} {early late : Int}
  {old m : SecretMeta} {who : Requester} {use : Use}

theorem past_mono {expiresAt : Option String} (later : early ≤ late) (lasts : fm.past late expiresAt = false) :
    fm.past early expiresAt = false := by
  simp only [Formats.past] at lasts ⊢
  split
  · rename_i x parsed
    simp only [parsed, decide_eq_false_iff_not, not_lt] at lasts
    simpa using later.trans lasts
  · rfl

theorem isOf_consumer (ofWs : who.isOf workspace chats) : who.isConsumer = true ∧ who.isCompute = false := by
  cases who with
  | session | publishedService | job => exact ⟨rfl, rfl⟩
  | engine | system | source | compute => exact ofWs.elim

/-- The row of a foreign secret a selector finds is one the start had under it. -/
theorem held_found (held : Held workspace chats start v) {sel : Selector} (found : v.findRow sel = .ok m)
    (foreign : Foreign workspace m) :
    ∃ old, start.findRow sel = .ok old ∧ SameSecret old m ∧ NoLooser old m ∧ Foreign workspace old := by
  have stored := find_row_mem found
  obtain ⟨old, was⟩ : ∃ old, start.secrets.get m.id = some old := by
    cases was : start.secrets.get m.id with
    | some old => exact ⟨old, rfl⟩
    | none =>
        have made := held.made m.id m stored was
        rw [foreign.2] at made
        cases made
  obtain ⟨m', now, same, tight⟩ := held.rows m.id old was
  rw [stored] at now
  cases now
  have foreign' := (Foreign.of_same same).mp foreign
  refine ⟨old, ?_, same, tight (.inr foreign'), foreign'⟩
  cases sel with
  | id id =>
      obtain rfl := KeyedTable.key_of_get (okOr_eq_ok.mp found)
      exact okOr_eq_ok.mpr was
  | name ns scope name =>
      have byName : v.secrets.rows.find? (·.named ns scope name) = some m := okOr_eq_ok.mp found
      have named : old.named ns scope name = true := by
        have := List.find?_some byName
        rwa [SecretMeta.named, same.ns, same.scope, same.name] at this
      cases first : start.secrets.rows.find? (·.named ns scope name) with
      | none => exact absurd named (List.find?_eq_none.mp first old (KeyedTable.mem_of_get was))
      | some r =>
          obtain ⟨r', now, its⟩ := held.names ns scope name r first
          rw [byName] at now
          cases now
          have unique := start.secrets.eq_of_key (List.mem_of_find?_eq_some first) (KeyedTable.mem_of_get was)
            (its.symm.trans same.id)
          rw [unique] at first
          exact okOr_eq_ok.mpr first

/-- A right the workspace has to a foreign secret it had at the start. -/
theorem held_right (held : Held workspace chats start v) (stored : v.secrets.get m.id = some m)
    (same : SameSecret old m) (foreign : Foreign workspace m) (ofWs : who.isOf workspace chats)
    (later : early ≤ late) {right : Right} (member : right ∈ v.effective fm late m who) :
    right ∈ start.effective fm early old who := by
  rcases mem_effective.mp member with ⟨owns, -⟩ | ⟨g, kept, ofRow, lasts, names, rfl⟩
  · cases who <;> simp [Requester.owns, foreign.1] at owns
  · refine mem_effective.mpr (.inr ⟨g, ?_, ofRow.trans same.id, past_mono later lasts, names, rfl⟩)
    rcases held.grants g kept with first | shut
    · exact first
    · rw [shut m (by rw [ofRow, stored]) foreign who ofWs] at names
      cases names

theorem held_covers (held : Held workspace chats start v) (tight : NoLooser old m) {right : Right}
    (covers : right.covers fm v m use = true) : right.covers fm start old use = true := by
  obtain ⟨trusted, level, sites⟩ := covers_iff.mp covers
  refine covers_iff.mpr ⟨by rwa [← held.rollback], level, fun o target => ?_⟩
  have ok := sites o target
  simp only [Right.sites] at ok ⊢
  cases narrowed : right.hostsNarrowed with
  | none =>
      rw [narrowed] at ok
      exact check_host_mono tight.hosts ok
  | some n =>
      rw [narrowed] at ok
      exact ok

/-- What the workspace gets of a foreign secret it got at the start, put into a
    request the same way. -/
theorem held_resolve (held : Held workspace chats start v) (sound : Sound start) (later : early ≤ late)
    (ofWs : who.isOf workspace chats) {sel : Selector} {r : Resolved} (found : v.findRow sel = .ok m)
    (foreign : Foreign workspace m) (ok : v.resolve fm late sel use who = .ok r) :
    ∃ old r₀, start.findRow sel = .ok old ∧ start.resolve fm early sel use who = .ok r₀ ∧ r₀.inject = r.inject ∧
      ∀ right, v.choose fm late m use who = some right → right ∈ start.effective fm early old who := by
  obtain ⟨consumer, stays⟩ := isOf_consumer ofWs
  obtain ⟨user, uses, ready, right, chosen, through⟩ := resolve_through consumer found ok
  obtain ⟨old, first, same, tight, -⟩ := held_found held found foreign
  obtain ⟨active, unexpired, unsent⟩ := usable_eq_ok.mp ready
  have was : old.status = .active := by
    have rank := tight.status
    rw [active] at rank
    cases held : old.status <;> simp_all [SecretStatus.rank]
  have ready' : usable fm early old use = .ok () := by
    refine usable_eq_ok.mpr ⟨was, past_mono later ?_, fun ssh => unsent (same.kind.trans ssh)⟩
    rwa [← same.expiresAt]
  have rights : ∀ right, v.choose fm late m use who = some right → right ∈ start.effective fm early old who :=
    fun right picked => held_right held (find_row_mem found) same foreign ofWs later (choose_spec picked).1
  obtain ⟨value, opens⟩ := decrypt_of_opens
    (sound _ old (find_row_mem first) (by rw [was]; exact SecretStatus.noConfusion))
  obtain ⟨r₀, got, inject⟩ := resolve_of_right consumer stays first (same.ns.symm.trans user) uses ready'
    (rights right chosen) (held_covers held tight (choose_spec chosen).2) opens
  refine ⟨old, r₀, first, got, ?_, rights⟩
  rw [inject, (release_through_spec through).2.2.2, tight.inject]

end Rights

/-- Whatever the agents of a workspace do, in any of its chats, no user secret a person
    gave gets looser, and nothing of the workspace can resolve a server secret it did
    not create in a way it could not before. -/
theorem agents_widen_nothing (fm : Formats) {workspace : String} (plain : '/' ∉ workspace.toList)
    {chats : String → Prop} {start : LocalVault} (sound : Sound start) {calls : List Arrival}
    (agents : ∀ c ∈ calls, c.deed.byAgentOf workspace)
    (truthful : ∀ c ∈ calls, ∀ id, chats id → ∀ ws, c.sessionWorkspace id = some ws → ws = workspace) :
    (∀ id old, start.secrets.get id = some old → old.ns = .user → old.humanGiven = true →
      ∃ m, (Rounds.after (LocalVault.arrive fm) start calls).secrets.get id = some m ∧ NoLooser old m) ∧
    ∀ sel use (who : Requester) early late m r, early ≤ late → who.isOf workspace chats →
      (Rounds.after (LocalVault.arrive fm) start calls).findRow sel = .ok m → Foreign workspace m →
      (Rounds.after (LocalVault.arrive fm) start calls).resolve fm late sel use who = .ok r →
      ∃ old r₀, start.findRow sel = .ok old ∧ start.resolve fm early sel use who = .ok r₀ ∧
        r₀.inject = r.inject ∧
        ∀ right, (Rounds.after (LocalVault.arrive fm) start calls).choose fm late m use who = some right →
          right ∈ start.effective fm early old who := by
  have held : Held workspace chats start (Rounds.after (LocalVault.arrive fm) start calls) :=
    held_run plain (.refl start) agents truthful
  constructor
  · intro id old found _ given
    obtain ⟨m, now, -, tight⟩ := held.rows id old found
    exact ⟨m, now, tight (.inl given)⟩
  · intro sel use who early late m r later ofWs found foreign ok
    exact held_resolve held sound later ofWs found foreign ok

namespace ItAgent

/-- The owner's server key, and an agent of "it" that manages server secrets. -/
def start : LocalVault :=
  (LocalVault.fresh [] false false).next (.knowing []) ⟨.put (.server "API_KEY" .apiKey []) [1] "s1", .owner, 0⟩

def itAgent : Actor := .agent ⟨"it", some "c1", false, true⟩

/-- It shares the key with a workspace, then with another chat of its own. -/
def share (consumer : Consumer) (newId : String) : Arrival where
  deed := ⟨.grant ⟨.id "s1", consumer, .fetch, none, none, none, none, none⟩ newId, itAgent, 0⟩
  sessionWorkspace id := if id = "c1" ∨ id = "c2" then some "it" else none

def shares : List Arrival := [share ⟨.workspace, "sales"⟩ "g1", share ⟨.session, "c2"⟩ "g2"]

def after : LocalVault := Rounds.after (LocalVault.arrive (.knowing [])) start shares

example : after.grants.rows.map (·.consumer) = [⟨.workspace, "sales"⟩] := by decide

theorem agents_widen_nothing_it : (∃ m, after.secrets.get "s1" = some m ∧ m.hosts = []) ∧
    ∀ m, after.findRow (.id "s1") = .ok m → Foreign "it" m → ∀ r,
      after.resolve (.knowing []) 0 (.id "s1") .env (.session "it" (some "c2")) = .ok r →
      ∃ r₀, start.resolve (.knowing []) 0 (.id "s1") .env (.session "it" (some "c2")) = .ok r₀ := by
  have ours : ∀ c ∈ shares, c.deed.byAgentOf "it" := by
    simp only [shares, List.forall_mem_cons]
    exact ⟨⟨_, rfl, rfl⟩, ⟨_, rfl, rfl⟩, fun _ none => nomatch none⟩
  have truthful : ∀ c ∈ shares, ∀ id, (id = "c1" ∨ id = "c2") → ∀ ws, c.sessionWorkspace id = some ws →
      ws = "it" := by
    simp only [shares, List.forall_mem_cons, share]
    refine ⟨?_, ?_, fun _ none => nomatch none⟩ <;>
    · intro id chat ws placed
      rw [if_pos chat] at placed
      exact (Option.some.inj placed).symm
  have sound : Sound start := next_sound (fresh_sound [] false false)
  obtain ⟨rows, rights⟩ :=
    agents_widen_nothing (.knowing []) (by decide : '/' ∉ "it".toList) sound ours truthful
  constructor
  · cases found : start.secrets.get "s1" with
    | none => exact absurd found (by decide)
    | some old =>
        have terms : (start.secrets.get "s1").map (fun m => (m.ns, m.humanGiven, m.hosts)) =
            some (.user, true, []) := by decide
        rw [found] at terms
        simp only [Option.map_some, Option.some.injEq, Prod.mk.injEq] at terms
        obtain ⟨m, now, tight⟩ := rows "s1" old found terms.1 terms.2.1
        refine ⟨m, now, List.eq_nil_iff_forall_not_mem.mpr fun h member => ?_⟩
        have none := tight.hosts h member
        rw [terms.2.2] at none
        cases none
  · intro m found foreign r ok
    obtain ⟨_, r₀, -, got, -, -⟩ := rights (.id "s1") .env (.session "it" (some "c2")) 0 0 m r le_rfl
      ⟨rfl, fun id same => .inr (Option.some.inj same).symm⟩ found foreign ok
    exact ⟨r₀, got⟩

end ItAgent

end K2.Vault
