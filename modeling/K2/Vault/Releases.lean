import K2.Lib.Machines
import K2.Vault.Steps

/-! # Releases follow the rules

`Released` is what a secret's current rules say of a value that left; `Fits` that
every grant lies within them. Operations that take no rule from under a grant keep
`Fits`, and from a vault that fits a consumer gets what the rules say.
-/

namespace K2.Vault

/-- Every origin the one list allows, the other allows. -/
def Formats.Within (fm : Formats) (few many : List String) : Prop :=
  ∀ o, fm.checkHost o (fm.parseStored few) = .ok () → fm.checkHost o (fm.parseStored many) = .ok ()

/-- A value that left by the rules of its secret as they stand. -/
structure Released (fm : Formats) (v : LocalVault) (now : Int) (m : SecretMeta) (use : Use)
    (who : Requester) (right : Right) (r : Resolved) : Prop where
  active : m.status = .active
  unexpired : fm.past now m.expiresAt = false
  /-- The implicit right, or an unexpired grant that names the requester. -/
  entitled : (who.owns m = true ∧ right = .implicit m) ∨
    ∃ g, g ∈ v.grants.rows ∧ g.secretId = m.id ∧ fm.past now g.expiresAt = false ∧
      g.consumer.isFor who = true ∧ right = .ofGrant g
  covers : use.needs.level ≤ right.delivery.level
  ceiling : use.needs.level ≤ m.deliveryCeiling.level
  sites : ∀ o, use.target = some o → fm.checkHost o (fm.parseStored m.hosts) = .ok () ∧
    ∀ n, right.hostsNarrowed = some n → fm.checkHost o (fm.parseStored n) = .ok ()
  version : r.version = (right.grant.bind (·.versionSelector)).getD m.latestVersion
  value : v.decryptVersion m r.version = .ok r.value

/-- A grant within the rules of its secret. -/
structure GrantFits (fm : Formats) (m : SecretMeta) (g : Grant) : Prop where
  ceiling : g.delivery.level ≤ m.deliveryCeiling.level
  sites : ∀ n, g.hostsNarrowed = some n → m.kind ≠ .sshKey → fm.Within n m.hosts
  version : ∀ k, g.versionSelector = some k → k = m.latestVersion

structure Fits (fm : Formats) (v : LocalVault) : Prop where
  capped : ∀ id m, v.secrets.get id = some m → m.defaultDelivery.level ≤ m.deliveryCeiling.level
  grants : ∀ g ∈ v.grants.rows, ∃ m, v.secrets.get g.secretId = some m ∧ (m.ns = .user → GrantFits fm m g)

/-- A write takes no rule from under a grant: no ceiling below its delivery, no site
    it is narrowed to, no version it is pinned to. -/
def Write.Honours (fm : Formats) (v : LocalVault) : Write → Prop
  | .policy m => m.ns = .user → ∀ g ∈ v.grants.rows, g.secretId = m.id →
      g.delivery.level ≤ m.deliveryCeiling.level ∧
        ∀ n, g.hostsNarrowed = some n → m.kind ≠ .sshKey → fm.Within n m.hosts
  | .version m _ _ => m.ns = .user → ∀ g ∈ v.grants.rows, g.secretId = m.id → g.versionSelector = none
  | .grant g => ∀ m, v.secrets.get g.secretId = some m → m.ns = .user →
      ∀ k, g.versionSelector = some k → k = m.latestVersion
  | .create .. | .status _ | .revoke _ => True

def Honours (fm : Formats) (v : LocalVault) (d : Deed) : Prop :=
  ∀ w, d.plan fm v = .ok (.write w ()) → w.Honours fm v

section Keep

variable {fm : Formats} {v v' : LocalVault} {time : String} {w : Write}

theorem fits_create {actor : Actor} {m : SecretMeta} {value : Bytes} (fits : Fits fm v)
    (creates : Creates actor m) (ok : (Write.create m value actor.stamp).apply time v = .ok v') :
    Fits fm v' := by
  constructor
  · intro id found stored
    rw [(create_get ok id).2] at stored
    split at stored
    · cases stored
      exact creates.capped
    · exact fits.capped id found stored
  · intro g member
    rcases apply_grants ok member with old | made
    · obtain ⟨its, stored, within⟩ := fits.grants g old
      exact ⟨its, create_kept ok stored, within⟩
    · cases made

theorem capped_rewritten {actor : Actor} {row : SecretMeta} {facts : Facts}
    (allows : Allows fm actor row facts w) (capped : row.defaultDelivery.level ≤ row.deliveryCeiling.level) :
    (w.rewritten row).defaultDelivery.level ≤ (w.rewritten row).deliveryCeiling.level := by
  rw [allows_rewritten allows]
  cases allows with
  | version revives may => rcases revived_cases revives with ⟨rfl, -⟩ | ⟨rfl, -⟩ <;> exact capped
  | policy alive may below => exact below
  | status | grant | revoke => exact capped

theorem grant_fits_rewritten {actor : Actor} {row : SecretMeta} {facts : Facts} {g : Grant}
    (allows : Allows fm actor row facts w) (honours : w.Honours fm v) (member : g ∈ v.grants.rows)
    (ofRow : g.secretId = row.id) (fits : row.ns = .user → GrantFits fm row g) :
    (w.rewritten row).ns = .user → GrantFits fm (w.rewritten row) g := by
  rw [allows_rewritten allows]
  cases allows with
  | version revives may =>
      intro user
      rcases revived_cases revives with ⟨rfl, -⟩ | ⟨rfl, -, system⟩
      · obtain ⟨ceiling, sites, -⟩ := fits user
        have unpinned := honours user g member ofRow
        exact ⟨ceiling, sites, by simp [unpinned]⟩
      · change row.ns = .user at user
        rw [system] at user
        cases user
  | policy alive may below =>
      intro user
      obtain ⟨ceiling, sites⟩ := honours user g member ofRow
      exact ⟨ceiling, sites, (fits user).version⟩
  | status =>
      intro user
      obtain ⟨ceiling, sites, version⟩ := fits user
      exact ⟨ceiling, sites, version⟩
  | grant | revoke => exact fits

theorem fits_write {actor : Actor} {row : SecretMeta} {facts : Facts} (fits : Fits fm v)
    (stored : v.secrets.get row.id = some row) (allows : Allows fm actor row facts w)
    (honours : w.Honours fm v) (ok : w.apply time v = .ok v') : Fits fm v' := by
  have rows := apply_get ok (allows_existing allows)
  constructor
  · intro id m found
    rw [rows, Option.map_eq_some_iff] at found
    obtain ⟨r, before, rfl⟩ := found
    have capped := fits.capped id r before
    by_cases same : r.id = row.id
    · obtain rfl := v.secrets.eq_of_key (KeyedTable.mem_of_get before) (KeyedTable.mem_of_get stored) same
      exact capped_rewritten allows capped
    · rwa [allows_elsewhere allows same]
  · intro g member
    rw [rows]
    rcases apply_grants ok member with old | rfl
    · obtain ⟨m, found, within⟩ := fits.grants g old
      refine ⟨w.rewritten m, by rw [found]; rfl, ?_⟩
      by_cases same : m.id = row.id
      · have key := KeyedTable.key_of_get found
        obtain rfl := v.secrets.eq_of_key (KeyedTable.mem_of_get found) (KeyedTable.mem_of_get stored) same
        exact grant_fits_rewritten allows honours old key.symm within
      · rwa [allows_elsewhere allows same]
    · cases allows with
      | grant ofRow ceiling narrows consumer may =>
          refine ⟨row, by rw [ofRow, stored]; rfl, fun user => ⟨ceiling, ?_, ?_⟩⟩
          · intro n narrowed _ o
            exact check_host_mono (narrows n narrowed)
          · exact honours row (by rw [ofRow, stored]) user

theorem next_fits {d : Deed} (fits : Fits fm v) (honours : Honours fm v d) : Fits fm (v.next fm d) := by
  rcases act_cases fm v d with same | ⟨w, planned, ok⟩
  · rwa [LocalVault.next, same]
  · rcases plan_allows planned with ⟨m, value, rfl, creates⟩ | ⟨row, stored, allows, -⟩
    · exact fits_create fits creates ok
    · exact fits_write fits stored allows (honours w planned) ok

end Keep

theorem fresh_fits (fm : Formats) (handoffs : List Handoff) (rollback frozen : Bool) :
    Fits fm (.fresh handoffs rollback frozen) :=
  ⟨fun _ _ found => (nomatch found), fun _ member => (nomatch member)⟩

section Release

variable {fm : Formats} {v : LocalVault} {now : Int} {m : SecretMeta} {use : Use} {who : Requester}

/-- A right of a vault that fits lies within the secret's rules. -/
theorem right_fits (fits : Fits fm v) (stored : v.secrets.get m.id = some m) (user : m.ns = .user)
    {right : Right} (member : right ∈ v.effective fm now m who) :
    right.delivery.level ≤ m.deliveryCeiling.level ∧
      (∀ n, right.hostsNarrowed = some n → m.kind ≠ .sshKey → fm.Within n m.hosts) ∧
      (right.grant.bind (·.versionSelector)).getD m.latestVersion = m.latestVersion := by
  rcases mem_effective.mp member with ⟨-, rfl⟩ | ⟨g, held, ofRow, -, -, rfl⟩
  · refine ⟨fits.capped m.id m stored, ?_, rfl⟩
    intro n narrowed
    cases narrowed
  · obtain ⟨m', found, within⟩ := fits.grants g held
    rw [ofRow, stored] at found
    cases found
    obtain ⟨ceiling, sites, version⟩ := within user
    refine ⟨ceiling, sites, ?_⟩
    change g.versionSelector.getD m.latestVersion = m.latestVersion
    cases pinned : g.versionSelector with
    | none => rfl
    | some k => exact version k pinned

theorem released_of_fits {sel : Selector} {r : Resolved} (fits : Fits fm v) (consumer : who.isConsumer = true)
    (found : v.findRow sel = .ok m) (ok : v.resolve fm now sel use who = .ok r) :
    ∃ right, v.choose fm now m use who = some right ∧ Released fm v now m use who right r := by
  obtain ⟨user, -, usable, right, chosen, through⟩ := resolve_through consumer found ok
  obtain ⟨active, unexpired, unsent⟩ := usable_eq_ok.mp usable
  obtain ⟨member, covers⟩ := choose_spec chosen
  obtain ⟨-, level, origins⟩ := covers_iff.mp covers
  obtain ⟨below, sites, version⟩ := right_fits fits (find_row_mem found) user member
  obtain ⟨opened, -, latest, -⟩ := release_through_spec through
  refine ⟨right, chosen, active, unexpired, mem_effective.mp member, level, level.trans below, ?_,
    latest.trans version.symm, by rwa [latest]⟩
  intro o target
  have sent : m.kind ≠ .sshKey := by
    intro ssh
    rw [unsent ssh] at target
    cases target
  have here := origins o target
  simp only [Right.sites] at here
  cases narrowed : right.hostsNarrowed with
  | none =>
      rw [narrowed] at here
      exact ⟨here, fun n some => by cases some⟩
  | some n =>
      rw [narrowed] at here
      refine ⟨sites n narrowed sent o here, fun n' same => ?_⟩
      cases same
      exact here

end Release

/-- In every vault reached by operations that take no rule from under a grant, a
    consumer gets a value as the rules of its secret say then. -/
theorem releases_follow_the_rules (fm : Formats) (handoffs : List Handoff) (rollback frozen : Bool)
    {deeds : List Deed}
    (honours : Rounds.Along (LocalVault.next fm) (Honours fm) (.fresh handoffs rollback frozen) deeds)
    {sel : Selector} {use : Use} {who : Requester} {now : Int} {m : SecretMeta} {r : Resolved}
    (consumer : who.isConsumer = true)
    (found : (Rounds.after (LocalVault.next fm) (.fresh handoffs rollback frozen) deeds).findRow sel = .ok m)
    (released : (Rounds.after (LocalVault.next fm) (.fresh handoffs rollback frozen) deeds).resolve
      fm now sel use who = .ok r) :
    ∃ right,
      (Rounds.after (LocalVault.next fm) (.fresh handoffs rollback frozen) deeds).choose fm now m use who =
        some right ∧
      Released fm (Rounds.after (LocalVault.next fm) (.fresh handoffs rollback frozen) deeds) now m use who
        right r := by
  have fits := Rounds.keeps (fun _ _ => next_fits) (fresh_fits fm handoffs rollback frozen) honours
  exact released_of_fits fits consumer found released

/-! ## Runs -/

theorem ok_of_isSome {ε α : Type} {x : Except ε α} (some : x.toOption.isSome = true) : ∃ a, x = .ok a := by
  cases x with
  | error e => cases some
  | ok a => exact ⟨a, rfl⟩

namespace Shared

/-- A site as it is kept, and the origin there. -/
def site : String := "https://api.example.com:443"

def api : Origin := ⟨true, .domain "api.example.com", 443⟩

def formats : Formats := .knowing [(site, ⟨true, .exact "api.example.com", 443⟩)]

def key : Selector := .name .user ⟨.server, ""⟩ "API_KEY"

/-- The owner keeps a key of a kind and shares it with a workspace. -/
def shares (kind : Kind) (delivery : Delivery) (narrowed : Option (List String)) : List Deed :=
  [⟨.put (.server "API_KEY" kind [site]) [1] "s1", .owner, 0⟩,
    ⟨.grant ⟨key, ⟨.workspace, "ws"⟩, delivery, none, none, narrowed, none, none⟩ "g1", .owner, 0⟩]

def reached (deeds : List Deed) : LocalVault :=
  Rounds.after (LocalVault.next formats) (.fresh [] false false) deeds

theorem honours_shares {v : LocalVault} {d : Deed} (harmless : (match d.plan formats v with
    | .ok (.write (.create ..) _) => true
    | .ok (.write (.grant g) _) => g.versionSelector.isNone
    | _ => false) = true) : Honours formats v d := by
  intro w planned
  rw [planned] at harmless
  cases w with
  | create => trivial
  | grant g =>
      intro m _ _ k pinned
      change g.versionSelector.isNone = true at harmless
      rw [pinned] at harmless
      cases harmless
  | version | policy | status | revoke => cases harmless

theorem releases_follow_the_rules_fetch :
    ∃ m r right, (reached (shares .apiKey .fetch (some [site]))).resolve formats 0 key (.fetch api)
        (.session "ws" none) = .ok r ∧
      Released formats (reached (shares .apiKey .fetch (some [site]))) 0 m (.fetch api)
        (.session "ws" none) right r := by
  obtain ⟨m, found⟩ :=
    ok_of_isSome (x := (reached (shares .apiKey .fetch (some [site]))).findRow key) (by decide)
  obtain ⟨r, released⟩ := ok_of_isSome (x := (reached (shares .apiKey .fetch (some [site]))).resolve
    formats 0 key (.fetch api) (.session "ws" none)) (by decide)
  have honours : Rounds.Along (LocalVault.next formats) (Honours formats) (.fresh [] false false)
      (shares .apiKey .fetch (some [site])) :=
    ⟨honours_shares (by decide), honours_shares (by decide), trivial⟩
  obtain ⟨right, -, rules⟩ :=
    releases_follow_the_rules formats [] false false honours (by decide) found released
  exact ⟨m, r, right, released, rules⟩

/-- The owner shares a password as env, then lets it go no further than fetch. -/
def lowered : List Deed :=
  shares .password .env none ++ [⟨.setPolicy key { PolicyPatch.nothing with
    defaultDelivery := some .fetch, deliveryCeiling := some .fetch }, .owner, 0⟩]

/-- The workspace still gets it as env. -/
theorem ceiling_outlived :
    ∃ m r, (reached lowered).findRow key = .ok m ∧ m.ns = .user ∧ m.deliveryCeiling = .fetch ∧
      (reached lowered).resolve formats 0 key .env (.session "ws" none) = .ok r ∧
      ∀ right, ¬ Released formats (reached lowered) 0 m .env (.session "ws" none) right r := by
  obtain ⟨m, found⟩ := ok_of_isSome (x := (reached lowered).findRow key) (by decide)
  obtain ⟨r, released⟩ := ok_of_isSome (x := (reached lowered).resolve formats 0 key .env (.session "ws" none))
    (by decide)
  have rules : ((reached lowered).findRow key).toOption.map (fun m => (m.ns, m.deliveryCeiling)) =
      some (.user, .fetch) := by decide
  rw [found] at rules
  obtain ⟨user, ceiling⟩ := Prod.mk.inj (Option.some.inj rules)
  refine ⟨m, r, found, user, ceiling, released, fun right asked => ?_⟩
  have below := asked.ceiling
  rw [show m.deliveryCeiling = .fetch from ceiling] at below
  exact absurd below (by decide)

end Shared

end K2.Vault
