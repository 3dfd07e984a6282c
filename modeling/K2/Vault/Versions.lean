import K2.Lib.Machines
import K2.Vault.Steps

/-! # Versions

A version is stored once and never written over; it goes when its secret is
destroyed. So a secret that isn't destroyed has its latest version.
-/

namespace K2.Vault

section Writes

variable {v v' : LocalVault} {time : String} {w : Write}

theorem get_revoke_older (secretId : String) (keep : Nat) (pk : String × Nat) :
    (v.revokeOlder secretId keep time).versions.get pk = (v.versions.get pk).map fun r =>
      if r.secretId = secretId && r.state = .active && r.version ≠ keep then r.outdated time else r :=
  KeyedTable.get_updateWhere _ _ _ (·.pk_outdated time) pk

/-- A stored version keeps its value, unless its secret is destroyed. -/
theorem apply_versions (ok : w.apply time v = .ok v') {pk : String × Nat} {r : VersionRow}
    (stored : v.versions.get pk = some r)
    (lives : ∀ m, w = .status m → m.id = pk.1 → m.status ≠ .destroyed) :
    ∃ r', v'.versions.get pk = some r' ∧ r'.value = r.value ∧ (r'.state = r.state ∨ r'.state = .revoked) := by
  cases w with
  | create m value stamp =>
      obtain ⟨-, absent, rfl⟩ := create_spec ok
      refine ⟨r, ?_, rfl, .inl rfl⟩
      rw [KeyedTable.get_upsert, if_neg]
      · exact stored
      · rintro rfl
        exact Option.some_ne_none r (stored.symm.trans absent)
  | version m value stamp =>
      obtain ⟨absent, rfl⟩ := version_spec ok
      have old : (v.versions.upsert ⟨m.id, m.latestVersion, value, time, stamp, .active, none⟩).get pk =
          some r := by
        rw [KeyedTable.get_upsert, if_neg]
        · exact stored
        · rintro rfl
          exact Option.some_ne_none r (stored.symm.trans absent)
      refine ⟨_, (get_revoke_older m.id m.latestVersion pk).trans (congrArg _ old), ?_⟩
      dsimp only
      split
      · exact ⟨rfl, .inr rfl⟩
      · exact ⟨rfl, .inl rfl⟩
  | policy m =>
      cases ok
      exact ⟨r, stored, rfl, .inl rfl⟩
  | status m =>
      cases ok
      refine ⟨r, ?_, rfl, .inl rfl⟩
      simp only [LocalVault.updateSecret]
      split
      · rename_i destroyed
        have key := KeyedTable.key_of_get stored
        have other : r.secretId ≠ m.id := fun same =>
          lives m rfl (by rw [← key]; exact same.symm) destroyed
        simp only [LocalVault.forget, KeyedTable.get_deleteWhere, stored]
        simp [other]
      · exact stored
  | grant g =>
      obtain ⟨grants, rfl, -⟩ := put_grant_spec ok
      exact ⟨r, stored, rfl, .inl rfl⟩
  | revoke grantId =>
      cases ok
      exact ⟨r, stored, rfl, .inl rfl⟩

theorem version_stored {m : SecretMeta} {value : Bytes} {stamp : String}
    (ok : (Write.version m value stamp).apply time v = .ok v') :
    v.versions.get (m.id, m.latestVersion) = none ∧
      v'.versions.get (m.id, m.latestVersion) =
        some ⟨m.id, m.latestVersion, value, time, stamp, .active, none⟩ := by
  obtain ⟨absent, rfl⟩ := version_spec ok
  have new : (v.versions.upsert ⟨m.id, m.latestVersion, value, time, stamp, .active, none⟩).get
      (m.id, m.latestVersion) = some ⟨m.id, m.latestVersion, value, time, stamp, .active, none⟩ :=
    (KeyedTable.get_upsert _ _ _).trans (if_pos rfl)
  refine ⟨absent, (get_revoke_older m.id m.latestVersion _).trans ?_⟩
  rw [new]
  simp

theorem create_stored {m : SecretMeta} {value : Bytes} {stamp : String}
    (ok : (Write.create m value stamp).apply time v = .ok v') :
    v'.versions.get (m.id, 1) = some ⟨m.id, 1, value, time, stamp, .active, none⟩ := by
  obtain ⟨-, -, rfl⟩ := create_spec ok
  exact (KeyedTable.get_upsert _ _ _).trans (if_pos rfl)

end Writes

/-! ## Sound vaults -/

/-- The version can be opened. -/
def LocalVault.Opens (v : LocalVault) (id : String) (version : Nat) : Prop :=
  ∃ r, v.versions.get (id, version) = some r ∧ r.state ≠ .destroyed

/-- Every secret that isn't destroyed has its latest version. -/
def Sound (v : LocalVault) : Prop :=
  ∀ id m, v.secrets.get id = some m → m.status ≠ .destroyed → v.Opens m.id m.latestVersion

section Sound

variable {v v' : LocalVault} {time : String} {w : Write}

theorem decrypt_of_opens {m : SecretMeta} {version : Nat} (opens : v.Opens m.id version) :
    ∃ value, v.decryptVersion m version = .ok value := by
  obtain ⟨r, stored, alive⟩ := opens
  exact ⟨r.value, by simp only [LocalVault.decryptVersion, stored, if_neg alive]⟩

theorem opens_kept (ok : w.apply time v = .ok v') {id : String} {version : Nat} (opens : v.Opens id version)
    (lives : ∀ m, w = .status m → m.id = id → m.status ≠ .destroyed) : v'.Opens id version := by
  obtain ⟨r, stored, alive⟩ := opens
  obtain ⟨r', kept, -, state⟩ := apply_versions ok stored lives
  refine ⟨r', kept, ?_⟩
  rcases state with same | revoked
  · rwa [same]
  · rw [revoked]
    exact VersionState.noConfusion

theorem fresh_sound (handoffs : List Handoff) (rollback frozen : Bool) :
    Sound (.fresh handoffs rollback frozen) :=
  fun _ _ found => nomatch found

theorem sound_create {actor : Actor} {m : SecretMeta} {value : Bytes} (sound : Sound v)
    (creates : Creates actor m) (ok : (Write.create m value actor.stamp).apply time v = .ok v') : Sound v' := by
  intro id m' found alive
  rw [(create_get ok id).2] at found
  split at found
  · cases found
    rw [creates.first]
    exact ⟨_, create_stored ok, VersionState.noConfusion⟩
  · apply opens_kept ok (sound id m' found alive)
    intro m'' same
    cases same

/-- The row a write is about keeps its latest version, or has a new one. -/
theorem opens_rewritten {fm : Formats} {actor : Actor} {row : SecretMeta} {facts : Facts}
    (allows : Allows fm actor row facts w) (ok : w.apply time v = .ok v')
    (opens : row.status ≠ .destroyed → v.Opens row.id row.latestVersion)
    (alive : (w.rewritten row).status ≠ .destroyed) :
    v'.Opens (w.rewritten row).id (w.rewritten row).latestVersion := by
  rw [allows_rewritten allows] at alive ⊢
  cases allows with
  | version revives may => exact ⟨_, (version_stored ok).2, VersionState.noConfusion⟩
  | policy live => exact opens_kept ok (opens live) fun _ same => nomatch same
  | status live =>
      refine opens_kept ok (opens live) fun m same _ => ?_
      cases same
      exact alive
  | grant | revoke => exact opens_kept ok (opens alive) fun _ same => nomatch same

theorem sound_write {fm : Formats} {actor : Actor} {row : SecretMeta} {facts : Facts} (sound : Sound v)
    (stored : v.secrets.get row.id = some row) (allows : Allows fm actor row facts w)
    (ok : w.apply time v = .ok v') : Sound v' := by
  intro id m found alive
  rw [apply_get ok (allows_existing allows), Option.map_eq_some_iff] at found
  obtain ⟨r, before, rfl⟩ := found
  by_cases same : r.id = row.id
  · obtain rfl := v.secrets.eq_of_key (KeyedTable.mem_of_get before) (KeyedTable.mem_of_get stored) same
    exact opens_rewritten allows ok (sound _ _ stored) alive
  · rw [allows_elsewhere allows same] at alive ⊢
    refine opens_kept ok (sound id r before alive) fun m written its => ?_
    obtain ⟨ofRow, -⟩ := allows_written allows (m := m) (by rw [written]; rfl)
    exact absurd (its.symm.trans ofRow) same

theorem next_sound {fm : Formats} {d : Deed} (sound : Sound v) : Sound (v.next fm d) := by
  rcases act_cases fm v d with same | ⟨w, planned, ok⟩
  · rwa [LocalVault.next, same]
  · rcases plan_allows planned with ⟨m, value, rfl, creates⟩ | ⟨row, stored, allows, -⟩
    · exact sound_create sound creates ok
    · exact sound_write sound stored allows ok

end Sound

end K2.Vault
