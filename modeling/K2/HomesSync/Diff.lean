import K2.HomesSync.Engine

/-! # What a diff leaves known

After a diff the known live items are those of the wire view, each with the view's
order key and name, and every other one is a tombstone.
-/

namespace K2.HomesSync

open K2.Homes (OrderError)
open K2.Homes.FractionalIndex (assignOrders Spaced assignOrders_ok_iff assignOrders_again assignOrders_laid)

/-! ## Items -/

@[simp] theorem itemKey_stamped (v : WireItem) (time : Int) (deviceId : String) :
    itemKey (v.stamped time deviceId) = itemKey v := by cases v <;> rfl

@[simp] theorem deleted_stamped (v : WireItem) (time : Int) (deviceId : String) :
    (v.stamped time deviceId).deleted = v.deleted := by cases v <;> rfl

@[simp] theorem itemKey_buried (v : WireItem) : itemKey v.buried = itemKey v := by cases v <;> rfl

@[simp] theorem deleted_buried (v : WireItem) : v.buried.deleted = true := by cases v <;> rfl

theorem stamped_same (v : WireItem) (time : Int) (deviceId : String) :
    syncedFieldsDiffer v (v.stamped time deviceId) = false := by
  cases v <;> simp [syncedFieldsDiffer, WireItem.stamped, WireItem.order]

theorem order_of_same {v known : WireItem} (same : syncedFieldsDiffer v known = false) : known.order = v.order := by
  by_contra apart
  unfold syncedFieldsDiffer at same
  rw [if_pos (Ne.symm apart)] at same
  cases same

namespace SyncState

theorem live_queue (st : SyncState) (item : WireItem) (key : String) :
    (st.queue item).live key = if itemKey item = key then (some item).filter (!·.deleted) else st.live key := by
  rw [live, queue, KeyedTable.get_upsert]
  split <;> rfl

theorem live_eq_some {st : SyncState} {key : String} {item : WireItem} :
    st.live key = some item ↔ item ∈ st.known.rows ∧ itemKey item = key ∧ item.deleted = false := by
  rw [live, Option.filter_eq_some_iff, KeyedTable.get_eq_some, Bool.not_eq_true', and_assoc]

end SyncState

/-! ## The diff -/

/-- What is known of a view item: its version of the edit, or one that syncs the same. -/
def Tells (prev : SyncState) (v x : WireItem) : Prop :=
  (∃ time deviceId, x = v.stamped time deviceId) ∨ prev.live (itemKey v) = some x ∧ syncedFieldsDiffer v x = false

theorem Tells.same {prev : SyncState} {v x : WireItem} (tells : Tells prev v x) : syncedFieldsDiffer v x = false := by
  rcases tells with ⟨time, deviceId, rfl⟩ | ⟨-, same⟩
  · exact stamped_same v time deviceId
  · exact same

section Diff

variable {ctx : EngineCtx}

variable (ctx) in
theorem diffItem_live (acc : SyncState × List WireItem) {v : WireItem} (there : v.deleted = false) :
    (∀ key, key ≠ itemKey v → (diffItem ctx acc v).1.live key = acc.1.live key) ∧
      ∃ x, (diffItem ctx acc v).1.live (itemKey v) = some x ∧ Tells acc.1 v x := by
  have queued (time : Int) (deviceId : String) (key : String) : (acc.1.queue (v.stamped time deviceId)).live key =
      if itemKey v = key then some (v.stamped time deviceId) else acc.1.live key := by
    rw [SyncState.live_queue, itemKey_stamped, Option.filter_some, deleted_stamped, there]
    rfl
  rw [diffItem]
  cases known : acc.1.live (itemKey v) with
  | none =>
      dsimp only
      refine ⟨fun key apart => by rw [queued, if_neg (Ne.symm apart)], _, by rw [queued, if_pos rfl], ?_⟩
      exact .inl ⟨_, _, rfl⟩
  | some k =>
      dsimp only
      cases differ : syncedFieldsDiffer v k with
      | true =>
          rw [if_pos rfl]
          refine ⟨fun key apart => by rw [queued, if_neg (Ne.symm apart)], _, by rw [queued, if_pos rfl], ?_⟩
          exact .inl ⟨_, _, rfl⟩
      | false => exact ⟨fun key apart => rfl, k, known, .inr ⟨known, differ⟩⟩

variable (ctx) in
theorem diffItems_live {items : List WireItem} (distinct : (items.map itemKey).Nodup)
    (there : ∀ v ∈ items, v.deleted = false) (acc : SyncState × List WireItem) :
    (∀ key, key ∉ items.map itemKey → (items.foldl (diffItem ctx) acc).1.live key = acc.1.live key) ∧
      ∀ v ∈ items, ∃ x, (items.foldl (diffItem ctx) acc).1.live (itemKey v) = some x ∧ Tells acc.1 v x := by
  induction items generalizing acc with
  | nil => exact ⟨fun _ _ => rfl, nofun⟩
  | cons v rest ih =>
      rw [List.map_cons, List.nodup_cons] at distinct
      obtain ⟨others, own⟩ := diffItem_live ctx acc (there v List.mem_cons_self)
      obtain ⟨apart, told⟩ := ih distinct.2 (fun x mem => there x (List.mem_cons_of_mem v mem)) (diffItem ctx acc v)
      rw [List.foldl_cons]
      refine ⟨fun key absent => ?_, List.forall_mem_cons.mpr ⟨?_, fun w mem => ?_⟩⟩
      · rw [List.map_cons, List.mem_cons, not_or] at absent
        rw [apart key absent.2, others key absent.1]
      · rw [apart _ distinct.1]
        exact own
      · have other : itemKey w ≠ itemKey v := fun same => distinct.1 (same ▸ List.mem_map_of_mem mem)
        obtain ⟨x, live, tells⟩ := told w mem
        refine ⟨x, live, tells.imp_right fun old => ⟨?_, old.2⟩⟩
        rw [← others _ other]
        exact old.1

theorem buryItem_live (view : KeyedTable itemKey) (acc : SyncState × List WireItem) (known : WireItem) (key : String) :
    (buryItem ctx view acc known).1.live key =
      if known.deleted = false ∧ view.get (itemKey known) = none ∧ itemKey known = key then none else acc.1.live key := by
  rw [buryItem]
  by_cases stays : (known.deleted || (view.get (itemKey known)).isSome) = true
  · rw [if_pos stays, if_neg]
    rintro ⟨live, absent, -⟩
    rw [live, absent] at stays
    cases stays
  · rw [if_neg stays]
    rw [Bool.not_eq_true, Bool.or_eq_false_iff] at stays
    dsimp only
    rw [SyncState.live_queue, itemKey_stamped, itemKey_buried]
    by_cases own : itemKey known = key
    · rw [if_pos own, if_pos ⟨stays.1, Option.isSome_eq_false_iff.mp stays.2 |> Option.isNone_iff_eq_none.mp, own⟩,
        Option.filter_some, deleted_stamped, deleted_buried]
      rfl
    · rw [if_neg own, if_neg fun all => own all.2.2]

theorem buryItems_live (view : KeyedTable itemKey) (rows : List WireItem) (acc : SyncState × List WireItem) (key : String) :
    (rows.foldl (buryItem ctx view) acc).1.live key =
      if ∃ x ∈ rows, x.deleted = false ∧ view.get (itemKey x) = none ∧ itemKey x = key then none else acc.1.live key := by
  induction rows generalizing acc with
  | nil => rw [if_neg (by simp)]; rfl
  | cons known rest ih =>
      rw [List.foldl_cons, ih, buryItem_live]
      by_cases later : ∃ x ∈ rest, x.deleted = false ∧ view.get (itemKey x) = none ∧ itemKey x = key
      · obtain ⟨x, mem, all⟩ := later
        rw [if_pos ⟨x, mem, all⟩, if_pos ⟨x, List.mem_cons_of_mem _ mem, all⟩]
      · rw [if_neg later]
        refine if_congr ?_ rfl rfl
        rw [List.exists_mem_cons_iff, or_iff_left later]

theorem diffLocal_live {homes : List Home} {prev st : SyncState} {changes : List WireItem}
    (diff : diffLocal ctx homes prev = .ok (st, changes)) :
    ∃ view, localView prev ctx.toAddressMap homes = .ok view ∧ ((∀ v ∈ view.rows, v.deleted = false) →
      (∀ key, view.get key = none → st.live key = none) ∧
        ∀ v ∈ view.rows, ∃ x, st.live (itemKey v) = some x ∧ Tells prev v x) := by
  obtain ⟨view, made, finished⟩ := bind_eq_ok.mp diff
  refine ⟨view, made, fun there => ?_⟩
  obtain ⟨others, own⟩ := diffItems_live ctx view.distinct there (prev, [])
  have result := congrArg (fun r : SyncState × List WireItem => r.1) (Except.ok.inj finished)
  dsimp only at result
  constructor
  · intro key absent
    rw [← result, buryItems_live]
    split
    next => rfl
    next none_left =>
      by_contra live
      obtain ⟨x, live⟩ := Option.ne_none_iff_exists'.mp live
      obtain ⟨mem, own, there⟩ := SyncState.live_eq_some.mp live
      exact none_left ⟨x, mem, there, own ▸ absent, own⟩
  · intro v mem
    obtain ⟨x, live, tells⟩ := own v mem
    refine ⟨x, ?_, tells⟩
    rw [← result, buryItems_live, if_neg]
    · exact live
    · rintro ⟨y, -, -, absent, same⟩
      rw [same, KeyedTable.get_of_mem mem] at absent
      cases absent

/-- A diff that finds all of the view known and nothing else live queues nothing. -/
theorem diffLocal_quiet {homes : List Home} {st : SyncState} {view : KeyedTable itemKey}
    (made : localView st ctx.toAddressMap homes = .ok view) (absent : ∀ key, view.get key = none → st.live key = none)
    (told : ∀ v ∈ view.rows, ∃ x, st.live (itemKey v) = some x ∧ syncedFieldsDiffer v x = false) :
    diffLocal ctx homes st = .ok (st, []) := by
  have edits : ∀ items : List WireItem, (∀ v ∈ items, v ∈ view.rows) → items.foldl (diffItem ctx) (st, []) = (st, []) := by
    intro items
    induction items with
    | nil => exact fun _ => rfl
    | cons v rest ih =>
        intro within
        obtain ⟨x, live, same⟩ := told v (within v List.mem_cons_self)
        rw [List.foldl_cons, diffItem, live]
        dsimp only
        rw [same, if_neg Bool.false_ne_true]
        exact ih fun w mem => within w (List.mem_cons_of_mem v mem)
  have burials : ∀ rows : List WireItem, (∀ x ∈ rows, x ∈ st.known.rows) →
      rows.foldl (buryItem ctx view) (st, []) = (st, []) := by
    intro rows
    induction rows with
    | nil => exact fun _ => rfl
    | cons x rest ih =>
        intro within
        have stays : (x.deleted || (view.get (itemKey x)).isSome) = true := by
          by_contra gone
          rw [Bool.not_eq_true, Bool.or_eq_false_iff, Option.isSome_eq_false_iff, Option.isNone_iff_eq_none] at gone
          have live := SyncState.live_eq_some.mpr ⟨within x List.mem_cons_self, rfl, gone.1⟩
          rw [absent _ gone.2] at live
          cases live
        rw [List.foldl_cons, buryItem, if_pos stays]
        exact ih fun w mem => within w (List.mem_cons_of_mem x mem)
  refine bind_eq_ok.mpr ⟨view, made, ?_⟩
  dsimp only
  rw [edits view.rows fun _ => id, burials st.known.rows fun _ => id]

end Diff

end K2.HomesSync
