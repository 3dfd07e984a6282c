import K2.HomesSync.Build

/-! # There and back

Local Homes turned into known items are read back as they were, up to labels and
workspace ids: those are looked up by address alone, in all Homes at once.
-/

namespace K2.HomesSync

open K2.Homes (OrderError)
open K2.Homes.FractionalIndex (assignOrders Spaced assignOrders_ok_iff assignOrders_again assignOrders_laid)

/-! ## Keys -/

theorem homeKey_injective {id id' : String} (same : homeKey id = homeKey id') : id = id' := by
  simpa [homeKey] using same

theorem homeKey_ne_rowKey (id homeId address : String) : homeKey id ≠ rowKey homeId address := by
  intro same
  have first := congrArg (fun s : String => s.toList.head?) same
  simp [homeKey, rowKey] at first

theorem kind_home {x : WireItem} {id : String} (key : itemKey x = homeKey id) : ∃ h, x = .home h ∧ h.id = id := by
  cases x with
  | home h => exact ⟨h, rfl, homeKey_injective key⟩
  | row r => exact (homeKey_ne_rowKey _ _ _ key.symm).elim

theorem kind_row {x : WireItem} {homeId address : String} (key : itemKey x = rowKey homeId address) :
    ∃ r, x = .row r ∧ rowKey r.homeId r.address = rowKey homeId address := by
  cases x with
  | home h => exact (homeKey_ne_rowKey _ _ _ key).elim
  | row r => exact ⟨r, rfl, key⟩

/-! ## The view -/

/-- A Home with the keys it and its rows were given. -/
structure Seen where
  home : Home
  order : String
  orders : List String

namespace Seen

def homeItem (s : Seen) : WireItem := .home ⟨s.home.id, some s.home.name, s.order, 0, none, false, none⟩

def items (toWire : String → String) (s : Seen) : List WireItem :=
  s.homeItem :: (wireRows toWire [] s.home.rows).zipWith (viewRow s.home.id) s.orders

end Seen

section View

variable {st : SyncState} {ctx : AddressMap}

variable (st ctx) in
/-- The rows of a Home are given these keys. -/
def Given (s : Seen) : Prop :=
  assignOrders (wireRows ctx.toWire [] s.home.rows).length
    (rowOrder st s.home.id (wireRows ctx.toWire [] s.home.rows)) = .ok s.orders

theorem viewHome_ok {h : Home} {order : String} {items : List WireItem} :
    viewHome st ctx h order = .ok items ↔ ∃ orders, Given st ctx ⟨h, order, orders⟩ ∧
      items = Seen.items ctx.toWire ⟨h, order, orders⟩ := by
  rw [viewHome, bind_eq_ok]
  exact exists_congr fun orders => and_congr_right fun _ => by
    rw [Except.ok.injEq]
    exact eq_comm

theorem viewHomes_ok {pairs : List (Home × String)} {items : List WireItem} :
    viewHomes st ctx pairs = .ok items ↔ ∃ seen : List Seen, seen.map (fun s => (s.home, s.order)) = pairs ∧
      (∀ s ∈ seen, Given st ctx s) ∧ items = seen.flatMap (Seen.items ctx.toWire) := by
  induction pairs generalizing items with
  | nil =>
      rw [viewHomes, Except.ok.injEq]
      constructor
      · rintro rfl
        exact ⟨[], rfl, nofun, rfl⟩
      · rintro ⟨seen, none_seen, -, rfl⟩
        rw [List.map_eq_nil_iff.mp none_seen]
        rfl
  | cons pair rest ih =>
      obtain ⟨h, order⟩ := pair
      rw [viewHomes, bind_eq_ok]
      constructor
      · rintro ⟨own, made, later⟩
        obtain ⟨others, made', same⟩ := bind_eq_ok.mp later
        obtain ⟨orders, given, rfl⟩ := viewHome_ok.mp made
        obtain ⟨seen, pairs, all, rfl⟩ := ih.mp made'
        refine ⟨⟨h, order, orders⟩ :: seen, by rw [List.map_cons, pairs], List.forall_mem_cons.mpr ⟨given, all⟩, ?_⟩
        exact (Except.ok.inj same).symm
      · rintro ⟨seen, pairs, all, rfl⟩
        cases seen with
        | nil => cases pairs
        | cons s seen =>
            obtain ⟨first, others⟩ := List.cons.inj pairs
            obtain ⟨rfl, rfl⟩ := Prod.mk.inj first
            refine ⟨_, viewHome_ok.mpr ⟨s.orders, all s List.mem_cons_self, rfl⟩, ?_⟩
            exact bind_eq_ok.mpr ⟨_, ih.mpr ⟨seen, others, fun x mem => all x (List.mem_cons_of_mem s mem), rfl⟩, rfl⟩

theorem localView_ok {homes : List Home} {view : KeyedTable itemKey} :
    localView st ctx homes = .ok view ↔ ∃ seen : List Seen, seen.map (·.home) = homes ∧
      assignOrders homes.length (homeOrder st homes) = .ok (seen.map (·.order)) ∧ (∀ s ∈ seen, Given st ctx s) ∧
      view = (seen.flatMap (Seen.items ctx.toWire)).foldl KeyedTable.upsert .empty := by
  rw [localView, bind_eq_ok]
  constructor
  · rintro ⟨orders, assigned, later⟩
    obtain ⟨items, made, same⟩ := bind_eq_ok.mp later
    obtain ⟨seen, pairs, all, rfl⟩ := viewHomes_ok.mp made
    have length := (assignOrders_laid assigned).length
    have first := congrArg (List.map Prod.fst) pairs
    have second := congrArg (List.map Prod.snd) pairs
    rw [List.map_map, List.map_fst_zip (by omega)] at first
    rw [List.map_map, List.map_snd_zip (by omega)] at second
    exact ⟨seen, first, second ▸ assigned, all, (Except.ok.inj same).symm⟩
  · rintro ⟨seen, rfl, assigned, all, rfl⟩
    exact ⟨_, assigned, bind_eq_ok.mpr ⟨_, viewHomes_ok.mpr ⟨seen, List.zip_map'.symm, all, rfl⟩, rfl⟩⟩

end View

/-! ## What tells items apart -/

section Distinct

variable {st : SyncState} {ctx : AddressMap} {homes : List Home}

/-- A row of the local Homes, or a known one: its Home and its wire address. -/
def Named (st : SyncState) (ctx : AddressMap) (homes : List Home) (x : String × String) : Prop :=
  (∃ h ∈ homes, ∃ r ∈ h.rows, x = (h.id, ctx.toWire r.address)) ∨
    ∃ r, .row r ∈ st.known.rows ∧ x = (r.homeId, r.address)

/-- Homes with different ids and in each of them rows with different addresses,
    which the address map reads back; and row keys that tell rows apart. -/
structure Distinct (st : SyncState) (ctx : AddressMap) (homes : List Home) : Prop where
  ids : (homes.map (·.id)).Nodup
  addresses : ∀ h ∈ homes, (h.rows.map (·.address)).Nodup
  inverse : ∀ h ∈ homes, ∀ r ∈ h.rows, ctx.fromWire (ctx.toWire r.address) = r.address
  apart : ∀ x y, Named st ctx homes x → Named st ctx homes y → rowKey x.1 x.2 = rowKey y.1 y.2 → x = y

theorem wireRows_eq {toWire : String → String} {rows : List HomeRow} {seen : List String}
    (distinct : (rows.map fun r => toWire r.address).Nodup) (new : ∀ r ∈ rows, toWire r.address ∉ seen) :
    wireRows toWire seen rows = rows.map fun r => (r, toWire r.address) := by
  induction rows generalizing seen with
  | nil => rfl
  | cons r rest ih =>
      rw [List.map_cons, List.nodup_cons] at distinct
      rw [wireRows, if_neg (new r List.mem_cons_self), List.map_cons, ih distinct.2]
      intro r' mem
      rw [List.mem_cons, not_or]
      exact ⟨fun same => distinct.1 (same ▸ List.mem_map_of_mem mem), new r' (List.mem_cons_of_mem r mem)⟩

theorem Distinct.wire (distinct : Distinct st ctx homes) {h : Home} (mem : h ∈ homes) :
    (h.rows.map fun r => ctx.toWire r.address).Nodup := by
  have addresses := distinct.addresses h mem
  have wire : ((h.rows.map (·.address)).map ctx.toWire).Nodup := by
    refine addresses.map_on fun a listed b listed' same => ?_
    obtain ⟨r, there, rfl⟩ := List.mem_map.mp listed
    obtain ⟨r', there', rfl⟩ := List.mem_map.mp listed'
    rw [← distinct.inverse h mem r there, same, distinct.inverse h mem r' there']
  rwa [List.map_map] at wire

theorem Distinct.wireRows (distinct : Distinct st ctx homes) {h : Home} (mem : h ∈ homes) :
    wireRows ctx.toWire [] h.rows = h.rows.map fun r => (r, ctx.toWire r.address) :=
  wireRows_eq (distinct.wire mem) fun _ _ => List.not_mem_nil

/-- A row's item. -/
def Seen.rowItem (toWire : String → String) (s : Seen) (p : HomeRow × String) : WireItem :=
  viewRow s.home.id (p.1, toWire p.1.address) p.2

theorem Distinct.items (distinct : Distinct st ctx homes) {s : Seen} (mem : s.home ∈ homes) :
    s.items ctx.toWire = s.homeItem :: (s.home.rows.zip s.orders).map (s.rowItem ctx.toWire) := by
  rw [Seen.items, distinct.wireRows mem, List.zipWith_map_left, ← List.map_uncurry_zip_eq_zipWith]
  rfl

theorem Distinct.given_length (distinct : Distinct st ctx homes) {prev : SyncState} {s : Seen} (mem : s.home ∈ homes)
    (given : Given prev ctx s) : s.orders.length = s.home.rows.length := by
  have length := (assignOrders_laid given).length
  rwa [distinct.wireRows mem, List.length_map] at length

theorem Distinct.keys (distinct : Distinct st ctx homes) {prev : SyncState} {s : Seen} (mem : s.home ∈ homes)
    (given : Given prev ctx s) : (s.items ctx.toWire).map itemKey =
      homeKey s.home.id :: s.home.rows.map fun r => rowKey s.home.id (ctx.toWire r.address) := by
  rw [distinct.items mem, List.map_cons, List.map_map]
  refine congrArg (homeKey s.home.id :: ·) ?_
  have rows : (s.home.rows.zip s.orders).map Prod.fst = s.home.rows :=
    List.map_fst_zip (distinct.given_length mem given).ge
  conv_rhs => rw [← rows, List.map_map]
  rfl

theorem Distinct.items_nodup (distinct : Distinct st ctx homes) {prev : SyncState} {seen : List Seen}
    (same : seen.map (·.home) = homes) (given : ∀ s ∈ seen, Given prev ctx s) :
    ((seen.flatMap (Seen.items ctx.toWire)).map itemKey).Nodup := by
  have member : ∀ s ∈ seen, s.home ∈ homes := fun s mem => same ▸ List.mem_map_of_mem mem
  rw [List.map_flatMap, List.nodup_flatMap]
  constructor
  · intro s mem
    rw [distinct.keys (member s mem) (given s mem), List.nodup_cons]
    refine ⟨fun listed => ?_, ?_⟩
    · obtain ⟨r, -, key⟩ := List.mem_map.mp listed
      exact homeKey_ne_rowKey _ _ _ key.symm
    · have wire := distinct.wire (member s mem)
      rw [List.Nodup, List.pairwise_map] at wire ⊢
      refine wire.imp_of_mem fun {r r'} there there' other key => other ?_
      have named (r : HomeRow) (there : r ∈ s.home.rows) : Named st ctx homes (s.home.id, ctx.toWire r.address) :=
        .inl ⟨s.home, member s mem, r, there, rfl⟩
      exact (Prod.mk.inj (distinct.apart _ _ (named r there) (named r' there') key)).2
  · have ids : seen.Pairwise fun s s' => s.home.id ≠ s'.home.id := by
      have ids := distinct.ids
      rw [← same, List.map_map, List.Nodup, List.pairwise_map] at ids
      exact ids
    refine ids.imp_of_mem fun {s s'} mem mem' other key listed listed' => other ?_
    dsimp only at listed listed'
    rw [distinct.keys (member s mem) (given s mem), List.mem_cons, List.mem_map] at listed
    rw [distinct.keys (member s' mem') (given s' mem'), List.mem_cons, List.mem_map] at listed'
    rcases listed with rfl | ⟨r, there, rfl⟩ <;> rcases listed' with key | ⟨r', there', key⟩
    · exact homeKey_injective key
    · exact (homeKey_ne_rowKey _ _ _ key.symm).elim
    · exact (homeKey_ne_rowKey _ _ _ key.symm).elim
    · exact (Prod.mk.inj (distinct.apart _ _ (.inl ⟨s'.home, member s' mem', r', there', rfl⟩)
        (.inl ⟨s.home, member s mem, r, there, rfl⟩) key)).1.symm

theorem Distinct.view_rows (distinct : Distinct st ctx homes) {prev : SyncState} {seen : List Seen}
    (same : seen.map (·.home) = homes) (given : ∀ s ∈ seen, Given prev ctx s) :
    ((seen.flatMap (Seen.items ctx.toWire)).foldl KeyedTable.upsert .empty : KeyedTable itemKey).rows =
      seen.flatMap (Seen.items ctx.toWire) :=
  KeyedTable.rows_foldl_upsert .empty (distinct.items_nodup same given)

/-! ## The state after a diff -/

/-- The known live items are those of the view, with its names and order keys. -/
structure After (st : SyncState) (ctx : AddressMap) (seen : List Seen) : Prop where
  homes : ∀ s ∈ seen, ∃ x, st.live (homeKey s.home.id) = some (.home x) ∧ x.id = s.home.id ∧
    x.name = some s.home.name ∧ x.order = s.order
  rows : ∀ s ∈ seen, ∀ p ∈ s.home.rows.zip s.orders, ∃ x, st.live (rowKey s.home.id (ctx.toWire p.1.address)) = some (.row x) ∧
    x.homeId = s.home.id ∧ x.address = ctx.toWire p.1.address ∧ x.order = p.2
  only : ∀ key item, st.live key = some item → key ∈ (seen.flatMap (Seen.items ctx.toWire)).map itemKey

theorem Tells.home {prev : SyncState} {s : Seen} {x : WireItem} (tells : Tells prev s.homeItem x) :
    ∃ h, x = .home h ∧ h.id = s.home.id ∧ h.name = some s.home.name ∧ h.order = s.order := by
  have order := order_of_same tells.same
  rcases tells with ⟨time, deviceId, rfl⟩ | ⟨known, same⟩
  · exact ⟨_, rfl, rfl, rfl, rfl⟩
  · obtain ⟨h, rfl, id⟩ := kind_home (SyncState.live_eq_some.mp known).2.1
    refine ⟨h, rfl, id, ?_, order⟩
    unfold syncedFieldsDiffer at same
    rw [if_neg (not_not.mpr order.symm)] at same
    exact (not_not.mp (of_decide_eq_false same)).symm

theorem Distinct.row (distinct : Distinct st ctx homes) {s : Seen} (mem : s.home ∈ homes) {p : HomeRow × String}
    (listed : p.1 ∈ s.home.rows) {x : WireItem} (tells : Tells st (s.rowItem ctx.toWire p) x) :
    ∃ r, x = .row r ∧ r.homeId = s.home.id ∧ r.address = ctx.toWire p.1.address ∧ r.order = p.2 := by
  have order := order_of_same tells.same
  rcases tells with ⟨time, deviceId, rfl⟩ | ⟨known, -⟩
  · exact ⟨_, rfl, rfl, rfl, rfl⟩
  · obtain ⟨there, key, -⟩ := SyncState.live_eq_some.mp known
    obtain ⟨r, rfl, key⟩ := kind_row key
    obtain ⟨id, address⟩ := Prod.mk.inj (distinct.apart (r.homeId, r.address) (s.home.id, ctx.toWire p.1.address)
      (.inr ⟨r, there, rfl⟩) (.inl ⟨s.home, mem, p.1, listed, rfl⟩) key)
    exact ⟨r, rfl, id, address, order⟩

end Distinct

section After

variable {prev st : SyncState} {ctx : EngineCtx} {homes : List Home} {changes : List WireItem} {seen : List Seen}

theorem diffLocal_after (distinct : Distinct prev ctx.toAddressMap homes)
    (diff : diffLocal ctx homes prev = .ok (st, changes)) :
    ∃ seen : List Seen, seen.map (·.home) = homes ∧
      assignOrders homes.length (homeOrder prev homes) = .ok (seen.map (·.order)) ∧
      (∀ s ∈ seen, Given prev ctx.toAddressMap s) ∧ After st ctx.toAddressMap seen := by
  obtain ⟨view, made, live⟩ := diffLocal_live diff
  obtain ⟨seen, same, assigned, given, rfl⟩ := localView_ok.mp made
  have member : ∀ s ∈ seen, s.home ∈ homes := fun s mem => same ▸ List.mem_map_of_mem mem
  rw [distinct.view_rows same given] at live
  have items : ∀ s ∈ seen, ∀ v, v ∈ s.items ctx.toWire ↔
      v = s.homeItem ∨ ∃ p ∈ s.home.rows.zip s.orders, s.rowItem ctx.toWire p = v := by
    intro s mem v
    rw [distinct.items (member s mem), List.mem_cons, List.mem_map]
  obtain ⟨gone, told⟩ := live (by
    intro v listed
    obtain ⟨s, mem, own⟩ := List.mem_flatMap.mp listed
    rcases (items s mem v).mp own with rfl | ⟨p, -, rfl⟩ <;> rfl)
  refine ⟨seen, same, assigned, given, ?_, ?_, ?_⟩
  · intro s mem
    obtain ⟨x, live, tells⟩ := told s.homeItem (List.mem_flatMap.mpr ⟨s, mem, (items s mem _).mpr (.inl rfl)⟩)
    obtain ⟨h, rfl, all⟩ := tells.home
    exact ⟨h, live, all⟩
  · intro s mem p listed
    obtain ⟨x, live, tells⟩ := told (s.rowItem ctx.toWire p)
      (List.mem_flatMap.mpr ⟨s, mem, (items s mem _).mpr (.inr ⟨p, listed, rfl⟩)⟩)
    obtain ⟨r, rfl, all⟩ := distinct.row (member s mem) (List.of_mem_zip listed).1 tells
    exact ⟨r, live, all⟩
  · intro key item there
    by_contra absent
    have none_found : ((seen.flatMap (Seen.items ctx.toWire)).foldl KeyedTable.upsert .empty :
        KeyedTable itemKey).get key = none := by
      rw [KeyedTable.get_eq_none, distinct.view_rows same given]
      exact fun v mem key => absent (key ▸ List.mem_map_of_mem mem)
    rw [gone key none_found] at there
    cases there

theorem After.homeOrder (after : After st ctx.toAddressMap seen) (same : seen.map (·.home) = homes) :
    homeOrder st homes = ((seen.map (·.order))[·]?) := by
  funext i
  rw [K2.HomesSync.homeOrder, ← same, List.getElem?_map, List.getElem?_map]
  cases found : seen[i]? with
  | none => rfl
  | some s =>
      obtain ⟨x, live, -, -, order⟩ := after.homes s (List.mem_of_getElem? found)
      change st.liveOrder (homeKey s.home.id) = some s.order
      rw [SyncState.liveOrder, live]
      exact congrArg some order

theorem After.given (after : After st ctx.toAddressMap seen) (distinct : Distinct prev ctx.toAddressMap homes)
    (same : seen.map (·.home) = homes) (given : ∀ s ∈ seen, Given prev ctx.toAddressMap s) :
    ∀ s ∈ seen, Given st ctx.toAddressMap s := by
  intro s mem
  have member : s.home ∈ homes := same ▸ List.mem_map_of_mem mem
  have length := distinct.given_length member (given s mem)
  suffices known : rowOrder st s.home.id (K2.HomesSync.wireRows ctx.toWire [] s.home.rows) = (s.orders[·]?) by
    rw [Given, known]
    exact assignOrders_again (given s mem)
  funext i
  rw [rowOrder, distinct.wireRows member, List.getElem?_map]
  rcases Nat.lt_or_ge i s.home.rows.length with below | beyond
  · have below' : i < s.orders.length := by omega
    have listed : (s.home.rows[i], s.orders[i]) ∈ s.home.rows.zip s.orders := by
      rw [← List.getElem_zip (h := by rw [List.length_zip]; omega)]
      exact List.getElem_mem _
    obtain ⟨x, live, -, -, order⟩ := after.rows s mem _ listed
    rw [List.getElem?_eq_getElem below, List.getElem?_eq_getElem below']
    change st.liveOrder (rowKey s.home.id (ctx.toWire s.home.rows[i].address)) = some s.orders[i]
    rw [SyncState.liveOrder, live]
    exact congrArg some order
  · rw [List.getElem?_eq_none beyond, List.getElem?_eq_none (by omega)]
    rfl

theorem After.localView (after : After st ctx.toAddressMap seen) (distinct : Distinct prev ctx.toAddressMap homes)
    (same : seen.map (·.home) = homes) (assigned : assignOrders homes.length (K2.HomesSync.homeOrder prev homes) = .ok (seen.map (·.order)))
    (given : ∀ s ∈ seen, Given prev ctx.toAddressMap s) :
    K2.HomesSync.localView st ctx.toAddressMap homes =
      .ok ((seen.flatMap (Seen.items ctx.toWire)).foldl KeyedTable.upsert .empty) := by
  refine localView_ok.mpr ⟨seen, same, ?_, after.given distinct same given, rfl⟩
  rw [after.homeOrder same]
  exact assignOrders_again assigned

theorem After.quiet (after : After st ctx.toAddressMap seen) (distinct : Distinct prev ctx.toAddressMap homes)
    (same : seen.map (·.home) = homes) (assigned : assignOrders homes.length (K2.HomesSync.homeOrder prev homes) = .ok (seen.map (·.order)))
    (given : ∀ s ∈ seen, Given prev ctx.toAddressMap s) {ctx' : EngineCtx} (map : ctx'.toAddressMap = ctx.toAddressMap) :
    diffLocal ctx' homes st = .ok (st, []) := by
  have made : K2.HomesSync.localView st ctx'.toAddressMap homes =
      .ok ((seen.flatMap (Seen.items ctx.toWire)).foldl KeyedTable.upsert .empty) := by
    rw [map]
    exact after.localView distinct same assigned given
  refine diffLocal_quiet made (fun key absent => ?_) fun v mem => ?_
  · by_contra live
    obtain ⟨item, live⟩ := Option.ne_none_iff_exists'.mp live
    obtain ⟨v, mem, key⟩ := List.mem_map.mp (after.only key item live)
    rw [← distinct.view_rows same given] at mem
    exact KeyedTable.get_eq_none.mp absent v mem key
  · rw [distinct.view_rows same given] at mem
    obtain ⟨s, listed, own⟩ := List.mem_flatMap.mp mem
    have member : s.home ∈ homes := same ▸ List.mem_map_of_mem listed
    rw [distinct.items member, List.mem_cons, List.mem_map] at own
    rcases own with rfl | ⟨p, there, rfl⟩
    · obtain ⟨x, live, -, name, order⟩ := after.homes s listed
      refine ⟨_, live, ?_⟩
      simp [syncedFieldsDiffer, Seen.homeItem, WireItem.order, name, order]
    · obtain ⟨x, live, -, -, order⟩ := after.rows s listed p there
      refine ⟨_, live, ?_⟩
      simp [syncedFieldsDiffer, Seen.rowItem, viewRow, WireItem.order, order]

theorem After.named (after : After st ctx.toAddressMap seen) (distinct : Distinct prev ctx.toAddressMap homes)
    (same : seen.map (·.home) = homes) (given : ∀ s ∈ seen, Given prev ctx.toAddressMap s) {key : String} {item : WireItem}
    (live : st.live key = some item) :
    ∃ s ∈ seen, key = homeKey s.home.id ∨ ∃ r ∈ s.home.rows, key = rowKey s.home.id (ctx.toWire r.address) := by
  have listed := after.only key item live
  rw [List.map_flatMap] at listed
  obtain ⟨s, mem, own⟩ := List.mem_flatMap.mp listed
  rw [distinct.keys (same ▸ List.mem_map_of_mem mem) (given s mem), List.mem_cons, List.mem_map] at own
  refine ⟨s, mem, own.imp_right ?_⟩
  rintro ⟨r, there, rfl⟩
  exact ⟨r, there, rfl⟩

/-- A Home with each row as the first one of its address. -/
def relabelled (homes : List Home) (h : Home) : Home :=
  { h with rows := h.rows.map fun r => (hint homes r.address).getD r }

theorem After.buildRows (after : After st ctx.toAddressMap seen) (distinct : Distinct prev ctx.toAddressMap homes)
    (same : seen.map (·.home) = homes) (given : ∀ s ∈ seen, Given prev ctx.toAddressMap s) {s : Seen} (mem : s ∈ seen) :
    K2.HomesSync.buildRows homes ctx.toAddressMap []
        ((liveRows st s.home.id).insertionSort (wireLe (·.order) (·.address))) =
      (relabelled homes s.home).rows := by
  have member : ∀ s ∈ seen, s.home ∈ homes := fun s mem => same ▸ List.mem_map_of_mem mem
  have length := distinct.given_length (member s mem) (given s mem)
  have laid := assignOrders_laid (given s mem)
  choose! g g_spec using after.rows s mem
  have first : (s.home.rows.zip s.orders).map Prod.fst = s.home.rows := List.map_fst_zip length.ge
  have second : (s.home.rows.zip s.orders).map Prod.snd = s.orders := List.map_snd_zip length.le
  have sorted : (liveRows st s.home.id).insertionSort (wireLe (·.order) (·.address)) = (s.home.rows.zip s.orders).map g := by
    refine sorted_eq (liveRows_nodup _) (fun x => ?_) ?_ ?_
    · rw [mem_liveRows, List.mem_map]
      constructor
      · rintro ⟨live, own⟩
        obtain ⟨s', mem', key | ⟨r, there, key⟩⟩ := after.named distinct same given live
        · exact (homeKey_ne_rowKey _ _ _ key.symm).elim
        -- the row's Home is this one, since the known row says so
        have length' := distinct.given_length (member s' mem') (given s' mem')
        have first' : (s'.home.rows.zip s'.orders).map Prod.fst = s'.home.rows := List.map_fst_zip length'.ge
        rw [← first'] at there
        obtain ⟨p, listed, rfl⟩ := List.mem_map.mp there
        obtain ⟨x', live', id', -, -⟩ := after.rows s' mem' p listed
        rw [← key, live] at live'
        cases live'
        have ids := distinct.ids
        rw [← same, List.map_map] at ids
        obtain rfl : s' = s := List.inj_on_of_nodup_map ids mem' mem (id'.symm.trans own)
        obtain ⟨found, -⟩ := g_spec p listed
        rw [← key, live] at found
        cases found
        exact ⟨p, listed, rfl⟩
      · rintro ⟨p, listed, rfl⟩
        obtain ⟨live, id, address, -⟩ := g_spec p listed
        exact ⟨by rw [id, address]; exact live, id⟩
    · intro x listed
      obtain ⟨p, there, rfl⟩ := List.mem_map.mp listed
      rw [(g_spec p there).2.2.2]
      exact laid.digits _ (List.of_mem_zip there).2
    · have ordered := laid.ordered
      rw [← second, List.pairwise_map] at ordered
      rw [List.pairwise_map]
      refine ordered.imp_of_mem fun {p p'} there there' less => ?_
      rw [(g_spec p there).2.2.2, (g_spec p' there').2.2.2]
      exact less
  have back : ∀ p ∈ s.home.rows.zip s.orders, ctx.fromWire (g p).address = p.1.address := by
    intro p there
    rw [(g_spec p there).2.2.1]
    exact distinct.inverse s.home (member s mem) p.1 (List.of_mem_zip there).1
  rw [sorted, buildRows_eq, List.map_map, relabelled]
  · dsimp only
    conv_rhs => rw [← first, List.map_map]
    refine List.map_congr_left fun p there => ?_
    obtain ⟨row, found, address, -⟩ := hint_some (member s mem) (List.of_mem_zip there).1
    rw [Function.comp_apply, Function.comp_apply, back p there, buildRow, found, Option.getD_some]
    dsimp only
    rw [← address]
  · have addresses := distinct.addresses s.home (member s mem)
    rw [← first, List.map_map] at addresses
    rw [List.map_map]
    exact (List.map_congr_left back) ▸ addresses
  · exact fun _ _ => List.not_mem_nil

/-- The Homes are read back in their order, each row as the first one of its address. -/
theorem After.built (after : After st ctx.toAddressMap seen) (distinct : Distinct prev ctx.toAddressMap homes)
    (same : seen.map (·.home) = homes) (assigned : assignOrders homes.length (K2.HomesSync.homeOrder prev homes) = .ok (seen.map (·.order)))
    (given : ∀ s ∈ seen, Given prev ctx.toAddressMap s) (some_homes : homes ≠ []) :
    buildLocal st homes ctx.toAddressMap = some (homes.map (relabelled homes)) := by
  have laid := assignOrders_laid assigned
  choose! f f_spec using after.homes
  have sorted : (liveHomes st).insertionSort (wireLe (·.order) (·.id)) = seen.map f := by
    refine sorted_eq liveHomes_nodup (fun x => ?_) ?_ ?_
    · rw [mem_liveHomes, List.mem_map]
      constructor
      · intro live
        obtain ⟨s, mem, key | ⟨r, -, key⟩⟩ := after.named distinct same given live
        · obtain ⟨live', -⟩ := f_spec s mem
          rw [← key, live] at live'
          cases live'
          exact ⟨s, mem, rfl⟩
        · exact (homeKey_ne_rowKey _ _ _ key).elim
      · rintro ⟨s, mem, rfl⟩
        obtain ⟨live, id, -⟩ := f_spec s mem
        rw [id]
        exact live
    · intro x listed
      obtain ⟨s, mem, rfl⟩ := List.mem_map.mp listed
      rw [(f_spec s mem).2.2.2]
      exact laid.digits _ (List.mem_map_of_mem mem)
    · rw [List.pairwise_map]
      refine (List.pairwise_map.mp laid.ordered).imp_of_mem fun {s s'} mem mem' less => ?_
      rw [(f_spec s mem).2.2.2, (f_spec s' mem').2.2.2]
      exact less
  have some_live : (liveHomes st).isEmpty = false := by
    rw [List.isEmpty_eq_false_iff, ← List.length_pos_iff, ← List.length_insertionSort (wireLe (·.order) (·.id)),
      sorted, List.length_map, ← List.length_map (·.home), same, List.length_pos_iff]
    exact some_homes
  rw [buildLocal, if_neg (Bool.eq_false_iff.mp some_live), sorted, ← same, List.map_map, List.map_map]
  refine congrArg some (List.map_congr_left fun s mem => ?_)
  obtain ⟨-, id, name, -⟩ := f_spec s mem
  rw [Function.comp_apply, Function.comp_apply, buildHome, id, name, same, after.buildRows distinct same given mem]
  rfl

theorem After.none_built (after : After st ctx.toAddressMap []) (previous : List Home) :
    buildLocal st previous ctx.toAddressMap = none := by
  rw [buildLocal, if_pos]
  rw [List.isEmpty_iff, List.eq_nil_iff_forall_not_mem]
  intro x mem
  exact List.not_mem_nil (after.only _ _ (mem_liveHomes.mp mem))

theorem relabelled_iff : homes.map (relabelled homes) = homes ↔
    ∀ h ∈ homes, ∀ r ∈ h.rows, ∀ h' ∈ homes, ∀ r' ∈ h'.rows, r'.address = r.address → r' = r := by
  have each : homes.map (relabelled homes) = homes ↔
      ∀ h ∈ homes, ∀ r ∈ h.rows, (hint homes r.address).getD r = r := by
    conv_lhs => rhs; rw [← List.map_id homes]
    rw [List.map_inj_left]
    refine forall₂_congr fun h mem => ?_
    rw [relabelled, id, Home.mk.injEq]
    conv_lhs => rhs; rhs; rhs; rw [← List.map_id h.rows]
    rw [List.map_inj_left]
    simp
  rw [each]
  constructor
  · intro all h mem r there h' mem' r' there' address
    obtain ⟨row, found, -⟩ := hint_some mem there
    have own := all h mem r there
    have other := all h' mem' r' there'
    rw [address, found] at other
    rw [found] at own
    exact other.symm.trans own
  · intro all h mem r there
    obtain ⟨row, found, address, h', mem', there'⟩ := hint_some mem there
    rw [found]
    exact all h mem r there h' mem' row there' address

end After

theorem diffLocal_made {homes : List Home} {prev : SyncState} {ctx : EngineCtx}
    (distinct : Distinct prev ctx.toAddressMap homes) (spaced : Spaced (homeOrder prev homes) homes.length)
    (rows : ∀ h ∈ homes, Spaced (rowOrder prev h.id (h.rows.map fun r => (r, ctx.toWire r.address))) h.rows.length) :
    ∃ st changes, diffLocal ctx homes prev = .ok (st, changes) := by
  obtain ⟨orders, assigned⟩ := assignOrders_ok_iff.mpr spaced
  have given : ∀ h ∈ homes, ∃ orders, ∀ order, Given prev ctx.toAddressMap ⟨h, order, orders⟩ := by
    intro h mem
    obtain ⟨orders, made⟩ := assignOrders_ok_iff.mpr (rows h mem)
    refine ⟨orders, fun _ => ?_⟩
    rw [Given, distinct.wireRows mem, List.length_map]
    exact made
  choose! rowOrders given using given
  have length := (assignOrders_laid assigned).length
  have view : ∃ view, localView prev ctx.toAddressMap homes = .ok view := by
    refine ⟨_, localView_ok.mpr ⟨(homes.zip orders).map fun p => ⟨p.1, p.2, rowOrders p.1⟩, ?_, ?_, ?_, rfl⟩⟩
    · rw [List.map_map]
      exact List.map_fst_zip length.ge
    · rw [List.map_map]
      exact (List.map_snd_zip length.le).symm ▸ assigned
    · intro s mem
      obtain ⟨p, listed, rfl⟩ := List.mem_map.mp mem
      exact given p.1 (List.of_mem_zip listed).1 p.2
  obtain ⟨view, made⟩ := view
  exact ⟨_, _, bind_eq_ok.mpr ⟨view, made, rfl⟩⟩

/-- Local Homes are read back as they were from what a diff leaves, and a second
    diff queues nothing, exactly if there is one, rows of one address are the same
    in all of them, and no order key gets too long before another fresh one. -/
theorem round_trip_iff (homes : List Home) (prev : SyncState) (ctx : EngineCtx)
    (distinct : Distinct prev ctx.toAddressMap homes) :
    (∃ st changes, diffLocal ctx homes prev = .ok (st, changes) ∧ buildLocal st homes ctx.toAddressMap = some homes ∧
      ∀ ctx' : EngineCtx, ctx'.toAddressMap = ctx.toAddressMap → ∃ st', diffLocal ctx' homes st = .ok (st', [])) ↔
    homes ≠ [] ∧
      (∀ h ∈ homes, ∀ r ∈ h.rows, ∀ h' ∈ homes, ∀ r' ∈ h'.rows, r'.address = r.address → r' = r) ∧
      Spaced (homeOrder prev homes) homes.length ∧
      ∀ h ∈ homes, Spaced (rowOrder prev h.id (h.rows.map fun r => (r, ctx.toWire r.address))) h.rows.length := by
  constructor
  · rintro ⟨st, changes, diff, built, -⟩
    obtain ⟨seen, same, assigned, given, after⟩ := diffLocal_after distinct diff
    have some_homes : homes ≠ [] := by
      rintro rfl
      rw [List.map_eq_nil_iff] at same
      subst same
      rw [after.none_built] at built
      cases built
    rw [after.built distinct same assigned given some_homes] at built
    refine ⟨some_homes, relabelled_iff.mp (Option.some.inj built), assignOrders_ok_iff.mp ⟨_, assigned⟩, fun h mem => ?_⟩
    rw [← same] at mem
    obtain ⟨s, listed, rfl⟩ := List.mem_map.mp mem
    have made := given s listed
    rw [Given, distinct.wireRows (same ▸ mem), List.length_map] at made
    exact assignOrders_ok_iff.mp ⟨_, made⟩
  · rintro ⟨some_homes, agree, spaced, rows⟩
    obtain ⟨st, changes, diff⟩ := diffLocal_made distinct spaced rows
    obtain ⟨seen, same, assigned, given, after⟩ := diffLocal_after distinct diff
    refine ⟨st, changes, diff, ?_, fun ctx' map => ⟨st, after.quiet distinct same assigned given map⟩⟩
    rw [after.built distinct same assigned given some_homes, relabelled_iff.mpr agree]

/-! ## Row keys -/

theorem rowKey_injective {id id' address address' : String} (plain : '|' ∉ id.toList) (plain' : '|' ∉ id'.toList)
    (same : rowKey id address = rowKey id' address') : id = id' ∧ address = address' := by
  have cut : ∀ {l r : List Char}, '|' ∉ l → (l ++ '|' :: r).takeWhile (· ≠ '|') = l := by
    intro l r absent
    rw [List.takeWhile_append_of_pos fun c mem => decide_eq_true (show c ≠ '|' from fun bar => absent (bar ▸ mem))]
    simp
  have lists : id.toList ++ '|' :: address.toList = id'.toList ++ '|' :: address'.toList := by
    have lists := congrArg String.toList same
    simpa [rowKey] using lists
  have ids : id.toList = id'.toList := by rw [← cut plain, lists, cut plain']
  rw [ids, List.append_cancel_left_eq, List.cons.injEq] at lists
  exact ⟨String.toList_inj.mp ids, String.toList_inj.mp lists.2⟩

section Small

/-- Addresses that are the same on the wire, and a clock. -/
def plainCtx : EngineCtx := ⟨⟨id, id⟩, 100, "laptop"⟩

def noState : SyncState := ⟨.empty, .empty⟩

theorem distinct_plain {homes : List Home} (ids : (homes.map (·.id)).Nodup)
    (addresses : ∀ h ∈ homes, (h.rows.map (·.address)).Nodup) (plain : ∀ h ∈ homes, '|' ∉ h.id.toList) :
    Distinct noState plainCtx.toAddressMap homes where
  ids := ids
  addresses := addresses
  inverse _ _ _ _ := rfl
  apart := by
    rintro x y (⟨h, mem, r, there, rfl⟩ | ⟨r, known, -⟩) (⟨h', mem', r', there', rfl⟩ | ⟨r', known', -⟩) same
    · obtain ⟨id, address⟩ := rowKey_injective (plain h mem) (plain h' mem') same
      exact Prod.ext id address
    · cases known'
    · cases known
    · cases known

/-- The same agent in two Homes, in one of them with another. -/
def sharedAgent : List Home :=
  [⟨"h1", "One", [⟨"atlas::local", none, "Atlas"⟩, ⟨"iris::local", none, "Iris"⟩]⟩, ⟨"h2", "Two", [⟨"atlas::local", none, "Atlas"⟩]⟩]

theorem round_trip_iff_shared : ∃ st changes, diffLocal plainCtx sharedAgent noState = .ok (st, changes) ∧
    buildLocal st sharedAgent plainCtx.toAddressMap = some sharedAgent := by
  have homes : Spaced (homeOrder noState sharedAgent) sharedAgent.length := by
    intro i below fresh
    obtain rfl : i = 0 := by simp [sharedAgent] at below; omega
    unfold Homes.FractionalIndex.Roomy
    decide +kernel
  have rows : ∀ h ∈ sharedAgent, Spaced (rowOrder noState h.id (h.rows.map fun r => (r, plainCtx.toWire r.address))) h.rows.length := by
    intro h mem i below fresh
    rcases List.mem_pair.mp mem with rfl | rfl
    · obtain rfl : i = 0 := by simp at below; omega
      unfold Homes.FractionalIndex.Roomy
      decide +kernel
    · simp at below
  obtain ⟨st, changes, diff, built, -⟩ := (round_trip_iff sharedAgent noState plainCtx
    (distinct_plain (by decide) (by decide) (by decide))).mpr ⟨by decide, by decide, homes, rows⟩
  exact ⟨st, changes, diff, built⟩

/-- The same agent in two Homes, under two labels. -/
def twoLabels : List Home :=
  [⟨"h1", "One", [⟨"atlas::local", none, "Atlas"⟩]⟩, ⟨"h2", "Two", [⟨"atlas::local", none, "Atlas 2"⟩]⟩]

/-- The second Home's row comes back under the first one's label. -/
theorem label_of_another_home : Distinct noState plainCtx.toAddressMap twoLabels ∧
    (diffLocal plainCtx twoLabels noState).toOption.bind (fun r => buildLocal r.1 twoLabels plainCtx.toAddressMap) =
      some [⟨"h1", "One", [⟨"atlas::local", none, "Atlas"⟩]⟩, ⟨"h2", "Two", [⟨"atlas::local", none, "Atlas"⟩]⟩] ∧
    twoLabels ≠ [⟨"h1", "One", [⟨"atlas::local", none, "Atlas"⟩]⟩, ⟨"h2", "Two", [⟨"atlas::local", none, "Atlas"⟩]⟩] :=
  ⟨distinct_plain (by decide) (by decide) (by decide), by decide +kernel, by decide⟩

end Small

end K2.HomesSync
