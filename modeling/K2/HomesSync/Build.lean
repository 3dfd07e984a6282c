import K2.HomesSync.Diff
import Mathlib.Data.List.Pairwise
import Mathlib.Data.Prod.Lex

/-! # Known items read back

Items are sorted by their order keys; where these are different keys of digits the
order is that of the keys alone.
-/

namespace K2.HomesSync

open K2.Homes (Digits orderDigits)

/-! ## String order -/

theorem compareOrder_of_lt {a b : String} (lt : units a < units b) : compareOrder a b = .lt := if_pos lt

theorem compareOrder_of_gt {a b : String} (gt : units b < units a) : compareOrder a b = .gt := by
  rw [compareOrder, if_neg (lt_asymm gt), if_pos gt]

theorem compareOrder_of_eq {a b : String} (same : units a = units b) : compareOrder a b = .eq := by
  rw [compareOrder, same, if_neg (lt_irrefl _), if_neg (lt_irrefl _)]

theorem compareOrder_ne_gt {a b : String} : compareOrder a b ≠ .gt ↔ units a ≤ units b := by
  rcases lt_trichotomy (units a) (units b) with lt | same | gt
  · rw [compareOrder_of_lt lt]
    exact iff_of_true nofun lt.le
  · rw [compareOrder_of_eq same]
    exact iff_of_true nofun same.le
  · rw [compareOrder_of_gt gt]
    exact iff_of_false (fun apart => apart rfl) gt.not_ge

section Order

variable {α : Type} {order name : α → String}

theorem wireLe_iff {a b : α} : wireLe order name a b ↔
    toLex (units (order a), units (name a)) ≤ toLex (units (order b), units (name b)) := by
  rw [wireLe, Prod.Lex.toLex_le_toLex]
  rcases lt_trichotomy (units (order a)) (units (order b)) with lt | same | gt
  · rw [compareOrder_of_lt lt]
    exact iff_of_true nofun (.inl lt)
  · rw [compareOrder_of_eq same, Ordering.then, compareOrder_ne_gt]
    exact ⟨fun le => .inr ⟨same, le⟩, fun le => (le.resolve_left same.not_lt).2⟩
  · rw [compareOrder_of_gt gt]
    exact iff_of_false (fun apart => apart rfl) fun le => le.elim (lt_asymm gt) fun eq => gt.ne' eq.1

instance : Std.Total (wireLe order name) where
  total _ _ := by
    rw [wireLe_iff, wireLe_iff]
    exact le_total _ _

instance : IsTrans α (wireLe order name) where
  trans _ _ _ := by
    rw [wireLe_iff, wireLe_iff, wireLe_iff]
    exact le_trans

theorem toNat_lt {l l' : List Char} (less : l < l') : l.map Char.toNat < l'.map Char.toNat := by
  induction l generalizing l' with
  | nil =>
      cases l' with
      | nil => exact absurd less (List.not_lt_nil _)
      | cons d l' => exact List.nil_lt_cons ..
  | cons c l ih =>
      cases l' with
      | nil => exact absurd less (List.not_lt_nil _)
      | cons d l' =>
          rw [List.map_cons, List.map_cons, List.cons_lt_cons_iff]
          rcases List.cons_lt_cons_iff.mp less with lt | ⟨rfl, later⟩
          · exact .inl lt
          · exact .inr ⟨rfl, ih later⟩

theorem units_of_digits {s : String} (digits : Digits s.toList) : units s = s.toList.map Char.toNat := by
  have all : orderDigits.all fun c => c.toNat < 0x10000 := by decide
  have small : ∀ c ∈ orderDigits, c.toNat < 0x10000 := fun c mem => of_decide_eq_true (List.all_eq_true.mp all c mem)
  rw [units]
  generalize s.toList = l at digits
  induction l with
  | nil => rfl
  | cons c l ih =>
      rw [List.flatMap_cons, if_pos (small c (digits c List.mem_cons_self)), ih digits.tail]
      rfl

theorem units_lt {s t : String} (digits : Digits s.toList) (digits' : Digits t.toList) (less : s < t) :
    units s < units t := by
  rw [units_of_digits digits, units_of_digits digits']
  exact toNat_lt (String.lt_iff_toList_lt.mp less)

theorem sorted_eq {l l' : List α} (distinct : l.Nodup) (members : ∀ a, a ∈ l ↔ a ∈ l')
    (digits : ∀ a ∈ l', Digits (order a).toList) (ordered : l'.Pairwise fun a b => order a < order b) :
    l.insertionSort (wireLe order name) = l' := by
  have strict : l'.Pairwise fun a b => units (order a) < units (order b) :=
    ordered.imp_of_mem fun mem mem' less => units_lt (digits _ mem) (digits _ mem') less
  have distinct' : l'.Nodup := strict.imp fun {a b} less same => by
    subst same
    exact lt_irrefl _ less
  have perm : (l.insertionSort (wireLe order name)).Perm l' :=
    (List.perm_insertionSort ..).trans ((List.perm_ext_iff_of_nodup distinct distinct').mpr members)
  have symm : Std.Symm fun a b : α => units (order a) ≠ units (order b) := ⟨fun _ _ => Ne.symm⟩
  refine perm.eq_of_pairwise (fun a b mem mem' le le' => ?_) (List.pairwise_insertionSort ..)
    (strict.imp fun less => wireLe_iff.mpr (Prod.Lex.toLex_le_toLex.mpr (.inl less)))
  by_contra apart
  refine (strict.imp fun less => less.ne).forall (perm.mem_iff.mp mem) mem' apart ?_
  exact congrArg Prod.fst (toLex.injective (le_antisymm (wireLe_iff.mp le) (wireLe_iff.mp le')))

end Order

/-! ## Homes and rows -/

section Read

variable {st : SyncState} {previous : List Home} {ctx : AddressMap}

theorem mem_liveHomes {x : WireHome} : x ∈ liveHomes st ↔ st.live (homeKey x.id) = some (.home x) := by
  rw [liveHomes, List.mem_filterMap, SyncState.live_eq_some]
  constructor
  · rintro ⟨item, mem, kept⟩
    cases item with
    | row r => cases kept
    | home h =>
        dsimp only at kept
        split at kept
        · cases kept
        next there =>
          cases kept
          exact ⟨mem, rfl, Bool.eq_false_iff.mpr there⟩
  · rintro ⟨mem, -, there⟩
    refine ⟨.home x, mem, ?_⟩
    dsimp only
    rw [if_neg]
    exact Bool.eq_false_iff.mp there

theorem mem_liveRows {homeId : String} {x : WireRow} :
    x ∈ liveRows st homeId ↔ st.live (rowKey x.homeId x.address) = some (.row x) ∧ x.homeId = homeId := by
  rw [liveRows, List.mem_filterMap, SyncState.live_eq_some]
  constructor
  · rintro ⟨item, mem, kept⟩
    cases item with
    | home h => cases kept
    | row r =>
        dsimp only at kept
        split at kept
        next both =>
          cases kept
          rw [Bool.and_eq_true, Bool.not_eq_true', decide_eq_true_eq] at both
          exact ⟨⟨mem, rfl, both.1⟩, both.2⟩
        next => cases kept
  · rintro ⟨⟨mem, -, there⟩, own⟩
    refine ⟨.row x, mem, ?_⟩
    dsimp only
    rw [if_pos]
    rw [Bool.and_eq_true, Bool.not_eq_true', decide_eq_true_eq]
    exact ⟨there, own⟩

theorem liveHomes_nodup : (liveHomes st).Nodup := by
  refine st.known.distinct.of_map.filterMap fun item item' h kept kept' => ?_
  cases item with
  | row r => cases kept
  | home x =>
      cases item' with
      | row r => cases kept'
      | home x' =>
          dsimp only at kept kept'
          split at kept
          · cases kept
          split at kept'
          · cases kept'
          cases kept
          cases kept'
          rfl

theorem liveRows_nodup (homeId : String) : (liveRows st homeId).Nodup := by
  refine st.known.distinct.of_map.filterMap fun item item' r kept kept' => ?_
  cases item with
  | home h => cases kept
  | row x =>
      cases item' with
      | home h => cases kept'
      | row x' =>
          dsimp only at kept kept'
          split at kept
          · split at kept'
            · cases kept
              cases kept'
              rfl
            · cases kept'
          · cases kept

theorem buildRows_eq {rows : List WireRow} {seen : List String} (distinct : (rows.map fun w => ctx.fromWire w.address).Nodup)
    (new : ∀ w ∈ rows, ctx.fromWire w.address ∉ seen) :
    buildRows previous ctx seen rows = rows.map fun w => buildRow previous (ctx.fromWire w.address) w := by
  induction rows generalizing seen with
  | nil => rfl
  | cons w rest ih =>
      rw [List.map_cons, List.nodup_cons] at distinct
      rw [buildRows, if_neg (new w List.mem_cons_self), List.map_cons, ih distinct.2]
      intro w' mem
      rw [List.mem_cons, not_or]
      exact ⟨fun same => distinct.1 (same ▸ List.mem_map_of_mem mem), new w' (List.mem_cons_of_mem w mem)⟩

theorem hint_some {h : Home} {r : HomeRow} (mem : h ∈ previous) (listed : r ∈ h.rows) :
    ∃ row, hint previous r.address = some row ∧ row.address = r.address ∧ ∃ h' ∈ previous, row ∈ h'.rows := by
  cases found : hint previous r.address with
  | none =>
      have absent := List.find?_eq_none.mp found r (List.mem_flatMap.mpr ⟨h, mem, listed⟩)
      exact absurd (decide_eq_true rfl) absent
  | some row =>
      have own := List.find?_some (show (previous.flatMap (·.rows)).find? (·.address = r.address) = some row from found)
      exact ⟨row, rfl, of_decide_eq_true own, List.mem_flatMap.mp (List.mem_of_find?_eq_some found)⟩

end Read

end K2.HomesSync
