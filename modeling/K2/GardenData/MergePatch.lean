import K2.GardenData.Patch

/-! # A merge is RFC 7396's

The document's own merge beside the algorithm the RFC prints. A patch says
something of each path it reaches and nothing of the others, and it has said it
all the first time it is applied.
-/

namespace K2

/-! ## Objects in order -/

/-- An object's members are sorted by name, at every depth. -/
inductive Value.Sorted : Value → Prop where
  | null : Sorted .null
  | bool (b) : Sorted (.bool b)
  | number (n) : Sorted (.number n)
  | string (s) : Sorted (.string s)
  | array : (∀ v ∈ items, Sorted v) → Sorted (.array items)
  | object : members.Pairwise (·.1 < ·.1) → (∀ m ∈ members, Sorted m.2) → Sorted (.object members)

/-- `serde_json::Value`, its maps sorted. -/
abbrev Json := { v : Value // v.Sorted }

namespace Members

theorem mem_of_get {o : Members} {name : String} {v : Value} (found : get o name = some v) :
    (name, v) ∈ o := by
  induction o with
  | nil => cases found
  | cons m rest ih =>
      obtain ⟨n, w⟩ := m
      rw [get, List.lookup_cons] at found
      by_cases own : name = n
      · subst own
        simp only [beq_self_eq_true, Option.some.injEq] at found
        exact found ▸ List.mem_cons_self
      · rw [beq_eq_false_iff_ne.mpr own] at found
        exact List.mem_cons_of_mem _ (ih found)

theorem get_of_mem {o : Members} (sorted : o.Pairwise (·.1 < ·.1)) {name : String} {v : Value}
    (member : (name, v) ∈ o) : get o name = some v := by
  induction o with
  | nil => cases member
  | cons m rest ih =>
      obtain ⟨n, w⟩ := m
      obtain ⟨first, later⟩ := List.pairwise_cons.mp sorted
      rw [get, List.lookup_cons]
      rcases List.mem_cons.mp member with here | there
      · obtain ⟨rfl, rfl⟩ := Prod.mk.inj here
        rw [beq_self_eq_true]
      · have apart : name ≠ n := (first _ there).ne'
        rw [beq_eq_false_iff_ne.mpr apart]
        exact ih later there

theorem ext_get {o o' : Members} (sorted : o.Pairwise (·.1 < ·.1)) (sorted' : o'.Pairwise (·.1 < ·.1))
    (same : ∀ name, get o name = get o' name) : o = o' := by
  have distinct : ∀ {m : Members}, m.Pairwise (·.1 < ·.1) → m.Nodup := fun h =>
    h.imp fun less equal => absurd (equal ▸ less) (lt_irrefl _)
  have alike : o.Perm o' := (List.perm_ext_iff_of_nodup (distinct sorted) (distinct sorted')).mpr
    fun ⟨name, v⟩ =>
      ⟨fun member => mem_of_get ((same name).symm.trans (get_of_mem sorted member)),
        fun member => mem_of_get ((same name).trans (get_of_mem sorted' member))⟩
  exact alike.eq_of_pairwise (fun _ _ _ _ less more => absurd less (lt_asymm more)) sorted sorted'

theorem mem_insert {o : Members} {name : String} {v : Value} {m : String × Value}
    (member : m ∈ insert o name v) : m.1 = name ∧ m.2 = v ∨ m ∈ o := by
  induction o with
  | nil => exact .inl (by simpa [insert, Prod.ext_iff] using member)
  | cons first rest ih =>
      obtain ⟨n, old⟩ := first
      rw [insert] at member
      split at member
      · rename_i same
        rcases List.mem_cons.mp member with rfl | later
        · exact .inl ⟨same, rfl⟩
        · exact .inr (List.mem_cons_of_mem _ later)
      · split at member
        · rcases List.mem_cons.mp member with rfl | later
          · exact .inl ⟨rfl, rfl⟩
          · exact .inr later
        · rcases List.mem_cons.mp member with rfl | later
          · exact .inr List.mem_cons_self
          · exact (ih later).imp id (List.mem_cons_of_mem _)

theorem sorted_insert {o : Members} (sorted : o.Pairwise (·.1 < ·.1)) (name : String) (v : Value) :
    (insert o name v).Pairwise (·.1 < ·.1) := by
  induction o with
  | nil => exact List.pairwise_singleton _ _
  | cons first rest ih =>
      obtain ⟨n, old⟩ := first
      obtain ⟨least, later⟩ := List.pairwise_cons.mp sorted
      rw [insert]
      split
      · exact List.pairwise_cons.mpr ⟨least, later⟩
      · rename_i apart
        split
        · rename_i before
          refine List.pairwise_cons.mpr ⟨fun m member => ?_, sorted⟩
          rcases List.mem_cons.mp member with rfl | there
          · exact before
          · exact before.trans (least m there)
        · rename_i after
          refine List.pairwise_cons.mpr ⟨fun m member => ?_, ih later⟩
          rcases mem_insert member with ⟨rfl, -⟩ | there
          · exact lt_of_le_of_ne (not_lt.mp after) apart
          · exact least m there

theorem insert_insert (o : Members) (name : String) (v w : Value) :
    insert (insert o name v) name w = insert o name w := by
  induction o with
  | nil => simp [insert]
  | cons first rest ih =>
      obtain ⟨n, old⟩ := first
      by_cases same : n = name
      · simp [insert, same]
      · by_cases before : name < n
        · simp [insert, same, before]
        · simp [insert, same, before, ih]

theorem insert_orInsert (o : Members) (name : String) (v w : Value) :
    insert (orInsert o name v) name w = insert o name w := by
  unfold orInsert
  split
  · rfl
  · exact insert_insert o name v w

theorem remove_of_absent {o : Members} {name : String} (absent : containsKey o name = false) :
    remove o name = o := by
  refine List.filter_eq_self.mpr fun m member => ?_
  by_contra same
  obtain rfl : m.1 = name := by simpa using same
  have found := List.lookup_eq_none_iff.mp (Option.isSome_eq_false_iff.mp absent |> Option.isNone_iff_eq_none.mp)
  simpa using found m member

end Members

/-- The value at the end of a path of names, through objects. -/
def Value.reach (v : Value) : List String → Option Value
  | [] => some v
  | name :: path =>
      match v with
      | .object o => (Members.get o name).bind (reach · path)
      | _ => none

theorem Value.reach_cons (v : Value) (name : String) (path : List String) :
    v.reach (name :: path) = (v.reach [name]).bind (Value.reach · path) := by
  cases v <;> simp [Value.reach]

/-- An object patch names the first part of the path, and not the name after it. -/
inductive Value.Unnamed : Value → List String → Prop where
  | here : Members.get fields name = none → Unnamed (.object fields) (name :: path)
  | inside : Members.get fields name = some v → Unnamed v path →
      Unnamed (.object fields) (name :: path)

end K2

/-! ## The algorithm in the RFC -/

namespace K2.Rfc7396

mutual
/-- `MergePatch(Target, Patch)`; a target may be undefined. -/
def mergePatch (target : Option Value) : Value → Value
  | .object pairs =>
      .object (each (match target with | some (.object t) => t | _ => []) pairs)
  | patch => patch

/-- `for each Name/Value pair in Patch`. -/
def each (target : Members) : List (String × Value) → Members
  | [] => target
  | (name, .null) :: rest =>
      each (if Members.containsKey target name then Members.remove target name else target) rest
  | (name, value) :: rest =>
      each (Members.insert target name (mergePatch (Members.get target name) value)) rest
end

end K2.Rfc7396

namespace K2.GardenData

/-! ## The document's merge is that one -/

mutual
theorem mergePatch_eq_rfc (target : Option Value) (patch : Value) :
    mergePatch (target.getD .null) patch = Rfc7396.mergePatch target patch := by
  cases patch with
  | object fields =>
      rw [mergePatch, mergeFields_eq_each]
      cases target with
      | none => rw [Rfc7396.mergePatch] <;> simp [madeObject]
      | some t => cases t <;> rw [Rfc7396.mergePatch] <;> simp [madeObject]
  | _ => rw [mergePatch, Rfc7396.mergePatch] <;> simp

theorem mergeFields_eq_each (t : Members) (fields : List (String × Value)) :
    mergeFields t fields = Rfc7396.each t fields := by
  match fields with
  | [] => rw [mergeFields, Rfc7396.each]
  | (k, v) :: rest =>
      have later := fun t => mergeFields_eq_each t rest
      have field := mergePatch_eq_rfc (Members.get t k) v
      cases v with
      | null =>
          rw [mergeFields, Rfc7396.each, later]
          split
          · rfl
          · rename_i absent
            rw [Members.remove_of_absent (by simpa using absent)]
      | object fields =>
          have slot : (Members.get (Members.orInsert t k .null) k).getD .null =
              (Members.get t k).getD .null := by
            rw [Members.get_orInsert, if_pos rfl, Option.getD_some]
          rw [mergeFields, slot, Members.insert_orInsert, field, later, Rfc7396.each]
          simp
      | _ => rw [mergeFields, Rfc7396.each, later, Rfc7396.mergePatch] <;> simp
end

/-! ## Field by field -/

theorem mergePatch_of_not_object {patch : Value} (plain : patch.isObject = false) (target : Value) :
    mergePatch target patch = patch := by
  cases patch with
  | object => cases plain
  | _ => rw [mergePatch]; simp

theorem get_mergeFields {fields : List (String × Value)} (sorted : fields.Pairwise (·.1 < ·.1))
    (t : Members) (name : String) :
    Members.get (mergeFields t fields) name =
      match Members.get fields name with
      | none => Members.get t name
      | some .null => none
      | some v => some (mergePatch ((Members.get t name).getD .null) v) := by
  induction fields generalizing t with
  | nil => rw [mergeFields]; rfl
  | cons f rest ih =>
      obtain ⟨k, v⟩ := f
      obtain ⟨least, later⟩ := List.pairwise_cons.mp sorted
      obtain ⟨t', next, others, here⟩ := mergeFields_cons t k v rest
      by_cases own : name = k
      · subst own
        have absent : name ∉ rest.map Prod.fst := fun member => by
          obtain ⟨m, there, same⟩ := List.mem_map.mp member
          exact absurd (same ▸ least m there) (lt_irrefl _)
        have found : Members.get ((name, v) :: rest) name = some v := by
          rw [Members.get, List.lookup_cons, beq_self_eq_true]
        rw [next, get_mergeFields_of_not_mem absent, here, found]
        cases v <;> rfl
      · have passed : Members.get ((k, v) :: rest) name = Members.get rest name := by
          rw [Members.get, List.lookup_cons, beq_eq_false_iff_ne.mpr own, Members.get]
        rw [next, ih later, passed, others name own]

theorem mergeFields_sorted {t : Members} (ordered : t.Pairwise (·.1 < ·.1)) (fields : List (String × Value)) :
    (mergeFields t fields).Pairwise (·.1 < ·.1) := by
  induction fields generalizing t with
  | nil => rwa [mergeFields]
  | cons f rest ih =>
      obtain ⟨k, v⟩ := f
      cases v with
      | null =>
          rw [mergeFields]
          exact ih (ordered.filter _)
      | object =>
          rw [mergeFields, Members.insert_orInsert]
          exact ih (Members.sorted_insert ordered k _)
      | _ =>
          rw [mergeFields]
          · exact ih (Members.sorted_insert ordered k _)
          all_goals simp

theorem madeObject_sorted {v : Value} (sorted : v.Sorted) :
    (madeObject v).Pairwise (·.1 < ·.1) ∧ ∀ m ∈ madeObject v, m.2.Sorted := by
  cases sorted with
  | object ordered members => exact ⟨ordered, members⟩
  | _ => exact ⟨List.Pairwise.nil, fun _ member => by cases member⟩

/-- A field of a sorted object, or the null in its place, is sorted. -/
theorem slot_sorted {t : Members} (members : ∀ m ∈ t, m.2.Sorted) (name : String) :
    ((Members.get t name).getD .null).Sorted := by
  cases found : Members.get t name with
  | none => exact .null
  | some v => exact members _ (Members.mem_of_get found)

theorem mergePatch_sorted {patch : Value} (sorted : patch.Sorted) :
    ∀ {target : Value}, target.Sorted → (mergePatch target patch).Sorted := by
  induction sorted with
  | @object fields ordered members ih =>
      intro target start
      obtain ⟨before, inside⟩ := madeObject_sorted start
      have after := mergeFields_sorted before fields
      rw [mergePatch]
      refine .object after fun m member => ?_
      have found := Members.get_of_mem after member
      rw [get_mergeFields ordered] at found
      split at found
      · exact inside _ (Members.mem_of_get found)
      · cases found
      · rename_i v _ named
        rw [← Option.some.inj found]
        exact ih _ (Members.mem_of_get named) (slot_sorted inside m.1)
  | _ =>
      intro target start
      rw [mergePatch_of_not_object rfl]
      constructor <;> assumption

theorem mergePatch_mergePatch {patch : Value} (sorted : patch.Sorted) :
    ∀ {target : Value}, target.Sorted →
      mergePatch (mergePatch target patch) patch = mergePatch target patch := by
  induction sorted with
  | @object fields ordered members ih =>
      intro target start
      obtain ⟨before, inside⟩ := madeObject_sorted start
      have once := mergeFields_sorted before fields
      have twice := mergeFields_sorted once fields
      have same : mergeFields (mergeFields (madeObject target) fields) fields =
          mergeFields (madeObject target) fields := by
        refine Members.ext_get twice once fun name => ?_
        rw [get_mergeFields ordered]
        split
        · rfl
        · rename_i removed
          rw [get_mergeFields ordered, removed]
        · rename_i v apart named
          have merges : Members.get (mergeFields (madeObject target) fields) name =
              some (mergePatch ((Members.get (madeObject target) name).getD .null) v) := by
            rw [get_mergeFields ordered, named]
            cases v <;> first | rfl | exact absurd rfl apart
          rw [merges, Option.getD_some]
          exact congrArg some (ih _ (Members.mem_of_get named) (slot_sorted inside name))
      rw [mergePatch, mergePatch, madeObject, same]
  | _ =>
      intro target start
      rw [mergePatch_of_not_object rfl, mergePatch_of_not_object rfl]

/-! ## Path by path -/

section Reach

variable {patch target v : Value} {path : List String}

theorem reach_madeObject (target : Value) (name : String) :
    Members.get (madeObject target) name = target.reach [name] := by
  cases target <;> simp [madeObject, Value.reach, Members.get]

/-- One step of a path through a merge with an object that names it. -/
theorem reach_mergePatch {fields : List (String × Value)} (ordered : fields.Pairwise (·.1 < ·.1))
    {name : String} (named : Members.get fields name = some v) (valued : v.isNull = false) :
    (mergePatch target (.object fields)).reach (name :: path) =
      (mergePatch ((target.reach [name]).getD .null) v).reach path := by
  rw [mergePatch, Value.reach, get_mergeFields ordered, reach_madeObject, named]
  cases v <;> first | rfl | cases valued

/-- A path an object patch doesn't name is left as it was, at any depth. -/
theorem reach_of_unnamed (sorted : patch.Sorted) (unnamed : patch.Unnamed path) :
    ∀ target : Value, (mergePatch target patch).reach path = target.reach path := by
  induction unnamed with
  | @here fields name path absent =>
      intro target
      cases sorted with | object ordered members =>
      rw [mergePatch, Value.reach, get_mergeFields ordered, absent, Value.reach_cons target name path]
      exact congrArg (·.bind (Value.reach · path)) (reach_madeObject target name)
  | @inside fields name v path named deeper ih =>
      intro target
      cases sorted with | object ordered members =>
      have valued : v.isNull = false := by cases deeper <;> rfl
      have nowhere : Value.reach .null path = none := by cases deeper <;> rfl
      rw [reach_mergePatch ordered named valued, ih (members _ (Members.mem_of_get named)),
        Value.reach_cons target name path]
      cases target.reach [name] with
      | none => exact nowhere
      | some w => rfl

/-- What a patch names, other than a null, is merged into what was there. -/
theorem reach_of_named (sorted : patch.Sorted) (named : patch.reach path = some v)
    (valued : path = [] ∨ v.isNull = false) :
    (mergePatch target patch).reach path = some (mergePatch ((target.reach path).getD .null) v) := by
  induction path generalizing patch target with
  | nil =>
      obtain rfl : patch = v := Option.some.inj named
      rfl
  | cons name path ih =>
      cases sorted with
      | @object fields ordered members =>
          obtain ⟨w, here, deeper⟩ := Option.bind_eq_some_iff.mp named
          have nonnull : v.isNull = false := valued.resolve_left (List.cons_ne_nil _ _)
          have passed : w.isNull = false := by
            cases path with
            | nil =>
                obtain rfl : w = v := Option.some.inj deeper
                exact nonnull
            | cons => cases w <;> first | rfl | cases deeper
          rw [reach_mergePatch ordered here passed, Value.reach_cons target name path,
            ih (members _ (Members.mem_of_get here)) deeper (.inr nonnull)]
          cases target.reach [name] with
          | none =>
              cases path with
              | nil => rfl
              | cons => rfl
          | some t => rfl
      | _ => cases named

theorem reach_of_nulled (sorted : patch.Sorted) (named : patch.reach path = some .null)
    (inside : path ≠ []) : (mergePatch target patch).reach path = none := by
  induction path generalizing patch target with
  | nil => exact absurd rfl inside
  | cons name path ih =>
      cases sorted with
      | @object fields ordered members =>
          obtain ⟨w, here, deeper⟩ := Option.bind_eq_some_iff.mp named
          cases path with
          | nil =>
              obtain rfl : w = .null := Option.some.inj deeper
              rw [mergePatch, Value.reach, get_mergeFields ordered, here]
              rfl
          | cons next path =>
              have passed : w.isNull = false := by cases w <;> first | rfl | cases deeper
              rw [reach_mergePatch ordered here passed]
              exact ih (members _ (Members.mem_of_get here)) deeper (List.cons_ne_nil _ _)
      | _ => cases named

end Reach

/-! ## The merge as a whole -/

/-- The merge of JSON values. -/
def Json.mergePatch (target patch : Json) : Json :=
  ⟨GardenData.mergePatch target patch, mergePatch_sorted patch.2 target.2⟩

/-- `merge_patch` is the RFC's MergePatch, of any two values: paths the patch
    doesn't name stay, nulls remove, the rest merges and in the end replaces, and a
    second time nothing changes. A document's merge answers nothing exactly when
    that leaves an existing object equal. -/
theorem merges_as_rfc (target patch : Json) :
    (Json.mergePatch target patch).1 = Rfc7396.mergePatch (some target.1) patch.1 ∧
      (∀ path, patch.1.Unnamed path →
        (Json.mergePatch target patch).1.reach path = target.1.reach path) ∧
      (∀ path, path ≠ [] → patch.1.reach path = some .null →
        (Json.mergePatch target patch).1.reach path = none) ∧
      (∀ path v, patch.1.reach path = some v → path = [] ∨ v.isNull = false →
        (Json.mergePatch target patch).1.reach path =
          some (Rfc7396.mergePatch (target.1.reach path) v) ∧
        (v.isObject = false → (Json.mergePatch target patch).1.reach path = some v)) ∧
      Json.mergePatch (Json.mergePatch target patch) patch = Json.mergePatch target patch ∧
      ∀ key (current : Option Json), merged key (current.map Subtype.val) patch.1 = .ok none ↔
        ∃ v ∈ current, v.1.isObject ∧ v.1.same (Rfc7396.mergePatch (some v.1) patch.1) := by
  have rfc : ∀ t : Value, GardenData.mergePatch t patch.1 = Rfc7396.mergePatch (some t) patch.1 :=
    fun t => mergePatch_eq_rfc (some t) patch.1
  refine ⟨rfc target.1, fun path unnamed => reach_of_unnamed patch.2 unnamed target.1,
    fun path inside nulled => reach_of_nulled patch.2 nulled inside, fun path v named valued => ?_,
    Subtype.ext (mergePatch_mergePatch patch.2 target.2), fun key current => ?_⟩
  · have merges : (GardenData.mergePatch target.1 patch.1).reach path =
        some (GardenData.mergePatch ((target.1.reach path).getD .null) v) := reach_of_named patch.2 named valued
    refine ⟨merges.trans (congrArg some (mergePatch_eq_rfc _ v)), fun plain => merges.trans ?_⟩
    rw [mergePatch_of_not_object plain]
  · cases current with
    | none => simp [merged]
    | some v =>
        simp only [merged, Option.map_some, Option.mem_some_iff, exists_eq_left', rfc]
        cases v.1.isObject <;> simp

end K2.GardenData
