import K2.GardenData.Types

/-! # Keys, and field-level merges

The syntax of keys and prefixes, and `store.patch`'s merge of a partial into a
document: a JSON Merge Patch, where an object merges field by field, `null`
removes a field and anything else replaces.
-/

namespace K2.GardenData

/-! ## Keys -/

def allowed (c : Char) : Bool := Text.isAsciiAlphanumeric c || "._~:@+/-".toList.contains c

/-- `str::split('/')`. -/
def segments (cs : List Char) : List (List Char) := cs.splitOn '/'

def checkShape (s : String) (trailingSlashOk : Bool) : Except DataError Unit :=
  match s.toList.find? fun c => !allowed c with
  | some c => .error (.badKey ("'" ++ String.singleton c ++
      "' isn't allowed in a key (letters, digits and . _ ~ : @ + / -)"))
  | none =>
      if s.toList.head? = some '/' then .error (.badKey "a key never starts with /")
      else
        let body := if trailingSlashOk && s.toList.getLast? = some '/' then s.toList.dropLast
          else s.toList
        match (segments body).find? fun seg => seg.isEmpty || seg = ['.', '.'] with
        | none => .ok ()
        | some [] => .error (.badKey "a key has no empty segment (//, or a trailing /)")
        | some _ => .error (.badKey "a key has no .. segment")

/-- Check one key. -/
def validateKey (key : String) : Except DataError Unit :=
  if key = "" ∨ Text.byteLen key > maxKeyBytes then
    .error (.badKey s!"a key is 1–{maxKeyBytes} bytes")
  else checkShape key false

/-- Check a prefix (`""` = the whole space). -/
def validatePrefix (pre : String) : Except DataError Unit :=
  if pre = "" then .ok ()
  else if Text.byteLen pre > maxKeyBytes then
    .error (.badKey s!"a prefix is at most {maxKeyBytes} bytes")
  else checkShape pre true

/-- Is `key` under `pre`? Plain string prefixes. -/
def under (pre key : String) : Bool := pre.toList.isPrefixOf key.toList

end K2.GardenData

/-! ## Documents -/

namespace K2

/-- Two numbers are equal to serde when they are the same integer or equal
    floats: of floats only the zeros are equal under two texts. -/
def Number.same : Number → Number → Bool
  | .int a, .int b => a = b
  | .float a, .float b => a = b || (zero a && zero b)
  | _, _ => false
where
  zero (text : String) : Bool := text = "0.0" || text = "-0.0"

mutual
/-- `Value::eq`. -/
def Value.same : Value → Value → Bool
  | .null, .null => true
  | .bool a, .bool b => a == b
  | .number a, .number b => a.same b
  | .string a, .string b => a = b
  | .array a, .array b => sameItems a b
  | .object a, .object b => sameMembers a b
  | _, _ => false

def sameItems : List Value → List Value → Bool
  | [], [] => true
  | a :: as, b :: bs => a.same b && sameItems as bs
  | _, _ => false

def sameMembers : List (String × Value) → List (String × Value) → Bool
  | [], [] => true
  | (n, a) :: as, (m, b) :: bs => n = m && a.same b && sameMembers as bs
  | _, _ => false
end

def Value.isObject : Value → Bool
  | .object _ => true
  | _ => false

/-- `Map::remove`. -/
def Members.remove (o : Members) (name : String) : Members := o.filter (·.1 ≠ name)

theorem Members.get_remove (o : Members) (name other : String) :
    Members.get (Members.remove o name) other = if other = name then none else Members.get o other := by
  induction o with
  | nil => simp [Members.remove, Members.get]
  | cons m rest ih =>
      obtain ⟨n, v⟩ := m
      simp only [Members.remove, Members.get, List.filter_cons] at ih ⊢
      by_cases gone : n = name
      · subst gone
        simp only [ne_eq, not_true, decide_false, Bool.false_eq_true, if_false, ih, List.lookup_cons]
        by_cases same : other = n <;> simp [same, beq_eq_false_iff_ne.mpr]
      · simp only [ne_eq, gone, not_false_eq_true, decide_true, if_true, List.lookup_cons]
        by_cases same : other = n
        · simp [same, gone]
        · simp only [beq_eq_false_iff_ne.mpr same, ih]

/-- `entry(k).or_insert(v)`: the map with a member under `k`, `v` where it had none. -/
def Members.orInsert (o : Members) (name : String) (v : Value) : Members :=
  if Members.containsKey o name then o else Members.insert o name v

theorem Members.get_orInsert (o : Members) (name : String) (v : Value) (other : String) :
    Members.get (Members.orInsert o name v) other =
      if other = name then some ((Members.get o name).getD v) else Members.get o other := by
  unfold Members.orInsert Members.containsKey
  cases found : Members.get o name with
  | none => simp [Members.get_insert]
  | some w =>
      by_cases own : other = name
      · subst own
        simp [found]
      · simp [own]

end K2

namespace K2.GardenData

/-- The members of a target that is an object, or of the empty one put in its
    place. -/
def madeObject : Value → Members
  | .object t => t
  | _ => []

mutual
/-- RFC 7396 JSON Merge Patch, applied in place. -/
def mergePatch (target : Value) : Value → Value
  | .object fields => .object (mergeFields (madeObject target) fields)
  | patch => patch

/-- Each field of the patch in turn. -/
def mergeFields (t : Members) : List (String × Value) → Members
  | [] => t
  | (k, .null) :: rest => mergeFields (Members.remove t k) rest
  | (k, .object fields) :: rest =>
      -- The merge goes on in the slot `or_insert` answers, a null where the name is new.
      let t := Members.orInsert t k .null
      let slot := (Members.get t k).getD .null
      mergeFields (Members.insert t k (mergePatch slot (.object fields))) rest
  | (k, v) :: rest => mergeFields (Members.insert t k v) rest
end

theorem mergeFields_cons (t : Members) (k : String) (v : Value) (rest : List (String × Value)) :
    ∃ t', mergeFields t ((k, v) :: rest) = mergeFields t' rest ∧
      (∀ name ≠ k, Members.get t' name = Members.get t name) ∧
      Members.get t' k = if v matches .null then none
        else some (mergePatch ((Members.get t k).getD .null) v) := by
  cases v with
  | null =>
      refine ⟨Members.remove t k, by rw [mergeFields], fun name apart => ?_, ?_⟩
      · rw [Members.get_remove, if_neg apart]
      · rw [Members.get_remove, if_pos rfl, if_pos rfl]
  | object fields =>
      refine ⟨_, by rw [mergeFields], fun name apart => ?_, ?_⟩
      · rw [Members.get_insert, if_neg apart, Members.get_orInsert, if_neg apart]
      · rw [Members.get_insert, if_pos rfl, Members.get_orInsert, if_pos rfl, if_neg (by simp)]
        rfl
  | _ =>
      refine ⟨Members.insert t k _, by rw [mergeFields] <;> simp, fun name apart => ?_, ?_⟩
      · rw [Members.get_insert, if_neg apart]
      · rw [Members.get_insert, if_pos rfl]
        simp [mergePatch]

theorem get_mergeFields_of_not_mem {fields : List (String × Value)} {name : String}
    (absent : name ∉ fields.map Prod.fst) (t : Members) :
    Members.get (mergeFields t fields) name = Members.get t name := by
  induction fields generalizing t with
  | nil => rw [mergeFields]
  | cons f rest ih =>
      obtain ⟨k, v⟩ := f
      simp only [List.map_cons, List.mem_cons, not_or] at absent
      obtain ⟨t', next, others, -⟩ := mergeFields_cons t k v rest
      rw [next, ih absent.2, others name absent.1]

theorem get_mergeFields_congr {t t' : Members} {name : String}
    (same : Members.get t name = Members.get t' name) (fields : List (String × Value)) :
    Members.get (mergeFields t fields) name = Members.get (mergeFields t' fields) name := by
  induction fields generalizing t t' with
  | nil => simpa only [mergeFields] using same
  | cons f rest ih =>
      obtain ⟨k, v⟩ := f
      obtain ⟨u, next, others, here⟩ := mergeFields_cons t k v rest
      obtain ⟨u', next', others', here'⟩ := mergeFields_cons t' k v rest
      rw [next, next']
      apply ih
      by_cases own : name = k
      · subst own
        rw [here, here', same]
      · rw [others name own, others' name own, same]

theorem get_mergeFields_comm {fields later : List (String × Value)}
    (disjoint : List.Disjoint (fields.map Prod.fst) (later.map Prod.fst)) (t : Members) (name : String) :
    Members.get (mergeFields (mergeFields t fields) later) name =
      Members.get (mergeFields (mergeFields t later) fields) name := by
  by_cases own : name ∈ fields.map Prod.fst
  · have absent := disjoint own
    rw [get_mergeFields_of_not_mem absent]
    exact get_mergeFields_congr (get_mergeFields_of_not_mem absent t).symm fields
  · rw [get_mergeFields_of_not_mem own (mergeFields t later)]
    exact get_mergeFields_congr (get_mergeFields_of_not_mem own t) later

/-- The partial's own checks, before anything is read. -/
def checkPartial (part : Value) (ifRev : Option Int) : Except DataError Unit :=
  if !part.isObject then .error (.badRequest
    "store.patch takes an object of fields (null removes a field); use store.put to replace a whole value")
  else if ifRev.any (· < 0) then .error (.badRequest "store.patch: ifRev is 0 or more")
  else .ok ()

/-- The document after merging `part` into `current`, the key's live value;
    nothing when the merge changes nothing. -/
def merged (key : String) (current : Option Value) (part : Value) : Except DataError (Option Value) :=
  match current with
  | some v =>
      if v.isObject then
        let out := mergePatch v part
        .ok (if v.same out then none else some out)
      else .error (.badRequest ("the value at '" ++ key ++
        "' isn't an object, so it has no fields to patch; use store.put"))
  | none => .ok (some (mergePatch (.object []) part))

end K2.GardenData
