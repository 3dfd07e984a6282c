import K2.JsonText
import K2.Text

/-! # Canonical JSON

The form that signatures and digests cover: names in byte order at every level, no
whitespace. It forgets the order of an object's members and nothing else.
-/

namespace K2.NodeProto

/-- `keys.sort()`, with the values along. -/
def sortKeys {α : Type} (members : List (String × α)) : List (String × α) :=
  members.mergeSort fun a b => decide (a.1 ≤ b.1)

mutual
/-- `write_value`. -/
def writeValue : Value → List Char
  | .object members =>
      '\x7b' :: List.intercalate [','] ((sortKeys (writeMembers members)).map fun m => renderString m.1 ++ ':' :: m.2)
        ++ ['\x7d']
  | .array items => '[' :: List.intercalate [','] (writeItems items) ++ [']']
  | .null => Value.null.render
  | .bool b => (Value.bool b).render
  | .number n => (Value.number n).render
  | .string s => (Value.string s).render

def writeItems : List Value → List (List Char)
  | [] => []
  | v :: rest => writeValue v :: writeItems rest

def writeMembers : List (String × Value) → List (String × List Char)
  | [] => []
  | (name, v) :: rest => (name, writeValue v) :: writeMembers rest
end

/-- `to_vec`: the canonical bytes of a value. -/
def toVec (v : Value) : List UInt8 := utf8 (String.ofList (writeValue v))

/-! ## The value that is written -/

mutual
/-- The value with its members sorted at every level. -/
def canon : Value → Value
  | .object members => .object (sortKeys (canonMembers members))
  | .array items => .array (canonItems items)
  | .null => .null
  | .bool b => .bool b
  | .number n => .number n
  | .string s => .string s

def canonItems : List Value → List Value
  | [] => []
  | v :: rest => canon v :: canonItems rest

def canonMembers : List (String × Value) → List (String × Value)
  | [] => []
  | (name, v) :: rest => (name, canon v) :: canonMembers rest
end

theorem mem_sortKeys {α : Type} {m : String × α} {members : List (String × α)} :
    m ∈ sortKeys members ↔ m ∈ members := List.mem_mergeSort

theorem sortKeys_map {α β : Type} (f : α → β) (members : List (String × α)) :
    sortKeys (members.map fun m => (m.1, f m.2)) = (sortKeys members).map fun m => (m.1, f m.2) := by
  have name (m : String × α) : (m.1, f m.2).1 = m.1 := rfl
  exact (List.map_mergeSort fun a _ b _ => by rw [name a, name b]).symm

theorem renderItems_eq (items : List Value) :
    renderItems items = List.intercalate [','] (items.map Value.render) := by
  induction items with
  | nil => rfl
  | cons v rest ih => cases rest <;> simp_all [renderItems, List.intercalate]

theorem renderMembers_eq (members : List (String × Value)) :
    renderMembers members = List.intercalate [','] (members.map fun m => renderString m.1 ++ ':' :: m.2.render) := by
  induction members with
  | nil => rfl
  | cons m rest ih => cases rest <;> simp_all [renderMembers, List.intercalate]

mutual
theorem writeValue_eq (v : Value) : writeValue v = (canon v).render := by
  match v with
  | .null | .bool _ | .number _ | .string _ => rfl
  | .array items =>
      rw [writeValue, canon, Value.render, renderItems_eq, writeItems_eq items]
  | .object members =>
      rw [writeValue, canon, Value.render, renderMembers_eq, writeMembers_eq members, sortKeys_map, List.map_map]
      rfl

theorem writeItems_eq (items : List Value) : writeItems items = (canonItems items).map Value.render := by
  match items with
  | [] => rfl
  | v :: rest => rw [writeItems, canonItems, List.map_cons, writeValue_eq v, writeItems_eq rest]

theorem writeMembers_eq (members : List (String × Value)) :
    writeMembers members = (canonMembers members).map fun m => (m.1, m.2.render) := by
  match members with
  | [] => rfl
  | (name, v) :: rest => rw [writeMembers, canonMembers, List.map_cons, writeValue_eq v, writeMembers_eq rest]
end

theorem printedMembers_iff {members : List (String × Value)} :
    Value.PrintedMembers members ↔ ∀ m ∈ members, m.2.Printed := by
  induction members with
  | nil => simp [Value.PrintedMembers]
  | cons m rest ih => simp [Value.PrintedMembers, ih]

mutual
theorem canon_printed {v : Value} (printed : v.Printed) : (canon v).Printed := by
  match v with
  | .null | .bool _ | .number _ | .string _ => exact printed
  | .array items =>
      rw [canon, Value.Printed]
      exact canonItems_printed (by simpa only [Value.Printed] using printed)
  | .object members =>
      have printed : Value.PrintedMembers (canonMembers members) :=
        canonMembers_printed (by simpa only [Value.Printed] using printed)
      rw [canon, Value.Printed, printedMembers_iff]
      exact fun m mem => printedMembers_iff.mp printed m (mem_sortKeys.mp mem)

theorem canonItems_printed {items : List Value} (printed : Value.PrintedItems items) :
    Value.PrintedItems (canonItems items) := by
  match items with
  | [] => trivial
  | v :: rest => exact ⟨canon_printed printed.1, canonItems_printed printed.2⟩

theorem canonMembers_printed {members : List (String × Value)} (printed : Value.PrintedMembers members) :
    Value.PrintedMembers (canonMembers members) := by
  match members with
  | [] => trivial
  | (name, v) :: rest => exact ⟨canon_printed printed.1, canonMembers_printed printed.2⟩
end

/-- Two values with the same canonical bytes differ in the order of members only. -/
theorem toVec_inj {v w : Value} (hv : v.Printed) (hw : w.Printed) (same : toVec v = toVec w) : canon v = canon w := by
  have text := String.ofList_injective (utf8_injective same)
  rw [writeValue_eq, writeValue_eq] at text
  exact Value.render_injective (canon_printed hv) (canon_printed hw) text

end K2.NodeProto
