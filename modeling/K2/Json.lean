import K2.Text
import Mathlib.Algebra.Group.Int.Defs
import Mathlib.Algebra.GroupWithZero.Nat

/-! # JSON values

`serde_json::Value` as the sync stores read and write it. An object is its
members sorted by name, each name once; a number is an integer that fits `i64` or
`u64`, or a float, which is kept as the text serde prints for it (no modelled
function looks inside one).
-/

namespace K2

inductive Number where
  | int (n : Int)
  | float (text : String)
  deriving Repr, DecidableEq

inductive Value where
  | null
  | bool (b : Bool)
  | number (n : Number)
  | string (s : String)
  | array (items : List Value)
  | object (members : List (String × Value))
  deriving Repr

/-- `serde_json::Map`. -/
abbrev Members := List (String × Value)

/-- `Option::ok_or`. -/
def okOr {ε α : Type} (x : Option α) (e : ε) : Except ε α :=
  match x with
  | some a => .ok a
  | none => .error e

@[simp] theorem okOr_eq_ok {ε α : Type} {x : Option α} {e : ε} {a : α} :
    okOr x e = .ok a ↔ x = some a := by
  cases x <;> simp [okOr]

/-- A step of a parser that succeeded: its first part did, and then the rest. -/
theorem bind_eq_ok {ε α β : Type} {x : Except ε α} {f : α → Except ε β} {b : β} :
    x >>= f = .ok b ↔ ∃ a, x = .ok a ∧ f a = .ok b := by
  cases x <;> simp [bind, Except.bind]

namespace Members

/-- `Map::get`. -/
def get (o : Members) (name : String) : Option Value := o.lookup name

def containsKey (o : Members) (name : String) : Bool := (o.get name).isSome

/-- `Map::insert`: the value under a name it has, or a new member in its
    place. -/
def insert : Members → String → Value → Members
  | [], name, v => [(name, v)]
  | (n, old) :: rest, name, v =>
      if n = name then (n, v) :: rest
      else if name < n then (name, v) :: (n, old) :: rest
      else (n, old) :: insert rest name v

private theorem get_cons (m : String × Value) (o : Members) (name : String) :
    get (m :: o) name = if name = m.1 then some m.2 else o.get name := by
  obtain ⟨n, v⟩ := m
  by_cases h : name = n
  · simp [get, h]
  · simp [get, List.lookup_cons, h, beq_eq_false_iff_ne.mpr h]

theorem get_insert (o : Members) (name : String) (v : Value) (other : String) :
    (o.insert name v).get other = if other = name then some v else o.get other := by
  induction o with
  | nil => rw [insert, get_cons]
  | cons m rest ih =>
      obtain ⟨n, old⟩ := m
      simp only [insert]
      split
      · rename_i same
        subst same
        simp only [get_cons]
        split <;> rfl
      · rename_i different
        split
        · simp only [get_cons]
        · simp only [get_cons, ih]
          by_cases h : other = n
          · subst h
            simp [different]
          · simp [h]

end Members

namespace Value

def asObject : Value → Option Members
  | .object o => some o
  | _ => none

def asStr : Value → Option String
  | .string s => some s
  | _ => none

/-- `Value::as_i64`: an integer, when it fits `i64`. -/
def asI64 : Value → Option Int
  | .number (.int n) => if -(2 ^ 63) ≤ n ∧ n < 2 ^ 63 then some n else none
  | _ => none

/-- `Value::as_u64`: an integer, when it fits `u64`. -/
def asU64 : Value → Option Nat
  | .number (.int n) => if 0 ≤ n ∧ n < 2 ^ 64 then some n.toNat else none
  | _ => none

def isString : Value → Bool
  | .string _ => true
  | _ => false

def isNull : Value → Bool
  | .null => true
  | _ => false

def asBool : Value → Option Bool
  | .bool b => some b
  | _ => none

/-- `Value::get`, by name. -/
def get (v : Value) (name : String) : Option Value := v.asObject.bind (·.get name)

end Value

/-- A lowercase hex digit. -/
def hexDigit (n : Nat) : Char := if n < 10 then Char.ofNat (48 + n) else Char.ofNat (87 + n)

/-- One character of a string as serde escapes it. -/
def escapeChar (c : Char) : List Char :=
  if c = '"' then ['\\', '"']
  else if c = '\\' then ['\\', '\\']
  else match c.toNat with
    | 0x8 => ['\\', 'b']
    | 0x9 => ['\\', 't']
    | 0xa => ['\\', 'n']
    | 0xc => ['\\', 'f']
    | 0xd => ['\\', 'r']
    | n => if n < 0x20 then ['\\', 'u', '0', '0', hexDigit (n / 16), hexDigit (n % 16)] else [c]

def renderString (s : String) : List Char := '"' :: s.toList.flatMap escapeChar ++ ['"']

mutual
/-- `Value::to_string`: the compact form. -/
def Value.render : Value → List Char
  | .null => "null".toList
  | .bool b => (if b then "true" else "false").toList
  | .number (.int n) => (toString n).toList
  | .number (.float text) => text.toList
  | .string s => renderString s
  | .array items => '[' :: renderItems items ++ [']']
  | .object members => '\x7b' :: renderMembers members ++ ['\x7d']

def renderItems : List Value → List Char
  | [] => []
  | [v] => v.render
  | v :: w :: rest => v.render ++ ',' :: renderItems (w :: rest)

def renderMembers : List (String × Value) → List Char
  | [] => []
  | [(name, v)] => renderString name ++ ':' :: v.render
  | (name, v) :: m :: rest => renderString name ++ ':' :: v.render ++ ',' :: renderMembers (m :: rest)
end

/-- `value.to_string().len()`: the bytes of the compact form in UTF-8. -/
def Value.byteLen (v : Value) : Nat := (v.render.map Char.utf8Size).sum

end K2
