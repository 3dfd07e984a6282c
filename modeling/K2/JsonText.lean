import K2.Json
import Mathlib

/-! # The compact form of a JSON value

Where the text of a value ends can be read off the text, so a text is the text of one
value only.
-/

namespace K2

/-! ## Strings -/

def hexVal (c : Char) : Nat := if c.toNat < 58 then c.toNat - 48 else c.toNat - 87

/-- The character an escaped text starts with, and the text after it. -/
def unescapeChar : List Char → Option (Char × List Char)
  | '\\' :: '"' :: rest => some ('"', rest)
  | '\\' :: '\\' :: rest => some ('\\', rest)
  | '\\' :: 'b' :: rest => some (Char.ofNat 0x8, rest)
  | '\\' :: 't' :: rest => some (Char.ofNat 0x9, rest)
  | '\\' :: 'n' :: rest => some (Char.ofNat 0xa, rest)
  | '\\' :: 'f' :: rest => some (Char.ofNat 0xc, rest)
  | '\\' :: 'r' :: rest => some (Char.ofNat 0xd, rest)
  | '\\' :: 'u' :: '0' :: '0' :: hi :: lo :: rest => some (Char.ofNat (16 * hexVal hi + hexVal lo), rest)
  | '\\' :: _ => none
  | '"' :: _ => none
  | c :: rest => some (c, rest)
  | [] => none

theorem unescapeChar_control {n : Nat} (control : n < 0x20) (rest : List Char) :
    unescapeChar (escapeChar (Char.ofNat n) ++ rest) = some (Char.ofNat n, rest) := by
  interval_cases n <;> rfl

theorem unescapeChar_plain {c : Char} (quote : c ≠ '"') (backslash : c ≠ '\\') (rest : List Char) :
    unescapeChar (c :: rest) = some (c, rest) := by
  unfold unescapeChar
  split <;> simp_all

theorem unescapeChar_escapeChar (c : Char) (rest : List Char) :
    unescapeChar (escapeChar c ++ rest) = some (c, rest) := by
  by_cases quote : c = '"'
  · subst quote
    rfl
  by_cases backslash : c = '\\'
  · subst backslash
    rfl
  by_cases control : c.toNat < 0x20
  · simpa only [Char.ofNat_toNat] using unescapeChar_control control rest
  · have plain : escapeChar c = [c] := by
      unfold escapeChar
      rw [if_neg quote, if_neg backslash]
      split <;> first | omega | rw [if_neg control]
    rw [plain]
    exact unescapeChar_plain quote backslash rest

theorem escaped_inj {cs ds r r' : List Char}
    (same : cs.flatMap escapeChar ++ '"' :: r = ds.flatMap escapeChar ++ '"' :: r') : cs = ds ∧ r = r' := by
  induction cs generalizing ds with
  | nil =>
      cases ds with
      | nil => exact ⟨rfl, (List.cons.inj same).2⟩
      | cons d ds =>
          have read := congrArg unescapeChar same
          rw [List.flatMap_cons, List.append_assoc, unescapeChar_escapeChar] at read
          cases read
  | cons c cs ih =>
      have read := congrArg unescapeChar same
      rw [List.flatMap_cons, List.append_assoc, unescapeChar_escapeChar] at read
      cases ds with
      | nil => cases read
      | cons d ds =>
          rw [List.flatMap_cons, List.append_assoc, unescapeChar_escapeChar] at read
          obtain ⟨rfl, rest⟩ := Prod.mk.inj (Option.some.inj read)
          obtain ⟨rfl, rfl⟩ := ih rest
          exact ⟨rfl, rfl⟩

theorem renderString_inj {s t : String} {r r' : List Char} (same : renderString s ++ r = renderString t ++ r') :
    s = t ∧ r = r' := by
  have body : s.toList.flatMap escapeChar ++ '"' :: r = t.toList.flatMap escapeChar ++ '"' :: r' := by
    simpa [renderString] using same
  obtain ⟨chars, rest⟩ := escaped_inj body
  exact ⟨String.toList_injective chars, rest⟩

/-! ## Numbers -/

/-- A character of a number's text. -/
def isNumeric (c : Char) : Bool := c.isDigit || c = '-' || c = '+' || c = '.' || c = 'e'

/-- The text serde prints for a float: it carries a point or an exponent. -/
structure FloatText (text : String) : Prop where
  numeric : ∀ c ∈ text.toList, isNumeric c = true
  marked : '.' ∈ text.toList ∨ 'e' ∈ text.toList

def Number.text : Number → List Char
  | .int n => (toString n).toList
  | .float text => text.toList

def Number.Printed : Number → Prop
  | .int _ => True
  | .float text => FloatText text

theorem nat_digits {n : Nat} {c : Char} (digit : c ∈ n.repr.toList) : c.isDigit = true := by
  rw [Nat.toList_repr] at digit
  exact Nat.isDigit_of_mem_toDigits (by decide) (by decide) digit

theorem int_chars {n : Int} {c : Char} (mem : c ∈ (toString n).toList) : c.isDigit = true ∨ c = '-' := by
  cases n with
  | ofNat n => exact .inl (nat_digits mem)
  | negSucc n =>
      have mem : c ∈ ("-" ++ (n + 1).repr).toList := mem
      rw [String.toList_append] at mem
      rcases List.mem_append.mp mem with minus | digit
      · exact .inr (List.mem_singleton.mp minus)
      · exact .inl (nat_digits digit)

theorem Number.text_numeric {n : Number} (printed : n.Printed) {c : Char} (mem : c ∈ n.text) : isNumeric c = true := by
  cases n with
  | int n => rcases int_chars mem with digit | rfl <;> simp_all [isNumeric]
  | float text => exact printed.numeric c mem

theorem Number.text_ne_nil {n : Number} (printed : n.Printed) : n.text ≠ [] := by
  cases n with
  | int n => cases n <;> simp [text, toString, Int.repr]
  | float text =>
      rcases printed.marked with mark | mark
      · exact List.ne_nil_of_mem mark
      · exact List.ne_nil_of_mem mark

theorem int_unmarked {n : Int} {text : String} (printed : FloatText text) : (toString n).toList ≠ text.toList := by
  intro same
  have unmarked {c : Char} (mem : c ∈ text.toList) (mark : c = '.' ∨ c = 'e') : False := by
    rcases int_chars (same ▸ mem) with digit | rfl
    · rcases mark with rfl | rfl <;> exact absurd digit (by decide)
    · rcases mark with mark | mark <;> exact absurd mark (by decide)
  rcases printed.marked with mark | mark
  · exact unmarked mark (.inl rfl)
  · exact unmarked mark (.inr rfl)

theorem Number.text_inj {m n : Number} (hm : m.Printed) (hn : n.Printed) (same : m.text = n.text) : m = n := by
  cases m <;> cases n
  case int.int => exact congrArg Number.int (Int.repr_injective (String.toList_injective same))
  case int.float => exact absurd same (int_unmarked hn)
  case float.int => exact absurd same.symm (int_unmarked hm)
  case float.float => exact congrArg Number.float (String.toList_injective same)

/-- A text after a value: it is over, or a separator follows. -/
def Stops (r : List Char) : Prop := ∀ c ∈ r.head?, c = ',' ∨ c = ']' ∨ c = '\x7d'

theorem run_inj {p : Char → Bool} {a b r r' : List Char} (ha : ∀ c ∈ a, p c = true) (hb : ∀ c ∈ b, p c = true)
    (hr : ∀ c ∈ r.head?, p c = false) (hr' : ∀ c ∈ r'.head?, p c = false) (same : a ++ r = b ++ r') :
    a = b ∧ r = r' := by
  induction a generalizing b with
  | nil =>
      cases b with
      | nil => exact ⟨rfl, same⟩
      | cons c b =>
          have stop := hr c (by rw [show r = c :: (b ++ r') from same]; rfl)
          exact absurd (hb c (List.mem_cons_self ..)) (by simp [stop])
  | cons c a ih =>
      cases b with
      | nil =>
          have stop := hr' c (by rw [show r' = c :: (a ++ r) from same.symm]; rfl)
          exact absurd (ha c (List.mem_cons_self ..)) (by simp [stop])
      | cons d b =>
          obtain ⟨rfl, rest⟩ := List.cons.inj same
          obtain ⟨rfl, rfl⟩ := ih (fun c mem => ha c (List.mem_cons_of_mem _ mem))
            (fun c mem => hb c (List.mem_cons_of_mem _ mem)) rest
          exact ⟨rfl, rfl⟩

theorem Stops.not_numeric {r : List Char} (stops : Stops r) : ∀ c ∈ r.head?, isNumeric c = false := by
  intro c head
  rcases stops c head with rfl | rfl | rfl <;> decide

theorem Number.render_inj {m n : Number} {r r' : List Char} (hm : m.Printed) (hn : n.Printed) (hr : Stops r)
    (hr' : Stops r') (same : m.text ++ r = n.text ++ r') : m = n ∧ r = r' := by
  obtain ⟨text, rest⟩ := run_inj (fun _ => text_numeric hm) (fun _ => text_numeric hn) hr.not_numeric
    hr'.not_numeric same
  exact ⟨text_inj hm hn text, rest⟩

/-! ## Values -/

/-- The first character of a value tells what the value is. -/
def lead (c : Char) : Nat :=
  if c = 'n' then 0 else if c = 't' then 1 else if c = 'f' then 2 else if isNumeric c then 3
  else if c = '"' then 4 else if c = '[' then 5 else if c = '\x7b' then 6 else 7

namespace Value

def kind : Value → Nat
  | null => 0
  | bool true => 1
  | bool false => 2
  | number _ => 3
  | string _ => 4
  | array _ => 5
  | object _ => 6

mutual
/-- Every float is one that serde prints. -/
def Printed : Value → Prop
  | number n => n.Printed
  | array items => PrintedItems items
  | object members => PrintedMembers members
  | _ => True

def PrintedItems : List Value → Prop
  | [] => True
  | v :: rest => v.Printed ∧ PrintedItems rest

def PrintedMembers : List (String × Value) → Prop
  | [] => True
  | (_, v) :: rest => v.Printed ∧ PrintedMembers rest
end

theorem render_lead {v : Value} (printed : v.Printed) : ∃ c rest, v.render = c :: rest ∧ lead c = v.kind := by
  cases v with
  | null => exact ⟨_, _, rfl, by decide⟩
  | bool b => cases b <;> exact ⟨_, _, rfl, by decide⟩
  | number n =>
      have printed : n.Printed := by simpa only [Printed] using printed
      cases text : n.text with
      | nil => exact absurd text (n.text_ne_nil printed)
      | cons c rest =>
          have render : (number n).render = n.text := by cases n <;> simp only [render, Number.text]
          have numeric : isNumeric c = true := n.text_numeric printed (by rw [text]; exact List.mem_cons_self ..)
          refine ⟨c, rest, render.trans text, ?_⟩
          have letters : c ≠ 'n' ∧ c ≠ 't' ∧ c ≠ 'f' := by
            refine ⟨?_, ?_, ?_⟩ <;> rintro rfl <;> exact absurd numeric (by decide)
          simp [lead, kind, numeric, letters]
  | string s => exact ⟨'"', _, by rw [render, renderString]; rfl, (by decide : lead '"' = 4)⟩
  | array items => exact ⟨'[', _, by rw [render]; rfl, (by decide : lead '[' = 5)⟩
  | object members => exact ⟨'\x7b', _, by rw [render]; rfl, (by decide : lead '\x7b' = 6)⟩

theorem kind_eq {v w : Value} {r r' : List Char} (hv : v.Printed) (hw : w.Printed)
    (same : v.render ++ r = w.render ++ r') : v.kind = w.kind := by
  obtain ⟨c, rest, text, kind⟩ := render_lead hv
  obtain ⟨c', rest', text', kind'⟩ := render_lead hw
  rw [text, text'] at same
  rw [← kind, ← kind', (List.cons.inj same).1]

end Value

theorem Value.render_ne_close {v : Value} (printed : v.Printed) (x y : List Char) : v.render ++ x ≠ ']' :: y := by
  obtain ⟨c, rest, text, kind⟩ := render_lead printed
  rw [text]
  intro same
  obtain ⟨rfl, -⟩ := List.cons.inj same
  rw [(by decide : lead ']' = 7)] at kind
  cases v with
  | bool b => cases b <;> cases kind
  | _ => cases kind

theorem stops_cons {c : Char} (stop : c = ',' ∨ c = ']' ∨ c = '\x7d') (r : List Char) : Stops (c :: r) := by
  intro d head
  cases head
  exact stop

theorem stops_tail {α : Type} {close : Char} (stop : close = ']' ∨ close = '\x7d') {rest : List α}
    {more r : List Char} : Stops ((if rest.isEmpty then [] else ',' :: more) ++ ([close] ++ r)) := by
  cases rest with
  | nil => exact stops_cons (.inr stop) r
  | cons => exact stops_cons (.inl rfl) _

theorem renderItems_cons (v : Value) (rest : List Value) :
    renderItems (v :: rest) = v.render ++ (if rest.isEmpty then [] else ',' :: renderItems rest) := by
  cases rest <;> simp [renderItems]

theorem renderMembers_cons (name : String) (v : Value) (rest : List (String × Value)) :
    renderMembers ((name, v) :: rest) =
      renderString name ++ ([':'] ++ (v.render ++ (if rest.isEmpty then [] else ',' :: renderMembers rest))) := by
  cases rest <;> simp [renderMembers]

mutual
theorem Value.render_inj (v w : Value) {r r' : List Char} (hv : v.Printed) (hw : w.Printed) (hr : Stops r)
    (hr' : Stops r') (same : v.render ++ r = w.render ++ r') : v = w ∧ r = r' := by
  have kind := Value.kind_eq hv hw same
  match v, w, kind with
  | .null, .null, _ => exact ⟨rfl, List.append_cancel_left same⟩
  | .bool true, .bool true, _ => exact ⟨rfl, List.append_cancel_left same⟩
  | .bool false, .bool false, _ => exact ⟨rfl, List.append_cancel_left same⟩
  | .number m, .number n, _ =>
      have text (n : Number) : (Value.number n).render = n.text := by cases n <;> simp only [Value.render, Number.text]
      rw [text, text] at same
      simp only [Value.Printed] at hv hw
      obtain ⟨rfl, rest⟩ := Number.render_inj hv hw hr hr' same
      exact ⟨rfl, rest⟩
  | .string s, .string t, _ =>
      simp only [Value.render] at same
      obtain ⟨rfl, rest⟩ := renderString_inj same
      exact ⟨rfl, rest⟩
  | .array items, .array items', _ =>
      simp only [Value.render, List.cons_append, List.append_assoc, List.cons.injEq, true_and] at same
      simp only [Value.Printed] at hv hw
      obtain ⟨rfl, rest⟩ := renderItems_inj items items' hv hw same
      exact ⟨rfl, rest⟩
  | .object members, .object members', _ =>
      simp only [Value.render, List.cons_append, List.append_assoc, List.cons.injEq, true_and] at same
      simp only [Value.Printed] at hv hw
      obtain ⟨rfl, rest⟩ := renderMembers_inj members members' hv hw same
      exact ⟨rfl, rest⟩

theorem renderItems_inj (vs ws : List Value) {r r' : List Char} (hv : Value.PrintedItems vs)
    (hw : Value.PrintedItems ws) (same : renderItems vs ++ ([']'] ++ r) = renderItems ws ++ ([']'] ++ r')) :
    vs = ws ∧ r = r' := by
  match vs, ws with
  | [], [] => exact ⟨rfl, (List.cons.inj same).2⟩
  | [], w :: ws =>
      rw [renderItems_cons, List.append_assoc] at same
      exact absurd same.symm (w.render_ne_close hw.1 _ _)
  | v :: vs, [] =>
      rw [renderItems_cons, List.append_assoc] at same
      exact absurd same (v.render_ne_close hv.1 _ _)
  | v :: vs, w :: ws =>
      rw [renderItems_cons, renderItems_cons, List.append_assoc, List.append_assoc] at same
      obtain ⟨rfl, rest⟩ := Value.render_inj v w hv.1 hw.1 (stops_tail (.inl rfl)) (stops_tail (.inl rfl)) same
      match vs, ws with
      | [], [] => exact ⟨rfl, (List.cons.inj rest).2⟩
      | [], _ :: _ => exact absurd (List.cons.inj rest).1 (by decide)
      | _ :: _, [] => exact absurd (List.cons.inj rest).1 (by decide)
      | v' :: vs, w' :: ws =>
          obtain ⟨eq, rest⟩ := renderItems_inj (v' :: vs) (w' :: ws) hv.2 hw.2 (List.cons.inj rest).2
          exact ⟨by rw [eq], rest⟩

theorem renderMembers_inj (ms ns : List (String × Value)) {r r' : List Char} (hv : Value.PrintedMembers ms)
    (hw : Value.PrintedMembers ns)
    (same : renderMembers ms ++ (['\x7d'] ++ r) = renderMembers ns ++ (['\x7d'] ++ r')) : ms = ns ∧ r = r' := by
  match ms, ns with
  | [], [] => exact ⟨rfl, (List.cons.inj same).2⟩
  | [], (name, v) :: ns =>
      rw [renderMembers_cons] at same
      exact absurd (List.cons.inj same).1 (by decide)
  | (name, v) :: ms, [] =>
      rw [renderMembers_cons] at same
      exact absurd (List.cons.inj same).1 (by decide)
  | (name, v) :: ms, (name', w) :: ns =>
      simp only [renderMembers_cons, List.append_assoc] at same
      obtain ⟨rfl, value⟩ := renderString_inj same
      have value := List.append_cancel_left value
      obtain ⟨rfl, rest⟩ := Value.render_inj v w hv.1 hw.1 (stops_tail (.inr rfl)) (stops_tail (.inr rfl)) value
      match ms, ns with
      | [], [] => exact ⟨rfl, (List.cons.inj rest).2⟩
      | [], _ :: _ => exact absurd (List.cons.inj rest).1 (by decide)
      | _ :: _, [] => exact absurd (List.cons.inj rest).1 (by decide)
      | m :: ms, n :: ns =>
          obtain ⟨eq, rest⟩ := renderMembers_inj (m :: ms) (n :: ns) hv.2 hw.2 (List.cons.inj rest).2
          exact ⟨by rw [eq], rest⟩
end

theorem Value.render_injective {v w : Value} (hv : v.Printed) (hw : w.Printed) (same : v.render = w.render) : v = w := by
  have ended : Stops [] := nofun
  refine (Value.render_inj v w hv hw ended ended ?_).1
  rw [same]

end K2
