import K2.Json
import K2.Text
import Mathlib.Data.List.Destutter

/-! # The forms a secret turns up in

Every byte pattern that is redacted for one value: the value itself, its base64
at each of the three byte alignments, hex, percent-encoding and JSON escaping. -/

namespace K2.Redact

def ascii (s : String) : List UInt8 := s.toList.map fun c => UInt8.ofNat c.toNat

def hexDigits : List UInt8 := ascii "0123456789abcdef"

/-- Lowercase hex. -/
def hex (b : List UInt8) : List UInt8 :=
  b.flatMap fun x : UInt8 => [hexDigits.getD (x >>> 4).toNat 0, hexDigits.getD (x &&& 15).toNat 0]

def upper (b : List UInt8) : List UInt8 := b.map fun x => if 0x61 ≤ x ∧ x ≤ 0x7A then x - 0x20 else x

/-! ## Base64 -/

def b64Std : List UInt8 := ascii "ABCDEFGHIJKLMNOPQRSTUVWXYZabcdefghijklmnopqrstuvwxyz0123456789+/"
def b64Url : List UInt8 := ascii "ABCDEFGHIJKLMNOPQRSTUVWXYZabcdefghijklmnopqrstuvwxyz0123456789-_"

/-- Bit `i` of `v`, most significant bit of `v[0]` first. -/
def bit (v : List UInt8) (i : Nat) : UInt8 := (v.getD (i / 8) 0 >>> UInt8.ofNat (7 - i % 8)) &&& 1

/-- The value of `n` bits of `v` from bit `first`. -/
def bits (v : List UInt8) (first n : Nat) : UInt8 :=
  (List.range n).foldl (fun acc k => (acc <<< 1) ||| bit v (first + k)) 0

def charOf (alpha : List UInt8) (x : UInt8) : UInt8 := alpha.getD x.toNat 0

/-- What may stand before the characters made of `v`'s bits only: nothing, or a
    character whose low `k` bits are `v`'s first `k` bits. -/
def leading (v alpha : List UInt8) (s0 first : Nat) : List (List UInt8) :=
  if s0 % 6 = 0 then [[]]
  else
    let k := 6 * first - s0
    (List.range (1 <<< (6 - k))).map fun u => [charOf alpha ((UInt8.ofNat u <<< UInt8.ofNat k) ||| bits v 0 k)]

/-- And after them: nothing, or a character whose high `k` bits are `v`'s last
    `k` bits, once more with its padding. -/
def trailing (v alpha : List UInt8) (s1 last : Nat) : List (List UInt8) :=
  if s1 % 6 = 0 then [[]]
  else
    let k := s1 - 6 * last
    let known := bits v (v.length * 8 - k) k <<< UInt8.ofNat (6 - k)
    (List.range (1 <<< (6 - k))).map (fun u => [charOf alpha (known ||| UInt8.ofNat u)])
      ++ [charOf alpha known :: List.replicate ((6 - k) / 2) 0x3D]

/-- The base64 forms of `v` at bits `8 * shift` on of the encoded data. -/
def aligned (v alpha : List UInt8) (shift : Nat) : List (List UInt8) :=
  let s0 := 8 * shift
  let s1 := s0 + v.length * 8
  let first := (s0 + 5) / 6
  let last := s1 / 6
  let full := (List.range' first (last - first)).map fun c => charOf alpha (bits v (6 * c - s0) 6)
  ((leading v alpha s0 first).flatMap fun l => (trailing v alpha s1 last).map fun t => l ++ full ++ t).filter
    fun q => decide (4 ≤ q.length)

def base64Variants (v : List UInt8) : List (List UInt8) :=
  if v.length < 3 then []
  else (List.range 3).flatMap fun shift => [b64Std, b64Url].flatMap fun alpha => aligned v alpha shift

/-! ## Percent and JSON -/

/-- Letters, digits and `-._~` stand for themselves. -/
def unreserved (b : UInt8) : Bool :=
  (0x30 ≤ b && b ≤ 0x39) || (0x41 ≤ b && b ≤ 0x5A) || (0x61 ≤ b && b ≤ 0x7A) || b ∈ ascii "-._~"

def percent (v : List UInt8) (big : Bool) : List UInt8 :=
  v.flatMap fun b => if unreserved b then [b] else 0x25 :: if big then upper (hex [b]) else hex [b]

/-- The JSON string of a text without its quotes, and once more with escaped
    slashes. -/
def jsonVariants (v : List UInt8) : List (List UInt8) :=
  match fromUtf8 v with
  | none => []
  | some s =>
      let inner := s.toList.flatMap escapeChar
      [utf8 (String.ofList inner),
        utf8 (String.ofList (inner.flatMap fun c => if c = '/' then ['\\', '/'] else [c]))]

/-- `sort` and `dedup`. -/
def sorted (l : List (List UInt8)) : List (List UInt8) :=
  (l.mergeSort fun a b => decide (a ≤ b)).destutter (· ≠ ·)

/-- Every byte pattern that should be redacted for one value. -/
def variants (v : List UInt8) : List (List UInt8) :=
  sorted (v :: base64Variants v ++ [hex v, upper (hex v), percent v true, percent v false] ++ jsonVariants v)

/-! ## No form is empty -/

theorem mem_of_mem_sorted {l : List (List UInt8)} {p : List UInt8} (mem : p ∈ sorted l) : p ∈ l :=
  List.mem_mergeSort.mp ((List.destutter_sublist ..).subset mem)

theorem flatMap_ne_nil {α β : Type} {l : List α} {f : α → List β} (nonempty : l ≠ []) (each : ∀ a ∈ l, f a ≠ []) :
    l.flatMap f ≠ [] := by
  obtain ⟨a, rest, rfl⟩ := List.exists_cons_of_ne_nil nonempty
  rw [List.flatMap_cons]
  exact List.append_ne_nil_of_left_ne_nil (each a (List.mem_cons_self ..)) _

theorem hex_ne_nil {v : List UInt8} (nonempty : v ≠ []) : hex v ≠ [] := flatMap_ne_nil nonempty fun _ _ => List.cons_ne_nil _ _

theorem upper_ne_nil {v : List UInt8} (nonempty : v ≠ []) : upper v ≠ [] := by
  rw [upper, ne_eq, List.map_eq_nil_iff]
  exact nonempty

theorem percent_ne_nil {v : List UInt8} (nonempty : v ≠ []) (big : Bool) : percent v big ≠ [] := by
  refine flatMap_ne_nil nonempty fun b _ => ?_
  split <;> exact List.cons_ne_nil _ _

theorem base64_ne_nil {v p : List UInt8} (mem : p ∈ base64Variants v) : p ≠ [] := by
  unfold base64Variants at mem
  split at mem
  next => cases mem
  next =>
    obtain ⟨shift, -, mem⟩ := List.mem_flatMap.mp mem
    obtain ⟨alpha, -, mem⟩ := List.mem_flatMap.mp mem
    have long := of_decide_eq_true (List.mem_filter.mp mem).2
    rintro rfl
    cases long

theorem utf8_ne_nil {cs : List Char} (nonempty : cs ≠ []) : utf8 (String.ofList cs) ≠ [] := by
  rw [utf8_ofList]
  exact flatMap_ne_nil nonempty fun _ _ => String.utf8EncodeChar_ne_nil

theorem escapeChar_ne_nil (c : Char) : escapeChar c ≠ [] := by
  unfold escapeChar
  repeat' split
  all_goals exact List.cons_ne_nil _ _

theorem json_ne_nil {v p : List UInt8} (nonempty : v ≠ []) (mem : p ∈ jsonVariants v) : p ≠ [] := by
  unfold jsonVariants at mem
  split at mem
  next => cases mem
  next s text =>
    have spelled : s.toList ≠ [] := by
      intro none
      refine nonempty ?_
      rw [← fromUtf8_eq_some.mp text, ← String.ofList_toList (s := s), none]
      rfl
    have inner : s.toList.flatMap escapeChar ≠ [] := flatMap_ne_nil spelled fun c _ => escapeChar_ne_nil c
    simp only [List.mem_cons, List.not_mem_nil, or_false] at mem
    rcases mem with rfl | rfl
    · exact utf8_ne_nil inner
    · refine utf8_ne_nil (flatMap_ne_nil inner fun c _ => ?_)
      split <;> exact List.cons_ne_nil _ _

theorem variants_ne_nil {v p : List UInt8} (nonempty : v ≠ []) (mem : p ∈ variants v) : p ≠ [] := by
  have mem := mem_of_mem_sorted mem
  simp only [List.mem_append, List.mem_cons, List.not_mem_nil, or_false] at mem
  rcases mem with ((rfl | base64) | rfl | rfl | rfl | rfl) | json
  · exact nonempty
  · exact base64_ne_nil base64
  · exact hex_ne_nil nonempty
  · exact upper_ne_nil (hex_ne_nil nonempty)
  · exact percent_ne_nil nonempty true
  · exact percent_ne_nil nonempty false
  · exact json_ne_nil nonempty json

example : hex [0xAB, 0x01] = ascii "ab01" := by decide

end K2.Redact
