import K2.Lib.Machines
import Mathlib.Data.List.Basic
import Mathlib.Data.List.DropRight
import Mathlib.Data.String.Basic

/-! # Text as the sources handle it

The `str` and `char` methods the modelled functions call, on Lean strings. A
Rust string and a Lean string both hold Unicode scalar values, and both compare
in code point order.
-/

namespace K2.Text

/-- `char::is_whitespace`: the Unicode `White_Space` characters. -/
def isWhitespace (c : Char) : Bool :=
  let n := c.toNat
  (0x9 ≤ n && n ≤ 0xd) || n = 0x20 || n = 0x85 || n = 0xa0 || n = 0x1680 ||
    (0x2000 ≤ n && n ≤ 0x200a) || n = 0x2028 || n = 0x2029 || n = 0x202f || n = 0x205f || n = 0x3000

/-- `char::is_control`: general category `Cc`. -/
def isControl (c : Char) : Bool :=
  let n := c.toNat
  n < 0x20 || (0x7f ≤ n && n < 0xa0)

/-- `u8::is_ascii_alphanumeric`, for a character. -/
def isAsciiAlphanumeric (c : Char) : Bool :=
  ('0' ≤ c && c ≤ '9') || ('A' ≤ c && c ≤ 'Z') || ('a' ≤ c && c ≤ 'z')

/-- `str::trim`. -/
def trim (s : String) : String :=
  String.ofList ((s.toList.dropWhile isWhitespace).rdropWhile isWhitespace)

/-- `str::len`: bytes, not characters. -/
def byteLen (s : String) : Nat := s.utf8ByteSize

/-- `s.chars().take(n).collect()`. -/
def takeChars (n : Nat) (s : String) : String := String.ofList (s.toList.take n)

/-- `str::to_ascii_lowercase`. -/
def toAsciiLowercase (s : String) : String :=
  String.ofList (s.toList.map fun c => if 'A' ≤ c && c ≤ 'Z' then Char.ofNat (c.toNat + 32) else c)

/-- The words `split_whitespace` yields; `word` is the one being read. -/
def wordsFrom (word : List Char) : List Char → List (List Char)
  | [] => if word.isEmpty then [] else [word]
  | c :: rest =>
      if isWhitespace c then
        if word.isEmpty then wordsFrom [] rest else word :: wordsFrom [] rest
      else wordsFrom (word ++ [c]) rest

/-- Whether `pattern` stands anywhere in the characters. -/
def occursIn (pattern : List Char) : List Char → Bool
  | [] => pattern.isEmpty
  | c :: rest => pattern.isPrefixOf (c :: rest) || occursIn pattern rest

theorem occursIn_iff {pattern cs : List Char} : occursIn pattern cs = true ↔ pattern <:+: cs := by
  induction cs with
  | nil => simp [occursIn]
  | cons c rest ih => simp [occursIn, ih, List.infix_cons_iff]

/-- `str::contains`. -/
def contains (s pattern : String) : Bool := occursIn pattern.toList s.toList

theorem not_contains {s pattern : String} {c : Char} (mem : c ∈ pattern.toList) (absent : c ∉ s.toList) : contains s pattern = false := by
  rw [contains, Bool.eq_false_iff, ne_eq, occursIn_iff]
  intro inside
  exact absent (inside.subset mem)

/-- `str::starts_with`. -/
def startsWith (s pattern : String) : Bool := decide (pattern.toList <+: s.toList)

/-- `s.split_whitespace().collect::<Vec<_>>().join(" ")`. -/
def collapseWhitespace (s : String) : String :=
  String.ofList (List.intercalate [' '] (wordsFrom [] s.toList))

/-- `str::split_once("::")`, over characters: around the first `::`. -/
def splitOnceColons : List Char → Option (List Char × List Char)
  | ':' :: ':' :: rest => some ([], rest)
  | c :: rest => (splitOnceColons rest).map fun p => (c :: p.1, p.2)
  | [] => none

/-- `str::split_once(sep)`: around the first `sep`. -/
def splitOnce (sep : Char) (s : String) : Option (String × String) :=
  if sep ∈ s.toList then
    some (String.ofList (s.toList.takeWhile (· ≠ sep)),
      String.ofList (s.toList.dropWhile (· ≠ sep)).tail)
  else none

/-- `str::contains("::")`. -/
def containsColons (cs : List Char) : Bool := (splitOnceColons cs).isSome

end K2.Text

/-! ## UTF-8

The bytes of a text and the text of some bytes, as lists of bytes. -/

namespace K2

/-- `str::as_bytes`. -/
def utf8 (s : String) : List UInt8 := s.toByteArray.data.toList

/-- `String::from_utf8`. -/
def fromUtf8 (bytes : List UInt8) : Option String := String.fromUTF8? ⟨bytes.toArray⟩

theorem utf8_injective {a b : String} (same : utf8 a = utf8 b) : a = b := by
  rw [← String.toByteArray_inj]
  exact ByteArray.ext (Array.toList_inj.mp same)

theorem fromUtf8_eq_some {bytes : List UInt8} {s : String} : fromUtf8 bytes = some s ↔ utf8 s = bytes := by
  unfold fromUtf8 String.fromUTF8?
  split
  next valid =>
    rw [Option.some.injEq]
    constructor
    · rintro rfl
      rfl
    · intro same
      rw [← String.toByteArray_inj]
      exact ByteArray.ext (Array.toList_inj.mp same.symm)
  next invalid =>
    refine iff_of_false (by simp) ?_
    rintro rfl
    exact invalid s.isValidUTF8

theorem fromUtf8_utf8 (s : String) : fromUtf8 (utf8 s) = some s := fromUtf8_eq_some.mpr rfl

theorem utf8_append (a b : String) : utf8 (a ++ b) = utf8 a ++ utf8 b := by
  simp [utf8]

theorem utf8_ofList (cs : List Char) : utf8 (String.ofList cs) = cs.flatMap String.utf8EncodeChar := by
  simp [utf8, List.utf8Encode]

theorem length_utf8 (s : String) : (utf8 s).length = s.utf8ByteSize := by
  rw [utf8, Array.length_toList, ByteArray.size_data, String.size_toByteArray]

/-! Bytes that are no text give replacement characters. -/

namespace Lossy

def replacement : Char := Char.ofNat 0xFFFD

def within (lo hi : UInt8) (b : Option UInt8) : Bool := b.any fun b => lo ≤ b ∧ b ≤ hi

/-- The low six bits of a continuation byte. -/
def tailBits (b : Option UInt8) : Nat := (b.getD 0).toNat % 64

/-- One character, or a replacement for the longest start of one, and how many
    bytes behind the first it takes. -/
def lossyChar (b : UInt8) (rest : List UInt8) : Char × Nat :=
  let second : UInt8 × UInt8 :=
    if b = 0xE0 then (0xA0, 0xBF) else if b = 0xED then (0x80, 0x9F)
    else if b = 0xF0 then (0x90, 0xBF) else if b = 0xF4 then (0x80, 0x8F) else (0x80, 0xBF)
  if b < 0x80 then (Char.ofNat b.toNat, 0)
  else if 0xC2 ≤ b ∧ b ≤ 0xF4 then
    if ¬within second.1 second.2 rest[0]? then (replacement, 0)
    else if b ≤ 0xDF then (Char.ofNat (b.toNat % 32 * 64 + tailBits rest[0]?), 1)
    else if ¬within 0x80 0xBF rest[1]? then (replacement, 1)
    else if b ≤ 0xEF then (Char.ofNat ((b.toNat % 16 * 64 + tailBits rest[0]?) * 64 + tailBits rest[1]?), 2)
    else if ¬within 0x80 0xBF rest[2]? then (replacement, 2)
    else (Char.ofNat (((b.toNat % 8 * 64 + tailBits rest[0]?) * 64 + tailBits rest[1]?) * 64 + tailBits rest[2]?), 3)
  else (replacement, 0)

end Lossy

/-- `String::from_utf8_lossy`. -/
def fromUtf8Lossy (bytes : List UInt8) : String :=
  String.ofList (Strides.walk (fun b rest out => (out ++ [(Lossy.lossyChar b rest).1], (Lossy.lossyChar b rest).2)) 0 bytes [])

end K2
