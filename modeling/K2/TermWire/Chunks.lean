import K2.Text
import Mathlib.Algebra.Order.Group.Nat
import Mathlib.Tactic.Common

/-! # Splitting a text at character boundaries

A text longer than a length field can say is cut into pieces that fit, each cut
at the last character boundary that leaves a piece short enough. -/

namespace K2.TermWire

/-- The bytes some characters take. -/
def byteLen : List Char → Nat
  | [] => 0
  | c :: rest => c.utf8Size + byteLen rest

/-- `str::is_char_boundary`. -/
def isCharBoundary : List Char → Nat → Bool
  | _, 0 => true
  | [], _ + 1 => false
  | c :: rest, i + 1 => c.utf8Size ≤ i + 1 && isCharBoundary rest (i + 1 - c.utf8Size)

/-- The characters before and after a boundary. -/
def splitAt : List Char → Nat → List Char × List Char
  | cs, 0 => ([], cs)
  | [], _ + 1 => ([], [])
  | c :: rest, i + 1 =>
      let (head, tail) := splitAt rest (i + 1 - c.utf8Size)
      (c :: head, tail)

/-- `while !rest.is_char_boundary(cut) { cut -= 1; }`. -/
def cutDown (cs : List Char) : Nat → Nat
  | 0 => 0
  | cut + 1 => if isCharBoundary cs (cut + 1) then cut + 1 else cutDown cs cut

theorem cutDown_le (cs : List Char) (cut : Nat) : cutDown cs cut ≤ cut := by
  induction cut with
  | zero => exact Nat.le_refl 0
  | succ cut ih =>
    rw [cutDown]
    split
    · exact Nat.le_refl _
    · omega

theorem cutDown_boundary (cs : List Char) (cut : Nat) : isCharBoundary cs (cutDown cs cut) = true := by
  induction cut with
  | zero => cases cs <;> rfl
  | succ cut ih =>
    rw [cutDown]
    split
    next boundary => exact boundary
    next => exact ih

theorem le_cutDown {cs : List Char} {i cut : Nat} (boundary : isCharBoundary cs i = true) (le : i ≤ cut) :
    i ≤ cutDown cs cut := by
  induction cut with
  | zero => omega
  | succ cut ih =>
    rw [cutDown]
    split
    · exact le
    next passed =>
      rcases Nat.eq_or_lt_of_le le with rfl | below
      · exact absurd boundary passed
      · exact ih (by omega)

/-- A split at a boundary is a split of the text, with that many bytes in
    front. -/
theorem splitAt_boundary {cs : List Char} {i : Nat} (boundary : isCharBoundary cs i = true) :
    (splitAt cs i).1 ++ (splitAt cs i).2 = cs ∧ byteLen (splitAt cs i).1 = i := by
  induction cs generalizing i with
  | nil =>
    cases i with
    | zero => exact ⟨rfl, rfl⟩
    | succ i => cases boundary
  | cons c rest ih =>
    cases i with
    | zero => exact ⟨rfl, rfl⟩
    | succ i =>
      simp only [isCharBoundary, Bool.and_eq_true, decide_eq_true_eq] at boundary
      obtain ⟨whole, front⟩ := ih boundary.2
      refine ⟨by simp only [splitAt, List.cons_append, whole], ?_⟩
      simp only [splitAt, byteLen, front]
      omega

/-- The first character ends at a boundary, and the cut is never before it. -/
theorem cutDown_pos {cs : List Char} {cut : Nat} (long : cut < byteLen cs) (room : 4 ≤ cut) :
    0 < cutDown cs cut := by
  cases cs with
  | nil => simp [byteLen] at long
  | cons c rest =>
    have pos := c.utf8Size_pos
    have small := c.utf8Size_le_four
    have first : isCharBoundary (c :: rest) c.utf8Size = true := by
      obtain ⟨n, size⟩ := Nat.exists_eq_succ_of_ne_zero (Nat.pos_iff_ne_zero.mp pos)
      rw [size, isCharBoundary, size, Nat.sub_self]
      cases rest <;> simp [isCharBoundary]
    exact Nat.lt_of_lt_of_le pos (le_cutDown first (by omega))

def MAX : Nat := 65535

theorem chunks_decreasing {cs : List Char} (long : ¬ byteLen cs ≤ MAX) :
    (splitAt cs (cutDown cs MAX)).2.length < cs.length := by
  obtain ⟨whole, front⟩ := splitAt_boundary (cutDown_boundary cs MAX)
  have cut := cutDown_pos (Nat.not_le.mp long) (by decide)
  have lengths := congrArg List.length whole
  rw [List.length_append] at lengths
  have some : (splitAt cs (cutDown cs MAX)).1 ≠ [] := fun none => by
    rw [none, byteLen] at front
    omega
  have := List.length_pos_iff.mpr some
  omega

/-- Pieces that each fit a `u16` byte length; one for a text that fits. -/
def charChunks (rest : List Char) : List (List Char) :=
  if byteLen rest ≤ MAX then [rest]
  else
    let cut := cutDown rest MAX
    (splitAt rest cut).1 :: charChunks (splitAt rest cut).2
termination_by rest.length
decreasing_by exact chunks_decreasing ‹_›

def utf8Chunks (text : String) : List String := (charChunks text.toList).map String.ofList

theorem charChunks_flatten (cs : List Char) : (charChunks cs).flatten = cs := by
  induction cs using charChunks.induct with
  | case1 cs fits => rw [charChunks, if_pos fits, List.flatten_singleton]
  | case2 cs long cut ih =>
    rw [charChunks, if_neg long, List.flatten_cons, ih]
    exact (splitAt_boundary (cutDown_boundary cs MAX)).1

theorem byteLen_charChunks {cs piece : List Char} (mem : piece ∈ charChunks cs) : byteLen piece ≤ MAX := by
  induction cs using charChunks.induct with
  | case1 cs fits =>
    rw [charChunks, if_pos fits, List.mem_singleton] at mem
    rwa [mem]
  | case2 cs long cut ih =>
    rw [charChunks, if_neg long, List.mem_cons] at mem
    rcases mem with rfl | later
    · rw [(splitAt_boundary (cutDown_boundary cs MAX)).2]
      exact cutDown_le cs MAX
    · exact ih later

theorem length_utf8_eq (s : String) : (utf8 s).length = byteLen s.toList := by
  have counted : ∀ cs : List Char, (cs.flatMap String.utf8EncodeChar).length = byteLen cs := by
    intro cs
    induction cs with
    | nil => rfl
    | cons c rest ih => rw [List.flatMap_cons, List.length_append, ih, byteLen, String.length_utf8EncodeChar]
  rw [← counted, ← utf8_ofList, String.ofList_toList]

theorem length_utf8Chunks {text piece : String} (mem : piece ∈ utf8Chunks text) : (utf8 piece).length ≤ MAX := by
  obtain ⟨cs, inside, rfl⟩ := List.mem_map.mp mem
  rw [length_utf8_eq, String.toList_ofList]
  exact byteLen_charChunks inside

theorem utf8Chunks_of_fits {text : String} (fits : (utf8 text).length ≤ MAX) : utf8Chunks text = [text] := by
  rw [length_utf8_eq] at fits
  rw [utf8Chunks, charChunks, if_pos fits, List.map_singleton, String.ofList_toList]

theorem utf8Chunks_join (text : String) : (utf8Chunks text).foldr (· ++ ·) "" = text := by
  have joined : ∀ pieces : List (List Char),
      (pieces.map String.ofList).foldr (· ++ ·) "" = String.ofList pieces.flatten := by
    intro pieces
    induction pieces with
    | nil => rfl
    | cons piece pieces ih => rw [List.map_cons, List.foldr_cons, ih, List.flatten_cons, String.ofList_append]
  rw [utf8Chunks, joined, charChunks_flatten, String.ofList_toList]

end K2.TermWire
