import K2.Lib.Matching
import K2.Redact.Variants

/-! # Redacting a stream

A redactor replaces every form of every value by `[k2v:NAME]`. A stream of
chunks holds back only a tail that some pattern could still begin with, so a
value cut across chunks is caught and everything else flows on. -/

namespace K2.Redact

open Matching

/-- `AhoCorasick::find_iter` of the automaton built over some patterns. -/
abbrev FindIter := List (List UInt8) → List UInt8 → List Match

/-- `MatchKind::LeftmostLongest`. -/
def FindIter.LeftmostLongest (find : FindIter) : Prop :=
  ∀ pats input, (∀ p ∈ pats, p ≠ []) → find pats input = leftmostLongest pats input

def longest (pats : List (List UInt8)) : Nat := (pats.map List.length).max?.getD 0

structure Redactor (find : FindIter) where
  ac : Option (List UInt8 → List Match)
  replacements : List (List UInt8)
  maxLen : Nat
  /-- The patterns themselves, for a stream's held-back tail. -/
  pats : List (List UInt8)
  /-- Bytes some pattern starts with. -/
  first : UInt8 → Bool
  nonempty : ∀ p ∈ pats, p ≠ []
  paired : replacements.length = pats.length
  built : ac = if pats = [] then none else some (find pats)
  measured : maxLen = longest pats
  marked : first = fun b => pats.any fun p => p.head? == some b

variable {find : FindIter}

namespace Redactor

def fromParts (find : FindIter) (pats replacements : List (List UInt8)) (nonempty : ∀ p ∈ pats, p ≠ [])
    (paired : replacements.length = pats.length) : Redactor find where
  ac := if pats = [] then none else some (find pats)
  replacements := replacements
  maxLen := longest pats
  pats := pats
  first := fun b => pats.any fun p => p.head? == some b
  nonempty := nonempty
  paired := paired
  built := rfl
  measured := rfl
  marked := rfl

/-- The patterns of one entry, each with what replaces it. -/
def parts (entry : String × List UInt8) : List (List UInt8 × List UInt8) :=
  if entry.2 = [] then [] else (variants entry.2).map fun p => (p, utf8 ("[k2v:" ++ entry.1 ++ "]"))

theorem parts_ne_nil {entry : String × List UInt8} {part : List UInt8 × List UInt8} (mem : part ∈ parts entry) :
    part.1 ≠ [] := by
  unfold parts at mem
  split at mem
  next => cases mem
  next inhabited =>
    obtain ⟨p, form, rfl⟩ := List.mem_map.mp mem
    exact variants_ne_nil inhabited form

/-- `entries`: (name, value). -/
def new (find : FindIter) (entries : List (String × List UInt8)) : Redactor find :=
  fromParts find ((entries.flatMap parts).map Prod.fst) ((entries.flatMap parts).map Prod.snd)
    (by
      intro p mem
      obtain ⟨part, listed, rfl⟩ := List.mem_map.mp mem
      obtain ⟨entry, -, made⟩ := List.mem_flatMap.mp listed
      exact parts_ne_nil made)
    (by rw [List.length_map, List.length_map])

/-- Whether the last `k` bytes start a pattern longer than that. -/
def holdable (r : Redactor find) (buf : List UInt8) (k : Nat) : Bool :=
  let tail := buf.drop (buf.length - k)
  r.first (tail.headD 0) && r.pats.any fun p => k < p.length && tail.isPrefixOf p

/-- The largest such `k` up to a bound. -/
def holdFrom (r : Redactor find) (buf : List UInt8) : Nat → Nat
  | 0 => 0
  | k + 1 => if r.holdable buf (k + 1) then k + 1 else r.holdFrom buf k

/-- Length of the longest tail that is the start of some pattern (but not a
    whole one): only that much has to wait for the next chunk. -/
def tailHold (r : Redactor find) (buf : List UInt8) : Nat := r.holdFrom buf (min (r.maxLen - 1) buf.length)

def replacement (r : Redactor find) (k : Nat) : List UInt8 := r.replacements.getD k []

def redact (r : Redactor find) (input : List UInt8) : List UInt8 :=
  match r.ac with
  | none => input
  | some hits =>
      let (out, pos) := (hits input).foldl (replaceOne r.replacement input) ([], 0)
      out ++ input.drop pos

/-! ## What is held back -/

theorem longest_max {pats : List (List UInt8)} {p : List UInt8} (mem : p ∈ pats) : p.length ≤ longest pats :=
  List.le_max?_getD_of_mem (List.mem_map_of_mem mem)

theorem longest_mem {pats : List (List UInt8)} (inhabited : pats ≠ []) : ∃ p ∈ pats, p.length = longest pats := by
  rcases found : (pats.map List.length).max? with _ | n
  · exact absurd (List.map_eq_nil_iff.mp (List.max?_eq_none_iff.mp found)) inhabited
  · obtain ⟨p, mem, same⟩ := List.mem_map.mp (List.max?_mem found)
    exact ⟨p, mem, by rw [longest, found]; exact same⟩

theorem holdFrom_le (r : Redactor find) (buf : List UInt8) (k : Nat) : r.holdFrom buf k ≤ k := by
  induction k with
  | zero => exact le_rfl
  | succ k ih =>
      rw [holdFrom]
      split <;> omega

theorem le_holdFrom {r : Redactor find} {buf : List UInt8} {k bound : Nat} (holds : r.holdable buf k)
    (fits : k ≤ bound) : k ≤ r.holdFrom buf bound := by
  induction bound with
  | zero => exact fits
  | succ bound ih =>
      rw [holdFrom]
      split
      next => exact fits
      next other =>
        have : k ≠ bound + 1 := fun same => other (same ▸ holds)
        exact ih (by omega)

theorem tailHold_lt (r : Redactor find) (buf : List UInt8) : r.tailHold buf ≤ r.maxLen - 1 :=
  (r.holdFrom_le buf _).trans (Nat.min_le_left ..)

theorem holdable_of_begins {r : Redactor find} {buf tail p : List UInt8} (ending : tail <:+ buf) (inhabited : tail ≠ [])
    (mem : p ∈ r.pats) (longer : tail.length < p.length) (begins : tail <+: p) : r.holdable buf tail.length := by
  have cut : buf.drop (buf.length - tail.length) = tail := (List.suffix_iff_eq_drop.mp ending).symm
  obtain ⟨b, rest, rfl⟩ := List.exists_cons_of_ne_nil inhabited
  have head : p.head? = some b := by
    obtain ⟨more, rfl⟩ := begins
    rfl
  rw [holdable, cut, r.marked]
  simp only [List.headD_cons, Bool.and_eq_true, List.any_eq_true, beq_iff_eq, decide_eq_true_eq, List.isPrefixOf_iff_prefix]
  exact ⟨⟨p, mem, head⟩, p, mem, longer, begins⟩

theorem closed_beyond_hold (r : Redactor find) {buf tail : List UInt8} (ending : tail <:+ buf)
    (beyond : r.tailHold buf < tail.length) : Closed r.pats tail := by
  rintro p mem ⟨longer, begins⟩
  have inhabited : tail ≠ [] := List.ne_nil_of_length_pos (by omega)
  have bound : p.length ≤ r.maxLen := r.measured ▸ longest_max mem
  have : tail.length ≤ r.tailHold buf :=
    le_holdFrom (holdable_of_begins ending inhabited mem longer begins) (le_min (by omega) ending.length_le)
  omega

end Redactor

/-! ## Streams -/

structure StreamRedactor (r : Redactor find) where
  carry : List UInt8
  short : carry.length ≤ r.maxLen - 1

def Redactor.stream (r : Redactor find) : StreamRedactor r := { carry := [], short := Nat.zero_le _ }

theorem replaceUpTo_left_length (put : Nat → List UInt8) (input : List UInt8) (hold : Nat) (ms : List Match) :
    (replaceUpTo put input (input.length - hold) ms ([], 0)).2.length ≤ hold := by
  rw [replaceUpTo]
  dsimp only
  rw [List.length_drop]
  omega

namespace StreamRedactor

variable {r : Redactor find}

def push (s : StreamRedactor r) (chunk : List UInt8) : List UInt8 × StreamRedactor r :=
  match r.ac with
  | none => (chunk, s)
  | some hits =>
      let buf := s.carry ++ chunk
      let hold := r.tailHold buf
      let cut := replaceUpTo r.replacement buf (buf.length - hold) (hits buf) ([], 0)
      (cut.1,
        { carry := cut.2, short := (replaceUpTo_left_length _ _ hold _).trans (r.tailHold_lt buf) })

def finish (s : StreamRedactor r) : List UInt8 := r.redact s.carry

/-- The chunks pushed one after another. -/
def pushAll (s : StreamRedactor r) : List (List UInt8) → List UInt8 × StreamRedactor r
  | [] => ([], s)
  | chunk :: later => ((s.push chunk).1 ++ ((s.push chunk).2.pushAll later).1, ((s.push chunk).2.pushAll later).2)

end StreamRedactor

/-! ## A stream says what the whole says -/

section

variable (leftmost : find.LeftmostLongest) {r : Redactor find}

include leftmost

theorem redact_eq_rewrite (input : List UInt8) : r.redact input = rewrite r.pats r.replacement 0 input := by
  rw [Redactor.redact, r.built]
  split
  next none =>
    split at none
    next empty => rw [empty, rewrite_no_patterns]
    next => cases none
  next hits inhabited =>
    split at inhabited
    next => cases inhabited
    next =>
      cases inhabited
      rw [leftmost _ _ r.nonempty]
      exact replace_all r.nonempty input

/-- What a push gives out goes before what the held bytes and any further input
    are redacted to. -/
theorem redact_push (s : StreamRedactor r) (chunk more : List UInt8) :
    r.redact (s.carry ++ (chunk ++ more)) = (s.push chunk).1 ++ r.redact ((s.push chunk).2.carry ++ more) := by
  rw [StreamRedactor.push]
  split
  next none =>
    have empty : r.pats = [] := by
      by_contra inhabited
      rw [r.built, if_neg inhabited] at none
      cases none
    have held : s.carry = [] := by
      have := s.short
      rw [r.measured, empty] at this
      exact List.length_eq_zero_iff.mp (Nat.le_zero.mp this)
    rw [redact_eq_rewrite leftmost, redact_eq_rewrite leftmost, empty, rewrite_no_patterns, rewrite_no_patterns, held]
    rfl
  next hits inhabited =>
    have build : hits = find r.pats := by
      rw [r.built] at inhabited
      split at inhabited
      next => cases inhabited
      next => exact (Option.some.inj inhabited).symm
    dsimp only
    rw [build, leftmost _ _ r.nonempty, replace_safe r.nonempty, redact_eq_rewrite leftmost, redact_eq_rewrite leftmost,
      ← List.append_assoc]
    exact rewrite_append rfl (fun tail ending beyond => r.closed_beyond_hold ending beyond) (Nat.zero_le _) more

theorem redact_pushAll (s : StreamRedactor r) (chunks : List (List UInt8)) :
    r.redact (s.carry ++ chunks.flatten) = (s.pushAll chunks).1 ++ (s.pushAll chunks).2.finish := by
  induction chunks generalizing s with
  | nil =>
      rw [List.flatten_nil, List.append_nil]
      rfl
  | cons chunk later ih =>
      rw [List.flatten_cons, redact_push leftmost, ih, StreamRedactor.pushAll, List.append_assoc]

end

theorem StreamRedactor.carry_lt {r : Redactor find} (s : StreamRedactor r) {p : List UInt8} (mem : p ∈ r.pats)
    (greatest : ∀ q ∈ r.pats, q.length ≤ p.length) : s.carry.length < p.length := by
  obtain ⟨q, there, size⟩ := Redactor.longest_mem (List.ne_nil_of_mem mem)
  have positive := List.length_pos_iff.mpr (r.nonempty p mem)
  have := greatest q there
  have short := s.short
  rw [r.measured] at short
  omega

/-- However the input is cut, the pushes and the finish give the redacted whole,
    and between them less is held back than the longest pattern has. -/
theorem stream_redacts_whole (leftmost : find.LeftmostLongest) (entries : List (String × List UInt8))
    (chunks : List (List UInt8)) :
    let r := Redactor.new find entries
    (r.stream.pushAll chunks).1 ++ (r.stream.pushAll chunks).2.finish = r.redact chunks.flatten ∧
      ∀ n p, p ∈ r.pats → (∀ q ∈ r.pats, q.length ≤ p.length) →
        (r.stream.pushAll (chunks.take n)).2.carry.length < p.length := by
  refine ⟨?_, fun n p mem greatest => StreamRedactor.carry_lt _ mem greatest⟩
  exact (redact_pushAll leftmost (Redactor.stream _) chunks).symm

theorem stream_redacts_whole_key :
    let r := Redactor.new leftmostLongest [("KEY", ascii "s3cret")]
    (r.stream.pushAll [ascii "a s3", ascii "cret"]).1 ++ (r.stream.pushAll [ascii "a s3", ascii "cret"]).2.finish =
        r.redact [ascii "a s3", ascii "cret"].flatten ∧
      ∀ n p, p ∈ r.pats → (∀ q ∈ r.pats, q.length ≤ p.length) →
        (r.stream.pushAll ([ascii "a s3", ascii "cret"].take n)).2.carry.length < p.length :=
  stream_redacts_whole (fun _ _ _ => rfl) [("KEY", ascii "s3cret")] [ascii "a s3", ascii "cret"]

end K2.Redact
