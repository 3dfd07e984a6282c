import Mathlib.Algebra.GroupWithZero.Nat
import Mathlib.Data.List.Basic
import Mathlib.Tactic.Common

/-! # A session's byte ring

The newest chunks of everything a session printed, each under the offset of its
first byte. Whole chunks leave at the old end once the ring holds more than its
cap; the newest one always stays. -/

namespace K2.Session

structure RingChunk where
  startOffset : Nat
  data : List UInt8
  deriving Repr, DecidableEq

/-- One past the chunk's last byte. -/
def RingChunk.endOffset (c : RingChunk) : Nat := c.startOffset + c.data.length

/-- Offsets are `u64` in the source; no session prints 2^64 bytes. -/
structure BytesRing where
  chunks : List RingChunk
  currentBytes : Nat
  capBytes : Nat
  totalWritten : Nat
  frontOffset : Nat
  deriving Repr, DecidableEq

namespace BytesRing

/-- An empty ring; a cap of 0 panics. -/
def withCap (capBytes : Nat) : Option BytesRing :=
  if 1 ≤ capBytes then some { chunks := [], currentBytes := 0, capBytes, totalWritten := 0, frontOffset := 0 }
  else none

def backOffset (r : BytesRing) : Nat := r.totalWritten

def lenBytes (r : BytesRing) : Nat := r.currentBytes

/-- Drop the oldest chunks while there are too many bytes and more than one
    chunk. -/
def evictLoop (capBytes : Nat) : List RingChunk → Nat → Nat → List RingChunk × Nat × Nat
  | evicted :: next :: rest, current, front =>
      if capBytes < current then evictLoop capBytes (next :: rest) (current - evicted.data.length) evicted.endOffset
      else (evicted :: next :: rest, current, front)
  | chunks, current, front => (chunks, current, front)

def evictToCap (r : BytesRing) : BytesRing :=
  let (chunks, currentBytes, frontOffset) := evictLoop r.capBytes r.chunks r.currentBytes r.frontOffset
  { r with chunks, currentBytes, frontOffset }

/-- The chunk's start, and the ring with it. -/
def push (r : BytesRing) (data : List UInt8) : Nat × BytesRing :=
  let startOffset := r.totalWritten
  if data.isEmpty then (startOffset, r)
  else
    (startOffset, evictToCap
      { r with
        chunks := r.chunks ++ [{ startOffset, data }]
        currentBytes := r.currentBytes + data.length
        totalWritten := r.totalWritten + data.length })

def pushAll (r : BytesRing) (pushes : List (List UInt8)) : BytesRing := pushes.foldl (fun r data => (r.push data).2) r

/-- Every chunk with a byte at `frm` or after. -/
def snapshotFrom (r : BytesRing) (frm : Nat) : List RingChunk :=
  if r.totalWritten ≤ frm then [] else r.chunks.filter fun c => ¬ c.endOffset ≤ frm

/-! ## Chunks in a row -/

/-- Each chunk starts where the one before it ends. -/
def Contiguous (start : Nat) : List RingChunk → Prop
  | [] => True
  | c :: rest => c.startOffset = start ∧ Contiguous c.endOffset rest

/-- The bytes of chunks, in order. -/
def bytes (chunks : List RingChunk) : List UInt8 := chunks.flatMap RingChunk.data

/-- What a reader that asked from `frm` on takes from a snapshot: a first chunk
    that straddles `frm` without the bytes before it. -/
def replay (frm : Nat) : List RingChunk → List UInt8
  | [] => []
  | c :: rest => c.data.drop (frm - c.startOffset) ++ bytes rest

variable {s : List UInt8} {start frm : Nat} {chunks : List RingChunk}

theorem Contiguous.concat (row : Contiguous start chunks) (data : List UInt8) :
    Contiguous start (chunks ++ [{ startOffset := start + (bytes chunks).length, data }]) := by
  induction chunks generalizing start with
  | nil => exact ⟨rfl, trivial⟩
  | cons c rest ih =>
      obtain ⟨first, row⟩ := row
      have remaining := ih row
      have total : c.endOffset + (bytes rest).length = start + (bytes (c :: rest)).length := by
        rw [RingChunk.endOffset, first, bytes, bytes, List.flatMap_cons, List.length_append]
        omega
      rw [total] at remaining
      exact ⟨first, remaining⟩

theorem Contiguous.start_le {c : RingChunk} (row : Contiguous start chunks) (mem : c ∈ chunks) : start ≤ c.startOffset := by
  induction chunks generalizing start with
  | nil => cases mem
  | cons d rest ih =>
      obtain ⟨first, row⟩ := row
      rcases List.mem_cons.mp mem with rfl | mem
      · exact Nat.le_of_eq first.symm
      · have after := ih row mem
        rw [RingChunk.endOffset] at after
        omega

/-- A snapshot of chunks in a row spells the bytes from `frm` on. -/
theorem replay_filter (row : Contiguous start chunks) (frm : Nat) :
    replay frm (chunks.filter fun c => ¬ c.endOffset ≤ frm) = (bytes chunks).drop (frm - start) := by
  induction chunks generalizing start with
  | nil => exact (List.drop_nil).symm
  | cons c rest ih =>
      obtain ⟨first, row⟩ := row
      have stop : c.endOffset = start + c.data.length := by rw [RingChunk.endOffset, first]
      by_cases before : c.endOffset ≤ frm
      · have skipped : c.data.drop (frm - start) = [] := List.drop_eq_nil_of_le (by omega)
        rw [List.filter_cons_of_neg (by simpa using before), ih row, bytes, bytes, List.flatMap_cons, List.drop_append,
          skipped, List.nil_append, stop, Nat.sub_sub]
      · have kept : rest.filter (fun d => ¬ d.endOffset ≤ frm) = rest := by
          refine List.filter_eq_self.mpr fun d mem => ?_
          have after := row.start_le mem
          have stopEq : d.endOffset = d.startOffset + d.data.length := rfl
          simp only [decide_not, Bool.not_eq_true', decide_eq_false_iff_not]
          omega
        rw [List.filter_cons_of_pos (by simpa using before), kept, replay, bytes, bytes, List.flatMap_cons, first,
          List.drop_append_of_le_length (by omega)]

/-! ## What every push keeps -/

/-- Chunks that are the bytes of `s` from `front` on. -/
structure Held (s : List UInt8) (chunks : List RingChunk) (current front : Nat) : Prop where
  row : Contiguous front chunks
  newest : bytes chunks = s.drop front
  front : front ≤ s.length
  current : current = (bytes chunks).length

theorem Held.evictLoop {cap current front : Nat} (held : Held s chunks current front) :
    Held s (evictLoop cap chunks current front).1 (evictLoop cap chunks current front).2.1
      (evictLoop cap chunks current front).2.2 := by
  induction chunks generalizing current front with
  | nil => exact held
  | cons evicted rest ih =>
      cases rest with
      | nil => exact held
      | cons next rest =>
          rw [BytesRing.evictLoop]
          split
          next =>
            obtain ⟨⟨first, row⟩, newest, within, counted⟩ := held
            have total : (bytes (evicted :: next :: rest)).length = evicted.data.length + (bytes (next :: rest)).length := by
              rw [bytes, List.flatMap_cons, List.length_append, bytes]
            have length := congrArg List.length newest
            rw [List.length_drop] at length
            refine ih { row, newest := ?_, front := ?_, current := by omega }
            · rw [bytes, List.flatMap_cons] at newest
              rw [RingChunk.endOffset, first, ← List.drop_drop, ← newest, List.drop_left]
              rfl
            · rw [RingChunk.endOffset, first]
              omega
          next => exact held

theorem evictLoop_one {cap current front : Nat} (overrun : cap < (evictLoop cap chunks current front).2.1) :
    (evictLoop cap chunks current front).1.length ≤ 1 := by
  induction chunks generalizing current front with
  | nil => exact Nat.zero_le 1
  | cons evicted rest ih =>
      cases rest with
      | nil => exact Nat.le_refl 1
      | cons next rest =>
          rw [BytesRing.evictLoop] at overrun ⊢
          split at overrun
          next above =>
            rw [if_pos above]
            exact ih overrun
          next within => exact absurd overrun within

/-- The ring of a session that printed `s`. -/
structure Of (s : List UInt8) (r : BytesRing) : Prop where
  total : r.totalWritten = s.length
  held : Held s r.chunks r.currentBytes r.frontOffset
  capped : r.capBytes < r.currentBytes → r.chunks.length ≤ 1

variable {r : BytesRing}

theorem Of.withCap {capBytes : Nat} (made : withCap capBytes = some r) : Of [] r ∧ r.capBytes = capBytes := by
  unfold BytesRing.withCap at made
  split at made
  next =>
    cases made
    exact ⟨{ total := rfl, held := ⟨trivial, rfl, Nat.le_refl 0, rfl⟩, capped := fun _ => Nat.zero_le 1 }, rfl⟩
  next => cases made

theorem Of.push (follows : Of s r) (data : List UInt8) : Of (s ++ data) (r.push data).2 := by
  unfold BytesRing.push
  dsimp only
  split
  next empty =>
    rw [List.isEmpty_iff.mp empty, List.append_nil]
    exact follows
  next =>
    obtain ⟨total, ⟨row, newest, within, counted⟩, -⟩ := follows
    have length := congrArg List.length newest
    rw [List.length_drop] at length
    have start : r.totalWritten = r.frontOffset + (bytes r.chunks).length := by omega
    have held : Held (s ++ data) (r.chunks ++ [{ startOffset := r.totalWritten, data }]) (r.currentBytes + data.length)
        r.frontOffset :=
      { row := start ▸ row.concat data
        newest := by
          rw [bytes, List.flatMap_append, List.flatMap_singleton, List.drop_append_of_le_length within, ← newest, bytes]
        front := by rw [List.length_append]; omega
        current := by
          rw [bytes, List.flatMap_append, List.flatMap_singleton, List.length_append, counted, bytes] }
    exact
      { total := by rw [List.length_append, ← total]; rfl
        held := held.evictLoop
        capped := evictLoop_one }

theorem Of.pushAll (follows : Of s r) (pushes : List (List UInt8)) : Of (s ++ pushes.flatten) (r.pushAll pushes) := by
  induction pushes generalizing s r with
  | nil => rwa [List.flatten_nil, List.append_nil]
  | cons data rest ih =>
      rw [List.flatten_cons, ← List.append_assoc]
      exact ih (follows.push data)

theorem push_capBytes (data : List UInt8) : (r.push data).2.capBytes = r.capBytes := by
  unfold BytesRing.push
  dsimp only
  split <;> rfl

theorem pushAll_capBytes (pushes : List (List UInt8)) : (r.pushAll pushes).capBytes = r.capBytes := by
  induction pushes generalizing r with
  | nil => rfl
  | cons data rest ih => exact ih.trans (push_capBytes data)

theorem Of.front_start (follows : Of s r) : r.frontOffset = (r.chunks.head?.map RingChunk.startOffset).getD r.backOffset := by
  obtain ⟨total, ⟨row, newest, within, -⟩, -⟩ := follows
  cases held : r.chunks with
  | nil =>
      have length := congrArg List.length newest
      rw [held, List.length_drop] at length
      have nothing : (bytes []).length = 0 := rfl
      show r.frontOffset = r.totalWritten
      omega
  | cons c rest =>
      rw [held] at row
      exact row.1.symm

theorem Of.replay (follows : Of s r) (frm : Nat) : replay frm (r.snapshotFrom frm) = s.drop (max frm r.frontOffset) := by
  obtain ⟨total, ⟨row, newest, within, -⟩, -⟩ := follows
  unfold BytesRing.snapshotFrom
  split
  next past => exact (List.drop_eq_nil_of_le (by omega)).symm
  next =>
    rw [replay_filter row, newest, List.drop_drop]
    congr 1
    omega

/-- After any pushes the chunks held are the newest bytes of the session, in a row
    and under exact offsets; only one chunk may be more than the cap, and a snapshot
    from any offset spells what came from there on, as far as it is held. -/
theorem replays_without_gap (capBytes : Nat) (r₀ : BytesRing) (made : withCap capBytes = some r₀)
    (pushes : List (List UInt8)) :
    let s := pushes.flatten
    let r := r₀.pushAll pushes
    r.backOffset = s.length ∧
      Contiguous r.frontOffset r.chunks ∧
      bytes r.chunks = (s.take r.backOffset).drop r.frontOffset ∧
      r.frontOffset = (r.chunks.head?.map RingChunk.startOffset).getD r.backOffset ∧
      r.lenBytes = (r.chunks.map fun c => c.data.length).sum ∧
      (capBytes < r.lenBytes → r.chunks.length = 1) ∧
      ∀ frm, replay frm (r.snapshotFrom frm) = (s.take r.backOffset).drop (max frm r.frontOffset) := by
  intro s r
  obtain ⟨start, cap⟩ := Of.withCap made
  have follows : Of s r := start.pushAll pushes
  have all : s.take r.backOffset = s := List.take_of_length_le (Nat.le_of_eq follows.total.symm)
  rw [all]
  refine ⟨follows.total, follows.held.row, follows.held.newest, follows.front_start, ?_, fun overrun => ?_, follows.replay⟩
  · exact follows.held.current.trans (List.length_flatMap ..)
  · have one := follows.capped (by rwa [pushAll_capBytes, cap])
    have stored : r.chunks ≠ [] := by
      intro nothing
      have counted := follows.held.current
      rw [nothing] at counted
      have overrun : capBytes < r.currentBytes := overrun
      rw [counted] at overrun
      exact Nat.not_lt_zero _ overrun
    have positive := List.length_pos_iff.mpr stored
    omega

/-- A chunk larger than the cap stays until the next one. -/
theorem replays_oversize :
    withCap 4 = some { chunks := [], currentBytes := 0, capBytes := 4, totalWritten := 0, frontOffset := 0 } ∧
      replay 3 (({ chunks := [], currentBytes := 0, capBytes := 4, totalWritten := 0, frontOffset := 0 } : BytesRing).pushAll
        [[1, 2], [], [3, 4, 5, 6, 7]] |>.snapshotFrom 3) = [4, 5, 6, 7] :=
  ⟨rfl, (replays_without_gap 4 _ rfl [[1, 2], [], [3, 4, 5, 6, 7]]).2.2.2.2.2.2 3⟩

end BytesRing

end K2.Session
