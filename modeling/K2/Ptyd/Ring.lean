import Mathlib.Algebra.Group.Nat.Defs
import Mathlib.Data.List.Basic
import Mathlib.Tactic.Common

/-! # The output ring of a terminal session

The ring keeps the newest bytes of everything a session printed, under offsets
that count from the session's first byte. A reader that reattaches asks for
the bytes from an offset on. -/

namespace K2.Ptyd

/-- `buf` holds the bytes from offset `start` on. Offsets are `u64` in the
    source; no session prints 2^64 bytes. -/
structure Ring where
  cap : Nat
  buf : List UInt8
  start : Nat
  deriving Repr, DecidableEq

namespace Ring

def new (cap : Nat) : Ring := { cap, buf := [], start := 0 }

def len (r : Ring) : Nat := r.buf.length

def «end» (r : Ring) : Nat := r.start + r.buf.length

/-- `data` covers the offsets from `start` on; data longer than `cap` keeps
    its tail. -/
def restore (cap start : Nat) (data : List UInt8) : Ring :=
  let excess := data.length - cap
  if excess > 0 then { cap, buf := data.drop excess, start := start + excess }
  else { cap, buf := data, start }

def push (r : Ring) (bytes : List UInt8) : Ring :=
  if bytes.length ≥ r.cap then
    let skip := bytes.length - r.cap
    { r with start := r.start + (r.buf.length + skip), buf := bytes.drop skip }
  else
    let excess := (r.buf.length + bytes.length) - r.cap
    if excess > 0 then { r with buf := r.buf.drop excess ++ bytes, start := r.start + excess }
    else { r with buf := r.buf ++ bytes }

/-- Drop the oldest `n` bytes. -/
def trimFront (r : Ring) (n : Nat) : Ring :=
  let n := min n r.buf.length
  { r with buf := r.buf.drop n, start := r.start + n }

/-- `&s[k..]`, which panics when `k` is past the end. -/
def indexFrom (s : List UInt8) (k : Nat) : Option (List UInt8) :=
  if k ≤ s.length then some (s.drop k) else none

/-- The deque stores its bytes in two slices. Where the second one starts
    depends on the allocations so far, so it is an argument here. -/
def asSlices (r : Ring) (wrap : Nat) : List UInt8 × List UInt8 :=
  (r.buf.take wrap, r.buf.drop wrap)

/-- Up to two slices covering the bytes from `frm` on, with `frm` clamped to
    what is held. `none` is a panic. -/
def slicesFrom (r : Ring) (wrap frm : Nat) : Option (List UInt8 × List UInt8) :=
  let frm := min (max frm r.start) r.end
  let skip := frm - r.start
  let (a, b) := r.asSlices wrap
  if skip ≥ a.length then (indexFrom b (skip - a.length)).map (·, [])
  else (indexFrom a skip).map (·, b)

def copyFrom (r : Ring) (wrap frm : Nat) : Option (List UInt8) :=
  (r.slicesFrom wrap frm).map fun (a, b) => a ++ b

/-- What is done to a ring over a session: output arrives, the total cap trims
    it, or a daemon that replaces itself rebuilds it from its own copy. -/
inductive Op where
  | push (bytes : List UInt8)
  | trimFront (n : Nat)
  | restore (cap wrap : Nat)
  deriving Repr, DecidableEq

def apply (r : Ring) : Op → Option Ring
  | .push bytes => some (r.push bytes)
  | .trimFront n => some (r.trimFront n)
  | .restore cap wrap => (r.copyFrom wrap 0).map (restore cap r.start)

def run (r : Ring) : List Op → Option Ring
  | [] => some r
  | op :: ops => (r.apply op).bind (run · ops)

/-- The bytes one operation adds to the stream. -/
def Op.pushed : Op → List UInt8
  | .push bytes => bytes
  | .trimFront _ | .restore _ _ => []

/-- The stream: everything pushed, in order. -/
def stream (ops : List Op) : List UInt8 := ops.flatMap Op.pushed

/-! ## What each operation leaves -/

theorem restore_eq (cap start : Nat) (data : List UInt8) :
    restore cap start data =
      { cap, buf := data.drop (data.length - cap), start := start + (data.length - cap) } := by
  simp only [restore]
  split
  next => rfl
  next none =>
    have fits : data.length - cap = 0 := by omega
    rw [fits, List.drop_zero, Nat.add_zero]

theorem push_of_large {r : Ring} {bytes : List UInt8} (large : r.cap ≤ bytes.length) :
    r.push bytes =
      { r with
        buf := bytes.drop (bytes.length - r.cap)
        start := r.start + (r.buf.length + (bytes.length - r.cap)) } := by
  simp only [push, ge_iff_le, if_pos large]

theorem push_of_small {r : Ring} {bytes : List UInt8} (small : bytes.length < r.cap) :
    r.push bytes =
      { r with
        buf := r.buf.drop (r.buf.length + bytes.length - r.cap) ++ bytes
        start := r.start + (r.buf.length + bytes.length - r.cap) } := by
  simp only [push, ge_iff_le, if_neg (Nat.not_le.mpr small)]
  split
  next => rfl
  next none =>
    have fits : r.buf.length + bytes.length - r.cap = 0 := by omega
    rw [fits, List.drop_zero, Nat.add_zero]

/-! ## The ring is a suffix of the stream -/

/-- The ring holds the bytes of the stream `s` from its own start on. -/
structure Suffix (s : List UInt8) (r : Ring) : Prop where
  buf_eq : r.buf = s.drop r.start
  start_le : r.start ≤ s.length
  len_le : r.len ≤ r.cap

variable {s : List UInt8} {r r' : Ring}

namespace Suffix

theorem new (cap : Nat) : Suffix [] (Ring.new cap) :=
  ⟨rfl, Nat.le_refl 0, Nat.zero_le cap⟩

theorem end_eq (held : Suffix s r) : r.end = s.length := by
  have start_le := held.start_le
  simp only [Ring.end, held.buf_eq, List.length_drop]
  omega

theorem buf_length (held : Suffix s r) : r.buf.length = s.length - r.start := by
  rw [held.buf_eq, List.length_drop]

/-- Dropping from the front of what is held is dropping from the stream. -/
theorem drop_buf (held : Suffix s r) (n : Nat) :
    r.buf.drop n = s.drop (r.start + n) := by
  rw [held.buf_eq, List.drop_drop]

/-- A shorter tail under a later start still is a suffix, under any cap it
    fits. -/
theorem dropFront (held : Suffix s r) {n cap : Nat}
    (within : n ≤ r.buf.length) (fits : r.buf.length - n ≤ cap) :
    Suffix s { cap, buf := r.buf.drop n, start := r.start + n } where
  buf_eq := held.drop_buf n
  start_le := by
    have := held.buf_length
    have := held.start_le
    show r.start + n ≤ s.length
    omega
  len_le := by simpa [len] using fits

theorem trimFront (held : Suffix s r) (n : Nat) : Suffix s (r.trimFront n) := by
  have fits := held.len_le
  rw [len] at fits
  exact held.dropFront (Nat.min_le_right _ _) (by omega)

theorem restore (held : Suffix s r) (cap : Nat) :
    Suffix s (Ring.restore cap r.start r.buf) := by
  rw [restore_eq]
  exact held.dropFront (by omega) (by omega)

/-- Output arrives. Either it fills the ring by itself, or what does not fit
    is dropped from the old end. -/
theorem push (held : Suffix s r) (bytes : List UInt8) : Suffix (s ++ bytes) (r.push bytes) := by
  have length := held.buf_length
  have start_le := held.start_le
  have fits := held.len_le
  rw [len] at fits
  by_cases large : r.cap ≤ bytes.length
  · rw [push_of_large large]
    -- the new start lies inside `bytes`
    have inside : r.start + (r.buf.length + (bytes.length - r.cap))
        = s.length + (bytes.length - r.cap) := by omega
    refine ⟨?_, ?_, ?_⟩
    · show bytes.drop _ = (s ++ bytes).drop (r.start + _)
      rw [inside, List.drop_append, List.drop_eq_nil_of_le (Nat.le_add_right _ _),
        List.nil_append, Nat.add_sub_cancel_left]
    · show r.start + _ ≤ (s ++ bytes).length
      rw [List.length_append]
      omega
    · show (bytes.drop _).length ≤ r.cap
      rw [List.length_drop]
      omega
  · rw [push_of_small (by omega)]
    have excess : r.buf.length + bytes.length - r.cap ≤ r.buf.length := by omega
    refine ⟨?_, ?_, ?_⟩
    · show r.buf.drop _ ++ bytes = (s ++ bytes).drop (r.start + _)
      rw [List.drop_append_of_le_length (by omega), held.drop_buf]
    · show r.start + _ ≤ (s ++ bytes).length
      rw [List.length_append]
      omega
    · show (r.buf.drop _ ++ bytes).length ≤ r.cap
      rw [List.length_append, List.length_drop]
      omega

/-- A read never indexes past either slice, and the two slices together are
    the stream from the asked offset on, or from the oldest byte held. -/
theorem slicesFrom_eq (held : Suffix s r) (wrap frm : Nat) :
    ∃ a b, r.slicesFrom wrap frm = some (a, b) ∧ a ++ b = s.drop (max frm r.start) := by
  have length := held.buf_length
  have end_eq := held.end_eq
  have start_le := held.start_le
  -- what the clamped offset skips of what is held
  obtain ⟨skip, skipped⟩ : ∃ skip, min (max frm r.start) r.end - r.start = skip := ⟨_, rfl⟩
  have within : skip ≤ r.buf.length := by omega
  have rest : r.buf.drop skip = s.drop (max frm r.start) := by
    rw [held.drop_buf]
    rcases Nat.le_total (max frm r.start) s.length with inside | past
    · congr 1
      omega
    · rw [List.drop_eq_nil_of_le past, List.drop_eq_nil_of_le (by omega)]
  have halves : r.buf.take wrap ++ r.buf.drop wrap = r.buf := List.take_append_drop wrap r.buf
  have lengths : (r.buf.take wrap).length + (r.buf.drop wrap).length = r.buf.length := by
    rw [← List.length_append, halves]
  simp only [slicesFrom, asSlices, skipped, ge_iff_le]
  by_cases second : (r.buf.take wrap).length ≤ skip
  · have bound : skip - (r.buf.take wrap).length ≤ (r.buf.drop wrap).length := by omega
    refine ⟨_, _, by rw [if_pos second, indexFrom, if_pos bound, Option.map_some], ?_⟩
    rw [List.append_nil, ← rest]
    conv_rhs => rw [← halves]
    rw [List.drop_append, List.drop_eq_nil_of_le second, List.nil_append]
  · have bound : skip ≤ (r.buf.take wrap).length := by omega
    refine ⟨_, _, by rw [if_neg second, indexFrom, if_pos bound, Option.map_some], ?_⟩
    rw [← List.drop_append_of_le_length bound, halves, rest]

theorem copyFrom_eq (held : Suffix s r) (wrap frm : Nat) :
    r.copyFrom wrap frm = some (s.drop (max frm r.start)) := by
  obtain ⟨a, b, read, joined⟩ := held.slicesFrom_eq wrap frm
  rw [copyFrom, read, Option.map_some]
  exact congrArg some joined

/-- The copy a daemon hands to its successor is the whole buffer. -/
theorem copyFrom_zero (held : Suffix s r) (wrap : Nat) : r.copyFrom wrap 0 = some r.buf := by
  rw [held.copyFrom_eq, Nat.zero_max, held.buf_eq]

theorem apply (held : Suffix s r) (op : Op) :
    ∃ r', r.apply op = some r' ∧ Suffix (s ++ op.pushed) r' := by
  cases op with
  | push bytes => exact ⟨_, rfl, held.push bytes⟩
  | trimFront n => exact ⟨_, rfl, by simpa only [Op.pushed, List.append_nil] using held.trimFront n⟩
  | restore cap wrap =>
    refine ⟨Ring.restore cap r.start r.buf, ?_, ?_⟩
    · rw [Ring.apply, held.copyFrom_zero, Option.map_some]
    · simpa only [Op.pushed, List.append_nil] using held.restore cap

theorem run (held : Suffix s r) (ops : List Op) :
    ∃ r', r.run ops = some r' ∧ Suffix (s ++ stream ops) r' := by
  induction ops generalizing s r with
  | nil => exact ⟨r, rfl, by simpa [stream] using held⟩
  | cons op ops ih =>
    obtain ⟨next, applied, held'⟩ := held.apply op
    obtain ⟨last, ran, heldLast⟩ := ih held'
    refine ⟨last, by rw [Ring.run, applied, Option.bind_some, ran], ?_⟩
    simpa only [stream, List.flatMap_cons, List.append_assoc] using heldLast

end Suffix

/-! ## Offsets only grow -/

theorem start_le_restore (cap start : Nat) (data : List UInt8) :
    start ≤ (restore cap start data).start := by
  rw [restore_eq]
  exact Nat.le_add_right _ _

theorem start_le_push (r : Ring) (bytes : List UInt8) : r.start ≤ (r.push bytes).start := by
  rcases Nat.lt_or_ge bytes.length r.cap with small | large
  · rw [push_of_small small]
    exact Nat.le_add_right _ _
  · rw [push_of_large large]
    exact Nat.le_add_right _ _

theorem start_le_apply {op : Op} (applied : r.apply op = some r') : r.start ≤ r'.start := by
  cases op with
  | push bytes =>
    obtain rfl := Option.some.inj applied
    exact start_le_push r bytes
  | trimFront n =>
    obtain rfl := Option.some.inj applied
    exact Nat.le_add_right _ _
  | restore cap wrap =>
    obtain ⟨data, -, rfl⟩ := Option.map_eq_some_iff.mp applied
    exact start_le_restore cap r.start data

theorem run_append (ops more : List Op) :
    r.run (ops ++ more) = (r.run ops).bind (·.run more) := by
  induction ops generalizing r with
  | nil => rfl
  | cons op ops ih =>
    simp only [List.cons_append, run, Option.bind_assoc]
    congr 1
    funext next
    exact ih

theorem start_le_run {ops : List Op} (ran : r.run ops = some r') : r.start ≤ r'.start := by
  induction ops generalizing r with
  | nil => exact Nat.le_of_eq (congrArg Ring.start (Option.some.inj ran))
  | cons op ops ih =>
    obtain ⟨next, applied, rest⟩ := Option.bind_eq_some_iff.mp ran
    exact Nat.le_trans (start_le_apply applied) (ih rest)

/-- In any session the ring is the newest part of the stream, under exact
    offsets, and every read is the stream from the asked offset on. -/
theorem run_suffix_of_stream (cap : Nat) (ops : List Op) :
    ∃ r, (new cap).run ops = some r ∧
      r.end = (stream ops).length ∧
      r.buf = ((stream ops).take r.end).drop r.start ∧
      r.len ≤ r.cap ∧
      (∀ more r', (new cap).run (ops ++ more) = some r' → r.start ≤ r'.start) ∧
      ∀ wrap frm, ∃ a b,
        r.slicesFrom wrap frm = some (a, b) ∧
        a ++ b = ((stream ops).take r.end).drop (max frm r.start) ∧
        r.copyFrom wrap frm = some (a ++ b) ∧
        (r.end ≤ frm → a ++ b = []) := by
  obtain ⟨r, ran, held⟩ := (Suffix.new cap).run ops
  rw [List.nil_append] at held
  have whole : (stream ops).take r.end = stream ops := by
    rw [held.end_eq, List.take_length]
  refine ⟨r, ran, held.end_eq, ?_, held.len_le, ?_, ?_⟩
  · rw [whole, held.buf_eq]
  · intro more r' further
    rw [run_append, ran, Option.bind_some] at further
    exact start_le_run further
  · intro wrap frm
    obtain ⟨a, b, read, joined⟩ := held.slicesFrom_eq wrap frm
    refine ⟨a, b, read, by rw [joined, whole], by rw [copyFrom, read, Option.map_some], ?_⟩
    intro past
    rw [held.end_eq] at past
    rw [joined, List.drop_eq_nil_of_le (by omega)]

/-- 3 bytes in a ring of 2, read from before its start and past its end. -/
example : ((new 2).run [.push [1], .push [2, 3], .trimFront 1]).bind (·.copyFrom 1 0) = some [3] := by
  decide

end Ring

end K2.Ptyd
