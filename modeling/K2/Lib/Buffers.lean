import K2.Lib.Checked
import Mathlib.Data.Set.Basic

/-! # Buffers and the planes kept in them

Edits that read and write runs of a buffer, and where the rows of a plane lie in one. -/

/-! ## Edits of a buffer

An edit reads and writes runs of a buffer of fixed length and panics where a run
leaves it. `Tracks` relates two runs of one edit: from buffers that agree on the
places the edit reads, both give the same result and leave buffers that agree on
those places and on what was written. With one buffer on both sides it says that
the edit does not panic. -/

namespace Buffers

open Checked

variable {α β γ : Type}

/-- `&l[a..a + k]`. -/
def sliceOf (l : List α) (a k : Nat) : Option (List α) :=
  if a + k ≤ l.length then some ((l.drop a).take k) else none

theorem sliceOf_eq {l : List α} {a k : Nat} (inside : a + k ≤ l.length) :
    sliceOf l a k = some ((l.drop a).take k) := if_pos inside

theorem length_run {l : List α} {a k : Nat} (inside : a + k ≤ l.length) : ((l.drop a).take k).length = k := by
  rw [List.length_take, List.length_drop]
  omega

theorem getElem?_run (l : List α) (a k i : Nat) :
    ((l.drop a).take k)[i]? = if i < k then l[a + i]? else none := by
  rw [List.getElem?_take]
  split
  · rw [List.getElem?_drop]
  · rfl

theorem Yields.sliceOf {l : List α} {a k : Nat} {P : α → Prop} (inside : a + k ≤ l.length) (each : ∀ x ∈ l, P x) :
    Yields (fun r => r.length = k ∧ ∀ x ∈ r, P x) (sliceOf l a k) :=
  ⟨_, sliceOf_eq inside, length_run inside,
    fun x mem => each x (List.mem_of_mem_drop (List.mem_of_mem_take mem))⟩

abbrev Edit (α β : Type) := StateT (List α) Option β

namespace Edit

def get (i : Nat) : Edit α α := fun b => b[i]?.map (·, b)

def slice (a k : Nat) : Edit α (List α) := fun b => (sliceOf b a k).map (·, b)

/-- What a buffer is after `vs` is copied over it at `a`. -/
def patched (b : List α) (a : Nat) (vs : List α) : List α := b.take a ++ vs ++ b.drop (a + vs.length)

/-- `b[a..a + vs.len()].copy_from_slice(vs)`. -/
def splice (a : Nat) (vs : List α) : Edit α Unit := fun b =>
  if a + vs.length ≤ b.length then some ((), patched b a vs) else none

def set (i : Nat) (v : α) : Edit α Unit := splice i [v]

/-- An edit of `&mut b[a..a + k]`. -/
def within (a k : Nat) (m : Edit α β) : Edit α β := fun b => do
  let (x, run) ← m (← sliceOf b a k)
  return (x, patched b a run)

@[simp] theorem length_patched {b : List α} {a : Nat} {vs : List α} (inside : a + vs.length ≤ b.length) :
    (patched b a vs).length = b.length := by
  simp only [patched, List.length_append, List.length_take, List.length_drop]
  omega

theorem getElem?_patched {b : List α} {a : Nat} {vs : List α} (inside : a + vs.length ≤ b.length) (i : Nat) :
    (patched b a vs)[i]? = if a ≤ i ∧ i < a + vs.length then vs[i - a]? else b[i]? := by
  have head : (b.take a).length = a := by rw [List.length_take]; omega
  unfold patched
  by_cases before : i < a
  · rw [if_neg (by omega), List.append_assoc, List.getElem?_append_left (by omega), List.getElem?_take, if_pos before]
  by_cases inner : i < a + vs.length
  · rw [if_pos (by omega), List.getElem?_append_left (by rw [List.length_append]; omega),
      List.getElem?_append_right (by omega), head]
  · rw [if_neg (by omega), List.getElem?_append_right (by rw [List.length_append]; omega), List.length_append, head,
      List.getElem?_drop]
    congr 1
    omega

/-! ## Two runs of one edit -/

/-- Two buffers of length `n` that agree on `D`. -/
structure Agree (n : Nat) (D : Set Nat) (p q : List α) : Prop where
  left : p.length = n
  right : q.length = n
  same : ∀ i ∈ D, p[i]? = q[i]?

theorem Agree.mono {n : Nat} {D D' : Set Nat} {p q : List α} (h : Agree n D p q) (le : D' ⊆ D) : Agree n D' p q :=
  ⟨h.left, h.right, fun i mem => h.same i (le mem)⟩

theorem Agree.refl {n : Nat} (D : Set Nat) {p : List α} (length : p.length = n) : Agree n D p p :=
  ⟨length, length, fun _ _ => rfl⟩

/-- Buffers that agree wherever they hold something are one buffer. -/
theorem Agree.eq {n : Nat} {D : Set Nat} {p q : List α} (h : Agree n D p q) (all : ∀ i < n, i ∈ D) : p = q := by
  refine List.ext_getElem? fun i => ?_
  by_cases inside : i < n
  · exact h.same i (all i inside)
  · rw [List.getElem?_eq_none (by rw [h.left]; omega), List.getElem?_eq_none (by rw [h.right]; omega)]

theorem Agree.run {n : Nat} {D : Set Nat} {p q : List α} (h : Agree n D p q) {a k : Nat}
    (known : ∀ i, a ≤ i → i < a + k → i ∈ D) : (p.drop a).take k = (q.drop a).take k := by
  refine List.ext_getElem? fun i => ?_
  rw [getElem?_run, getElem?_run]
  split
  · exact h.same _ (known _ (by omega) (by omega))
  · rfl

theorem Agree.sliceOf {n : Nat} {D : Set Nat} {p q : List α} (h : Agree n D p q) {a k : Nat}
    (known : ∀ i, a ≤ i → i < a + k → i ∈ D) : sliceOf p a k = sliceOf q a k := by
  unfold Buffers.sliceOf
  rw [h.left, h.right, h.run known]

def Tracks (n : Nat) (D D' : Set Nat) (P : β → Prop) (m : Edit α β) : Prop :=
  ∀ p q, Agree n D p q → ∃ b p' q', m p = some (b, p') ∧ m q = some (b, q') ∧ P b ∧ Agree n D' p' q'

namespace Tracks

variable {n : Nat} {D D' D'' : Set Nat} {P : β → Prop} {Q : γ → Prop}

theorem pure {b : β} (h : P b) : Tracks (α := α) n D D P (Pure.pure b) :=
  fun p q agree => ⟨b, p, q, rfl, rfl, h, agree⟩

theorem bind {m : Edit α β} {f : β → Edit α γ} (first : Tracks n D D' P m)
    (second : ∀ b, P b → Tracks n D' D'' Q (f b)) : Tracks n D D'' Q (m >>= f) := by
  intro p q agree
  obtain ⟨b, p', q', ran, ran', holds, agree'⟩ := first p q agree
  obtain ⟨c, p'', q'', done, done', rest⟩ := second b holds p' q' agree'
  refine ⟨c, p'', q'', ?_, ?_, rest⟩
  · show (m p >>= fun r => f r.1 r.2) = _
    rw [ran]
    exact done
  · show (m q >>= fun r => f r.1 r.2) = _
    rw [ran']
    exact done'

theorem lift {x : Option β} (h : Yields P x) : Tracks (α := α) n D D P (liftM x) := by
  obtain ⟨b, rfl, holds⟩ := h
  exact fun p q agree => ⟨b, p, q, rfl, rfl, holds, agree⟩

theorem mono {m : Edit α β} {P' : β → Prop} {E : Set Nat} (h : Tracks n D D' P m) (le : ∀ b, P b → P' b)
    (keep : E ⊆ D') : Tracks n D E P' m := by
  intro p q agree
  obtain ⟨b, p', q', ran, ran', holds, agree'⟩ := h p q agree
  exact ⟨b, p', q', ran, ran', le b holds, agree'.mono keep⟩

theorem loop {f : Nat → β → Edit α β} {r : Nat} {b : β} (J : Nat → β → Prop) (E : Nat → Set Nat)
    (start : J 0 b)
    (round : ∀ k, k < r → ∀ b, J k b → Tracks n (E k) (E (k + 1)) (J (k + 1)) (f k b)) :
    Tracks n (E 0) (E r) (J r) (loop f r b) := by
  induction r with
  | zero => exact pure start
  | succ r ih =>
      exact (ih fun k below => round k (Nat.lt_succ_of_lt below)).bind (round r (Nat.lt_succ_self r))

theorem mapM {f : γ → Edit α β} {l : List γ} (each : ∀ c ∈ l, Tracks n D D P (f c)) :
    Tracks n D D (fun out => out.length = l.length ∧ ∀ b ∈ out, P b) (l.mapM f) := by
  induction l with
  | nil => exact pure ⟨rfl, by simp⟩
  | cons c l ih =>
      rw [List.mapM_cons]
      refine (each c (List.mem_cons_self ..)).bind fun b holds => ?_
      refine (ih fun c mem => each c (List.mem_cons_of_mem _ mem)).bind fun out known => ?_
      refine pure ⟨by simp [known.1], ?_⟩
      rintro d (_ | ⟨_, mem⟩)
      · exact holds
      · exact known.2 d mem

theorem get {i : Nat} (inside : i < n) (known : i ∈ D) : Tracks (α := α) n D D (fun _ => True) (get i) := by
  intro p q agree
  have left : i < p.length := by rw [agree.left]; exact inside
  have there : p[i]? = some p[i] := List.getElem?_eq_getElem left
  refine ⟨p[i], p, q, ?_, ?_, trivial, agree⟩
  · simp only [Edit.get, there, Option.map_some]
  · simp only [Edit.get, ← agree.same i known, there, Option.map_some]

theorem slice {a k : Nat} (inside : a + k ≤ n) (known : ∀ i, a ≤ i → i < a + k → i ∈ D) :
    Tracks (α := α) n D D (fun run => run.length = k) (slice a k) := by
  intro p q agree
  have left : a + k ≤ p.length := by rw [agree.left]; exact inside
  have right : a + k ≤ q.length := by rw [agree.right]; exact inside
  refine ⟨(p.drop a).take k, p, q, ?_, ?_, length_run left, agree⟩
  · simp only [Edit.slice, sliceOf_eq left, Option.map_some]
  · simp only [Edit.slice, sliceOf_eq right, Option.map_some, agree.run known]

theorem splice {a : Nat} {vs : List α} (inside : a + vs.length ≤ n) :
    Tracks n D (D ∪ {i | a ≤ i ∧ i < a + vs.length}) (fun _ => True) (splice a vs) := by
  intro p q agree
  have left : a + vs.length ≤ p.length := by rw [agree.left]; exact inside
  have right : a + vs.length ≤ q.length := by rw [agree.right]; exact inside
  refine ⟨(), patched p a vs, patched q a vs, if_pos left, if_pos right, trivial, ?_, ?_, ?_⟩
  · rw [length_patched left, agree.left]
  · rw [length_patched right, agree.right]
  · intro i mem
    rw [getElem?_patched left, getElem?_patched right]
    split
    · rfl
    next outside => exact agree.same i (mem.resolve_right outside)

theorem set {i : Nat} (v : α) (inside : i < n) : Tracks n D D (fun _ => True) (set i v) :=
  Tracks.mono (show Tracks n D _ _ (Edit.splice i [v]) from splice inside) (fun _ h => h) Set.subset_union_left

/-- One buffer on both sides. -/
theorem runs {m : Edit α β} (h : Tracks n D D' P m) : Runs (fun b => b.length = n) P m := by
  intro p length
  obtain ⟨b, p', q', ran, -, holds, agree⟩ := h p p (Agree.refl D length)
  exact ⟨b, p', ran, holds, agree.left⟩

end Tracks

end Edit

end Buffers

/-! ## Planes kept row by row

A plane of width `w` keeps the pixel in column `x` of row `y` at `y * w + x`.
Where a pixel lies is read back by `/ w` and `% w`. -/

namespace Grid

variable {w : Nat}

theorem place_div {x : Nat} (y : Nat) (inside : x < w) : (y * w + x) / w = y := by
  rw [Nat.mul_comm, Nat.mul_add_div (by omega), Nat.div_eq_of_lt inside, Nat.add_zero]

theorem place_mod {x : Nat} (y : Nat) (inside : x < w) : (y * w + x) % w = x := by
  rw [Nat.mul_comm, Nat.mul_add_mod, Nat.mod_eq_of_lt inside]

theorem place_eq (i w : Nat) : i / w * w + i % w = i := by
  rw [Nat.mul_comm]
  exact Nat.div_add_mod i w

/-- A run inside one row. -/
theorem mem_run {x n i : Nat} (y : Nat) (fits : x + n ≤ w) :
    y * w + x ≤ i ∧ i < y * w + x + n ↔ i / w = y ∧ x ≤ i % w ∧ i % w < x + n := by
  constructor
  · rintro ⟨low, high⟩
    obtain ⟨c, rfl⟩ : ∃ c, i = y * w + (x + c) := ⟨i - (y * w + x), by omega⟩
    rw [place_div y (by omega), place_mod y (by omega)]
    exact ⟨rfl, by omega, by omega⟩
  · rintro ⟨rfl, low, high⟩
    have := place_eq i w
    omega

theorem row_end_le {y h : Nat} (w : Nat) (below : y < h) : y * w + w ≤ h * w := by
  have : (y + 1) * w ≤ h * w := Nat.mul_le_mul_right w below
  rw [Nat.add_mul, Nat.one_mul] at this
  exact this

theorem run_end_le {x n y h : Nat} (fits : x + n ≤ w) (below : y < h) : y * w + x + n ≤ h * w := by
  have := row_end_le w below
  omega

/-- The `n` columns from `x` of the `m` rows from `y`. -/
def Rect (w x y n m : Nat) : Set Nat :=
  {i | y ≤ i / w ∧ i / w < y + m ∧ x ≤ i % w ∧ i % w < x + n}

/-- Rows written into a plane, each where `pos` says. -/
def writeRows {α : Type} (pos : Nat → Nat) (row : Nat → Option (List α)) (m : Nat) : Buffers.Edit α Unit :=
  Checked.loop (fun r _ => do Buffers.Edit.splice (pos r) (← row r)) m ()

open Checked Buffers Buffers.Edit in
/-- A rectangle written row by row. -/
theorem tracks_writeRows {α : Type} {x y n m h : Nat} {D : Set Nat} {pos : Nat → Nat} {row : Nat → Option (List α)}
    (fits : x + n ≤ w) (down : y + m ≤ h) (places : ∀ r < m, pos r = (y + r) * w + x)
    (rows : ∀ r < m, Yields (fun l => l.length = n) (row r)) :
    Tracks (h * w) D (D ∪ Rect w x y n m) (fun _ => True) (writeRows pos row m) := by
  have start : D = D ∪ Rect w x y n 0 := by
    ext i
    refine ⟨Or.inl, fun mem => mem.resolve_right fun ⟨low, high, _, _⟩ => by omega⟩
  have whole := Tracks.loop (n := h * w) (r := m) (b := ()) (f := fun r _ => do splice (pos r) (← row r))
    (fun _ _ => True) (fun r => D ∪ Rect w x y n r) trivial fun r below _ _ => by
      refine (Tracks.lift (rows r below)).bind fun l length => ?_
      refine (Tracks.splice ?_).mono (fun _ h => h) ?_
      · rw [places r below, length]
        exact run_end_le fits (by omega)
      · rintro i (old | ⟨low, high, before, after⟩)
        · exact Or.inl (Or.inl old)
        by_cases this : i / w = y + r
        · refine Or.inr ?_
          rw [places r below, length]
          exact (mem_run _ fits).mpr ⟨this, before, after⟩
        · exact Or.inl (Or.inr ⟨low, by omega, before, after⟩)
  rw [← start] at whole
  exact whole

/-- `b'` is `b` with `m` rows of `n` written `stride` apart from `base` on. -/
structure Written {α : Type} (base stride n m : Nat) (line : Nat → Nat → α) (b b' : List α) : Prop where
  length : b'.length = b.length
  there : ∀ r < m, ∀ c < n, b'[base + r * stride + c]? = some (line r c)
  kept : ∀ i, (∀ r < m, ∀ c < n, i ≠ base + r * stride + c) → b'[i]? = b[i]?

open Checked Buffers Buffers.Edit in
/-- Rows that do not meet are all there once they are written. -/
theorem writeRows_eq {α : Type} {base stride n m : Nat} {p : Nat → Nat} {row : Nat → Option (List α)}
    {l : Nat → Nat → α} {b : List α} (wide : n ≤ stride) (places : ∀ r < m, p r = base + r * stride)
    (rows : ∀ r < m, row r = some ((List.range n).map (l r))) (inside : ∀ r < m, base + r * stride + n ≤ b.length) :
    ∃ b', writeRows p row m b = some ((), b') ∧ Written base stride n m l b b' := by
  induction m with
  | zero => exact ⟨b, rfl, rfl, fun r below => absurd below (Nat.not_lt_zero r), fun _ _ => rfl⟩
  | succ m ih =>
      obtain ⟨b', ran, written⟩ := ih (fun r below => places r (Nat.lt_succ_of_lt below))
        (fun r below => rows r (Nat.lt_succ_of_lt below)) fun r below => inside r (Nat.lt_succ_of_lt below)
      have size : ((List.range n).map (l m)).length = n := by rw [List.length_map, List.length_range]
      have room : base + m * stride + ((List.range n).map (l m)).length ≤ b'.length := by
        rw [size, written.length]
        exact inside m (Nat.lt_succ_self m)
      refine ⟨patched b' (base + m * stride) ((List.range n).map (l m)), ?_, ?_, ?_, ?_⟩
      · show (writeRows p row m b >>= fun s => (liftM (row m) >>= fun l => splice (p m) l : Buffers.Edit α Unit) s.2) = _
        rw [ran, rows m (Nat.lt_succ_self m), places m (Nat.lt_succ_self m)]
        exact if_pos room
      · rw [length_patched room, written.length]
      · intro r below c small
        rw [getElem?_patched room, size]
        rcases Nat.lt_or_eq_of_le (Nat.le_of_lt_succ below) with earlier | rfl
        · have := row_end_le stride earlier
          rw [if_neg (by omega)]
          exact written.there r earlier c small
        · rw [if_pos (by omega), Nat.add_sub_cancel_left, List.getElem?_map, List.getElem?_range small, Option.map_some]
      · intro i apart
        rw [getElem?_patched room, size, if_neg]
        · exact written.kept i fun r below c small => apart r (Nat.lt_succ_of_lt below) c small
        · rintro ⟨low, high⟩
          exact apart m (Nat.lt_succ_self m) (i - (base + m * stride)) (by omega) (by omega)

end Grid
