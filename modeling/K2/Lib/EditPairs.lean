import K2.Lib.Buffers
import Mathlib.Data.Set.Operations

/-! # Two edits that do the same

`Matches` relates two edits of buffers of one length: from every buffer both give
the same and leave the same, and neither changes a place outside a given set.
`Mirrors` relates an edit of a part to an edit of the whole. -/

namespace Buffers.Edit

open Checked

variable {α β γ : Type} {n a k : Nat} {W : Set Nat} {P : β → Prop} {Q : γ → Prop}

theorem Agree.trans {D : Set Nat} {p q r : List α} (h : Agree n D p q) (h' : Agree n D q r) : Agree n D p r :=
  ⟨h.left, h'.right, fun i mem => (h.same i mem).trans (h'.same i mem)⟩

theorem agree_patched {b : List α} {vs : List α} (length : b.length = n) (inside : a + vs.length ≤ n)
    (known : ∀ i, a ≤ i → i < a + vs.length → i ∈ W) : Agree n Wᶜ b (patched b a vs) := by
  subst length
  refine ⟨rfl, length_patched inside, fun i outside => ?_⟩
  rw [getElem?_patched inside, if_neg fun within => outside (known i within.1 within.2)]

/-! ## Runs patched into runs -/

theorem slice_bind {b : List α} (inside : a + k ≤ b.length) (f : List α → Edit α β) :
    (slice a k >>= f) b = f ((b.drop a).take k) b := by
  show ((sliceOf b a k).map (·, b) >>= fun r => f r.1 r.2) = _
  rw [sliceOf_eq inside]
  rfl

theorem lift_apply (x : Option β) (b : List α) : (liftM x : Edit α β) b = x.map (·, b) := by
  cases x <;> rfl

theorem lift_bind (x : Option β) (f : β → Edit α γ) (b : List α) :
    ((liftM x : Edit α β) >>= f) b = x.bind fun c => f c b := by
  cases x <;> rfl

theorem sliceOf_run {b : List α} {x y : Nat} (inside : a + k ≤ b.length) (fits : x + y ≤ k) :
    sliceOf ((b.drop a).take k) x y = sliceOf b (a + x) y := by
  rw [sliceOf_eq (by rw [length_run inside]; exact fits), sliceOf_eq (by omega), List.drop_take, List.drop_drop,
    List.take_take, Nat.min_eq_left (by omega)]

/-- A patch of a run is a patch of the buffer. -/
theorem patched_run {b vs : List α} {x : Nat} (inside : a + k ≤ b.length) (fits : x + vs.length ≤ k) :
    patched b a (patched ((b.drop a).take k) x vs) = patched b (a + x) vs := by
  have size := length_run inside
  have whole : (patched ((b.drop a).take k) x vs).length = k := by
    rw [length_patched (by rw [size]; exact fits), size]
  refine List.ext_getElem? fun i => ?_
  rw [getElem?_patched (by omega), getElem?_patched (b := b) (a := a + x) (by omega), whole]
  by_cases window : a ≤ i ∧ i < a + k
  · rw [if_pos window, getElem?_patched (by rw [size]; exact fits), getElem?_run]
    by_cases middle : a + x ≤ i ∧ i < a + x + vs.length
    · rw [if_pos middle, if_pos (by omega)]
      congr 1
      omega
    · rw [if_neg middle, if_neg (by omega), if_pos (by omega)]
      congr 1
      omega
  · rw [if_neg window, if_neg (by omega)]

/-- Writing back what a run holds, but for the middle, patches the middle. -/
theorem patched_middle {b vs : List α} {x y : Nat} (inside : a + k ≤ b.length) (ordered : x ≤ y ∧ y ≤ k)
    (fits : vs.length = y - x) :
    patched b a (((b.drop a).take k).take x ++ vs ++ ((b.drop a).take k).drop y) = patched b (a + x) vs := by
  have size := length_run inside
  have same : ((b.drop a).take k).take x ++ vs ++ ((b.drop a).take k).drop y
      = patched ((b.drop a).take k) x vs := by
    rw [patched, fits, Nat.add_sub_cancel' ordered.1]
  rw [same, patched_run inside (by omega)]

theorem patched_self {b : List α} (inside : a + k ≤ b.length) : patched b a ((b.drop a).take k) = b := by
  have size := length_run inside
  refine List.ext_getElem? fun i => ?_
  rw [getElem?_patched (by omega), size, getElem?_run]
  split
  · rw [if_pos (by omega), Nat.add_sub_cancel' (by omega)]
  · rfl

theorem run_patched {b w : List α} (inside : a + w.length ≤ b.length) :
    ((patched b a w).drop a).take w.length = w := by
  refine List.ext_getElem? fun i => ?_
  rw [getElem?_run]
  split
  · rw [getElem?_patched inside, if_pos (by omega), Nat.add_sub_cancel_left]
  · rw [List.getElem?_eq_none (by omega)]

theorem patched_patched {b w w' : List α} (inside : a + w.length ≤ b.length) (same : w'.length = w.length) :
    patched (patched b a w) a w' = patched b a w' := by
  refine List.ext_getElem? fun i => ?_
  rw [getElem?_patched (by rw [length_patched inside]; omega), getElem?_patched inside, getElem?_patched (by omega), same]
  by_cases window : a ≤ i ∧ i < a + w.length
  · rw [if_pos window, if_pos window]
  · rw [if_neg window, if_neg window, if_neg window]

/-! ## An edit of a part and one of the whole -/

/-- `m` does to the run of `k` at `a` what `m'` does to the whole. -/
def Mirrors (n a k : Nat) (m m' : Edit α Unit) : Prop :=
  ∀ b, b.length = n → ∃ w, m ((b.drop a).take k) = some ((), w) ∧ w.length = k ∧ m' b = some ((), patched b a w)

namespace Mirrors

theorem splice {x : Nat} {vs : List α} (inside : a + k ≤ n) (fits : x + vs.length ≤ k) :
    Mirrors n a k (splice x vs) (splice (a + x) vs) := by
  intro b length
  subst length
  have size := length_run inside
  have room : x + vs.length ≤ ((b.drop a).take k).length := by rw [size]; exact fits
  refine ⟨_, if_pos room, by rw [length_patched room, size], ?_⟩
  rw [patched_run inside fits]
  exact if_pos (by omega)

theorem loop {f g : Nat → Unit → Edit α Unit} {r : Nat} (inside : a + k ≤ n)
    (round : ∀ i < r, Mirrors n a k (f i ()) (g i ())) : Mirrors n a k (loop f r ()) (loop g r ()) := by
  induction r with
  | zero =>
      intro b length
      subst length
      refine ⟨(b.drop a).take k, rfl, length_run inside, ?_⟩
      rw [patched_self inside]
      rfl
  | succ r ih =>
      intro b length
      obtain ⟨w, inner, size, outer⟩ := ih (fun i below => round i (Nat.lt_succ_of_lt below)) b length
      have room : a + w.length ≤ b.length := by omega
      obtain ⟨w', inner', size', outer'⟩ := round r (Nat.lt_succ_self r) (patched b a w) (by rw [length_patched room, length])
      rw [← size, run_patched room] at inner'
      refine ⟨w', ?_, size', ?_⟩
      · show (Checked.loop f r () _ >>= fun s => f r s.1 s.2) = _
        rw [inner]
        exact inner'
      · show (Checked.loop g r () b >>= fun s => g r s.1 s.2) = _
        rw [outer]
        refine outer'.trans ?_
        rw [patched_patched room (by omega)]

theorem within {m m' : Edit α Unit} (h : Mirrors n a k m m') (inside : a + k ≤ n) {b : List α} (length : b.length = n) :
    within a k m b = m' b := by
  obtain ⟨w, inner, -, outer⟩ := h b length
  rw [outer]
  unfold Edit.within
  rw [sliceOf_eq (by omega)]
  simp only [Option.bind_eq_bind, Option.bind_some, inner]
  rfl

end Mirrors

/-! ## Two edits of the whole -/

/-- From a buffer of length `n`, `m` and `m'` give the same, which is as `P`
    says, leave the same buffer and change no place outside `W`. -/
def Matches (n : Nat) (W : Set Nat) (P : β → Prop) (m m' : Edit α β) : Prop :=
  ∀ b, b.length = n → ∃ c b', m b = some (c, b') ∧ m' b = some (c, b') ∧ P c ∧ Agree n Wᶜ b b'

namespace Matches

theorem pure {c : β} (h : P c) : Matches (α := α) n W P (Pure.pure c) (Pure.pure c) :=
  fun b length => ⟨c, b, rfl, rfl, h, Agree.refl _ length⟩

theorem bind {m m' : Edit α β} {f f' : β → Edit α γ} (first : Matches n W P m m')
    (second : ∀ c, P c → Matches n W Q (f c) (f' c)) : Matches n W Q (m >>= f) (m' >>= f') := by
  intro b length
  obtain ⟨c, b', ran, ran', holds, agree⟩ := first b length
  obtain ⟨d, b'', done, done', holds', agree'⟩ := second c holds b' agree.right
  refine ⟨d, b'', ?_, ?_, holds', agree.trans agree'⟩
  · show (m b >>= fun r => f r.1 r.2) = _
    rw [ran]
    exact done
  · show (m' b >>= fun r => f' r.1 r.2) = _
    rw [ran']
    exact done'

theorem splice {vs : List α} (inside : a + vs.length ≤ n) (known : ∀ i, a ≤ i → i < a + vs.length → i ∈ W) :
    Matches n W (fun _ => True) (splice a vs) (splice a vs) := by
  intro b length
  have room : a + vs.length ≤ b.length := by omega
  exact ⟨(), _, if_pos room, if_pos room, trivial, agree_patched length inside known⟩

theorem loop {f f' : Nat → Unit → Edit α Unit} {r : Nat}
    (round : ∀ i < r, Matches n W (fun _ => True) (f i ()) (f' i ())) :
    Matches n W (fun _ => True) (loop f r ()) (loop f' r ()) := by
  induction r with
  | zero => exact pure trivial
  | succ r ih =>
      exact (ih fun i below => round i (Nat.lt_succ_of_lt below)).bind fun _ _ => round r (Nat.lt_succ_self r)

theorem forM {f f' : γ → Edit α Unit} {l : List γ} (each : ∀ c ∈ l, Matches n W (fun _ => True) (f c) (f' c)) :
    Matches n W (fun _ => True) (l.forM f) (l.forM f') := by
  induction l with
  | nil => exact pure trivial
  | cons c l ih =>
      exact (each c (List.mem_cons_self ..)).bind fun _ _ => ih fun c mem => each c (List.mem_cons_of_mem _ mem)

/-- What is known of one edit, for another that does the same. -/
theorem of_same {m m' : Edit α β} (same : ∀ b, b.length = n → m b = m' b) (h : Matches n W P m' m') :
    Matches n W P m m' := by
  intro b length
  rw [same b length]
  exact h b length

theorem runs {m m' : Edit α β} (h : Matches n W P m m') : Runs (fun b => b.length = n) P m := by
  intro b length
  obtain ⟨c, b', ran, -, holds, agree⟩ := h b length
  exact ⟨c, b', ran, holds, agree.right⟩

end Matches

end Buffers.Edit
