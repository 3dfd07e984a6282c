import Mathlib.Tactic.Common

/-! # Programs that fail and keep what they did

A program that fails leaves the state as far as it got. What holds at its end and
what holds at its failure are stated apart, and follow its binds. -/

namespace Triple

variable {ε ε' σ α β : Type}

/-- From a state with `P`, a program ends with `Q` or fails with `E`. -/
def Ends (P : σ → Prop) (m : EStateM ε σ α) (Q : α → σ → Prop) (E : σ → Prop) : Prop :=
  ∀ s, P s →
    match m s with
    | .ok a s' => Q a s'
    | .error _ s' => E s'

/-- What came of a program, as a value. -/
def attempt (m : EStateM ε σ α) : EStateM ε' σ (Except ε α) := fun s =>
  match m s with
  | .ok a s' => .ok (.ok a) s'
  | .error e s' => .ok (.error e) s'

/-- The same program with its error told differently. -/
def mapErr (f : ε → ε') (m : EStateM ε σ α) : EStateM ε' σ α := fun s =>
  match m s with
  | .ok a s' => .ok a s'
  | .error e s' => .error (f e) s'

theorem bind_ok {m : EStateM ε σ α} {f : α → EStateM ε σ β} {s s' : σ} {a : α} (ran : m s = .ok a s') : (m >>= f) s = f a s' := by
  change EStateM.bind m f s = _
  unfold EStateM.bind
  rw [ran]

theorem bind_error {m : EStateM ε σ α} {f : α → EStateM ε σ β} {s s' : σ} {e : ε} (ran : m s = .error e s') :
    (m >>= f) s = .error e s' := by
  change EStateM.bind m f s = _
  unfold EStateM.bind
  rw [ran]

variable {P P' : σ → Prop} {Q : α → σ → Prop} {R : β → σ → Prop} {E : σ → Prop} {m : EStateM ε σ α}

theorem Ends.pure {a : α} (here : ∀ s, P s → Q a s) : Ends P (Pure.pure a : EStateM ε σ α) Q E := here

theorem Ends.throw {e : ε} (here : ∀ s, P s → E s) : Ends P (MonadExcept.throw e : EStateM ε σ α) Q E := here

theorem Ends.bind {f : α → EStateM ε σ β} (first : Ends P m Q E) (later : ∀ a, Ends (Q a) (f a) R E) :
    Ends P (m >>= f) R E := by
  intro s start
  have ended := first s start
  cases ran : m s with
  | ok a s' =>
    rw [ran] at ended
    rw [bind_ok ran]
    exact later a s' ended
  | error e s' =>
    rw [ran] at ended
    rw [bind_error ran]
    exact ended

theorem Ends.weaken {Q' : α → σ → Prop} {E' : σ → Prop} (ends : Ends P m Q E) (start : ∀ s, P' s → P s)
    (good : ∀ a s, Q a s → Q' a s) (bad : ∀ s, E s → E' s) : Ends P' m Q' E' := by
  intro s here
  have ended := ends s (start s here)
  cases ran : m s with
  | ok a s' =>
    rw [ran] at ended
    exact good a s' ended
  | error e s' =>
    rw [ran] at ended
    exact bad s' ended

theorem Ends.attempt {Q' : Except ε α → σ → Prop} {E' : σ → Prop} (ends : Ends P m Q E) (good : ∀ a s, Q a s → Q' (.ok a) s)
    (bad : ∀ e s, E s → Q' (.error e) s) : Ends P (attempt m : EStateM ε' σ (Except ε α)) Q' E' := by
  intro s here
  have ended := ends s here
  unfold Triple.attempt
  cases ran : m s with
  | ok a s' =>
    rw [ran] at ended
    exact good a s' ended
  | error e s' =>
    rw [ran] at ended
    exact bad e s' ended

theorem Ends.mapErr {f : ε → ε'} (ends : Ends P m Q E) : Ends P (mapErr f m) Q E := by
  intro s here
  have ended := ends s here
  unfold Triple.mapErr
  cases ran : m s with
  | ok a s' =>
    rw [ran] at ended
    exact ended
  | error e s' =>
    rw [ran] at ended
    exact ended

/-- How a program ended, from what it ends with. -/
theorem Ends.ok {a : α} {s s' : σ} (ends : Ends P m Q E) (start : P s) (ran : m s = .ok a s') : Q a s' := by
  have ended := ends s start
  rwa [ran] at ended

theorem Ends.error {e : ε} {s s' : σ} (ends : Ends P m Q E) (start : P s) (ran : m s = .error e s') : E s' := by
  have ended := ends s start
  rwa [ran] at ended

end Triple
