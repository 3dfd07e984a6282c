import Mathlib.Data.List.Basic
import Mathlib.Tactic.Common

/-! # Step by step

What a state goes through that takes inputs, answers calls or reads symbols, one
after another. -/

/-! ## Runs, round by round

A state takes one input after another. `Along` says what holds at every round of
a run, `outputs` collects what each round gives. -/

namespace Rounds

variable {σ ρ β : Type*} (next : σ → ρ → σ)

/-- The state after a run. -/
def after : σ → List ρ → σ
  | s, [] => s
  | s, r :: rest => after (next s r) rest

/-- `P` holds at every round of a run. -/
def Along (P : σ → ρ → Prop) : σ → List ρ → Prop
  | _, [] => True
  | s, r :: rest => P s r ∧ Along P (next s r) rest

instance along (P : σ → ρ → Prop) [∀ s r, Decidable (P s r)] :
    ∀ s rounds, Decidable (Along next P s rounds)
  | _, [] => isTrue trivial
  | s, r :: rest => @instDecidableAnd _ _ _ (along P (next s r) rest)

/-- What the rounds give, in order. -/
def outputs (out : σ → ρ → List β) : σ → List ρ → List β
  | _, [] => []
  | s, r :: rest => out s r ++ outputs out (next s r) rest

variable {next}

theorem after_append (s : σ) (first later : List ρ) : after next s (first ++ later) = after next (after next s first) later := by
  induction first generalizing s with
  | nil => rfl
  | cons r first ih => exact ih (next s r)

/-- What every round keeps, every run keeps. -/
theorem invariant {I : σ → Prop} (step : ∀ s r, I s → I (next s r)) {s : σ} (held : I s) (rounds : List ρ) :
    I (after next s rounds) := by
  induction rounds generalizing s with
  | nil => exact held
  | cons r rest ih => exact ih (step s r held)

/-- What every round that is as `P` says keeps, a run of such rounds keeps. -/
theorem keeps {P : σ → ρ → Prop} {I : σ → Prop} (step : ∀ s r, I s → P s r → I (next s r)) {s : σ}
    {rounds : List ρ} (held : I s) (along : Along next P s rounds) : I (after next s rounds) := by
  induction rounds generalizing s with
  | nil => exact held
  | cons r rest ih => exact ih (step s r held along.1) along.2

end Rounds

/-! ## Histories of answered calls

A component takes one call after another and answers each. Its history lists the
calls with their answers; what a later call finds is then a statement about the
history before it. -/

namespace History

variable {σ ι ο : Type*} (step : σ → ι → σ × ο)

/-- The state after a run of calls. -/
def after : σ → List ι → σ
  | s, [] => s
  | s, c :: rest => after (step s c).1 rest

/-- The calls of a run with their answers. -/
def history : σ → List ι → List (ι × ο)
  | _, [] => []
  | s, c :: rest => (c, (step s c).2) :: history (step s c).1 rest

variable {step}

@[simp] theorem after_append (s : σ) (calls later : List ι) :
    after step s (calls ++ later) = after step (after step s calls) later := by
  induction calls generalizing s with
  | nil => rfl
  | cons c rest ih => exact ih _

/-- An event of a history is the answer to a call in the state the calls before
    it led to. -/
theorem history_split {s : σ} {calls : List ι} {before later : List (ι × ο)} {c : ι} {a : ο}
    (same : history step s calls = before ++ (c, a) :: later) :
    ∃ done rest, calls = done ++ c :: rest ∧ before = history step s done ∧
      a = (step (after step s done) c).2 ∧
      later = history step (step (after step s done) c).1 rest := by
  induction before generalizing s calls with
  | nil =>
      cases calls with
      | nil => cases same
      | cons c' rest =>
          cases same
          exact ⟨[], rest, rfl, rfl, rfl, rfl⟩
  | cons e before ih =>
      cases calls with
      | nil => cases same
      | cons c' rest =>
          obtain ⟨here, there⟩ := List.cons.inj same
          obtain ⟨done, rest', calls_eq, before_eq, answer, later_eq⟩ := ih there
          exact ⟨c' :: done, rest', by rw [calls_eq]; rfl, by rw [before_eq, ← here]; rfl, answer, later_eq⟩

/-- An invariant of history and state: it holds at the start and one more call
    keeps it. -/
theorem invariant {P : List (ι × ο) → σ → Prop} {s : σ} (start : P [] s)
    (call : ∀ h t c, P h t → P (h ++ [(c, (step t c).2)]) (step t c).1) (calls : List ι) :
    P (history step s calls) (after step s calls) := by
  have more : ∀ h t, P h t → P (h ++ history step t calls) (after step t calls) := by
    induction calls with
    | nil => simp [history, after]
    | cons c rest ih =>
        intro h t held
        have next := ih _ _ (call h t c held)
        simpa [history, after] using next
  exact more [] s start

/-- What the calls of a stretch keep, when their answers are of a kind. -/
theorem keeps {I : σ → Prop} {Q : ι × ο → Prop}
    (call : ∀ t c, I t → Q (c, (step t c).2) → I (step t c).1) {s : σ} {calls : List ι} (held : I s)
    (all : ∀ e ∈ history step s calls, Q e) : I (after step s calls) := by
  induction calls generalizing s with
  | nil => exact held
  | cons c rest ih =>
      simp only [history, List.mem_cons, forall_eq_or_imp] at all
      exact ih (call s c held all.1) all.2

end History

/-! ## Machines that read a stream

A machine reads symbols one at a time and emits outputs as it goes. What it has
emitted over a stream does not depend on how the stream was handed to it. -/

structure Mealy (σ ι ω : Type*) where
  step : σ → ι → σ × List ω

namespace Mealy

variable {σ ι ω : Type*} (m : Mealy σ ι ω)

/-- The state after a stream, and everything emitted on the way. -/
def run (s : σ) : List ι → σ × List ω
  | [] => (s, [])
  | i :: rest =>
      let (s, emitted) := m.step s i
      let (s, later) := run s rest
      (s, emitted ++ later)

@[simp] theorem run_nil (s : σ) : m.run s [] = (s, []) := rfl

theorem run_cons (s : σ) (i : ι) (rest : List ι) :
    m.run s (i :: rest) =
      ((m.run (m.step s i).1 rest).1, (m.step s i).2 ++ (m.run (m.step s i).1 rest).2) := rfl

theorem run_append (s : σ) (a b : List ι) :
    m.run s (a ++ b) = ((m.run (m.run s a).1 b).1, (m.run s a).2 ++ (m.run (m.run s a).1 b).2) := by
  induction a generalizing s with
  | nil => simp
  | cons i rest ih => simp only [List.cons_append, run_cons, ih, List.append_assoc]

/-- Each output is emitted at one of the stream's symbols. -/
theorem emitted_at {s : σ} {stream : List ι} {early late : List ω} {o : ω} (emitted : (m.run s stream).2 = early ++ o :: late) :
    ∃ before i rest p q, stream = before ++ i :: rest ∧ (m.step (m.run s before).1 i).2 = p ++ o :: q ∧
      early = (m.run s before).2 ++ p ∧ late = q ++ (m.run (m.step (m.run s before).1 i).1 rest).2 := by
  induction stream generalizing s early with
  | nil => exact absurd emitted (by simp)
  | cons i stream ih =>
      rw [run_cons] at emitted
      rcases List.append_eq_append_iff.mp emitted with ⟨more, rfl, later⟩ | ⟨more, here, later⟩
      · obtain ⟨before, j, rest, p, q, rfl, out, rfl, rfl⟩ := ih later
        refine ⟨i :: before, j, rest, p, q, rfl, out, ?_, rfl⟩
        rw [run_cons, List.append_assoc]
      · cases more with
        | nil =>
            rw [List.nil_append] at later
            obtain ⟨before, j, rest, p, q, rfl, out, none, rfl⟩ := ih (show _ = [] ++ o :: late from later.symm)
            refine ⟨i :: before, j, rest, p, q, rfl, out, ?_, rfl⟩
            rw [run_cons, List.append_assoc, ← none, List.append_nil, here, List.append_nil]
        | cons x more =>
            obtain ⟨rfl, remaining⟩ := List.cons.inj later
            exact ⟨[], i, stream, early, more, rfl, here, rfl, remaining⟩

/-- A stream handed over in parts. -/
def runParts (s : σ) : List (List ι) → σ × List ω
  | [] => (s, [])
  | part :: parts =>
      ((runParts (m.run s part).1 parts).1, (m.run s part).2 ++ (runParts (m.run s part).1 parts).2)

theorem runParts_eq (s : σ) (parts : List (List ι)) : m.runParts s parts = m.run s parts.flatten := by
  induction parts generalizing s with
  | nil => rfl
  | cons part parts ih => rw [runParts, List.flatten_cons, run_append, ih]

end Mealy

/-! ## Walks whose steps look ahead

A step sees its item and everything behind it, and says how many of the items
behind it are used up and take no step of their own. -/

namespace Strides

section
variable {α σ : Type*} (step : α → List α → σ → σ × Nat)

/-- `skip` items in front take no step. -/
def walk : Nat → List α → σ → σ
  | _, [], state => state
  | skip + 1, _ :: rest, state => walk skip rest state
  | 0, item :: rest, state => walk (step item rest state).2 rest (step item rest state).1

variable {step}

end

end Strides
