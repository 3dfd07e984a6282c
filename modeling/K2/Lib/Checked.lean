import Mathlib.Data.Int.Order.Basic
import Mathlib.Data.List.Basic
import Mathlib.Tactic.Common

/-! # Arithmetic that may panic or wrap around

Rules for what a computation gives, and for when a step of it panics or wraps. -/

/-! ## Computations that may panic

A computation gives `none` where the program would panic: an index past the end
of an array, an arithmetic step its type cannot hold. Rules compose what is
known of the parts, with and without a state that is handed along. -/

namespace Checked

variable {α β γ σ : Type}

/-- The value, when it lies in `lo..=hi`. -/
def fit (lo hi v : Int) : Option Int := if lo ≤ v ∧ v ≤ hi then some v else none

theorem fit_eq {lo hi v : Int} (low : lo ≤ v) (high : v ≤ hi) : fit lo hi v = some v := if_pos ⟨low, high⟩

def i8 (v : Int) : Option Int := fit (-128) 127 v
def i16 (v : Int) : Option Int := fit (-32768) 32767 v
def i32 (v : Int) : Option Int := fit (-2147483648) 2147483647 v
def u16 (v : Int) : Option Int := fit 0 65535 v
def u32 (v : Int) : Option Int := fit 0 4294967295 v

theorem i8_eq {v : Int} (low : -128 ≤ v) (high : v ≤ 127) : i8 v = some v := fit_eq low high
theorem i16_eq {v : Int} (low : -32768 ≤ v) (high : v ≤ 32767) : i16 v = some v := fit_eq low high
theorem i32_eq {v : Int} (low : -2147483648 ≤ v) (high : v ≤ 2147483647) : i32 v = some v := fit_eq low high
theorem u16_eq {v : Int} (low : 0 ≤ v) (high : v ≤ 65535) : u16 v = some v := fit_eq low high
theorem u32_eq {v : Int} (low : 0 ≤ v) (high : v ≤ 4294967295) : u32 v = some v := fit_eq low high

/-- A difference of unsigned numbers. -/
def sub (a b : Nat) : Option Nat := if b ≤ a then some (a - b) else none

theorem sub_eq {a b : Nat} (le : b ≤ a) : sub a b = some (a - b) := if_pos le

/-- A sum of `u8`s. -/
def addU8 (a b : Nat) : Option Nat := if a + b < 256 then some (a + b) else none

theorem addU8_eq {a b : Nat} (small : a + b < 256) : addU8 a b = some (a + b) := if_pos small

/-- `l[i] = v`. -/
def setAt (l : List α) (i : Nat) (v : α) : Option (List α) := if i < l.length then some (l.set i v) else none

theorem setAt_eq {l : List α} {i : Nat} (inside : i < l.length) (v : α) : setAt l i v = some (l.set i v) :=
  if_pos inside

/-- `v.clamp(lo, hi)`, which panics on an empty range. -/
def clamp (lo hi v : Int) : Option Int := if lo ≤ hi then some (max lo (min v hi)) else none

theorem clamp_eq {lo hi : Int} (v : Int) (range : lo ≤ hi) : clamp lo hi v = some (max lo (min v hi)) := if_pos range

/-- `for k in 0..n`, with what each round hands on. -/
def loop {m : Type → Type} [Monad m] (f : Nat → β → m β) : Nat → β → m β
  | 0, b => pure b
  | n + 1, b => do f n (← loop f n b)

theorem loop_congr {m : Type → Type} [Monad m] {f g : Nat → β → m β} {n : Nat} (same : ∀ k < n, f k = g k) :
    loop f n = loop g n := by
  induction n with
  | zero => rfl
  | succ n ih =>
      funext b
      rw [loop, loop, ih fun k below => same k (Nat.lt_succ_of_lt below), same n (Nat.lt_succ_self n)]

theorem mapM_eq_some {f : α → Option β} {g : α → β} {l : List α} (each : ∀ a ∈ l, f a = some (g a)) :
    l.mapM f = some (l.map g) := by
  induction l with
  | nil => rfl
  | cons a l ih =>
    rw [List.mapM_cons, each a (List.mem_cons_self ..), ih fun b mem => each b (List.mem_cons_of_mem a mem)]
    rfl

theorem mapM_congr {f g : α → Option β} {l : List α} (each : ∀ a ∈ l, f a = g a) : l.mapM f = l.mapM g := by
  induction l with
  | nil => rfl
  | cons a l ih =>
    rw [List.mapM_cons, List.mapM_cons, each a (List.mem_cons_self ..), ih fun b mem => each b (List.mem_cons_of_mem a mem)]

/-! ## Without a state -/

/-- `x` does not panic, and what it gives satisfies `P`. -/
def Yields (P : α → Prop) (x : Option α) : Prop := ∃ a, x = some a ∧ P a

namespace Yields

variable {P : α → Prop} {Q : β → Prop}

theorem pure {a : α} (h : P a) : Yields P (some a) := ⟨a, rfl, h⟩

theorem bind {x : Option α} {f : α → Option β} (first : Yields P x) (second : ∀ a, P a → Yields Q (f a)) :
    Yields Q (x >>= f) := by
  obtain ⟨a, rfl, h⟩ := first
  exact second a h

theorem mono {x : Option α} {P' : α → Prop} (h : Yields P x) (le : ∀ a, P a → P' a) : Yields P' x := by
  obtain ⟨a, ran, holds⟩ := h
  exact ⟨a, ran, le a holds⟩

theorem loop {f : Nat → β → Option β} {n : Nat} {b : β} (J : Nat → β → Prop) (start : J 0 b)
    (round : ∀ k, k < n → ∀ b, J k b → Yields (J (k + 1)) (f k b)) : Yields (J n) (loop f n b) := by
  induction n with
  | zero => exact pure start
  | succ n ih =>
      exact (ih fun k below => round k (Nat.lt_succ_of_lt below)).bind (round n (Nat.lt_succ_self n))

theorem sub {a b : Nat} (le : b ≤ a) : Yields (· = a - b) (sub a b) := ⟨_, sub_eq le, rfl⟩

theorem getElem? {l : List α} {i : Nat} (inside : i < l.length) (each : ∀ a ∈ l, P a) : Yields P l[i]? :=
  ⟨l[i], List.getElem?_eq_getElem inside, each _ (List.getElem_mem inside)⟩

/-- Every element in turn. -/
theorem mapM {f : α → Option β} {l : List α} (each : ∀ a ∈ l, Yields Q (f a)) :
    Yields (fun out => out.length = l.length ∧ ∀ b ∈ out, Q b) (l.mapM f) := by
  induction l with
  | nil => exact pure ⟨rfl, by simp⟩
  | cons a l ih =>
      rw [List.mapM_cons]
      refine (each a (List.mem_cons_self ..)).bind fun b holds => ?_
      refine (ih fun a mem => each a (List.mem_cons_of_mem _ mem)).bind fun out known => ?_
      refine pure ⟨by simp [known.1], ?_⟩
      rintro c (_ | ⟨_, mem⟩)
      · exact holds
      · exact known.2 c mem

end Yields

/-! ## Two runs -/

/-- Neither `x` nor `y` panics, and `R` relates what they give. -/
def Paired (R : α → β → Prop) (x : Option α) (y : Option β) : Prop := ∃ a b, x = some a ∧ y = some b ∧ R a b

namespace Paired

variable {R : α → β → Prop}

theorem pure {a : α} {b : β} (h : R a b) : Paired R (some a) (some b) := ⟨a, b, rfl, rfl, h⟩

theorem bind {α' β' : Type} {R' : α' → β' → Prop} {x : Option α} {y : Option β} {f : α → Option α'}
    {g : β → Option β'} (first : Paired R x y) (second : ∀ a b, R a b → Paired R' (f a) (g b)) :
    Paired R' (x >>= f) (y >>= g) := by
  obtain ⟨a, b, rfl, rfl, h⟩ := first
  exact second a b h

/-- One computation, run twice. -/
theorem twice {P : α → Prop} {x : Option α} (h : Yields P x) : Paired (fun a b => a = b ∧ P a) x x := by
  obtain ⟨a, ran, holds⟩ := h
  exact ⟨a, a, ran, ran, rfl, holds⟩

end Paired

/-! ## With a state -/

theorem lift_some_bind (a : α) (f : α → StateT σ Option β) :
    ((liftM (some a) : StateT σ Option α) >>= f) = f a := rfl

/-- From a state that is as `I` says, `m` does not panic, gives what `P` says
    and leaves a state that is as `I` says. -/
def Runs (I : σ → Prop) (P : α → Prop) (m : StateT σ Option α) : Prop :=
  ∀ s, I s → ∃ a s', m s = some (a, s') ∧ P a ∧ I s'

namespace Runs

variable {I : σ → Prop} {P : α → Prop} {Q : β → Prop}

theorem pure {a : α} (h : P a) : Runs I P (Pure.pure a : StateT σ Option α) := fun s held => ⟨a, s, rfl, h, held⟩

theorem bind {m : StateT σ Option α} {f : α → StateT σ Option β} (first : Runs I P m)
    (second : ∀ a, P a → Runs I Q (f a)) : Runs I Q (m >>= f) := by
  intro s held
  obtain ⟨a, s', ran, holds, held'⟩ := first s held
  obtain ⟨b, s'', ran', rest⟩ := second a holds s' held'
  refine ⟨b, s'', ?_, rest⟩
  show (m s >>= fun r => f r.1 r.2) = _
  rw [ran]
  exact ran'

theorem start {m : StateT σ Option α} (h : Runs I P m) {s : σ} (held : I s) :
    Yields (fun r => P r.1 ∧ I r.2) (m s) := by
  obtain ⟨a, s', ran, both⟩ := h s held
  exact ⟨(a, s'), ran, both⟩

theorem mono {m : StateT σ Option α} {P' : α → Prop} (h : Runs I P m) (le : ∀ a, P a → P' a) : Runs I P' m := by
  intro s held
  obtain ⟨a, s', ran, holds, held'⟩ := h s held
  exact ⟨a, s', ran, le a holds, held'⟩

theorem lift {x : Option α} (h : Yields P x) : Runs I P (liftM x : StateT σ Option α) := by
  intro s held
  obtain ⟨a, rfl, holds⟩ := h
  exact ⟨a, s, rfl, holds, held⟩

theorem loop {f : Nat → β → StateT σ Option β} {n : Nat} {b : β} (J : Nat → β → Prop) (start : J 0 b)
    (round : ∀ k, k < n → ∀ b, J k b → Runs I (J (k + 1)) (f k b)) : Runs I (J n) (loop f n b) := by
  induction n with
  | zero => exact pure start
  | succ n ih =>
      exact (ih fun k below => round k (Nat.lt_succ_of_lt below)).bind (round n (Nat.lt_succ_self n))

end Runs

end Checked

/-! ## Computations that may wrap around

A computation gives its value as wrapping arithmetic has it, and says whether
every step was exact: where one was not, checked arithmetic panics instead. The
value of a composition is the composition of values. -/

structure Exact (α : Type) where
  value : α
  exact : Bool
  deriving Repr

namespace Exact

variable {α β γ : Type}

instance : Monad Exact where
  pure a := ⟨a, true⟩
  bind x f := ⟨(f x.value).value, x.exact && (f x.value).exact⟩

@[simp] theorem value_pure (a : α) : (pure a : Exact α).value = a := rfl

@[simp] theorem exact_pure (a : α) : (pure a : Exact α).exact = true := rfl

@[simp] theorem value_bind (x : Exact α) (f : α → Exact β) : (x >>= f).value = (f x.value).value := rfl

@[simp] theorem exact_bind (x : Exact α) (f : α → Exact β) :
    (x >>= f).exact = (x.exact && (f x.value).exact) := rfl

/-- `n as u16`. -/
def asU16 (n : Nat) : Nat := n % 65536

theorem asU16_eq {n : Nat} (small : n < 65536) : asU16 n = n := Nat.mod_eq_of_lt small

/-- A sum of `u16`s. -/
def addU16 (a b : Nat) : Exact Nat := ⟨(a + b) % 65536, a + b < 65536⟩

theorem addU16_eq {a b : Nat} (small : a + b < 65536) : addU16 a b = pure (a + b) := by
  simp [addU16, pure, Nat.mod_eq_of_lt small, small]

/-- A difference of `u16`s. -/
def subU16 (a b : Nat) : Exact Nat := ⟨(a + 65536 - b) % 65536, b ≤ a⟩

theorem subU16_eq {a b : Nat} (small : a < 65536) (le : b ≤ a) : subU16 a b = pure (a - b) := by
  have wraps : (a + 65536 - b) % 65536 = a - b := by omega
  simp [subU16, pure, wraps, le]

/-- `f` of each element. -/
def traverse (f : α → Exact β) : List α → Exact (List β)
  | [] => pure []
  | a :: as => do
      let b ← f a
      let bs ← traverse f as
      pure (b :: bs)

@[simp] theorem value_traverse (f : α → Exact β) (l : List α) :
    (traverse f l).value = l.map fun a => (f a).value := by
  induction l with
  | nil => rfl
  | cons a rest ih => simp [traverse, ih]

theorem exact_traverse (f : α → Exact β) (l : List α) :
    (traverse f l).exact = l.all fun a => (f a).exact := by
  induction l with
  | nil => rfl
  | cons a rest ih => simp [traverse, ih]

/-- A fold whose step is `f`. -/
def fold (f : β → α → Exact β) : β → List α → Exact β
  | b, [] => pure b
  | b, a :: as => do
      let b ← f b a
      fold f b as

@[simp] theorem value_fold (f : β → α → Exact β) (b : β) (l : List α) :
    (fold f b l).value = l.foldl (fun b a => (f b a).value) b := by
  induction l generalizing b with
  | nil => rfl
  | cons a rest ih => simp [fold, ih]

end Exact
