import Mathlib.Algebra.Group.Nat.Defs
import Mathlib.Data.List.Basic
import Mathlib.Logic.Function.Basic

/-! # Programs over shared memory

A program loads and stores words and bytes of a mapping, one at a time. What a
load gives is not its own doing: `Safe` is about every value it may give, `exec`
runs it on values somebody else chose. -/

namespace SharedMemory

inductive Width where
  | u64
  | u32
  | u8
  deriving Repr, DecidableEq

def Width.bytes : Width → Nat
  | .u64 => 8
  | .u32 => 4
  | .u8 => 1

/-- The values of a word. -/
def Width.bound (w : Width) : Nat := 256 ^ w.bytes

inductive Prog (α : Type) where
  | done (a : α)
  | panic
  | load (w : Width) (place : Nat) (next : Nat → Prog α)
  | store (w : Width) (place v : Nat) (next : Prog α)

namespace Prog

variable {α β : Type}

def bind : Prog α → (α → Prog β) → Prog β
  | done a, f => f a
  | panic, _ => panic
  | load w place next, f => load w place fun v => (next v).bind f
  | store w place v next, f => store w place v (next.bind f)

instance : Monad Prog where
  pure := done
  bind := bind

@[simp] theorem pure_eq (a : α) : (pure a : Prog α) = done a := rfl
@[simp] theorem done_bind (a : α) (f : α → Prog β) : (done a >>= f) = f a := rfl
@[simp] theorem load_bind (w : Width) (place : Nat) (next : Nat → Prog α) (f : α → Prog β) :
    (load w place next >>= f) = load w place fun v => next v >>= f := rfl
@[simp] theorem store_bind (w : Width) (place v : Nat) (next : Prog α) (f : α → Prog β) :
    (store w place v next >>= f) = store w place v (next >>= f) := rfl

/-- What may panic without an access. -/
def lift : Option α → Prog α
  | some a => done a
  | none => panic

/-! ## Whatever the loads give -/

/-- The access is aligned and inside the mapping. -/
def Inside (len : Nat) (w : Width) (place : Nat) : Prop := place % w.bytes = 0 ∧ place + w.bytes ≤ len

/-- Every access is inside the mapping, nothing panics, and what comes out satisfies
    `P`, whatever the loads give. -/
def Safe (len : Nat) (P : α → Prop) : Prog α → Prop
  | done a => P a
  | panic => False
  | load w place next => Inside len w place ∧ ∀ v < w.bound, Safe len P (next v)
  | store w place v next => Inside len w place ∧ v < w.bound ∧ Safe len P next

variable {len : Nat} {P : α → Prop} {Q : β → Prop}

theorem Safe.bind {p : Prog α} {f : α → Prog β} (first : p.Safe len P) (second : ∀ a, P a → (f a).Safe len Q) :
    (p >>= f).Safe len Q := by
  induction p with
  | done a => exact second a first
  | panic => exact first
  | load w place next ih => exact ⟨first.1, fun v small => ih v (first.2 v small)⟩
  | store w place v next ih => exact ⟨first.1, first.2.1, ih first.2.2⟩

theorem Safe.lift {x : Option α} {a : α} (present : x = some a) (holds : P a) : (Prog.lift x).Safe len P := by
  subst present
  exact holds

/-! ## Nobody else about -/

/-- The memory after a program that nobody disturbs, and what it gives. -/
def alone (mem : Nat → Nat) : Prog α → (Nat → Nat) × Option α
  | done a => (mem, some a)
  | panic => (mem, none)
  | load _ place next => (next (mem place)).alone mem
  | store _ place v next => next.alone (Function.update mem place v)

/-! ## Values somebody chose -/

/-- What a run touches and gives, when its loads find `chosen 0`, `chosen 1`, ... -/
def exec (chosen : Nat → Nat) : Nat → Prog α → List (Width × Nat) × Option α
  | _, done a => ([], some a)
  | _, panic => ([], none)
  | t, load w place next =>
      let (touched, out) := exec chosen (t + 1) (next (chosen t % w.bound))
      ((w, place) :: touched, out)
  | t, store w place _ next =>
      let (touched, out) := exec chosen t next
      ((w, place) :: touched, out)

theorem Safe.exec {p : Prog α} (safe : p.Safe len P) (chosen : Nat → Nat) (t : Nat) :
    (∀ access ∈ (p.exec chosen t).1, Inside len access.1 access.2) ∧ ∃ a, (p.exec chosen t).2 = some a ∧ P a := by
  induction p generalizing t with
  | done a => exact ⟨fun _ mem => (nomatch mem), a, rfl, safe⟩
  | panic => exact safe.elim
  | load w place next ih =>
      have positive : 0 < w.bound := Nat.pow_pos (by decide)
      obtain ⟨inside, out⟩ := ih _ (safe.2 _ (Nat.mod_lt (chosen t) positive)) (t + 1)
      refine ⟨fun access mem => ?_, out⟩
      rcases List.mem_cons.mp mem with rfl | mem
      · exact safe.1
      · exact inside access mem
  | store w place v next ih =>
      obtain ⟨inside, out⟩ := ih safe.2.2 t
      refine ⟨fun access mem => ?_, out⟩
      rcases List.mem_cons.mp mem with rfl | mem
      · exact safe.1
      · exact inside access mem

end Prog

end SharedMemory

/-! ## Programs beside others

While others change the world as `rely` says, a program loads what the world
holds at the time, and each of its stores is a change that `write` allows. A
program that keeps to that, whatever the others do in between, gives what its
postcondition says from then on. -/

namespace SharedMemory.Prog

variable {σ α β : Type} (rely : σ → σ → Prop) (mem : σ → Nat → Nat) (write : σ → Nat → Nat → σ → Prop)

def Under (P : σ → α → Prop) : Prog α → σ → Prop
  | done a, s => ∀ s', rely s s' → P s' a
  | panic, _ => True
  | load _ place next, s => ∀ s', rely s s' → (next (mem s' place)).Under P s'
  | store _ place v next, s => ∀ s', rely s s' → ∃ s'', write s' place v s'' ∧ next.Under P s''

variable {rely mem write} {P Q : σ → α → Prop} {p : Prog α} {s s' : σ}

/-- The others may go on before the program does. -/
theorem Under.later (trans : ∀ {a b c}, rely a b → rely b c → rely a c) (under : p.Under rely mem write P s)
    (moves : rely s s') : p.Under rely mem write P s' := by
  cases p with
  | done a => exact fun s'' next => under s'' (trans moves next)
  | panic => trivial
  | load w place next => exact fun s'' later => under s'' (trans moves later)
  | store w place v next => exact fun s'' later => under s'' (trans moves later)

theorem Under.mono (weaker : ∀ s a, P s a → Q s a) (under : p.Under rely mem write P s) :
    p.Under rely mem write Q s := by
  induction p generalizing s with
  | done a => exact fun s' moves => weaker s' a (under s' moves)
  | panic => trivial
  | load w place next ih => exact fun s' moves => ih _ (under s' moves)
  | store w place v next ih =>
      intro s' moves
      obtain ⟨s'', writes, rest⟩ := under s' moves
      exact ⟨s'', writes, ih rest⟩

theorem Under.bind {R : σ → β → Prop} {f : α → Prog β} (refl : ∀ s, rely s s)
    (under : p.Under rely mem write (fun s a => (f a).Under rely mem write R s) s) :
    (p >>= f).Under rely mem write R s := by
  induction p generalizing s with
  | done a => exact under s (refl s)
  | panic => trivial
  | load w place next ih => exact fun s' moves => ih _ (under s' moves)
  | store w place v next ih =>
      intro s' moves
      obtain ⟨s'', writes, rest⟩ := under s' moves
      exact ⟨s'', writes, ih rest⟩

/-- What neither the others nor the program's stores break holds when it is done. -/
theorem Under.keeps {I : σ → Prop} (others : ∀ {s s'}, I s → rely s s' → I s')
    (stores : ∀ {s place v s'}, I s → write s place v s' → I s') (held : I s) (under : p.Under rely mem write P s) :
    p.Under rely mem write (fun s a => I s ∧ P s a) s := by
  induction p generalizing s with
  | done a => exact fun s' moves => ⟨others held moves, under s' moves⟩
  | panic => trivial
  | load w place next ih => exact fun s' moves => ih _ (others held moves) (under s' moves)
  | store w place v next ih =>
      intro s' moves
      obtain ⟨s'', writes, rest⟩ := under s' moves
      exact ⟨s'', writes, ih (stores (others held moves) writes) rest⟩

theorem Under.lift_bind {x : Option α} {f : α → Prog β} {R : σ → β → Prop}
    (rest : ∀ a, x = some a → (f a).Under rely mem write R s) : (lift x >>= f).Under rely mem write R s := by
  cases x with
  | none => trivial
  | some a => exact rest a rfl

end SharedMemory.Prog
