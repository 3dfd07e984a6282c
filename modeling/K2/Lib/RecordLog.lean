import Mathlib.Algebra.Group.Nat.Defs
import Mathlib.Data.List.Basic
import Mathlib.Data.List.Infix
import Mathlib.Tactic.Common

/-! # Logs of framed records

A log file holds the frames of its records, one after another, and behind them
perhaps the front of one more whose writer was cut off.
-/

/-- The low `width` bytes of `n`, highest first. -/
def beBytes : Nat → Nat → List UInt8
  | 0, _ => []
  | width + 1, n => UInt8.ofNat (n / 256 ^ width) :: beBytes width n

/-- The number some bytes write, highest first. -/
def beNat (bytes : List UInt8) : Nat := bytes.foldl (fun n b => n * 256 + b.toNat) 0

@[simp] theorem length_beBytes (width n : Nat) : (beBytes width n).length = width := by
  induction width with
  | zero => rfl
  | succ width ih => simp [beBytes, ih]

private theorem foldl_beBytes (width n before : Nat) :
    (beBytes width n).foldl (fun n b => n * 256 + b.toNat) before = before * 256 ^ width + n % 256 ^ width := by
  induction width generalizing before with
  | zero => simp [beBytes, Nat.mod_one]
  | succ width ih =>
      have digits : n % 256 ^ (width + 1) = n / 256 ^ width % 256 * 256 ^ width + n % 256 ^ width := by
        rw [Nat.pow_succ, Nat.mod_mul, Nat.mul_comm, Nat.add_comm]
      have shift : before * 256 ^ (width + 1) = before * 256 * 256 ^ width := by
        rw [Nat.pow_succ, Nat.mul_assoc, Nat.mul_comm 256]
      have byte : (UInt8.ofNat (n / 256 ^ width)).toNat = n / 256 ^ width % 256 := UInt8.toNat_ofNat'
      simp only [beBytes, List.foldl_cons, ih, byte, Nat.add_mul]
      omega

theorem beNat_beBytes (width : Nat) {n : Nat} (small : n < 256 ^ width) : beNat (beBytes width n) = n := by
  simp [beNat, foldl_beBytes, Nat.mod_eq_of_lt small]

/-- How records are framed. -/
structure Framing (ρ : Type*) where
  /-- The records that can be framed. -/
  fits : ρ → Prop
  frame : ρ → List UInt8
  frame_ne_nil : ∀ r, frame r ≠ []

namespace Framing

variable {ρ : Type*} (f : Framing ρ)

def frames (rs : List ρ) : List UInt8 := rs.flatMap f.frame

/-- The front of a frame, not the whole of it. -/
def Torn (bytes : List UInt8) : Prop := ∃ r, f.fits r ∧ bytes <+: f.frame r ∧ bytes ≠ f.frame r

/-- A file of whole frames and at most one torn one. -/
def Holds (file : List UInt8) (rs : List ρ) : Prop :=
  (∀ r ∈ rs, f.fits r) ∧ ∃ torn, file = f.frames rs ++ torn ∧ (torn = [] ∨ f.Torn torn)

variable {f}

@[simp] theorem frames_nil : f.frames [] = [] := rfl

@[simp] theorem frames_cons (r : ρ) (rs : List ρ) : f.frames (r :: rs) = f.frame r ++ f.frames rs := rfl

@[simp] theorem frames_append (rs more : List ρ) : f.frames (rs ++ more) = f.frames rs ++ f.frames more := by
  simp [frames]

theorem length_le_frames (rs : List ρ) : rs.length ≤ (f.frames rs).length := by
  induction rs with
  | nil => simp
  | cons r rs ih =>
      have positive := List.length_pos_iff.mpr (f.frame_ne_nil r)
      simp only [frames_cons, List.length_append, List.length_cons]
      omega

/-- What is left of a file past its first records. -/
theorem Holds.past {file : List UInt8} {done rest : List ρ} (holds : f.Holds file (done ++ rest)) :
    ∃ torn, file.drop (f.frames done).length = f.frames rest ++ torn ∧ (torn = [] ∨ f.Torn torn) := by
  obtain ⟨-, torn, rfl, ending⟩ := holds
  exact ⟨torn, by simp, ending⟩

/-- How many of the records lie whole in the first `n` bytes. -/
def within (f : Framing ρ) : Nat → List ρ → Nat
  | _, [] => 0
  | n, r :: rs => if (f.frame r).length ≤ n then f.within (n - (f.frame r).length) rs + 1 else 0

theorem within_frames (rs : List ρ) : f.within (f.frames rs).length rs = rs.length := by
  induction rs with
  | nil => rfl
  | cons r rs ih => simp [within, ih]

theorem within_mono {n m : Nat} (rs : List ρ) (more : n ≤ m) : f.within n rs ≤ f.within m rs := by
  induction rs generalizing n m with
  | nil => simp [within]
  | cons r rs ih =>
      unfold within
      split
      next whole =>
          rw [if_pos (by omega)]
          exact Nat.succ_le_succ (ih (by omega))
      next => exact Nat.zero_le _

/-- Records written behind them change nothing. -/
theorem within_append {n : Nat} {rs : List ρ} (inside : n ≤ (f.frames rs).length) (more : List ρ) :
    f.within n (rs ++ more) = f.within n rs := by
  induction rs generalizing n with
  | nil =>
      cases more with
      | nil => rfl
      | cons r more =>
          have positive := List.length_pos_iff.mpr (f.frame_ne_nil r)
          simp only [frames_nil, List.length_nil] at inside
          simp only [List.nil_append, within]
          rw [if_neg (by omega)]
  | cons r rs ih =>
      simp only [frames_cons, List.length_append] at inside
      simp only [List.cons_append, within, ih (n := n - (f.frame r).length) (by omega)]

theorem within_le (n : Nat) (rs : List ρ) : f.within n rs ≤ rs.length := by
  induction rs generalizing n with
  | nil => exact Nat.zero_le _
  | cons r rs ih =>
      unfold within
      split
      · exact Nat.succ_le_succ (ih _)
      · exact Nat.zero_le _

/-- Cutting a file of whole frames anywhere leaves whole frames and a torn one. -/
theorem holds_take {rs : List ρ} (fits : ∀ r ∈ rs, f.fits r) (n : Nat) :
    f.Holds ((f.frames rs).take n) (rs.take (f.within n rs)) := by
  induction rs generalizing n with
  | nil => exact ⟨by simp, [], by simp, .inl rfl⟩
  | cons r rs ih =>
      unfold within
      split
      next whole =>
          obtain ⟨framed, torn, cut, ending⟩ := ih (fun r mem => fits r (List.mem_cons_of_mem _ mem)) (n - (f.frame r).length)
          have first := fits r List.mem_cons_self
          exact ⟨by simpa using ⟨first, framed⟩, torn, by simp [List.take_append, cut, List.take_of_length_le whole], ending⟩
      next cut =>
          have front : (f.frames (r :: rs)).take n = (f.frame r).take n := by
            simp [List.take_append, Nat.sub_eq_zero_of_le (Nat.le_of_not_le cut)]
          have short : (f.frame r).take n ≠ f.frame r := fun same => cut (by simpa using same)
          exact ⟨by simp, _, by simpa using front, .inr ⟨r, fits r List.mem_cons_self, List.take_prefix n _, short⟩⟩

end Framing
