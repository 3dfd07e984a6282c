import K2.Term.Sgr
import Mathlib.Algebra.GroupWithZero.Nat

/-! # Which SGR sequences are read right

Everything depends on what the flattened walk may meet on its own: a
sub-parameter, a component of a colour cut short, a component out of range. Where
none of them is a code it knows, the walk keeps step with the parameters. -/

namespace K2.Term

open Standard

@[simp] theorem flatten_nil : flatten [] = [] := rfl

@[simp] theorem flatten_cons (p : Param) (more : List Param) :
    flatten (p :: more) = p.code :: (p.subs ++ flatten more) := rfl

section
variable (isFg : Bool) (style : Style)

end

section
variable {k : UInt16}

end

def IsRgb (colour : UInt32) : Prop := colour ≤ 0xFFFFFF

def Style.InRange (style : Style) : Prop := (∀ c ∈ style.fg, IsRgb c) ∧ ∀ c ∈ style.bg, IsRgb c

theorem Style.InRange.setColour {style : Style} (range : style.InRange) {colour : UInt32} (rgb : IsRgb colour)
    (isFg : Bool) : (style.setColour isFg colour).InRange := by
  cases isFg with
  | false => exact ⟨range.1, fun _ same => Option.some_inj.mp same ▸ rgb⟩
  | true => exact ⟨fun _ same => Option.some_inj.mp same ▸ rgb, range.2⟩

namespace Standard

end Standard

/-! ## The whole sequence -/

end K2.Term
