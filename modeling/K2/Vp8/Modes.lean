import K2.Lib.Checked
import K2.Vp8.BoolDecoder
import K2.Vp8.Tables

/-! # Macroblock records -/

namespace K2.Vp8

/-- A motion vector in eighth pixels, always even for luma. -/
structure Mv where
  x : Int16
  y : Int16
  deriving Repr, DecidableEq

namespace Mv

def zero : Mv := ⟨0, 0⟩

end Mv

/-- What the decoder keeps about each macroblock. -/
structure MbInfo where
  yMode : UInt8 := dcPred
  uvMode : UInt8 := dcPred
  refFrame : UInt8 := intraFrame
  segment : UInt8 := 0
  /-- Any coefficient token was decoded. -/
  hasCoeffs : Bool := false
  mv : Mv := Mv.zero
  /-- Subblock intra modes; implied ones for the other intra modes. -/
  bmodes : List UInt8 := List.replicate 16 bDcPred
  /-- All equal unless split; zero for intra. -/
  mvs : List Mv := List.replicate 16 Mv.zero
  deriving Repr, DecidableEq

/-- What the fields of a record can be. -/
structure MbInfo.Valid (mb : MbInfo) : Prop where
  yMode : mb.yMode.toNat ≤ 9
  refFrame : mb.refFrame.toNat < 4
  intra : mb.refFrame = intraFrame → mb.yMode.toNat ≤ 4 ∧ mb.uvMode.toNat ≤ 3
  segment : mb.segment.toNat < 4
  bmodes : mb.bmodes.length = 16 ∧ ∀ m ∈ mb.bmodes, m.toNat < 10
  mvs : mb.mvs.length = 16

theorem MbInfo.valid_default : MbInfo.Valid {} := by
  refine ⟨by decide, by decide, fun _ => ⟨by decide, by decide⟩, by decide, ⟨rfl, ?_⟩, rfl⟩
  intro m mem
  rw [List.eq_of_mem_replicate mem]
  decide

theorem asI32_eq {n : Nat} (small : n < 2 ^ 31) : BoolDecoder.asI32 n = n := by
  rw [BoolDecoder.asI32, Int.bmod_eq_of_le] <;> omega

end K2.Vp8
