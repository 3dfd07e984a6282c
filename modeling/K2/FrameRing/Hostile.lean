import K2.FrameRing.Consumer

/-! # Any file contents

Whatever the words of the mapping hold at each load, a read stays in the mapping
and what it gives is a frame that fits the ring. -/

namespace K2.FrameRing

open SharedMemory Prog

/-- What may be handed out. -/
structure FrameInfo.Fits (l : Layout) (info : FrameInfo) (bytes : List Nat) : Prop where
  first : 1 ≤ info.frameNo
  last : info.frameNo < 2 ^ 56
  width : 1 ≤ info.width
  height : 1 ≤ info.height
  box : info.width ≤ l.maxWidth ∧ info.height ≤ l.maxHeight ∨ info.width ≤ l.maxHeight ∧ info.height ≤ l.maxWidth
  rotation : info.rotation ∈ [0, 90, 180, 270]
  len : bytes.length = nv12Len info.width info.height
  slot : bytes.length ≤ l.slotBytes

/-! ## Slots lie in the file -/

/-- Where a slot of a valid layout begins. -/
structure Based (l : Layout) (base : Nat) : Prop where
  aligned : base % 64 = 0
  inside : base + l.slotStride ≤ l.fileLen

variable {l : Layout}

theorem based (bounds : l.Bounds) {slot : Nat} (below : slot < l.slots) : Based l (header + slot * l.slotStride) where
  aligned := by
    have whole := Nat.mul_mod slot l.slotStride 64
    rw [Layout.slotStride_mod bounds, Nat.mul_zero, Nat.zero_mod] at whole
    unfold header
    omega
  inside := Layout.slot_le bounds below

theorem fileLen_small (bounds : l.Bounds) : l.fileLen ≤ u64Max := by
  have small := Layout.slots_mul_le bounds
  rw [Layout.fileLen_eq bounds]
  unfold header u64Max
  omega

theorem checked_eq {v : Nat} (small : v ≤ u64Max) : checked v = some v := if_pos small

theorem load_safe (bounds : l.Bounds) {base off : Nat} (placed : Based l base) {w : Width} (aligned : off % w.bytes = 0)
    (head : off + w.bytes ≤ slotHeader) : (load w base off).Safe l.fileLen fun v => v < w.bound := by
  have stride := Layout.slotStride_ge bounds
  have whole := placed.inside
  have small := fileLen_small bounds
  have baseEq := placed.aligned
  rw [load]
  refine Safe.bind (P := fun place => place = base + off) (Safe.lift (checked_eq (by omega)) rfl) ?_
  rintro _ rfl
  refine ⟨⟨?_, by omega⟩, fun v small => small⟩
  cases w <;> simp only [Width.bytes] at aligned ⊢ <;> omega

theorem copyBytes_safe {len place n : Nat} (fits : place + n ≤ len) :
    (copyBytes place n).Safe len fun bytes => bytes.length = n := by
  induction n generalizing place with
  | zero => exact List.length_nil
  | succ n ih =>
      rw [copyBytes]
      refine Safe.bind (P := fun _ => True) ⟨⟨Nat.mod_one _, by simp only [Width.bytes]; omega⟩, fun _ _ => trivial⟩ ?_
      intro b _
      refine Safe.bind (ih (by omega)) fun rest length => ?_
      exact congrArg (· + 1) length

/-! ## Reads -/

/-- A copied frame fits the ring. -/
def Copied.Fits (l : Layout) : Copied → Prop
  | .frame info bytes => info.Fits l bytes
  | _ => True

theorem badOrTorn_safe (bounds : l.Bounds) {base : Nat} (placed : Based l base) (s1 : Nat) :
    (Consumer.badOrTorn base s1).Safe l.fileLen (Copied.Fits l) := by
  rw [Consumer.badOrTorn]
  refine (load_safe bounds placed (by decide) (by decide)).bind fun s _ => ?_
  show Copied.Fits l _
  split <;> trivial

theorem fits_of_valid {info : FrameInfo} {bytes : List Nat}
    (valid : Consumer.validFrame l info.frameNo info.width info.height info.rotation) (length : bytes.length = info.len)
    (small : info.len ≤ l.slotBytes) : info.Fits l bytes := by
  simp only [Consumer.validFrame, Bool.and_eq_true, decide_eq_true_eq, Layout.fits, Bool.or_eq_true] at valid
  obtain ⟨⟨⟨⟨⟨first, last⟩, width⟩, height⟩, box⟩, rotation⟩ := valid
  have below : info.frameNo < 2 ^ 56 := Nat.lt_of_le_of_lt last (by decide)
  exact { first, last := below, width, height, box, rotation, len := length, slot := length ▸ small }

theorem copySlot_safe (bounds : l.Bounds) (latest : Nat) : (Consumer.copySlot l latest).Safe l.fileLen (Copied.Fits l) := by
  rw [Consumer.copySlot]
  split
  next => trivial
  next below =>
    have placed := based bounds (Nat.lt_of_not_le below)
    have stride := Layout.slotStride_ge bounds
    have small := fileLen_small bounds
    have whole := placed.inside
    refine Safe.bind (Safe.lift (P := fun row => row = (latest &&& 0xff) * l.slotStride) (checked_eq (by omega)) rfl) ?_
    rintro _ rfl
    refine Safe.bind (Safe.lift (P := fun base => Based l base) (checked_eq (by omega)) placed) ?_
    intro base placed
    refine (load_safe bounds placed (by decide) (by decide)).bind fun s1 _ => ?_
    split
    next => trivial
    next =>
      refine (load_safe bounds placed (by decide) (by decide)).bind fun frameNo _ => ?_
      refine (load_safe bounds placed (by decide) (by decide)).bind fun width _ => ?_
      refine (load_safe bounds placed (by decide) (by decide)).bind fun height _ => ?_
      refine (load_safe bounds placed (by decide) (by decide)).bind fun rotation _ => ?_
      refine (load_safe bounds placed (by decide) (by decide)).bind fun color _ => ?_
      refine (load_safe bounds placed (by decide) (by decide)).bind fun timestampNs _ => ?_
      refine (load_safe bounds placed (by decide) (by decide)).bind fun len _ => ?_
      split
      next => trivial
      next =>
        split
        next => exact badOrTorn_safe bounds placed s1
        next color known =>
          have valid := (Option.filter_eq_some_iff.mp known).2
          dsimp only
          split
          next => exact badOrTorn_safe bounds placed s1
          next right =>
            have whole := placed.inside
            refine Safe.bind (Safe.lift (P := fun data => data = base + slotHeader) (checked_eq (by omega)) rfl) ?_
            rintro _ rfl
            refine (copyBytes_safe (by omega)).bind fun bytes length => ?_
            refine (load_safe bounds placed (by decide) (by decide)).bind fun s2 _ => ?_
            show Copied.Fits l _
            split
            next => exact fits_of_valid valid length (by omega)
            next => trivial

theorem handedOut_some (c : Consumer) (frameNo : Nat) : ∃ c', c.handedOut frameNo = some c' := by
  unfold Consumer.handedOut
  split
  next => exact ⟨_, rfl⟩
  next =>
    split
    next newer =>
      rw [checkedSub, if_pos (by omega)]
      exact ⟨_, rfl⟩
    next => exact ⟨_, rfl⟩

/-- What a read gives, if anything. -/
def Given (l : Layout) (r : Consumer × Option (FrameInfo × List Nat)) : Prop :=
  ∀ info bytes, r.2 = some (info, bytes) → info.Fits l bytes

theorem readLoop_safe (bounds : l.Bounds) (again : Bool) (tries : Nat) {c : Consumer} (own : c.layout = l) :
    (c.readLoop again tries).Safe l.fileLen (Given l) := by
  have headerFits : header ≤ l.fileLen := by rw [Layout.fileLen_eq bounds]; exact Nat.le_add_left ..
  induction tries with
  | zero => exact fun info bytes none => nomatch none
  | succ tries ih =>
      rw [Consumer.readLoop]
      refine Safe.bind (P := fun _ => True) ⟨⟨by decide, ?_⟩, fun _ _ => trivial⟩ fun latest _ => ?_
      · exact Nat.le_trans (by decide) headerFits
      · dsimp only
        split
        next => exact fun info bytes none => nomatch none
        next =>
          rw [own]
          refine (copySlot_safe bounds latest).bind fun copied fits => ?_
          cases copied with
          | frame info bytes =>
              obtain ⟨c', out⟩ := handedOut_some c (latest >>> 8)
              refine (Safe.lift (P := fun _ => True) out trivial).bind fun c'' _ => ?_
              intro info' bytes' same
              cases same
              exact fits
          | bad => exact fun info bytes none => nomatch none
          | torn => exact ih

theorem read_safe {c : Consumer} (valid : c.layout.Valid) (whole : Bool) {beat : Nat} (clock : beat < 2 ^ 64) (again : Bool) :
    (c.read whole beat again).Safe c.layout.fileLen (Given c.layout) := by
  have bounds := valid.bounds
  have headerFits : header ≤ c.layout.fileLen := by rw [Layout.fileLen_eq bounds]; exact Nat.le_add_left ..
  rw [Consumer.read]
  split
  next => exact ⟨⟨by decide, Nat.le_trans (by decide) headerFits⟩, clock, readLoop_safe bounds again readTries rfl⟩
  next => exact fun info bytes none => nomatch none

/-- Against a producer that has every load find what it chose, a read touches only
    bytes of the mapping, its arithmetic holds, and a frame it gives fits. -/
theorem read_against_hostile (c : Consumer) (valid : c.layout.Valid) (whole : Bool) (beat : Nat) (clock : beat < 2 ^ 64)
    (again : Bool) (chosen : Nat → Nat) :
    let (touched, out) := (c.read whole beat again).exec chosen 0
    (∀ access ∈ touched, access.2 % access.1.bytes = 0 ∧ access.2 + access.1.bytes ≤ c.layout.fileLen) ∧
      ∃ r, out = some r ∧ ∀ info bytes, r.2 = some (info, bytes) → info.Fits c.layout bytes :=
  (read_safe valid whole clock again).exec chosen 0

/-- A 64 x 48 box. -/
def small : Consumer := { layout := { maxWidth := 64, maxHeight := 48, slots := 3, maxFps := 15 } }

/-- Loads that find a frame overwritten while it is copied, and then a newer one. -/
def overwritten (i : Nat) : Nat :=
  [256, 2, 1, 1, 1, 0, 0, 0, 3, 9, 9, 9, 4, 513, 2, 2, 1, 1, 0, 0, 0, 3, 7, 8, 9, 2].getD i 0

example : ((small.read true 1 false).exec overwritten 0).2.map (fun r => r.2.map Prod.snd) = some (some [7, 8, 9]) := by
  decide

theorem read_against_hostile_overwritten :
    let (touched, out) := (small.read true 1 false).exec overwritten 0
    (∀ access ∈ touched, access.2 % access.1.bytes = 0 ∧ access.2 + access.1.bytes ≤ small.layout.fileLen) ∧
      ∃ r, out = some r ∧ ∀ info bytes, r.2 = some (info, bytes) → info.Fits small.layout bytes :=
  read_against_hostile small rfl true 1 (by decide) false overwritten

end K2.FrameRing
