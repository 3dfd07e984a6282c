import Mathlib.Algebra.Group.Nat.Defs
import Mathlib.Tactic.Common

/-! # The frame ring's file

A header of 256 bytes, then the slots: each a header of 64 bytes and an NV12
frame of the box, rounded up to 64 bytes. Sizes are `usize`s of 64 bits. -/

namespace K2.FrameRing

def maxSlots : Nat := 8
def maxSide : Nat := 4096
def maxFps : Nat := 240

def header : Nat := 256
def slotHeader : Nat := 64

/-! ## The header's words -/

/-- "KFRAMRNG" read as a little-endian word. -/
def magic : Nat := 0x474e524d4152464b
def version : Nat := 1

def hMagic : Nat := 0
def hVersion : Nat := 8
def hHeaderSize : Nat := 12
def hSlotHeader : Nat := 16
def hSlots : Nat := 20
def hMaxWidth : Nat := 24
def hMaxHeight : Nat := 28
def hSlotBytes : Nat := 32
def hMaxFps : Nat := 40
def hFlags : Nat := 44
def hBeat : Nat := 48
def hLatest : Nat := 64
def hWritten : Nat := 72
def hDropped : Nat := 80
def hAttaches : Nat := 88

/-- The largest frame number (56 bits, beside the slot in the latest word). -/
def maxFrameNo : Nat := 2 ^ 56 - 1

/-- The largest sequence word a producer writes counts from. -/
def maxSeq : Nat := 2 ^ 62

/-! ## A slot's words -/

def slSeq : Nat := 0
def slFrameNo : Nat := 8
def slWidth : Nat := 16
def slHeight : Nat := 20
def slRotation : Nat := 24
def slColor : Nat := 28
def slTimestamp : Nat := 32
def slLen : Nat := 40

/-! ## Sizes -/

def u64Max : Nat := 2 ^ 64 - 1

/-- The bytes of a tight NV12 frame: the Y plane, then interleaved U and V at half
    size (rounded up). -/
def nv12Len (width height : Nat) : Nat :=
  min (width * height + 2 * ((width + 1) / 2) * ((height + 1) / 2)) u64Max

/-- The ring's fixed shape, set by the consumer. -/
structure Layout where
  maxWidth : Nat
  maxHeight : Nat
  slots : Nat
  maxFps : Nat
  deriving Repr, DecidableEq

inductive RingError where
  | invalid (why : String)
  deriving Repr, DecidableEq

namespace Layout

def badSide (v : Nat) : Bool := !(16 ≤ v && v ≤ maxSide) || v % 2 ≠ 0

/-- Check the fields. -/
def validate (l : Layout) : Except RingError Unit :=
  if badSide l.maxWidth then .error (.invalid ("a max width of " ++ toString l.maxWidth))
  else if badSide l.maxHeight then .error (.invalid ("a max height of " ++ toString l.maxHeight))
  else if !(2 ≤ l.slots && l.slots ≤ maxSlots) then .error (.invalid (toString l.slots ++ " slots"))
  else if FrameRing.maxFps < l.maxFps then .error (.invalid (toString l.maxFps ++ " fps"))
  else .ok ()

/-- The bytes one slot holds: an NV12 frame of the box. -/
def slotBytes (l : Layout) : Nat := nv12Len l.maxWidth l.maxHeight

def slotStride (l : Layout) : Nat := min ((min (slotHeader + l.slotBytes) u64Max + 63) / 64 * 64) u64Max

/-- Where a slot begins. -/
def slotBase (l : Layout) (slot : Nat) : Nat := header + slot * l.slotStride

/-- The whole file's length. -/
def fileLen (l : Layout) : Nat := min (min (l.slots * l.slotStride) u64Max + header) u64Max

/-- Does a frame fit the box, either way round? -/
def fits (l : Layout) (width height : Nat) : Bool :=
  (width ≤ l.maxWidth && height ≤ l.maxHeight) || (width ≤ l.maxHeight && height ≤ l.maxWidth)

/-- The fields are checked. -/
def Valid (l : Layout) : Prop := l.validate = .ok ()

structure Bounds (l : Layout) : Prop where
  width : l.maxWidth ≤ maxSide
  height : l.maxHeight ≤ maxSide
  twoSlots : 2 ≤ l.slots
  slots : l.slots ≤ maxSlots

variable {l : Layout}

theorem Valid.bounds (valid : l.Valid) : l.Bounds := by
  unfold Valid validate at valid
  split at valid
  next => cases valid
  next width =>
    split at valid
    next => cases valid
    next height =>
      split at valid
      next => cases valid
      next slots =>
        simp only [badSide, Bool.or_eq_true, Bool.not_eq_true', not_or, Bool.not_eq_false, Bool.and_eq_true,
          decide_eq_true_eq] at width height slots
        exact { width := width.1.2, height := height.1.2, twoSlots := slots.1, slots := slots.2 }

/-! ## Sizes of a valid layout -/

/-- The exact size where it fits a word. -/
def nv12 (width height : Nat) : Nat := width * height + 2 * ((width + 1) / 2) * ((height + 1) / 2)

theorem nv12_comm (width height : Nat) : nv12 width height = nv12 height width := by
  rw [nv12, nv12, Nat.mul_comm width height, Nat.mul_right_comm]

theorem nv12_mono {w h w' h' : Nat} (width : w ≤ w') (height : h ≤ h') : nv12 w h ≤ nv12 w' h' := by
  refine Nat.add_le_add (Nat.mul_le_mul width height) (Nat.mul_le_mul (Nat.mul_le_mul_left 2 ?_) ?_) <;> omega

theorem nv12Len_le_slotBytes {width height : Nat} (fit : l.fits width height) : nv12Len width height ≤ l.slotBytes := by
  have precise : nv12 width height ≤ nv12 l.maxWidth l.maxHeight := by
    simp only [fits, Bool.or_eq_true, Bool.and_eq_true, decide_eq_true_eq] at fit
    rcases fit with ⟨widthRead, heightRead⟩ | ⟨widthRead, heightRead⟩
    · exact nv12_mono widthRead heightRead
    · exact nv12_comm l.maxHeight l.maxWidth ▸ nv12_mono widthRead heightRead
  have left : nv12Len width height = min (nv12 width height) u64Max := rfl
  have right : l.slotBytes = min (nv12 l.maxWidth l.maxHeight) u64Max := rfl
  omega

theorem slotBytes_le (bounds : l.Bounds) : l.slotBytes ≤ 25165824 :=
  Nat.le_trans (Nat.min_le_left ..) (nv12_mono bounds.width bounds.height)

theorem slotStride_eq (bounds : l.Bounds) : l.slotStride = (slotHeader + l.slotBytes + 63) / 64 * 64 := by
  have small := slotBytes_le bounds
  unfold slotStride slotHeader u64Max
  omega

theorem slotStride_ge (bounds : l.Bounds) : slotHeader + l.slotBytes ≤ l.slotStride := by
  rw [slotStride_eq bounds]
  omega

theorem slotStride_le (bounds : l.Bounds) : l.slotStride ≤ 25165888 := by
  have small := slotBytes_le bounds
  rw [slotStride_eq bounds]
  unfold slotHeader
  omega

theorem slotStride_mod (bounds : l.Bounds) : l.slotStride % 64 = 0 := by
  rw [slotStride_eq bounds]
  omega

theorem slots_mul_le (bounds : l.Bounds) : l.slots * l.slotStride ≤ 201327104 :=
  Nat.mul_le_mul bounds.slots (slotStride_le bounds)

theorem fileLen_eq (bounds : l.Bounds) : l.fileLen = l.slots * l.slotStride + header := by
  have small := slots_mul_le bounds
  unfold fileLen header u64Max
  omega

theorem slot_le (bounds : l.Bounds) {slot : Nat} (below : slot < l.slots) :
    header + slot * l.slotStride + l.slotStride ≤ l.fileLen := by
  have rows := Nat.mul_le_mul_right l.slotStride (Nat.succ_le_of_lt below)
  rw [fileLen_eq bounds]
  rw [Nat.succ_mul] at rows
  omega

end Layout

end K2.FrameRing
