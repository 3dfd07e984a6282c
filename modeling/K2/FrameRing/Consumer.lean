import K2.FrameRing.Layout
import K2.Lib.SharedMemory

/-! # The frame ring's consumer

Reads the newest frame. The producer is another process with the file open, so
nothing in it is trusted: a frame's slot, size, rotation, colour and length are
checked against the consumer's own layout before a byte is copied. -/

namespace K2.FrameRing

open SharedMemory

/-- How often a read retries when the producer rewrote the slot under it. -/
def readTries : Nat := 3

/-- The colour description of a frame's YUV. -/
inductive Color where
  | bt601Limited
  | bt709Limited
  | bt709Full
  deriving Repr, DecidableEq

def Color.ofU32 : Nat → Option Color
  | 0 => some .bt601Limited
  | 1 => some .bt709Limited
  | 2 => some .bt709Full
  | _ => none

structure FrameInfo where
  frameNo : Nat
  width : Nat
  height : Nat
  rotation : Nat
  color : Color
  timestampNs : Nat
  deriving Repr, DecidableEq

def FrameInfo.len (f : FrameInfo) : Nat := nv12Len f.width f.height

structure Consumer where
  layout : Layout
  /-- The frame number last handed out (0: none yet). -/
  lastFrame : Nat := 0
  /-- The latest word last refused, to count a bad frame once. -/
  lastRejected : Nat := 0
  missed : Nat := 0
  torn : Nat := 0
  rejected : Nat := 0
  deriving Repr, DecidableEq

/-- A frame and its bytes, or why a slot wasn't read. -/
inductive Copied where
  | frame (info : FrameInfo) (bytes : List Nat)
  | torn
  | bad
  deriving Repr, DecidableEq

/-- Unsigned arithmetic that panics past 64 bits. -/
def checked (v : Nat) : Option Nat := if v ≤ u64Max then some v else none

def checkedSub (a b : Nat) : Option Nat := if b ≤ a then some (a - b) else none

def saturatingAdd (a b : Nat) : Nat := min (a + b) u64Max

/-- A word or byte at an offset. -/
def load (w : Width) (base off : Nat) : Prog Nat := do
  let place ← .lift (checked (base + off))
  .load w place .done

/-- The bytes from a place on, in order. -/
def copyBytes (place : Nat) : Nat → Prog (List Nat)
  | 0 => pure []
  | n + 1 => do
      let b ← Prog.load .u8 place .done
      let rest ← copyBytes (place + 1) n
      pure (b :: rest)

namespace Consumer

def badOrTorn (base s1 : Nat) : Prog Copied := do
  let s ← load .u64 base slSeq
  pure (if s = s1 then .bad else .torn)

/-- The checks that come before any size maths. -/
def validFrame (l : Layout) (frameNo width height rotation : Nat) : Bool :=
  1 ≤ frameNo && frameNo ≤ maxFrameNo && 1 ≤ width && 1 ≤ height && l.fits width height && rotation ∈ [0, 90, 180, 270]

/-- Copy the slot `latest` points at, if it still holds that frame, describes a
    frame that fits this ring, and wasn't rewritten while copying. -/
def copySlot (l : Layout) (latest : Nat) : Prog Copied :=
  let slot := latest &&& 0xff
  if l.slots ≤ slot then pure .bad
  else do
    let row ← .lift (checked (slot * l.slotStride))
    let base ← .lift (checked (header + row))
    let s1 ← load .u64 base slSeq
    if s1 &&& 1 = 1 then pure .torn
    else do
      let frameNo ← load .u64 base slFrameNo
      let width ← load .u32 base slWidth
      let height ← load .u32 base slHeight
      let rotation ← load .u32 base slRotation
      let color ← load .u32 base slColor
      let timestampNs ← load .u64 base slTimestamp
      let len ← load .u64 base slLen
      if frameNo ≠ latest >>> 8 then pure .torn
      else
        match (Color.ofU32 color).filter fun _ => validFrame l frameNo width height rotation with
        | none => badOrTorn base s1
        | some color =>
            let info : FrameInfo := { frameNo, width, height, rotation, color, timestampNs }
            let want := info.len
            if len ≠ want ∨ l.slotBytes < want then badOrTorn base s1
            else do
              let data ← .lift (checked (base + slotHeader))
              let bytes ← copyBytes data want
              let s2 ← load .u64 base slSeq
              pure (if s2 = s1 then .frame info bytes else .torn)

/-- The counters after a frame was handed out. -/
def handedOut (c : Consumer) (frameNo : Nat) : Option Consumer :=
  if frameNo = c.lastFrame then some c
  else if c.lastFrame < frameNo then do
    let gap ← checkedSub (frameNo - c.lastFrame) 1
    some { c with missed := saturatingAdd c.missed gap, lastFrame := frameNo }
  else some { c with lastFrame := frameNo }

/-- The newest bad frame is counted once. -/
def refuse (c : Consumer) (latest : Nat) : Consumer :=
  if latest = c.lastRejected then c
  else { c with lastRejected := latest, rejected := saturatingAdd c.rejected 1 }

def readLoop (c : Consumer) (again : Bool) : Nat → Prog (Consumer × Option (FrameInfo × List Nat))
  | 0 => pure ({ c with torn := saturatingAdd c.torn 1 }, none)
  | tries + 1 => do
      let latest ← Prog.load .u64 hLatest .done
      let frameNo := latest >>> 8
      if frameNo = 0 ∨ (!again ∧ frameNo = c.lastFrame) then pure (c, none)
      else
        match ← copySlot c.layout latest with
        | .frame info bytes => do
            let c ← .lift (c.handedOut frameNo)
            pure (c, some (info, bytes))
        | .bad => pure (c.refuse latest, none)
        | .torn => readLoop c again tries

/-- One read: `whole` is whether the file still covers the mapping, `beat` the
    clock, `again` whether a frame read already will do. -/
def read (c : Consumer) (whole : Bool) (beat : Nat) (again : Bool) : Prog (Consumer × Option (FrameInfo × List Nat)) :=
  if whole then .store .u64 hBeat beat (c.readLoop again readTries) else pure (c, none)

end Consumer

end K2.FrameRing
