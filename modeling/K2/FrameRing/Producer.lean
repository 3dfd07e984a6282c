import K2.FrameRing.Consumer
import Mathlib.Logic.Function.Basic

/-! # The frame ring's producer

Attaches to a ring the consumer made and writes frames. It keeps its own count of
each slot's sequence word and of the newest slot. The counters (`hAttaches` and
its like) are loaded and stored in two steps; nobody reads them. -/

namespace K2.FrameRing

open SharedMemory

/-- The consumer counts as away when it hasn't looked for this long. -/
def consumerStaleNs : Nat := 2000000000

def fWants : Nat := 1
def fGone : Nat := 4

def Color.toU32 : Color → Nat
  | .bt601Limited => 0
  | .bt709Limited => 1
  | .bt709Full => 2

/-- A frame scaled to the box, as it goes into a slot. -/
structure Frame where
  width : Nat
  height : Nat
  rotation : Nat
  color : Color
  /-- 0: now. -/
  timestampNs : Nat
  bytes : List Nat
  sized : bytes.length = nv12Len width height

structure Producer where
  layout : Layout
  nextFrame : Nat
  /-- Each slot's sequence word as this producer last wrote it, or found it at
      attach. -/
  seqs : Nat → Nat
  /-- The slot last published. -/
  newest : Option Nat
  lastKeptNs : Option Nat

/-- The frame number after `n`: 1 after the largest. -/
def after (n : Nat) : Nat := if n < maxFrameNo then n + 1 else 1

/-- A sequence word the producer may count on from. -/
def saneSeq (v : Nat) : Nat := if v > maxSeq then 0 else v

def fetch (w : Width) (place : Nat) : Prog Nat := .load w place .done

def put (w : Width) (place v : Nat) : Prog Unit := .store w place v (.done ())

/-- A counter: it wraps. -/
def bump (place : Nat) : Prog Unit := do
  let v ← fetch .u64 place
  put .u64 place ((v + 1) % 2 ^ 64)

def putBytes (place : Nat) : List Nat → Prog Unit
  | [] => pure ()
  | b :: rest => do
      put .u8 place b
      putBytes (place + 1) rest

/-! ## Attach -/

/-- The largest file a valid layout makes. -/
def largestFile : Nat := Layout.fileLen ⟨maxSide, maxSide, maxSlots, 0⟩

/-- The layout in the header, checked against itself and the file's length. -/
def readLayout (len : Nat) : Prog (Option Layout) := do
  let found ← fetch .u64 hMagic
  if found ≠ magic then pure none
  else do
    let found ← fetch .u32 hVersion
    if found ≠ version then pure none
    else do
      let headerSize ← fetch .u32 hHeaderSize
      let slotHeaderSize ← fetch .u32 hSlotHeader
      if headerSize ≠ header ∨ slotHeaderSize ≠ slotHeader then pure none
      else do
        let maxWidth ← fetch .u32 hMaxWidth
        let maxHeight ← fetch .u32 hMaxHeight
        let slots ← fetch .u32 hSlots
        let maxFps ← fetch .u32 hMaxFps
        let l : Layout := { maxWidth, maxHeight, slots, maxFps }
        match l.validate with
        | .error _ => pure none
        | .ok () => do
            let slotBytes ← fetch .u64 hSlotBytes
            if slotBytes ≠ l.slotBytes then pure none
            else if len ≠ l.fileLen then pure none
            else pure (some l)

/-- The slots' sequence words. -/
def readSeqs (l : Layout) : Nat → Prog (Nat → Nat)
  | 0 => pure fun _ => 0
  | n + 1 => do
      let seqs ← readSeqs l n
      let v ← fetch .u64 (l.slotBase n + slSeq)
      pure (Function.update seqs n (saneSeq v))

/-- Open the ring, check it, and go on where the last producer left off; none if
    the file isn't a ring of this version. -/
def attach (len : Nat) : Prog (Option Producer) :=
  if len < header ∨ largestFile < len then pure none
  else do
    match ← readLayout len with
    | none => pure none
    | some layout => do
        bump hAttaches
        let latest ← fetch .u64 hLatest
        let seqs ← readSeqs layout layout.slots
        pure (some
          { layout
            nextFrame := after (latest >>> 8)
            seqs
            newest := (some (latest &&& 0xff)).filter fun s => latest ≠ 0 && s < layout.slots
            lastKeptNs := none })

/-! ## Push -/

/-- The consumer is there and wants frames. -/
def wanted (now : Nat) : Prog Bool := do
  let flags ← fetch .u32 hFlags
  if flags &&& fWants = 0 then pure false
  else do
    let beat ← fetch .u64 hBeat
    let flags ← fetch .u32 hFlags
    pure (flags &&& fGone = 0 && now - beat < consumerStaleNs)

/-- The consumer's rate, held to what a layout allows. -/
def rate : Prog Nat := do
  let fps ← fetch .u32 hMaxFps
  pure (min fps maxFps)

/-- Did the last frame kept come less than 3/4 of the interval ago? -/
def tooSoon (last : Option Nat) (fps ts : Nat) : Bool :=
  last.any fun last => fps > 0 && ts - last < 1000000000 / fps - 1000000000 / fps / 4

namespace Producer

/-- The slot after the newest published one. -/
def nextSlot (p : Producer) : Nat :=
  match p.newest with
  | none => 0
  | some s => (s + 1) % p.layout.slots

/-- When the frame was taken. -/
def stamp (f : Frame) (now : Nat) : Nat := if f.timestampNs = 0 then now else f.timestampNs

/-- Write one frame into the slot after the newest, and publish it, unless it isn't
    wanted, too soon or too large. -/
def push (p : Producer) (f : Frame) (now : Nat) : Prog Producer := do
  if ¬ (← wanted now) then do
    bump hDropped
    pure p
  else do
    let ts := stamp f now
    let fps ← rate
    if tooSoon p.lastKeptNs fps ts then do
      bump hDropped
      pure p
    else
      let len := nv12Len f.width f.height
      if p.layout.slotBytes < len then pure p
      else do
        let frameNo := p.nextFrame
        let slot := p.nextSlot
        let base := p.layout.slotBase slot
        let odd := saneSeq (p.seqs slot) ||| 1
        put .u64 (base + slSeq) odd
        put .u64 (base + slFrameNo) frameNo
        put .u32 (base + slWidth) f.width
        put .u32 (base + slHeight) f.height
        put .u32 (base + slRotation) f.rotation
        put .u32 (base + slColor) f.color.toU32
        put .u64 (base + slTimestamp) ts
        put .u64 (base + slLen) len
        putBytes (base + slotHeader) f.bytes
        put .u64 (base + slSeq) (odd + 1)
        put .u64 hLatest (frameNo <<< 8 ||| slot)
        bump hWritten
        pure
          { p with
            seqs := Function.update p.seqs slot (odd + 1)
            newest := some slot
            nextFrame := after frameNo
            lastKeptNs := some ts }

end Producer

end K2.FrameRing
