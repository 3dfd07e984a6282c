import K2.FrameRing.Producer
import K2.Lib.Machines

/-! # The ring in use

One consumer and one producer at a time, each a load or a store further at every
step, in any order. A producer may be killed after any step, and another attach
then. -/

namespace K2.FrameRing

open SharedMemory

/-- A frame on its way into a slot. -/
structure Push where
  frameNo : Nat
  slot : Nat
  frame : Frame
  timestampNs : Nat

def Push.info (p : Push) : FrameInfo where
  frameNo := p.frameNo
  width := p.frame.width
  height := p.frame.height
  rotation := p.frame.rotation
  color := p.frame.color
  timestampNs := p.timestampNs

/-- What the pushes have come to. -/
structure Books where
  /-- How many began in each slot. -/
  begun : Nat → Nat
  /-- Those whose slot was whole, in order. -/
  sealed : List Push
  /-- Those published, in order. -/
  completed : List Push

/-- A store of the push that is going on. -/
def Books.note (l : Layout) (push : Push) (place v : Nat) (b : Books) : Books :=
  if place = hLatest then { b with completed := b.completed ++ [push] }
  else if place = l.slotBase push.slot + slSeq then
    if v % 2 = 1 then { b with begun := Function.update b.begun push.slot (b.begun push.slot + 1) }
    else { b with sealed := b.sealed ++ [push] }
  else b

inductive Writer where
  | gone
  | attaching (prog : Prog (Option Producer))
  | idle (p : Producer)
  | pushing (push : Push) (prog : Prog Producer)

inductive Reader where
  | idle (c : Consumer)
  /-- `since`: how many pushes had begun in each slot when the read did. -/
  | reading (c : Consumer) (again : Bool) (since : Nat → Nat) (prog : Prog (Consumer × Option (FrameInfo × List Nat)))

/-- A frame handed out, by `read_latest` (`again`) or `try_read`. -/
structure Returned where
  again : Bool
  info : FrameInfo
  bytes : List Nat
  deriving DecidableEq

structure Ring where
  layout : Layout
  mem : Nat → Nat
  books : Books
  writer : Writer
  reader : Reader
  returned : List Returned

inductive Action where
  /-- A producer opens the ring. -/
  | attach
  | push (f : Frame) (now : Nat)
  | produce
  | kill
  /-- The consumer's flags change. -/
  | flag (v : Nat)
  | read (whole : Bool) (beat : Nat) (again : Bool)
  | consume

/-- Fill in the header of a new ring. -/
def writeHeader (l : Layout) (now : Nat) : Prog Unit := do
  put .u32 hVersion version
  put .u32 hHeaderSize header
  put .u32 hSlotHeader slotHeader
  put .u32 hSlots l.slots
  put .u32 hMaxWidth l.maxWidth
  put .u32 hMaxHeight l.maxHeight
  put .u64 hSlotBytes l.slotBytes
  put .u32 hMaxFps l.maxFps
  put .u32 hFlags fWants
  put .u64 hBeat now
  put .u64 hMagic magic

namespace Ring

/-- A new, empty ring. -/
def create (l : Layout) (now : Nat) : Ring where
  layout := l
  mem := ((writeHeader l now).alone fun _ => 0).1
  books := { begun := fun _ => 0, sealed := [], completed := [] }
  writer := .gone
  reader := .idle { layout := l }
  returned := []

def store (r : Ring) (place v : Nat) : Ring := { r with mem := Function.update r.mem place v }

def attachStep (r : Ring) : Prog (Option Producer) → Ring
  | .done none => { r with writer := .gone }
  | .done (some p) => { r with writer := .idle p }
  | .panic => { r with writer := .gone }
  | .load _ place next => { r with writer := .attaching (next (r.mem place)) }
  | .store _ place v next => { r.store place v with writer := .attaching next }

def pushStep (r : Ring) (push : Push) : Prog Producer → Ring
  | .done p => { r with writer := .idle p }
  | .panic => { r with writer := .gone }
  | .load _ place next => { r with writer := .pushing push (next (r.mem place)) }
  | .store _ place v next =>
      { r.store place v with writer := .pushing push next, books := r.books.note r.layout push place v }

def readStep (r : Ring) (c : Consumer) (again : Bool) (since : Nat → Nat) :
    Prog (Consumer × Option (FrameInfo × List Nat)) → Ring
  | .done (c', none) => { r with reader := .idle c' }
  | .done (c', some (info, bytes)) =>
      { r with reader := .idle c', returned := r.returned ++ [{ again, info, bytes }] }
  | .panic => r
  | .load _ place next => { r with reader := .reading c again since (next (r.mem place)) }
  | .store _ place v next => { r.store place v with reader := .reading c again since next }

/-- What an action does; one that can't be now does nothing. -/
def next (r : Ring) : Action → Ring
  | .attach =>
      match r.writer with
      | .gone => { r with writer := .attaching (attach r.layout.fileLen) }
      | _ => r
  | .push f now =>
      match r.writer with
      | .idle p =>
          let push : Push :=
            { frameNo := p.nextFrame, slot := p.nextSlot, frame := f, timestampNs := Producer.stamp f now }
          { r with writer := .pushing push (p.push f now) }
      | _ => r
  | .produce =>
      match r.writer with
      | .attaching prog => r.attachStep prog
      | .pushing push prog => r.pushStep push prog
      | _ => r
  | .kill => { r with writer := .gone }
  | .flag v => r.store hFlags v
  | .read whole beat again =>
      match r.reader with
      | .idle c => { r with reader := .reading c again r.books.begun (c.read whole beat again) }
      | .reading .. => r
  | .consume =>
      match r.reader with
      | .idle _ => r
      | .reading c again since prog => r.readStep c again since prog

/-- No read has lasted for more than 2^61 pushes into one slot. -/
def Unhurried (r : Ring) : Prop :=
  match r.reader with
  | .idle _ => True
  | .reading _ _ since _ => ∀ slot < r.layout.slots, r.books.begun slot ≤ since slot + 2 ^ 61

instance (r : Ring) : Decidable r.Unhurried :=
  match h : r.reader with
  | .idle _ => isTrue (by rw [Unhurried, h]; trivial)
  | .reading _ _ since _ =>
      decidable_of_iff (∀ slot < r.layout.slots, r.books.begun slot ≤ since slot + 2 ^ 61) (by rw [Unhurried, h])

end Ring

end K2.FrameRing
