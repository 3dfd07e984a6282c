import K2.Lib.Windows

/-! # The jitter buffer

Packets in a ring indexed by sequence number, one played each 20 ms tick. The
adaptive target delay is given to each call: what it makes of a depth is all the
buffer asks of it.
-/

namespace K2.KesselAudio

/-! ## Numbers -/

def frame : Int := 960
def halfFrame : Int := 480
def historyLen : Nat := 256
def hintsLen : Nat := 16
/-- After this many starved ticks play silence instead of concealment. -/
def starveConcealTicks : Nat := 50
/-- How many ticks to stretch while waiting for one missing packet. -/
def maxWaitTicks : Nat := 3
def i64Min : Int := -(2 ^ 63)

def extend16 (reference : Int) (seq : BitVec 16) : Int := reference + (seq - BitVec.ofInt 16 reference).toInt

def extend32 (reference : Int) (ts : BitVec 32) : Int := reference + (ts - BitVec.ofInt 32 reference).toInt

/-- The place of a number in a ring. -/
def idx (n : Nat) [NeZero n] (seq : Int) : Fin n := SeqRing.place n seq

/-- The target delay as a call finds it: how long a new talkspurt is held, in
    microseconds, and whether a depth in samples is more than 10 ms under it, more
    than 60 ms above it and more than 200 ms above it. -/
structure Target where
  hold : Nat
  short : Int → Bool
  deep : Int → Bool
  veryDeep : Int → Bool

/-! ## The buffer -/

/-- What to play for one tick. -/
inductive Next (α : Type) where
  | silence
  | decode (payload : α)
  | fec (payload : α)
  | conceal
  | dtx
  deriving Repr, DecidableEq

inductive State where
  | idle
  | prebuffer (deadline : Nat) (hadAudio : Bool)
  | playing
  | starved (ticks : Nat)
  deriving Repr, DecidableEq

structure Slot (α : Type) where
  seq : Int
  ts : Int
  payload : α
  deriving Repr, DecidableEq

structure Counters where
  received : Nat := 0
  late : Nat := 0
  duplicate : Nat := 0
  decoded : Nat := 0
  fec : Nat := 0
  concealed : Nat := 0
  dtx : Nat := 0
  dropped : Nat := 0
  deriving Repr, DecidableEq

/-- A buffer of `cap` slots. -/
structure JitterBuffer (cap : Nat) (α : Type) where
  slots : Fin cap → Option (Slot α)
  buffered : Nat
  state : State
  nextSeq : Int
  playTs : Int
  highest : Option (Int × Int)
  baseSeq : Int
  /-- Duplicate detection over the last sequence numbers. -/
  seen : Fin historyLen → Int
  hints : Fin hintsLen → Int
  hintI : Nat
  dropCooldown : Nat
  waited : Nat
  pending : Nat
  concealRun : Nat
  longestConcealRun : Nat
  n : Counters

instance : NeZero historyLen := ⟨by decide⟩

instance : NeZero hintsLen := ⟨by decide⟩

/-- The ring size a configured one becomes. -/
def capacity (capacityFrames : Nat) : Nat := max capacityFrames 8

instance (capacityFrames : Nat) : NeZero (capacity capacityFrames) := ⟨by
  have : 8 ≤ capacity capacityFrames := le_max_right ..
  omega⟩

namespace JitterBuffer

variable {cap : Nat} {α : Type}

def new : JitterBuffer cap α where
  slots := fun _ => none
  buffered := 0
  state := .idle
  nextSeq := 0
  playTs := 0
  highest := none
  baseSeq := 0
  seen := fun _ => i64Min
  hints := fun _ => i64Min
  hintI := 0
  dropCooldown := 0
  waited := 0
  pending := 0
  concealRun := 0
  longestConcealRun := 0
  n := {}

variable [NeZero cap] (s : JitterBuffer cap α)

/-- The slot of a number, when it holds that number. -/
def slotAt (seq : Int) : Option (Slot α) := SeqRing.entry Slot.seq s.slots seq

def clearSlots : JitterBuffer cap α := { s with slots := fun _ => none, buffered := 0 }

def take (seq : Int) : JitterBuffer cap α :=
  { s with slots := Function.update s.slots (idx cap seq) none, buffered := s.buffered - 1 }

def countConcealed (frames : Nat) : JitterBuffer cap α :=
  { s with
    n := { s.n with concealed := s.n.concealed + frames }
    concealRun := s.concealRun + frames
    longestConcealRun := max s.longestConcealRun (s.concealRun + frames) }

/-- Audio buffered ahead of the playout point, in samples. -/
def depth : Int :=
  match s.highest with
  | some (_, hts) => hts + frame - s.playTs
  | none => 0

/-! ## Loss hints -/

/-- The transport says this packet is gone. -/
def hintLost (seq : BitVec 16) : JitterBuffer cap α :=
  match s.highest with
  | none => s
  | some (h, _) =>
      { s with
        hints := Function.update s.hints (idx hintsLen s.hintI) (extend16 h seq)
        hintI := (s.hintI + 1) % hintsLen }

def hinted (seq : Int) : Bool := decide (∃ i, s.hints i = seq)

/-! ## A packet -/

def extended (seq : BitVec 16) (ts : BitVec 32) : Int × Int :=
  match s.highest with
  | none => (seq.toNat, ts.toNat)
  | some (hs, hts) => (extend16 hs seq, extend32 hts ts)

/-- Is it a packet that is buffered or already played? -/
def duplicate (seq : Int) : Bool := s.seen (idx historyLen seq) = seq

/-- What every new packet does. -/
def admitted (seq ts : Int) : JitterBuffer cap α :=
  { s with
    seen := Function.update s.seen (idx historyLen seq) seq
    n := { s.n with received := s.n.received + 1 }
    highest := if s.highest.all (fun h => decide (seq > h.1)) then some (seq, ts) else s.highest }

/-- What a new packet means where the buffer stands; none when it is late. -/
def settle (t : Target) (seq ts : Int) (arrival : Nat) : Option (JitterBuffer cap α) :=
  match s.state with
  | .idle => some { s with
      baseSeq := seq, nextSeq := seq, playTs := ts, state := .prebuffer (arrival + t.hold) false }
  | .prebuffer _ _ =>
      let s := if seq < s.nextSeq then { s with nextSeq := seq, playTs := ts } else s
      some (if seq < s.baseSeq then { s with baseSeq := seq } else s)
  | .playing => if seq < s.nextSeq then none else some s
  | .starved _ =>
      if seq < s.nextSeq then none
      else
        let missing := seq - s.nextSeq
        if ts > s.playTs + missing * frame + halfFrame then
          -- the sender paused: lost packets were concealment, the rest was DTX
          let lost := (min missing s.pending).toNat
          let s' := s.countConcealed lost
          some { s' with
            n := { s'.n with dtx := s'.n.dtx + (s.pending - lost) }
            pending := 0
            nextSeq := seq
            playTs := ts
            state := .prebuffer (arrival + t.hold) true }
        else some { s.countConcealed s.pending with pending := 0, state := .playing }

/-- Too far ahead for the ring: start over from this packet. -/
def farAhead (seq : Int) : Bool := seq - s.nextSeq ≥ cap

def resync (t : Target) (seq ts : Int) (arrival : Nat) : JitterBuffer cap α :=
  { s.clearSlots with
    nextSeq := seq, playTs := ts, state := .prebuffer (arrival + t.hold) (s.n.decoded > 0) }

def store (seq ts : Int) (payload : α) : JitterBuffer cap α :=
  { s with
    slots := Function.update s.slots (idx cap seq) (some ⟨seq, ts, payload⟩)
    buffered := if (s.slots (idx cap seq)).isNone then s.buffered + 1 else s.buffered }

/-- Add a received packet. -/
def insert (t : Target) (seq : BitVec 16) (ts : BitVec 32) (payload : α) (arrival : Nat) : JitterBuffer cap α :=
  let (seq, ts) := s.extended seq ts
  if s.duplicate seq then { s with n := { s.n with duplicate := s.n.duplicate + 1 } }
  else
    let s := s.admitted seq ts
    match s.settle t seq ts arrival with
    | none => { s with n := { s.n with late := s.n.late + 1 } }
    | some s => (if s.farAhead seq then s.resync t seq ts arrival else s).store seq ts payload

/-! ## A tick -/

/-- Skip a packet while the buffered audio is well above the target. -/
def trimDelay (t : Target) : JitterBuffer cap α :=
  if s.highest.isNone then s
  else if s.dropCooldown > 0 then { s with dropCooldown := s.dropCooldown - 1 }
  else match s.slotAt s.nextSeq with
    | some slot =>
        if t.deep s.depth && (s.slotAt (s.nextSeq + 1)).isSome then
          { s.take s.nextSeq with
            nextSeq := s.nextSeq + 1
            playTs := slot.ts + frame
            n := { s.n with dropped := s.n.dropped + 1 }
            dropCooldown := if t.veryDeep s.depth then 0 else 4 }
        else s
    | none => s

/-- The packet of this tick is not here. -/
def playMissing (t : Target) : JitterBuffer cap α × Next α :=
  let hinted := s.hinted s.nextSeq
  if s.buffered > 0 || hinted then
    if !hinted && s.waited < maxWaitTicks && t.short s.depth then
      -- stretch, and give the missing packet another tick
      ({ s with waited := s.waited + 1 }.countConcealed 1, .conceal)
    else
      let fec := (s.slotAt (s.nextSeq + 1)).filter fun f => f.ts - s.playTs ≤ frame + halfFrame
      let s := { s with waited := 0, nextSeq := s.nextSeq + 1, playTs := s.playTs + frame }
      match fec with
      | some f => ({ s with n := { s.n with fec := s.n.fec + 1 }, concealRun := 0 }, .fec f.payload)
      | none => (s.countConcealed 1, .conceal)
  else ({ s with state := .starved 1, pending := 1 }, .conceal)

/-- The tick of a buffer that is not trimmed. -/
def playNext (t : Target) : JitterBuffer cap α × Next α :=
  match s.slotAt s.nextSeq with
  | some slot =>
      if slot.ts > s.playTs + halfFrame then
        -- a DTX gap inside the buffer: play the gap first
        ({ s with playTs := s.playTs + frame, n := { s.n with dtx := s.n.dtx + 1 }, concealRun := 0 }, .dtx)
      else
        ({ s.take s.nextSeq with
          nextSeq := s.nextSeq + 1
          playTs := slot.ts + frame
          n := { s.n with decoded := s.n.decoded + 1 }
          concealRun := 0
          waited := 0 }, .decode slot.payload)
  | none => s.playMissing t

def play (t : Target) : JitterBuffer cap α × Next α := (s.trimDelay t).playNext t

/-- A loss hint for the packet we're waiting on resolves an empty buffer as
    concealment right away. -/
def takeHintedLoss : JitterBuffer cap α :=
  { s.countConcealed (s.pending + 1) with
    pending := 0, waited := 0, nextSeq := s.nextSeq + 1, playTs := s.playTs + frame, state := .playing }

/-- What to play for the next 20 ms. -/
def next (t : Target) (now : Nat) : JitterBuffer cap α × Next α :=
  match s.state with
  | .idle => (s, .silence)
  | .prebuffer deadline hadAudio =>
      if now ≥ deadline then { s with state := .playing }.play t
      else if hadAudio then ({ s with n := { s.n with dtx := s.n.dtx + 1 } }, .dtx)
      else (s, .silence)
  | .playing => s.play t
  | .starved ticks =>
      let s := { s with state := .starved (ticks + 1) }
      if s.hinted s.nextSeq then (s.takeHintedLoss, .conceal)
      else ({ s with pending := s.pending + 1 }, if ticks + 1 > starveConcealTicks then .silence else .conceal)

/-- The packet handed out for its FEC had none after all. -/
def fecUnavailable : JitterBuffer cap α :=
  { s with n := { s.n with fec := s.n.fec - 1 } }.countConcealed 1

end JitterBuffer

/-! ## Calls -/

/-- A call on the buffer. -/
inductive Call (α : Type) where
  | insert (t : Target) (seq : BitVec 16) (ts : BitVec 32) (payload : α) (arrival : Nat)
  | hintLost (seq : BitVec 16)
  | next (t : Target) (now : Nat)
  | fecUnavailable

namespace JitterBuffer

variable {cap : Nat} [NeZero cap] {α : Type}

def call (s : JitterBuffer cap α) : Call α → JitterBuffer cap α
  | .insert t seq ts payload arrival => s.insert t seq ts payload arrival
  | .hintLost seq => s.hintLost seq
  | .next t now => (s.next t now).1
  | .fecUnavailable => s.fecUnavailable

def run (calls : List (Call α)) : JitterBuffer cap α := calls.foldl call new

end JitterBuffer

end K2.KesselAudio
