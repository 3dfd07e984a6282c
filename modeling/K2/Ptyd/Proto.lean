import K2.Lib.Machines
import Mathlib.Algebra.Group.Nat.Defs
import Mathlib.Data.List.Basic

/-! # Frames to and from the session daemon

A frame is its length in four bytes, most significant first, and then that many
bytes of JSON. Bytes after a connection's last frame are raw output or input. -/

namespace K2.Ptyd

def maxFrame : Nat := 2 ^ 20

inductive IoError where
  | invalidInput (why : String)
  | invalidData (why : String)
  | unexpectedEof
  deriving Repr, DecidableEq

/-- `u32::to_be_bytes`. -/
def toBeBytes (n : Nat) : List UInt8 :=
  [UInt8.ofNat (n / 2 ^ 24), UInt8.ofNat (n / 2 ^ 16), UInt8.ofNat (n / 2 ^ 8), UInt8.ofNat n]

/-- `u32::from_be_bytes`. -/
def fromBeBytes (b₀ b₁ b₂ b₃ : UInt8) : Nat :=
  b₀.toNat * 2 ^ 24 + b₁.toNat * 2 ^ 16 + b₂.toNat * 2 ^ 8 + b₃.toNat

/-- The length that four bytes say. -/
def frameLen : List UInt8 → Nat
  | [b₀, b₁, b₂, b₃] => fromBeBytes b₀ b₁ b₂ b₃
  | _ => 0

/-- One frame, from its JSON. -/
def encode (json : List UInt8) : Except IoError (List UInt8) :=
  if maxFrame < json.length then .error (.invalidInput "frame_too_large")
  else .ok (toBeBytes json.length ++ json)

/-- `n` bytes of a stream, and the rest. -/
def readExact (n : Nat) (stream : List UInt8) : Except IoError (List UInt8 × List UInt8) :=
  if stream.length < n then .error .unexpectedEof else .ok (stream.take n, stream.drop n)

/-- Blocking read of one frame from a stream; `parse` reads the JSON. -/
def readFrame {α : Type} (parse : List UInt8 → Except String α) (stream : List UInt8) :
    Except IoError (α × List UInt8) :=
  match readExact 4 stream with
  | .error e => .error e
  | .ok (len, stream) =>
      if maxFrame < frameLen len then .error (.invalidData "frame_too_large")
      else
        match readExact (frameLen len) stream with
        | .error e => .error e
        | .ok (buf, stream) =>
            match parse buf with
            | .ok v => .ok (v, stream)
            | .error why => .error (.invalidData why)

inductive FrameError where
  | tooLarge
  deriving Repr, DecidableEq

/-- Incremental decoder for non-blocking sockets. -/
structure FrameDecoder where
  buf : List UInt8 := []
  deriving Repr, DecidableEq

namespace FrameDecoder

def push (d : FrameDecoder) (bytes : List UInt8) : FrameDecoder := { buf := d.buf ++ bytes }

/-- The next complete frame's JSON bytes, if one is buffered. -/
def nextFrame (d : FrameDecoder) : Except FrameError (Option (List UInt8)) × FrameDecoder :=
  match d.buf with
  | b₀ :: b₁ :: b₂ :: b₃ :: _ =>
      let len := fromBeBytes b₀ b₁ b₂ b₃
      if maxFrame < len then (.error .tooLarge, d)
      else if d.buf.length < 4 + len then (.ok none, d)
      else (.ok (some ((d.buf.drop 4).take len)), { buf := d.buf.drop (4 + len) })
  | _ => (.ok none, d)

/-- Bytes buffered past the last complete frame. -/
def takeRest (d : FrameDecoder) : List UInt8 × FrameDecoder := (d.buf, {})

end FrameDecoder

/-! ## A connection's calls -/

inductive Call where
  | push (bytes : List UInt8)
  | nextFrame
  deriving Repr, DecidableEq

/-- The decoder, and what it has returned. -/
structure Conn where
  dec : FrameDecoder := {}
  frames : List (List UInt8) := []
  tooLarge : Nat := 0
  deriving Repr, DecidableEq

def Conn.next (c : Conn) : Call → Conn
  | .push bytes => { c with dec := c.dec.push bytes }
  | .nextFrame =>
      match c.dec.nextFrame with
      | (.ok (some frame), dec) => { c with dec, frames := c.frames ++ [frame] }
      | (.ok none, dec) => { c with dec }
      | (.error .tooLarge, dec) => { c with dec, tooLarge := c.tooLarge + 1 }

/-- What the calls push, in order. -/
def pushed (calls : List Call) : List UInt8 :=
  calls.flatMap fun
    | .push bytes => bytes
    | .nextFrame => []

/-- A payload on the wire. -/
def framed (payload : List UInt8) : List UInt8 := toBeBytes payload.length ++ payload

/-- Payloads on the wire. -/
def wire (payloads : List (List UInt8)) : List UInt8 := payloads.flatMap framed

/-- What the encoder takes is small enough, and what it writes of payloads one after the other is
    their wire form. -/
theorem wire_of_encoded {payloads written : List (List UInt8)} (each : List.Forall₂ (fun p w => encode p = .ok w) payloads written) :
    (∀ p ∈ payloads, p.length ≤ maxFrame) ∧ wire payloads = written.flatten := by
  induction each with
  | nil => exact ⟨fun p mem => (nomatch mem), rfl⟩
  | cons first _ ih =>
      unfold encode at first
      split at first
      · cases first
      · rename_i small
        obtain rfl := Except.ok.inj first
        exact ⟨List.forall_mem_cons.mpr ⟨Nat.le_of_not_lt small, ih.1⟩, by rw [wire, List.flatMap_cons, ← wire, ih.2]; rfl⟩

/-! ## One frame -/

theorem fromBeBytes_toBeBytes {n : Nat} (small : n ≤ maxFrame) :
    fromBeBytes (UInt8.ofNat (n / 2 ^ 24)) (UInt8.ofNat (n / 2 ^ 16)) (UInt8.ofNat (n / 2 ^ 8)) (UInt8.ofNat n) = n := by
  unfold maxFrame at small
  simp only [fromBeBytes, UInt8.toNat_ofNat']
  omega

variable {c : Conn} {payload : List UInt8} {payloads todo : List (List UInt8)} {rest trailing buf : List UInt8}

/-- A frame of any length in the buffer, read from its length on. -/
theorem nextFrame_eq (small : payload.length ≤ maxFrame) (body : List UInt8) :
    (FrameDecoder.mk (toBeBytes payload.length ++ body)).nextFrame =
      if body.length < payload.length then (.ok none, { buf := toBeBytes payload.length ++ body })
      else (.ok (some (body.take payload.length)), { buf := body.drop payload.length }) := by
  have length : (toBeBytes payload.length ++ body).length = 4 + body.length := by
    rw [List.length_append]
    rfl
  simp only [FrameDecoder.nextFrame, toBeBytes, List.cons_append, List.nil_append, fromBeBytes_toBeBytes small]
  rw [if_neg (Nat.not_lt.mpr small)]
  simp only [List.length_cons, List.drop_succ_cons, List.drop_zero]
  by_cases short : body.length < payload.length
  · rw [if_pos short, if_pos (by omega)]
  · rw [if_neg short, if_neg (by omega), Nat.add_comm 4]
    rfl

/-- With the buffer a frame's beginning, or the whole frame and more. -/
theorem nextFrame_split (small : payload.length ≤ maxFrame) {more : List UInt8} (split : buf ++ rest = framed payload ++ more) :
    (rest ≠ [] ∧ (FrameDecoder.mk buf).nextFrame = (.ok none, { buf })) ∨
      ∃ left, (FrameDecoder.mk buf).nextFrame = (.ok (some payload), { buf := left }) ∧ left ++ rest = more := by
  rcases List.append_eq_append_iff.mp split with ⟨missing, whole, rfl⟩ | ⟨left, rfl, rfl⟩
  · rcases List.eq_nil_or_concat missing with rfl | ⟨_, _, rfl⟩
    · -- exactly the frame
      refine .inr ⟨[], ?_, rfl⟩
      rw [List.append_nil] at whole
      rw [← whole, framed, nextFrame_eq small, if_neg (Nat.lt_irrefl _), List.take_length, List.drop_length]
    · refine .inl ⟨by simp, ?_⟩
      match buf, whole with
      | [], _ => rfl
      | [_], _ => rfl
      | [_, _], _ => rfl
      | [_, _, _], _ => rfl
      | b₀ :: b₁ :: b₂ :: b₃ :: body, whole =>
          have length := congrArg List.length whole
          simp only [framed, toBeBytes, List.cons_append, List.nil_append, List.cons.injEq] at whole
          obtain ⟨rfl, rfl, rfl, rfl, whole⟩ := whole
          have short : body.length < payload.length := by
            rw [whole, List.length_append, List.concat_eq_append, List.length_append, List.length_singleton]
            omega
          have unfinished := nextFrame_eq small body
          rw [if_pos short] at unfinished
          exact unfinished
  · refine .inr ⟨left, ?_, rfl⟩
    have overrun : ¬ (payload ++ left).length < payload.length := by
      rw [List.length_append]
      omega
    rw [framed, List.append_assoc, nextFrame_eq small, if_neg overrun, List.take_left, List.drop_left]

/-! ## Any split -/

/-- What is buffered and still to come are the payloads not returned yet and the
    trailing bytes. -/
structure Whole (todo : List (List UInt8)) (trailing : List UInt8) (c : Conn) (rest : List UInt8) : Prop where
  buffered : c.dec.buf ++ rest = wire todo ++ trailing
  fits : c.tooLarge = 0

theorem Whole.push {bytes : List UInt8} (whole : Whole todo trailing c (bytes ++ rest)) :
    Whole todo trailing (c.next (.push bytes)) rest where
  buffered := by
    rw [← whole.buffered, ← List.append_assoc]
    rfl
  fits := whole.fits

/-- With a payload still to come, a call returns it or nothing yet. -/
theorem Whole.nextFrame (small : payload.length ≤ maxFrame) (whole : Whole (payload :: todo) trailing c rest) :
    (rest ≠ [] ∧ c.next .nextFrame = c) ∨
      (c.next .nextFrame).frames = c.frames ++ [payload] ∧ Whole todo trailing (c.next .nextFrame) rest := by
  have split := whole.buffered
  rw [wire, List.flatMap_cons, List.append_assoc] at split
  rcases nextFrame_split small split with ⟨more, unfinished⟩ | ⟨left, present, joined⟩
  · refine .inl ⟨more, ?_⟩
    have unfinished : c.dec.nextFrame = (.ok none, c.dec) := unfinished
    rw [Conn.next, unfinished]
  · have present : c.dec.nextFrame = (.ok (some payload), { buf := left }) := present
    refine .inr ⟨?_, ?_⟩
    · rw [Conn.next, present]
    · rw [Conn.next, present]
      exact ⟨joined, whole.fits⟩

/-- No call is made for a frame once the last one was returned. -/
def StopsAt (last : Nat) (c : Conn) (call : Call) : Prop := call = .nextFrame → c.frames.length < last

instance (last : Nat) (c : Conn) (call : Call) : Decidable (StopsAt last c call) :=
  inferInstanceAs (Decidable (call = .nextFrame → c.frames.length < last))

theorem run_whole (small : ∀ p ∈ payloads, p.length ≤ maxFrame) {calls : List Call}
    (stops : Rounds.Along Conn.next (StopsAt payloads.length) c calls) (returned : c.frames ++ todo = payloads)
    (whole : Whole todo trailing c (pushed calls)) :
    ∃ todo', (Rounds.after Conn.next c calls).frames ++ todo' = payloads ∧
      Whole todo' trailing (Rounds.after Conn.next c calls) [] := by
  induction calls generalizing c todo with
  | nil => exact ⟨todo, returned, whole⟩
  | cons call calls ih =>
      obtain ⟨stop, stops⟩ := stops
      cases call with
      | push bytes => exact ih stops returned whole.push
      | nextFrame =>
          cases todo with
          | nil =>
              have all := congrArg List.length returned
              have more := stop rfl
              rw [List.append_nil] at all
              omega
          | cons payload todo =>
              have sized := small payload (returned ▸ List.mem_append_right _ List.mem_cons_self)
              rcases whole.nextFrame sized with ⟨-, same⟩ | ⟨frames, whole'⟩
              · rw [same] at stops
                rw [Rounds.after, same]
                exact ih stops returned whole
              · refine ih stops ?_ whole'
                rw [frames, List.append_assoc]
                exact returned

/-- Once everything is pushed each call returns the next payload. -/
theorem drain_whole (small : ∀ p ∈ todo, p.length ≤ maxFrame) (whole : Whole todo trailing c []) :
    (Rounds.after Conn.next c (List.replicate todo.length .nextFrame)).frames = c.frames ++ todo ∧
      Whole [] trailing (Rounds.after Conn.next c (List.replicate todo.length .nextFrame)) [] := by
  induction todo generalizing c with
  | nil => exact ⟨(List.append_nil _).symm, whole⟩
  | cons payload todo ih =>
      rcases whole.nextFrame (small payload List.mem_cons_self) with ⟨more, -⟩ | ⟨frames, whole'⟩
      · exact absurd rfl more
      · obtain ⟨all, last⟩ := ih (fun p mem => small p (List.mem_cons_of_mem payload mem)) whole'
        refine ⟨?_, last⟩
        rw [frames, List.append_assoc] at all
        exact all

/-! ## Frames too large -/

section TooLarge

variable {α : Type} (parse : List UInt8 → Except String α) {b₀ b₁ b₂ b₃ : UInt8} (body : List UInt8)
  (large : maxFrame < fromBeBytes b₀ b₁ b₂ b₃)
include large

theorem nextFrame_tooLarge :
    (FrameDecoder.mk (b₀ :: b₁ :: b₂ :: b₃ :: body)).nextFrame =
      (.error .tooLarge, { buf := b₀ :: b₁ :: b₂ :: b₃ :: body }) :=
  if_pos large

theorem readFrame_tooLarge :
    readFrame parse (b₀ :: b₁ :: b₂ :: b₃ :: body) = .error (.invalidData "frame_too_large") := by
  have four : readExact 4 (b₀ :: b₁ :: b₂ :: b₃ :: body) = .ok ([b₀, b₁, b₂, b₃], body) := by
    rw [readExact, if_neg (by simp)]
    rfl
  rw [readFrame, four]
  dsimp only
  rw [frameLen, if_pos large]

/-- The decoder stays there: nothing after it comes out as a frame. -/
theorem stuck_tooLarge (placed : ∃ more, c.dec.buf = b₀ :: b₁ :: b₂ :: b₃ :: more) (calls : List Call) :
    (Rounds.after Conn.next c calls).frames = c.frames := by
  induction calls generalizing c with
  | nil => rfl
  | cons call calls ih =>
      obtain ⟨more, placed⟩ := placed
      cases call with
      | push bytes =>
          refine (ih ⟨more ++ bytes, ?_⟩)
          show c.dec.buf ++ bytes = _
          rw [placed]
          rfl
      | nextFrame =>
          have refused := nextFrame_tooLarge more large
          rw [← placed] at refused
          have refused : c.dec.nextFrame = (.error .tooLarge, c.dec) := refused
          have same : c.next .nextFrame = { c with tooLarge := c.tooLarge + 1 } := by rw [Conn.next, refused]
          rw [Rounds.after, same]
          exact ih ⟨more, placed⟩

end TooLarge

/-- However the stream is split and whenever frames are asked for, as long as none
    is after the last payload came, the payloads come out in order, whole, and what is
    left is the trailing bytes. A length over the largest is refused and never a frame. -/
theorem frames_any_split {α : Type} (parse : List UInt8 → Except String α) :
    (∀ (payloads : List (List UInt8)) (trailing : List UInt8) (calls : List Call),
      (∀ p ∈ payloads, p.length ≤ maxFrame) → pushed calls = wire payloads ++ trailing →
      Rounds.Along Conn.next (StopsAt payloads.length) {} calls →
      let c := Rounds.after Conn.next {} calls
      let done := Rounds.after Conn.next c (List.replicate (payloads.length - c.frames.length) .nextFrame)
      c.frames <+: payloads ∧ c.tooLarge = 0 ∧ done.frames = payloads ∧ done.tooLarge = 0 ∧
        done.dec.takeRest.1 = trailing) ∧
    ∀ (b₀ b₁ b₂ b₃ : UInt8) (body : List UInt8), maxFrame < fromBeBytes b₀ b₁ b₂ b₃ →
      let stream := b₀ :: b₁ :: b₂ :: b₃ :: body
      (FrameDecoder.mk stream).nextFrame = (.error .tooLarge, { buf := stream }) ∧
        readFrame parse stream = .error (.invalidData "frame_too_large") ∧
        ∀ calls, (Rounds.after Conn.next { dec := { buf := stream } } calls).frames = [] := by
  refine ⟨fun payloads trailing calls small split stops => ?_, fun b₀ b₁ b₂ b₃ body large => ?_⟩
  · intro c done
    have start : Whole payloads trailing {} (pushed calls) := ⟨split, rfl⟩
    obtain ⟨todo, returned, whole⟩ := run_whole small stops rfl start
    have small' (p : List UInt8) (mem : p ∈ todo) : p.length ≤ maxFrame :=
      small p (returned ▸ List.mem_append_right _ mem)
    have left : payloads.length - c.frames.length = todo.length := by
      rw [← returned, List.length_append]
      exact Nat.add_sub_cancel_left ..
    obtain ⟨all, last⟩ := drain_whole small' whole
    have finished : done = Rounds.after Conn.next c (List.replicate todo.length .nextFrame) := by
      show Rounds.after Conn.next c (List.replicate (payloads.length - c.frames.length) .nextFrame) = _
      rw [left]
    rw [finished]
    refine ⟨⟨todo, returned⟩, whole.fits, all.trans returned, last.fits, ?_⟩
    have rest := last.buffered
    rw [List.append_nil] at rest
    exact rest
  · exact ⟨nextFrame_tooLarge body large, readFrame_tooLarge parse body large, stuck_tooLarge large ⟨body, rfl⟩⟩

/-- Three payloads as the encoder writes them, and raw input behind them, in parts that cut lengths and
    bodies, with a frame asked for behind each. -/
def chopped : List Call :=
  [[0, 0], [0, 2, 7], [8, 0, 0, 0, 0], [0, 0, 0, 1], [5, 9, 9]].flatMap fun part => [.push part, .nextFrame]

theorem frames_any_split_chopped :
    (Rounds.after Conn.next {} chopped).frames = [[7, 8], [], [5]] ∧
      (Rounds.after Conn.next {} chopped).dec.takeRest.1 = [9, 9] := by
  have each : List.Forall₂ (fun p w => encode p = .ok w) [[7, 8], [], [5]] [[0, 0, 0, 2, 7, 8], [0, 0, 0, 0], [0, 0, 0, 1, 5]] :=
    .cons rfl (.cons rfl (.cons rfl .nil))
  obtain ⟨small, written⟩ := wire_of_encoded each
  have split : pushed chopped = wire [[7, 8], [], [5]] ++ [9, 9] := by rw [written]; rfl
  obtain ⟨-, -, all, -, rest⟩ := (frames_any_split (fun _ => .error "no JSON" : List UInt8 → Except String Unit)).1
    [[7, 8], [], [5]] [9, 9] chopped small split (by decide)
  exact ⟨all, rest⟩

/-- Asked once more, the decoder takes trailing bytes for a frame. -/
theorem frames_past_the_last : ¬ ∀ (payloads : List (List UInt8)) (trailing : List UInt8) (calls : List Call),
    (∀ p ∈ payloads, p.length ≤ maxFrame) → pushed calls = wire payloads ++ trailing →
    (Rounds.after Conn.next {} calls).frames <+: payloads := by
  intro claim
  have extra := claim [] [0, 0, 0, 0] [.push [0, 0, 0, 0], .nextFrame] (fun p unfinished => nomatch unfinished) rfl
  revert extra
  decide

end K2.Ptyd
