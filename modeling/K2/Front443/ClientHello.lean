import K2.Lib.Machines
import K2.Text

/-! # The ClientHello peek

Reads the server name out of the first TLS records of a connection, from scratch
on every call. A read outside the buffer panics; a loop that does not end runs
out of fuel, which is the same here. -/

namespace K2.Front443

def MAX_HELLO_BYTES : Nat := 16 * 1024

def MAX_RECORD : Nat := 16 * 1024

def CONTENT_HANDSHAKE : UInt8 := 0x16

def HANDSHAKE_CLIENT_HELLO : UInt8 := 0x01

def EXT_SERVER_NAME : Nat := 0x0000

def EXT_ALPN : Nat := 0x0010

/-- `u16::fromBeBytes`. -/
def fromBeBytes (hi lo : UInt8) : Nat := hi.toNat * 256 + lo.toNat

/-- `&bytes[i..j]`, or a panic. -/
def slice (bytes : List UInt8) (i j : Nat) : Option (List UInt8) :=
  if i ≤ j ∧ j ≤ bytes.length then some ((bytes.drop i).take (j - i)) else none

/-! ## Texts -/

def dot : UInt8 := 0x2E

def isLabelByte (b : UInt8) : Bool :=
  (0x30 ≤ b ∧ b ≤ 0x39) ∨ (0x41 ≤ b ∧ b ≤ 0x5A) ∨ (0x61 ≤ b ∧ b ≤ 0x7A) ∨ b = 0x2D ∨ b = 0x5F

/-- The labels are split at the byte of the dot, which is no part of another
    character. -/
def hostName (b : List UInt8) : Option String :=
  if b.isEmpty ∨ 253 < b.length then none
  else
    (fromUtf8 b).bind fun s =>
      if (b.splitOn dot).all fun label => !label.isEmpty && label.length ≤ 63 && label.all isLabelByte then
        some (Text.toAsciiLowercase s)
      else none

/-! ## The body -/

inductive Fault
  | panic
  | bad (why : String)
deriving DecidableEq, Repr

/-- A bounds-checked reader over the ClientHello body. -/
structure Cur where
  b : List UInt8
  pos : Nat

abbrev Reading := StateT Cur (Except Fault)

namespace Reading

def bad {α : Type} (why : String) : Reading α := fun _ => .error (.bad why)

/-- `b.len() - at` panics below zero, and so does a slice past the end. -/
def take (n : Nat) : Reading (List UInt8) := fun c =>
  if c.b.length < c.pos then .error .panic
  else if c.b.length - c.pos < n then .error (.bad "truncated ClientHello")
  else
    match slice c.b c.pos (c.pos + n) with
    | some s => .ok (s, { c with pos := c.pos + n })
    | none => .error .panic

def u8 : Reading UInt8 := do
  match ← take 1 with
  | [b] => pure b
  | _ => fun _ => .error .panic

def u16 : Reading Nat := do
  match ← take 2 with
  | [hi, lo] => pure (fromBeBytes hi lo)
  | _ => fun _ => .error .panic

def rest : Reading Nat := fun c => if c.b.length < c.pos then .error .panic else .ok (c.b.length - c.pos, c)

/-- `while c.rest() > 0`. -/
def whileRest {α : Type} (body : α → Reading α) : Nat → α → Reading α
  | 0, _ => fun _ => .error .panic
  | fuel + 1, acc => do
    let left ← rest
    if left = 0 then pure acc
    else do
      let acc ← body acc
      whileRest body fuel acc

def run {α : Type} (r : Reading α) (data : List UInt8) : Except Fault α := (r { b := data, pos := 0 }).map Prod.fst

/-- Another reader's result, inside this one. -/
def lift {α : Type} (result : Except Fault α) : Reading α := fun c => result.map fun a => (a, c)

end Reading

open Reading

/-- One entry of the server name list. -/
def serverNameEntry (host : Option String) : Reading (Option String) := do
  let kind ← u8
  let len ← u16
  let name ← take len
  if kind ≠ 0 then pure host
  else if host.isSome then bad "two host names"
  else
    match hostName name with
    | some s => pure (some s)
    | none => bad "invalid server name"

def parseServerName (data : List UInt8) : Except Fault (Option String) :=
  run (do
    let list ← u16
    let left ← rest
    if list ≠ left ∨ list = 0 then bad "server_name list length"
    else whileRest serverNameEntry (data.length + 1) none) data

def alpnEntry (out : List String) : Reading (List String) := do
  let len ← u8
  if len = 0 then bad "empty ALPN name"
  else do
    let p ← take len.toNat
    pure (out ++ [fromUtf8Lossy p])

def parseAlpn (data : List UInt8) : Except Fault (List String) :=
  run (do
    let list ← u16
    let left ← rest
    if list ≠ left ∨ list = 0 then bad "ALPN list length"
    else whileRest alpnEntry (data.length + 1) []) data

structure Parsed where
  sni : Option String
  alpn : List String
deriving DecidableEq, Repr

/-- The extensions read so far. -/
structure Extensions where
  seen : List Nat
  found : Parsed

def extension (e : Extensions) : Reading Extensions := do
  let ty ← u16
  let len ← u16
  let data ← take len
  if ty ∈ e.seen then bad "repeated extension"
  else if ty = EXT_SERVER_NAME then do
    let sni ← lift (parseServerName data)
    pure ⟨ty :: e.seen, { e.found with sni := sni }⟩
  else if ty = EXT_ALPN then do
    let alpn ← lift (parseAlpn data)
    pure ⟨ty :: e.seen, { e.found with alpn := alpn }⟩
  else pure ⟨ty :: e.seen, e.found⟩

def parseExtensions (fuel : Nat) : Reading Parsed := do
  let extLen ← u16
  let left ← rest
  if extLen ≠ left then bad "extensions length"
  else do
    let e ← whileRest extension fuel ⟨[], ⟨none, []⟩⟩
    pure e.found

def parseSuites (fuel : Nat) : Reading Parsed := do
  let suites ← u16
  if suites < 2 ∨ suites % 2 ≠ 0 then bad "cipher suites"
  else do
    let _ ← take suites
    let comp ← u8
    if comp.toNat < 1 then bad "compression methods"
    else do
      let _ ← take comp.toNat
      let left ← rest
      if left = 0 then pure ⟨none, []⟩ else parseExtensions fuel

def parseBody (body : List UInt8) : Except Fault Parsed :=
  run (do
    let legacyVersion ← u16
    if ¬(0x0300 ≤ legacyVersion ∧ legacyVersion ≤ 0x0304) then bad "ClientHello version"
    else do
      let _ ← take 32
      let sid ← u8
      if 32 < sid.toNat then bad "session id longer than 32"
      else do
        let _ ← take sid.toNat
        parseSuites (body.length + 1)) body

/-! ## The records -/

structure Hello where
  sni : Option String
  alpn : List String
  consumed : Nat
  records : Nat
deriving DecidableEq, Repr

inductive Peek
  | NeedMore
  | Done (hello : Hello)
  | NotTls
  | Bad (why : String)
deriving DecidableEq, Repr

def moreOrCap (need : Nat) : Peek :=
  if MAX_HELLO_BYTES < need then .Bad "ClientHello larger than the front reads" else .NeedMore

/-- A record's payload and its end, or the verdict that ends the loop. -/
inductive Record
  | stop (verdict : Peek)
  | part (bytes : List UInt8) (next : Nat)

/-- What is wrong with a record header at `pos`, if anything. -/
def headerError (pos : Nat) (h0 h1 h2 h3 h4 : UInt8) : Option String :=
  if h0 ≠ CONTENT_HANDSHAKE then some "a non-handshake record before the ClientHello completed"
  else if h1 ≠ 0x03 ∨ 0x04 < h2 then some "record version"
  else if fromBeBytes h3 h4 = 0 then some "empty handshake record"
  else if MAX_RECORD < fromBeBytes h3 h4 then some "record longer than 2^14"
  else if MAX_HELLO_BYTES < pos + 5 + fromBeBytes h3 h4 then some "ClientHello larger than the front reads"
  else none

/-- The payload of a record that ends at `next`, once it is there. -/
def readPayload (buf : List UInt8) (pos next : Nat) : Option Record :=
  if buf.length < next then some (.stop .NeedMore)
  else (slice buf (pos + 5) next).map fun bytes => .part bytes next

/-- The record at `pos`. -/
def readRecord (buf : List UInt8) (pos : Nat) : Option Record :=
  if buf.length < pos + 5 then some (.stop (moreOrCap (pos + 5)))
  else
    match slice buf pos (pos + 5) with
    | some [h0, h1, h2, h3, h4] =>
      match headerError pos h0 h1 h2 h3 h4 with
      | some why => some (.stop (.Bad why))
      | none => readPayload buf pos (pos + 5 + fromBeBytes h3 h4)
    | _ => none

/-- What the handshake bytes so far come to: more are needed, a ClientHello, or a
    reason against one. -/
inductive Message
  | more
  | hello (parsed : Parsed)
  | bad (why : String)
deriving DecidableEq, Repr

/-- The length of a handshake message, its header included. -/
def messageLength (l1 l2 l3 : UInt8) : Nat := 4 + (l1.toNat * 65536 + l2.toNat * 256 + l3.toNat)

/-- What a body comes to. -/
def bodyMessage : Except Fault Parsed → Option Message
  | .ok parsed => some (.hello parsed)
  | .error (.bad why) => some (.bad why)
  | .error .panic => none

def readHello (hs : List UInt8) : Option Message :=
  match hs with
  | kind :: l1 :: l2 :: l3 :: _ =>
    if kind ≠ HANDSHAKE_CLIENT_HELLO then some (.bad "first handshake message is not a ClientHello")
    else if MAX_HELLO_BYTES < messageLength l1 l2 l3 then some (.bad "ClientHello larger than the front reads")
    else if hs.length < messageLength l1 l2 l3 then some .more
    else (slice hs 4 (messageLength l1 l2 l3)).bind fun body => bodyMessage (parseBody body)
  | _ => some .more

/-- The verdict on what was read up to `consumed`, unless more is needed. -/
def Message.verdict (consumed records : Nat) : Message → Option Peek
  | .more => none
  | .hello parsed => some (.Done ⟨parsed.sni, parsed.alpn, consumed, records⟩)
  | .bad why => some (.Bad why)

def peekLoop : Nat → List UInt8 → Nat → Nat → List UInt8 → Option Peek
  | 0, _, _, _, _ => none
  | fuel + 1, buf, pos, records, hs =>
    (readRecord buf pos).bind fun
      | .stop verdict => some verdict
      | .part bytes next => (readHello (hs ++ bytes)).bind fun message =>
        (message.verdict next (records + 1)).elim (peekLoop fuel buf next (records + 1) (hs ++ bytes)) some

def peek (buf : List UInt8) : Option Peek :=
  match buf with
  | [] => some .NeedMore
  | first :: _ => if first ≠ CONTENT_HANDSHAKE then some .NotTls else peekLoop (buf.length + 1) buf 0 0 []

end K2.Front443
