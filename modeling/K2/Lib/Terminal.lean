import Mathlib.Data.List.Chain
import Mathlib.Tactic.Common

/-! # Terminals that read UTF-8

Terminals differ in what they draw and in how many replacement characters they
put in place of malformed bytes. What opens a string (OSC, DCS, SOS, PM, APC) is
the same in all of them: a C1 character, or an escape and an introducer with
nothing but control characters in between. -/

namespace Terminal

abbrev esc : Char := Char.ofNat 0x1B

/-- `]`, `P`, `X`, `^` and `_`. -/
def introducers : List Char := [']', 'P', 'X', '^', '_']

/-- DCS, SOS, OSC, PM and APC as characters of their own. -/
def c1Introducers : List Char := [0x90, 0x98, 0x9D, 0x9E, 0x9F].map Char.ofNat

def IsC0 (c : Char) : Prop := c.toNat < 0x20

def IsC1 (c : Char) : Prop := 0x80 ≤ c.toNat ∧ c.toNat ≤ 0x9F

def IsContinuation (b : UInt8) : Prop := 0x80 ≤ b ∧ b ≤ 0xBF

/-- What decoders may make of some bytes. A malformed byte becomes a replacement
    character, alone or with continuation bytes after it. -/
inductive Decodes : List UInt8 → List Char → Prop where
  | nil : Decodes [] []
  | char (c : Char) {rest : List UInt8} {cs : List Char} :
      Decodes rest cs → Decodes (String.utf8EncodeChar c ++ rest) (c :: cs)
  | malformed (b : UInt8) (more : List UInt8) {rest : List UInt8} {cs : List Char} :
      (∀ x ∈ more, IsContinuation x) →
      (∀ c tail, b :: more ++ rest ≠ String.utf8EncodeChar c ++ tail) →
      Decodes rest cs → Decodes (b :: more ++ rest) (Char.ofNat 0xFFFD :: cs)

/-- A conforming parser of decoded characters. -/
structure Parser where
  State : Type
  start : State
  next : State → Char → State
  InString : State → Prop
  /-- An escape was read, and since then nothing but control characters. -/
  Escaped : State → Prop
  idle : ¬InString start ∧ ¬Escaped start
  /-- An escape starts a sequence over, whatever the parser was in. -/
  restarts : ∀ s, Escaped (next s esc) ∧ ¬InString (next s esc)
  escapes : ∀ s c, Escaped (next s c) → c = esc ∨ Escaped s ∧ IsC0 c
  strings : ∀ s c, ¬InString s → InString (next s c) → Escaped s ∧ c ∈ introducers ∨ c ∈ c1Introducers

namespace Parser

def run (T : Parser) (cs : List Char) : T.State := cs.foldl T.next T.start

/-- What may follow in a text that opens no string. -/
def Quiet (a b : Char) : Prop := a = esc → ¬IsC0 b ∧ b ∉ introducers

theorem isC1_of_introducer {c : Char} (mem : c ∈ c1Introducers) : IsC1 c := by
  have all : c1Introducers.all fun d => 0x80 ≤ d.toNat ∧ d.toNat ≤ 0x9F := by decide
  exact (of_decide_eq_true (List.all_eq_true.mp all c mem) : 0x80 ≤ c.toNat ∧ c.toNat ≤ 0x9F)

theorem run_quiet (T : Parser) (cs : List Char) (noC1 : ∀ c ∈ cs, ¬IsC1 c) (quiet : cs.IsChain Quiet) :
    ¬T.InString (T.run cs) ∧ (T.Escaped (T.run cs) → cs.getLast? = some esc) := by
  induction cs using List.reverseRecOn with
  | nil => exact ⟨T.idle.1, fun escaped => absurd escaped T.idle.2⟩
  | append_singleton cs c ih =>
      rw [List.isChain_append] at quiet
      obtain ⟨before, -, joint⟩ := quiet
      obtain ⟨outside, last⟩ := ih (fun d mem => noC1 d (List.mem_append_left _ mem)) before
      have after (escaped : T.Escaped (T.run cs)) : ¬IsC0 c ∧ c ∉ introducers :=
        joint esc (last escaped) c rfl rfl
      have step : T.run (cs ++ [c]) = T.next (T.run cs) c := List.foldl_concat ..
      rw [step, List.getLast?_concat]
      refine ⟨fun inside => ?_, fun escaped => ?_⟩
      · rcases T.strings _ _ outside inside with ⟨escaped, introducing⟩ | direct
        · exact (after escaped).2 introducing
        · exact noC1 c (List.mem_append_right _ (List.mem_singleton_self c)) (isC1_of_introducer direct)
      · rcases T.escapes _ _ escaped with same | ⟨escaped, control⟩
        · rw [same]
        · exact absurd control (after escaped).1

end Parser

/-! ## A parser -/

instance : DecidablePred IsC0 := fun c => inferInstanceAs (Decidable (c.toNat < 0x20))

inductive VtState where
  | ground
  | escape
  | intermediate
  | csi
  | string
  deriving Repr, DecidableEq

namespace VtState

def next (s : VtState) (c : Char) : VtState :=
  if c = esc then .escape
  else if c ∈ c1Introducers then .string
  else if c.toNat = 0x9B then .csi
  else
    match s with
    | .ground => .ground
    | .escape =>
        if IsC0 c then .escape
        else if c ∈ introducers then .string
        else if c = '[' then .csi
        else if c.toNat ≤ 0x2F then .intermediate
        else .ground
    | .intermediate => if 0x30 ≤ c.toNat ∧ c.toNat ≤ 0x7E then .ground else .intermediate
    | .csi => if 0x40 ≤ c.toNat ∧ c.toNat ≤ 0x7E then .ground else .csi
    | .string => if c.toNat = 0x9C ∨ c.toNat = 0x07 then .ground else .string

end VtState

/-- The states a VT terminal goes through, without what it draws. -/
def vt : Parser where
  State := VtState
  start := .ground
  next := VtState.next
  InString s := s = .string
  Escaped s := s = .escape
  idle := ⟨by decide, by decide⟩
  restarts s := by
    have overrun : s.next esc = .escape := if_pos rfl
    rw [overrun]
    exact ⟨rfl, by decide⟩
  escapes s c escaped := by
    unfold VtState.next at escaped
    cases s <;> grind
  strings s c outside inside := by
    unfold VtState.next at inside
    cases s <;> grind

/-! ## From bytes to characters -/

/-- What may follow a byte in an output that opens no string and spells no C1
    character. -/
def Calm (a b : UInt8) : Prop :=
  (a = 0xC2 → ¬(0x80 ≤ b ∧ b ≤ 0x9F)) ∧
    (a = 0x1B → 0x20 ≤ b ∧ b ≤ 0x7E ∧ b ∉ [(0x5D : UInt8), 0x50, 0x58, 0x5E, 0x5F])

/-- A character whose encoding starts in ASCII is that byte. -/
theorem toNat_of_head {c : Char} {x : UInt8} {tail : List UInt8} (encoded : String.utf8EncodeChar c = x :: tail)
    (ascii : x < 0x80) : c.toNat = x.toNat := by
  have low : x.toNat < 128 := ascii
  unfold String.utf8EncodeChar at encoded
  dsimp only at encoded
  split at encoded
  next small =>
    obtain ⟨rfl, -⟩ := List.cons.inj encoded
    rw [UInt8.toNat_ofNat']
    show c.val.toNat = _
    omega
  next =>
    exfalso
    split at encoded
    · obtain ⟨rfl, -⟩ := List.cons.inj encoded
      rw [UInt8.toNat_ofNat'] at low
      omega
    · split at encoded
      · obtain ⟨rfl, -⟩ := List.cons.inj encoded
        rw [UInt8.toNat_ofNat'] at low
        omega
      · obtain ⟨rfl, -⟩ := List.cons.inj encoded
        rw [UInt8.toNat_ofNat'] at low
        omega

theorem encode_ascii {c : Char} (ascii : c.toNat < 0x80) : String.utf8EncodeChar c = [UInt8.ofNat c.toNat] := by
  have small : c.val.toNat ≤ 0x7f := Nat.le_of_lt_succ ascii
  rw [String.utf8EncodeChar, if_pos small]
  rfl

/-- A C1 character is two bytes, the first of them 0xC2. -/
theorem encode_c1 {c : Char} (c1 : IsC1 c) :
    ∃ b : UInt8, String.utf8EncodeChar c = [0xC2, b] ∧ 0x80 ≤ b ∧ b ≤ 0x9F := by
  obtain ⟨low, high⟩ := c1
  have low' : 0x80 ≤ c.val.toNat := low
  have high' : c.val.toNat ≤ 0x9F := high
  have first : c.val.toNat / 64 % 0x20 + 0xc0 = 0xC2 := by omega
  have second : c.val.toNat % 0x40 + 0x80 = c.val.toNat := by omega
  refine ⟨UInt8.ofNat c.val.toNat, ?_, ?_, ?_⟩
  · rw [String.utf8EncodeChar, if_neg (by omega), if_pos (by omega), first, second]
    rfl
  · rw [UInt8.le_iff_toNat_le, UInt8.toNat_ofNat']
    show 128 ≤ _
    omega
  · rw [UInt8.le_iff_toNat_le, UInt8.toNat_ofNat']
    show _ ≤ 159
    omega

theorem introducer_byte {c : Char} (mem : c ∈ introducers) :
    UInt8.ofNat c.toNat ∈ [(0x5D : UInt8), 0x50, 0x58, 0x5E, 0x5F] := by
  have all : introducers.all fun d => UInt8.ofNat d.toNat ∈ [(0x5D : UInt8), 0x50, 0x58, 0x5E, 0x5F] := by decide
  exact of_decide_eq_true (List.all_eq_true.mp all c mem)

/-- What may follow an escape byte decodes to what may follow an escape. -/
theorem quiet_of_calm {rest : List UInt8} {d : Char} {cs : List Char} (decoded : Decodes rest (d :: cs))
    (calm : ∀ y ∈ rest.head?, Calm 0x1B y) : ¬IsC0 d ∧ d ∉ introducers := by
  cases decoded with
  | char _ rest =>
      obtain ⟨x, tail, encoded⟩ := List.exists_cons_of_ne_nil (String.utf8EncodeChar_ne_nil (c := d))
      rw [encoded] at calm
      obtain ⟨low, high, plain⟩ := (calm x rfl).2 rfl
      have high' : x.toNat ≤ 0x7E := high
      have low' : 0x20 ≤ x.toNat := low
      have same := toNat_of_head encoded (by rw [UInt8.lt_iff_toNat_lt]; show x.toNat < 128; omega)
      refine ⟨fun control => ?_, fun mem => ?_⟩
      · have : d.toNat < 0x20 := control
        omega
      · have byte := introducer_byte mem
        rw [same, UInt8.ofNat_toNat] at byte
        exact plain byte
  | malformed b more _ _ rest => exact ⟨by show ¬(0xFFFD : Nat) < 0x20; decide, by decide⟩

/-- Calm bytes decode to a text that opens no string. -/
theorem Decodes.quiet {bs : List UInt8} {cs : List Char} (decoded : Decodes bs cs) (calm : bs.IsChain Calm) :
    (∀ c ∈ cs, ¬IsC1 c) ∧ cs.IsChain Parser.Quiet := by
  induction decoded with
  | nil => exact ⟨fun c mem => absurd mem (List.not_mem_nil), List.IsChain.nil⟩
  | @char c rest cs later ih =>
      rw [List.isChain_append] at calm
      obtain ⟨inner, after, joint⟩ := calm
      obtain ⟨noC1, quiet⟩ := ih after
      refine ⟨fun d mem => ?_, ?_⟩
      · rcases List.mem_cons.mp mem with rfl | later
        · intro c1
          obtain ⟨b, encoded, low, high⟩ := encode_c1 c1
          rw [encoded, List.isChain_pair] at inner
          exact inner.1 rfl ⟨low, high⟩
        · exact noC1 d later
      · match cs, later, quiet with
        | [], _, _ => exact List.IsChain.singleton c
        | d :: cs, later, quiet =>
            refine List.IsChain.cons_cons (fun same => ?_) quiet
            subst same
            refine quiet_of_calm later fun y mem => joint 0x1B ?_ y mem
            rw [encode_ascii (by decide)]
            rfl
  | @malformed b more rest cs _ _ later ih =>
      rw [List.isChain_append] at calm
      obtain ⟨noC1, quiet⟩ := ih calm.2.1
      have plain : ¬IsC1 (Char.ofNat 0xFFFD) := by
        show ¬(0x80 ≤ (0xFFFD : Nat) ∧ (0xFFFD : Nat) ≤ 0x9F)
        decide
      refine ⟨fun d mem => ?_, ?_⟩
      · rcases List.mem_cons.mp mem with rfl | later
        · exact plain
        · exact noC1 d later
      · match cs, quiet with
        | [], _ => exact List.IsChain.singleton _
        | d :: cs, quiet => exact List.IsChain.cons_cons (fun same => absurd same (by decide)) quiet

/-- Whatever a terminal decodes from calm bytes, it is never inside a string. -/
theorem Parser.calm_run (T : Parser) {bs : List UInt8} {cs : List Char} (decoded : Decodes bs cs)
    (calm : bs.IsChain Calm) : (∀ c ∈ cs, ¬IsC1 c) ∧ ¬T.InString (T.run cs) := by
  obtain ⟨noC1, quiet⟩ := decoded.quiet calm
  exact ⟨noC1, (T.run_quiet cs noC1 quiet).1⟩

end Terminal
