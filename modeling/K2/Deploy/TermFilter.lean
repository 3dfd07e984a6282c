import K2.Lib.Machines
import K2.Lib.Terminal

/-! # The interactive shell's output filter

What an App's shell prints reaches a person's terminal through this filter. It
keeps what a terminal needs to draw and drops every string sequence and every C1
control, across chunk boundaries. -/

namespace K2.Deploy

inductive TermSt where
  | ground
  | esc
  | csi
  /-- Saw 0xC2 (a possible UTF-8 C1 control). -/
  | c2
  | str
  | strEsc
  | strC2
  deriving Repr, DecidableEq

/-- Longest CSI kept; longest string sequence swallowed before giving up on it. -/
def CSI_CAP : Nat := 64
def STR_CAP : Nat := 64 * 1024

structure TermFilter where
  st : TermSt := .ground
  /-- UTF-8 continuation bytes still expected. -/
  cont : Nat := 0
  /-- Bytes in the current CSI or string (both are capped). -/
  len : Nat := 0
  deriving Repr, DecidableEq

namespace TermFilter

/-- What a lead byte says of the bytes after it; `none` is no lead byte. -/
def leads (b : UInt8) : Option Nat :=
  if 0xC3 ≤ b ∧ b ≤ 0xDF then some 1
  else if 0xE0 ≤ b ∧ b ≤ 0xEF then some 2
  else if 0xF0 ≤ b ∧ b ≤ 0xF4 then some 3
  else none

def ground (f : TermFilter) (b : UInt8) : TermFilter × List UInt8 :=
  if f.cont > 0 ∧ 0x80 ≤ b ∧ b ≤ 0xBF then ({ f with cont := f.cont - 1 }, [b])
  else
    let f := { f with cont := 0 }
    if b = 0x1B then ({ f with st := .esc }, [])
    else if b = 0xC2 then ({ f with st := .c2 }, [])
    -- A stray C1 byte (not inside a UTF-8 character).
    else if 0x80 ≤ b ∧ b ≤ 0x9F then (f, [])
    else
      match leads b with
      | some more => ({ f with cont := more }, [b])
      | none => (f, [b])

def afterEsc (f : TermFilter) (b : UInt8) : TermFilter × List UInt8 :=
  if b ∈ [(0x5D : UInt8), 0x50, 0x58, 0x5E, 0x5F] then ({ f with st := .str, len := 0 }, [])
  else if b = 0x5B then ({ f with st := .csi, len := 0 }, [0x1B, 0x5B])
  -- ESC ESC: the first one is dropped, keep looking.
  else if b = 0x1B then (f, [])
  else if 0x20 ≤ b ∧ b ≤ 0x7E then ({ f with st := .ground }, [0x1B, b])
  else ({ f with st := .ground }, [])

def inCsi (f : TermFilter) (b : UInt8) : TermFilter × List UInt8 :=
  let f := { f with len := f.len + 1 }
  if (0x20 ≤ b ∧ b ≤ 0x3F) ∧ f.len < CSI_CAP then (f, [b])
  else if 0x40 ≤ b ∧ b ≤ 0x7E then ({ f with st := .ground }, [b])
  -- Not a CSI byte, or far too long: a harmless final ends it.
  else ({ f with st := .ground }, [0x6D])

def afterC2 (f : TermFilter) (b : UInt8) : TermFilter × List UInt8 :=
  if b ∈ [(0x90 : UInt8), 0x98, 0x9D, 0x9E, 0x9F] then ({ f with st := .str, len := 0 }, [])
  else if b = 0x9B then ({ f with st := .csi, len := 0 }, [0x1B, 0x5B])
  else if 0x80 ≤ b ∧ b ≤ 0x9F then ({ f with st := .ground }, [])
  else if 0xA0 ≤ b ∧ b ≤ 0xBF then ({ f with st := .ground }, [0xC2, b])
  -- Not a character after all: the byte is read again.
  else ground { f with st := .ground } b

def inStr (f : TermFilter) (b : UInt8) : TermFilter :=
  let f := { f with len := f.len + 1 }
  if b = 0x07 ∨ f.st = .strEsc ∧ b = 0x5C ∨ f.st = .strC2 ∧ b = 0x9C ∨ f.len > STR_CAP then { f with st := .ground }
  else if b = 0x1B then { f with st := .strEsc }
  else if b = 0xC2 then { f with st := .strC2 }
  else { f with st := .str }

def byte (f : TermFilter) (b : UInt8) : TermFilter × List UInt8 :=
  match f.st with
  | .ground => f.ground b
  | .esc => f.afterEsc b
  | .csi => f.inCsi b
  | .c2 => f.afterC2 b
  | .str | .strEsc | .strC2 => (f.inStr b, [])

def machine : Mealy TermFilter UInt8 UInt8 := { step := byte }

/-- One call: the filter after it, and what it returns. -/
def push (f : TermFilter) (input : List UInt8) : TermFilter × List UInt8 := machine.run f input

/-- Everything a new filter returns for a stream handed over in parts. -/
def output (parts : List (List UInt8)) : List UInt8 := (machine.runParts {} parts).2

theorem output_eq (parts : List (List UInt8)) : output parts = (push {} parts.flatten).2 := by
  rw [output, Mealy.runParts_eq]
  rfl

/-! ## Nothing kept opens a string -/

/-- Bytes that are calm and leave no sequence open. -/
structure Closed (bs : List UInt8) : Prop where
  calm : bs.IsChain Terminal.Calm
  last : ∀ b ∈ bs.getLast?, b ≠ 0xC2 ∧ b ≠ 0x1B

theorem closed_nil : Closed [] := ⟨List.IsChain.nil, fun _ none => by cases none⟩

theorem closed_one {b : UInt8} (plain : b ≠ 0xC2 ∧ b ≠ 0x1B) : Closed [b] :=
  ⟨List.IsChain.singleton b, fun x last => by rw [List.getLast?_singleton, Option.mem_some_iff] at last; exact last ▸ plain⟩

theorem closed_two {a b : UInt8} (calm : Terminal.Calm a b) (plain : b ≠ 0xC2 ∧ b ≠ 0x1B) : Closed [a, b] :=
  ⟨List.isChain_pair.mpr calm, fun x last => by
    rw [List.getLast?_cons_cons, List.getLast?_singleton, Option.mem_some_iff] at last
    exact last ▸ plain⟩

theorem closed_append {a b : List UInt8} (first : Closed a) (second : Closed b) : Closed (a ++ b) := by
  refine ⟨first.calm.append second.calm fun x last y _ => ?_, fun x last => ?_⟩
  · have plain := first.last x last
    exact ⟨fun same => absurd same plain.1, fun same => absurd same plain.2⟩
  · rcases List.eq_nil_or_concat' b with rfl | ⟨before, y, rfl⟩
    · rw [List.append_nil] at last
      exact first.last x last
    · rw [← List.append_assoc, List.getLast?_concat] at last
      exact second.last x (by rw [List.getLast?_concat]; exact last)

theorem closed_ground (f : TermFilter) (b : UInt8) : Closed (f.ground b).2 := by
  unfold ground
  dsimp only
  split
  next inner =>
    refine closed_one ⟨fun same => ?_, fun same => ?_⟩
    · subst same
      exact absurd inner.2.2 (by decide)
    · subst same
      exact absurd inner.2.1 (by decide)
  split
  next => exact closed_nil
  next notEsc =>
    split
    next => exact closed_nil
    next notC2 =>
      split
      next => exact closed_nil
      next => split <;> exact closed_one ⟨notC2, notEsc⟩

theorem closed_byte (f : TermFilter) (b : UInt8) : Closed (f.byte b).2 := by
  have escape {x : UInt8} (low : 0x20 ≤ x) (high : x ≤ 0x7E) (plain : x ∉ [(0x5D : UInt8), 0x50, 0x58, 0x5E, 0x5F]) :
      Closed [0x1B, x] := by
    refine closed_two ⟨fun same => absurd same (by decide), fun _ => ⟨low, high, plain⟩⟩
      ⟨fun same => ?_, fun same => ?_⟩
    · subst same
      exact absurd high (by decide)
    · subst same
      exact absurd low (by decide)
  have csi : Closed [0x1B, 0x5B] := escape (by decide) (by decide) (by decide)
  unfold byte
  split
  · exact closed_ground f b
  · unfold afterEsc
    split
    · exact closed_nil
    next plain =>
      split
      · exact csi
      split
      · exact closed_nil
      split
      next drawn => exact escape drawn.1 drawn.2 plain
      next => exact closed_nil
  · unfold inCsi
    dsimp only
    split
    next param =>
      refine closed_one ⟨fun same => ?_, fun same => ?_⟩
      · subst same
        exact absurd param.1.2 (by decide)
      · subst same
        exact absurd param.1.1 (by decide)
    split
    next final =>
      refine closed_one ⟨fun same => ?_, fun same => ?_⟩
      · subst same
        exact absurd final.2 (by decide)
      · subst same
        exact absurd final.1 (by decide)
    next => exact closed_one (by decide)
  · unfold afterC2
    split
    · exact closed_nil
    split
    · exact csi
    split
    · exact closed_nil
    split
    next high =>
      refine closed_two ⟨fun _ c1 => ?_, fun same => absurd same (by decide)⟩ ⟨fun same => ?_, fun same => ?_⟩
      · exact absurd (UInt8.le_trans high.1 c1.2) (by decide)
      · subst same
        exact absurd high.2 (by decide)
      · subst same
        exact absurd high.1 (by decide)
    next => exact closed_ground _ b
  all_goals exact closed_nil

theorem closed_push (f : TermFilter) (input : List UInt8) : Closed (f.push input).2 := by
  induction input generalizing f with
  | nil => exact closed_nil
  | cons b rest ih => exact closed_append (closed_byte f b) (ih _)

/-! ## What draws passes unchanged -/

/-- A character of text, a complete CSI sequence or a two-byte escape. -/
inductive Drawing : List UInt8 → Prop where
  | text (c : Char) : c ≠ Terminal.esc → ¬Terminal.IsC1 c → Drawing (String.utf8EncodeChar c)
  | csi (params : List UInt8) (final : UInt8) : (∀ b ∈ params, 0x20 ≤ b ∧ b ≤ 0x3F) →
      0x40 ≤ final ∧ final ≤ 0x7E → params.length + 1 < CSI_CAP → Drawing (0x1B :: 0x5B :: params ++ [final])
  | escape (b : UInt8) : 0x20 ≤ b ∧ b ≤ 0x7E → b ∉ [(0x5D : UInt8), 0x50, 0x58, 0x5E, 0x5F] → b ≠ 0x5B →
      Drawing [0x1B, b]

/-- Between two sequences and two characters. -/
def AtRest (f : TermFilter) : Prop := f.st = .ground ∧ f.cont = 0

/-- The bytes go through, and what follows finds the filter at rest. -/
def Passes (f : TermFilter) (bs : List UInt8) : Prop := AtRest (f.push bs).1 ∧ (f.push bs).2 = bs

theorem push_cons (f : TermFilter) (b : UInt8) (rest : List UInt8) :
    f.push (b :: rest) = (((f.byte b).1.push rest).1, (f.byte b).2 ++ ((f.byte b).1.push rest).2) := rfl

theorem passes_append {f : TermFilter} {a b : List UInt8} (first : Passes f a) (second : Passes (f.push a).1 b) :
    Passes f (a ++ b) := by
  have both : f.push (a ++ b) = (((f.push a).1.push b).1, (f.push a).2 ++ ((f.push a).1.push b).2) :=
    Mealy.run_append machine f a b
  rw [Passes, both, first.2, second.2]
  exact ⟨second.1, rfl⟩

theorem passes_kept {f g : TermFilter} {b : UInt8} {rest : List UInt8} (kept : f.byte b = (g, [b]))
    (later : Passes g rest) : Passes f (b :: rest) := by
  rw [Passes, push_cons, kept, later.2]
  exact ⟨later.1, rfl⟩

theorem passes_pair {f g h : TermFilter} {a b : UInt8} (first : f.byte a = (g, [])) (second : g.byte b = (h, [a, b]))
    {rest : List UInt8} (later : Passes h rest) : Passes f (a :: b :: rest) := by
  rw [Passes, push_cons, first]
  dsimp only
  rw [push_cons, second, later.2]
  exact ⟨later.1, rfl⟩

theorem passes_nil {f : TermFilter} (rest : AtRest f) : Passes f [] := ⟨rest, rfl⟩

theorem byte_ground {f : TermFilter} (ground : f.st = .ground) (b : UInt8) : f.byte b = f.ground b := by
  rw [byte, ground]

theorem passes_continuations {f : TermFilter} (grounded : f.st = .ground) {bs : List UInt8} (count : f.cont = bs.length)
    (all : ∀ b ∈ bs, 0x80 ≤ b ∧ b ≤ 0xBF) : Passes f bs := by
  induction bs generalizing f with
  | nil => exact passes_nil ⟨grounded, count⟩
  | cons b rest ih =>
      have more : f.cont > 0 := by rw [count]; exact Nat.succ_pos _
      have kept : f.byte b = ({ f with cont := f.cont - 1 }, [b]) := by
        rw [byte_ground grounded]
        exact if_pos ⟨more, all b (List.mem_cons_self ..)⟩
      exact passes_kept kept (ih grounded (by show f.cont - 1 = _; rw [count]; rfl)
        fun x mem => all x (List.mem_cons_of_mem _ mem))

/-- A character's first byte, neither an escape nor 0xC2, and the bytes it leads. -/
theorem passes_lead {f : TermFilter} (rest : AtRest f) {b : UInt8} (notEsc : b ≠ 0x1B) (notC2 : b ≠ 0xC2)
    (notC1 : ¬(0x80 ≤ b ∧ b ≤ 0x9F)) {more : List UInt8} (count : (leads b).getD 0 = more.length)
    (all : ∀ b ∈ more, 0x80 ≤ b ∧ b ≤ 0xBF) : Passes f (b :: more) := by
  have none : ¬(f.cont > 0 ∧ 0x80 ≤ b ∧ b ≤ 0xBF) := by
    rw [rest.2]
    exact fun h => absurd h.1 (Nat.lt_irrefl 0)
  have kept : f.byte b = ({ f with cont := (leads b).getD 0 }, [b]) := by
    rw [byte_ground rest.1, ground, if_neg none]
    dsimp only
    rw [if_neg notEsc, if_neg notC2, if_neg notC1]
    cases leads b <;> rfl
  exact passes_kept kept (passes_continuations (f := { f with cont := (leads b).getD 0 }) rest.1 count all)

theorem between (lo hi : UInt8) {n : Nat} (low : lo.toNat ≤ n) (high : n ≤ hi.toNat) :
    lo ≤ UInt8.ofNat n ∧ UInt8.ofNat n ≤ hi := by
  have := hi.toNat_lt
  rw [UInt8.le_iff_toNat_le, UInt8.le_iff_toNat_le, UInt8.toNat_ofNat']
  omega

theorem continuation (n : Nat) : 0x80 ≤ UInt8.ofNat (n % 0x40 + 0x80) ∧ UInt8.ofNat (n % 0x40 + 0x80) ≤ 0xBF :=
  between 0x80 0xBF (by show 0x80 ≤ _; omega) (by show _ ≤ 0xBF; omega)

/-- A first byte above every C1 byte is no escape, no 0xC2 and leads what it says. -/
theorem passes_high {f : TermFilter} (rest : AtRest f) {n : Nat} (low : 0xC3 ≤ n) (high : n ≤ 0xF4) {more : List UInt8}
    (count : (leads (UInt8.ofNat n)).getD 0 = more.length) (all : ∀ b ∈ more, 0x80 ≤ b ∧ b ≤ 0xBF) :
    Passes f (UInt8.ofNat n :: more) := by
  have value : (UInt8.ofNat n).toNat = n := by
    rw [UInt8.toNat_ofNat']
    omega
  have ne {x : UInt8} (small : x.toNat < 0xC3) : UInt8.ofNat n ≠ x := by
    intro same
    rw [same] at value
    omega
  refine passes_lead rest (ne (by decide)) (ne (by decide)) (fun c1 => ?_) count all
  have : (UInt8.ofNat n).toNat ≤ 0x9F := c1.2
  omega

theorem passes_text {f : TermFilter} (rest : AtRest f) {c : Char} (notEsc : c ≠ Terminal.esc)
    (notC1 : ¬Terminal.IsC1 c) : Passes f (String.utf8EncodeChar c) := by
  have top : c.val.toNat < 0x110000 := by
    rcases c.valid with low | ⟨-, high⟩
    · exact Nat.lt_trans low (by decide)
    · exact high
  have escape : c.val.toNat ≠ 0x1B := fun same => notEsc (Char.ext (UInt32.toNat_inj.mp same))
  have c1 : ¬(0x80 ≤ c.val.toNat ∧ c.val.toNat ≤ 0x9F) := notC1
  unfold String.utf8EncodeChar
  dsimp only
  split
  next ascii =>
    have value : (UInt8.ofNat c.val.toNat).toNat = c.val.toNat := by
      rw [UInt8.toNat_ofNat']
      omega
    have ne {x : UInt8} (other : x.toNat ≠ c.val.toNat) : UInt8.ofNat c.val.toNat ≠ x := by
      intro same
      rw [same] at value
      exact other value
    have none : leads (UInt8.ofNat c.val.toNat) = none := by
      have le {x : UInt8} (big : 0x80 ≤ x.toNat) : ¬x ≤ UInt8.ofNat c.val.toNat := by
        rw [UInt8.le_iff_toNat_le]
        omega
      unfold leads
      rw [if_neg fun h => le (by decide) h.1, if_neg fun h => le (by decide) h.1, if_neg fun h => le (by decide) h.1]
    refine passes_lead rest (ne (by show 0x1B ≠ _; omega)) (ne (by show 0xC2 ≠ _; omega)) (fun h => ?_) (by rw [none]; rfl)
      fun _ mem => absurd mem List.not_mem_nil
    have : 0x80 ≤ (UInt8.ofNat c.val.toNat).toNat := h.1
    omega
  split
  next two =>
    by_cases latin : c.val.toNat < 0xC0
    · have first : c.val.toNat / 64 % 0x20 + 0xc0 = 0xC2 := by omega
      rw [first]
      have high := between 0xA0 0xBF (n := c.val.toNat % 0x40 + 0x80)
          (by show 0xA0 ≤ _; omega) (by show _ ≤ 0xBF; omega)
      have lead : f.byte 0xC2 = ({ f with cont := 0, st := .c2 }, []) := by
        rw [byte_ground rest.1, ground, if_neg (by rw [rest.2]; exact fun h => absurd h.1 (Nat.lt_irrefl 0))]
        rfl
      refine passes_pair lead (h := { f with cont := 0, st := .ground }) ?_ (passes_nil ⟨rfl, rfl⟩)
      show afterC2 _ _ = _
      have overrun {x : UInt8} (small : x < 0xA0) : UInt8.ofNat (c.val.toNat % 0x40 + 0x80) ≠ x := by
        rintro rfl
        exact absurd (UInt8.lt_of_lt_of_le small high.1) (UInt8.lt_irrefl _)
      unfold afterC2
      rw [if_neg, if_neg (overrun (by decide)), if_neg, if_pos high]
      · exact fun h => absurd (UInt8.le_trans high.1 h.2) (by decide)
      · simp only [List.mem_cons, List.not_mem_nil, or_false, not_or]
        exact ⟨overrun (by decide), overrun (by decide), overrun (by decide), overrun (by decide), overrun (by decide)⟩
    · have range := between 0xC3 0xDF (n := c.val.toNat / 64 % 0x20 + 0xc0)
          (by show 0xC3 ≤ _; omega) (by show _ ≤ 0xDF; omega)
      refine passes_high rest (by omega) (by omega) ?_ fun x mem => ?_
      · rw [leads, if_pos range]
        rfl
      · rw [List.mem_singleton.mp mem]
        exact continuation _
  split
  next three =>
    have range := between 0xE0 0xEF (n := c.val.toNat / 4096 % 0x10 + 0xe0)
          (by show 0xE0 ≤ _; omega) (by show _ ≤ 0xEF; omega)
    refine passes_high rest (by omega) (by omega) ?_ fun x mem => ?_
    · rw [leads, if_neg fun h => absurd (UInt8.le_trans range.1 h.2) (by decide), if_pos range]
      rfl
    · simp only [List.mem_cons, List.not_mem_nil, or_false] at mem
      rcases mem with rfl | rfl <;> exact continuation _
  next four =>
    have range := between 0xF0 0xF4 (n := c.val.toNat / 262144 % 0x08 + 0xf0)
          (by show 0xF0 ≤ _; omega) (by show _ ≤ 0xF4; omega)
    refine passes_high rest (by omega) (by omega) ?_ fun x mem => ?_
    · rw [leads, if_neg fun h => absurd (UInt8.le_trans range.1 h.2) (by decide),
        if_neg fun h => absurd (UInt8.le_trans range.1 h.2) (by decide), if_pos range]
      rfl
    · simp only [List.mem_cons, List.not_mem_nil, or_false] at mem
      rcases mem with rfl | rfl | rfl <;> exact continuation _

/-- The parameters of a CSI sequence short enough, and its final. -/
theorem passes_csi {f : TermFilter} (inside : f.st = .csi) (quiet : f.cont = 0) {params : List UInt8} {final : UInt8}
    (all : ∀ b ∈ params, 0x20 ≤ b ∧ b ≤ 0x3F) (ends : 0x40 ≤ final ∧ final ≤ 0x7E)
    (short : f.len + params.length + 1 < CSI_CAP) : Passes f (params ++ [final]) := by
  have state (g : TermFilter) (same : g.st = .csi) (b : UInt8) : g.byte b = g.inCsi b := by rw [byte, same]
  induction params generalizing f with
  | nil =>
      have kept : f.byte final = ({ f with len := f.len + 1, st := .ground }, [final]) := by
        rw [state f inside, inCsi]
        dsimp only
        rw [if_neg fun h => absurd (UInt8.le_trans ends.1 h.1.2) (by decide), if_pos ends]
      exact passes_kept kept (passes_nil ⟨rfl, quiet⟩)
  | cons b rest ih =>
      rw [List.length_cons] at short
      have kept : f.byte b = ({ f with len := f.len + 1 }, [b]) := by
        rw [state f inside, inCsi]
        dsimp only
        rw [if_pos ⟨all b (List.mem_cons_self ..), by omega⟩]
      exact passes_kept kept (ih inside quiet (fun x mem => all x (List.mem_cons_of_mem _ mem))
        (by show f.len + 1 + rest.length + 1 < _; omega))

theorem byte_esc {f : TermFilter} (rest : AtRest f) : f.byte 0x1B = ({ f with cont := 0, st := .esc }, []) := by
  rw [byte_ground rest.1, ground, if_neg (by rw [rest.2]; exact fun h => absurd h.1 (Nat.lt_irrefl 0))]
  rfl

theorem passes_drawing {f : TermFilter} (rest : AtRest f) {bs : List UInt8} (drawing : Drawing bs) : Passes f bs := by
  cases drawing with
  | text c notEsc notC1 => exact passes_text rest notEsc notC1
  | csi params final all ends short =>
      refine passes_pair (byte_esc rest) (h := { f with cont := 0, st := .csi, len := 0 }) rfl ?_
      exact passes_csi rfl rfl all ends (by show 0 + params.length + 1 < _; omega)
  | escape b drawn plain notCsi =>
      refine passes_pair (byte_esc rest) (h := { f with cont := 0, st := .ground }) ?_ (passes_nil ⟨rfl, rfl⟩)
      show afterEsc _ _ = _
      rw [afterEsc, if_neg plain, if_neg notCsi, if_neg, if_pos drawn]
      rintro rfl
      exact absurd drawn.1 (by decide)

theorem passes_drawings {f : TermFilter} (rest : AtRest f) {pieces : List (List UInt8)} (all : ∀ bs ∈ pieces, Drawing bs) :
    Passes f pieces.flatten := by
  induction pieces generalizing f with
  | nil => exact passes_nil rest
  | cons bs later ih =>
      have first := passes_drawing rest (all bs (List.mem_cons_self ..))
      exact passes_append first (ih first.1 fun x mem => all x (List.mem_cons_of_mem _ mem))

/-- An App's output draws, however it is cut, and never commands the terminal. -/
theorem output_draws_only (parts : List (List UInt8)) :
    output parts = (push {} parts.flatten).2 ∧
      (∀ (T : Terminal.Parser) (shown : List UInt8) (cs : List Char), shown <+: output parts →
        Terminal.Decodes shown cs → (∀ c ∈ cs, ¬Terminal.IsC1 c) ∧ ¬T.InString (T.run cs)) ∧
      ∀ pieces : List (List UInt8), parts.flatten = pieces.flatten → (∀ bs ∈ pieces, Drawing bs) →
        output parts = parts.flatten := by
  refine ⟨output_eq parts, fun T shown cs before decoded => ?_, fun pieces same all => ?_⟩
  · rw [output_eq] at before
    have calm := (closed_push {} parts.flatten).calm
    exact T.calm_run decoded ( List.IsChain.prefix calm before)
  · rw [output_eq, same]
    exact (passes_drawings (f := {}) ⟨rfl, rfl⟩ all).2

/-- A colour sequence cut in two reaches the terminal whole and leaves it drawing. -/
theorem output_draws_only_cut :
    output [[0x61, 0x1B], [0x5B, 0x6D]] = [0x61, 0x1B, 0x5B, 0x6D] ∧
      ¬Terminal.vt.InString (Terminal.vt.run ['a', Terminal.esc, '[', 'm']) := by
  have claim := output_draws_only [[0x61, 0x1B], [0x5B, 0x6D]]
  have kept : output [[0x61, 0x1B], [0x5B, 0x6D]] = [0x61, 0x1B, 0x5B, 0x6D] := by
    refine claim.2.2 [String.utf8EncodeChar 'a', 0x1B :: 0x5B :: [] ++ [0x6D]] (by decide) fun bs mem => ?_
    rcases List.mem_cons.mp mem with rfl | mem
    · exact .text 'a' (by decide) (by show ¬(0x80 ≤ 97 ∧ 97 ≤ 0x9F); decide)
    · rw [List.mem_singleton.mp mem]
      exact .csi [] 0x6D (fun _ none => absurd none List.not_mem_nil) (by decide) (by decide)
  have decoded : Terminal.Decodes [0x61, 0x1B, 0x5B, 0x6D] ['a', Terminal.esc, '[', 'm'] := by
    have same : [0x61, 0x1B, 0x5B, 0x6D] = String.utf8EncodeChar 'a' ++ (String.utf8EncodeChar Terminal.esc ++
        (String.utf8EncodeChar '[' ++ (String.utf8EncodeChar 'm' ++ []))) := by decide
    rw [same]
    exact .char _ (.char _ (.char _ (.char _ .nil)))
  exact ⟨kept, (claim.2.1 Terminal.vt _ _ List.prefix_rfl (by rw [kept]; exact decoded)).2⟩

end TermFilter

end K2.Deploy
