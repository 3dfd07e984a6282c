import K2.Deploy.TermFilter

/-! # C1 bytes that belong to no character

The filter keeps as many continuation bytes as a lead byte asks for before it knows
that they make up a character. A terminal that reads 8-bit controls outside of
characters sees a C1 byte of a character that turns out malformed. -/

namespace K2.Deploy.TermFilter

open Terminal

def IsC1Byte (b : UInt8) : Prop := 0x80 ≤ b ∧ b ≤ 0x9F

instance : DecidablePred IsC1Byte := fun b => inferInstanceAs (Decidable (0x80 ≤ b ∧ b ≤ 0x9F))

/-- Each C1 byte is inside a character that is no C1 control. -/
def NoStrayC1 (bs : List UInt8) : Prop :=
  ∀ before b after, bs = before ++ b :: after → IsC1Byte b →
    ∃ start first c rest tail, before = start ++ first ∧ first ≠ [] ∧ String.utf8EncodeChar c = first ++ b :: rest ∧
      after = rest ++ tail ∧ ¬IsC1 c

/-- The filter keeps nothing of a byte. -/
def Drops (f : TermFilter) (b : UInt8) : Prop :=
  match f.st with
  | .ground => b = 0x1B ∨ b = 0xC2 ∨ IsC1Byte b ∧ f.cont = 0
  | .esc => b ∈ [(0x5D : UInt8), 0x50, 0x58, 0x5E, 0x5F] ∨ ¬(0x20 ≤ b ∧ b ≤ 0x7E)
  | .csi => False
  | .c2 => b = 0x1B ∨ b = 0xC2 ∨ IsC1Byte b ∧ b ≠ 0x9B
  | .str | .strEsc | .strC2 => True

/-- What dropped sequences aside comes next: these continuation bytes, read as text. -/
inductive Follows : TermFilter → List UInt8 → List UInt8 → Prop where
  | nil {f : TermFilter} {input : List UInt8} : Follows f input []
  | drops {f : TermFilter} {b : UInt8} {input bs : List UInt8} :
      f.Drops b → Follows (f.byte b).1 input bs → Follows f (b :: input) bs
  | keeps {f : TermFilter} {b : UInt8} {input bs : List UInt8} : f.st = .ground → IsContinuation b → ¬f.Drops b →
      Follows (f.byte b).1 input bs → Follows f (b :: input) (b :: bs)

/-- The state a new filter is in after a stream. -/
def after (input : List UInt8) : TermFilter := (push {} input).1

/-- A C1 byte that comes where a character goes on makes up that character, with the bytes
    right before it and what follows. -/
def WholeCharacters (input : List UInt8) : Prop :=
  ∀ before b rest, input = before ++ b :: rest → IsC1Byte b → (after before).st = .ground → 0 < (after before).cont →
    ∃ start first c more, before = start ++ first ∧ first ≠ [] ∧ String.utf8EncodeChar c = first ++ b :: more ∧
      Follows ((after before).byte b).1 rest more

/-! ## One byte -/

theorem not_c1_of_le {b : UInt8} (le : b ≤ 0x7E) : ¬IsC1Byte b := fun c1 => absurd (UInt8.le_trans c1.1 le) (by decide)

theorem not_c1_of_ge {b : UInt8} (le : 0xA0 ≤ b) : ¬IsC1Byte b := fun c1 => absurd (UInt8.le_trans le c1.2) (by decide)

/-- Between characters nothing is expected. -/
def Settled (f : TermFilter) : Prop := f.st ≠ .ground → f.cont = 0

theorem ground_c1 {f : TermFilter} {x b : UInt8} (mem : b ∈ (f.ground x).2) (c1 : IsC1Byte b) :
    0 < f.cont ∧ x = b ∧ (f.ground x).2 = [b] := by
  unfold ground at mem ⊢
  dsimp only at mem ⊢
  split at mem
  next inner =>
    rw [if_pos inner]
    obtain rfl := List.mem_singleton.mp mem
    exact ⟨inner.1, rfl, rfl⟩
  split at mem
  · cases mem
  split at mem
  · cases mem
  split at mem
  · cases mem
  next other =>
    split at mem <;> exact absurd (List.mem_singleton.mp mem ▸ c1) other

theorem byte_after_esc {f : TermFilter} (state : f.st = .esc) (b : UInt8) : f.byte b = f.afterEsc b := by rw [byte, state]

theorem byte_in_csi {f : TermFilter} (state : f.st = .csi) (b : UInt8) : f.byte b = f.inCsi b := by rw [byte, state]

theorem byte_after_c2 {f : TermFilter} (state : f.st = .c2) (b : UInt8) : f.byte b = f.afterC2 b := by rw [byte, state]

theorem byte_in_str {f : TermFilter} (state : f.st = .str ∨ f.st = .strEsc ∨ f.st = .strC2) (b : UInt8) :
    f.byte b = (f.inStr b, []) := by
  rcases state with state | state | state <;> rw [byte, state]

theorem byte_c1 {f : TermFilter} (settled : f.Settled) {x b : UInt8} (mem : b ∈ (f.byte x).2) (c1 : IsC1Byte b) :
    f.st = .ground ∧ 0 < f.cont ∧ x = b ∧ (f.byte x).2 = [b] := by
  have escape {y : UInt8} (le : y ≤ 0x7E) (mem : b ∈ [0x1B, y]) : False := by
    rcases List.mem_pair.mp mem with rfl | rfl
    · exact absurd c1 (by decide)
    · exact not_c1_of_le le c1
  cases state : f.st with
  | ground =>
      rw [byte_ground state] at mem ⊢
      exact ⟨rfl, ground_c1 mem c1⟩
  | esc =>
      rw [byte_after_esc state] at mem
      exfalso
      unfold afterEsc at mem
      split at mem
      · cases mem
      split at mem
      · exact escape (by decide) mem
      split at mem
      · cases mem
      split at mem
      next drawn => exact escape drawn.2 mem
      next => cases mem
  | csi =>
      rw [byte_in_csi state] at mem
      exfalso
      unfold inCsi at mem
      dsimp only at mem
      split at mem
      next param => exact not_c1_of_le (UInt8.le_trans param.1.2 (by decide)) (List.mem_singleton.mp mem ▸ c1)
      split at mem
      next final => exact not_c1_of_le final.2 (List.mem_singleton.mp mem ▸ c1)
      next => exact absurd (List.mem_singleton.mp mem ▸ c1) (by decide)
  | c2 =>
      rw [byte_after_c2 state] at mem
      exfalso
      unfold afterC2 at mem
      split at mem
      · cases mem
      split at mem
      · exact escape (by decide) mem
      split at mem
      · cases mem
      split at mem
      next high =>
        rcases List.mem_pair.mp mem with rfl | rfl
        · exact absurd c1 (by decide)
        · exact not_c1_of_ge high.1 c1
      next =>
        have none := settled (by rw [state]; exact TermSt.noConfusion)
        exact absurd (ground_c1 mem c1).1 (by show ¬0 < f.cont; omega)
  | str | strEsc | strC2 =>
      rw [byte_in_str (by simp [state])] at mem
      cases mem

theorem ground_cont {f : TermFilter} {b : UInt8} (more : 0 < (f.ground b).1.cont) :
    (0 < f.cont ∧ IsContinuation b ∨ ¬IsContinuation b ∧ b ≠ 0xC2) ∧ (f.ground b).2 = [b] := by
  unfold ground at more ⊢
  dsimp only at more ⊢
  split
  next inner => exact ⟨.inl ⟨inner.1, inner.2⟩, rfl⟩
  next outer =>
    rw [if_neg outer] at more
    split at more
    · exact absurd more (Nat.lt_irrefl 0)
    split at more
    · exact absurd more (Nat.lt_irrefl 0)
    split at more
    · exact absurd more (Nat.lt_irrefl 0)
    next notEsc notC2 notC1 =>
      rw [if_neg notEsc, if_neg notC2, if_neg notC1]
      cases lead : leads b with
      | none =>
          rw [lead] at more
          exact absurd more (Nat.lt_irrefl 0)
      | some n =>
          refine ⟨.inr ⟨fun inside => ?_, notC2⟩, rfl⟩
          have low {x : UInt8} (high : 0xBF < x) : ¬x ≤ b := fun le =>
            absurd (UInt8.lt_of_lt_of_le high (UInt8.le_trans le inside.2)) (by decide)
          unfold leads at lead
          rw [if_neg fun h => low (by decide) h.1, if_neg fun h => low (by decide) h.1,
            if_neg fun h => low (by decide) h.1] at lead
          cases lead

theorem ground_state {f : TermFilter} (state : f.st = .ground) (b : UInt8) :
    (f.ground b).1.st = .ground ∨ (f.ground b).1.cont = 0 := by
  unfold ground
  dsimp only
  split
  · exact .inl state
  split
  · exact .inr rfl
  split
  · exact .inr rfl
  split
  · exact .inr rfl
  · exact .inl (by split <;> exact state)

/-- Outside of text the count stays at none; a byte read again is read as text. -/
theorem byte_cases {f : TermFilter} (settled : f.Settled) (b : UInt8) :
    (f.byte b).1.cont = 0 ∨ ∃ g : TermFilter, g.st = .ground ∧ g.cont = f.cont ∧ f.byte b = g.ground b := by
  cases state : f.st with
  | ground => exact .inr ⟨f, state, rfl, byte_ground state b⟩
  | esc =>
      have none : f.cont = 0 := settled (by rw [state]; exact TermSt.noConfusion)
      rw [byte_after_esc state, afterEsc]
      left
      split_ifs <;> exact none
  | csi =>
      have none : f.cont = 0 := settled (by rw [state]; exact TermSt.noConfusion)
      rw [byte_in_csi state, inCsi]
      left
      dsimp only
      split_ifs <;> exact none
  | c2 =>
      have none : f.cont = 0 := settled (by rw [state]; exact TermSt.noConfusion)
      rw [byte_after_c2 state, afterC2]
      split_ifs
      · exact .inl none
      · exact .inl none
      · exact .inl none
      · exact .inl none
      · exact .inr ⟨{ f with st := .ground }, rfl, rfl, rfl⟩
  | str | strEsc | strC2 =>
      have none : f.cont = 0 := settled (by rw [state]; exact TermSt.noConfusion)
      rw [byte_in_str (by simp [state]), inStr]
      left
      dsimp only
      split_ifs <;> exact none

theorem settled_byte {f : TermFilter} (settled : f.Settled) (b : UInt8) : (f.byte b).1.Settled := by
  rcases byte_cases settled b with none | ⟨g, ground, -, same⟩
  · exact fun _ => none
  · rw [same]
    exact fun other => (ground_state ground b).resolve_left other

/-- A byte after which a character goes on goes on with one, or leads one. -/
theorem byte_cont {f : TermFilter} (settled : f.Settled) {b : UInt8} (more : 0 < (f.byte b).1.cont) :
    (0 < f.cont ∧ IsContinuation b ∨ ¬IsContinuation b ∧ b ≠ 0xC2) ∧ (f.byte b).2 = [b] := by
  rcases byte_cases settled b with none | ⟨g, -, count, same⟩
  · exact absurd more (by omega)
  · rw [same] at more ⊢
    rw [← count]
    exact ground_cont more

/-! ## Streams -/

theorem after_concat (input : List UInt8) (b : UInt8) :
    after (input ++ [b]) = ((after input).byte b).1 ∧
      (push {} (input ++ [b])).2 = (push {} input).2 ++ ((after input).byte b).2 := by
  have both : push {} (input ++ [b]) =
      (((after input).byte b).1, (push {} input).2 ++ (((after input).byte b).2 ++ [])) :=
    Mealy.run_append machine {} input [b]
  rw [after, both, List.append_nil]
  exact ⟨rfl, rfl⟩

theorem settled_after (input : List UInt8) : (after input).Settled := by
  induction input using List.reverseRecOn with
  | nil => exact fun other => absurd rfl other
  | append_singleton input b ih =>
      rw [(after_concat input b).1]
      exact settled_byte ih b

theorem unfinished (input : List UInt8) (more : 0 < (after input).cont) :
    ∃ start kept lead bs, input = start ++ lead :: bs ∧ (push {} input).2 = kept ++ lead :: bs ∧
      ¬IsContinuation lead ∧ lead ≠ 0xC2 ∧ ∀ b ∈ bs, IsContinuation b := by
  induction input using List.reverseRecOn with
  | nil => exact absurd more (Nat.lt_irrefl 0)
  | append_singleton input b ih =>
      obtain ⟨state, shown⟩ := after_concat input b
      rw [state] at more
      obtain ⟨inside | ⟨lead, other⟩, kept⟩ := byte_cont (settled_after input) more
      · obtain ⟨start, kept', lead, bs, same, shown', notCont, notC2, all⟩ := ih inside.1
        refine ⟨start, kept', lead, bs ++ [b], ?_, ?_, notCont, notC2, ?_⟩
        · rw [same, List.append_assoc, List.cons_append]
        · rw [shown, shown', kept, List.append_assoc, List.cons_append]
        · exact fun x mem => (List.mem_append.mp mem).elim (all x) fun last => List.mem_singleton.mp last ▸ inside.2
      · exact ⟨input, _, b, [], rfl, by rw [shown, kept], lead, other, fun x mem => absurd mem List.not_mem_nil⟩

theorem push_append (input rest : List UInt8) :
    (push {} (input ++ rest)).2 = (push {} input).2 ++ ((after input).push rest).2 :=
  congrArg Prod.snd (Mealy.run_append machine {} input rest)

/-! ## Characters -/

theorem isContinuation_ofNat (n : Nat) : IsContinuation (UInt8.ofNat (n % 0x40 + 0x80)) := continuation n

theorem not_isContinuation_ofNat {n : Nat} (apart : n < 0x80 ∨ 0xC0 ≤ n) (small : n < 256) :
    ¬IsContinuation (UInt8.ofNat n) := by
  rintro ⟨low, high⟩
  rw [UInt8.le_iff_toNat_le, UInt8.toNat_ofNat'] at low high
  have low' : 128 ≤ n % 256 := low
  have high' : n % 256 ≤ 191 := high
  omega

/-- A character's first byte starts it, and the others go on with it. -/
theorem encode_shape {c : Char} {x : UInt8} {xs : List UInt8} (encoded : String.utf8EncodeChar c = x :: xs) :
    ¬IsContinuation x ∧ ∀ y ∈ xs, IsContinuation y := by
  have none : ∀ y ∈ ([] : List UInt8), IsContinuation y := fun _ mem => absurd mem List.not_mem_nil
  have more (n : Nat) {ys : List UInt8} (all : ∀ y ∈ ys, IsContinuation y) :
      ∀ y ∈ UInt8.ofNat (n % 0x40 + 0x80) :: ys, IsContinuation y :=
    List.forall_mem_cons.mpr ⟨isContinuation_ofNat n, all⟩
  have top : c.val.toNat < 0x110000 := by
    rcases c.valid with low | ⟨-, high⟩
    · exact Nat.lt_trans low (by decide)
    · exact high
  unfold String.utf8EncodeChar at encoded
  dsimp only at encoded
  split at encoded
  · obtain ⟨rfl, rfl⟩ := List.cons.inj encoded
    exact ⟨not_isContinuation_ofNat (by omega) (by omega), none⟩
  split at encoded
  · obtain ⟨rfl, rfl⟩ := List.cons.inj encoded
    exact ⟨not_isContinuation_ofNat (by omega) (by omega), more _ none⟩
  split at encoded
  · obtain ⟨rfl, rfl⟩ := List.cons.inj encoded
    exact ⟨not_isContinuation_ofNat (by omega) (by omega), more _ (more _ none)⟩
  · obtain ⟨rfl, rfl⟩ := List.cons.inj encoded
    exact ⟨not_isContinuation_ofNat (by omega) (by omega), more _ (more _ (more _ none))⟩

/-- A list is cut at its last byte that does not go on in one way. -/
theorem cut_unique {start start' bs bs' : List UInt8} {x x' : UInt8} (same : start ++ x :: bs = start' ++ x' :: bs')
    (leads : ¬IsContinuation x) (leads' : ¬IsContinuation x') (all : ∀ b ∈ bs, IsContinuation b)
    (all' : ∀ b ∈ bs', IsContinuation b) : x :: bs = x' :: bs' := by
  rcases List.append_eq_append_iff.mp same with ⟨more, -, later⟩ | ⟨more, -, later⟩
  · cases more with
    | nil => exact later
    | cons y more =>
        obtain ⟨-, rfl⟩ := List.cons.inj later
        exact absurd (all x' (List.mem_append_right more List.mem_cons_self)) leads'
  · cases more with
    | nil => exact later.symm
    | cons y more =>
        obtain ⟨-, rfl⟩ := List.cons.inj later
        exact absurd (all' x (List.mem_append_right more List.mem_cons_self)) leads

/-! ## What follows -/

theorem ground_kept {f : TermFilter} (state : f.st = .ground) (b : UInt8) :
    f.Drops b ∧ (f.ground b).2 = [] ∨ ¬f.Drops b ∧ (f.ground b).2 = [b] := by
  have dropped : f.Drops b ↔ b = 0x1B ∨ b = 0xC2 ∨ IsC1Byte b ∧ f.cont = 0 := by rw [Drops, state]
  rw [dropped]
  unfold ground
  dsimp only
  split
  next inner =>
    refine .inr ⟨?_, rfl⟩
    rintro (rfl | rfl | ⟨-, none⟩)
    · exact absurd inner.2.1 (by decide)
    · exact absurd inner.2.2 (by decide)
    · omega
  next outer =>
    split
    next esc => exact .inl ⟨.inl esc, rfl⟩
    split
    next c2 => exact .inl ⟨.inr (.inl c2), rfl⟩
    split
    next c1 =>
      refine .inl ⟨.inr (.inr ⟨c1, ?_⟩), rfl⟩
      by_contra counted
      exact outer ⟨Nat.pos_of_ne_zero counted, c1.1, UInt8.le_trans c1.2 (by decide)⟩
    next notEsc notC2 notC1 =>
      refine .inr ⟨?_, by split <;> rfl⟩
      rintro (esc | c2 | ⟨c1, -⟩)
      · exact notEsc esc
      · exact notC2 c2
      · exact notC1 c1

theorem isContinuation_iff {b : UInt8} : IsContinuation b ↔ IsC1Byte b ∨ 0xA0 ≤ b ∧ b ≤ 0xBF := by
  simp only [IsContinuation, IsC1Byte, UInt8.le_iff_toNat_le]
  show 128 ≤ b.toNat ∧ b.toNat ≤ 191 ↔ 128 ≤ b.toNat ∧ b.toNat ≤ 159 ∨ 160 ≤ b.toNat ∧ b.toNat ≤ 191
  omega

theorem ascii {b : UInt8} (le : b ≤ 0x7E) : ¬IsContinuation b := fun inside =>
  absurd (UInt8.le_trans inside.1 le) (by decide)

/-- A byte is dropped, kept as text, or kept after the start of something else. -/
theorem byte_kept (f : TermFilter) (b : UInt8) :
    f.Drops b ∧ (f.byte b).2 = [] ∨
      ¬f.Drops b ∧ f.st = .ground ∧ (f.byte b).2 = [b] ∨
      ¬f.Drops b ∧ ∃ x xs, (f.byte b).2 = x :: xs ∧ ¬IsContinuation x := by
  have escape : ¬IsContinuation 0x1B := ascii (by decide)
  cases state : f.st with
  | ground =>
      rw [byte_ground state]
      exact (ground_kept state b).imp id fun kept => .inl ⟨kept.1, rfl, kept.2⟩
  | esc =>
      have dropped : f.Drops b ↔ b ∈ [(0x5D : UInt8), 0x50, 0x58, 0x5E, 0x5F] ∨ ¬(0x20 ≤ b ∧ b ≤ 0x7E) := by
        rw [Drops, state]
      rw [dropped, byte_after_esc state, afterEsc]
      split
      next string => exact .inl ⟨.inl string, rfl⟩
      next notString =>
        split
        next csi =>
          subst csi
          exact .inr (.inr ⟨by decide, 0x1B, _, rfl, escape⟩)
        split
        next again =>
          subst again
          exact .inl ⟨.inr (by decide), rfl⟩
        split
        next drawn => exact .inr (.inr ⟨fun either => either.elim notString (· drawn), 0x1B, _, rfl, escape⟩)
        next other => exact .inl ⟨.inr other, rfl⟩
  | csi =>
      have dropped : ¬f.Drops b := by rw [Drops, state]; exact id
      rw [byte_in_csi state, inCsi]
      dsimp only
      split
      next param => exact .inr (.inr ⟨dropped, b, [], rfl, ascii (UInt8.le_trans param.1.2 (by decide))⟩)
      split
      next final => exact .inr (.inr ⟨dropped, b, [], rfl, ascii final.2⟩)
      next => exact .inr (.inr ⟨dropped, 0x6D, [], rfl, ascii (by decide)⟩)
  | c2 =>
      have dropped : f.Drops b ↔ b = 0x1B ∨ b = 0xC2 ∨ IsC1Byte b ∧ b ≠ 0x9B := by rw [Drops, state]
      have strings : [(0x90 : UInt8), 0x98, 0x9D, 0x9E, 0x9F].all fun b => IsC1Byte b ∧ b ≠ 0x9B := by decide
      rw [dropped, byte_after_c2 state, afterC2]
      split
      next string => exact .inl ⟨.inr (.inr (of_decide_eq_true (List.all_eq_true.mp strings b string))), rfl⟩
      split
      next csi =>
        subst csi
        exact .inr (.inr ⟨by decide, 0x1B, _, rfl, escape⟩)
      next notCsi =>
        split
        next c1 => exact .inl ⟨.inr (.inr ⟨c1, notCsi⟩), rfl⟩
        next notC1 =>
          split
          next high =>
            refine .inr (.inr ⟨?_, 0xC2, _, rfl, fun inside => absurd inside.2 (by decide)⟩)
            rintro (rfl | rfl | ⟨c1, -⟩)
            · exact absurd high.1 (by decide)
            · exact absurd high.2 (by decide)
            · exact notC1 c1
          next notHigh =>
            -- not a character after all: the byte is read again as text
            have again := ground_kept (f := { f with st := .ground }) rfl b
            have dropped' : ({ f with st := .ground } : TermFilter).Drops b ↔ b = 0x1B ∨ b = 0xC2 ∨ IsC1Byte b ∧ f.cont = 0 :=
              Iff.rfl
            rw [dropped'] at again
            rcases again with ⟨counted, none⟩ | ⟨counted, kept⟩
            · exact .inl ⟨counted.imp_right fun later => later.imp_right fun c1 => absurd c1.1 notC1, none⟩
            · refine .inr (.inr ⟨fun either => counted ?_, b, [], kept, fun inside => ?_⟩)
              · exact either.imp_right fun later => later.imp_right fun c1 => absurd c1.1 notC1
              · exact (isContinuation_iff.mp inside).elim notC1 notHigh
  | str | strEsc | strC2 =>
      rw [byte_in_str (by simp [state])]
      exact .inl ⟨by rw [Drops, state]; trivial, rfl⟩

theorem push_byte (f : TermFilter) (b : UInt8) (rest : List UInt8) :
    (f.push (b :: rest)).2 = (f.byte b).2 ++ ((f.byte b).1.push rest).2 := rfl

theorem follows_iff {f : TermFilter} {input bs : List UInt8} (all : ∀ b ∈ bs, IsContinuation b) :
    Follows f input bs ↔ bs <+: (f.push input).2 := by
  constructor
  · intro follows
    induction follows with
    | nil => exact List.nil_prefix
    | @drops f b input bs drops _ ih =>
        have none : (f.byte b).2 = [] := by
          rcases byte_kept f b with ⟨-, none⟩ | ⟨keeps, -⟩ | ⟨keeps, -⟩
          · exact none
          · exact absurd drops keeps
          · exact absurd drops keeps
        rw [push_byte, none]
        exact ih all
    | @keeps f b input bs state inside keeps _ ih =>
        rw [List.forall_mem_cons] at all
        have kept : (f.byte b).2 = [b] := by
          rw [byte_ground state]
          exact ((ground_kept state b).resolve_left fun dropped => keeps dropped.1).2
        rw [push_byte, kept]
        exact List.cons_prefix_cons.mpr ⟨rfl, ih all.2⟩
  · intro before
    induction input generalizing f bs with
    | nil =>
        obtain rfl := List.prefix_nil.mp before
        exact .nil
    | cons b input ih =>
        cases bs with
        | nil => exact .nil
        | cons x bs =>
            have inside := all x List.mem_cons_self
            rw [push_byte] at before
            rcases byte_kept f b with ⟨drops, none⟩ | ⟨keeps, state, kept⟩ | ⟨-, y, ys, kept, other⟩
            · rw [none] at before
              exact .drops drops (ih all before)
            · rw [kept] at before
              obtain ⟨rfl, later⟩ := List.cons_prefix_cons.mp before
              exact .keeps state inside keeps (ih (fun y mem => all y (List.mem_cons_of_mem _ mem)) later)
            · rw [kept] at before
              obtain ⟨rfl, -⟩ := List.cons_prefix_cons.mp before
              exact absurd inside other

/-- No C1 byte is left outside of a character exactly when each one that is read where a
    character goes on makes up that character. -/
theorem output_noStrayC1_iff (parts : List (List UInt8)) :
    NoStrayC1 (output parts) ↔ WholeCharacters parts.flatten := by
  rw [output_eq]
  generalize parts.flatten = input
  constructor
  · rintro whole before b rest rfl c1 state more
    obtain ⟨start, kept, lead, bs, rfl, shown, notCont, -, all⟩ := unfinished before more
    have here : ((after (start ++ lead :: bs)).byte b).2 = [b] := by
      rw [byte_ground state]
      refine ((ground_kept state b).resolve_left ?_).2
      rintro ⟨dropped, -⟩
      rw [Drops, state] at dropped
      rcases dropped with rfl | rfl | ⟨-, none⟩
      · exact absurd c1 (by decide)
      · exact absurd c1 (by decide)
      · omega
    have out := push_append (start ++ lead :: bs) (b :: rest)
    rw [push_byte, here] at out
    obtain ⟨start', first, c, trailing, tail, preceding, counted, encoded, later, -⟩ := whole _ b _ out c1
    obtain ⟨x, xs, rfl⟩ := List.exists_cons_of_ne_nil counted
    rw [List.cons_append] at encoded
    obtain ⟨leading, others⟩ := encode_shape encoded
    rw [List.forall_mem_append] at others
    rw [shown] at preceding
    have same := cut_unique preceding notCont leading all others.1
    refine ⟨start, x :: xs, c, trailing, by rw [← same], counted, encoded, ?_⟩
    rw [follows_iff (List.forall_mem_cons.mp others.2).2]
    exact ⟨tail, later.symm⟩
  · intro whole early b late out c1
    obtain ⟨before, x, rest, p, q, rfl, here, rfl, rfl⟩ := Mealy.emitted_at machine out
    have mem : b ∈ ((after before).byte x).2 := here ▸ List.mem_append_right p List.mem_cons_self
    obtain ⟨state, more, rfl, single⟩ := byte_c1 (settled_after before) mem c1
    have alone : p = [] ∧ q = [] := by
      have length := congrArg List.length (here.symm.trans single)
      rw [List.length_append, List.length_cons, List.length_singleton] at length
      exact ⟨List.eq_nil_of_length_eq_zero (by omega), List.eq_nil_of_length_eq_zero (by omega)⟩
    obtain ⟨rfl, rfl⟩ := alone
    obtain ⟨start, first, c, trailing, preceding, counted, encoded, follows⟩ := whole before x rest rfl c1 state more
    obtain ⟨start', kept, lead, bs, before', shown, notCont, notC2, all⟩ := unfinished before more
    obtain ⟨y, ys, rfl⟩ := List.exists_cons_of_ne_nil counted
    rw [List.cons_append] at encoded
    obtain ⟨leading, others⟩ := encode_shape encoded
    rw [List.forall_mem_append] at others
    have same := cut_unique (preceding.symm.trans before') leading notCont others.1 all
    rw [follows_iff (List.forall_mem_cons.mp others.2).2] at follows
    obtain ⟨tail, later⟩ := follows
    refine ⟨kept, y :: ys, c, trailing, tail, ?_, counted, encoded, ?_, fun control => ?_⟩
    · rw [List.append_nil, same]
      exact shown
    · exact later.symm
    · obtain ⟨z, encoded', -⟩ := encode_c1 control
      rw [encoded] at encoded'
      obtain ⟨rfl, -⟩ := List.cons.inj encoded'
      exact notC2 (List.cons.inj same).1.symm

theorem lead_of_pair {c : Char} {x y : UInt8} (encoded : String.utf8EncodeChar c = [x, y]) : x.toNat < 0xE0 := by
  unfold String.utf8EncodeChar at encoded
  dsimp only at encoded
  split at encoded
  · cases encoded
  split at encoded
  · obtain ⟨rfl, -⟩ := List.cons.inj encoded
    rw [UInt8.toNat_ofNat']
    omega
  split at encoded
  · cases encoded
  · cases encoded

/-- A character that breaks off leaves its C1 byte on the terminal. -/
theorem truncated_character_strays : ¬NoStrayC1 (output [[0xE2, 0x9B, 0x61]]) := by
  intro whole
  have out : output [[0xE2, 0x9B, 0x61]] = [0xE2] ++ 0x9B :: [0x61] := by decide
  obtain ⟨start, first, c, rest, tail, before, counted, encoded, later, -⟩ := whole _ _ _ out (by decide)
  obtain ⟨x, xs, rfl⟩ := List.exists_cons_of_ne_nil counted
  have lone : x :: xs = [0xE2] := by
    have suffix : x :: xs <:+ [0xE2] := ⟨start, before.symm⟩
    rcases List.suffix_cons_iff.mp suffix with same | none
    · exact same
    · exact absurd (List.suffix_nil.mp none) (List.cons_ne_nil _ _)
  rw [lone] at encoded
  cases rest with
  | nil => exact absurd (lead_of_pair encoded) (by decide)
  | cons y rest =>
      obtain ⟨rfl, -⟩ := List.cons.inj later
      have inside := (encode_shape encoded).2 0x61 (List.mem_cons_of_mem _ List.mem_cons_self)
      exact absurd inside.1 (by decide)

end K2.Deploy.TermFilter
