import Mathlib.Data.List.Infix
import Mathlib.Data.List.Forall2
import Mathlib.Algebra.GroupWithZero.Nat

/-! # Readers of byte strings

A reader takes bytes off the front of what is unread. Three things are said of
readers, each kept by putting readers together: that one reads back what a
writer wrote, that it does not look past what it takes, and that two of them
follow each other. -/

/-- The unread bytes, and the offset of the first of them. -/
structure Cursor where
  rest : List UInt8
  pos : Nat
  deriving Repr, DecidableEq

abbrev ByteReader (ε α : Type) := StateT Cursor (Except ε) α

namespace ByteReader

variable {ε δ α β γ : Type}

/-- Take `n` bytes, or fail with what `short` says of `n` and the offset. -/
def take (short : Nat → Nat → ε) (n : Nat) : ByteReader ε (List UInt8) := fun c =>
  if n ≤ c.rest.length then .ok (c.rest.take n, { rest := c.rest.drop n, pos := c.pos + n })
  else .error (short n c.pos)

/-- `n` of them, one after another. -/
def many (p : ByteReader ε α) : Nat → ByteReader ε (List α)
  | 0 => pure []
  | n + 1 => do
      let x ← p
      let xs ← many p n
      pure (x :: xs)

theorem bind_apply (p : ByteReader ε α) (f : α → ByteReader ε β) (c : Cursor) :
    (p >>= f) c = match p c with
      | .ok (x, c') => f x c'
      | .error e => .error e := by
  show (p c >>= fun r => f r.1 r.2) = _
  cases p c <;> rfl

theorem bind_eq_ok {p : ByteReader ε α} {f : α → ByteReader ε β} {c c'' : Cursor} {y : β} :
    (p >>= f) c = .ok (y, c'') ↔ ∃ x c', p c = .ok (x, c') ∧ f x c' = .ok (y, c'') := by
  rw [bind_apply]
  rcases p c with e | ⟨x, c'⟩
  · simp
  · simp

/-! ## Reading back -/

/-- `p` reads `x` off the front of `bytes`, and takes them whole. -/
def Reads (p : ByteReader ε α) (bytes : List UInt8) (x : α) : Prop :=
  ∀ tail pos, p { rest := bytes ++ tail, pos } = .ok (x, { rest := tail, pos := pos + bytes.length })

theorem Reads.pure (x : α) : Reads (ε := ε) (Pure.pure x) [] x := fun _ _ => rfl

theorem Reads.bind {p : ByteReader ε α} {f : α → ByteReader ε β} {a b : List UInt8} {x : α} {y : β}
    (first : Reads p a x) (second : Reads (f x) b y) : Reads (p >>= f) (a ++ b) y := by
  intro tail pos
  rw [bind_apply, List.append_assoc, first]
  simp only [second _ _, List.length_append, Nat.add_assoc]

theorem Reads.of_eq {p : ByteReader ε α} {a b : List UInt8} {x y : α} (read : Reads p a x)
    (bytes : a = b) (value : x = y) : Reads p b y := by
  rwa [← bytes, ← value]

/-- The last step of a reader. -/
theorem Reads.map {p : ByteReader ε α} {f : α → β} {a : List UInt8} {x : α}
    (first : Reads p a x) : Reads (p >>= fun x => Pure.pure (f x)) a (f x) := by
  have read := first.bind (f := fun x => Pure.pure (f x)) (Reads.pure (f x))
  rwa [List.append_nil] at read

theorem Reads.take (short : Nat → Nat → ε) {bytes : List UInt8} {n : Nat} (length : bytes.length = n) :
    Reads (take short n) bytes bytes := by
  subst length
  intro tail pos
  simp [ByteReader.take]

theorem Reads.many {p : ByteReader ε α} {write : β → List UInt8} {back : β → α} {items : List β}
    (each : ∀ item ∈ items, Reads p (write item) (back item)) :
    Reads (many p items.length) (items.flatMap write) (items.map back) := by
  induction items with
  | nil => exact Reads.pure []
  | cons item items ih =>
    have rest := ih fun other mem => each other (List.mem_cons_of_mem _ mem)
    exact (each item List.mem_cons_self).bind (rest.map (f := (back item :: ·)))

/-! ## Not looking ahead -/

/-- More bytes at the end change nothing of a reading that succeeded. -/
def Stable (p : ByteReader ε α) : Prop :=
  ∀ c x c', p c = .ok (x, c') →
    ∀ tail, p { rest := c.rest ++ tail, pos := c.pos } = .ok (x, { rest := c'.rest ++ tail, pos := c'.pos })

theorem Stable.pure (x : α) : Stable (ε := ε) (Pure.pure x) := by
  intro c y c' read tail
  obtain ⟨rfl, rfl⟩ := Prod.mk.inj (Except.ok.inj read)
  rfl

theorem Stable.error (e : ε) : Stable (α := α) fun _ => .error e := nofun

theorem Stable.bind {p : ByteReader ε α} {f : α → ByteReader ε β} (first : Stable p)
    (second : ∀ x, Stable (f x)) : Stable (p >>= f) := by
  intro c y c'' read tail
  obtain ⟨x, c', readFirst, readSecond⟩ := bind_eq_ok.mp read
  exact bind_eq_ok.mpr ⟨x, _, first _ _ _ readFirst tail, second x _ _ _ readSecond tail⟩

theorem Stable.take (short : Nat → Nat → ε) (n : Nat) : Stable (take short n) := by
  intro c x c' read tail
  rw [ByteReader.take] at read
  split at read
  next enough =>
    obtain ⟨rfl, rfl⟩ := Prod.mk.inj (Except.ok.inj read)
    rw [ByteReader.take, if_pos (by rw [List.length_append]; omega), List.take_append_of_le_length enough,
      List.drop_append_of_le_length enough]
  next => cases read

theorem Stable.many {p : ByteReader ε α} (each : Stable p) (n : Nat) : Stable (many p n) := by
  induction n with
  | zero => exact Stable.pure []
  | succ n ih => exact each.bind fun x => ih.bind fun xs => Stable.pure (x :: xs)

theorem Stable.ite {p q : ByteReader ε α} {c : Prop} [Decidable c] (yes : Stable p) (no : Stable q) :
    Stable (if c then p else q) := by
  split
  · exact yes
  · exact no

/-- What is cut short of a whole reading is refused. -/
theorem Stable.cut {p : ByteReader ε α} (stable : Stable p) {bytes cut : List UInt8} {x : α}
    (read : Reads p bytes x) (short : cut <+: bytes) (strict : cut ≠ bytes) (pos : Nat) :
    ∃ e, p { rest := cut, pos } = .error e := by
  obtain ⟨tail, rfl⟩ := short
  cases answer : p { rest := cut, pos } with
  | error e => exact ⟨e, rfl⟩
  | ok result =>
    have whole := read [] pos
    rw [List.append_nil, stable _ _ _ answer tail] at whole
    have left := (Prod.mk.inj (Except.ok.inj whole)).2
    have empty : tail = [] := (List.append_eq_nil_iff.mp (congrArg Cursor.rest left)).2
    exact absurd (by rw [empty, List.append_nil]) strict

/-! ## What a reading can give -/

/-- Whatever `p` reads satisfies `Q`. -/
def Yields (p : ByteReader ε α) (Q : α → Prop) : Prop := ∀ c x c', p c = .ok (x, c') → Q x

theorem Yields.pure {Q : α → Prop} {x : α} (holds : Q x) : Yields (ε := ε) (Pure.pure x) Q := by
  intro c y c' read
  obtain ⟨rfl, rfl⟩ := Prod.mk.inj (Except.ok.inj read)
  exact holds

theorem Yields.error (e : ε) (Q : α → Prop) : Yields (fun _ => .error e) Q := nofun

theorem Yields.bind {p : ByteReader ε α} {f : α → ByteReader ε β} {P : α → Prop} {Q : β → Prop}
    (first : Yields p P) (second : ∀ x, P x → Yields (f x) Q) : Yields (p >>= f) Q := by
  intro c y c'' read
  obtain ⟨x, c', readFirst, readSecond⟩ := bind_eq_ok.mp read
  exact second x (first _ _ _ readFirst) _ _ _ readSecond

/-- A step nothing need be known of. -/
theorem Yields.after {p : ByteReader ε α} {f : α → ByteReader ε β} {Q : β → Prop}
    (second : ∀ x, Yields (f x) Q) : Yields (p >>= f) Q :=
  Yields.bind (P := fun _ => True) (fun _ _ _ _ => trivial) fun x _ => second x

theorem Yields.ite {p q : ByteReader ε α} {Q : α → Prop} {c : Prop} [Decidable c] (yes : Yields p Q)
    (no : Yields q Q) : Yields (if c then p else q) Q := by
  split
  · exact yes
  · exact no

theorem Yields.take (short : Nat → Nat → ε) (n : Nat) : Yields (take short n) (·.length = n) := by
  intro c x c' read
  rw [ByteReader.take] at read
  split at read
  next enough =>
    obtain ⟨rfl, -⟩ := Prod.mk.inj (Except.ok.inj read)
    exact List.length_take_of_le enough
  next => cases read

theorem Yields.many (p : ByteReader ε α) (n : Nat) : Yields (many p n) (·.length = n) := by
  induction n with
  | zero => exact Yields.pure rfl
  | succ n ih => exact Yields.after fun x => ih.bind fun xs length => Yields.pure (congrArg (· + 1) length)

/-! ## Following one another -/

/-- `q` accepts what `p` accepts, takes the same bytes, and gives what `p` gives
    under `f`. -/
structure Follows (p : ByteReader ε α) (q : ByteReader δ β) (f : α → β) : Prop where
  ok : ∀ c x c', p c = .ok (x, c') → q c = .ok (f x, c')
  error : ∀ c e, p c = .error e → ∃ d, q c = .error d

namespace Follows

theorem pure {f : α → β} {x : α} {y : β} (same : y = f x) :
    Follows (ε := ε) (δ := δ) (Pure.pure x) (Pure.pure y) f where
  ok c z c' read := by
    obtain ⟨rfl, rfl⟩ := Prod.mk.inj (Except.ok.inj read)
    rw [same]
    rfl
  error _ _ read := by cases read

/-- The second steps follow each other on what the first step can read. -/
theorem bind_of {p : ByteReader ε α} {q : ByteReader δ β} {f : α → β} {α' β' : Type}
    {p' : α → ByteReader ε α'} {q' : β → ByteReader δ β'} {f' : α' → β'} {P : α → Prop}
    (first : Follows p q f) (known : Yields p P) (second : ∀ x, P x → Follows (p' x) (q' (f x)) f') :
    Follows (p >>= p') (q >>= q') f' where
  ok c y c'' read := by
    obtain ⟨x, c', readFirst, readSecond⟩ := bind_eq_ok.mp read
    exact bind_eq_ok.mpr ⟨f x, c', first.ok _ _ _ readFirst, (second x (known _ _ _ readFirst)).ok _ _ _ readSecond⟩
  error c e read := by
    rw [bind_apply] at read
    rw [bind_apply]
    cases answer : p c with
    | error e' =>
      obtain ⟨d, failed⟩ := first.error c e' answer
      exact ⟨d, by rw [failed]⟩
    | ok result =>
      rw [answer] at read
      obtain ⟨d, failed⟩ := (second result.1 (known _ _ _ answer)).error _ _ read
      exact ⟨d, by rw [first.ok c result.1 result.2 answer]; exact failed⟩

theorem bind {p : ByteReader ε α} {q : ByteReader δ β} {f : α → β} {α' β' : Type}
    {p' : α → ByteReader ε α'} {q' : β → ByteReader δ β'} {f' : α' → β'}
    (first : Follows p q f) (second : ∀ x, Follows (p' x) (q' (f x)) f') :
    Follows (p >>= p') (q >>= q') f' :=
  first.bind_of (P := fun _ => True) (fun _ _ _ _ => trivial) fun x _ => second x

theorem take (short : Nat → Nat → ε) (short' : Nat → Nat → δ) (n : Nat) :
    Follows (take short n) (take short' n) id where
  ok c x c' read := by
    rw [ByteReader.take] at read ⊢
    split at read
    next enough =>
      obtain ⟨rfl, rfl⟩ := Prod.mk.inj (Except.ok.inj read)
      rw [if_pos enough, id]
    next => cases read
  error c e read := by
    rw [ByteReader.take] at read
    split at read
    next => cases read
    next few => exact ⟨short' n c.pos, by rw [ByteReader.take, if_neg few]⟩

theorem many {p : ByteReader ε α} {q : ByteReader δ β} {f : α → β} (each : Follows p q f) (n : Nat) :
    Follows (many p n) (many q n) (List.map f) := by
  induction n with
  | zero => exact pure rfl
  | succ n ih => exact each.bind fun x => ih.bind fun xs => pure rfl

theorem map {p : ByteReader ε α} {q : ByteReader δ β} {f : α → β} {β' : Type} {g : β → β'} {f' : α → β'}
    (first : Follows p q f) (same : ∀ x, g (f x) = f' x) :
    Follows p (q >>= fun y => Pure.pure (g y)) f' where
  ok c x c' read := by
    rw [bind_apply, first.ok _ _ _ read, ← same]
    rfl
  error c e read := by
    obtain ⟨d, failed⟩ := first.error c e read
    exact ⟨d, by rw [bind_apply, failed]⟩

/-- Each side asks the same in its own words. -/
theorem ite_of {p p' : ByteReader ε α} {q q' : ByteReader δ β} {f : α → β} {c c' : Prop} [Decidable c]
    [Decidable c'] (same : c' ↔ c) (yes : Follows p q f) (no : Follows p' q' f) :
    Follows (if c then p else p') (if c' then q else q') f := by
  by_cases holds : c
  · rw [if_pos holds, if_pos (same.mpr holds)]
    exact yes
  · rw [if_neg holds, if_neg (mt same.mp holds)]
    exact no

theorem fail (e : ε) (d : δ) (f : α → β) :
    Follows (fun _ => .error e : ByteReader ε α) (fun _ => .error d) f where
  ok _ _ _ read := by cases read
  error _ _ _ := ⟨d, rfl⟩

end Follows

end ByteReader

/-! ## Little-endian integers -/

/-- `to_le_bytes`, in `n` bytes. -/
def leBytes : Nat → Nat → List UInt8
  | 0, _ => []
  | n + 1, v => UInt8.ofNat v :: leBytes n (v / 256)

/-- `from_le_bytes`. -/
def ofLe : List UInt8 → Nat
  | [] => 0
  | b :: rest => b.toNat + 256 * ofLe rest

@[simp] theorem length_leBytes (n v : Nat) : (leBytes n v).length = n := by
  induction n generalizing v with
  | zero => rfl
  | succ n ih => rw [leBytes, List.length_cons, ih]

theorem ofLe_leBytes {n v : Nat} (fits : v < 256 ^ n) : ofLe (leBytes n v) = v := by
  induction n generalizing v with
  | zero =>
    rw [pow_zero] at fits
    rw [leBytes, ofLe]
    omega
  | succ n ih =>
    have low : v / 256 < 256 ^ n := Nat.div_lt_of_lt_mul (by rwa [pow_succ'] at fits)
    rw [leBytes, ofLe, ih low, UInt8.toNat_ofNat']
    omega

theorem ofLe_lt (bytes : List UInt8) : ofLe bytes < 256 ^ bytes.length := by
  induction bytes with
  | nil => decide
  | cons b rest ih =>
    have := b.toNat_lt
    rw [ofLe, List.length_cons, pow_succ']
    omega
