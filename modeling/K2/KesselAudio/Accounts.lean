import K2.KesselAudio.JitterBuffer

/-! # Where packets go

A buffer's books: its ring, the next number and the counters of packets. Ticks and
packets make a few entries in them; every other path leaves them as they are.
-/

namespace K2.KesselAudio

open SeqRing (holding Within entry)

/-! ## The books -/

/-- What there is to say about packets. -/
structure Book (cap : Nat) (α : Type) where
  slots : Fin cap → Option (Slot α)
  buffered : Nat
  nextSeq : Int
  received : Nat
  late : Nat
  decoded : Nat
  dropped : Nat

namespace Book

variable {cap : Nat} [NeZero cap] {α : Type} (b : Book cap α)

def first : Option (Slot α) := entry Slot.seq b.slots b.nextSeq

/-- The next packet leaves the ring. -/
def taken : Book cap α :=
  { b with
    slots := Function.update b.slots (idx cap b.nextSeq) none
    buffered := b.buffered - 1
    nextSeq := b.nextSeq + 1 }

/-- What a tick does: packets are skipped, and then one is decoded, one that is not
    here is passed, or none moves. -/
inductive Ticks : Book cap α → Option (Slot α) → Book cap α → Prop where
  | rest (b : Book cap α) : Ticks b none b
  | pass {b : Book cap α} (missing : b.first = none) : Ticks b none { b with nextSeq := b.nextSeq + 1 }
  | decode {b : Book cap α} {slot : Slot α} (here : b.first = some slot) :
      Ticks b (some slot) { b.taken with decoded := b.decoded + 1 }
  | skip {b b' : Book cap α} {slot : Slot α} {out : Option (Slot α)} (here : b.first = some slot)
      (later : Ticks { b.taken with dropped := b.dropped + 1 } out b') : Ticks b out b'

end Book

namespace JitterBuffer

variable {cap : Nat} [NeZero cap] {α : Type} {s : JitterBuffer cap α} {t : Target}

def book (s : JitterBuffer cap α) : Book cap α :=
  ⟨s.slots, s.buffered, s.nextSeq, s.n.received, s.n.late, s.n.decoded, s.n.dropped⟩

/-- A buffer that waits for a packet holds none. -/
def Quiet (s : JitterBuffer cap α) : Prop :=
  (s.state = .idle ∨ ∃ ticks, s.state = .starved ticks) → s.buffered = 0

omit [NeZero cap] in
theorem quiet_of_playing (playing : s.state = .playing) : s.Quiet := by
  rintro (idle | ⟨ticks, starved⟩)
  · rw [playing] at idle
    cases idle
  · rw [playing] at starved
    cases starved

omit [NeZero cap] in
theorem quiet_of_prebuffer {deadline : Nat} {hadAudio : Bool} (held : s.state = .prebuffer deadline hadAudio) :
    s.Quiet := by
  rintro (idle | ⟨ticks, starved⟩)
  · rw [held] at idle
    cases idle
  · rw [held] at starved
    cases starved

/-- What every call keeps: the count of packets held, none held while one is waited
    for, and nothing known before the first. -/
structure Sound (s : JitterBuffer cap α) : Prop where
  count : s.buffered = (holding s.slots).card
  quiet : s.Quiet
  fresh : s.state = .idle → s.highest = none ∧ s.nextSeq = 0

omit [NeZero cap] in
theorem new_sound : (new : JitterBuffer cap α).Sound := ⟨by simp [new], fun _ => rfl, fun _ => ⟨rfl, rfl⟩⟩

theorem Sound.first_eq_none (sound : s.Sound) (empty : s.buffered = 0) : s.book.first = none := by
  refine Option.eq_none_iff_forall_ne_some.mpr fun slot here => ?_
  have member := SeqRing.mem_holding.mpr ⟨_, (SeqRing.entry_eq_some.mp here).1⟩
  have none_held := sound.count.symm.trans empty
  rw [Multiset.card_eq_zero] at none_held
  have held : slot ∈ holding s.slots := member
  rw [none_held] at held
  cases held

/-! ## A tick -/

theorem trimDelay_book (s : JitterBuffer cap α) (t : Target) : (s.trimDelay t).state = s.state ∧
    ((s.trimDelay t).book = s.book ∨ ∃ slot, s.book.first = some slot ∧
      (s.trimDelay t).book = { s.book.taken with dropped := s.book.dropped + 1 }) := by
  unfold trimDelay
  split
  · exact ⟨rfl, .inl rfl⟩
  · split
    · exact ⟨rfl, .inl rfl⟩
    · split
      next slot here =>
        split
        · exact ⟨rfl, .inr ⟨slot, here, rfl⟩⟩
        · exact ⟨rfl, .inl rfl⟩
      next missing => exact ⟨rfl, .inl rfl⟩

/-- A packet is decoded just when its slot is taken. -/
def Hands (out : Option (Slot α)) (what : Next α) : Prop :=
  ∀ p, what = .decode p ↔ ∃ slot, out = some slot ∧ slot.payload = p

theorem hands_none {what : Next α} (other : ∀ p, what ≠ .decode p) : Hands none what :=
  fun p => ⟨fun same => absurd same (other p), nofun⟩

/-- It plays, or waits for a packet and holds none. -/
def Going (s : JitterBuffer cap α) : Prop := s.state = .playing ∨ (∃ ticks, s.state = .starved ticks) ∧ s.buffered = 0

omit [NeZero cap] in
theorem Going.quiet (going : s.Going) : s.Quiet ∧ s.state ≠ .idle := by
  rcases going with playing | ⟨⟨ticks, starved⟩, empty⟩
  · exact ⟨quiet_of_playing playing, by rw [playing]; nofun⟩
  · exact ⟨fun _ => empty, by rw [starved]; nofun⟩

theorem playMissing_book (missing : s.book.first = none) (playing : s.state = .playing) :
    (s.playMissing t).1.Going ∧ ∃ out, Book.Ticks s.book out (s.playMissing t).1.book ∧
      Hands out (s.playMissing t).2 := by
  unfold playMissing
  simp only
  split
  next here =>
    split
    · exact ⟨Or.inl playing, none, .rest _, hands_none nofun⟩
    · split
      · exact ⟨Or.inl playing, none, .pass missing, hands_none nofun⟩
      · exact ⟨Or.inl playing, none, .pass missing, hands_none nofun⟩
  next nothing =>
    simp only [gt_iff_lt, Bool.or_eq_true, decide_eq_true_eq, not_or, not_lt, Nat.le_zero] at nothing
    exact ⟨.inr ⟨⟨1, rfl⟩, nothing.1⟩, none, .rest _, hands_none nofun⟩

theorem playNext_book (playing : s.state = .playing) : (s.playNext t).1.Going ∧
    ∃ out, Book.Ticks s.book out (s.playNext t).1.book ∧ Hands out (s.playNext t).2 := by
  unfold playNext
  split
  next slot here =>
    split
    · exact ⟨Or.inl playing, none, .rest _, hands_none nofun⟩
    · refine ⟨Or.inl playing, some slot, .decode here, fun p => ?_⟩
      simp
  next missing => exact playMissing_book missing playing

theorem play_book (playing : s.state = .playing) : (s.play t).1.Going ∧
    ∃ out, Book.Ticks s.book out (s.play t).1.book ∧ Hands out (s.play t).2 := by
  obtain ⟨state, trimmed⟩ := trimDelay_book s t
  obtain ⟨going, out, ticks, hands⟩ := playNext_book (t := t) (state.trans playing)
  refine ⟨going, out, ?_, hands⟩
  rcases trimmed with same | ⟨slot, here, skipped⟩
  · exact same ▸ ticks
  · rw [skipped] at ticks
    exact .skip here ticks

theorem next_book (sound : s.Sound) (t : Target) (now : Nat) : (s.next t now).1.Quiet ∧
    ((s.next t now).1.state = .idle → (s.next t now).1 = s) ∧
    ∃ out, Book.Ticks s.book out (s.next t now).1.book ∧ Hands out (s.next t now).2 := by
  have played : ∀ {s' : JitterBuffer cap α}, s'.state = .playing → (s'.play t).1.Quiet ∧
      ((s'.play t).1.state = .idle → (s'.play t).1 = s) ∧
      ∃ out, Book.Ticks s'.book out (s'.play t).1.book ∧ Hands out (s'.play t).2 := by
    intro s' playing
    obtain ⟨going, ticks⟩ := play_book (t := t) playing
    exact ⟨going.quiet.1, fun idle => absurd idle going.quiet.2, ticks⟩
  unfold next
  split
  next idle => exact ⟨sound.quiet, fun _ => rfl, none, .rest _, hands_none nofun⟩
  next held =>
    split
    · have began : { s with state := .playing }.state = .playing := rfl
      exact played began
    · split
      · exact ⟨quiet_of_prebuffer held, fun idle => absurd (held.symm.trans idle) nofun, none, .rest _,
          hands_none nofun⟩
      · exact ⟨quiet_of_prebuffer held, fun _ => rfl, none, .rest _, hands_none nofun⟩
  next playing => exact played playing
  next ticks starved =>
    have empty := sound.quiet (.inr ⟨ticks, starved⟩)
    simp only
    split
    · exact ⟨quiet_of_playing rfl, nofun, none, .pass (sound.first_eq_none empty), hands_none nofun⟩
    · refine ⟨fun _ => empty, nofun, none, .rest _, hands_none fun p => ?_⟩
      split <;> nofun

end JitterBuffer

/-! ## A packet -/

/-- What a packet does: one that is known already or comes late changes no slot;
    others find the next number where it was, or bring it to theirs. -/
inductive Arrival where
  | repeated
  | late
  | stays
  | jumps
  | lowers
  | restarts
  deriving DecidableEq

namespace Book

variable {cap : Nat} [NeZero cap] {α : Type} (b : Book cap α)

def stored (slot : Slot α) : Book cap α :=
  { b with
    slots := Function.update b.slots (idx cap slot.seq) (some slot)
    buffered := if (b.slots (idx cap slot.seq)).isNone then b.buffered + 1 else b.buffered }

inductive Takes (slot : Slot α) : Arrival → Book cap α → Prop where
  | repeated : Takes slot .repeated b
  | late (behind : slot.seq < b.nextSeq) : Takes slot .late { b with received := b.received + 1, late := b.late + 1 }
  | stays (low : b.nextSeq ≤ slot.seq) (high : slot.seq < b.nextSeq + cap) :
      Takes slot .stays ({ b with received := b.received + 1 }.stored slot)
  | jumps (empty : b.buffered = 0) (low : b.nextSeq ≤ slot.seq) :
      Takes slot .jumps ({ b with received := b.received + 1, nextSeq := slot.seq }.stored slot)
  | lowers (behind : slot.seq < b.nextSeq) :
      Takes slot .lowers ({ b with received := b.received + 1, nextSeq := slot.seq }.stored slot)
  | restarts (far : b.nextSeq + cap ≤ slot.seq) :
      Takes slot .restarts ({ b with
        slots := fun _ => none, buffered := 0, nextSeq := slot.seq, received := b.received + 1 }.stored slot)

end Book

namespace JitterBuffer

variable {cap : Nat} [NeZero cap] {α : Type} {s s' : JitterBuffer cap α} {t : Target} {seq ts : Int} {arrival : Nat}

/-- Does the buffer wait before it plays? -/
def Prebuffers (s : JitterBuffer cap α) : Prop := ∃ deadline hadAudio, s.state = .prebuffer deadline hadAudio

omit [NeZero cap] in
/-- Where a packet finds the next number: where it was, at its own in an empty ring,
    or above it in one that waits before it plays. -/
theorem settle_cases (quiet : s.Quiet) (start : s.state = .idle → s.nextSeq ≤ seq) (t : Target) (ts : Int)
    (arrival : Nat) :
    (s.settle t seq ts arrival = none ∧ seq < s.nextSeq) ∨
    ∃ s', s.settle t seq ts arrival = some s' ∧ (s'.state = .playing ∨ s'.Prebuffers) ∧
      ((s'.book = s.book ∧ s.nextSeq ≤ seq) ∨
        (s'.book = { s.book with nextSeq := seq } ∧ s.buffered = 0 ∧ s.nextSeq ≤ seq) ∨
        (s'.book = { s.book with nextSeq := seq } ∧ seq < s.nextSeq ∧ s.Prebuffers)) := by
  unfold settle
  split
  next idle => exact .inr ⟨_, rfl, .inr ⟨_, _, rfl⟩, .inr (.inl ⟨rfl, quiet (.inl idle), start idle⟩)⟩
  next deadline hadAudio held =>
    refine .inr ⟨_, rfl, ?_, ?_⟩
    · refine .inr ⟨deadline, hadAudio, ?_⟩
      split <;> split <;> exact held
    · by_cases below : seq < s.nextSeq
      · refine .inr (.inr ⟨?_, below, deadline, hadAudio, held⟩)
        rw [if_pos below]
        split <;> rfl
      · refine .inl ⟨?_, not_lt.mp below⟩
        rw [if_neg below]
        split <;> rfl
  next playing =>
    split
    next below => exact .inl ⟨rfl, below⟩
    next low => exact .inr ⟨_, rfl, .inl playing, .inl ⟨rfl, not_lt.mp low⟩⟩
  next ticks starved =>
    have empty := quiet (.inr ⟨ticks, starved⟩)
    split
    next below => exact .inl ⟨rfl, below⟩
    next low =>
      simp only
      split
      · exact .inr ⟨_, rfl, .inr ⟨_, _, rfl⟩, .inr (.inl ⟨rfl, empty, not_lt.mp low⟩)⟩
      · exact .inr ⟨_, rfl, .inl rfl, .inl ⟨rfl, not_lt.mp low⟩⟩

/-- Does a call start the ring over? -/
def restarts (s : JitterBuffer cap α) : Call α → Bool
  | .insert t seq ts _ arrival =>
      let (seq, ts) := s.extended seq ts
      !s.duplicate seq && ((s.admitted seq ts).settle t seq ts arrival).any (·.farAhead seq)
  | _ => false

omit [NeZero cap] in
theorem quiet_of_plays (plays : s.state = .playing ∨ s.Prebuffers) : s.Quiet := by
  rcases plays with playing | ⟨deadline, hadAudio, held⟩
  · exact quiet_of_playing playing
  · exact quiet_of_prebuffer held

omit [NeZero cap] in
theorem not_idle_of_plays (plays : s.state = .playing ∨ s.Prebuffers) : s.state ≠ .idle := by
  intro idle
  rcases plays with playing | ⟨deadline, hadAudio, held⟩
  · rw [idle] at playing
    cases playing
  · rw [idle] at held
    cases held

theorem store_book (slot : Slot α) : (s.store slot.seq slot.ts slot.payload).book = s.book.stored slot := rfl

omit [NeZero cap] in
theorem resync_book : (s.resync t seq ts arrival).book =
    { s.book with slots := fun _ => none, buffered := 0, nextSeq := seq } := rfl

theorem insert_book (sound : s.Sound) (t : Target) (seq : BitVec 16) (ts : BitVec 32) (payload : α) (arrival : Nat) :
    let slot : Slot α := ⟨(s.extended seq ts).1, (s.extended seq ts).2, payload⟩
    ∃ how, s.book.Takes slot how (s.insert t seq ts payload arrival).book ∧
      (how = .repeated ↔ s.duplicate slot.seq = true) ∧ (how = .lowers → s.Prebuffers) ∧
      (how = .restarts ↔ s.restarts (.insert t seq ts payload arrival) = true) ∧
      (s.insert t seq ts payload arrival).Quiet ∧ ((s.insert t seq ts payload arrival).state = .idle →
        (s.insert t seq ts payload arrival).highest = none ∧ (s.insert t seq ts payload arrival).nextSeq = 0) := by
  unfold insert restarts
  simp only
  have start : s.state = .idle → s.nextSeq ≤ (s.extended seq ts).1 := by
    intro idle
    obtain ⟨unheard, zero⟩ := sound.fresh idle
    rw [extended, unheard, zero]
    exact Int.natCast_nonneg _
  generalize s.extended seq ts = ext at start ⊢
  obtain ⟨seq, ts⟩ := ext
  simp only at start ⊢
  split
  next known =>
    refine ⟨.repeated, .repeated, by simp [known], nofun, by simp [known], sound.quiet, sound.fresh⟩
  next new =>
    rw [Bool.not_eq_true] at new
    simp only [new, Bool.not_false, Bool.true_and]
    have admitted : (s.admitted seq ts).book = { s.book with received := s.n.received + 1 } := rfl
    rcases settle_cases (s := s.admitted seq ts) sound.quiet start t ts arrival with
      ⟨late, behind⟩ | ⟨s', settled, plays, found⟩
    · simp only [late]
      refine ⟨.late, .late behind, by simp, nofun, by simp, sound.quiet, fun idle => ?_⟩
      have low := start idle
      exact absurd behind (not_lt.mpr low)
    · simp only [settled, Option.any_some]
      rw [admitted] at found
      split
      next far =>
        have far' : s'.nextSeq + cap ≤ seq := by
          rw [farAhead, decide_eq_true_eq] at far
          omega
        refine ⟨.restarts, ?_, by simp, nofun, by simp [far], quiet_of_prebuffer rfl, nofun⟩
        have stays : s'.book = { s.book with received := s.n.received + 1 } := by
          have own : s'.nextSeq ≠ seq := by
            have := SeqRing.cast_pos cap
            omega
          rcases found with ⟨same, -⟩ | ⟨moved, -⟩ | ⟨moved, -⟩
          · exact same
          · exact absurd (congrArg Book.nextSeq moved) own
          · exact absurd (congrArg Book.nextSeq moved) own
        have next : s'.nextSeq = s.nextSeq := congrArg Book.nextSeq stays
        rw [store_book ⟨seq, ts, payload⟩, resync_book, stays]
        have far_book : s.nextSeq + cap ≤ seq := next ▸ far'
        exact .restarts far_book
      next near =>
        have near' : seq < s'.nextSeq + cap := by
          rw [farAhead, decide_eq_true_eq, not_le] at near
          omega
        have idle_not : (s'.store seq ts payload).state ≠ .idle := not_idle_of_plays plays
        have quiet : (s'.store seq ts payload).Quiet := quiet_of_plays plays
        rw [store_book ⟨seq, ts, payload⟩]
        rcases found with ⟨same, low⟩ | ⟨moved, empty, low⟩ | ⟨moved, behind, held⟩
        · have next : s'.nextSeq = s.nextSeq := congrArg Book.nextSeq same
          have high : seq < s.nextSeq + cap := next ▸ near'
          rw [same]
          exact ⟨.stays, .stays low high, by simp, nofun, by simp [near], quiet, fun idle => absurd idle idle_not⟩
        · rw [moved]
          exact ⟨.jumps, .jumps empty low, by simp, nofun, by simp [near], quiet, fun idle => absurd idle idle_not⟩
        · rw [moved]
          exact ⟨.lowers, .lowers behind, by simp, fun _ => held, by simp [near], quiet, fun idle => absurd idle idle_not⟩

end JitterBuffer

/-! ## What the books keep -/

namespace Book

variable {cap : Nat} [NeZero cap] {α : Type} {b b' : Book cap α} {slot : Slot α} {out : Option (Slot α)} {how : Arrival}

theorem Takes.behind (takes : b.Takes slot .lowers b') : slot.seq < b.nextSeq := by
  cases takes with
  | lowers behind => exact behind

/-- The count of packets held is right. -/
def Counts (b : Book cap α) : Prop := b.buffered = (holding b.slots).card

theorem holding_taken (here : b.first = some slot) : slot ::ₘ holding b.taken.slots = holding b.slots :=
  SeqRing.holding_take (SeqRing.entry_eq_some.mp here).1

theorem Counts.taken (counts : b.Counts) (here : b.first = some slot) : b.taken.Counts := by
  have card := congrArg Multiset.card (holding_taken here)
  rw [Multiset.card_cons, ← counts] at card
  have less : b.taken.buffered = b.buffered - 1 := rfl
  rw [Counts, less]
  omega

theorem Counts.stored (counts : b.Counts) (slot : Slot α) : (b.stored slot).Counts := by
  simp only [Counts, Book.stored]
  cases here : b.slots (idx cap slot.seq) with
  | none =>
      rw [SeqRing.holding_put here, Multiset.card_cons, ← counts]
      rfl
  | some old =>
      have card := congrArg Multiset.card (SeqRing.holding_replace (b := slot) here)
      rw [Multiset.card_cons, Multiset.card_cons, ← counts] at card
      simp only [Option.isNone_some, Bool.false_eq_true, if_false]
      omega

theorem Counts.ticks (counts : b.Counts) (ticks : b.Ticks out b') : b'.Counts := by
  induction ticks with
  | rest b => exact counts
  | pass missing => exact counts
  | decode here => exact counts.taken here
  | skip here later ih => exact ih (counts.taken here)

theorem Counts.takes (counts : b.Counts) (takes : b.Takes slot how b') : b'.Counts := by
  cases takes with
  | repeated => exact counts
  | late behind => exact counts
  | stays low high => exact Counts.stored (b := { b with received := b.received + 1 }) counts slot
  | jumps empty low => exact Counts.stored (b := { b with received := b.received + 1, nextSeq := slot.seq }) counts slot
  | lowers behind => exact Counts.stored (b := { b with received := b.received + 1, nextSeq := slot.seq }) counts slot
  | restarts far => exact Counts.stored (by simp [Counts]) slot

/-- Each packet held is at its place, and in the ring from the next number on. -/
def Windowed (b : Book cap α) : Prop := Within Slot.seq b.slots b.nextSeq

theorem Windowed.ticks (windowed : b.Windowed) (ticks : b.Ticks out b') : b'.Windowed := by
  induction ticks with
  | rest b => exact windowed
  | pass missing => exact windowed.pass missing
  | decode here => exact windowed.next
  | skip here later ih => exact ih windowed.next

theorem Counts.windowed (counts : b.Counts) (empty : b.buffered = 0) (lo : Int) : Within Slot.seq b.slots lo := by
  intro i slot here
  have none_held : holding b.slots = 0 := Multiset.card_eq_zero.mp (counts.symm.trans empty)
  have member := SeqRing.mem_holding.mpr ⟨i, here⟩
  rw [none_held] at member
  cases member

/-- A packet that lowers the next number leaves every other one in the ring. -/
def Spans (b : Book cap α) (slot : Slot α) (how : Arrival) : Prop :=
  how = .lowers → ∀ i, ∀ held ∈ b.slots i, held.seq < slot.seq + cap

theorem Windowed.lowered (windowed : b.Windowed) (spans : b.Spans slot .lowers) (behind : slot.seq < b.nextSeq) :
    Within Slot.seq b.slots slot.seq := by
  intro i held here
  obtain ⟨own, low, -⟩ := windowed i held here
  exact ⟨own, by omega, spans rfl i held here⟩

theorem Windowed.takes (windowed : b.Windowed) (counts : b.Counts) (spans : b.Spans slot how)
    (takes : b.Takes slot how b') : b'.Windowed := by
  have wide := SeqRing.cast_pos cap
  cases takes with
  | repeated => exact windowed
  | late behind => exact windowed
  | stays low high => exact windowed.put low high
  | jumps empty low => exact (counts.windowed empty slot.seq).put le_rfl (by omega)
  | lowers behind => exact (windowed.lowered spans behind).put le_rfl (by omega)
  | restarts far =>
      have empty : Within Slot.seq (fun _ : Fin cap => (none : Option (Slot α))) slot.seq := SeqRing.within_empty
      exact empty.put le_rfl (by omega)

/-- Every packet received is decoded, skipped, late, still held, or was thrown away. -/
def Balanced (discarded : Nat) (b : Book cap α) : Prop :=
  b.received = b.decoded + b.dropped + b.late + b.buffered + discarded

theorem Balanced.ticks {discarded : Nat} (balanced : b.Balanced discarded) (counts : b.Counts)
    (ticks : b.Ticks out b') : b'.Balanced discarded := by
  have positive : ∀ {b : Book cap α} {slot : Slot α}, b.Counts → b.first = some slot →
      b.taken.buffered + 1 = b.buffered := by
    intro b slot counts here
    have card := congrArg Multiset.card (holding_taken here)
    rw [Multiset.card_cons, ← counts, ← counts.taken here] at card
    exact card
  induction ticks with
  | rest b => exact balanced
  | pass missing => exact balanced
  | decode here =>
      have less := positive counts here
      simp only [Balanced, Book.taken] at balanced less ⊢
      omega
  | skip here later ih =>
      have less := positive counts here
      refine ih ?_ (counts.taken here)
      simp only [Balanced, Book.taken] at balanced less ⊢
      omega

theorem Balanced.stored {discarded : Nat} {b₀ : Book cap α} (balanced : b₀.Balanced discarded) {lo : Int}
    (free : b₀.slots (idx cap slot.seq) = none) :
    ({ b₀ with received := b₀.received + 1, nextSeq := lo }.stored slot).Balanced discarded := by
  simp only [Balanced, Book.stored, free, Option.isNone_none, if_true] at balanced ⊢
  omega

theorem Balanced.takes {discarded : Nat} (balanced : b.Balanced discarded) (windowed : b.Windowed) (counts : b.Counts)
    (spans : b.Spans slot how) (fresh : how ≠ .repeated → entry Slot.seq b.slots slot.seq = none)
    (takes : b.Takes slot how b') : b'.Balanced (discarded + if how = .restarts then b.buffered else 0) := by
  have wide := SeqRing.cast_pos cap
  cases takes with
  | repeated => exact balanced
  | late behind =>
      simp only [Balanced] at balanced ⊢
      rw [if_neg nofun]
      omega
  | stays low high => exact balanced.stored (windowed.free low high (fresh nofun))
  | jumps empty low =>
      exact balanced.stored ((counts.windowed empty slot.seq).free le_rfl (by omega) (fresh nofun))
  | lowers behind =>
      exact balanced.stored ((windowed.lowered spans behind).free le_rfl (by omega) (fresh nofun))
  | restarts far =>
      simp only [Balanced, Book.stored, Option.isNone_none, if_true] at balanced ⊢
      omega

theorem holding_ticks (ticks : b.Ticks out b') : (out.elim 0 fun slot => {slot}) + holding b'.slots ≤ holding b.slots := by
  induction ticks with
  | rest b => exact (zero_add _).le
  | pass missing => exact (zero_add _).le
  | decode here => exact (holding_taken here).le
  | skip here later ih => exact ih.trans ((Multiset.le_cons_self _ _).trans (holding_taken here).le)

theorem holding_stored (b : Book cap α) (slot : Slot α) : holding (b.stored slot).slots ≤ slot ::ₘ holding b.slots := by
  simp only [Book.stored]
  cases here : b.slots (idx cap slot.seq) with
  | none => exact (SeqRing.holding_put here).le
  | some old => exact (Multiset.le_cons_self _ old).trans (SeqRing.holding_replace here).le

theorem holding_takes (takes : b.Takes slot how b') :
    holding b'.slots ≤ holding b.slots + if how = .repeated then 0 else {slot} := by
  have put : ∀ b₀ : Book cap α, b₀.slots = b.slots → holding (b₀.stored slot).slots ≤ holding b.slots + {slot} := by
    intro b₀ same
    have more := holding_stored b₀ slot
    rw [same, ← Multiset.singleton_add, add_comm] at more
    exact more
  cases takes with
  | repeated => exact Multiset.le_add_right ..
  | late behind => exact Multiset.le_add_right ..
  | stays low high => exact put _ rfl
  | jumps empty low => exact put _ rfl
  | lowers behind => exact put _ rfl
  | restarts far =>
      refine (holding_stored _ slot).trans ?_
      simp only [SeqRing.holding_empty, Multiset.cons_zero]
      exact Multiset.le_add_left ..

end Book

/-! ## Whole runs -/

namespace JitterBuffer

variable {cap : Nat} [NeZero cap] {α : Type}

/-- What the calls of a run come to. -/
def tally {M : Type} [AddCommMonoid M] (what : JitterBuffer cap α → Call α → M) :
    JitterBuffer cap α → List (Call α) → M
  | _, [] => 0
  | s, c :: rest => what s c + tally what (s.call c) rest

/-- The payload a call brings in, if it is not a repeated one. -/
def accepts (s : JitterBuffer cap α) : Call α → Multiset α
  | .insert _ seq ts payload _ => if s.duplicate (s.extended seq ts).1 then 0 else {payload}
  | _ => 0

/-- The payload a call hands out to be decoded. -/
def hands (s : JitterBuffer cap α) : Call α → Multiset α
  | .next t now => match (s.next t now).2 with
      | .decode p => {p}
      | _ => 0
  | _ => 0

/-- The packets a call throws away when it starts the ring over. -/
def discards (s : JitterBuffer cap α) (c : Call α) : Nat := if s.restarts c then s.buffered else 0

instance (s : JitterBuffer cap α) : Decidable s.Prebuffers :=
  match same : s.state with
  | .prebuffer deadline hadAudio => .isTrue ⟨deadline, hadAudio, same⟩
  | .idle | .playing | .starved _ => .isFalse (by
      rintro ⟨deadline, hadAudio, held⟩
      rw [same] at held
      cases held)

/-- A new packet is not in the ring, and one that lowers the next number is less than
    a ring's length below every packet held. -/
def Fits (s : JitterBuffer cap α) : Call α → Prop
  | .insert _ seq ts _ _ =>
      s.duplicate (s.extended seq ts).1 = false →
        s.slotAt (s.extended seq ts).1 = none ∧ (s.Prebuffers → (s.extended seq ts).1 < s.nextSeq →
          ∀ i, ∀ held ∈ s.slots i, held.seq < (s.extended seq ts).1 + cap)
  | _ => True

instance (s : JitterBuffer cap α) (c : Call α) : Decidable (s.Fits c) :=
  match c with
  | .insert .. => inferInstanceAs (Decidable (_ → _ ∧ (_ → _ → ∀ i, ∀ held ∈ s.slots i, _ < _)))
  | .hintLost _ | .next .. | .fecUnavailable => .isTrue trivial

/-- Every call of a run finds the buffer so. -/
def Along (holds : JitterBuffer cap α → Call α → Prop) : JitterBuffer cap α → List (Call α) → Prop
  | _, [] => True
  | s, c :: rest => holds s c ∧ Along holds (s.call c) rest

instance decidableAlong (holds : JitterBuffer cap α → Call α → Prop) [∀ s c, Decidable (holds s c)] :
    (s : JitterBuffer cap α) → (calls : List (Call α)) → Decidable (Along holds s calls)
  | _, [] => .isTrue trivial
  | s, c :: rest =>
      have := decidableAlong holds (s.call c) rest
      inferInstanceAs (Decidable (_ ∧ _))

variable {s : JitterBuffer cap α}

omit [NeZero cap] in
theorem Sound.of_still {s' : JitterBuffer cap α} (sound : s.Sound) (book : s'.book = s.book) (state : s'.state = s.state)
    (highest : s'.highest = s.highest) : s'.Sound := by
  have buffered : s'.buffered = s.buffered := congrArg Book.buffered book
  have slots : s'.slots = s.slots := congrArg Book.slots book
  have nextSeq : s'.nextSeq = s.nextSeq := congrArg Book.nextSeq book
  refine ⟨?_, fun waits => ?_, fun idle => ?_⟩
  · rw [buffered, slots]
    exact sound.count
  · rw [buffered]
    exact sound.quiet (state ▸ waits)
  · rw [highest, nextSeq]
    exact sound.fresh (state ▸ idle)

omit [NeZero cap] in
theorem hintLost_still (s : JitterBuffer cap α) (seq : BitVec 16) :
    (s.hintLost seq).book = s.book ∧ (s.hintLost seq).state = s.state ∧ (s.hintLost seq).highest = s.highest := by
  unfold hintLost
  split <;> exact ⟨rfl, rfl, rfl⟩

theorem Sound.call (sound : s.Sound) (c : Call α) : (s.call c).Sound := by
  cases c with
  | insert t seq ts payload arrival =>
      obtain ⟨how, takes, -, -, -, quiet, fresh⟩ := insert_book sound t seq ts payload arrival
      exact ⟨Book.Counts.takes (b := s.book) sound.count takes, quiet, fresh⟩
  | hintLost seq =>
      obtain ⟨book, state, highest⟩ := hintLost_still s seq
      exact sound.of_still book state highest
  | next t now =>
      obtain ⟨quiet, still, out, ticks, -⟩ := next_book sound t now
      refine ⟨Book.Counts.ticks (b := s.book) sound.count ticks, quiet, fun idle => ?_⟩
      have same : (s.next t now).1 = s := still idle
      simp only [JitterBuffer.call, same] at idle ⊢
      exact sound.fresh idle
  | fecUnavailable => exact sound.of_still rfl rfl rfl

theorem covered (sound : s.Sound) (calls : List (Call α)) :
    tally hands s calls + (holding (calls.foldl call s).slots).map Slot.payload ≤
      (holding s.slots).map Slot.payload + tally accepts s calls := by
  induction calls generalizing s with
  | nil => simp [tally]
  | cons c rest ih =>
      have one : s.hands c + (holding (s.call c).slots).map Slot.payload ≤
          (holding s.slots).map Slot.payload + s.accepts c := by
        cases c with
        | insert t seq ts payload arrival =>
            obtain ⟨how, takes, repeated, -⟩ := insert_book sound t seq ts payload arrival
            have within := Multiset.map_le_map (f := Slot.payload) (Book.holding_takes takes)
            simp only [hands, zero_add, accepts]
            refine within.trans_eq ?_
            rw [Multiset.map_add]
            congr 1
            by_cases known : s.duplicate (s.extended seq ts).1 = true
            · rw [if_pos known, if_pos (repeated.mpr known), Multiset.map_zero]
            · rw [if_neg known, if_neg fun same => known (repeated.mp same), Multiset.map_singleton]
        | hintLost seq =>
            have slots : (s.hintLost seq).slots = s.slots := congrArg Book.slots (hintLost_still s seq).1
            simp only [hands, accepts, call, slots, zero_add, add_zero, le_refl]
        | next t now =>
            obtain ⟨-, -, out, ticks, handed⟩ := next_book sound t now
            have within := Multiset.map_le_map (f := Slot.payload) (Book.holding_ticks ticks)
            rw [Multiset.map_add] at within
            simp only [accepts, add_zero, hands, call]
            refine le_trans (add_le_add_left ?_ _) within
            split
            next p decodes =>
              obtain ⟨slot, rfl, rfl⟩ := (handed p).mp decodes
              exact le_rfl
            next => exact Multiset.zero_le _
        | fecUnavailable =>
            simp only [hands, accepts, zero_add, add_zero]
            exact le_rfl
      have later := ih (sound.call c)
      simp only [tally, List.foldl_cons]
      calc s.hands c + tally hands (s.call c) rest + (holding (rest.foldl call (s.call c)).slots).map Slot.payload
          ≤ s.hands c + ((holding (s.call c).slots).map Slot.payload + tally accepts (s.call c) rest) := by
            rw [add_assoc]
            exact add_le_add_right later _
        _ ≤ (holding s.slots).map Slot.payload + s.accepts c + tally accepts (s.call c) rest := by
            rw [← add_assoc]
            exact add_le_add_left one _
        _ = (holding s.slots).map Slot.payload + (s.accepts c + tally accepts (s.call c) rest) := add_assoc ..

theorem windowed_call (sound : s.Sound) {discarded : Nat} (windowed : s.book.Windowed)
    (balanced : s.book.Balanced discarded) (c : Call α) (fits : s.Fits c) :
    (s.call c).book.Windowed ∧ (s.call c).book.Balanced (discarded + s.discards c) := by
  cases c with
  | insert t seq ts payload arrival =>
      obtain ⟨how, takes, repeated, lowers, restarts, -⟩ := insert_book sound t seq ts payload arrival
      have counts : s.book.Counts := sound.count
      have spans : s.book.Spans ⟨(s.extended seq ts).1, (s.extended seq ts).2, payload⟩ how := by
        rintro rfl
        have new : s.duplicate (s.extended seq ts).1 = false := Bool.eq_false_iff.mpr fun known =>
          Arrival.noConfusion (repeated.mpr known)
        exact (fits new).2 (lowers rfl) takes.behind
      have fresh : how ≠ .repeated → entry Slot.seq s.book.slots (s.extended seq ts).1 = none :=
        fun apart => (fits (Bool.eq_false_iff.mpr fun known => apart (repeated.mpr known))).1
      have thrown : s.discards (.insert t seq ts payload arrival) = if how = .restarts then s.book.buffered else 0 := by
        rw [discards]
        by_cases over_again : how = .restarts
        · rw [if_pos (restarts.mp over_again), if_pos over_again]
          rfl
        · rw [if_neg fun same => over_again (restarts.mpr same), if_neg over_again]
      rw [thrown]
      exact ⟨windowed.takes counts spans takes, balanced.takes windowed counts spans fresh takes⟩
  | hintLost seq =>
      have book : (s.call (.hintLost seq)).book = s.book := (hintLost_still s seq).1
      rw [book]
      exact ⟨windowed, balanced⟩
  | next t now =>
      obtain ⟨-, -, out, ticks, -⟩ := next_book sound t now
      exact ⟨windowed.ticks ticks, balanced.ticks sound.count ticks⟩
  | fecUnavailable => exact ⟨windowed, balanced⟩

theorem windowed_run (sound : s.Sound) {discarded : Nat} (windowed : s.book.Windowed)
    (balanced : s.book.Balanced discarded) {calls : List (Call α)} (fits : Along Fits s calls) :
    (calls.foldl call s).book.Windowed ∧ (calls.foldl call s).book.Balanced (discarded + tally discards s calls) := by
  induction calls generalizing s discarded with
  | nil => exact ⟨windowed, balanced⟩
  | cons c rest ih =>
      obtain ⟨windowed', balanced'⟩ := windowed_call sound windowed balanced c fits.1
      have later := ih (sound.call c) windowed' balanced' fits.2
      rw [add_assoc] at later
      exact later

theorem sound_run (sound : s.Sound) (calls : List (Call α)) : (calls.foldl call s).Sound := by
  induction calls generalizing s with
  | nil => exact sound
  | cons c rest ih => exact ih (sound.call c)

omit [NeZero cap] in
theorem card_holding (slots : Fin cap → Option (Slot α)) :
    (holding slots).card = (Finset.univ.filter fun i => (slots i).isSome).card := by
  rw [holding, Multiset.card_sum, Finset.card_filter]
  refine Finset.sum_congr rfl fun i _ => ?_
  cases slots i <;> rfl

end JitterBuffer

/-- In every run of packets, loss hints and ticks, whatever the target delay is at
    each, the count of packets held is that of the occupied slots, and each packet
    that is accepted is handed out to be decoded at most once. When each new packet
    is not in the ring and, where it lowers the next number, leaves the others in
    it, every packet held is at its place and in the ring from the next number on,
    and each one received is decoded, skipped, late, still held, or thrown away
    when the ring started over. -/
theorem packets_accounted (capacityFrames : Nat) {α : Type} (calls : List (Call α)) :
    let s : JitterBuffer (capacity capacityFrames) α := JitterBuffer.run calls
    s.buffered = (Finset.univ.filter fun i => (s.slots i).isSome).card ∧
    JitterBuffer.tally JitterBuffer.hands (.new : JitterBuffer (capacity capacityFrames) α) calls ≤
      JitterBuffer.tally JitterBuffer.accepts (.new : JitterBuffer (capacity capacityFrames) α) calls ∧
    (JitterBuffer.Along JitterBuffer.Fits (.new : JitterBuffer (capacity capacityFrames) α) calls →
      (∀ i, ∀ slot ∈ s.slots i, idx (capacity capacityFrames) slot.seq = i ∧ s.nextSeq ≤ slot.seq ∧
        slot.seq < s.nextSeq + capacity capacityFrames) ∧
      s.n.received = s.n.decoded + s.n.dropped + s.n.late + s.buffered +
        JitterBuffer.tally JitterBuffer.discards (.new : JitterBuffer (capacity capacityFrames) α) calls) := by
  intro s
  have start : (.new : JitterBuffer (capacity capacityFrames) α).Sound := JitterBuffer.new_sound
  have sound : s.Sound := JitterBuffer.sound_run start calls
  refine ⟨sound.count.trans (JitterBuffer.card_holding _), ?_, fun fits => ?_⟩
  · have covered := JitterBuffer.covered start calls
    have none_held : holding (JitterBuffer.new : JitterBuffer (capacity capacityFrames) α).slots = 0 :=
      SeqRing.holding_empty
    rw [none_held, Multiset.map_zero, zero_add] at covered
    exact (Multiset.le_add_right ..).trans covered
  · have none_thrown : (.new : JitterBuffer (capacity capacityFrames) α).book.Balanced 0 := rfl
    obtain ⟨windowed, balanced⟩ := JitterBuffer.windowed_run start SeqRing.within_empty none_thrown fits
    rw [zero_add] at balanced
    exact ⟨windowed, balanced⟩

/-! ### Packets far behind -/

namespace Behind

def steady : Target := ⟨0, fun _ => false, fun _ => false, fun _ => false⟩

def packet (seq : Nat) : Call Nat := .insert steady (BitVec.ofNat 16 seq) (BitVec.ofNat 32 (960 * seq)) seq 0

/-- The second packet is more than a ring's length before the first. -/
def before : List (Call Nat) := [packet 100, packet 10]

/-- A late packet takes the place of a newer one in the history, which is then taken
    in again. -/
def again : List (Call Nat) := [packet 300, .next steady 1, packet 301, packet 45, packet 301]

/-- One packet is lost, and a repeated one is known. -/
def lossy : List (Call Nat) :=
  [packet 300, .next steady 1, packet 302, packet 303, packet 302, .next steady 2, .next steady 3]

end Behind

theorem packets_accounted_lossy :
    let s : JitterBuffer (capacity 64) Nat := JitterBuffer.run Behind.lossy
    (∀ i, ∀ slot ∈ s.slots i, idx (capacity 64) slot.seq = i ∧ s.nextSeq ≤ slot.seq ∧
      slot.seq < s.nextSeq + capacity 64) ∧
    s.n.received = s.n.decoded + s.n.dropped + s.n.late + s.buffered +
      JitterBuffer.tally JitterBuffer.discards (.new : JitterBuffer (capacity 64) Nat) Behind.lossy :=
  (packets_accounted 64 Behind.lossy).2.2 (by decide +kernel)

theorem packets_unaccounted :
    (¬ ∀ (calls : List (Call Nat)) (i : Fin (capacity 64)), ∀ slot ∈ (JitterBuffer.run calls).slots i,
      slot.seq < (JitterBuffer.run calls : JitterBuffer (capacity 64) Nat).nextSeq + capacity 64) ∧
    ¬ ∀ calls : List (Call Nat), let s : JitterBuffer (capacity 64) Nat := JitterBuffer.run calls
      s.n.received = s.n.decoded + s.n.dropped + s.n.late + s.buffered +
        JitterBuffer.tally JitterBuffer.discards (.new : JitterBuffer (capacity 64) Nat) calls := by
  constructor
  · intro near
    have held : (JitterBuffer.run Behind.before : JitterBuffer (capacity 64) Nat).slots (idx (capacity 64) 100) =
        some ⟨100, 96000, 100⟩ := by decide +kernel
    have low : (JitterBuffer.run Behind.before : JitterBuffer (capacity 64) Nat).nextSeq = 10 := by decide +kernel
    have close := near Behind.before _ _ held
    rw [low] at close
    exact absurd close (by decide)
  · intro balanced
    have four := balanced Behind.again
    revert four
    decide +kernel

end K2.KesselAudio
