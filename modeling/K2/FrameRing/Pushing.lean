import K2.FrameRing.Writing

/-! # A producer beside the consumer

From attach on a producer's own counts agree with the ring, and its stores keep
the world good. -/

namespace K2.FrameRing

open SharedMemory Prog WrappedCount

/-- What the consumer does beside a producer. -/
structure Looks (w w' : World) : Prop where
  books : w'.books = w.books
  turn : w'.turn = w.turn
  held : w'.held = w.held
  mem : ∀ place, place ∉ spare → w'.mem place = w.mem place

/-- What a producer's store does, on a push or not. -/
structure Writes (l : Layout) (push : Option Push) (w : World) (place v : Nat) (w' : World) : Prop where
  mem : w'.mem = Function.update w.mem place v
  books : w'.books = push.elim w.books fun p => w.books.note l p place v
  later : Later w w'
  good : Good l w'

/-- A producer beside the consumer comes to what `P` says. -/
abbrev Produces {α : Type} (l : Layout) (push : Option Push) (P : World → α → Prop) (prog : Prog α) (w : World) : Prop :=
  prog.Under Looks World.mem (Writes l push) P w

variable {α β : Type} {l : Layout} {w w' w'' : World} {slot : Nat} {push : Option Push} {p : Push} {q : Producer}

theorem Looks.refl (w : World) : Looks w w := ⟨rfl, rfl, rfl, fun _ _ => rfl⟩

theorem Looks.trans (first : Looks w w') (second : Looks w' w'') : Looks w w'' where
  books := second.books.trans first.books
  turn := second.turn.trans first.turn
  held := second.held.trans first.held
  mem place other := (second.mem place other).trans (first.mem place other)

theorem Looks.eq (looks : Looks w w') : w' = { w with mem := w'.mem } := by
  obtain ⟨books, turn, held, -⟩ := looks
  cases w'
  dsimp only at *
  rw [books, turn, held]

theorem Looks.later (looks : Looks w w') : Later w w' := looks.eq ▸ { Later.refl w with }

theorem Good.looks (bounds : l.Bounds) (good : Good l w) (looks : Looks w w') : Good l w' := by
  rw [looks.eq]
  exact good.frame bounds fun place tracked => looks.mem place tracked.not_spare

theorem looks_store {place : Nat} (v : Nat) (mem : place ∈ spare) :
    Looks w { w with mem := Function.update w.mem place v } where
  books := rfl
  turn := rfl
  held := rfl
  mem other outside := by
    refine Function.update_of_ne ?_ ..
    rintro rfl
    exact outside mem

/-! ## Single steps -/

theorem note_other {b : Books} {place : Nat} (v : Nat) (latest : place ≠ hLatest)
    (seq : place ≠ l.slotBase p.slot + slSeq) : b.note l p place v = b := by
  rw [Books.note, if_neg latest, if_neg seq]

theorem note_opens (b : Books) {v : Nat} (odd : v % 2 = 1) : b.note l p (l.slotBase p.slot + slSeq) v =
    { b with begun := Function.update b.begun p.slot (b.begun p.slot + 1) } := by
  have apart : l.slotBase p.slot + slSeq ≠ hLatest := Ne.symm (low_ne (by decide))
  rw [Books.note, if_neg apart, if_pos rfl, if_pos odd]

theorem note_seals (b : Books) {v : Nat} (even : v % 2 = 0) : b.note l p (l.slotBase p.slot + slSeq) v =
    { b with sealed := b.sealed ++ [p] } := by
  have apart : l.slotBase p.slot + slSeq ≠ hLatest := Ne.symm (low_ne (by decide))
  rw [Books.note, if_neg apart, if_pos rfl, if_neg (by omega)]

theorem note_publishes (b : Books) (v : Nat) : b.note l p hLatest v = { b with completed := b.completed ++ [p] } :=
  if_pos rfl

section Steps

variable (bounds : l.Bounds) {w₀ : World} {R : World → β → Prop}
include bounds

theorem fetch_under {wd : Width} {place : Nat} {f : Nat → Prog β} (good : Good l w) (looks : Looks w₀ w)
    (rest : ∀ w', Looks w₀ w' → Good l w' → Produces l push R (f (w'.mem place)) w') :
    Produces l push R (fetch wd place >>= f) w :=
  fun w' looks' => rest w' (looks.trans looks') (good.looks bounds looks')

theorem writes_spare {place : Nat} (good : Good l w) (v : Nat) (mem : place ∈ spare) :
    Writes l push w place v { w with mem := Function.update w.mem place v } where
  mem := rfl
  books := by
    cases push with
    | none => rfl
    | some p =>
        have latest : place ≠ hLatest := by
          rintro rfl
          revert mem
          decide
        exact (note_other v latest (low_ne (spare_low mem))).symm
  later := (looks_store v mem).later
  good := good.store_spare bounds v mem

theorem bump_under {place : Nat} {f : Unit → Prog β} (good : Good l w) (looks : Looks w₀ w) (mem : place ∈ spare)
    (rest : ∀ w', Looks w₀ w' → Good l w' → Produces l push R (f ()) w') : Produces l push R (bump place >>= f) w := by
  intro w₁ looks₁ w₂ looks₂
  have good₂ := (good.looks bounds looks₁).looks bounds looks₂
  have stored := looks_store ((w₁.mem place + 1) % 2 ^ 64) mem (w := w₂)
  have looks₃ := looks.trans ((looks₁.trans looks₂).trans stored)
  exact ⟨_, writes_spare bounds good₂ _ mem, rest _ looks₃ (good₂.store_spare bounds _ mem)⟩

end Steps

/-! ## Attach -/

/-- A producer that may push: its own counts agree with the ring. -/
structure Ready (l : Layout) (w : World) (q : Producer) : Prop where
  good : Good l w
  layout : q.layout = l
  nextFrame : q.nextFrame = shown maxFrameNo (w.books.completed.length + 1)
  newest : q.newest = w.books.completed.getLast?.map Push.slot
  seqs : ∀ slot < l.slots, saneSeq (q.seqs slot) = saneSeq (seqWord (w.turn slot))

theorem Ready.looks (bounds : l.Bounds) (ready : Ready l w q) (looks : Looks w w') : Ready l w' q where
  good := ready.good.looks bounds looks
  layout := ready.layout
  nextFrame := looks.books ▸ ready.nextFrame
  newest := looks.books ▸ ready.newest
  seqs slot below := looks.turn ▸ ready.seqs slot below

theorem readLayout_under (bounds : l.Bounds) (good : Good l w) (len : Nat) :
    Produces l push (fun w' o => Looks w w' ∧ ∀ l', o = some l' → l' = l) (readLayout len) w := by
  have refused {w' : World} (looks : Looks w w') :
      Produces l push (fun w' o => Looks w w' ∧ ∀ l', o = some l' → l' = l) (pure none) w' :=
    fun w'' looks' => ⟨looks.trans looks', fun l' absent => nomatch absent⟩
  unfold readLayout
  refine fetch_under bounds good (Looks.refl w) fun w₁ looks₁ good₁ => ?_
  split
  next => exact refused looks₁
  next =>
    refine fetch_under bounds good₁ looks₁ fun w₂ looks₂ good₂ => ?_
    split
    next => exact refused looks₂
    next =>
      refine fetch_under bounds good₂ looks₂ fun w₃ looks₃ good₃ => ?_
      refine fetch_under bounds good₃ looks₃ fun w₄ looks₄ good₄ => ?_
      split
      next => exact refused looks₄
      next =>
        refine fetch_under bounds good₄ looks₄ fun w₅ looks₅ good₅ => ?_
        refine fetch_under bounds good₅ looks₅ fun w₆ looks₆ good₆ => ?_
        refine fetch_under bounds good₆ looks₆ fun w₇ looks₇ good₇ => ?_
        refine fetch_under bounds good₇ looks₇ fun w₈ looks₈ good₈ => ?_
        have width : w₅.mem hMaxWidth = l.maxWidth := good₅.header (hMaxWidth, l.maxWidth) (by simp [headerCells])
        have height : w₆.mem hMaxHeight = l.maxHeight := good₆.header (hMaxHeight, l.maxHeight) (by simp [headerCells])
        have slots : w₇.mem hSlots = l.slots := good₇.header (hSlots, l.slots) (by simp [headerCells])
        have fps : w₈.mem hMaxFps = l.maxFps := good₈.header (hMaxFps, l.maxFps) (by simp [headerCells])
        rw [width, height, slots, fps]
        dsimp only
        split
        next => exact refused looks₈
        next =>
          refine fetch_under bounds good₈ looks₈ fun w₉ looks₉ good₉ => ?_
          split
          next => exact refused looks₉
          next =>
            split
            next => exact refused looks₉
            next => exact fun w' looks' => ⟨looks₉.trans looks', fun l' same => (Option.some.inj same).symm⟩

theorem readSeqs_under (bounds : l.Bounds) (good : Good l w) {n : Nat} (few : n ≤ l.slots) :
    Produces l push (fun w' seqs => Looks w w' ∧ ∀ slot < n, seqs slot = saneSeq (seqWord (w.turn slot)))
      (readSeqs l n) w := by
  induction n with
  | zero => exact fun w' looks => ⟨looks, fun slot below => nomatch below⟩
  | succ n ih =>
      rw [readSeqs]
      refine Under.bind Looks.refl ((ih (by omega)).mono ?_)
      rintro w₁ seqs ⟨looks₁, read⟩
      refine fetch_under bounds (good.looks bounds looks₁) looks₁ fun w₂ looks₂ good₂ w₃ looks₃ => ?_
      refine ⟨looks₂.trans looks₃, fun slot below => ?_⟩
      by_cases last : slot = n
      · subst last
        rw [Function.update_self, good₂.seq slot (by omega), looks₂.turn]
      · rw [Function.update_of_ne last]
        exact read slot (by omega)

theorem newest_eq (bounds : l.Bounds) (good : Good l w) :
    ((some (w.mem hLatest &&& 0xff)).filter fun s => w.mem hLatest ≠ 0 && s < l.slots) =
      w.books.completed.getLast?.map Push.slot := by
  rw [good.latest, latestWord]
  cases last : w.books.completed.getLast? with
  | none => rfl
  | some p =>
      have mem := List.mem_of_getLast? last
      have below := good.slots p mem
      obtain ⟨i, inside, located⟩ := List.getElem_of_mem mem
      have number := good.numbered i inside
      have word : p.frameNo <<< 8 ||| p.slot ≠ 0 := by
        have positive : 0 < p.frameNo := by
          rw [← located, number]
          exact shown_pos (Nat.succ_ne_zero i)
        have few := bounds.slots
        unfold maxSlots at few
        rw [shifted_or (by omega)]
        omega
      rw [Option.map_some, latestWord_slot bounds below, Option.filter_some, if_pos]
      simp only [Bool.and_eq_true, decide_eq_true_eq]
      exact ⟨word, below⟩

theorem after_shown (n : Nat) : after (shown maxFrameNo n) = shown maxFrameNo (n + 1) := (shown_next (by decide)).symm

theorem saneSeq_saneSeq (v : Nat) : saneSeq (saneSeq v) = saneSeq v := by
  unfold saneSeq
  split <;> rfl

theorem attach_under (bounds : l.Bounds) (good : Good l w) (len : Nat) :
    Produces l none (fun w' o => Good l w' ∧ ∀ q, o = some q → Ready l w' q) (attach len) w := by
  unfold attach
  split
  next => exact fun w' looks => ⟨good.looks bounds looks, fun q absent => nomatch absent⟩
  next =>
    refine Under.bind Looks.refl ((readLayout_under bounds good len).mono ?_)
    rintro w₁ o ⟨looks₁, same⟩
    have good₁ := good.looks bounds looks₁
    cases o with
    | none => exact fun w' looks => ⟨good₁.looks bounds looks, fun q absent => nomatch absent⟩
    | some l' =>
        obtain rfl := same l' rfl
        refine bump_under bounds good₁ looks₁ (by decide) fun w₂ looks₂ good₂ => ?_
        refine fetch_under bounds good₂ looks₂ fun w₃ looks₃ good₃ => ?_
        refine Under.bind Looks.refl ((readSeqs_under bounds good₃ (Nat.le_refl _)).mono ?_)
        rintro w₄ seqs ⟨looks₄, read⟩ w₅ looks₅
        refine ⟨good₃.looks bounds (looks₄.trans looks₅), fun q same => ?_⟩
        cases same
        refine Ready.looks bounds ?_ (looks₄.trans looks₅)
        exact
          { good := good₃
            layout := rfl
            nextFrame := by rw [good₃.latest, latestWord_number good₃ bounds, after_shown]
            newest := newest_eq bounds good₃
            seqs := fun slot below => (congrArg saneSeq (read slot below)).trans (saneSeq_saneSeq _) }

/-! ## Push -/

theorem wanted_under (bounds : l.Bounds) (good : Good l w) (now : Nat) :
    Produces l push (fun w' _ => Looks w w') (wanted now) w := by
  unfold wanted
  refine fetch_under bounds good (Looks.refl w) fun w₁ looks₁ good₁ => ?_
  split
  next => exact fun w' looks => looks₁.trans looks
  next =>
    refine fetch_under bounds good₁ looks₁ fun w₂ looks₂ good₂ => ?_
    exact fetch_under bounds good₂ looks₂ fun w₃ looks₃ good₃ w' looks => looks₃.trans looks

/-- Stores into a slot, then the rest. -/
def putCells (base : Nat) (rest : Prog β) : List Cell → Prog β
  | [] => rest
  | (wd, off, v) :: cells => .store wd (base + off) v (putCells base rest cells)

theorem putBytes_bind (base off : Nat) (bytes : List Nat) (rest : Prog β) :
    (putBytes (base + off) bytes >>= fun _ => rest) = putCells base rest (byteCells off bytes) := by
  induction bytes generalizing off with
  | nil => rfl
  | cons b bytes ih => exact congrArg (Prog.store .u8 (base + off) b) (ih (off + 1))

/-- The slot is being written by `q`. -/
structure Drafting (l : Layout) (w : World) (q : Producer) (p : Push) : Prop where
  good : Good l w
  layout : q.layout = l
  nextFrame : q.nextFrame = shown maxFrameNo (w.books.completed.length + 1)
  newest : q.newest = w.books.completed.getLast?.map Push.slot
  others : ∀ slot < l.slots, slot ≠ p.slot → saneSeq (q.seqs slot) = saneSeq (seqWord (w.turn slot))
  writing : w.turn p.slot % 2 = 1
  word : seqWord (w.turn p.slot) = saneSeq (q.seqs p.slot) ||| 1

theorem Drafting.looks (bounds : l.Bounds) (drafting : Drafting l w q p) (looks : Looks w w') : Drafting l w' q p where
  good := drafting.good.looks bounds looks
  layout := drafting.layout
  nextFrame := looks.books ▸ drafting.nextFrame
  newest := looks.books ▸ drafting.newest
  others slot below apart := looks.turn ▸ drafting.others slot below apart
  writing := looks.turn ▸ drafting.writing
  word := looks.turn ▸ drafting.word

theorem Drafting.stores (bounds : l.Bounds) (drafting : Drafting l w q p) {off : Nat} (v : Nat) (after : slFrameNo ≤ off)
    (inside : off < l.slotStride) :
    Drafting l { w with mem := Function.update w.mem (l.slotBase p.slot + off) v } q p := by
  refine { drafting with good := drafting.good.frame bounds fun place tracked => Function.update_of_ne ?_ .. }
  exact tracked.ne_cell drafting.writing after inside

theorem slotBase_not_spare (slot off : Nat) : l.slotBase slot + off ∉ spare := fun mem => low_ne (spare_low mem) rfl

theorem putCells_under (bounds : l.Bounds) {R : World → β → Prop} {rest : Prog β} {stored cells : List Cell}
    (drafting : Drafting l w q p) (inside : ∀ c ∈ stored ++ cells, slFrameNo ≤ c.2.1 ∧ c.2.1 < l.slotStride)
    (ascending : (stored ++ cells).Pairwise fun c d => c.2.1 < d.2.1)
    (kept : ∀ c ∈ stored, w.mem (l.slotBase p.slot + c.2.1) = c.2.2)
    (finish : ∀ w', Drafting l w' q p → (∀ c ∈ stored ++ cells, w'.mem (l.slotBase p.slot + c.2.1) = c.2.2) →
      Produces l (some p) R rest w') :
    Produces l (some p) R (putCells (l.slotBase p.slot) rest cells) w := by
  induction cells generalizing w stored with
  | nil => exact finish w drafting (by rwa [List.append_nil])
  | cons c cells ih =>
      obtain ⟨wd, off, v⟩ := c
      intro w₁ looks
      have located := inside (wd, off, v) (List.mem_append_right _ List.mem_cons_self)
      have drafting₂ := (drafting.looks bounds looks).stores bounds v located.1 located.2
      have seq : l.slotBase p.slot + off ≠ l.slotBase p.slot + slSeq := by
        have after := located.1
        unfold slFrameNo slSeq at *
        dsimp only at after
        omega
      have writes : Writes l (some p) w₁ (l.slotBase p.slot + off) v
          { w₁ with mem := Function.update w₁.mem (l.slotBase p.slot + off) v } :=
        { mem := rfl
          books := (note_other v (Ne.symm (low_ne (by decide))) seq).symm
          later := { Later.refl w₁ with }
          good := drafting₂.good }
      refine ⟨_, writes, ?_⟩
      rw [List.append_cons] at inside ascending finish
      refine ih drafting₂ inside ascending ?_ finish
      intro d mem
      rcases List.mem_append.mp mem with mem | mem
      · have below : d.2.1 < off :=
          (List.pairwise_append.mp (List.pairwise_append.mp ascending).1).2.2 d mem _ List.mem_cons_self
        refine (Function.update_of_ne (by omega) ..).trans ?_
        exact (looks.mem _ (slotBase_not_spare _ _)).trans (kept d mem)
      · rw [List.mem_singleton.mp mem]
        exact Function.update_self ..

/-- The push `push` makes of a frame. -/
def Producer.toPush (q : Producer) (f : Frame) (now : Nat) : Push where
  frameNo := q.nextFrame
  slot := q.nextSlot
  frame := f
  timestampNs := Producer.stamp f now

theorem push_cells (base : Nat) (p : Push) (rest : Prog β) :
    (do
      put .u64 (base + slFrameNo) p.frameNo
      put .u32 (base + slWidth) p.frame.width
      put .u32 (base + slHeight) p.frame.height
      put .u32 (base + slRotation) p.frame.rotation
      put .u32 (base + slColor) p.frame.color.toU32
      put .u64 (base + slTimestamp) p.timestampNs
      put .u64 (base + slLen) (nv12Len p.frame.width p.frame.height)
      putBytes (base + slotHeader) p.frame.bytes
      rest) = putCells base rest p.cells := by
  rw [putBytes_bind]
  rfl

theorem nextSlot_eq (layout : q.layout = l) (newest : q.newest = w.books.completed.getLast?.map Push.slot) :
    q.nextSlot = slotAfter l w.books.completed := by
  rw [Producer.nextSlot, newest, slotAfter, layout]
  cases w.books.completed.getLast? <;> rfl

theorem slotAfter_lt (bounds : l.Bounds) (completed : List Push) : slotAfter l completed < l.slots := by
  have two := bounds.twoSlots
  unfold slotAfter
  split
  · omega
  · exact Nat.mod_lt _ (by omega)

/-- The even word closes the slot, and the latest word publishes the push. -/
theorem close_under (bounds : l.Bounds) {f : Frame} {now : Nat} (drafting : Drafting l w q (q.toPush f now))
    (fits : f.bytes.length ≤ l.slotBytes)
    (cells : ∀ c ∈ (q.toPush f now).cells, w.mem (l.slotBase q.nextSlot + c.2.1) = c.2.2) :
    Produces l (some (q.toPush f now)) (Ready l)
      (do
        put .u64 (l.slotBase q.nextSlot + slSeq) ((saneSeq (q.seqs q.nextSlot) ||| 1) + 1)
        put .u64 hLatest (q.nextFrame <<< 8 ||| q.nextSlot)
        bump hWritten
        pure
          { q with
            seqs := Function.update q.seqs q.nextSlot ((saneSeq (q.seqs q.nextSlot) ||| 1) + 1)
            newest := some q.nextSlot
            nextFrame := after q.nextFrame
            lastKeptNs := some (Producer.stamp f now) }) w := by
  intro w₁ looks₁
  have drafting₁ := drafting.looks bounds looks₁
  have slot : q.nextSlot = slotAfter l w₁.books.completed := nextSlot_eq drafting₁.layout drafting₁.newest
  have word : (saneSeq (q.seqs q.nextSlot) ||| 1) + 1 = seqWord (w₁.turn q.nextSlot + 1) :=
    (congrArg (· + 1) drafting₁.word.symm).trans (shown_closed (by decide) drafting₁.writing).symm
  have even : ((saneSeq (q.seqs q.nextSlot) ||| 1) + 1) % 2 = 0 := by
    have writing : w₁.turn q.nextSlot % 2 = 1 := drafting₁.writing
    rw [word, seqWord_mod_two]
    omega
  generalize closed : (saneSeq (q.seqs q.nextSlot) ||| 1) + 1 = v at word even
  -- the slot is closed
  have good₂ : Good l (w₁.seals l (q.toPush f now) v) :=
    drafting₁.good.seals bounds word fits slot drafting₁.nextFrame fun c mem =>
      (looks₁.mem _ (slotBase_not_spare _ _)).trans (cells c mem)
  have seals : Writes l (some (q.toPush f now)) w₁ (l.slotBase q.nextSlot + slSeq) v (w₁.seals l (q.toPush f now) v) :=
    { mem := rfl
      books := (note_seals w₁.books even).symm
      later := w₁.later_seals _ v drafting₁.writing
      good := good₂ }
  refine ⟨_, seals, fun w₃ looks₃ => ?_⟩
  -- and published
  have held₃ : w₃.held q.nextSlot = some (q.toPush f now) := by
    rw [looks₃.held]
    exact Function.update_self ..
  have books₃ : w₃.books.completed = w₁.books.completed := by rw [looks₃.books]; rfl
  have below : q.nextSlot < l.slots := slot ▸ slotAfter_lt bounds _
  have good₄ : Good l (w₃.publishes (q.toPush f now)) :=
    (good₂.looks bounds looks₃).publishes bounds below (books₃ ▸ slot)
      (books₃ ▸ drafting₁.nextFrame) held₃
  have publishes : Writes l (some (q.toPush f now)) w₃ hLatest (q.nextFrame <<< 8 ||| q.nextSlot)
      (w₃.publishes (q.toPush f now)) :=
    { mem := rfl
      books := (note_publishes w₃.books _).symm
      later := w₃.later_publishes _
      good := good₄ }
  refine ⟨_, publishes, ?_⟩
  show Produces l _ _ (bump hWritten >>= fun _ => pure _) _
  refine bump_under bounds good₄ (Looks.refl _) (by decide) fun w₅ looks₅ good₅ w₆ looks₆ => ?_
  refine Ready.looks bounds ?_ (looks₅.trans looks₆)
  exact
    { good := good₄
      layout := drafting.layout
      nextFrame := by
        show after q.nextFrame = shown maxFrameNo ((w₃.books.completed ++ [_]).length + 1)
        rw [drafting₁.nextFrame, after_shown, books₃, List.length_append, List.length_singleton]
      newest := by
        show some q.nextSlot = (w₃.books.completed ++ [_]).getLast?.map Push.slot
        rw [List.getLast?_concat]
        rfl
      seqs := fun other below => by
        show saneSeq (Function.update q.seqs q.nextSlot v other) = saneSeq (seqWord (w₃.turn other))
        rw [looks₃.turn]
        by_cases same : other = q.nextSlot
        · subst same
          simp only [World.seals, Producer.toPush, Function.update_self, word]
        · simp only [World.seals, Producer.toPush, Function.update_of_ne same]
          exact drafting₁.others other below same }

theorem Ready.opens (bounds : l.Bounds) (ready : Ready l w q) (f : Frame) (now : Nat) :
    Drafting l (w.opens l q.nextSlot (saneSeq (q.seqs q.nextSlot) ||| 1)) q (q.toPush f now) := by
  have slot : q.nextSlot = slotAfter l w.books.completed := nextSlot_eq ready.layout ready.newest
  have below : q.nextSlot < l.slots := slot ▸ slotAfter_lt bounds _
  have word : saneSeq (q.seqs q.nextSlot) ||| 1 = seqWord (opened maxSeq (w.turn q.nextSlot)) := by
    rw [ready.seqs _ below]
    exact shown_opened (by decide)
  exact
    { good := ready.good.opens bounds word
      layout := ready.layout
      nextFrame := ready.nextFrame
      newest := ready.newest
      others := fun other below apart => by
        have apart : other ≠ q.nextSlot := apart
        simp only [World.opens, Function.update_of_ne apart]
        exact ready.seqs other below
      writing := by
        simp only [World.opens, Producer.toPush, Function.update_self]
        exact opened_odd
      word := by
        simp only [World.opens, Producer.toPush, Function.update_self]
        exact word.symm }

theorem push_under (bounds : l.Bounds) (ready : Ready l w q) (f : Frame) (now : Nat) :
    Produces l (some (q.toPush f now)) (Ready l) (q.push f now) w := by
  obtain rfl := ready.layout
  have dropped {w' : World} (looks : Looks w w') :
      Produces q.layout (some (q.toPush f now)) (Ready q.layout) (bump hDropped >>= fun _ => pure q) w' :=
    bump_under bounds (ready.good.looks bounds looks) looks (by decide) fun w₁ looks₁ good₁ w₂ looks₂ =>
      ready.looks bounds (looks₁.trans looks₂)
  unfold Producer.push
  refine Under.bind Looks.refl ((wanted_under bounds ready.good now).mono fun w₁ asked looks₁ => ?_)
  split
  next => exact dropped looks₁
  next =>
    unfold rate
    refine fetch_under bounds (ready.good.looks bounds looks₁) looks₁ fun w₂ looks₂ good₂ => ?_
    dsimp only [Prog.bind]
    split
    next => exact dropped looks₂
    next =>
      split
      next => exact fun w₃ looks₃ => ready.looks bounds (looks₂.trans looks₃)
      next small =>
        intro w₃ looks₃
        have ready₃ := ready.looks bounds (looks₂.trans looks₃)
        have drafting := ready₃.opens bounds f now
        have fits : f.bytes.length ≤ q.layout.slotBytes := f.sized ▸ Nat.le_of_not_lt small
        have odd : (saneSeq (q.seqs q.nextSlot) ||| 1) % 2 = 1 := Nat.or_mod_two_eq_one.mpr (.inr rfl)
        have opens : Writes q.layout (some (q.toPush f now)) w₃ (q.layout.slotBase q.nextSlot + slSeq) (saneSeq (q.seqs q.nextSlot) ||| 1)
            (w₃.opens q.layout q.nextSlot (saneSeq (q.seqs q.nextSlot) ||| 1)) :=
          { mem := rfl
            books := (note_opens (p := q.toPush f now) w₃.books odd).symm
            later := w₃.later_opens _ _
            good := drafting.good }
        refine ⟨_, opens, ?_⟩
        have inside (c : Cell) (mem : c ∈ (q.toPush f now).cells) : slFrameNo ≤ c.2.1 ∧ c.2.1 < q.layout.slotStride := by
          have stride := Layout.slotStride_ge bounds
          have located := Push.mem_cells mem
          exact ⟨located.1, Nat.lt_of_lt_of_le located.2 (Nat.le_trans (Nat.add_le_add_left fits _) stride)⟩
        have stores : Produces q.layout _ _ (putCells (q.layout.slotBase (q.toPush f now).slot) _ (q.toPush f now).cells) _ :=
          putCells_under bounds drafting inside (Push.cells_ascending _) (fun c (absent : c ∈ []) => nomatch absent)
            fun w' drafting' cells => close_under bounds drafting' fits cells
        rw [← push_cells] at stores
        exact stores

end K2.FrameRing
