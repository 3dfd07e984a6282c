import K2.FrameRing.Reading
import K2.FrameRing.Pushing
import Mathlib.Data.List.Chain

/-! # No frame is torn

However the consumer's steps and the producers' fall, and wherever a producer is
killed, a frame handed out is one push's. -/

namespace K2.FrameRing

open SharedMemory Prog WrappedCount

/-! ## What a run keeps -/

/-- The frames handed out, as of a world. -/
structure Untorn (b : Books) (returned : List Returned) : Prop where
  whole : ∀ x ∈ returned, ∃ p ∈ b.sealed, p.info = x.info ∧ p.frame.bytes = x.bytes
  fresh : returned.IsChain fun x y => y.again = false → y.info.frameNo ≠ x.info.frameNo
  published : b.completed.length < maxFrameNo → ∀ x ∈ returned, ∃ p ∈ b.completed, p.info = x.info ∧ p.frame.bytes = x.bytes
  order : b.completed.length < maxFrameNo →
    returned.Pairwise fun x y => x.info.frameNo ≤ y.info.frameNo ∧ (y.again = false → x.info.frameNo < y.info.frameNo)

/-- The consumer between reads. -/
structure Between (l : Layout) (w : World) (returned : List Returned) (c : Consumer) : Prop where
  kept : Kept l w c
  last : ∀ x, returned.getLast? = some x → x.info.frameNo = c.lastFrame
  highest : w.books.completed.length < maxFrameNo → ∀ x ∈ returned, x.info.frameNo ≤ c.lastFrame

def Writer.Ok (l : Layout) (w : World) : Writer → Prop
  | .gone => True
  | .attaching prog => Produces l none (fun w' o => Good l w' ∧ ∀ q, o = some q → Ready l w' q) prog w
  | .idle q => Ready l w q
  | .pushing push prog => Produces l (some push) (Ready l) prog w

def Reader.Ok (l : Layout) (w : World) (returned : List Returned) : Reader → Prop
  | .idle c => Between l w returned c
  | .reading c again since prog =>
      Between l w returned c ∧ (∀ slot < l.slots, since slot ≤ w.books.begun slot) ∧
        (Calm l since w → Reads l since (Gives l c again) prog w)

/-- The ring stands for a world. -/
structure Stands (w : World) (r : Ring) : Prop where
  mem : w.mem = r.mem
  books : w.books = r.books
  good : Good r.layout w
  writer : r.writer.Ok r.layout w
  reader : r.reader.Ok r.layout w r.returned
  given : Untorn w.books r.returned

variable {l : Layout} {w w' : World} {r : Ring} {returned : List Returned} {c c' : Consumer}

/-! ## What the others' steps keep -/

theorem Untorn.later (given : Untorn w.books returned) (later : Later w w') : Untorn w'.books returned := by
  have more := later.completed.length_le
  exact
    { whole := fun x mem => by
        obtain ⟨p, sealed, same⟩ := given.whole x mem
        exact ⟨p, later.sealed p sealed, same⟩
      fresh := given.fresh
      published := fun few x mem => by
        obtain ⟨p, published, same⟩ := given.published (Nat.lt_of_le_of_lt more few) x mem
        exact ⟨p, later.completed.subset published, same⟩
      order := fun few => given.order (Nat.lt_of_le_of_lt more few) }

theorem Between.later (between : Between l w returned c) (later : Later w w') : Between l w' returned c where
  kept := between.kept.later later
  last := between.last
  highest few := between.highest (Nat.lt_of_le_of_lt later.completed.length_le few)

theorem Reader.Ok.later {reader : Reader} (ok : reader.Ok l w returned) (good : Good l w)
    (later : Later w w') : reader.Ok l w' returned := by
  cases reader with
  | idle c => exact Between.later ok later
  | reading c again since prog =>
      obtain ⟨between, began, reads⟩ := ok
      refine ⟨between.later later, fun slot below => Nat.le_trans (began slot below) (later.begun_le slot), fun calm' => ?_⟩
      have calm : Calm l since w :=
        { good, began, soon := fun slot below => Nat.le_trans (later.begun_le slot) (calm'.soon slot below) }
      exact (reads calm).later Beside.trans fun _ => ⟨later, calm'⟩

theorem Writer.Ok.looks (bounds : l.Bounds) {writer : Writer} (ok : writer.Ok l w) (looks : Looks w w') : writer.Ok l w' := by
  cases writer with
  | gone => trivial
  | attaching prog => exact Under.later Looks.trans ok looks
  | idle q => exact Ready.looks bounds ok looks
  | pushing push prog => exact Under.later Looks.trans ok looks

/-! ## Steps -/

theorem Stands.produce (stands : Stands w r) : ∃ w', Stands w' (r.next .produce) := by
  obtain ⟨mem, books, good, writer, reader, given⟩ := stands
  simp only [Ring.next]
  cases writing : r.writer with
  | gone => exact ⟨w, mem, books, good, writer, reader, given⟩
  | idle q => exact ⟨w, mem, books, good, writer, reader, given⟩
  | attaching prog =>
      rw [writing] at writer
      dsimp only
      cases prog with
      | done o =>
          cases o with
          | none => exact ⟨w, mem, books, good, trivial, reader, given⟩
          | some q => exact ⟨w, mem, books, good, (writer w (Looks.refl w)).2 q rfl, reader, given⟩
      | panic => exact ⟨w, mem, books, good, trivial, reader, given⟩
      | load wd place next =>
          have writer := writer w (Looks.refl w)
          rw [mem] at writer
          exact ⟨w, mem, books, good, writer, reader, given⟩
      | store wd place v next =>
          obtain ⟨w', writes, rest⟩ := writer w (Looks.refl w)
          refine ⟨w', ?_, writes.books.trans books, writes.good, rest, reader.later good writes.later,
            given.later writes.later⟩
          rw [writes.mem, mem]
          rfl
  | pushing push prog =>
      rw [writing] at writer
      dsimp only
      cases prog with
      | done q => exact ⟨w, mem, books, good, writer w (Looks.refl w), reader, given⟩
      | panic => exact ⟨w, mem, books, good, trivial, reader, given⟩
      | load wd place next =>
          have writer := writer w (Looks.refl w)
          rw [mem] at writer
          exact ⟨w, mem, books, good, writer, reader, given⟩
      | store wd place v next =>
          obtain ⟨w', writes, rest⟩ := writer w (Looks.refl w)
          refine ⟨w', ?_, ?_, writes.good, rest, reader.later good writes.later, given.later writes.later⟩
          · rw [writes.mem, mem]
            rfl
          · rw [writes.books, books]
            rfl

theorem Untorn.concat {again : Bool} {info : FrameInfo} {bytes : List Nat} (given : Untorn w.books returned)
    (between : Between l w returned c) (handed : Handed c again w c' info bytes) :
    Untorn w.books (returned ++ [⟨again, info, bytes⟩]) where
  whole x mem := by
    rcases List.mem_append.mp mem with mem | mem
    · exact given.whole x mem
    · rw [List.mem_singleton.mp mem]
      exact handed.whole
  fresh := by
    refine List.isChain_append.mpr ⟨given.fresh, List.isChain_singleton _, ?_⟩
    intro x last y mem once
    rw [List.head?_cons, Option.mem_some] at mem
    subst mem
    rw [between.last x last]
    exact handed.fresh once
  published few x mem := by
    rcases List.mem_append.mp mem with mem | mem
    · exact given.published few x mem
    · rw [List.mem_singleton.mp mem]
      exact handed.published few
  order few := by
    refine List.pairwise_append.mpr ⟨given.order few, List.pairwise_singleton _ _, ?_⟩
    intro x mem y last
    rw [List.mem_singleton.mp last]
    have low := between.highest few x mem
    have order := handed.order few
    refine ⟨Nat.le_trans low order, fun once => ?_⟩
    have fresh := handed.fresh once
    dsimp only
    omega

theorem Between.concat {again : Bool} {info : FrameInfo} {bytes : List Nat} (between : Between l w returned c)
    (layout : c'.layout = l) (handed : Handed c again w c' info bytes) :
    Between l w (returned ++ [⟨again, info, bytes⟩]) c' where
  kept := { layout, last := fun few => handed.last ▸ handed.low few }
  last x last := by
    rw [List.getLast?_concat, Option.some.injEq] at last
    rw [← last, handed.last]
  highest few x mem := by
    rw [handed.last]
    rcases List.mem_append.mp mem with mem | mem
    · exact Nat.le_trans (between.highest few x mem) (handed.order few)
    · rw [List.mem_singleton.mp mem]

theorem Stands.consume (bounds : r.layout.Bounds) (stands : Stands w r) (unhurried : r.Unhurried) :
    ∃ w', Stands w' (r.next .consume) := by
  obtain ⟨mem, books, good, writer, reader, given⟩ := stands
  simp only [Ring.next]
  cases reading : r.reader with
  | idle c => exact ⟨w, mem, books, good, writer, reader, given⟩
  | reading c again since prog =>
      rw [reading] at reader
      rw [Ring.Unhurried, reading] at unhurried
      obtain ⟨between, began, reads⟩ := reader
      have calm : Calm r.layout since w := { good, began, soon := books ▸ unhurried }
      have reads := reads calm
      dsimp only
      cases prog with
      | done out =>
          obtain ⟨c', out⟩ := out
          have gives := reads w (Beside.refl w)
          cases out with
          | none =>
              obtain ⟨layout, last⟩ := gives
              have between' : Between r.layout w r.returned c' :=
                { kept := { layout, last := last ▸ between.kept.last }
                  last := last ▸ between.last
                  highest := last ▸ between.highest }
              exact ⟨w, mem, books, good, writer, between', given⟩
          | some frame =>
              obtain ⟨info, bytes⟩ := frame
              obtain ⟨layout, handed⟩ := gives
              exact ⟨w, mem, books, good, writer, between.concat layout handed, given.concat between handed⟩
      | panic => exact ⟨w, mem, books, good, writer, reading ▸ ⟨between, began, fun _ => reads⟩, given⟩
      | load wd place next =>
          have reads := reads w (Beside.refl w)
          rw [mem] at reads
          exact ⟨w, mem, books, good, writer, ⟨between, began, fun _ => reads⟩, given⟩
      | store wd place v next =>
          obtain ⟨w', beats, rest⟩ := reads w (Beside.refl w)
          obtain ⟨later, calm'⟩ := calm.beats bounds beats
          obtain ⟨rfl, rfl⟩ := beats
          have looks := looks_store v (by decide : hBeat ∈ spare) (w := w)
          refine ⟨{ w with mem := Function.update w.mem hBeat v }, ?_, books, calm'.good, writer.looks bounds looks,
            ⟨between.later later, began, fun _ => rest⟩, given⟩
          show Function.update w.mem hBeat v = Function.update r.mem hBeat v
          rw [mem]

theorem Stands.next (bounds : r.layout.Bounds) (stands : Stands w r) (unhurried : r.Unhurried) (a : Action) :
    ∃ w', Stands w' (r.next a) := by
  cases a with
  | produce => exact stands.produce
  | consume => exact stands.consume bounds unhurried
  | attach =>
      simp only [Ring.next]
      cases r.writer with
      | gone => exact ⟨w, { stands with writer := attach_under bounds stands.good _ }⟩
      | _ => exact ⟨w, stands⟩
  | push f now =>
      simp only [Ring.next]
      cases writing : r.writer with
      | idle q =>
          have ready := stands.writer
          rw [writing] at ready
          exact ⟨w, { stands with writer := push_under bounds ready f now }⟩
      | _ => exact ⟨w, stands⟩
  | kill => exact ⟨w, { stands with writer := trivial }⟩
  | flag v =>
      have looks := looks_store v (by decide : hFlags ∈ spare) (w := w)
      have good := stands.good.store_spare bounds v (by decide : hFlags ∈ spare)
      refine ⟨{ w with mem := Function.update w.mem hFlags v }, ?_, stands.books, good, stands.writer.looks bounds looks,
        stands.reader.later stands.good looks.later, stands.given⟩
      show Function.update w.mem hFlags v = Function.update r.mem hFlags v
      rw [stands.mem]
  | read whole beat again =>
      simp only [Ring.next]
      cases reading : r.reader with
      | idle c =>
          have between := stands.reader
          rw [reading] at between
          have began (slot : Nat) (_ : slot < r.layout.slots) : r.books.begun slot ≤ w.books.begun slot := by
            rw [stands.books]
          exact ⟨w, { stands with
            reader := ⟨between, began, fun calm => read_under bounds whole beat calm between.kept⟩ }⟩
      | reading => exact ⟨w, stands⟩

theorem next_layout (r : Ring) (a : Action) : (r.next a).layout = r.layout := by
  cases a with
  | kill => rfl
  | flag => rfl
  | attach =>
      simp only [Ring.next]
      cases r.writer <;> rfl
  | push =>
      simp only [Ring.next]
      cases r.writer <;> rfl
  | read =>
      simp only [Ring.next]
      cases r.reader <;> rfl
  | produce =>
      simp only [Ring.next]
      cases r.writer with
      | attaching prog =>
          cases prog with
          | done o => cases o <;> rfl
          | _ => rfl
      | pushing push prog => cases prog <;> rfl
      | _ => rfl
  | consume =>
      simp only [Ring.next]
      cases r.reader with
      | idle => rfl
      | reading c again since prog =>
          cases prog with
          | done out => obtain ⟨c', none | frame⟩ := out <;> rfl
          | _ => rfl

theorem create_mem (l : Layout) (now : Nat) {place : Nat} (after : header ≤ place) : (Ring.create l now).mem place = 0 := by
  have apart {word : Nat} (low : word < header) : place ≠ word := by omega
  simp only [Ring.create, writeHeader, put, Prog.store_bind, Prog.done_bind, Prog.alone]
  rw [Function.update_of_ne (apart (by decide)), Function.update_of_ne (apart (by decide)),
    Function.update_of_ne (apart (by decide)), Function.update_of_ne (apart (by decide)),
    Function.update_of_ne (apart (by decide)), Function.update_of_ne (apart (by decide)),
    Function.update_of_ne (apart (by decide)), Function.update_of_ne (apart (by decide)),
    Function.update_of_ne (apart (by decide)), Function.update_of_ne (apart (by decide)),
    Function.update_of_ne (apart (by decide))]

theorem slotBase_after (slot off : Nat) : header ≤ l.slotBase slot + off := by
  unfold Layout.slotBase
  omega

theorem create_stands (l : Layout) (now : Nat) :
    Stands { mem := (Ring.create l now).mem, books := (Ring.create l now).books, turn := fun _ => 0, held := fun _ => none }
      (Ring.create l now) where
  mem := rfl
  books := rfl
  good :=
    { header := fun c mem => by
        simp only [headerCells, List.mem_cons, List.not_mem_nil, or_false] at mem
        rcases mem with rfl | rfl | rfl | rfl <;> rfl
      latest := rfl
      numbered := fun i below => nomatch below
      slots := fun p mem => nomatch mem
      seq := fun slot _ => create_mem l now (slotBase_after slot _)
      whole := fun slot _ _ => create_mem l now (slotBase_after slot slFrameNo) }
  writer := trivial
  reader :=
    { kept := { layout := rfl, last := fun _ => Nat.le_refl _ }
      last := fun x last => nomatch last
      highest := fun _ x mem => nomatch mem }
  given :=
    { whole := fun x mem => nomatch mem
      fresh := .nil
      published := fun _ x mem => nomatch mem
      order := fun _ => .nil }

/-- In every run no read of which lasts for more than 2^61 pushes into one slot, a
    frame handed out is whole: its description and its bytes are one push's.
    `try_read` never hands out the same number twice in a row. Until the numbers come
    round, the push was published, `try_read`'s numbers go up and `read_latest`'s never
    go down. -/
theorem frames_untorn (l : Layout) (valid : l.Valid) (now : Nat) (actions : List Action)
    (unhurried : Rounds.Along Ring.next (fun r _ => r.Unhurried) (Ring.create l now) actions) :
    Untorn (Rounds.after Ring.next (Ring.create l now) actions).books
      (Rounds.after Ring.next (Ring.create l now) actions).returned := by
  have held : ∃ w, Stands w (Rounds.after Ring.next (Ring.create l now) actions) ∧
      (Rounds.after Ring.next (Ring.create l now) actions).layout = l := by
    refine Rounds.keeps (I := fun r => ∃ w, Stands w r ∧ r.layout = l) (fun r a held unhurried => ?_)
      ⟨_, create_stands l now, rfl⟩ unhurried
    obtain ⟨w, stands, layout⟩ := held
    obtain ⟨w', stands'⟩ := stands.next (layout ▸ valid.bounds) unhurried a
    exact ⟨w', stands', (next_layout r a).trans layout⟩
  obtain ⟨w, stands, -⟩ := held
  exact stands.books ▸ stands.given

/-! ## Small runs -/

def smallLayout : Layout := { maxWidth := 16, maxHeight := 16, slots := 2, maxFps := 0 }

/-- One pixel of one value. -/
def pixel (v : Nat) : Frame where
  width := 1
  height := 1
  rotation := 0
  color := .bt709Full
  timestampNs := 1
  bytes := [v, v, v]
  sized := rfl

/-- A producer is killed halfway through its second frame, and another writes it
    again while the consumer copies the first. -/
def killedRun : List Action :=
  [.attach] ++ List.replicate 20 .produce ++ [.push (pixel 7) 0] ++ List.replicate 25 .produce ++
    [.push (pixel 8) 0] ++ List.replicate 12 .produce ++ [.read true 0 false] ++ List.replicate 10 .consume ++
    [.kill, .attach] ++ List.replicate 20 .produce ++ [.push (pixel 9) 0] ++ List.replicate 12 .produce ++
    List.replicate 10 .consume ++ List.replicate 12 .produce ++ [.read true 0 false] ++ List.replicate 20 .consume

theorem frames_untorn_killed :
    (Rounds.after Ring.next (Ring.create smallLayout 0) killedRun).returned.map Returned.bytes = [[7, 7, 7], [9, 9, 9]] ∧
      Untorn (Rounds.after Ring.next (Ring.create smallLayout 0) killedRun).books
        (Rounds.after Ring.next (Ring.create smallLayout 0) killedRun).returned :=
  ⟨by decide +kernel, frames_untorn smallLayout rfl 0 killedRun (by decide +kernel)⟩

/-- `read_latest` hands out the newest frame again. -/
theorem numbers_repeat : ¬ ∀ (l : Layout) (_ : l.Valid) (now : Nat) (actions : List Action),
    (Rounds.after Ring.next (Ring.create l now) actions).returned.Pairwise fun x y => x.info.frameNo < y.info.frameNo := by
  intro claim
  have order := claim smallLayout rfl 0
    ([.attach] ++ List.replicate 20 .produce ++ [.push (pixel 7) 0] ++ List.replicate 25 .produce ++
      [.read true 0 true] ++ List.replicate 20 .consume ++ [.read true 0 true] ++ List.replicate 20 .consume)
  revert order
  decide +kernel

end K2.FrameRing
