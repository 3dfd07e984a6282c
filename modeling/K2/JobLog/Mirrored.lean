import K2.JobLog.Shipping

/-! # The controller's log mirrors the journal

Through crashes, takeovers, broken sessions, resumed sessions and writes that fail whole, every
frame on its way speaks of the journal as it is, and the controller's copy is the
journal's first records.
-/

namespace K2.JobLog

open Redact

variable {find : FindIter} {sha256Hex : List UInt8 → String} {belt : List UInt8 → Option (List UInt8)} {cap ends : Nat}

/-- What a receipt says of the log is so. -/
structure JournalWriter.Finish.Speaks (log : JournalWriter.Finish) (sha256Hex : List UInt8 → String) (recs : List Record) : Prop where
  sha256 : log.sha256 = sha256Hex (payload recs)
  bytes : log.bytes = (payload recs).length

/-- The node's side: the journal is `whole` once its writer's last call is on disk, and
    `recs` are the records on disk now. -/
structure World.Backed (sha256Hex : List UInt8 → String) (cap ends : Nat) (w : World find) (whole recs : List Record) : Prop where
  journal : Journal cap ends whole
  held : framing.Holds w.file recs
  busy : w.writer.isSome ∨ w.closing.isSome →
    w.file ++ w.pending = framing.frames whole ∧ recs = whole.take (framing.within w.file.length whole) ∧ w.row.ended = false
  free : w.writer = none → w.closing = none → recs = whole ∧ w.pending = []
  writes : ∀ jw, w.writer = some jw → jw.Writes ends whole ∧ jw.cap = cap ∧ w.closing = none
  closing : ∀ seq log, w.closing = some (seq, log) → seq = whole.length ∧ log.Speaks sha256Hex whole
  ended : w.row.ended = true → w.row.logSeq ≤ recs.length
  receipt : ∀ log, w.row.receipt = some log → w.row.ended = true ∧ log.Speaks sha256Hex recs
  fresh : w.row.ended = false → w.row.logSeq = 0

/-- What the runner and the node's disk do. -/
def Event.OfNode : Event find → Prop
  | .create | .reopen | .redact _ | .append .. | .flush _ | .finish | .record | .crash | .interrupt => True
  | _ => False

/-- A row that has ended never changes. -/
def Row.Later (row row' : Row) : Prop := row.ended = true → row' = row

namespace World.Backed

variable {w : World find} {whole recs : List Record}

theorem prefix_whole (backed : w.Backed sha256Hex cap ends whole recs) : recs <+: whole := by
  by_cases busy : w.writer.isSome ∨ w.closing.isSome
  · exact (backed.busy busy).2.1 ▸ List.take_prefix _ _
  · simp only [not_or, Option.not_isSome_iff_eq_none] at busy
    exact (backed.free busy.1 busy.2).1 ▸ List.prefix_rfl

theorem later (backed : w.Backed sha256Hex cap ends whole recs) : w.Backed sha256Hex cap (ends + 1) whole recs :=
  { backed with
    journal := backed.journal.later
    writes := fun jw found => (backed.writes jw found).imp_left (·.later) }

theorem fits (backed : w.Backed sha256Hex cap ends whole recs) : ∀ r ∈ recs, framing.fits r := backed.held.1

theorem numbered (backed : w.Backed sha256Hex cap ends whole recs) : Numbered recs := by
  obtain ⟨more, rfl⟩ := backed.prefix_whole
  exact fun i r found => backed.journal.numbered i r (by rw [List.getElem?_append_left (List.getElem?_eq_some_iff.mp found).1, found])

theorem idle_iff : w.idle = true ↔ w.writer = none ∧ w.closing = none ∧ w.row.ended = false := by
  simp [World.idle, and_assoc]

theorem crash (backed : w.Backed sha256Hex cap ends whole recs) (links : List Link) :
    World.Backed sha256Hex cap ends ({ w with writer := none, closing := none, pending := [], links := links } : World find) recs recs where
  journal := List.prefix_iff_eq_take.mp backed.prefix_whole ▸ backed.journal.take _
  held := backed.held
  busy running := by simp at running
  free _ _ := ⟨rfl, rfl⟩
  writes _ found := by simp at found
  closing _ _ found := by simp at found
  ended := backed.ended
  receipt := backed.receipt
  fresh := backed.fresh

/-- What a call of the writer puts behind the journal is not on disk yet. -/
theorem extend {w' : World find} (backed : w.Backed sha256Hex cap ends whole recs) {more : List Record} {ends' : Nat}
    (busy : w.writer.isSome ∨ w.closing.isSome) (file : w'.file = w.file) (pending : w'.pending = w.pending ++ framing.frames more)
    (row : w'.row = w.row) (running : w'.writer.isSome ∨ w'.closing.isSome) (journal : Journal cap ends' (whole ++ more))
    (writes : ∀ jw, w'.writer = some jw → jw.Writes ends' (whole ++ more) ∧ jw.cap = cap ∧ w'.closing = none)
    (closing : ∀ seq log, w'.closing = some (seq, log) → seq = (whole ++ more).length ∧ log.Speaks sha256Hex (whole ++ more)) :
    w'.Backed sha256Hex cap ends' (whole ++ more) recs := by
  obtain ⟨written, onDisk, unended⟩ := backed.busy busy
  have inside : w.file.length ≤ (framing.frames whole).length := by
    have := congrArg List.length written
    simp at this
    omega
  have same : framing.within w.file.length (whole ++ more) = framing.within w.file.length whole := Framing.within_append inside more
  refine ⟨journal, file ▸ backed.held, fun _ => ⟨?_, ?_, row ▸ unended⟩, fun none none' => ?_, writes, closing, ?_, ?_, ?_⟩
  · simp [file, pending, ← written]
  · rw [file, same, List.take_append_of_le_length (Framing.within_le _ _)]
    exact onDisk
  · simp [none, none'] at running
  · exact row ▸ backed.ended
  · exact row ▸ backed.receipt
  · exact row ▸ backed.fresh

theorem flush (backed : w.Backed sha256Hex cap ends whole recs) (short : cap + SYS_ALLOWANCE + 2 * ends < 2 ^ 64) (n : Nat) :
    ∃ recs', World.Backed sha256Hex cap ends ({ w with file := w.file ++ w.pending.take n, pending := w.pending.drop n } : World find) whole recs' ∧
      recs <+: recs' ∧ (w.row.ended = true → recs' = recs) := by
  by_cases busy : w.writer.isSome ∨ w.closing.isSome
  · obtain ⟨written, onDisk, unended⟩ := backed.busy busy
    have front : w.file ++ w.pending.take n = (framing.frames whole).take (w.file ++ w.pending.take n).length := by
      have regrouped : framing.frames whole = (w.file ++ w.pending.take n) ++ w.pending.drop n := by simp [← written]
      rw [regrouped, List.take_left' rfl]
    refine ⟨whole.take (framing.within (w.file ++ w.pending.take n).length whole),
      ⟨backed.journal, ?_, fun _ => ⟨by simp [written], rfl, unended⟩, fun none none' => ?_, backed.writes, backed.closing, ?_, ?_, backed.fresh⟩, ?_⟩
    · have cut := Framing.holds_take (backed.journal.fits short) (w.file ++ w.pending.take n).length
      rwa [← front] at cut
    · exact absurd busy (by simp [show w.writer = _ from none, show w.closing = _ from none'])
    · exact fun closed => absurd closed (by simp [unended])
    · exact fun log found => absurd (backed.receipt log found).1 (by simp [unended])
    · rw [onDisk]
      exact ⟨List.take_prefix_take_left (Framing.within_mono _ (by simp)), fun closed => absurd closed (by simp [unended])⟩
  · simp only [not_or, Option.not_isSome_iff_eq_none] at busy
    have nothing := (backed.free busy.1 busy.2).2
    refine ⟨recs, ?_, List.prefix_rfl, fun _ => rfl⟩
    obtain ⟨file, pending, writer, closing, row, links, copy, closed, receipt⟩ := w
    obtain rfl : pending = [] := nothing
    simpa using backed

theorem opened {w' : World find} (backed : w.Backed sha256Hex cap ends whole recs) (free : w.idle = true) {jw : JournalWriter find}
    (writes : jw.Writes ends recs ∧ jw.cap = cap) (writer : w'.writer = some jw) (closing : w'.closing = w.closing)
    (file : w'.file = framing.frames recs) (pending : w'.pending = w.pending) (row : w'.row = w.row) :
    w'.Backed sha256Hex cap ends recs recs := by
  obtain ⟨noWriter, notClosing, unended⟩ := idle_iff.mp free
  obtain ⟨rfl, nothing⟩ := backed.free noWriter notClosing
  refine ⟨backed.journal, ⟨backed.fits, [], by simp [file], .inl rfl⟩, fun _ => ⟨?_, ?_, row ▸ unended⟩, ?_, ?_, ?_,
    row ▸ backed.ended, row ▸ backed.receipt, row ▸ backed.fresh⟩
  · simp [file, pending, nothing]
  · simp [file, Framing.within_frames]
  · simp [writer]
  · rintro jw' found
    obtain rfl := Option.some.inj (writer.symm.trans found)
    exact ⟨writes.1, writes.2, closing.trans notClosing⟩
  · simp [closing, notClosing]

/-- Whatever the runner and its disk do, the journal stays one, what is on disk only grows,
    and an end stands. -/
theorem node (belt : List UInt8 → Option (List UInt8)) (backed : w.Backed sha256Hex cap ends whole recs)
    (short : cap + SYS_ALLOWANCE + 2 * (ends + 1) < 2 ^ 64)
    {e : Event find} (own : e.OfNode) :
    ∃ whole' recs', (w.next sha256Hex belt cap e).Backed sha256Hex cap (ends + 1) whole' recs' ∧ recs <+: recs' ∧
      w.row.Later (w.next sha256Hex belt cap e).row ∧ (w.row.ended = true → recs' = recs) := by
  have still : ∃ whole' recs', w.Backed sha256Hex cap (ends + 1) whole' recs' ∧ recs <+: recs' ∧ w.row.Later w.row ∧
      (w.row.ended = true → recs' = recs) :=
    ⟨whole, recs, backed.later, List.prefix_rfl, fun _ => rfl, fun _ => rfl⟩
  have enough : cap + SYS_ALLOWANCE + 2 * ends < 2 ^ 64 := by omega
  cases e with
  | create =>
      simp only [World.next]
      split
      next free =>
          have none : recs = [] := by
            obtain ⟨-, torn, file, -⟩ := backed.held
            have size := Framing.length_le_frames (f := framing) recs
            have empty := congrArg List.length (free.2.symm.trans file)
            simp at empty
            exact List.length_eq_zero_iff.mp (by omega)
          have writes := (JournalWriter.writes_create cap ends : JournalWriter.Writes ends (.create cap : JournalWriter find) [])
          refine ⟨recs, recs, World.Backed.later ?_, List.prefix_rfl, fun _ => rfl, fun _ => rfl⟩
          exact backed.opened free.1 ⟨none ▸ writes, rfl⟩ rfl rfl (by simp [free.2, none]) rfl rfl
      next => exact still
  | reopen =>
      simp only [World.next]
      split
      next free =>
          obtain ⟨rfl, -⟩ := backed.free (idle_iff.mp free).1 (idle_iff.mp free).2.1
          obtain ⟨jw, opened, writes⟩ : ∃ jw : JournalWriter find, JournalWriter.reopen w.file cap = .ok (jw, framing.frames recs) ∧
            jw.Writes ends recs ∧ jw.cap = cap := JournalWriter.writes_reopen backed.held backed.journal
          simp only [opened]
          refine ⟨recs, recs, World.Backed.later ?_, List.prefix_rfl, fun _ => rfl, fun _ => rfl⟩
          exact backed.opened free writes rfl rfl rfl rfl rfl
      next => exact still
  | redact r =>
      refine ⟨whole, recs, World.Backed.later ⟨backed.journal, backed.held, fun running => backed.busy ?_, fun none => backed.free ?_,
        fun jw found => ?_, backed.closing, backed.ended, backed.receipt, backed.fresh⟩, List.prefix_rfl, fun _ => rfl, fun _ => rfl⟩
      · simpa [World.next] using running
      · simpa [World.next] using none
      · obtain ⟨old, writes, rfl⟩ := Option.map_eq_some_iff.mp found
        exact ⟨(backed.writes old writes).1.redact r, (backed.writes old writes).2⟩
  | append stream data late =>
      cases writer : w.writer with
      | none => simpa [World.next, writer] using still
      | some jw =>
          obtain ⟨writes, capped, notClosing⟩ := backed.writes jw writer
          obtain ⟨jw', more, call, after, sameCap, -⟩ := writes.append stream data late
          simp only [World.next, writer, call]
          refine ⟨whole ++ more, recs, World.Backed.later (backed.extend (.inl (by simp [writer])) rfl rfl rfl (.inl rfl) ?_ ?_ ?_),
            List.prefix_rfl, fun _ => rfl, fun _ => rfl⟩
          · exact capped ▸ sameCap ▸ after.toJournal
          · rintro _ ⟨⟩
            exact ⟨after, sameCap.trans capped, notClosing⟩
          · simp [notClosing]
  | flush n =>
      obtain ⟨recs', flushed, more, ended⟩ := backed.flush enough n
      exact ⟨whole, recs', flushed.later, more, fun _ => rfl, ended⟩
  | finish =>
      cases writer : w.writer with
      | none => simpa [World.next, writer] using still
      | some jw =>
          obtain ⟨writes, rfl, notClosing⟩ := backed.writes jw writer
          obtain ⟨jw', more, log, call, journal, seq, -, sha256, bytes, -⟩ := writes.finish (fun _ => by omega) sha256Hex
          simp only [World.next, writer, call]
          refine ⟨whole ++ more, recs, backed.extend (.inl (by simp [writer])) rfl rfl rfl (.inr rfl) journal ?_ ?_,
            List.prefix_rfl, fun _ => rfl, fun _ => rfl⟩
          · rintro _ ⟨⟩
          · rintro _ _ ⟨⟩
            exact ⟨seq, sha256, bytes⟩
  | record =>
      cases closing : w.closing with
      | none => simpa [World.next, closing] using still
      | some outcome =>
          obtain ⟨seq, log⟩ := outcome
          simp only [World.next, closing]
          split
          next flushed =>
              obtain ⟨written, onDisk, unended⟩ := backed.busy (.inr (by simp [closing]))
              obtain ⟨rfl, speaks⟩ := backed.closing seq log closing
              have file : w.file = framing.frames whole := by simpa [flushed] using written
              have all : recs = whole := by rw [onDisk, file, Framing.within_frames, List.take_length]
              subst all
              have noWriter : w.writer = none := by
                cases writer : w.writer with
                | none => rfl
                | some jw => simp [(backed.writes jw writer).2.2] at closing
              refine ⟨recs, recs, World.Backed.later ⟨backed.journal, backed.held, ?_, fun _ _ => ⟨rfl, flushed⟩, ?_, ?_, ?_, ?_, ?_⟩,
                List.prefix_rfl, fun closed => absurd closed (by simp [unended]), fun _ => rfl⟩
              · simp [noWriter]
              · simp [noWriter]
              · simp
              · simp
              · rintro _ ⟨⟩
                exact ⟨rfl, speaks⟩
              · simp
          next => exact still
  | crash => exact ⟨recs, recs, (backed.crash _).later, List.prefix_rfl, fun _ => rfl, fun _ => rfl⟩
  | interrupt =>
      simp only [World.next]
      split
      next free =>
          obtain ⟨noWriter, notClosing, unended⟩ := idle_iff.mp free
          obtain ⟨same, nothing⟩ := backed.free noWriter notClosing
          refine ⟨whole, recs, World.Backed.later ⟨backed.journal, backed.held, ?_, fun _ _ => ⟨same, nothing⟩, ?_, ?_, ?_, ?_, ?_⟩,
            List.prefix_rfl, fun closed => absurd closed (by simp [unended]), fun _ => rfl⟩
          · simp [noWriter, notClosing]
          · simp [noWriter]
          · simp [notClosing]
          · simp [backed.fresh unended]
          · exact fun log found => absurd (backed.receipt log found).1 (by simp [unended])
          · simp
      next => exact still
  | _ => cases own

end World.Backed

/-- The runner and its disk touch nothing of the controller's, and of the sessions only the
    node's side. -/
theorem Event.OfNode.beside {e : Event find} (own : e.OfNode) (sha256Hex : List UInt8 → String)
    (belt : List UInt8 → Option (List UInt8)) (cap : Nat) (w : World find) :
    (w.next sha256Hex belt cap e).copy = w.copy ∧ (w.next sha256Hex belt cap e).receipt = w.receipt ∧
      (w.next sha256Hex belt cap e).closed = w.closed ∧
      ((w.next sha256Hex belt cap e).links = w.links ∨ (w.next sha256Hex belt cap e).links = w.links.map World.dropped) := by
  cases e with
  | crash => exact ⟨rfl, rfl, rfl, .inr rfl⟩
  | create | reopen | redact | append | flush | finish | record | interrupt =>
      simp only [World.next]
      repeat' split
      all_goals simp
  | _ => cases own

/-! ## The sessions -/

/-- What a frame says is so. -/
def Frame.Holds (row : Row) (recs : List Record) : Frame → Prop
  | .log seq stream data => (⟨seq, stream, data⟩ : Record) ∈ recs
  | .ended logSeq => row.ended = true ∧ logSeq = row.logSeq
  | .receipt said => row.ended = true ∧ row.receipt = some said
  | .snapshot closed => closed = true → row.ended = true

/-- A session asks for, has read and sends what is so. -/
structure Link.Honest (row : Row) (recs : List Record) (l : Link) : Prop where
  welcome : ∀ since, l.welcome = some (some since) → since ≤ recs.length
  placed : ∀ t, l.track = some t → t.reader.Placed recs
  seen : ∀ t r, l.track = some t → t.seen = some r → r.ended = true → r = row
  wire : ∀ f ∈ l.wire, f.Holds row recs

theorem Frame.Holds.later {row row' : Row} {recs recs' : List Record} (grown : recs <+: recs') (stands : row.Later row') {f : Frame}
    (holds : f.Holds row recs) : f.Holds row' recs' := by
  cases f with
  | log seq stream data => exact grown.subset holds
  | ended logSeq => rwa [stands holds.1]
  | receipt log => rwa [stands holds.1]
  | snapshot ended => exact fun closed => by rw [stands (holds closed)]; exact holds closed

namespace Link.Honest

variable {row row' : Row} {recs recs' : List Record} {l : Link}

theorem later (honest : l.Honest row recs) (grown : recs <+: recs') (stands : row.Later row') : l.Honest row' recs' where
  welcome since found := Nat.le_trans (honest.welcome since found) grown.length_le
  placed t found := by obtain ⟨more, rfl⟩ := grown; exact (honest.placed t found).grow more
  seen t r found known closed := by
    have same := honest.seen t r found known closed
    rw [same, stands (same ▸ closed)]
  wire f mem := (honest.wire f mem).later grown stands

theorem attach (honest : l.Honest row recs) : (World.attach row l).Honest row recs := by
  unfold World.attach
  cases welcome : l.welcome with
  | none => exact honest
  | some hint =>
      refine ⟨by simp, fun t found => ?_, fun t r found known => ?_, fun f mem => ?_⟩
      · cases hint with
        | some since => cases found; exact .start (honest.welcome since welcome)
        | none =>
            simp only at found
            split at found <;> cases found
            exact .start (Nat.zero_le _)
      · have fresh : t.seen = none := by
          cases hint with
          | some since => cases found; rfl
          | none =>
              simp only at found
              split at found <;> cases found
              rfl
        simp [fresh] at known
      · cases List.mem_append.mp mem with
        | inl old => exact honest.wire f old
        | inr new => cases List.mem_singleton.mp new; exact id

theorem look (honest : l.Honest row recs) : (World.look row l).Honest row recs := by
  refine ⟨honest.welcome, fun t found => ?_, fun t r found known _ => ?_, honest.wire⟩
  · obtain ⟨old, was, rfl⟩ := Option.map_eq_some_iff.mp found
    exact honest.placed old was
  · obtain ⟨old, was, rfl⟩ := Option.map_eq_some_iff.mp found
    exact (Option.some.inj known).symm

theorem read {file : List UInt8} (honest : l.Honest row recs) (held : framing.Holds file recs) (numbered : Numbered recs) :
    (World.read file l).Honest row recs := by
  unfold World.read
  cases found : l.track with
  | none => exact honest
  | some t =>
      simp only
      split
      next =>
          obtain ⟨reader, call, placed, -⟩ := JournalReader.readMore_placed held numbered (honest.placed t found) 32
          simp only [call]
          refine ⟨honest.welcome, ?_, ?_, fun f mem => ?_⟩
          · rintro _ ⟨⟩
            exact placed
          · rintro _ r ⟨⟩ known closed
            exact honest.seen t r found known closed
          · cases List.mem_append.mp mem with
            | inl old => exact honest.wire f old
            | inr new =>
                obtain ⟨r, given, rfl⟩ := List.mem_map.mp new
                exact List.mem_of_mem_drop (List.mem_of_mem_take given)
      next => exact honest

theorem conclude (honest : l.Honest row recs) (closing : Bool) : (World.conclude closing l).Honest row recs := by
  unfold World.conclude
  cases found : l.track with
  | none => exact honest
  | some t =>
      cases known : t.seen with
      | none => simpa only [known] using honest
      | some r =>
          have placed := honest.placed t found
          have told : Link.Honest row recs { l with track := some { t with seen := none } } :=
            ⟨honest.welcome, by rintro _ ⟨⟩; exact placed, by rintro _ _ ⟨⟩ ⟨⟩, honest.wire⟩
          simp only [known]
          split
          next => exact honest
          next =>
              split
              next closed =>
                  obtain rfl := honest.seen t r found known closed
                  have state : ∀ f ∈ (if t.sent then [] else [Frame.ended r.logSeq]), f.Holds r recs := by
                    intro f mem
                    split at mem
                    · cases mem
                    · cases List.mem_singleton.mp mem
                      exact ⟨closed, rfl⟩
                  split
                  next => exact told
                  next =>
                      cases receipt : r.receipt with
                      | some log =>
                          refine ⟨honest.welcome, by rintro _ ⟨⟩, by rintro _ _ ⟨⟩, fun f mem => ?_⟩
                          simp only [List.mem_append, List.mem_singleton] at mem
                          obtain (old | new) | rfl := mem
                          · exact honest.wire f old
                          · exact state f new
                          · exact ⟨closed, receipt⟩
                      | none =>
                          refine ⟨honest.welcome, by rintro _ ⟨⟩; exact placed, by rintro _ _ ⟨⟩ ⟨⟩, fun f mem => ?_⟩
                          cases List.mem_append.mp mem with
                          | inl old => exact honest.wire f old
                          | inr new => exact state f new
              next => exact told

/-- The node's side of a session is gone, and some of its frames are lost. -/
theorem cut (honest : l.Honest row recs) (n : Nat) : Link.Honest row recs { welcome := none, track := none, wire := l.wire.take n } :=
  ⟨by simp, by simp, by simp, fun f mem => honest.wire f (List.mem_of_mem_take mem)⟩

theorem dropped (honest : l.Honest row recs) : (World.dropped l).Honest row recs :=
  ⟨by simp [World.dropped], by simp [World.dropped], by simp [World.dropped], honest.wire⟩

theorem tail (honest : l.Honest row recs) : Link.Honest row recs { l with wire := l.wire.tail } :=
  ⟨honest.welcome, honest.placed, honest.seen, fun f mem => honest.wire f (List.mem_of_mem_tail mem)⟩

end Link.Honest

/-! ## The whole system -/

/-- How the controller stores a record: as it is, or with what the belt redacted. -/
def Stored (belt : List UInt8 → Option (List UInt8)) (r : Record) (c : Rec) : Prop :=
  c.seq = r.seq ∧ c.stream = ctrlByte r.stream ∧ (c.data = r.data ∨ belt r.data = some c.data)

/-- The copy's records are the journal's first ones. -/
def Mirrors (belt : List UInt8 → Option (List UInt8)) (recs : List Record) (stored : List Rec) : Prop :=
  ∀ (i : Nat) (c : Rec), stored[i]? = some c → ∃ r, recs[i]? = some r ∧ Stored belt r c

/-- What the belt makes of a chunk can still be framed. -/
def Framed (belt : List UInt8 → Option (List UInt8)) : Prop := ∀ data redacted, belt data = some redacted → redacted.length < 2 ^ 32

structure World.Sound (sha256Hex : List UInt8 → String) (belt : List UInt8 → Option (List UInt8)) (cap ends : Nat) (w : World find)
    (whole recs : List Record) (stored : List Rec) : Prop where
  backed : w.Backed sha256Hex cap ends whole recs
  links : ∀ l ∈ w.links, l.Honest w.row recs
  copy : w.copy.Keeps stored
  mirrors : Mirrors belt recs stored
  receipt : ∀ log, w.receipt = some log → w.row.ended = true ∧ w.row.receipt = some log

theorem mem_modify {α : Type} {xs : List α} {f : α → α} {i : Nat} {x : α} (mem : x ∈ xs.modify i f) :
    x ∈ xs ∨ ∃ y, xs[i]? = some y ∧ x = f y := by
  induction xs generalizing i with
  | nil => simp at mem
  | cons y xs ih =>
      cases i with
      | zero =>
          simp only [List.modify_zero_cons, List.mem_cons] at mem
          cases mem with
          | inl here => exact .inr ⟨y, rfl, here⟩
          | inr there => exact .inl (List.mem_cons_of_mem y there)
      | succ i =>
          simp only [List.modify_succ_cons, List.mem_cons] at mem
          cases mem with
          | inl here => exact .inl (here ▸ List.mem_cons_self)
          | inr there => exact (ih there).imp_left (List.mem_cons_of_mem y)

theorem forall_modify {α : Type} {P : α → Prop} {xs : List α} (all : ∀ x ∈ xs, P x) {f : α → α} (keeps : ∀ x, P x → P (f x)) (i : Nat) :
    ∀ x ∈ xs.modify i f, P x := by
  intro x mem
  cases mem_modify mem with
  | inl old => exact all x old
  | inr new =>
      obtain ⟨y, found, rfl⟩ := new
      exact keeps y (all y (List.mem_of_getElem? found))

namespace World.Sound

variable {w : World find} {whole recs : List Record} {stored : List Rec}

theorem start : (World.start : World find).Sound sha256Hex belt cap 0 [] [] [] where
  backed := ⟨.empty, ⟨by simp, [], rfl, .inl rfl⟩, by simp [World.start], fun _ _ => ⟨rfl, rfl⟩, by simp [World.start],
    by simp [World.start], by simp [World.start], by simp [World.start], fun _ => rfl⟩
  links := by simp [World.start]
  copy := Copy.keeps_empty
  mirrors := by simp [Mirrors]
  receipt := by simp [World.start]

theorem mirrors_length (mirrors : Mirrors belt recs stored) : stored.length ≤ recs.length := by
  by_contra longer
  obtain ⟨c, found⟩ : ∃ c, stored[recs.length]? = some c := ⟨_, List.getElem?_eq_getElem (by omega)⟩
  obtain ⟨r, beyond, -⟩ := mirrors _ c found
  simp at beyond

theorem relink (sound : w.Sound sha256Hex belt cap ends whole recs stored) {links : List Link}
    (honest : ∀ l ∈ links, l.Honest w.row recs) :
    World.Sound sha256Hex belt cap ends ({ w with links := links } : World find) whole recs stored :=
  ⟨{ sound.backed with }, honest, sound.copy, sound.mirrors, sound.receipt⟩

theorem later (sound : w.Sound sha256Hex belt cap ends whole recs stored) : w.Sound sha256Hex belt cap (ends + 1) whole recs stored :=
  { sound with backed := sound.backed.later }

/-- The controller's welcome asks for what is behind its last record. -/
theorem greet (sound : w.Sound sha256Hex belt cap ends whole recs stored) :
    World.Sound sha256Hex belt cap ends
      ({ w with links := w.links ++ [⟨some (some stored.length), none, []⟩], copy := (w.copy.lastSeq).2 } : World find) whole recs stored := by
  refine ⟨{ sound.backed with }, fun l mem => ?_, (sound.copy.lastSeq).2, sound.mirrors, sound.receipt⟩
  cases List.mem_append.mp mem with
  | inl old => exact sound.links l old
  | inr new =>
      cases List.mem_singleton.mp new
      exact ⟨by simpa using mirrors_length sound.mirrors, by simp, by simp, by simp⟩

theorem onLog_beside (armed disk : Bool) (seq : Nat) (stream : LogStream) (data : List UInt8) (w : World find) :
    (World.onLog belt armed disk seq stream data w).links = w.links ∧ (World.onLog belt armed disk seq stream data w).receipt = w.receipt := by
  unfold World.onLog
  split <;> exact ⟨rfl, rfl⟩

/-- A chunk that is a record of the journal: the next one is stored, any other changes nothing. -/
theorem onLog (sound : w.Sound sha256Hex belt cap ends whole recs stored) (framed : Framed belt) (armed disk : Bool)
    {seq : Nat} {stream : LogStream} {data : List UInt8} (mem : (⟨seq, stream, data⟩ : Record) ∈ recs) :
    ∃ stored', World.Sound sha256Hex belt cap ends (World.onLog belt armed disk seq stream data w) whole recs stored' ∧
      stored <+: stored' ∧ (disk = true → seq ≤ stored.length + 1 → seq ≤ stored'.length) := by
  obtain ⟨more, rfl⟩ := sound.backed.prefix_whole
  have size := (sound.backed.journal.sized _ (List.mem_append_left more mem)).2
  obtain ⟨j, found⟩ := List.getElem?_of_mem mem
  have seq_eq : seq = j + 1 := sound.backed.numbered j _ found
  have seqFits := (sound.backed.fits _ mem).1
  unfold World.onLog
  rw [if_neg (by simpa using size)]
  simp only
  generalize stored_data : (if armed then (belt data).getD data else data) = kept
  have same : kept = data ∨ belt data = some kept := by
    subst stored_data
    cases armed with
    | false => exact .inl rfl
    | true => cases redacted : belt data <;> simp
  have fits : (⟨seq, ctrlByte stream, kept⟩ : Rec).Fits := by
    refine ⟨seqFits, ?_⟩
    cases same with
    | inl plain => simp only [plain, MAX_LOG_CHUNK] at size ⊢; omega
    | inr redacted => exact framed _ _ redacted
  have call := sound.copy.append stream fits disk
  split at call
  next successor =>
      refine ⟨_, ⟨{ sound.backed with }, sound.links, call.2, ?_, sound.receipt⟩, List.prefix_append .., fun _ _ => by simp; omega⟩
      intro i c located
      rw [List.getElem?_append] at located
      split at located
      next => exact sound.mirrors i c located
      next past =>
          obtain ⟨last, rfl⟩ : i - stored.length = 0 ∧ _ = c := by simpa [List.getElem?_singleton] using located
          obtain rfl : i = j := by omega
          exact ⟨_, found, rfl, rfl, same⟩
  next other =>
      refine ⟨stored, ⟨{ sound.backed with }, sound.links, call.1, sound.mirrors, sound.receipt⟩, List.prefix_rfl, fun taken near => ?_⟩
      have : seq ≠ stored.length + 1 := fun successor => other ⟨successor, taken⟩
      omega

theorem handle (sound : w.Sound sha256Hex belt cap ends whole recs stored) (framed : Framed belt) (disk armed : Bool)
    {f : Frame} (holds : f.Holds w.row recs) :
    ∃ stored', World.Sound sha256Hex belt cap ends (w.handle belt disk armed f) whole recs stored' ∧ stored <+: stored' := by
  cases f with
  | log seq stream data =>
      obtain ⟨stored', sound', grown, -⟩ := sound.onLog framed armed disk holds
      exact ⟨stored', sound', grown⟩
  | ended logSeq => exact ⟨stored, ⟨{ sound.backed with }, sound.links, sound.copy, sound.mirrors, sound.receipt⟩, List.prefix_rfl⟩
  | receipt log =>
      refine ⟨stored, ⟨{ sound.backed with }, sound.links, sound.copy, sound.mirrors, ?_⟩, List.prefix_rfl⟩
      rintro _ ⟨⟩
      exact holds
  | snapshot closed => exact ⟨stored, ⟨{ sound.backed with }, sound.links, sound.copy, sound.mirrors, sound.receipt⟩, List.prefix_rfl⟩

/-- Every event keeps the system sound; the journal on disk and the copy only grow. -/
theorem next (sound : w.Sound sha256Hex belt cap ends whole recs stored) (framed : Framed belt)
    (short : cap + SYS_ALLOWANCE + 2 * (ends + 1) < 2 ^ 64) (e : Event find) :
    ∃ whole' recs' stored', (w.next sha256Hex belt cap e).Sound sha256Hex belt cap (ends + 1) whole' recs' stored' ∧
      recs <+: recs' ∧ stored <+: stored' ∧ (w.row.ended = true ∨ ¬ e.OfNode → recs' = recs) := by
  have relinked : ∀ {links : List Link}, (∀ l ∈ links, l.Honest w.row recs) →
      ∃ whole' recs' stored', World.Sound sha256Hex belt cap (ends + 1) ({ w with links := links } : World find) whole' recs' stored' ∧
        recs <+: recs' ∧ stored <+: stored' ∧ (w.row.ended = true ∨ ¬ e.OfNode → recs' = recs) := fun honest =>
    ⟨whole, recs, stored, (sound.relink honest).later, List.prefix_rfl, List.prefix_rfl, fun _ => rfl⟩
  have hello : ∀ {l : Link}, l.Honest w.row recs → ∀ l' ∈ w.links ++ [l], l'.Honest w.row recs := by
    intro l honest l' mem
    cases List.mem_append.mp mem with
    | inl old => exact sound.links l' old
    | inr new => exact List.mem_singleton.mp new ▸ honest
  by_cases own : e.OfNode
  · obtain ⟨whole', recs', backed, grown, stands, final⟩ := sound.backed.node belt short own
    obtain ⟨copy, receipt, -, links⟩ := own.beside sha256Hex belt cap w
    have older : ∀ l ∈ w.links, l.Honest (w.next sha256Hex belt cap e).row recs' := fun l mem => (sound.links l mem).later grown stands
    refine ⟨whole', recs', stored, ⟨backed, ?_, copy ▸ sound.copy, ?_, ?_⟩, grown, List.prefix_rfl, fun done =>
      final (done.resolve_right (not_not_intro own))⟩
    · cases links with
      | inl same => exact same ▸ older
      | inr lost =>
          rw [lost]
          intro l mem
          obtain ⟨l, was, rfl⟩ := List.mem_map.mp mem
          exact (older l was).dropped
    · intro i c found
      obtain ⟨r, located, same⟩ := sound.mirrors i c found
      obtain ⟨more, rfl⟩ := grown
      exact ⟨r, by rw [List.getElem?_append_left (List.getElem?_eq_some_iff.mp located).1, located], same⟩
    · intro log found
      obtain ⟨closed, same⟩ := sound.receipt log (receipt ▸ found)
      rw [stands closed]
      exact ⟨closed, same⟩
  · cases e with
    | welcome =>
        simp only [World.next]
        split
        next => exact relinked (hello ⟨by simp, by simp, by simp, by simp⟩)
        next =>
            rw [(sound.copy.lastSeq).1]
            exact ⟨whole, recs, stored, sound.greet.later, List.prefix_rfl, List.prefix_rfl, fun _ => rfl⟩
    | assigned =>
        simp only [World.next]
        split
        next => exact ⟨whole, recs, stored, sound.later, List.prefix_rfl, List.prefix_rfl, fun _ => rfl⟩
        next => exact relinked (hello ⟨by simp, by rintro _ ⟨⟩; exact .start (Nat.zero_le _), by rintro _ _ ⟨⟩ ⟨⟩, by simp⟩)
    | attach i => exact relinked (forall_modify sound.links (fun l honest => honest.attach) i)
    | look i => exact relinked (forall_modify sound.links (fun l honest => honest.look) i)
    | read i => exact relinked (forall_modify sound.links (fun l honest => honest.read sound.backed.held sound.backed.numbered) i)
    | conclude i closing => exact relinked (forall_modify sound.links (fun l honest => honest.conclude closing) i)
    | cut i n => exact relinked (forall_modify sound.links (fun l honest => honest.cut n) i)
    | deliver i disk armed =>
        simp only [World.next]
        split
        next f head =>
            obtain ⟨l, found, first⟩ := Option.bind_eq_some_iff.mp head
            have holds := (sound.links l (List.mem_of_getElem? found)).wire f (List.mem_of_mem_head? first)
            have sound' := sound.relink (forall_modify sound.links (fun l honest => honest.tail) i)
            obtain ⟨stored', handled, grown⟩ := sound'.handle framed disk armed holds
            exact ⟨whole, recs, stored', handled.later, List.prefix_rfl, grown, fun _ => rfl⟩
        next => exact ⟨whole, recs, stored, sound.later, List.prefix_rfl, List.prefix_rfl, fun _ => rfl⟩
    | restart =>
        exact ⟨whole, recs, stored, ⟨{ sound.backed.later with }, sound.links, sound.copy.forget, sound.mirrors, sound.receipt⟩,
          List.prefix_rfl, List.prefix_rfl, fun _ => rfl⟩
    | _ => exact absurd trivial own

end World.Sound

section
variable {w : World find} {whole recs : List Record} {stored : List Rec}

theorem World.Sound.run (framed : Framed belt) (events : List (Event find)) (short : cap + SYS_ALLOWANCE + 2 * (ends + events.length) < 2 ^ 64)
    (sound : w.Sound sha256Hex belt cap ends whole recs stored) :
    ∃ whole' recs' stored',
      World.Sound sha256Hex belt cap (ends + events.length) (Rounds.after (World.next sha256Hex belt cap) w events) whole' recs' stored' ∧
        recs <+: recs' ∧ stored <+: stored' := by
  induction events generalizing w ends whole recs stored with
  | nil => exact ⟨whole, recs, stored, sound, List.prefix_rfl, List.prefix_rfl⟩
  | cons e events ih =>
      simp only [List.length_cons] at short ⊢
      obtain ⟨whole₁, recs₁, stored₁, sound₁, more, longer, -⟩ := sound.next framed (by omega) e
      obtain ⟨whole', recs', stored', sound', more', longer'⟩ := ih (by omega) sound₁
      refine ⟨whole', recs', stored', ?_, more.trans more', longer.trans longer'⟩
      rwa [Nat.add_assoc, Nat.add_comm 1] at sound'

end

end K2.JobLog
