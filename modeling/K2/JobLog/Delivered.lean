import K2.JobLog.Mirrored

/-! # What a session delivers

The frames of a session carry on where the controller's copy ended, without a gap, and
the end and the receipt stand behind the whole journal. So a receipt the controller holds
speaks of the log it holds; and one session nobody disturbs brings all of it.
-/

namespace K2.JobLog

open Redact

variable {find : FindIter} {sha256Hex : List UInt8 → String} {belt : List UInt8 → Option (List UInt8)} {cap ends : Nat}

/-- The frames take a log from its first `a` records to its first `b`; the end and the receipt
    come behind all `total` of them. -/
def Carries (total : Nat) : Nat → List Frame → Nat → Prop
  | a, [], b => a = b
  | a, .log seq _ _ :: rest, b => seq = a + 1 ∧ Carries total (a + 1) rest b
  | a, .ended _ :: rest, b => a = total ∧ Carries total a rest b
  | a, .receipt _ :: rest, b => a = total ∧ Carries total a rest b
  | a, .snapshot _ :: rest, b => Carries total a rest b

namespace Carries

variable {total a b c : Nat} {wire more : List Frame}

theorem append (first : Carries total a wire b) (second : Carries total b more c) : Carries total a (wire ++ more) c := by
  induction wire generalizing a with
  | nil => cases first; exact second
  | cons f wire ih =>
      cases f with
      | snapshot => exact ih first
      | log | ended | receipt => exact ⟨first.1, ih first.2⟩

theorem take (carries : Carries total a wire b) (n : Nat) : ∃ b', Carries total a (wire.take n) b' := by
  induction wire generalizing a n with
  | nil => exact ⟨a, by simp [Carries]⟩
  | cons f wire ih =>
      cases n with
      | zero => exact ⟨a, rfl⟩
      | succ n =>
          cases f with
          | snapshot => exact ih carries n
          | log | ended | receipt => exact (ih carries.2 n).imp fun _ rest => ⟨carries.1, rest⟩

theorem logs {recs : List Record} (numbered : ∀ i r, recs[i]? = some r → r.seq = a + i + 1) :
    Carries total a (recs.map fun r => .log r.seq r.stream r.data) (a + recs.length) := by
  induction recs generalizing a with
  | nil => rfl
  | cons r recs ih =>
      refine ⟨numbered 0 r rfl, ?_⟩
      have rest := ih (a := a + 1) fun i r found => by
        have := numbered (i + 1) r found
        omega
      simpa [Nat.add_assoc, Nat.add_comm 1] using rest

theorem unended (carries : Carries total a wire b) (none : ∀ f ∈ wire, (∃ seq stream data, f = .log seq stream data) ∨ ∃ closed, f = .snapshot closed)
    (total' : Nat) : Carries total' a wire b := by
  induction wire generalizing a with
  | nil => exact carries
  | cons f wire ih =>
      have rest := fun f mem => none f (List.mem_cons_of_mem _ mem)
      obtain ⟨seq, stream, data, rfl⟩ | ⟨closed, rfl⟩ := none f List.mem_cons_self
      · exact ⟨carries.1, ih carries.2 rest⟩
      · exact ih carries rest

end Carries

/-- A session carries on where the copy's `k` records end, up to where its reader is; a pass that
    found the attempt ended and the journal read reads no more. -/
structure Link.Unbroken (recs : List Record) (k : Nat) (l : Link) : Prop where
  welcome : ∀ hint, l.welcome = some hint → l.wire = [] ∧ l.track = none ∧ ∀ since, hint = some since → since ≤ k
  wire : ∃ a b, Carries recs.length a l.wire b ∧ a ≤ k ∧ ∀ t, l.track = some t → t.reader.lastSeq = b
  done : ∀ t r, l.track = some t → t.seen = some r → r.ended = true → t.batch < 32 → t.reader.lastSeq = recs.length

namespace Link.Unbroken

variable {row : Row} {recs recs' : List Record} {k k' : Nat} {l : Link}

theorem longer (unbroken : l.Unbroken recs k) (more : k ≤ k') : l.Unbroken recs k' where
  welcome hint found := by
    obtain ⟨none, off, since⟩ := unbroken.welcome hint found
    exact ⟨none, off, fun s known => Nat.le_trans (since s known) more⟩
  wire := by
    obtain ⟨a, b, carries, behind, reader⟩ := unbroken.wire
    exact ⟨a, b, carries, Nat.le_trans behind more, reader⟩
  done := unbroken.done

theorem grow (unbroken : l.Unbroken recs k) (honest : l.Honest row recs) (final : row.ended = true → recs' = recs) :
    l.Unbroken recs' k := by
  by_cases closed : row.ended = true
  · exact final closed ▸ unbroken
  · refine ⟨unbroken.welcome, ?_, fun t r found known ended => absurd (honest.seen t r found known ended ▸ ended) closed⟩
    obtain ⟨a, b, carries, behind, reader⟩ := unbroken.wire
    refine ⟨a, b, carries.unended (fun f mem => ?_) _, behind, reader⟩
    have holds := honest.wire f mem
    cases f with
    | log seq stream data => exact .inl ⟨seq, stream, data, rfl⟩
    | snapshot ended => exact .inr ⟨ended, rfl⟩
    | ended => exact absurd holds.1 closed
    | receipt => exact absurd holds.1 closed

theorem attach (unbroken : l.Unbroken recs k) (row : Row) : (World.attach row l).Unbroken recs k := by
  unfold World.attach
  cases welcome : l.welcome with
  | none => exact unbroken
  | some hint =>
      obtain ⟨nothing, off, since⟩ := unbroken.welcome hint welcome
      cases hint with
      | some n =>
          refine ⟨by simp, ⟨n, n, by simp [nothing, Carries], since n rfl, ?_⟩, ?_⟩
          · rintro _ ⟨⟩
            simp [JobLog.track, JournalReader.new, JournalReader.skipTo]
          · rintro _ _ ⟨⟩ ⟨⟩
      | none =>
          have reader : ∀ t, (if row.ended then none else some (JobLog.track 0)) = some t → t = JobLog.track 0 := by
            intro t found
            split at found <;> cases found
            rfl
          exact ⟨by simp, ⟨0, 0, by simp [nothing, Carries], Nat.zero_le _, fun t found => reader t found ▸ rfl⟩,
            fun t r found known => by rw [reader t found] at known; cases known⟩

theorem look (unbroken : l.Unbroken recs k) (row : Row) : (World.look row l).Unbroken recs k := by
  refine ⟨fun hint found => ?_, ?_, fun t r found _ _ last => ?_⟩
  · obtain ⟨nothing, off, since⟩ := unbroken.welcome hint found
    exact ⟨nothing, by simp [World.look, off], since⟩
  · obtain ⟨a, b, carries, behind, reader⟩ := unbroken.wire
    refine ⟨a, b, carries, behind, fun t found => ?_⟩
    obtain ⟨old, was, rfl⟩ := Option.map_eq_some_iff.mp found
    exact reader old was
  · obtain ⟨old, was, rfl⟩ := Option.map_eq_some_iff.mp found
    simp at last

theorem read {file : List UInt8} (unbroken : l.Unbroken recs k) (honest : l.Honest row recs) (held : framing.Holds file recs)
    (numbered : Numbered recs) : (World.read file l).Unbroken recs k := by
  unfold World.read
  cases found : l.track with
  | none => exact unbroken
  | some t =>
      simp only
      split
      next passing =>
          have placed := honest.placed t found
          obtain ⟨reader, call, -, lastSeq, -⟩ := JournalReader.readMore_placed held numbered placed 32
          simp only [call]
          obtain ⟨a, b, carries, behind, known⟩ := unbroken.wire
          obtain rfl := known t found
          refine ⟨fun hint here => ?_, ⟨a, reader.lastSeq, carries.append ?_, behind, ?_⟩, ?_⟩
          · have off := (unbroken.welcome hint here).2.1
            simp [found] at off
          · rw [lastSeq]
            refine .logs fun i r given => ?_
            rw [List.getElem?_take] at given
            split at given
            · rw [List.getElem?_drop] at given
              exact numbered _ r given
            · cases given
          · rintro _ ⟨⟩
            rfl
          · rintro _ r ⟨⟩ _ _ last
            have := placed.last_le
            simp only [List.length_take, List.length_drop] at last lastSeq ⊢
            omega
      next => exact unbroken

theorem conclude (unbroken : l.Unbroken recs k) (closing : Bool) : (World.conclude closing l).Unbroken recs k := by
  unfold World.conclude
  cases found : l.track with
  | none => exact unbroken
  | some t =>
      cases known : t.seen with
      | none => simpa only [known] using unbroken
      | some r =>
          obtain ⟨a, b, carries, behind, reader⟩ := unbroken.wire
          have off : ∀ hint, l.welcome ≠ some hint := fun hint here => by
            have := (unbroken.welcome hint here).2.1
            simp [found] at this
          have told : Link.Unbroken recs k { l with track := some { t with seen := none } } :=
            ⟨fun hint here => absurd here (off hint), ⟨a, b, carries, behind, by rintro _ ⟨⟩; exact reader t found⟩, by rintro _ _ ⟨⟩ ⟨⟩⟩
          simp only [known]
          split
          next => exact unbroken
          next last =>
              split
              next closed =>
                  -- The pass read the journal to its end, so what follows stands behind all of it.
                  have all := unbroken.done t r found known closed (by omega)
                  obtain rfl : recs.length = b := all.symm.trans (reader t found)
                  have state : Carries recs.length recs.length (if t.sent then [] else [Frame.ended r.logSeq]) recs.length := by
                    split <;> simp [Carries]
                  split
                  next => exact told
                  next =>
                      cases r.receipt with
                      | some log =>
                          exact ⟨fun hint here => absurd here (off hint),
                            ⟨a, recs.length, (carries.append state).append ⟨rfl, rfl⟩, behind, by rintro _ ⟨⟩⟩, by rintro _ _ ⟨⟩⟩
                      | none =>
                          exact ⟨fun hint here => absurd here (off hint),
                            ⟨a, recs.length, carries.append state, behind, by rintro _ ⟨⟩; exact all⟩, by rintro _ _ ⟨⟩ ⟨⟩⟩
              next => exact told

theorem cut (unbroken : l.Unbroken recs k) (n : Nat) : Link.Unbroken recs k { welcome := none, track := none, wire := l.wire.take n } := by
  obtain ⟨a, b, carries, behind, -⟩ := unbroken.wire
  obtain ⟨b', fewer⟩ := carries.take n
  exact ⟨by simp, ⟨a, b', fewer, behind, by simp⟩, by simp⟩

theorem dropped (unbroken : l.Unbroken recs k) : (World.dropped l).Unbroken recs k := by
  obtain ⟨a, b, carries, behind, -⟩ := unbroken.wire
  exact ⟨by simp [World.dropped], ⟨a, b, carries, behind, by simp [World.dropped]⟩, by simp [World.dropped]⟩

end Link.Unbroken

/-! ## The whole system -/

/-- The controller's disk takes what is written to it. -/
def Event.Landed : Event find → Prop
  | .deliver _ disk _ => disk = true
  | _ => True

/-- The sessions carry on where the copy ends, and a receipt is held with the whole log only. -/
structure World.Complete (w : World find) (recs : List Record) (k : Nat) : Prop where
  links : ∀ l ∈ w.links, l.Unbroken recs k
  receipt : ∀ log, w.receipt = some log → k = recs.length

namespace World.Complete

variable {w : World find} {whole recs recs' : List Record} {stored stored' : List Rec}

/-- The first frame of a session handled, the rest carries on behind it. -/
theorem deliver (sound : w.Sound sha256Hex belt cap ends whole recs stored) (framed : Framed belt) (complete : w.Complete recs stored.length)
    (armed : Bool) {i : Nat} {l : Link} {f : Frame} (found : w.links[i]? = some l) (first : l.wire.head? = some f) :
    ∃ stored', World.Sound sha256Hex belt cap ends
        ((w.updateLink i fun l => { l with wire := l.wire.tail }).handle belt true armed f) whole recs stored' ∧
      ((w.updateLink i fun l => { l with wire := l.wire.tail }).handle belt true armed f).Complete recs stored'.length := by
  have mem := List.mem_of_getElem? found
  have holds := (sound.links l mem).wire f (List.mem_of_mem_head? first)
  have sound₁ := sound.relink (forall_modify sound.links (fun l honest => honest.tail) i)
  obtain ⟨rest, wire⟩ : ∃ rest, l.wire = f :: rest := by
    cases frames : l.wire with
    | nil => simp [frames] at first
    | cons g rest => simp [frames] at first; exact ⟨rest, by rw [first]⟩
  have unbroken := complete.links l mem
  obtain ⟨a, b, carries, behind, reader⟩ := unbroken.wire
  rw [wire] at carries
  have off : ∀ hint, l.welcome ≠ some hint := fun hint here => absurd (unbroken.welcome hint here).1 (by simp [wire])
  have links : ∀ {stored' : List Rec} {a' : Nat}, stored <+: stored' → Carries recs.length a' rest b → a' ≤ stored'.length →
      ∀ l' ∈ w.links.modify i fun l => { l with wire := l.wire.tail }, l'.Unbroken recs stored'.length := by
    intro stored' a' grown carries behind l' mem
    cases mem_modify mem with
    | inl old => exact (complete.links l' old).longer grown.length_le
    | inr new =>
        obtain ⟨y, located, rfl⟩ := new
        obtain rfl := Option.some.inj (found.symm.trans located)
        exact ⟨fun hint here => absurd here (off hint), ⟨a', b, by simpa [wire] using carries, behind, reader⟩, unbroken.done⟩
  have held : ∀ {stored' : List Rec}, stored <+: stored' → stored'.length ≤ recs.length → ∀ log, w.receipt = some log →
      stored'.length = recs.length := fun grown inside log found => by
    have := complete.receipt log found
    have := grown.length_le
    omega
  cases f with
  | log seq stream data =>
      obtain ⟨stored', sound', grown, taken⟩ := sound₁.onLog framed armed true holds
      have near := taken rfl (by have := carries.1; omega)
      refine ⟨stored', sound', ?_, ?_⟩
      · simpa only [World.handle, World.Sound.onLog_beside, World.updateLink] using links grown carries.2 (carries.1 ▸ near)
      · simpa only [World.handle, World.Sound.onLog_beside, World.updateLink] using held grown (World.Sound.mirrors_length sound'.mirrors)
  | ended logSeq =>
      obtain ⟨stored', sound', grown⟩ := sound₁.handle framed true armed holds
      exact ⟨stored', sound', links grown carries.2 (Nat.le_trans behind grown.length_le), held grown (World.Sound.mirrors_length sound'.mirrors)⟩
  | receipt log =>
      obtain ⟨stored', sound', grown⟩ := sound₁.handle framed true armed holds
      have inside := World.Sound.mirrors_length sound'.mirrors
      have all := carries.1
      have more := grown.length_le
      exact ⟨stored', sound', links grown carries.2 (Nat.le_trans behind more), fun _ _ => by omega⟩
  | snapshot closed =>
      obtain ⟨stored', sound', grown⟩ := sound₁.handle framed true armed holds
      exact ⟨stored', sound', links grown carries (Nat.le_trans behind grown.length_le), held grown (World.Sound.mirrors_length sound'.mirrors)⟩

theorem start : (World.start : World find).Complete [] 0 := ⟨by simp [World.start], by simp [World.start]⟩

/-- Every event keeps the sessions unbroken while the controller's disk takes what is written. -/
theorem next (sound : w.Sound sha256Hex belt cap ends whole recs stored) (framed : Framed belt) (complete : w.Complete recs stored.length)
    (short : cap + SYS_ALLOWANCE + 2 * (ends + 1) < 2 ^ 64) {e : Event find} (landed : e.Landed) :
    ∃ whole' recs' stored', (w.next sha256Hex belt cap e).Sound sha256Hex belt cap (ends + 1) whole' recs' stored' ∧
      (w.next sha256Hex belt cap e).Complete recs' stored'.length := by
  obtain ⟨whole', recs', stored', sound', more, longer, final⟩ := sound.next framed short e
  have size : stored'.length = (w.next sha256Hex belt cap e).copy.tailOf.1 := by rw [sound'.copy.tailOf]
  have was : stored.length = w.copy.tailOf.1 := by rw [sound.copy.tailOf]
  by_cases own : e.OfNode
  · obtain ⟨copy, receipt, -, links⟩ := own.beside sha256Hex belt cap w
    have same : stored'.length = stored.length := by rw [size, was, copy]
    have grown : ∀ l ∈ w.links, l.Unbroken recs' stored.length := fun l mem =>
      (complete.links l mem).grow (sound.links l mem) fun closed => final (.inl closed)
    refine ⟨whole', recs', stored', sound', ?_, fun log held => ?_⟩
    · rw [same]
      cases links with
      | inl kept => exact kept ▸ grown
      | inr lost =>
          rw [lost]
          intro l mem
          obtain ⟨l, was, rfl⟩ := List.mem_map.mp mem
          exact (grown l was).dropped
    · rw [same, final (.inl (sound.receipt log (receipt ▸ held)).1)]
      exact complete.receipt log (receipt ▸ held)
  · obtain rfl := final (.inr own)
    have relinked : ∀ {links : List Link}, (w.next sha256Hex belt cap e).links = links →
        (w.next sha256Hex belt cap e).copy.tailOf.1 = w.copy.tailOf.1 → (w.next sha256Hex belt cap e).receipt = w.receipt →
        (∀ l ∈ links, l.Unbroken recs' stored.length) →
        (w.next sha256Hex belt cap e).Complete recs' stored'.length := by
      intro links same copy receipt unbroken
      have length : stored'.length = stored.length := by rw [size, was, copy]
      exact ⟨by rw [same, length]; exact unbroken, fun log held => length ▸ complete.receipt log (receipt ▸ held)⟩
    have hello : ∀ {l : Link}, l.Unbroken recs' stored.length → ∀ l' ∈ w.links ++ [l], l'.Unbroken recs' stored.length := by
      intro l unbroken l' mem
      cases List.mem_append.mp mem with
      | inl old => exact complete.links l' old
      | inr new => exact List.mem_singleton.mp new ▸ unbroken
    refine ⟨whole', recs', stored', sound', ?_⟩
    cases e with
    | attach i => exact relinked rfl rfl rfl (forall_modify complete.links (fun l unbroken => unbroken.attach w.row) i)
    | look i => exact relinked rfl rfl rfl (forall_modify complete.links (fun l unbroken => unbroken.look w.row) i)
    | conclude i closing => exact relinked rfl rfl rfl (forall_modify complete.links (fun l unbroken => unbroken.conclude closing) i)
    | cut i n => exact relinked rfl rfl rfl (forall_modify complete.links (fun l unbroken => unbroken.cut n) i)
    | read i =>
        refine relinked rfl rfl rfl fun l mem => ?_
        cases mem_modify mem with
        | inl old => exact complete.links l old
        | inr new =>
            obtain ⟨l, found, rfl⟩ := new
            have mem := List.mem_of_getElem? found
            exact (complete.links l mem).read (sound.links l mem) sound.backed.held sound.backed.numbered
    | welcome =>
        by_cases closed : w.closed = true
        · exact relinked (by simp [World.next, closed]) (by simp [World.next, closed]) (by simp [World.next, closed])
            (hello (l := ⟨some none, none, []⟩) ⟨by simp, ⟨0, 0, rfl, Nat.zero_le _, by simp⟩, by simp⟩)
        · have since : (w.copy.lastSeq).1 ≤ stored.length := (sound.copy.lastSeq).1 ▸ Nat.le_refl _
          exact relinked (by simp [World.next, closed]) (by simp [World.next, closed, Copy.lastSeq, Copy.tailOf]) (by simp [World.next, closed])
            (hello (l := ⟨some (some (w.copy.lastSeq).1), none, []⟩) ⟨by simpa using since, ⟨0, 0, rfl, Nat.zero_le _, by simp⟩, by simp⟩)
    | assigned =>
        by_cases closed : w.closed = true
        · exact relinked (by simp [World.next, closed]) (by simp [World.next, closed]) (by simp [World.next, closed]) complete.links
        · exact relinked (by simp [World.next, closed]) (by simp [World.next, closed]) (by simp [World.next, closed])
            (hello (l := ⟨none, some (track 0), []⟩) ⟨by simp, ⟨0, 0, rfl, Nat.zero_le _, by rintro _ ⟨⟩; rfl⟩, by rintro _ _ ⟨⟩ ⟨⟩⟩)
    | deliver i disk armed =>
        cases landed
        cases head : w.links[i]?.bind (·.wire.head?) with
        | none =>
            have still : w.next sha256Hex belt cap (.deliver i true armed) = w := by simp [World.next, head]
            exact relinked (by rw [still]) (by rw [still]) (by rw [still]) complete.links
        | some f =>
            obtain ⟨l, found, first⟩ := Option.bind_eq_some_iff.mp head
            obtain ⟨stored'', sound'', complete''⟩ := complete.deliver sound framed armed found first
            have taken : w.next sha256Hex belt cap (.deliver i true armed) =
                (w.updateLink i fun l => { l with wire := l.wire.tail }).handle belt true armed f := by simp [World.next, head]
            have same : stored'.length = stored''.length := by rw [size, taken, sound''.copy.tailOf]
            rw [same, taken]
            exact complete''
    | restart =>
        have same : ({ w.copy with tail := none } : Copy).tailOf = w.copy.tailOf := by
          rw [sound.copy.forget.tailOf, sound.copy.tailOf]
        exact relinked rfl (congrArg Prod.fst same) rfl complete.links
    | _ => exact absurd trivial own

theorem run (framed : Framed belt) (events : List (Event find)) (landed : ∀ e ∈ events, e.Landed)
    (short : cap + SYS_ALLOWANCE + 2 * (ends + events.length) < 2 ^ 64)
    (sound : w.Sound sha256Hex belt cap ends whole recs stored) (complete : w.Complete recs stored.length) :
    ∃ whole' recs' stored',
      World.Sound sha256Hex belt cap (ends + events.length) (Rounds.after (World.next sha256Hex belt cap) w events) whole' recs' stored' ∧
        World.Complete (Rounds.after (World.next sha256Hex belt cap) w events) recs' stored'.length := by
  induction events generalizing w ends whole recs stored with
  | nil => exact ⟨whole, recs, stored, sound, complete⟩
  | cons e events ih =>
      simp only [List.length_cons] at short ⊢
      obtain ⟨whole₁, recs₁, stored₁, sound₁, complete₁⟩ := complete.next sound framed (by omega) (landed e List.mem_cons_self)
      obtain ⟨whole', recs', stored', sound', complete'⟩ := ih (fun e mem => landed e (List.mem_cons_of_mem _ mem)) (by omega) sound₁ complete₁
      refine ⟨whole', recs', stored', ?_, complete'⟩
      rwa [Nat.add_assoc, Nat.add_comm 1] at sound'

/-- What the start leads to while the controller's disk takes what is written. -/
theorem reached (sha256Hex : List UInt8 → String) (framed : Framed belt) (events : List (Event find)) (landed : ∀ e ∈ events, e.Landed)
    (short : cap + SYS_ALLOWANCE + 2 * events.length < 2 ^ 64) :
    ∃ whole recs stored,
      World.Sound sha256Hex belt cap events.length (Rounds.after (World.next sha256Hex belt cap) .start events) whole recs stored ∧
        World.Complete (Rounds.after (World.next sha256Hex belt cap) .start events) recs stored.length := by
  have sound : (World.start : World find).Sound sha256Hex belt cap 0 [] [] [] := .start
  have found := World.Complete.start.run framed events landed (by omega) sound
  rwa [Nat.zero_add] at found

end World.Complete

/-- Whatever breaks and resumes, the next chunk of a session is never past the controller's end:
    it is stored or it is a replay, and no chunk is refused as a gap. -/
theorem no_gap_arrives (framed : Framed belt) (events : List (Event find)) (landed : ∀ e ∈ events, e.Landed)
    (short : cap + SYS_ALLOWANCE + 2 * events.length < 2 ^ 64) :
    let w := Rounds.after (World.next sha256Hex belt cap) .start events
    ∀ l ∈ w.links, ∀ seq stream data rest, l.wire = .log seq stream data :: rest → seq ≤ (w.copy.lastSeq).1 + 1 := by
  intro w l mem seq stream data rest wire
  obtain ⟨whole, recs, stored, sound, complete⟩ := World.Complete.reached sha256Hex framed events landed short
  obtain ⟨a, b, carries, behind, -⟩ := (complete.links l mem).wire
  rw [wire] at carries
  have last : (w.copy.lastSeq).1 = stored.length := (sound.copy.lastSeq).1
  have := carries.1
  omega

/-- A session that broke, and the next one. -/
theorem no_gap_arrives_resumed :
    let w : World fun _ _ => [] := Rounds.after (World.next (fun _ => "") (fun _ => none) 10) .start
      [.create, .append .out [104] none, .append .out [105] none, .flush 40, .assigned, .look 0, .read 0, .deliver 0 true false,
        .cut 0 1, .welcome, .attach 1, .look 1, .read 1, .deliver 1 true false]
    ∀ l ∈ w.links, ∀ seq stream data rest, l.wire = .log seq stream data :: rest → seq ≤ (w.copy.lastSeq).1 + 1 :=
  no_gap_arrives (by simp [Framed]) _ (by simp [Event.Landed]) (by decide)

theorem payload_of_mirrors {recs : List Record} {stored : List Rec} (mirrors : Mirrors belt recs stored) (all : stored.length = recs.length)
    (plain : ∀ data, belt data = none) : stored.flatMap (·.data) = payload recs := by
  have same : stored.map (·.data) = recs.map (·.data) := by
    refine List.ext_getElem? fun i => ?_
    cases found : stored[i]? with
    | none =>
        have past : recs.length ≤ i := all ▸ List.getElem?_eq_none_iff.mp found
        simp [found, List.getElem?_eq_none_iff.mpr past]
    | some c =>
        obtain ⟨r, located, -, -, data⟩ := mirrors i c found
        simpa [found, located, plain] using data
  simp only [payload, List.flatMap_def, same]

/-- A receipt the controller holds speaks of the log it holds: it has every record of the journal,
    and without a belt the receipt's hash and size are those of what it stored. -/
theorem receipt_speaks_of_the_copy (framed : Framed belt) (events : List (Event find)) (landed : ∀ e ∈ events, e.Landed)
    (short : cap + SYS_ALLOWANCE + 2 * events.length < 2 ^ 64) :
    let w := Rounds.after (World.next sha256Hex belt cap) .start events
    ∀ log, w.receipt = some log → ∃ recs stored, framing.Holds w.file recs ∧ w.copy.Keeps stored ∧ Mirrors belt recs stored ∧
      stored.length = recs.length ∧ log.Speaks sha256Hex recs ∧
      ((∀ data, belt data = none) → log.sha256 = sha256Hex (stored.flatMap (·.data)) ∧ log.bytes = (stored.flatMap (·.data)).length) := by
  intro w log held
  obtain ⟨whole, recs, stored, sound, complete⟩ := World.Complete.reached sha256Hex framed events landed short
  have all := complete.receipt log held
  have speaks := (sound.backed.receipt log (sound.receipt log held).2).2
  refine ⟨recs, stored, sound.backed.held, sound.copy, sound.mirrors, all, speaks, fun plain => ?_⟩
  rw [payload_of_mirrors sound.mirrors all plain]
  exact ⟨speaks.sha256, speaks.bytes⟩

theorem receipt_speaks_of_the_copy_done :
    let w : World fun _ _ => [] := Rounds.after (World.next (fun _ => "") (fun _ => none) 10) .start
      [.create, .append .out [104] none, .assigned, .finish, .flush 40, .record, .look 0, .read 0, .conclude 0 false,
        .deliver 0 true false, .deliver 0 true false, .deliver 0 true false]
    ∃ recs stored, framing.Holds w.file recs ∧ w.copy.Keeps stored ∧ stored.length = recs.length ∧ ∀ log, w.receipt = some log → log.bytes = 1 := by
  intro w
  have held : w.receipt = some ⟨"", 1, false⟩ := by decide
  obtain ⟨recs, stored, onDisk, keeps, -, all, -⟩ := receipt_speaks_of_the_copy (by simp [Framed]) _ (by simp [Event.Landed]) (by decide) _ held
  exact ⟨recs, stored, onDisk, keeps, all, fun log same => by cases held.symm.trans same; rfl⟩

/-! ## A session nobody disturbs -/

/-- One pass of the shipper on a new session, and the arrival of everything it sent. -/
def session (i reads frames : Nat) : List (Event find) :=
  [.welcome, .attach i, .look i] ++ List.replicate reads (.read i) ++ [.conclude i false] ++ List.replicate frames (.deliver i true false)

section
variable {w : World find} {whole recs : List Record} {stored : List Rec} {row : Row} {file : List UInt8}

theorem World.handle_beside (belt : List UInt8 → Option (List UInt8)) (disk armed : Bool) (w : World find) (f : Frame) :
    (w.handle belt disk armed f).links = w.links ∧ (w.handle belt disk armed f).file = w.file ∧ (w.handle belt disk armed f).row = w.row := by
  cases f with
  | log seq stream data =>
      simp only [World.handle, World.onLog]
      split <;> exact ⟨rfl, rfl, rfl⟩
  | ended | receipt | snapshot => exact ⟨rfl, rfl, rfl⟩

/-- What the controller has heard stays heard, and an end and a receipt are heard. -/
theorem World.handle_heard (belt : List UInt8 → Option (List UInt8)) (disk armed : Bool) (w : World find) (f : Frame) :
    (w.closed = true ∨ (∃ n, f = .ended n) → (w.handle belt disk armed f).closed = true) ∧
      (w.receipt.isSome ∨ (∃ log, f = .receipt log) → (w.handle belt disk armed f).receipt.isSome) := by
  cases f with
  | log seq stream data =>
      simp only [World.handle, World.onLog]
      split <;> simp
  | ended | receipt | snapshot => simp +contextual [World.handle]

theorem World.Sound.arrives (framed : Framed belt) {i : Nat} {l : Link} (sound : w.Sound sha256Hex belt cap ends whole recs stored)
    (found : w.links[i]? = some l) {a b : Nat} (carries : Carries recs.length a l.wire b) (behind : a ≤ stored.length) :
    ∃ stored', let w' := Rounds.after (World.next sha256Hex belt cap) w (List.replicate l.wire.length (.deliver i true false))
      World.Sound sha256Hex belt cap ends w' whole recs stored' ∧ b ≤ stored'.length ∧ w'.file = w.file ∧ w'.row = w.row ∧
      (w.closed = true ∨ (∃ n, .ended n ∈ l.wire) → w'.closed = true) ∧
      (w.receipt.isSome ∨ (∃ log, .receipt log ∈ l.wire) → w'.receipt.isSome) := by
  generalize frames : l.wire = wire at carries
  induction wire generalizing w l stored a with
  | nil =>
      cases carries
      exact ⟨stored, sound, behind, rfl, rfl, by simp [Rounds.after], by simp [Rounds.after]⟩
  | cons f rest ih =>
      have holds := (sound.links l (List.mem_of_getElem? found)).wire f (by simp [frames])
      have sound₁ := sound.relink (forall_modify sound.links (fun l honest => honest.tail) i)
      have call : w.next sha256Hex belt cap (.deliver i true false) =
          (w.updateLink i fun l => { l with wire := l.wire.tail }).handle belt true false f := by
        simp [World.next, found, frames]
      obtain ⟨links, file, row⟩ := World.handle_beside belt true false (w.updateLink i fun l => { l with wire := l.wire.tail }) f
      obtain ⟨closed, receipt⟩ := World.handle_heard belt true false (w.updateLink i fun l => { l with wire := l.wire.tail }) f
      obtain ⟨stored₁, sound₂, a₁, carries₁, behind₁⟩ : ∃ stored₁,
          World.Sound sha256Hex belt cap ends ((w.updateLink i fun l => { l with wire := l.wire.tail }).handle belt true false f) whole recs stored₁ ∧
            ∃ a₁, Carries recs.length a₁ rest b ∧ a₁ ≤ stored₁.length := by
        cases f with
        | log seq stream data =>
            obtain ⟨stored₁, sound₂, -, taken⟩ := sound₁.onLog framed false true holds
            exact ⟨stored₁, sound₂, a + 1, carries.2, carries.1 ▸ taken rfl (by have := carries.1; omega)⟩
        | ended | receipt =>
            obtain ⟨stored₁, sound₂, grown⟩ := sound₁.handle framed true false holds
            exact ⟨stored₁, sound₂, a, carries.2, Nat.le_trans behind grown.length_le⟩
        | snapshot =>
            obtain ⟨stored₁, sound₂, grown⟩ := sound₁.handle framed true false holds
            exact ⟨stored₁, sound₂, a, carries, Nat.le_trans behind grown.length_le⟩
      have successor : ((w.updateLink i fun l => { l with wire := l.wire.tail }).handle belt true false f).links[i]? =
          some { l with wire := rest } := by
        rw [links]
        simp [World.updateLink, found, frames]
      obtain ⟨stored', sound', all, file', row', closed', receipt'⟩ := ih sound₂ successor behind₁ rfl carries₁
      simp only [List.length_cons, List.replicate_succ, Rounds.after, call]
      refine ⟨stored', sound', all, file'.trans file, row'.trans row, fun heard => closed' ?_, fun heard => receipt' ?_⟩
      · simp only [List.mem_cons] at heard
        obtain was | ⟨n, here | there⟩ := heard
        · exact .inl (closed (.inl was))
        · exact .inl (closed (.inr ⟨n, here.symm⟩))
        · exact .inr ⟨n, there⟩
      · simp only [List.mem_cons] at heard
        obtain was | ⟨log, here | there⟩ := heard
        · exact .inl (receipt (.inl was))
        · exact .inl (receipt (.inr ⟨log, here.symm⟩))
        · exact .inr ⟨log, there⟩

theorem reads_all (held : framing.Holds file recs) (numbered : Numbered recs) {l : Link} {t : Track} (found : l.track = some t)
    (seen : t.seen = some row) (full : 32 ≤ t.batch) (placed : t.reader.Placed recs) {n : Nat} (enough : recs.length - t.reader.lastSeq < n) :
    ∃ t', ((World.read file)^[n] l).track = some t' ∧ t'.seen = some row ∧ t'.sent = t.sent ∧ t'.batch < 32 ∧
      t'.reader.lastSeq = recs.length := by
  induction n generalizing l t with
  | zero => omega
  | succ n ih =>
      obtain ⟨reader, call, placed', lastSeq, -⟩ := JournalReader.readMore_placed held numbered placed 32
      have step : World.read file l =
          { l with
            track := some { t with reader := reader, batch := ((recs.drop t.reader.lastSeq).take 32).length }
            wire := l.wire ++ ((recs.drop t.reader.lastSeq).take 32).map fun r => .log r.seq r.stream r.data } := by
        simp only [World.read, found, seen, Option.isSome_some, full, and_self, if_true, call]
      have last := placed.last_le
      simp only [List.length_take, List.length_drop] at lastSeq
      rw [Function.iterate_succ_apply]
      by_cases more : 32 ≤ recs.length - t.reader.lastSeq
      · refine ih (t := { t with reader := reader, batch := ((recs.drop t.reader.lastSeq).take 32).length })
          (by rw [step]) seen (by simp; omega) placed' ?_
        simp only [lastSeq]
        omega
      · -- A short read was the last: further reads of the pass do nothing.
        have idle : World.read file (World.read file l) = World.read file l := by
          have short : ¬ 32 ≤ ((recs.drop t.reader.lastSeq).take 32).length := by simp; omega
          rw [step]
          simp only [World.read, short, and_false, if_false]
        rw [Function.iterate_fixed idle, step]
        exact ⟨_, rfl, seen, rfl, by simp; omega, by simp only [lastSeq]; omega⟩

/-- The end of such a pass: the whole journal is sent, and behind it the end and the receipt. -/
theorem conclude_all {l : Link} {t : Track} {a : Nat} (found : l.track = some t) (seen : t.seen = some row) (fresh : t.sent = false)
    (last : t.batch < 32) (all : t.reader.lastSeq = recs.length) (inside : row.logSeq ≤ recs.length)
    (carries : Carries recs.length a l.wire recs.length) :
    Carries recs.length a (World.conclude false l).wire recs.length ∧
      (row.ended = true → (∃ n, .ended n ∈ (World.conclude false l).wire) ∧
        ∀ log, row.receipt = some log → .receipt log ∈ (World.conclude false l).wire) := by
  have state : Carries recs.length recs.length [.ended row.logSeq] recs.length := ⟨rfl, rfl⟩
  have behind : ¬ t.reader.lastSeq < row.logSeq := by omega
  have short : ¬ 32 ≤ t.batch := by omega
  by_cases closed : row.ended = true
  · cases receipt : row.receipt with
    | none =>
        have wire : (World.conclude false l).wire = l.wire ++ [.ended row.logSeq] := by
          simp [World.conclude, found, seen, fresh, short, closed, behind, receipt]
        rw [wire]
        exact ⟨carries.append state, fun _ => ⟨⟨row.logSeq, by simp⟩, by simp⟩⟩
    | some log =>
        have wire : (World.conclude false l).wire = l.wire ++ [.ended row.logSeq] ++ [.receipt log] := by
          simp [World.conclude, found, seen, fresh, short, closed, behind, receipt]
        rw [wire]
        exact ⟨(carries.append state).append ⟨rfl, rfl⟩, fun _ => ⟨⟨row.logSeq, by simp⟩, by simp⟩⟩
  · have wire : (World.conclude false l).wire = l.wire := by
      simp [World.conclude, found, seen, short, closed]
    rw [wire]
    exact ⟨carries, fun ended => absurd ended closed⟩

theorem modify_concat {α : Type} (xs : List α) (x : α) (f : α → α) : (xs ++ [x]).modify xs.length f = xs ++ [f x] := by
  induction xs with
  | nil => rfl
  | cons y xs ih => simp [ih]

theorem after_reads {ls : List Link} (l : Link) (links : w.links = ls ++ [l]) (n : Nat) :
    Rounds.after (World.next sha256Hex belt cap) w (List.replicate n (.read ls.length)) =
      { w with links := ls ++ [(World.read w.file)^[n] l] } := by
  induction n generalizing w l with
  | zero => simp [Rounds.after, ← links]
  | succ n ih =>
      have step : w.next sha256Hex belt cap (.read ls.length) = { w with links := ls ++ [World.read w.file l] } := by
        simp only [World.next, World.updateLink, links, modify_concat]
      rw [List.replicate_succ, Rounds.after, step, ih _ rfl, Function.iterate_succ_apply]

/-- The link of a session nobody disturbs, when all of the pass is on its way. -/
def passed (w : World find) (reads : Nat) : Link :=
  World.conclude false ((World.read w.file)^[reads] (World.look w.row (World.attach w.row ⟨some (some (w.copy.lastSeq).1), none, []⟩)))

theorem after_session (following : w.closed = false) (reads frames : Nat) :
    Rounds.after (World.next sha256Hex belt cap) w (session w.links.length reads frames) =
      Rounds.after (World.next sha256Hex belt cap)
        ({ w with links := w.links ++ [passed w reads], copy := (w.copy.lastSeq).2 } : World find)
        (List.replicate frames (.deliver w.links.length true false)) := by
  have hello : w.next sha256Hex belt cap .welcome =
      { w with links := w.links ++ [⟨some (some (w.copy.lastSeq).1), none, []⟩], copy := (w.copy.lastSeq).2 } := by
    simp [World.next, following]
  have first : Rounds.after (World.next sha256Hex belt cap) w [.welcome, .attach w.links.length, .look w.links.length] =
      { w with
        links := w.links ++ [World.look w.row (World.attach w.row ⟨some (some (w.copy.lastSeq).1), none, []⟩)]
        copy := (w.copy.lastSeq).2 } := by
    simp only [Rounds.after, hello]
    simp only [World.next, World.updateLink, modify_concat]
  have last : ∀ l : Link, Rounds.after (World.next sha256Hex belt cap)
      ({ w with links := w.links ++ [l], copy := (w.copy.lastSeq).2 } : World find) [.conclude w.links.length false] =
        { w with links := w.links ++ [World.conclude false l], copy := (w.copy.lastSeq).2 } := fun l => by
    simp only [Rounds.after, World.next, World.updateLink, modify_concat]
  rw [session, Rounds.after_append, Rounds.after_append, Rounds.after_append, first, after_reads _ rfl reads, last]
  rfl

theorem World.Sound.session (framed : Framed belt) (sound : w.Sound sha256Hex belt cap ends whole recs stored) (following : w.closed = false) :
    ∃ reads frames, let w' := Rounds.after (World.next sha256Hex belt cap) w (session w.links.length reads frames)
      w'.file = w.file ∧ w'.row = w.row ∧
        (∃ recs stored, framing.Holds w'.file recs ∧ w'.copy.Keeps stored ∧ Mirrors belt recs stored ∧ stored.length = recs.length) ∧
        (w.row.ended = true → w'.closed = true) ∧ ∀ log, w.row.receipt = some log → w'.receipt = some log := by
  have numbered := sound.backed.numbered
  have since : (w.copy.lastSeq).1 = stored.length := (sound.copy.lastSeq).1
  have inside := World.Sound.mirrors_length sound.mirrors
  let l := World.look w.row (World.attach w.row ⟨some (some (w.copy.lastSeq).1), none, []⟩)
  have first : l.Honest w.row recs ∧ l.Unbroken recs stored.length := by
    have honest : (⟨some (some (w.copy.lastSeq).1), none, []⟩ : Link).Honest w.row recs := ⟨by simpa [since] using inside, by simp, by simp, by simp⟩
    have unbroken : (⟨some (some (w.copy.lastSeq).1), none, []⟩ : Link).Unbroken recs stored.length :=
      ⟨by simp [since], ⟨0, 0, rfl, Nat.zero_le _, by simp⟩, by simp⟩
    exact ⟨honest.attach.look, (unbroken.attach w.row).look w.row⟩
  have afterReads : ∀ n, ((World.read w.file)^[n] l).Honest w.row recs ∧ ((World.read w.file)^[n] l).Unbroken recs stored.length := by
    intro n
    induction n with
    | zero => exact first
    | succ n ih =>
        rw [Function.iterate_succ_apply']
        exact ⟨ih.1.read sound.backed.held numbered, ih.2.read ih.1 sound.backed.held numbered⟩
  obtain ⟨honest, unbroken⟩ := afterReads (recs.length + 1)
  obtain ⟨t, found, seen, fresh, last, all⟩ : ∃ t', ((World.read w.file)^[recs.length + 1] l).track = some t' ∧ t'.seen = some w.row ∧
      t'.sent = false ∧ t'.batch < 32 ∧ t'.reader.lastSeq = recs.length :=
    reads_all sound.backed.held numbered (t := { track (w.copy.lastSeq).1 with seen := some w.row, batch := 32 }) rfl rfl (Nat.le_refl _)
      (.start (by omega)) (by omega)
  obtain ⟨a, b, carries, behind, reader⟩ := unbroken.wire
  obtain rfl : recs.length = b := all.symm.trans (reader t found)
  have known : w.row.logSeq ≤ recs.length := by
    by_cases closed : w.row.ended = true
    · exact sound.backed.ended closed
    · rw [sound.backed.fresh (by simpa using closed)]
      exact Nat.zero_le _
  obtain ⟨carried, told⟩ := conclude_all found seen fresh last all known carries
  have ready : World.Sound sha256Hex belt cap ends
      ({ w with links := w.links ++ [passed w (recs.length + 1)], copy := (w.copy.lastSeq).2 } : World find) whole recs stored := by
    refine ⟨{ sound.backed with }, fun l mem => ?_, (sound.copy.lastSeq).2, sound.mirrors, sound.receipt⟩
    cases List.mem_append.mp mem with
    | inl old => exact sound.links l old
    | inr new =>
        rw [List.mem_singleton.mp new]
        exact honest.conclude false
  obtain ⟨stored', sound', most, file, row, closed, receipt⟩ :=
    ready.arrives framed (i := w.links.length) (l := passed w (recs.length + 1)) (by simp) carried behind
  refine ⟨recs.length + 1, (passed w (recs.length + 1)).wire.length, ?_⟩
  simp only [after_session following]
  have fewer := World.Sound.mirrors_length sound'.mirrors
  refine ⟨file, row, ⟨recs, stored', sound'.backed.held, sound'.copy, sound'.mirrors, by omega⟩, fun ended =>
    closed (.inr (told ended).1), fun log said => ?_⟩
  have ended := (sound.backed.receipt log said).1
  obtain ⟨log', held⟩ := Option.isSome_iff_exists.mp (receipt (.inr ⟨log, (told ended).2 log said⟩))
  have same := (sound'.receipt log' held).2
  rw [row] at same
  exact held.trans (same.symm.trans said)

end

/-- Nothing is lost for good while the controller follows the attempt: from wherever crashes, broken
    sessions and writes that failed whole have led, one session nobody disturbs brings the copy to the whole
    journal on disk, and if the attempt has ended its end and its receipt. -/
theorem one_session_delivers_all (framed : Framed belt) (events : List (Event find))
    (short : cap + SYS_ALLOWANCE + 2 * events.length < 2 ^ 64) :
    let w := Rounds.after (World.next sha256Hex belt cap) .start events
    w.closed = false → ∃ reads frames,
      let w' := Rounds.after (World.next sha256Hex belt cap) w (session w.links.length reads frames)
      w'.file = w.file ∧ w'.row = w.row ∧
        (∃ recs stored, framing.Holds w'.file recs ∧ w'.copy.Keeps stored ∧ Mirrors belt recs stored ∧ stored.length = recs.length) ∧
        (w.row.ended = true → w'.closed = true) ∧ ∀ log, w.row.receipt = some log → w'.receipt = some log := by
  intro w following
  have start : (World.start : World find).Sound sha256Hex belt cap 0 [] [] [] := .start
  obtain ⟨whole, recs, stored, sound, -⟩ := start.run framed events (by omega)
  exact sound.session framed following

theorem one_session_delivers_all_interrupted :
    let w : World fun _ _ => [] := Rounds.after (World.next (fun _ => "") (fun _ => none) 10) .start
      [.create, .append .out [104] none, .flush 20, .assigned, .look 0, .read 0, .deliver 0 false false, .crash, .interrupt]
    ∃ reads frames,
      let w' := Rounds.after (World.next (fun _ => "") (fun _ => none) 10) w (session w.links.length reads frames)
      w'.file = w.file ∧ w'.row = w.row ∧
        (∃ recs stored, framing.Holds w'.file recs ∧ w'.copy.Keeps stored ∧ Mirrors (fun _ => none) recs stored ∧ stored.length = recs.length) ∧
        (w.row.ended = true → w'.closed = true) ∧ ∀ log, w.row.receipt = some log → w'.receipt = some log :=
  one_session_delivers_all (by simp [Framed]) _ (by decide) (by decide)

/-! ## An end heard too early -/

/-- The session asks for nothing, reads nothing and carries no output. -/
def Link.Quiet (l : Link) : Prop :=
  (∀ since, l.welcome ≠ some (some since)) ∧ l.track = none ∧ ∀ seq stream data, .log seq stream data ∉ l.wire

/-- The controller has heard the end, and no session it heard it in is left to send the rest. -/
structure World.Stranded (w : World find) : Prop where
  closed : w.closed = true
  ended : w.row.ended = true
  idle : w.writer = none ∧ w.closing = none
  links : ∀ l ∈ w.links, l.Quiet

theorem Link.Quiet.attach {row : Row} {l : Link} (ended : row.ended = true) (quiet : l.Quiet) : (World.attach row l).Quiet := by
  unfold World.attach
  cases welcome : l.welcome with
  | none => exact quiet
  | some hint =>
      cases hint with
      | some since => exact absurd welcome (quiet.1 since)
      | none => exact ⟨by simp, by simp [ended], fun seq stream data => by simpa using quiet.2.2 seq stream data⟩

theorem World.Stranded.next {w : World find} (stranded : w.Stranded) (e : Event find) :
    (w.next sha256Hex belt cap e).Stranded ∧ (w.next sha256Hex belt cap e).copy.file = w.copy.file := by
  obtain ⟨closed, ended, ⟨noWriter, notClosing⟩, links⟩ := stranded
  have still : w.Stranded := ⟨closed, ended, ⟨noWriter, notClosing⟩, links⟩
  have relink : ∀ (f : Link → Link) (i : Nat), (∀ l : Link, l.Quiet → (f l).Quiet) → (w.updateLink i f).Stranded := fun f i quiet =>
    ⟨closed, ended, ⟨noWriter, notClosing⟩, forall_modify links quiet i⟩
  have busy : w.idle = false := by simp [World.idle, ended]
  cases e with
  | create | reopen | append | finish | record | interrupt => simpa [World.next, busy, noWriter, notClosing] using still
  | redact | flush => exact ⟨⟨closed, ended, ⟨by simp [World.next, noWriter], notClosing⟩, links⟩, rfl⟩
  | crash =>
      refine ⟨⟨closed, ended, ⟨rfl, rfl⟩, fun l mem => ?_⟩, rfl⟩
      obtain ⟨l, was, rfl⟩ := List.mem_map.mp mem
      exact ⟨by simp [World.dropped], rfl, (links l was).2.2⟩
  | restart => exact ⟨⟨closed, ended, ⟨noWriter, notClosing⟩, links⟩, rfl⟩
  | assigned => simpa [World.next, closed] using still
  | welcome =>
      have greeted : w.next sha256Hex belt cap .welcome = { w with links := w.links ++ [⟨some none, none, []⟩] } := by simp [World.next, closed]
      rw [greeted]
      refine ⟨⟨closed, ended, ⟨noWriter, notClosing⟩, fun l mem => ?_⟩, rfl⟩
      cases List.mem_append.mp mem with
      | inl old => exact links l old
      | inr new => cases List.mem_singleton.mp new; simp [Link.Quiet]
  | attach i => exact ⟨relink _ i fun l quiet => quiet.attach ended, rfl⟩
  | look i => exact ⟨relink _ i fun l quiet => ⟨quiet.1, by simp [World.look, quiet.2.1], quiet.2.2⟩, rfl⟩
  | read i => exact ⟨relink _ i fun l quiet => by simpa only [World.read, quiet.2.1] using quiet, rfl⟩
  | conclude i closing => exact ⟨relink _ i fun l quiet => by simpa only [World.conclude, quiet.2.1] using quiet, rfl⟩
  | cut i n =>
      exact ⟨relink _ i fun l quiet => ⟨by simp, rfl, fun seq stream data mem => quiet.2.2 seq stream data (List.mem_of_mem_take mem)⟩, rfl⟩
  | deliver i disk armed =>
      cases head : w.links[i]?.bind (·.wire.head?) with
      | none => simpa only [World.next, head] using ⟨still, trivial⟩
      | some f =>
          obtain ⟨l, found, first⟩ := Option.bind_eq_some_iff.mp head
          have rest := relink (fun l => { l with wire := l.wire.tail }) i fun l quiet =>
            ⟨quiet.1, quiet.2.1, fun seq stream data mem => quiet.2.2 seq stream data (List.mem_of_mem_tail mem)⟩
          simp only [World.next, head]
          cases f with
          | log seq stream data => exact absurd (List.mem_of_mem_head? first) ((links l (List.mem_of_getElem? found)).2.2 seq stream data)
          | ended => exact ⟨⟨rfl, rest.ended, rest.idle, rest.links⟩, rfl⟩
          | receipt => exact ⟨⟨rest.closed, rest.ended, rest.idle, rest.links⟩, rfl⟩
          | snapshot => exact ⟨⟨by simp [World.handle, rest.closed], rest.ended, rest.idle, rest.links⟩, rfl⟩

end K2.JobLog
