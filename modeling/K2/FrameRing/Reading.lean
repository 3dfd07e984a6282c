import K2.FrameRing.World
import K2.FrameRing.Hostile

/-! # A read beside the producers

A slot whose sequence word is the same even word before and after a copy wasn't
opened in between: the word comes round only after 2^61 pushes into the slot, and
no read lasts that long. -/

namespace K2.FrameRing

open SharedMemory Prog WrappedCount

/-- A good world that no read has lasted too long in; `since` is how many pushes
    had begun in each slot when the read did. -/
structure Calm (l : Layout) (since : Nat → Nat) (w : World) : Prop where
  good : Good l w
  began : ∀ slot < l.slots, since slot ≤ w.books.begun slot
  soon : ∀ slot < l.slots, w.books.begun slot ≤ since slot + 2 ^ 61

/-- What the producers do beside a read. -/
def Beside (l : Layout) (since : Nat → Nat) (w w' : World) : Prop := Calm l since w → Later w w' ∧ Calm l since w'

/-- What a read stores. -/
def Beats (w : World) (place v : Nat) (w' : World) : Prop :=
  place = hBeat ∧ w' = { w with mem := Function.update w.mem place v }

/-- A read beside producers gives what `P` says. -/
abbrev Reads {α : Type} (l : Layout) (since : Nat → Nat) (P : World → α → Prop) (prog : Prog α) (w : World) : Prop :=
  prog.Under (Beside l since) World.mem Beats P w

variable {l : Layout} {since : Nat → Nat} {w w' w'' : World} {slot : Nat} {p : Push}

theorem Beside.refl (w : World) : Beside l since w w := fun calm => ⟨Later.refl w, calm⟩

theorem Beside.trans (first : Beside l since w w') (second : Beside l since w' w'') : Beside l since w w'' := by
  intro calm
  obtain ⟨early, calm⟩ := first calm
  obtain ⟨late, calm⟩ := second calm
  exact ⟨early.trans late, calm⟩

theorem Calm.beats (bounds : l.Bounds) {place v : Nat} (calm : Calm l since w) (beats : Beats w place v w') :
    Later w w' ∧ Calm l since w' := by
  obtain ⟨rfl, rfl⟩ := beats
  have good := calm.good.store_spare bounds v (by decide : hBeat ∈ spare)
  exact ⟨{ Later.refl w with }, { calm with good }⟩

theorem Reads.keeps {α : Type} (bounds : l.Bounds) {P : World → α → Prop} {prog : Prog α} (calm : Calm l since w)
    (reads : Reads l since P prog w) : Reads l since (fun w' a => (Later w w' ∧ Calm l since w') ∧ P w' a) prog w := by
  refine Under.keeps (fun held moves => ?_) (fun held beats => ?_) ⟨Later.refl w, calm⟩ reads
  · obtain ⟨later, calm⟩ := moves held.2
    exact ⟨held.1.trans later, calm⟩
  · obtain ⟨later, calm⟩ := held.2.beats bounds beats
    exact ⟨held.1.trans later, calm⟩

/-! ## What a load finds -/

/-- What lies in a whole slot that holds `held`. -/
def Found (held : Option Push) (off v : Nat) : Prop :=
  match held with
  | none => off = slFrameNo → v = 0
  | some p => ∀ c ∈ p.cells, c.2.1 = off → v = c.2.2

theorem Good.found (good : Good l w) (below : slot < l.slots) (whole : w.turn slot % 2 = 0) (off : Nat) :
    Found (w.held slot) off (w.mem (l.slotBase slot + off)) := by
  have holds := good.whole slot below whole
  unfold Whole at holds
  unfold Found
  cases held : w.held slot with
  | none =>
    rw [held] at holds
    rintro rfl
    exact holds
  | some p =>
    rw [held] at holds
    rintro c mem rfl
    exact holds.cells c mem

theorem Calm.found (calm : Calm l since w') (later : Later w w') (below : slot < l.slots) (whole : w.turn slot % 2 = 0)
    (same : w'.turn slot = w.turn slot) (off : Nat) : Found (w.held slot) off (w'.mem (l.slotBase slot + off)) :=
  later.held slot same ▸ calm.good.found below (same ▸ whole) off

theorem same_turn (calm : Calm l since w) (calm' : Calm l since w') (later : Later w w') (below : slot < l.slots)
    (whole : w.turn slot % 2 = 0) (same : seqWord (w'.turn slot) = seqWord (w.turn slot)) :
    w'.turn slot = w.turn slot := by
  have whole' : w'.turn slot % 2 = 0 := by rw [← seqWord_mod_two, same, seqWord_mod_two, whole]
  have rise := later.begun slot
  have began := calm.began slot below
  have soon := calm'.soon slot below
  refine (eq_of_shown_eq same.symm (later.turn slot) ?_).symm
  unfold closing at rise
  unfold maxSeq
  omega

/-! ## Copies -/

/-- A frame copied since `w`, as of `w'`: one push's, and a published one's unless the
    numbers have come round. -/
structure Copy (w w' : World) (latest : Nat) (info : FrameInfo) (bytes : List Nat) : Prop where
  number : info.frameNo = latest >>> 8
  whole : ∃ p ∈ w'.books.sealed, p.info = info ∧ p.frame.bytes = bytes ∧
    (p ∈ w'.books.completed ∨
      ∃ k, w.books.completed.length ≤ k ∧ k ≤ w'.books.completed.length ∧ p.frameNo = shown maxFrameNo (k + 1))

theorem Copy.later {latest : Nat} {info : FrameInfo} {bytes : List Nat} (copy : Copy w w' latest info bytes)
    (later : Later w' w'') : Copy w w'' latest info bytes where
  number := copy.number
  whole := by
    obtain ⟨p, sealed, info, bytes, origin⟩ := copy.whole
    refine ⟨p, later.sealed p sealed, info, bytes, ?_⟩
    rcases origin with published | ⟨k, low, high, number⟩
    · exact .inl (later.completed.subset published)
    · exact .inr ⟨k, low, Nat.le_trans high later.completed.length_le, number⟩

def Copied.Of (w w' : World) (latest : Nat) : Copied → Prop
  | .frame info bytes => Copy w w' latest info bytes
  | _ => True

/-! ## Loads -/

theorem eq_of_checked {v v' : Nat} (found : checked v = some v') : v' = v := by
  unfold checked at found
  split at found
  · exact (Option.some.inj found).symm
  · cases found

theorem load_under {β : Type} {R : World → β → Prop} {f : Nat → Prog β} {wd : Width} {base off : Nat} (calm : Calm l since w)
    (rest : ∀ w', Later w w' → Calm l since w' → Reads l since R (f (w'.mem (base + off))) w') :
    Reads l since R (load wd base off >>= f) w := by
  unfold load
  cases found : checked (base + off) with
  | none => trivial
  | some place =>
      have placeEq : place = base + off := eq_of_checked found
      intro w' moves
      obtain ⟨later, calm'⟩ := moves calm
      exact placeEq ▸ rest w' later calm'

theorem copyBytes_under (below : slot < l.slots) (whole : w.turn slot % 2 = 0) {n k : Nat}
    (later : Later w w') (calm : Calm l since w') :
    Reads l since
      (fun w'' bytes => Later w' w'' ∧ Calm l since w'' ∧ (w''.turn slot = w.turn slot →
        ∀ p, w.held slot = some p → k + n = p.frame.bytes.length → bytes = p.frame.bytes.drop k))
      (copyBytes (l.slotBase slot + (slotHeader + k)) n) w' := by
  induction n generalizing k w' with
  | zero =>
      intro w'' moves
      obtain ⟨later', calm'⟩ := moves calm
      exact ⟨later', calm', fun _ p _ length => (List.drop_eq_nil_of_le (by omega)).symm⟩
  | succ n ih =>
      intro w₁ moves
      obtain ⟨later₁, calm₁⟩ := moves calm
      have remaining : Reads l since _ (copyBytes (l.slotBase slot + (slotHeader + k) + 1) n) w₁ :=
        ih (k := k + 1) (later.trans later₁) calm₁
      show Reads l since _ (copyBytes (l.slotBase slot + (slotHeader + k) + 1) n >>= fun rest => pure (_ :: rest)) w₁
      refine Under.bind Beside.refl (remaining.mono ?_)
      rintro w₂ rest ⟨later₂, calm₂, bytes⟩ w₃ moves
      obtain ⟨later₃, calm₃⟩ := moves calm₂
      refine ⟨(later₁.trans later₂).trans later₃, calm₃, fun same p held length => ?_⟩
      have order₁ := (later.trans later₁).turn slot
      have order₂ := later₂.turn slot
      have order₃ := later₃.turn slot
      have byte := calm₁.found (later.trans later₁) below whole (by omega) (slotHeader + k)
      rw [held] at byte
      have inside : k < p.frame.bytes.length := by omega
      rw [bytes (by omega) p held (by omega), List.drop_eq_getElem_cons inside]
      have cell : (.u8, slotHeader + k, p.frame.bytes[k]) ∈ p.cells :=
        List.mem_append_right _ (byteCells_getElem slotHeader inside)
      exact congrArg (· :: _) (byte _ cell rfl)

theorem badOrTorn_under (calm : Calm l since w') (base s1 latest : Nat) :
    Reads l since (fun w'' out => out.Of w w'' latest) (Consumer.badOrTorn base s1) w' := by
  refine load_under calm fun w₁ later calm w₂ moves => ?_
  split <;> trivial

theorem Color.ofU32_toU32 {color color' : Color} (read : Color.ofU32 color'.toU32 = some color) : color' = color := by
  cases color' <;> exact Option.some.inj read

/-- Fields read from one turn of a slot are those of the push it holds. -/
theorem info_of_found {held : Option Push} {frameNo width height rotation color timestampNs : Nat} {color' : Color}
    (named : frameNo ≠ 0) (number : Found held slFrameNo frameNo) (widthRead : Found held slWidth width)
    (heightRead : Found held slHeight height) (rotationRead : Found held slRotation rotation) (colorRead : Found held slColor color)
    (read : Color.ofU32 color = some color') (timestamp : Found held slTimestamp timestampNs) :
    ∃ p, held = some p ∧ p.info = { frameNo, width, height, rotation, color := color', timestampNs } := by
  cases held with
  | none => exact absurd (number rfl) named
  | some p =>
      refine ⟨p, rfl, ?_⟩
      have number := number (.u64, slFrameNo, p.frameNo) (by simp [Push.cells]) rfl
      have widthRead := widthRead (.u32, slWidth, p.frame.width) (by simp [Push.cells]) rfl
      have heightRead := heightRead (.u32, slHeight, p.frame.height) (by simp [Push.cells]) rfl
      have rotationRead := rotationRead (.u32, slRotation, p.frame.rotation) (by simp [Push.cells]) rfl
      have colorRead := colorRead (.u32, slColor, p.frame.color.toU32) (by simp [Push.cells]) rfl
      have timestamp := timestamp (.u64, slTimestamp, p.timestampNs) (by simp [Push.cells]) rfl
      subst number widthRead heightRead rotationRead colorRead timestamp
      rw [← Color.ofU32_toU32 read]
      rfl

theorem copySlot_under (calm : Calm l since w) {latest : Nat} (nonzero : latest >>> 8 ≠ 0) :
    Reads l since (fun w' out => out.Of w w' latest) (Consumer.copySlot l latest) w := by
  unfold Consumer.copySlot
  dsimp only
  split
  next => exact fun w' _ => trivial
  next below =>
    have below : latest &&& 0xff < l.slots := Nat.lt_of_not_le below
    refine Under.lift_bind fun row rowEq => Under.lift_bind fun base baseEq => ?_
    have baseEq : base = l.slotBase (latest &&& 0xff) := by rw [eq_of_checked baseEq, eq_of_checked rowEq, Layout.slotBase]
    subst baseEq
    refine load_under calm fun w₁ later₁ calm₁ => ?_
    split
    next => exact fun w' _ => trivial
    next even =>
      refine load_under calm₁ fun w₂ later₂ calm₂ => ?_
      refine load_under calm₂ fun w₃ later₃ calm₃ => ?_
      refine load_under calm₃ fun w₄ later₄ calm₄ => ?_
      refine load_under calm₄ fun w₅ later₅ calm₅ => ?_
      refine load_under calm₅ fun w₆ later₆ calm₆ => ?_
      refine load_under calm₆ fun w₇ later₇ calm₇ => ?_
      refine load_under calm₇ fun w₈ later₈ calm₈ => ?_
      split
      next => exact fun w' _ => trivial
      next number =>
        split
        next => exact badOrTorn_under calm₈ ..
        next color colorRead =>
          split
          next => exact badOrTorn_under calm₈ ..
          next sized =>
            refine Under.lift_bind fun data dataEq => ?_
            have dataEq := eq_of_checked dataEq
            subst dataEq
            have seq₁ := calm₁.good.seq _ below
            have whole : w₁.turn (latest &&& 0xff) % 2 = 0 := by
              rw [seq₁, Nat.and_one_is_mod, seqWord_mod_two] at even
              omega
            have later₁₈ : Later w₁ w₈ := by
              refine later₂.trans (later₃.trans (later₄.trans ?_))
              exact later₅.trans (later₆.trans (later₇.trans later₈))
            refine Under.bind Beside.refl ((copyBytes_under (k := 0) below whole later₁₈ calm₈).mono ?_)
            rintro w₉ bytes ⟨later₉, calm₉, bytesRead⟩
            refine load_under calm₉ fun w₁₀ later₁₀ calm₁₀ => ?_
            split
            next same =>
              rw [calm₁₀.good.seq _ below, seq₁] at same
              have later : Later w₁ w₁₀ := later₁₈.trans (later₉.trans later₁₀)
              have turn := same_turn calm₁ calm₁₀ later below whole same
              have found (off : Nat) {w' : World} (calm' : Calm l since w') (before : Later w₁ w') (after : Later w' w₁₀) :
                  Found (w₁.held (latest &&& 0xff)) off (w'.mem (l.slotBase (latest &&& 0xff) + off)) := by
                have low := before.turn (latest &&& 0xff)
                have high := after.turn (latest &&& 0xff)
                exact calm'.found before below whole (by omega) off
              have before₃ := later₂.trans later₃
              have before₄ := before₃.trans later₄
              have before₅ := before₄.trans later₅
              have before₆ := before₅.trans later₆
              have before₇ := before₆.trans later₇
              have after₈ := later₉.trans later₁₀
              have after₇ := later₈.trans after₈
              have after₆ := later₇.trans after₇
              have after₅ := later₆.trans after₆
              have after₄ := later₅.trans after₅
              have after₃ := later₄.trans after₄
              have named := not_not.mp number
              obtain ⟨colorRead, -⟩ := Option.filter_eq_some_iff.mp colorRead
              obtain ⟨p, held, info⟩ := info_of_found (named ▸ nonzero) (found _ calm₂ later₂ (later₃.trans after₃))
                (found _ calm₃ before₃ after₃) (found _ calm₄ before₄ after₄) (found _ calm₅ before₅ after₅)
                (found _ calm₆ before₆ after₆) colorRead (found _ calm₇ before₇ after₇)
              have low := (later₁₈.trans later₉).turn (latest &&& 0xff)
              have high := later₁₀.turn (latest &&& 0xff)
              have bytesRead := bytesRead (by omega) p held (by rw [← info, Nat.zero_add, p.frame.sized]; rfl)
              have holds : Whole l w₁₀ (latest &&& 0xff) := calm₁₀.good.whole _ below (turn ▸ whole)
              rw [Whole, later.held _ turn, held] at holds
              intro w' moves
              refine Copy.later ?_ (moves calm₁₀).1
              refine { number := named, whole := ⟨p, holds.sealed, info, bytesRead.symm, ?_⟩ }
              refine holds.recent.imp_right fun unpublished => ⟨_, ?_, Nat.le_refl _, unpublished.2⟩
              exact (later₁.trans later).completed.length_le
            next => exact fun w' _ => trivial

/-! ## Reads -/

/-- The consumer as of a world: before the numbers come round, what it read last was
    published. -/
structure Kept (l : Layout) (w : World) (c : Consumer) : Prop where
  layout : c.layout = l
  last : w.books.completed.length < maxFrameNo → c.lastFrame ≤ w.books.completed.length

/-- A frame handed out. -/
structure Handed (c : Consumer) (again : Bool) (w : World) (c' : Consumer) (info : FrameInfo) (bytes : List Nat) : Prop where
  last : c'.lastFrame = info.frameNo
  whole : ∃ p ∈ w.books.sealed, p.info = info ∧ p.frame.bytes = bytes
  fresh : again = false → info.frameNo ≠ c.lastFrame
  order : w.books.completed.length < maxFrameNo → c.lastFrame ≤ info.frameNo
  low : w.books.completed.length < maxFrameNo → info.frameNo ≤ w.books.completed.length
  published : w.books.completed.length < maxFrameNo → ∃ p ∈ w.books.completed, p.info = info ∧ p.frame.bytes = bytes

/-- What a read gives. -/
def Gives (l : Layout) (c : Consumer) (again : Bool) (w : World) : Consumer × Option (FrameInfo × List Nat) → Prop
  | (c', none) => c'.layout = l ∧ c'.lastFrame = c.lastFrame
  | (c', some (info, bytes)) => c'.layout = l ∧ Handed c again w c' info bytes

variable {c c' : Consumer} {again : Bool} {info : FrameInfo} {bytes : List Nat}

theorem Kept.later (kept : Kept l w c) (later : Later w w') : Kept l w' c where
  layout := kept.layout
  last early := by
    have more := later.completed.length_le
    exact Nat.le_trans (kept.last (Nat.lt_of_le_of_lt more early)) more

theorem Handed.later (handed : Handed c again w c' info bytes) (later : Later w w') : Handed c again w' c' info bytes := by
  have more := later.completed.length_le
  have early (few : w'.books.completed.length < maxFrameNo) : w.books.completed.length < maxFrameNo :=
    Nat.lt_of_le_of_lt more few
  exact
    { last := handed.last
      fresh := handed.fresh
      whole := by
        obtain ⟨p, mem, same⟩ := handed.whole
        exact ⟨p, later.sealed p mem, same⟩
      order := fun few => handed.order (early few)
      low := fun few => Nat.le_trans (handed.low (early few)) more
      published := fun few => by
        obtain ⟨p, mem, same⟩ := handed.published (early few)
        exact ⟨p, later.completed.subset mem, same⟩ }

theorem Gives.later {out : Consumer × Option (FrameInfo × List Nat)} (gives : Gives l c again w out) (later : Later w w') :
    Gives l c again w' out := by
  obtain ⟨c', none | ⟨info, bytes⟩⟩ := out
  · exact gives
  · exact ⟨gives.1, gives.2.later later⟩

theorem Consumer.handedOut_last {frameNo : Nat} (given : c.handedOut frameNo = some c') :
    c'.layout = c.layout ∧ c'.lastFrame = frameNo := by
  unfold Consumer.handedOut at given
  split at given
  next same =>
    cases given
    exact ⟨rfl, same.symm⟩
  next =>
    split at given
    next =>
      obtain ⟨gap, -, given⟩ := Option.bind_eq_some_iff.mp given
      cases given
      exact ⟨rfl, rfl⟩
    next =>
      cases given
      exact ⟨rfl, rfl⟩

theorem Consumer.refuse_last (latest : Nat) :
    (c.refuse latest).layout = c.layout ∧ (c.refuse latest).lastFrame = c.lastFrame := by
  unfold Consumer.refuse
  split <;> exact ⟨rfl, rfl⟩

theorem Copy.handed (bounds : l.Bounds) (good : Good l w) (kept : Kept l w c)
    (copy : Copy w w' (latestWord w.books.completed) info bytes) (later : Later w w')
    (fresh : again = false → latestWord w.books.completed >>> 8 ≠ c.lastFrame)
    (last : c'.lastFrame = latestWord w.books.completed >>> 8) : Handed c again w' c' info bytes := by
  have number := copy.number
  have more := later.completed.length_le
  rw [latestWord_number good bounds] at number last
  rw [latestWord_number good bounds] at fresh
  have early (few : w'.books.completed.length < maxFrameNo) : info.frameNo = w.books.completed.length := by
    rw [number, shown_of_le (by omega)]
  obtain ⟨p, sealed, infoRead, bytesRead, origin⟩ := copy.whole
  exact
    { last := by rw [last, number]
      whole := ⟨p, sealed, infoRead, bytesRead⟩
      fresh := fun once => number ▸ fresh once
      order := fun few => early few ▸ kept.last (by omega)
      low := fun few => early few ▸ more
      published := fun few => by
        refine ⟨p, origin.resolve_right ?_, infoRead, bytesRead⟩
        rintro ⟨k, low, high, unpublished⟩
        have numbered : p.frameNo = info.frameNo := congrArg FrameInfo.frameNo infoRead
        rw [shown_of_le (by omega), numbered, early few] at unpublished
        omega }

theorem readLoop_under (bounds : l.Bounds) (tries : Nat) (calm : Calm l since w) (kept : Kept l w c) :
    Reads l since (Gives l c again) (c.readLoop again tries) w := by
  induction tries generalizing w with
  | zero => exact fun w' _ => ⟨kept.layout, rfl⟩
  | succ tries ih =>
      intro w₁ moves
      obtain ⟨later₁, calm₁⟩ := moves calm
      have kept₁ := kept.later later₁
      rw [calm₁.good.latest]
      dsimp only [Prog.bind]
      split
      next => exact fun w' _ => ⟨kept.layout, rfl⟩
      next new =>
        rw [not_or] at new
        rw [kept.layout]
        refine Under.bind Beside.refl ?_
        refine ((copySlot_under calm₁ new.1).keeps bounds calm₁).mono ?_
        rintro w₂ out ⟨⟨later₂, calm₂⟩, origin⟩
        cases out with
        | torn => exact ih calm₂ (kept₁.later later₂)
        | bad =>
            have same := Consumer.refuse_last (c := c) (latestWord w₁.books.completed)
            exact fun w' _ => ⟨same.1.trans kept.layout, same.2⟩
        | frame info bytes =>
            refine Under.lift_bind fun c' given w' moves => ?_
            have last := Consumer.handedOut_last given
            have handed : Handed c again w₂ c' info bytes :=
              origin.handed bounds calm₁.good kept₁ later₂ (fun once same => new.2 ⟨by simp [once], same⟩) last.2
            exact ⟨last.1.trans kept.layout, handed.later (moves calm₂).1⟩

theorem read_under (bounds : l.Bounds) (whole : Bool) (beat : Nat) (calm : Calm l since w) (kept : Kept l w c) :
    Reads l since (Gives l c again) (c.read whole beat again) w := by
  unfold Consumer.read
  split
  next =>
    intro w₁ moves
    obtain ⟨later₁, calm₁⟩ := moves calm
    obtain ⟨later₂, calm₂⟩ := calm₁.beats bounds ⟨rfl, rfl⟩
    exact ⟨_, ⟨rfl, rfl⟩, readLoop_under bounds readTries calm₂ (kept.later (later₁.trans later₂))⟩
  next => exact fun w' _ => ⟨kept.layout, rfl⟩

end K2.FrameRing
