import K2.FrameRing.World

/-! # A push beside the consumer

Three stores of a push stand for something: the odd sequence word opens the slot,
the even one closes it, and the latest word publishes it. -/

namespace K2.FrameRing

open SharedMemory Prog WrappedCount

variable {l : Layout} {w w' w'' : World} {slot : Nat} {p : Push}

namespace World

/-- The slot's word turns odd. -/
def opens (l : Layout) (w : World) (slot v : Nat) : World :=
  { w with
    mem := Function.update w.mem (l.slotBase slot + slSeq) v
    turn := Function.update w.turn slot (opened maxSeq (w.turn slot))
    books := { w.books with begun := Function.update w.books.begun slot (w.books.begun slot + 1) } }

/-- The slot's word turns even: it holds the push. -/
def seals (l : Layout) (w : World) (p : Push) (v : Nat) : World where
  mem := Function.update w.mem (l.slotBase p.slot + slSeq) v
  turn := Function.update w.turn p.slot (w.turn p.slot + 1)
  held := Function.update w.held p.slot (some p)
  books := { w.books with sealed := w.books.sealed ++ [p] }

/-- The latest word names the push. -/
def publishes (w : World) (p : Push) : World :=
  { w with
    mem := Function.update w.mem hLatest (p.frameNo <<< 8 ||| p.slot)
    books := { w.books with completed := w.books.completed ++ [p] } }

theorem later_opens (w : World) (slot v : Nat) : Later w (w.opens l slot v) where
  turn other := by
    by_cases same : other = slot
    · subst same
      simp only [opens, Function.update_self]
      exact le_opened
    · simp only [opens, Function.update_of_ne same, Nat.le_refl]
  held _ _ := rfl
  begun other := by
    by_cases same : other = slot
    · subst same
      have rise : closing (opened maxSeq (w.turn other)) ≤ closing (w.turn other) + 2 := closing_opened
      simp only [opens, Function.update_self]
      omega
    · simp only [opens, Function.update_of_ne same, Nat.le_refl]
  sealed _ mem := mem
  completed := List.prefix_rfl

theorem later_seals (w : World) (p : Push) (v : Nat) (writing : w.turn p.slot % 2 = 1) : Later w (w.seals l p v) where
  turn other := by
    by_cases same : other = p.slot
    · subst same
      simp only [seals, Function.update_self]
      omega
    · simp only [seals, Function.update_of_ne same, Nat.le_refl]
  held other unmoved := by
    by_cases same : other = p.slot
    · subst same
      simp only [seals, Function.update_self] at unmoved
      omega
    · simp only [seals, Function.update_of_ne same]
  begun other := by
    by_cases same : other = p.slot
    · subst same
      simp only [seals, Function.update_self, closing]
      omega
    · simp only [seals, Function.update_of_ne same, Nat.le_refl]
  sealed _ mem := List.mem_append_left _ mem
  completed := List.prefix_rfl

theorem later_publishes (w : World) (p : Push) : Later w (w.publishes p) :=
  { Later.refl w with completed := List.prefix_append .. }

end World

/-! ## Stores that stand for something -/

theorem seq_inside (bounds : l.Bounds) : slSeq < l.slotStride := by
  have stride := Layout.slotStride_ge bounds
  unfold slSeq slotHeader at *
  omega

/-- What lies in another slot than the one whose word is stored. -/
theorem store_seq_other (bounds : l.Bounds) (mem : Nat → Nat) {other off : Nat} (v : Nat) (apart : other ≠ slot)
    (inside : off < l.slotStride) :
    Function.update mem (l.slotBase slot + slSeq) v (l.slotBase other + off) = mem (l.slotBase other + off) :=
  Function.update_of_ne (slotBase_ne apart inside (seq_inside bounds)) ..

theorem Good.opens (bounds : l.Bounds) (good : Good l w) {v : Nat} (word : v = seqWord (opened maxSeq (w.turn slot))) :
    Good l (w.opens l slot v) where
  header c mem := (Function.update_of_ne (low_ne (headerCells_low mem)) ..).trans (good.header c mem)
  latest := (Function.update_of_ne (low_ne (by decide)) ..).trans good.latest
  numbered := good.numbered
  slots := good.slots
  seq other below := by
    by_cases same : other = slot
    · subst same
      simp only [World.opens, Function.update_self]
      exact word
    · simp only [World.opens, Function.update_of_ne same, store_seq_other bounds w.mem v same (seq_inside bounds)]
      exact good.seq other below
  whole other below whole := by
    by_cases same : other = slot
    · subst same
      simp only [World.opens, Function.update_self, opened_odd] at whole
      cases whole
    · simp only [World.opens, Function.update_of_ne same] at whole
      refine (good.whole other below whole).carry bounds rfl ?_ (fun p mem => mem) fun p _ holds => holds.recent
      exact fun off after inside => store_seq_other bounds w.mem v same inside

theorem Good.seals (bounds : l.Bounds) (good : Good l w) {v : Nat} (word : v = seqWord (w.turn p.slot + 1))
    (fits : p.frame.bytes.length ≤ l.slotBytes) (turn : p.slot = slotAfter l w.books.completed)
    (number : p.frameNo = shown maxFrameNo (w.books.completed.length + 1))
    (cells : ∀ c ∈ p.cells, w.mem (l.slotBase p.slot + c.2.1) = c.2.2) : Good l (w.seals l p v) where
  header c mem := (Function.update_of_ne (low_ne (headerCells_low mem)) ..).trans (good.header c mem)
  latest := (Function.update_of_ne (low_ne (by decide)) ..).trans good.latest
  numbered := good.numbered
  slots := good.slots
  seq other below := by
    by_cases same : other = p.slot
    · subst same
      simp only [World.seals, Function.update_self]
      exact word
    · simp only [World.seals, Function.update_of_ne same, store_seq_other bounds w.mem v same (seq_inside bounds)]
      exact good.seq other below
  whole other below whole := by
    by_cases same : other = p.slot
    · subst same
      simp only [Whole, World.seals, Function.update_self]
      refine { own := rfl, fits, sealed := List.mem_append_right _ List.mem_cons_self, recent := .inr ⟨turn, number⟩, cells := ?_ }
      intro c mem
      have after := (p.mem_cells mem).1
      refine (Function.update_of_ne ?_ ..).trans (cells c mem)
      unfold slFrameNo slSeq at *
      omega
    · simp only [World.seals, Function.update_of_ne same] at whole
      refine (good.whole other below whole).carry bounds (Function.update_of_ne same ..) ?_
        (fun p mem => List.mem_append_left _ mem) fun p _ holds => holds.recent
      exact fun off after inside => store_seq_other bounds w.mem v same inside

theorem Good.publishes (bounds : l.Bounds) (good : Good l w) (below : p.slot < l.slots)
    (turn : p.slot = slotAfter l w.books.completed)
    (number : p.frameNo = shown maxFrameNo (w.books.completed.length + 1)) (held : w.held p.slot = some p) :
    Good l (w.publishes p) where
  header c mem := by
    refine (Function.update_of_ne ?_ ..).trans (good.header c mem)
    simp only [headerCells, List.mem_cons, List.not_mem_nil, or_false] at mem
    rcases mem with rfl | rfl | rfl | rfl <;> dsimp only <;> decide
  latest := by
    simp only [World.publishes, Function.update_self, latestWord, List.getLast?_concat]
  numbered i inside := by
    simp only [World.publishes, List.length_append, List.length_singleton] at inside
    by_cases old : i < w.books.completed.length
    · simp only [World.publishes, List.getElem_append_left old]
      exact good.numbered i old
    · have last : i = w.books.completed.length := by omega
      subst last
      simp only [World.publishes, List.getElem_concat_length]
      exact number
  slots p' mem := by
    rcases List.mem_append.mp mem with mem | mem
    · exact good.slots p' mem
    · rw [List.mem_singleton.mp mem]
      exact below
  seq other below := (Function.update_of_ne (Ne.symm (low_ne (by decide))) ..).trans (good.seq other below)
  whole other below whole := by
    refine (good.whole other below whole).carry bounds rfl ?_ (fun p mem => mem) fun p' held' holds => .inl ?_
    · exact fun off after inside => Function.update_of_ne (Ne.symm (low_ne (by decide))) ..
    · rcases holds.recent with published | ⟨same, -⟩
      · exact List.mem_append_left _ published
      · -- only the slot just closed may hold what wasn't published
        rw [same, ← turn, held] at held'
        exact List.mem_append_right _ (List.mem_singleton.mpr (Option.some.inj held').symm)

end K2.FrameRing
