import K2.FrameRing.Interleaving
import K2.Lib.SharedMemory
import K2.Lib.WrappedCount

/-! # What the ring's memory stands for

Each slot's sequence word shows its turn: how often it was opened or closed. A
slot that is whole holds the push that last closed it, and the latest word names
the push last published. -/

namespace K2.FrameRing

open SharedMemory WrappedCount

/-- A store of a push: how wide, where in the slot, and what. -/
abbrev Cell := Width × Nat × Nat

/-- Bytes from an offset on. -/
def byteCells (off : Nat) : List Nat → List Cell
  | [] => []
  | b :: rest => (.u8, off, b) :: byteCells (off + 1) rest

/-- What a push leaves in its slot. -/
def Push.cells (p : Push) : List Cell :=
  [(.u64, slFrameNo, p.frameNo), (.u32, slWidth, p.frame.width), (.u32, slHeight, p.frame.height),
    (.u32, slRotation, p.frame.rotation), (.u32, slColor, p.frame.color.toU32), (.u64, slTimestamp, p.timestampNs),
    (.u64, slLen, nv12Len p.frame.width p.frame.height)] ++ byteCells slotHeader p.frame.bytes

/-- The latest word. -/
def latestWord (completed : List Push) : Nat :=
  match completed.getLast? with
  | none => 0
  | some p => p.frameNo <<< 8 ||| p.slot

/-- The slot the next push goes into. -/
def slotAfter (l : Layout) (completed : List Push) : Nat :=
  match completed.getLast? with
  | none => 0
  | some p => (p.slot + 1) % l.slots

/-- The memory, what the pushes have come to, each slot's turn and what it last held. -/
structure World where
  mem : Nat → Nat
  books : Books
  turn : Nat → Nat
  held : Nat → Option Push

/-- A slot's sequence word at a turn. -/
def seqWord (turn : Nat) : Nat := shown (maxSeq + 2) turn

/-- A slot that holds a push. -/
structure Holds (l : Layout) (w : World) (slot : Nat) (p : Push) : Prop where
  own : p.slot = slot
  fits : p.frame.bytes.length ≤ l.slotBytes
  sealed : p ∈ w.books.sealed
  recent : p ∈ w.books.completed ∨
    slot = slotAfter l w.books.completed ∧ p.frameNo = shown maxFrameNo (w.books.completed.length + 1)
  cells : ∀ c ∈ p.cells, w.mem (l.slotBase slot + c.2.1) = c.2.2

/-- What a whole slot holds; one never written has no frame number. -/
def Whole (l : Layout) (w : World) (slot : Nat) : Prop :=
  match w.held slot with
  | none => w.mem (l.slotBase slot + slFrameNo) = 0
  | some p => Holds l w slot p

/-- The header's words that stay. -/
def headerCells (l : Layout) : List (Nat × Nat) :=
  [(hSlots, l.slots), (hMaxWidth, l.maxWidth), (hMaxHeight, l.maxHeight), (hMaxFps, l.maxFps)]

structure Good (l : Layout) (w : World) : Prop where
  header : ∀ c ∈ headerCells l, w.mem c.1 = c.2
  latest : w.mem hLatest = latestWord w.books.completed
  numbered : ∀ i (below : i < w.books.completed.length), w.books.completed[i].frameNo = shown maxFrameNo (i + 1)
  slots : ∀ p ∈ w.books.completed, p.slot < l.slots
  seq : ∀ slot < l.slots, w.mem (l.slotBase slot + slSeq) = seqWord (w.turn slot)
  whole : ∀ slot < l.slots, w.turn slot % 2 = 0 → Whole l w slot

/-- What may come later. -/
structure Later (w w' : World) : Prop where
  turn : ∀ slot, w.turn slot ≤ w'.turn slot
  held : ∀ slot, w'.turn slot = w.turn slot → w'.held slot = w.held slot
  begun : ∀ slot, closing (w'.turn slot) + 2 * w.books.begun slot ≤ closing (w.turn slot) + 2 * w'.books.begun slot
  sealed : ∀ p ∈ w.books.sealed, p ∈ w'.books.sealed
  completed : w.books.completed <+: w'.books.completed

variable {l : Layout} {w w' w'' : World} {slot : Nat} {p : Push}

theorem Later.refl (w : World) : Later w w where
  turn _ := Nat.le_refl _
  held _ _ := rfl
  begun _ := Nat.le_refl _
  sealed _ mem := mem
  completed := List.prefix_rfl

theorem Later.trans (first : Later w w') (second : Later w' w'') : Later w w'' where
  turn slot := Nat.le_trans (first.turn slot) (second.turn slot)
  held slot same := by
    have early := first.turn slot
    have late := second.turn slot
    rw [second.held slot (by omega), first.held slot (by omega)]
  begun slot := by
    have early := first.begun slot
    have late := second.begun slot
    omega
  sealed p mem := second.sealed p (first.sealed p mem)
  completed := first.completed.trans second.completed

theorem Later.begun_le (later : Later w w') (slot : Nat) : w.books.begun slot ≤ w'.books.begun slot := by
  have rise := later.begun slot
  have order := closing_mono (later.turn slot)
  omega

theorem seqWord_mod_two (turn : Nat) : seqWord turn % 2 = turn % 2 := shown_mod_two (by decide)

/-! ## The latest word -/

theorem shifted_or {n s : Nat} (small : s < 2 ^ 8) : n <<< 8 ||| s = n * 2 ^ 8 + s := by
  rw [← Nat.shiftLeft_add_eq_or_of_lt small, Nat.shiftLeft_eq]

theorem latestWord_number (good : Good l w) (bounds : l.Bounds) :
    latestWord w.books.completed >>> 8 = shown maxFrameNo w.books.completed.length := by
  unfold latestWord
  cases last : w.books.completed.getLast? with
  | none =>
      rw [List.getLast?_eq_none_iff] at last
      rw [last]
      rfl
  | some p =>
      have mem := List.mem_of_getLast? last
      have below := good.slots p mem
      have few := bounds.slots
      have positive := List.length_pos_of_mem mem
      have number := good.numbered (w.books.completed.length - 1) (by omega)
      rw [List.getLast?_eq_getElem?, List.getElem?_eq_getElem (by omega), Option.some.injEq] at last
      rw [last, Nat.sub_add_cancel positive] at number
      unfold maxSlots at few
      simp only
      rw [shifted_or (by omega), Nat.shiftRight_eq_div_pow, number]
      omega

theorem latestWord_slot (bounds : l.Bounds) (below : p.slot < l.slots) : (p.frameNo <<< 8 ||| p.slot) &&& 0xff = p.slot := by
  have few := bounds.slots
  unfold maxSlots at few
  rw [shifted_or (by omega), show 0xff = 2 ^ 8 - 1 from rfl, Nat.and_two_pow_sub_one_eq_mod]
  omega

/-! ## Places -/

theorem slotBase_ne {slot other off off' : Nat} (apart : slot ≠ other) (inside : off < l.slotStride)
    (inside' : off' < l.slotStride) : l.slotBase slot + off ≠ l.slotBase other + off' := by
  unfold Layout.slotBase
  rcases Nat.lt_or_gt_of_ne apart with order | order
  · have rows := Nat.mul_le_mul_right l.slotStride (Nat.succ_le_of_lt order)
    rw [Nat.succ_mul] at rows
    omega
  · have rows := Nat.mul_le_mul_right l.slotStride (Nat.succ_le_of_lt order)
    rw [Nat.succ_mul] at rows
    omega

theorem mem_byteCells {c : Cell} {off : Nat} {bytes : List Nat} (mem : c ∈ byteCells off bytes) :
    off ≤ c.2.1 ∧ c.2.1 < off + bytes.length := by
  induction bytes generalizing off with
  | nil => cases mem
  | cons b rest ih =>
      rw [List.length_cons]
      rcases List.mem_cons.mp mem with rfl | mem
      · exact ⟨Nat.le_refl _, by simp only; omega⟩
      · have inside := ih mem
        omega

/-- A push's stores lie after its slot's sequence word, inside the slot. -/
theorem Push.mem_cells {c : Cell} (mem : c ∈ p.cells) :
    slFrameNo ≤ c.2.1 ∧ c.2.1 < slotHeader + p.frame.bytes.length := by
  rcases List.mem_append.mp mem with mem | mem
  · simp only [List.mem_cons, List.not_mem_nil, or_false] at mem
    unfold slotHeader
    rcases mem with rfl | rfl | rfl | rfl | rfl | rfl | rfl <;>
      simp only [slFrameNo, slWidth, slHeight, slRotation, slColor, slTimestamp, slLen] <;> omega
  · have inside := mem_byteCells mem
    unfold slFrameNo slotHeader at *
    omega

theorem byteCells_getElem (off : Nat) {bytes : List Nat} {i : Nat} (inside : i < bytes.length) :
    (.u8, off + i, bytes[i]) ∈ byteCells off bytes := by
  induction bytes generalizing off i with
  | nil => cases inside
  | cons b rest ih =>
      cases i with
      | zero => exact List.mem_cons_self
      | succ i =>
          have remaining := ih (off + 1) (Nat.lt_of_succ_lt_succ inside)
          rw [Nat.add_right_comm] at remaining
          exact List.mem_cons_of_mem _ remaining

theorem byteCells_ascending (off : Nat) (bytes : List Nat) :
    (byteCells off bytes).Pairwise fun c d => c.2.1 < d.2.1 := by
  induction bytes generalizing off with
  | nil => exact .nil
  | cons b rest ih => exact List.pairwise_cons.mpr ⟨fun d mem => (mem_byteCells mem).1, ih (off + 1)⟩

theorem Push.cells_ascending (p : Push) : p.cells.Pairwise fun c d => c.2.1 < d.2.1 := by
  refine List.pairwise_append.mpr ⟨?_, byteCells_ascending _ _, fun c word d byte => ?_⟩
  · simp only [List.pairwise_cons, List.mem_cons, List.not_mem_nil, or_false, forall_eq_or_imp, forall_eq, slFrameNo,
      slWidth, slHeight, slRotation, slColor, slTimestamp, slLen]
    simp
  · have above := (mem_byteCells byte).1
    simp only [List.mem_cons, List.not_mem_nil, or_false] at word
    unfold slotHeader at above
    rcases word with rfl | rfl | rfl | rfl | rfl | rfl | rfl <;>
      simp only [slFrameNo, slWidth, slHeight, slRotation, slColor, slTimestamp, slLen] <;> omega

/-! ## What a store leaves alone -/

/-- The places that stand for something. -/
inductive Tracked (l : Layout) (w : World) : Nat → Prop where
  | word {c : Nat × Nat} (mem : c ∈ headerCells l) : Tracked l w c.1
  | latest : Tracked l w hLatest
  | seq {slot : Nat} (below : slot < l.slots) : Tracked l w (l.slotBase slot + slSeq)
  | cell {slot off : Nat} (below : slot < l.slots) (whole : w.turn slot % 2 = 0) (after : slFrameNo ≤ off)
      (inside : off < l.slotStride) : Tracked l w (l.slotBase slot + off)

theorem low_ne {place off : Nat} (low : place < header) : place ≠ l.slotBase slot + off := by
  unfold Layout.slotBase
  omega

theorem headerCells_low {c : Nat × Nat} (mem : c ∈ headerCells l) : c.1 < header := by
  simp only [headerCells, List.mem_cons, List.not_mem_nil, or_false] at mem
  rcases mem with rfl | rfl | rfl | rfl <;> dsimp only <;> decide

/-- The header's words that stand for nothing here. -/
def spare : List Nat := [hFlags, hBeat, hWritten, hDropped, hAttaches]

theorem spare_low {place : Nat} (mem : place ∈ spare) : place < header := by
  revert place
  decide

theorem Tracked.not_spare {place : Nat} (tracked : Tracked l w place) : place ∉ spare := by
  cases tracked with
  | word mem =>
      simp only [headerCells, List.mem_cons, List.not_mem_nil, or_false] at mem
      rcases mem with rfl | rfl | rfl | rfl <;> dsimp only <;> decide
  | latest => decide
  | seq below => exact fun mem => low_ne (spare_low mem) rfl
  | cell below whole after inside => exact fun mem => low_ne (spare_low mem) rfl

theorem Tracked.ne_cell {place off : Nat} (tracked : Tracked l w place) (writing : w.turn slot % 2 = 1)
    (after : slFrameNo ≤ off) (inside : off < l.slotStride) : place ≠ l.slotBase slot + off := by
  unfold slFrameNo at after
  cases tracked with
  | word mem => exact low_ne (headerCells_low mem)
  | latest => exact low_ne (by decide)
  | @seq other below =>
      by_cases same : other = slot
      · subst same
        unfold slSeq
        omega
      · exact slotBase_ne same (by unfold slSeq; omega) inside
  | @cell other off' below whole after' inside' =>
      refine slotBase_ne (fun same => ?_) inside' inside
      subst same
      omega

theorem Whole.carry (bounds : l.Bounds) (whole : Whole l w slot) (held : w'.held slot = w.held slot)
    (cells : ∀ off, slFrameNo ≤ off → off < l.slotStride → w'.mem (l.slotBase slot + off) = w.mem (l.slotBase slot + off))
    (sealed : ∀ p ∈ w.books.sealed, p ∈ w'.books.sealed)
    (recent : ∀ p, w.held slot = some p → Holds l w slot p → p ∈ w'.books.completed ∨
      slot = slotAfter l w'.books.completed ∧ p.frameNo = shown maxFrameNo (w'.books.completed.length + 1)) :
    Whole l w' slot := by
  have stride := Layout.slotStride_ge bounds
  unfold Whole at *
  rw [held]
  split at whole
  next =>
    rw [cells _ (Nat.le_refl _) (by unfold slFrameNo slotHeader at *; omega)]
    exact whole
  next p held =>
    refine
      { own := whole.own, fits := whole.fits, sealed := sealed p whole.sealed, recent := recent p held whole, cells := ?_ }
    intro c mem
    have inside := p.mem_cells mem
    have fits := whole.fits
    rw [cells _ inside.1 (by omega)]
    exact whole.cells c mem

theorem Good.frame (bounds : l.Bounds) (good : Good l w) {mem : Nat → Nat}
    (same : ∀ place, Tracked l w place → mem place = w.mem place) : Good l { w with mem } where
  header c mem := (same _ (.word mem)).trans (good.header c mem)
  latest := (same _ .latest).trans good.latest
  numbered := good.numbered
  slots := good.slots
  seq slot below := (same _ (.seq below)).trans (good.seq slot below)
  whole slot below whole := by
    refine (good.whole slot below whole).carry bounds rfl ?_ (fun p mem => mem) fun p _ holds => holds.recent
    exact fun off after inside => same _ (.cell below whole after inside)

theorem Good.store_spare (bounds : l.Bounds) (good : Good l w) {place : Nat} (v : Nat) (mem : place ∈ spare) :
    Good l { w with mem := Function.update w.mem place v } := by
  refine good.frame bounds fun other tracked => Function.update_of_ne ?_ ..
  rintro rfl
  exact tracked.not_spare mem

end K2.FrameRing
