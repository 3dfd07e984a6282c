import K2.KesselAudio.Accounts

/-! # The order packets play in

A tick plays the next number or passes it, and a packet that ends a starvation may pass
the numbers before it. Only a packet that lowers the next number can bring the buffer
back, and it does so where it waits before it plays.
-/

namespace K2.KesselAudio

open SeqRing (entry)

/-! ## A tick moves forward -/

namespace Book

variable {cap : Nat} [NeZero cap] {α : Type} {b b' : Book cap α} {out : Option (Slot α)}

/-- A tick does not move back, and what it decodes was held and is the last number it
    moves past. -/
theorem Ticks.forward (ticks : b.Ticks out b') : b.nextSeq ≤ b'.nextSeq ∧ ∀ slot ∈ out,
    (∃ i, b.slots i = some slot) ∧ b.nextSeq ≤ slot.seq ∧ slot.seq + 1 = b'.nextSeq := by
  induction ticks with
  | rest b => exact ⟨le_rfl, nofun⟩
  | pass missing => exact ⟨Int.le_add_one le_rfl, nofun⟩
  | @decode b slot here =>
      obtain ⟨held, own⟩ := SeqRing.entry_eq_some.mp here
      refine ⟨Int.le_add_one le_rfl, ?_⟩
      rintro _ ⟨⟩
      exact ⟨⟨_, held⟩, own.ge, congrArg (· + 1) own⟩
  | @skip b b' slot out here later ih =>
      obtain ⟨forward, decodes⟩ := ih
      have moved : b.taken.nextSeq = b.nextSeq + 1 := rfl
      simp only [moved] at forward decodes
      refine ⟨by omega, fun other handed => ?_⟩
      obtain ⟨⟨i, held⟩, low, last⟩ := decodes other handed
      refine ⟨⟨i, ?_⟩, by omega, last⟩
      by_cases own : i = idx cap b.nextSeq
      · subst own
        simp only [taken, Function.update_self] at held
        cases held
      · simpa only [taken, Function.update_of_ne own] using held

/-- A packet brings the next number back only by lowering it to its own. -/
theorem Takes.forward {slot : Slot α} {how : Arrival} (takes : b.Takes slot how b') :
    b.nextSeq ≤ b'.nextSeq ∨ how = .lowers ∧ slot.seq < b.nextSeq ∧ b'.nextSeq = slot.seq := by
  cases takes with
  | repeated => exact .inl le_rfl
  | late behind => exact .inl le_rfl
  | stays low high => exact .inl le_rfl
  | jumps empty low => exact .inl low
  | lowers behind => exact .inr ⟨rfl, behind, rfl⟩
  | restarts far =>
      have next : b.nextSeq ≤ slot.seq := by omega
      exact .inl next

end Book

namespace JitterBuffer

variable {cap : Nat} [NeZero cap] {α : Type} {s : JitterBuffer cap α}

/-- A tick decodes the packet of a slot. -/
def Decodes (s : JitterBuffer cap α) (t : Target) (now : Nat) (slot : Slot α) : Prop :=
  (s.next t now).2 = .decode slot.payload ∧ (∃ i, s.slots i = some slot) ∧ slot.seq + 1 = (s.next t now).1.nextSeq

theorem next_forward (sound : s.Sound) (t : Target) (now : Nat) : s.nextSeq ≤ (s.next t now).1.nextSeq ∧
    ∀ p, (s.next t now).2 = .decode p → ∃ slot, slot.payload = p ∧ s.Decodes t now slot ∧ s.nextSeq ≤ slot.seq := by
  obtain ⟨-, -, out, ticks, handed⟩ := next_book sound t now
  obtain ⟨forward, decodes⟩ := ticks.forward
  refine ⟨forward, fun p decode => ?_⟩
  obtain ⟨slot, rfl, rfl⟩ := (handed p).mp decode
  obtain ⟨held, low, last⟩ := decodes slot rfl
  exact ⟨slot, rfl, ⟨decode, held, last⟩, low⟩

/-! ## What would play backwards -/

/-- The least number that does not play backwards, from one call to the next: since
    the ring last started over, no packet from it on was decoded and none above it
    was passed, be it by a tick or by a packet that resumes after it. -/
def floorAfter (s : JitterBuffer cap α) (floor : Option Int) : Call α → Option Int
  | .next t now => match (s.next t now).2 with
      | .decode _ => some (s.next t now).1.nextSeq
      | _ => if (s.next t now).1.nextSeq = s.nextSeq then floor else some ((s.next t now).1.nextSeq - 1)
  | c =>
      if s.restarts c then none
      else if s.state ≠ .idle ∧ s.nextSeq < (s.call c).nextSeq then some ((s.call c).nextSeq - 1)
      else floor

/-- A packet that lowers the next number does not play backwards. -/
def Keeps (s : JitterBuffer cap α) (floor : Option Int) : Call α → Prop
  | .insert _ seq ts _ _ =>
      s.duplicate (s.extended seq ts).1 = false → s.Prebuffers → (s.extended seq ts).1 < s.nextSeq →
        ∀ f ∈ floor, f ≤ (s.extended seq ts).1
  | _ => True

instance (s : JitterBuffer cap α) (floor : Option Int) (c : Call α) : Decidable (s.Keeps floor c) :=
  match c with
  | .insert .. => inferInstanceAs (Decidable (_ → _ → _ → ∀ f ∈ floor, _ ≤ _))
  | .hintLost _ | .next .. | .fecUnavailable => .isTrue trivial

/-- Every packet of a run does so. -/
def InOrder : JitterBuffer cap α → Option Int → List (Call α) → Prop
  | _, _, [] => True
  | s, floor, c :: rest => s.Keeps floor c ∧ InOrder (s.call c) (s.floorAfter floor c) rest

instance decidableInOrder : (s : JitterBuffer cap α) → (floor : Option Int) → (calls : List (Call α)) →
    Decidable (InOrder s floor calls)
  | _, _, [] => .isTrue trivial
  | s, floor, c :: rest =>
      have := decidableInOrder (s.call c) (s.floorAfter floor c) rest
      inferInstanceAs (Decidable (_ ∧ _))

/-- The next number is not below the floor. -/
def Above (s : JitterBuffer cap α) (floor : Option Int) : Prop := ∀ f ∈ floor, f ≤ s.nextSeq

omit [NeZero cap] in
theorem above_none (s : JitterBuffer cap α) : s.Above none := by
  rintro _ ⟨⟩

/-- A call other than a tick that moves the next number on raises the floor below it. -/
theorem floorAfter_eq (floor : Option Int) {c : Call α} (other : ∀ t now, c ≠ .next t now) (steady : s.restarts c = false) :
    s.floorAfter floor c =
      if s.state ≠ .idle ∧ s.nextSeq < (s.call c).nextSeq then some ((s.call c).nextSeq - 1) else floor := by
  rw [floorAfter, steady, if_neg (by decide)]
  exact other

/-- A call that is no tick stays above the floor it finds, or raises it under what
    it moves to. -/
theorem above_still {floor : Option Int} (above : s.Above floor) {c : Call α} (other : ∀ t now, c ≠ .next t now)
    (steady : s.restarts c = false) (low : ∀ f ∈ floor, f ≤ (s.call c).nextSeq) :
    (s.call c).Above (s.floorAfter floor c) ∧
      (s.restarts c = false → ∀ f ∈ floor, ∃ f' ∈ s.floorAfter floor c, f ≤ f') := by
  rw [floorAfter_eq floor other steady]
  split
  next moved =>
    refine ⟨?_, fun _ f there => ⟨_, rfl, ?_⟩⟩
    · rintro _ ⟨⟩
      omega
    · have := above f there
      omega
  next => exact ⟨low, fun _ f there => ⟨f, there, le_rfl⟩⟩

/-- A tick raises the floor over the packet it decodes, or under what it moves to. -/
theorem above_tick (sound : s.Sound) {floor : Option Int} (above : s.Above floor) (t : Target) (now : Nat) :
    (s.call (.next t now)).Above (s.floorAfter floor (.next t now)) ∧
      (s.restarts (.next t now) = false → ∀ f ∈ floor, ∃ f' ∈ s.floorAfter floor (.next t now), f ≤ f') := by
  obtain ⟨forward, decodes⟩ := next_forward sound t now
  simp only [floorAfter, call]
  split
  next p decode =>
    obtain ⟨slot, -, ⟨-, -, last⟩, low⟩ := decodes p decode
    refine ⟨?_, fun _ f there => ⟨_, rfl, ?_⟩⟩
    · rintro _ ⟨⟩
      exact le_rfl
    · have := above f there
      omega
  next =>
    split
    next still =>
      refine ⟨fun f there => ?_, fun _ f there => ⟨f, there, le_rfl⟩⟩
      rw [still]
      exact above f there
    next moved =>
      refine ⟨?_, fun _ f there => ⟨_, rfl, ?_⟩⟩
      · rintro _ ⟨⟩
        omega
      · have := above f there
        omega

/-- A call that keeps the order keeps above the floor, and raises it unless the ring
    starts over. -/
theorem above_call (sound : s.Sound) {floor : Option Int} (above : s.Above floor) (c : Call α)
    (keeps : s.Keeps floor c) : (s.call c).Above (s.floorAfter floor c) ∧
      (s.restarts c = false → ∀ f ∈ floor, ∃ f' ∈ s.floorAfter floor c, f ≤ f') := by
  cases c with
  | insert t seq ts payload arrival =>
      obtain ⟨how, takes, repeated, lowers, restarts, -⟩ := insert_book sound t seq ts payload arrival
      by_cases anew : s.restarts (.insert t seq ts payload arrival) = true
      · refine ⟨fun f there => ?_, fun steady => absurd (anew.symm.trans steady) nofun⟩
        rw [floorAfter, anew, if_pos rfl] at there
        · exact absurd there (Option.not_mem_none f)
        · simp
      · have steady := Bool.eq_false_iff.mpr anew
        refine above_still above (by simp) steady fun f there => ?_
        have low := above f there
        have next : f ≤ (s.insert t seq ts payload arrival).book.nextSeq := by
          rcases takes.forward with forward | ⟨rfl, behind, own⟩
          · exact low.trans forward
          · have new : s.duplicate (s.extended seq ts).1 = false := Bool.eq_false_iff.mpr fun known =>
              Arrival.noConfusion (repeated.mpr known)
            rw [own]
            exact keeps new (lowers rfl) behind f there
        exact next
  | hintLost seq =>
      have next : (s.hintLost seq).nextSeq = s.nextSeq := congrArg Book.nextSeq (hintLost_still s seq).1
      exact above_still above (by simp) rfl fun f there => (above f there).trans_eq next.symm
  | next t now => exact above_tick sound above t now
  | fecUnavailable => exact above_still above (by simp) rfl above

theorem floor_of_decode (floor : Option Int) {t : Target} {now : Nat} {slot : Slot α} (decodes : s.Decodes t now slot) :
    ∃ f ∈ s.floorAfter floor (.next t now), slot.seq < f := by
  obtain ⟨decode, -, last⟩ := decodes
  simp only [floorAfter, decode]
  exact ⟨_, rfl, by omega⟩

/-- And so is what a call passes, when it does not start the ring. -/
theorem floor_of_passed (floor : Option Int) {c : Call α} (steady : s.restarts c = false) (began : s.state ≠ .idle)
    {seq : Int} (low : s.nextSeq ≤ seq) (passed : seq < (s.call c).nextSeq) : ∃ f ∈ s.floorAfter floor c, seq ≤ f := by
  have moved : s.nextSeq < (s.call c).nextSeq := by omega
  cases c with
  | next t now =>
      simp only [floorAfter]
      have passed : seq < (s.next t now).1.nextSeq := passed
      split
      · exact ⟨_, rfl, passed.le⟩
      · rw [if_neg (by omega)]
        exact ⟨_, rfl, by omega⟩
  | insert | hintLost | fecUnavailable =>
      rw [floorAfter_eq floor (by simp) steady, if_pos ⟨began, moved⟩]
      exact ⟨_, rfl, by omega⟩

/-! ## Whole runs -/

/-- The floor after a run. -/
def floorOf : JitterBuffer cap α → Option Int → List (Call α) → Option Int
  | _, floor, [] => floor
  | s, floor, c :: rest => floorOf (s.call c) (s.floorAfter floor c) rest

theorem inOrder_append {floor : Option Int} {early late : List (Call α)} (inOrder : InOrder s floor (early ++ late)) :
    InOrder s floor early ∧ InOrder (early.foldl call s) (floorOf s floor early) late := by
  induction early generalizing s floor with
  | nil => exact ⟨trivial, inOrder⟩
  | cons c rest ih =>
      obtain ⟨first, later⟩ := ih inOrder.2
      exact ⟨⟨inOrder.1, first⟩, later⟩

theorem above_run (sound : s.Sound) {floor : Option Int} (above : s.Above floor) {calls : List (Call α)}
    (inOrder : InOrder s floor calls) : (calls.foldl call s).Above (floorOf s floor calls) := by
  induction calls generalizing s floor with
  | nil => exact above
  | cons c rest ih => exact ih (sound.call c) (above_call sound above c inOrder.1).1 inOrder.2

theorem floor_rises (sound : s.Sound) {floor : Option Int} (above : s.Above floor) {calls : List (Call α)}
    (inOrder : InOrder s floor calls)
    (goes_on : ∀ pre c post, calls = pre ++ c :: post → (pre.foldl call s).restarts c = false) :
    ∀ f ∈ floor, ∃ f' ∈ floorOf s floor calls, f ≤ f' := by
  induction calls generalizing s floor with
  | nil => exact fun f there => ⟨f, there, le_rfl⟩
  | cons c rest ih =>
      intro f there
      obtain ⟨above', raised⟩ := above_call sound above c inOrder.1
      obtain ⟨f', there', le⟩ := raised (goes_on [] c rest rfl) f there
      obtain ⟨f'', there'', le'⟩ := ih (sound.call c) above' inOrder.2
        (fun pre c' post split => goes_on (c :: pre) c' post (by rw [split]; rfl)) f' there'
      exact ⟨f'', there'', le.trans le'⟩

/-- Does the ring start over in a run? -/
def startsOver : JitterBuffer cap α → List (Call α) → Bool
  | _, [] => false
  | s, c :: rest => s.restarts c || startsOver (s.call c) rest

end JitterBuffer

/-- In every run of packets, loss hints and ticks, whatever the target delay is at
    each, a tick decodes the packet of the slot it takes. When no packet that comes
    while the buffer waits lowers the next number below one that was decoded or
    under one that was passed, each packet decoded is numbered above every one
    decoded before and no lower than any that a tick or a resuming packet skipped or
    concealed past, as long as the ring did not start over in between. -/
theorem plays_forward (capacityFrames : Nat) {α : Type} (calls : List (Call α)) :
    let run : List (Call α) → JitterBuffer (capacity capacityFrames) α := JitterBuffer.run
    (∀ t now p, ((run calls).next t now).2 = .decode p → ∃ slot, slot.payload = p ∧ (run calls).Decodes t now slot) ∧
    (JitterBuffer.InOrder (.new : JitterBuffer (capacity capacityFrames) α) none calls →
      ∀ early c mid t' now' late, calls = early ++ c :: (mid ++ .next t' now' :: late) →
        (∀ pre c' post, c :: mid = pre ++ c' :: post → (run (early ++ pre)).restarts c' = false) →
        ∀ slot, (run (early ++ c :: mid)).Decodes t' now' slot →
          (∀ t now earlier, c = .next t now → (run early).Decodes t now earlier → earlier.seq < slot.seq) ∧
          ((run early).state ≠ .idle →
            ∀ seq, (run early).nextSeq ≤ seq → seq < ((run early).call c).nextSeq → seq ≤ slot.seq)) := by
  intro run
  have start : (.new : JitterBuffer (capacity capacityFrames) α).Sound := JitterBuffer.new_sound
  constructor
  · intro t now p decode
    obtain ⟨slot, own, decodes, -⟩ :=
      (JitterBuffer.next_forward (JitterBuffer.sound_run start calls) t now).2 p decode
    exact ⟨slot, own, decodes⟩
  · rintro inOrder early c mid t' now' late rfl goes_on slot decodes
    obtain ⟨first, second⟩ := JitterBuffer.inOrder_append inOrder
    obtain ⟨between, -⟩ := JitterBuffer.inOrder_append second.2
    have sound : (run early).Sound := JitterBuffer.sound_run start early
    have sound' : (run (early ++ c :: mid)).Sound := JitterBuffer.sound_run start _
    have above := JitterBuffer.above_run start (JitterBuffer.above_none _) first
    have above' := (JitterBuffer.above_call sound above c second.1).1
    have mid_state : run (early ++ c :: mid) = mid.foldl JitterBuffer.call ((run early).call c) := by
      simp only [run, JitterBuffer.run, List.foldl_append, List.foldl_cons]
    have low : (run (early ++ c :: mid)).nextSeq ≤ slot.seq := by
      obtain ⟨slot', own, ⟨-, -, last⟩, low⟩ := (JitterBuffer.next_forward sound' t' now').2 _ decodes.1
      have last' := decodes.2.2
      omega
    have beyond : (mid.foldl JitterBuffer.call ((run early).call c)).Above _ :=
      JitterBuffer.above_run (sound.call c) above' between
    have rises := JitterBuffer.floor_rises (sound.call c) above' between fun pre c' post split => by
      have steady := goes_on (c :: pre) c' post (by rw [split]; rfl)
      simp only [run, JitterBuffer.run, List.foldl_append, List.foldl_cons] at steady
      exact steady
    have steady : (run early).restarts c = false := by
      have := goes_on [] c mid rfl
      rwa [List.append_nil] at this
    rw [mid_state] at low
    constructor
    · rintro t now earlier rfl decodes'
      obtain ⟨f, there, less⟩ := JitterBuffer.floor_of_decode _ decodes'
      obtain ⟨f', there', le⟩ := rises f there
      have := beyond f' there'
      omega
    · intro began seq from_next to_next
      obtain ⟨f, there, less⟩ := JitterBuffer.floor_of_passed _ steady began from_next to_next
      obtain ⟨f', there', le⟩ := rises f there
      have := beyond f' there'
      omega

/-! ### A packet that comes after a pause -/

namespace Pause

/-- A packet after a pause of a second. -/
def resumes (seq : Nat) (now : Nat) : Call Nat :=
  .insert Behind.steady (BitVec.ofNat 16 seq) (BitVec.ofNat 32 (960 * (seq + 50))) seq now

/-- The second packet is lost, the third decoded, and the sender pauses. -/
def talk : List (Call Nat) :=
  [Behind.packet 0, .next Behind.steady 1, Behind.packet 2, .next Behind.steady 2, .next Behind.steady 3,
    .next Behind.steady 4]

/-- It resumes with a packet that overtook the one before. -/
def swapped : List (Call Nat) := talk ++ [resumes 4 5, resumes 3 5]

/-- It resumes, and the packet that was lost comes late. -/
def lostComes : List (Call Nat) := talk ++ [resumes 3 5, Behind.packet 1]

end Pause

theorem plays_forward_swapped :
    let run : List (Call Nat) → JitterBuffer (capacity 64) Nat := JitterBuffer.run
    ∀ slot, (run (Pause.swapped ++ [.next Behind.steady 5])).Decodes Behind.steady 6 slot → 3 < slot.seq := by
  intro run slot decodes
  have first : (run Pause.swapped).Decodes Behind.steady 5 ⟨3, 50880, 3⟩ := by
    refine ⟨?_, ⟨idx (capacity 64) 3, ?_⟩, ?_⟩ <;> decide +kernel
  refine ((plays_forward 64 (Pause.swapped ++ [.next Behind.steady 5, .next Behind.steady 6])).2 (by decide +kernel)
    Pause.swapped (.next Behind.steady 5) [] Behind.steady 6 [] rfl (fun pre c post split => ?_)
    slot decodes).1 _ _ _ rfl first
  obtain ⟨rfl, rfl, rfl⟩ : pre = [] ∧ c = .next Behind.steady 5 ∧ post = [] := by
    cases pre with
    | nil => exact ⟨rfl, (List.cons.inj split).1.symm, (List.cons.inj split).2.symm⟩
    | cons d pre => exact absurd (List.cons.inj split).2 (by simp)
  rfl

theorem lost_packet_plays_backwards :
    let run : List (Call Nat) → JitterBuffer (capacity 64) Nat := JitterBuffer.run
    ((run (Pause.talk.take 4)).next Behind.steady 3).2 = .decode 2 ∧
    ((run Pause.lostComes).next Behind.steady 5).2 = .decode 1 ∧
    JitterBuffer.startsOver (.new : JitterBuffer (capacity 64) Nat) Pause.lostComes = false := by
  decide +kernel

end K2.KesselAudio
