import K2.Compute.Decision
import K2.Lib.Sharing
import K2.Lib.Machines

/-! # Who waits how long

A one-slot node that is otherwise idle, over runs: each round some jobs arrive,
one decision is made, and the job it places is removed and gets its turn noted.

Priority and Standard share the cursor `lastWs`. Where Priority is always sent
from one workspace and Standard from two others, the cursor is back at the
Priority workspace before every Standard turn, so the same one of the two always
comes next, and the other waits until it ages. A workspace's wait is bounded as
long as no Priority placement puts the cursor onto or past it.
-/

namespace K2.Compute

open RoundRobin Rounds

/-! ## Whose turn it is -/

private theorem getElem_le {ks : List String} (sorted : ks.Pairwise (· ≤ ·)) {i m : Nat}
    (before : i ≤ m) (inside : m < ks.length) : ks[i] ≤ ks[m] := by
  rcases Nat.eq_or_lt_of_le before with rfl | earlier
  · exact le_rfl
  · exact List.pairwise_iff_getElem.mp sorted i m (by omega) inside earlier

theorem rotated_head {keys : List String} {last : Option String} {x : String}
    (head : (rotated keys last).head? = some x) : IsNext (· ∈ keys) last x := by
  refine ⟨mem_rotated.mp (List.mem_of_mem_head? head), fun k hk => ?_⟩
  have sorted : (keys.dedup.insertionSort (· ≤ ·)).Pairwise (· ≤ ·) :=
    List.pairwise_insertionSort _ _
  have member : k ∈ keys.dedup.insertionSort (· ≤ ·) := by
    rwa [(List.perm_insertionSort _ _).mem_iff, List.mem_dedup]
  unfold rotated at head
  generalize keys.dedup.insertionSort (· ≤ ·) = ks at head sorted member
  obtain ⟨m, inside, rfl⟩ := List.mem_iff_getElem.mp member
  have nonempty : 0 < ks.length := by omega
  cases last with
  | none =>
      simp only [List.head?_eq_getElem?, List.getElem?_eq_getElem nonempty, Option.some.injEq] at head
      subst head
      simpa [turn, Prod.Lex.toLex_le_toLex] using getElem_le sorted (Nat.zero_le m) inside
  | some l =>
      simp only at head
      cases found : ks.findIdx? (fun k => decide (l < k)) with
      | none =>
          -- No key is above the cursor: the round wraps to the first one.
          simp only [found, Option.getD_none, List.rotate_zero, List.head?_eq_getElem?,
            List.getElem?_eq_getElem nonempty, Option.some.injEq] at head
          subst head
          have below : ∀ k ∈ ks, k ≤ l := fun k hk =>
            not_lt.mp (of_decide_eq_false (List.findIdx?_eq_none_iff.mp found k hk))
          simpa [turn, Prod.Lex.toLex_le_toLex, below] using getElem_le sorted (Nat.zero_le m) inside
      | some i =>
          obtain ⟨first, above, earlier⟩ := List.findIdx?_eq_some_iff_getElem.mp found
          simp only [found, Option.getD_some, List.head?_rotate first,
            List.getElem?_eq_getElem first, Option.some.injEq] at head
          subst head
          have high : ¬ ks[i] ≤ l := by simpa using above
          rcases Nat.lt_or_ge m i with low | later
          · have : ks[m] ≤ l :=
              not_lt.mp (of_decide_eq_false (by simpa only [Bool.not_eq_true] using earlier m low))
            simp [turn, Prod.Lex.toLex_le_toLex, high, this]
          · have le := getElem_le sorted later inside
            have : ¬ ks[m] ≤ l := fun h => high (le.trans h)
            simpa [turn, Prod.Lex.toLex_le_toLex, high, this] using le

theorem head_rotated {keys : List String} {last : Option String} {x : String}
    (next : IsNext (· ∈ keys) last x) : (rotated keys last).head? = some x := by
  cases head : (rotated keys last).head? with
  | none =>
      have member : x ∈ rotated keys last := mem_rotated.mpr next.mem
      simp [List.head?_eq_none_iff.mp head] at member
  | some y => rw [(rotated_head head).unique next]

/-! ## The head of the order -/

theorem head_roundRobin {α : Type} {keys : List String} {groups : String → List α} {j : α}
    (nonempty : ∀ k ∈ keys, groups k ≠ []) (head : (roundRobin keys groups).head? = some j) :
    ∃ k, keys.head? = some k ∧ (groups k).head? = some j := by
  cases keys with
  | nil => simp [roundRobin, passes] at head
  | cons k rest =>
      refine ⟨k, rfl, ?_⟩
      cases first : groups k with
      | nil => exact absurd first (nonempty k (by simp))
      | cons x tail =>
          unfold roundRobin at head
          rw [List.map_cons, List.sum_cons, first, List.length_cons, Nat.add_right_comm, passes,
            List.filterMap_cons, first] at head
          exact head

/-- While nothing has aged, a line starts with a job of the workspace whose turn
    it is. -/
theorem head_lineOrder {now : Int} {jobs : List QueuedJob} {turns : Turns} {j : QueuedJob}
    (fresh : ∀ k ∈ jobs, k.aged now = false) (head : (lineOrder now jobs turns).head? = some j) :
    IsNext (∃ k ∈ jobs, k.workspaceId = ·) turns.lastWs j.workspaceId := by
  have none_old : oldJobs now jobs = [] := by
    have : jobs.filter (·.aged now) = [] :=
      List.filter_eq_nil_iff.mpr fun k hk => by simp [fresh k hk]
    simp [oldJobs, byFifo, this]
  have member : ∀ w, w ∈ (freshJobs now jobs).map (·.workspaceId) ↔ ∃ k ∈ jobs, k.workspaceId = w := by
    intro w
    have all : jobs.filter (!·.aged now) = jobs :=
      List.filter_eq_self.mpr fun k hk => by simp [fresh k hk]
    simp [freshJobs, (byFifo_perm _).mem_iff, all]
  rw [lineOrder_eq, none_old, List.nil_append] at head
  have nonempty : ∀ w ∈ rotated ((freshJobs now jobs).map (·.workspaceId)) turns.lastWs,
      workspaceOrder (freshJobs now jobs) turns w ≠ [] := by
    intro w hw empty
    obtain ⟨k, hk, rfl⟩ := List.mem_map.mp (mem_rotated.mp hw)
    have := (workspaceOrder_perm (freshJobs now jobs) turns k.workspaceId).mem_iff (a := k)
    simp [empty, hk] at this
  obtain ⟨w, first, inside⟩ := head_roundRobin nonempty head
  have here : j.workspaceId = w := by
    have := (workspaceOrder_perm _ _ w).mem_iff.mp (List.mem_of_mem_head? inside)
    simpa using (List.mem_filter.mp this).2
  obtain ⟨mem, le⟩ := rotated_head first
  exact here ▸ ⟨(member w).mp mem, fun k hk => le k ((member k).mpr hk)⟩

theorem head_alternate {α : Type} {n : Nat} (next : Line) (pri std : List α)
    (enough : pri.length + std.length ≤ n) : (alternate n next pri std).head? =
      if next = .priority then pri.head?.or std.head? else std.head?.or pri.head? := by
  cases n with
  | zero =>
      have hp : pri = [] := List.eq_nil_of_length_eq_zero (by omega)
      have hs : std = [] := List.eq_nil_of_length_eq_zero (by omega)
      simp [hp, hs, alternate]
  | succ n =>
      unfold alternate
      split <;> cases pri <;> cases std <;> rfl

theorem foldl_look_place {load : Load} {caps : Limits} {offer : Offer}
    (rest : List (QueuedJob × Nat)) (s : Scan) {id : String} (placed : s.place = some id) :
    (rest.foldl (Scan.look load caps offer) s).place = some id := by
  induction rest generalizing s with
  | nil => exact placed
  | cons p rest ih =>
      apply ih
      rcases (look_looks s p.1 p.2).place with same | ⟨vacant, -⟩
      · exact same.trans placed
      · rw [vacant] at placed
        cases placed

theorem decideWith_head {now : Int} {queue : List QueuedJob} {turns : Turns} {load : Load}
    {caps : Limits} {offer : Offer} {j : QueuedJob}
    (head : (orderWith now queue turns).head? = some j) (fits : neverFits offer j = none)
    (ready : verdict load caps offer false j = none) :
    (decideWith now queue turns load caps (some offer) none).place = some j.id := by
  unfold decideWith
  cases order : orderWith now queue turns with
  | nil => simp [order] at head
  | cons k rest =>
      obtain rfl : k = j := by simpa [order] using head
      unfold positioned
      simp only [List.isEmpty_cons, Bool.false_eq_true, if_false, List.map_cons, List.foldl_cons]
      refine foldl_look_place _ _ ?_
      simp [Scan.look, Scan.start, fits, ready]

/-! ## Rounds -/

structure Node where
  queue : List QueuedJob
  turns : Turns

/-- What one round brings: the time, the jobs that arrive, and what the node and
    the grants allow. -/
structure Round where
  now : Int
  arrivals : List QueuedJob
  caps : Limits
  offer : Offer

namespace Node

variable (n : Node) (r : Round)

/-- The queue the round decides on. -/
def queued : List QueuedJob := n.queue ++ r.arrivals

/-- The job the round places: nothing else runs on the node. -/
def placed : Option QueuedJob :=
  (decideWith r.now (n.queued r) n.turns .empty r.caps (some r.offer) none).place.bind fun id =>
    (n.queued r).find? (·.id = id)

/-- The placed job leaves the queue, and its turn is noted. -/
def next : Node :=
  match n.placed r with
  | some j => ⟨(n.queued r).filter (·.id ≠ j.id), n.turns.served j⟩
  | none => ⟨n.queued r, n.turns⟩

/-- The workspaces with a queued job of the line. -/
def spaces (l : Line) : List String := (ofLine (n.queued r) l).map (·.workspaceId)

/-- The placements of a run. -/
def placements : Node → List Round → List QueuedJob := outputs next fun n r => (n.placed r).toList

/-- The workspaces a run has seen. -/
def workspaces (rounds : List Round) : Finset String :=
  ((n.queue ++ rounds.flatMap (·.arrivals)).map (·.workspaceId)).toFinset

/-- A one-slot node that refuses none of its jobs, all of them fresh Priority or
    Standard jobs that share the node. -/
def Plain : Prop :=
  r.offer.parallelMax = 1 ∧ ((n.queued r).map (·.id)).Nodup ∧ ∀ j ∈ n.queued r,
    j.line.alternates = true ∧ j.exclusive = false ∧ j.aged r.now = false ∧
      neverFits r.offer j = none ∧ offerRefusal r.offer 0 false j.ask = none

instance : Decidable (n.Plain r) := inferInstanceAs (Decidable (_ ∧ _ ∧ _))

/-- Does the workspace have a Standard job queued? -/
def Waits (w : String) : Prop := w ∈ n.spaces r .standard

instance (w : String) : Decidable (n.Waits r w) := inferInstanceAs (Decidable (_ ∈ _))

/-- If Priority has the turn, the workspace it goes to is the one at the cursor,
    or comes before `w`. -/
def Unpassed (w : String) : Prop :=
  alternateAfter n.turns.lastLine = .priority →
    ∀ x ∈ (rotated (n.spaces r .priority) n.turns.lastWs).head?,
      n.turns.lastWs = some x ∨ turn n.turns.lastWs x < turn n.turns.lastWs w

instance (w : String) : Decidable (n.Unpassed r w) := inferInstanceAs (Decidable (_ → _))

end Node

namespace Node

variable {n : Node} {r : Round} {w : String}

theorem mem_spaces {l : Line} : w ∈ n.spaces r l ↔ ∃ j ∈ ofLine (n.queued r) l, j.workspaceId = w := by
  simp [spaces]

/-- One of the two lines starts: the other only if that one is empty. -/
theorem head_order (plain : n.Plain r) :
    (orderWith r.now (n.queued r) n.turns).head? =
      if alternateAfter n.turns.lastLine = .priority then
        (lineOrder r.now (ofLine (n.queued r) .priority) n.turns).head?.or
          (lineOrder r.now (ofLine (n.queued r) .standard) n.turns).head?
      else
        (lineOrder r.now (ofLine (n.queued r) .standard) n.turns).head?.or
          (lineOrder r.now (ofLine (n.queued r) .priority) n.turns).head? := by
  have no_other : ∀ l : Line, l.alternates = false → ofLine (n.queued r) l = [] := by
    intro l other
    refine List.filter_eq_nil_iff.mpr fun j hj same => ?_
    simp only [decide_eq_true_eq] at same
    rw [← same, (plain.2.2 j hj).1] at other
    cases other
  have batch : lineOrder r.now [] n.turns = [] := List.perm_nil.mp (lineOrder_perm _ _ _)
  rw [orderWith_eq, no_other .ci rfl, no_other .batch rfl, batch, List.append_nil]
  simp only [byFifo, List.insertionSort_nil, List.nil_append]
  exact head_alternate _ _ _ le_rfl

theorem placed_eq (plain : n.Plain r) {j : QueuedJob}
    (head : (orderWith r.now (n.queued r) n.turns).head? = some j) : n.placed r = some j := by
  have member : j ∈ n.queued r := (orderWith_perm _ _ _).mem_iff.mp (List.mem_of_mem_head? head)
  obtain ⟨alternates, -, -, fits, offers⟩ := plain.2.2 j member
  have ready : verdict .empty r.caps r.offer false j = none := by
    refine verdict_eq_none.mpr ⟨offers, ?_, ?_, fun batch => by simp [batch, Line.alternates] at alternates⟩
    · simp [withinGrant, Load.empty]
    · rcases Nat.eq_zero_or_pos (r.caps.submitterMaxRunning j.workspaceId) with off | on
      · simp [withinSubmitterCap, off]
      · simp [withinSubmitterCap, Load.empty, on]
  unfold placed
  rw [decideWith_head head fits ready, Option.bind_some]
  cases found : (n.queued r).find? (·.id = j.id) with
  | none =>
      rw [List.find?_eq_none] at found
      simpa using found j member
  | some k =>
      have same : k.id = j.id := by simpa using List.find?_some found
      rw [List.inj_on_of_nodup_map plain.2.1 (List.mem_of_find?_eq_some found) member same]

theorem head_line {l : Line} (plain : n.Plain r) {j : QueuedJob}
    (head : (lineOrder r.now (ofLine (n.queued r) l) n.turns).head? = some j) :
    j.line = l ∧ IsNext (· ∈ n.spaces r l) n.turns.lastWs j.workspaceId := by
  have fresh : ∀ k ∈ ofLine (n.queued r) l, k.aged r.now = false :=
    fun k hk => (plain.2.2 k (List.mem_of_mem_filter hk)).2.2.1
  obtain ⟨mem, le⟩ := head_lineOrder fresh head
  exact ⟨line_of_mem_lineOrder (List.mem_of_mem_head? head), mem_spaces.mpr mem,
    fun k hk => le k (mem_spaces.mp hk)⟩

theorem head_line_none {l : Line} (head : (lineOrder r.now (ofLine (n.queued r) l) n.turns).head? = none) :
    n.spaces r l = [] := by
  have empty := List.perm_nil.mp ((lineOrder_perm r.now (ofLine (n.queued r) l) n.turns).symm.trans
    (.of_eq (List.head?_eq_none_iff.mp head)))
  simp [spaces, empty]

/-- A round in which `w` waits serves the Standard workspace whose turn it is,
    or it is Priority's turn and Priority has work. -/
theorem placed_cases (plain : n.Plain r) (waits : n.Waits r w) :
    ∃ j ∈ n.queued r, n.placed r = some j ∧
      ((j.line = .standard ∧ IsNext (· ∈ n.spaces r .standard) n.turns.lastWs j.workspaceId) ∨
        (j.line = .priority ∧ alternateAfter n.turns.lastLine = .priority ∧
          IsNext (· ∈ n.spaces r .priority) n.turns.lastWs j.workspaceId)) := by
  have conclude {j : QueuedJob} (head : (orderWith r.now (n.queued r) n.turns).head? = some j) :
      j ∈ n.queued r ∧ n.placed r = some j :=
    ⟨(orderWith_perm _ _ _).mem_iff.mp (List.mem_of_mem_head? head), placed_eq plain head⟩
  have order := head_order plain
  cases std : (lineOrder r.now (ofLine (n.queued r) .standard) n.turns).head? with
  | none =>
      unfold Waits at waits
      simp [head_line_none std] at waits
  | some s =>
      rw [std] at order
      obtain ⟨line, next⟩ := head_line plain std
      by_cases turn : alternateAfter n.turns.lastLine = .priority
      · rw [if_pos turn] at order
        cases pri : (lineOrder r.now (ofLine (n.queued r) .priority) n.turns).head? with
        | none =>
            rw [pri, Option.none_or] at order
            obtain ⟨queued, placed⟩ := conclude order
            exact ⟨s, queued, placed, .inl ⟨line, next⟩⟩
        | some p =>
            rw [pri, Option.some_or] at order
            obtain ⟨queued, placed⟩ := conclude order
            obtain ⟨line, next⟩ := head_line plain pri
            exact ⟨p, queued, placed, .inr ⟨line, turn, next⟩⟩
      · rw [if_neg turn, Option.some_or] at order
        obtain ⟨queued, placed⟩ := conclude order
        exact ⟨s, queued, placed, .inl ⟨line, next⟩⟩

end Node

/-! ## The wait is bounded -/

namespace Node

variable {w : String}

theorem queued_subset_next (n : Node) (r : Round) : (n.next r).queue ⊆ n.queued r := by
  unfold next
  split
  · exact List.filter_subset_self _
  · exact List.Subset.refl _

theorem workspaces_next (n : Node) (r : Round) (rest : List Round) :
    (n.next r).workspaces rest ⊆ n.workspaces (r :: rest) := by
  intro w hw
  simp only [workspaces, List.mem_toFinset, List.mem_map, List.mem_append, List.flatMap_cons] at hw ⊢
  obtain ⟨j, hj, rfl⟩ := hw
  refine ⟨j, ?_, rfl⟩
  rcases hj with old | new
  · have := List.mem_append.mp (queued_subset_next n r old)
    tauto
  · tauto

theorem workspaces_append (n : Node) (before rounds : List Round) :
    (after next n before).workspaces rounds ⊆ n.workspaces (before ++ rounds) := by
  induction before generalizing n with
  | nil => exact subset_rfl
  | cons r rest ih => exact (ih _).trans (workspaces_next n r (rest ++ rounds))

theorem mem_workspaces {n : Node} {r : Round} {j : QueuedJob} (queued : j ∈ n.queued r)
    (rest : List Round) : j.workspaceId ∈ n.workspaces (r :: rest) := by
  simp only [workspaces, List.mem_toFinset, List.mem_map, List.mem_append, List.flatMap_cons]
  have := List.mem_append.mp queued
  exact ⟨j, by tauto, rfl⟩

/-- A placement as a move of the cursor: a Standard one is a turn of the
    rotation in question. -/
def move (j : QueuedJob) : Move String := ⟨j.line = .standard, j.workspaceId⟩

/-- The conditions under which `w` waits no longer than its turns. -/
def Fair (w : String) (n : Node) (r : Round) : Prop := n.Plain r ∧ n.Unpassed r w ∧ n.Waits r w

instance (w : String) (n : Node) (r : Round) : Decidable (n.Fair w r) :=
  inferInstanceAs (Decidable (_ ∧ _ ∧ _))

/-- Over a run the cursor takes turns, and at least every other round is one. -/
theorem turns_of_along (n : Node) (rounds : List Round) (along : Along next (Fair w) n rounds) :
    TakesTurns w n.turns.lastWs ((n.placements rounds).map move) ∧
      (∀ j ∈ n.placements rounds, j.workspaceId ∈ n.workspaces rounds) ∧
      rounds.length ≤ 2 * ((n.placements rounds).map move).countP (·.own) +
        if n.turns.lastLine = some .priority then 0 else 1 := by
  induction rounds generalizing n with
  | nil => exact ⟨.nil, by simp [placements, outputs], by simp⟩
  | cons r rest ih =>
      obtain ⟨⟨plain, unpassed, waits⟩, later⟩ := along
      obtain ⟨j, queued, placed, turn⟩ := placed_cases plain waits
      have next_turns : (n.next r).turns = n.turns.served j := by
        unfold next
        rw [placed]
      have placements_eq : n.placements (r :: rest) = j :: (n.next r).placements rest := by
        simp only [placements, outputs, placed, Option.toList_some, List.singleton_append]
      obtain ⟨turns, known, long⟩ := ih (n.next r) later
      rw [next_turns] at turns long
      rw [placements_eq, List.map_cons]
      refine ⟨?_, ?_, ?_⟩
      · rcases turn with ⟨line, next⟩ | ⟨line, its_turn, next⟩
        · rw [show move j = ⟨true, j.workspaceId⟩ by simp [move, line]]
          exact .own next waits turns
        · rw [show move j = ⟨false, j.workspaceId⟩ by simp [move, line]]
          exact .outside (unpassed its_turn _ (head_rotated next)) turns
      · intro k hk
        rcases List.mem_cons.mp hk with rfl | hk
        · exact mem_workspaces queued rest
        · exact workspaces_next n r rest (known k hk)
      · rw [List.length_cons]
        rcases turn with ⟨line, -⟩ | ⟨line, its_turn, -⟩
        · have noted : (n.turns.served j).lastLine = some .standard := by
            have : j.tier.line = .standard := line
            simp [Turns.served, Turns.note, this, Line.alternates]
          rw [noted] at long
          rw [List.countP_cons_of_pos (by simp [move, line])]
          simp only [Option.some.injEq, reduceCtorEq, if_false] at long
          omega
        · have noted : (n.turns.served j).lastLine = some .priority := by
            have : j.tier.line = .priority := line
            simp [Turns.served, Turns.note, this, Line.alternates]
          have before : n.turns.lastLine ≠ some .priority := fun same => by
            simp [alternateAfter, same] at its_turn
          rw [noted, if_pos rfl] at long
          rw [if_neg before, List.countP_cons_of_neg (by simp [move, line])]
          omega

/-- A workspace with a Standard job queued at every one of twice as many rounds
    as there are workspaces gets a Standard placement in them, if no Priority
    turn puts the cursor onto or past it. -/
theorem standard_served (start : Node) (before window : List Round) (w : String)
    (steps : Along next (Fair w) (after next start before) window)
    (known : w ∈ start.workspaces (before ++ window))
    (long : window.length = 2 * (start.workspaces (before ++ window)).card) :
    ∃ j ∈ (after next start before).placements window, j.line = .standard ∧ j.workspaceId = w := by
  have inside := workspaces_append start before window
  obtain ⟨turns, targets, short⟩ := turns_of_along _ _ steps
  have enough : (start.workspaces (before ++ window)).card ≤
      (((after next start before).placements window).map move).countP (·.own) := by
    split at short <;> omega
  obtain ⟨m, hm, own, target⟩ := turns.served known (fun m hm => by
    obtain ⟨j, hj, rfl⟩ := List.mem_map.mp hm
    exact inside (targets j hj)) enough
  obtain ⟨j, hj, rfl⟩ := List.mem_map.mp hm
  exact ⟨j, hj, by simpa [move] using own, target⟩

/-- Nine jobs: three Priority ones of `A`, three Standard ones of `B` and three of `C`. -/
def nineJobs : List QueuedJob :=
  let job (id w : String) (tier : Tier) : QueuedJob :=
    ⟨id, w, 0, false, none, none, 0, false, tier, none⟩
  [job "1" "A" .priority, job "2" "A" .priority, job "3" "A" .priority,
    job "4" "B" .normal, job "5" "B" .normal, job "6" "B" .normal,
    job "7" "C" .normal, job "8" "C" .normal, job "9" "C" .normal]

def oneSlotRound (arrivals : List QueuedJob) : Round :=
  ⟨0, arrivals, ⟨fun _ => 1, fun _ => 0⟩, oneSlotOffer⟩

def sixRounds : List Round := oneSlotRound nineJobs :: List.replicate 5 (oneSlotRound [])

/-- `C` waits through twice as many placements as there are workspaces: they go
    to `A` and `B` by turns. -/
theorem standard_passed_over :
    let idle : Node := ⟨[], .empty⟩
    Along next Plain idle sixRounds ∧ Along next (fun n r => n.Waits r "C") idle sixRounds ∧
      sixRounds.length = 2 * (idle.workspaces sixRounds).card ∧
      (idle.placements sixRounds).map (·.workspaceId) = ["A", "B", "A", "B", "A", "B"] := by
  decide +kernel

theorem standard_served_two_workspaces :
    let start : Node := ⟨nineJobs.take 6, .empty⟩
    ∃ j ∈ start.placements (List.replicate 4 (oneSlotRound [])),
      j.line = .standard ∧ j.workspaceId = "B" :=
  standard_served ⟨nineJobs.take 6, .empty⟩ [] (List.replicate 4 (oneSlotRound [])) "B"
    (by decide +kernel) (by decide +kernel) (by decide +kernel)

end Node

end K2.Compute
