import K2.Compute.Scheduler
import K2.Lib.Sharing
import Mathlib.Algebra.Order.BigOperators.Group.List

/-! # The start order

The order is a permutation of the queue, keeps the jobs of one submitter in one
line first come first, and starts a line with the job whose turn it is.
-/

namespace K2.Compute

open RoundRobin

/-! ## Rotation and round-robin -/

theorem rotated_perm (keys : List String) (last : Option String) :
    (rotated keys last).Perm keys.dedup := by
  cases last with
  | none => exact List.perm_insertionSort _ _
  | some l => exact (List.rotate_perm _ _).trans (List.perm_insertionSort _ _)

theorem rotated_nodup (keys : List String) (last : Option String) : (rotated keys last).Nodup :=
  (rotated_perm keys last).nodup_iff.mpr keys.nodup_dedup

@[simp] theorem mem_rotated {keys : List String} {last : Option String} {k : String} :
    k ∈ rotated keys last ↔ k ∈ keys := by
  rw [(rotated_perm keys last).mem_iff, List.mem_dedup]

section RoundRobin

variable {α : Type}

theorem passes_perm (keys : List String) (n : Nat) (groups : String → List α)
    (enough : ∀ k ∈ keys, (groups k).length ≤ n) :
    (passes keys n groups).Perm (keys.flatMap groups) := by
  induction n generalizing groups with
  | zero =>
      have none_left : keys.flatMap groups = [] := by
        rw [List.flatMap_eq_nil_iff]
        exact fun k hk => List.eq_nil_of_length_eq_zero (Nat.le_zero.mp (enough k hk))
      rw [none_left]
      exact .nil
  | succ n ih =>
      have later := ih (fun k => (groups k).tail) fun k hk => by
        have := enough k hk
        simp only [List.length_tail]
        omega
      have split : ∀ k, (groups k).head?.toList ++ (groups k).tail = groups k := fun k => by
        cases groups k <;> rfl
      refine (later.append_left _).trans ?_
      rw [List.filterMap_eq_flatMap_toList]
      refine (List.flatMap_append_perm keys _ _).trans (.of_eq ?_)
      exact congrArg (List.flatMap · keys) (funext split)

theorem length_le_sum {keys : List String} (groups : String → List α) {k : String} (member : k ∈ keys) :
    (groups k).length ≤ (keys.map fun k => (groups k).length).sum :=
  List.single_le_sum (fun _ _ => Nat.zero_le _) _ (List.mem_map_of_mem member)

theorem roundRobin_perm (keys : List String) (groups : String → List α) :
    (roundRobin keys groups).Perm (keys.flatMap groups) :=
  passes_perm keys _ groups fun _ => length_le_sum groups

/-- Of the heads one pass takes, a test that only one group passes keeps that
    group's. -/
private theorem filter_heads {keys : List String} (groups : String → List α) {only : String}
    (distinct : keys.Nodup) (member : only ∈ keys) {p : α → Bool}
    (others : ∀ k ∈ keys, k ≠ only → ∀ x ∈ groups k, p x = false) :
    (keys.filterMap fun k => (groups k).head?).filter p = (groups only).head?.toList.filter p := by
  induction keys with
  | nil => cases member
  | cons k rest ih =>
      rw [List.nodup_cons] at distinct
      rw [List.filterMap_cons]
      by_cases here : k = only
      · subst here
        have later : (rest.filterMap fun k => (groups k).head?).filter p = [] := by
          simp only [List.filter_eq_nil_iff, List.mem_filterMap]
          rintro x ⟨k', hk', first⟩
          have := others k' (List.mem_cons_of_mem _ hk') (fun same => distinct.1 (same ▸ hk')) x
            (List.mem_of_mem_head? first)
          simp [this]
        cases first : (groups k).head? with
        | none => simpa [first] using later
        | some x => simp [List.filter_cons, later]
      · have tail := ih distinct.2 ((List.mem_cons.mp member).resolve_left fun h => here h.symm)
          fun k' hk' => others k' (List.mem_cons_of_mem _ hk')
        cases first : (groups k).head? with
        | none => simpa [first] using tail
        | some x =>
            have := others k (by simp) here x (List.mem_of_mem_head? first)
            simpa [List.filter_cons, this] using tail

theorem filter_passes {keys : List String} {only : String} (distinct : keys.Nodup)
    (member : only ∈ keys) {p : α → Bool} (n : Nat) (groups : String → List α)
    (enough : (groups only).length ≤ n)
    (others : ∀ k ∈ keys, k ≠ only → ∀ x ∈ groups k, p x = false) :
    (passes keys n groups).filter p = (groups only).filter p := by
  induction n generalizing groups with
  | zero => simp [passes, List.eq_nil_of_length_eq_zero (Nat.le_zero.mp enough)]
  | succ n ih =>
      have later := ih (fun k => (groups k).tail) (by simp only [List.length_tail]; omega)
        fun k hk different x hx => others k hk different x (List.mem_of_mem_tail hx)
      rw [passes, List.filter_append, later, filter_heads groups distinct member others,
        ← List.filter_append]
      cases groups only <;> rfl

/-- A test that only one group passes finds that group in its own order. -/
theorem filter_roundRobin {keys : List String} {groups : String → List α} {only : String}
    (distinct : keys.Nodup) (member : only ∈ keys) {p : α → Bool}
    (others : ∀ k ∈ keys, k ≠ only → ∀ x ∈ groups k, p x = false) :
    (roundRobin keys groups).filter p = (groups only).filter p :=
  filter_passes distinct member _ groups (length_le_sum groups member) others

/-- The jobs of the keys, key by key, are the jobs with such a key. -/
theorem flatMap_filter_perm {κ : Type} [DecidableEq κ] {keys : List κ} (distinct : keys.Nodup)
    (key : α → κ) (jobs : List α) :
    (keys.flatMap fun k => jobs.filter (key · = k)).Perm (jobs.filter (key · ∈ keys)) := by
  induction keys with
  | nil => simp
  | cons k rest ih =>
      rw [List.nodup_cons] at distinct
      rw [List.flatMap_cons]
      refine ((ih distinct.2).append_left _).trans ?_
      have split := List.filter_append_perm (fun j => decide (key j = k))
        (jobs.filter (key · ∈ k :: rest))
      rw [List.filter_filter, List.filter_filter] at split
      refine .trans (.of_eq ?_) split
      congr 1
      · refine List.filter_congr fun j _ => ?_
        by_cases h : key j = k <;> simp [h]
      · refine List.filter_congr fun j _ => ?_
        by_cases h : key j = k
        · simp [h, distinct.1]
        · simp [h]

end RoundRobin

/-! ## First come first -/

theorem fifo_total (a b : QueuedJob) : a.fifo b = true ∨ b.fifo a = true := by
  simp only [QueuedJob.fifo, decide_eq_true_eq]
  exact le_total _ _

theorem fifo_trans {a b c : QueuedJob} (hab : a.fifo b = true) (hbc : b.fifo c = true) :
    a.fifo c = true := by
  simp only [QueuedJob.fifo, decide_eq_true_eq] at *
  exact hab.trans hbc

theorem fifo_antisymm {a b : QueuedJob} (hab : a.fifo b = true) (hba : b.fifo a = true) :
    a.id = b.id := by
  simp only [QueuedJob.fifo, decide_eq_true_eq] at *
  have same := le_antisymm hab hba
  simp only [toLex_inj, Prod.mk.injEq] at same
  exact same.2

/-- The jobs in arrival order. -/
def byFifo (jobs : List QueuedJob) : List QueuedJob := jobs.insertionSort fun a b => a.fifo b

theorem byFifo_perm (jobs : List QueuedJob) : (byFifo jobs).Perm jobs := List.perm_insertionSort _ _

theorem byFifo_pairwise (jobs : List QueuedJob) : (byFifo jobs).Pairwise fun a b => a.fifo b := by
  have : Std.Total fun a b : QueuedJob => a.fifo b = true := ⟨fifo_total⟩
  have : IsTrans QueuedJob fun a b => a.fifo b = true := ⟨fun _ _ _ => fifo_trans⟩
  exact List.pairwise_insertionSort _ _

/-! ## One line -/

/-- The jobs of a line that go by turns, in arrival order. -/
def freshJobs (now : Int) (jobs : List QueuedJob) : List QueuedJob := byFifo (jobs.filter (!·.aged now))

def oldJobs (now : Int) (jobs : List QueuedJob) : List QueuedJob := byFifo (jobs.filter (·.aged now))

theorem lineOrder_eq (now : Int) (jobs : List QueuedJob) (turns : Turns) :
    lineOrder now jobs turns = oldJobs now jobs ++
      roundRobin (rotated ((freshJobs now jobs).map (·.workspaceId)) turns.lastWs)
        (workspaceOrder (freshJobs now jobs) turns) := rfl

theorem workspaceOrder_perm (fresh : List QueuedJob) (turns : Turns) (w : String) :
    (workspaceOrder fresh turns w).Perm (fresh.filter (·.workspaceId = w)) := by
  refine (roundRobin_perm _ _).trans ((flatMap_filter_perm (rotated_nodup _ _) QueuedJob.sub _).trans ?_)
  refine .of_eq (List.filter_eq_self.mpr fun j hj => ?_)
  simpa using ⟨j, by simpa using hj, rfl⟩

theorem lineOrder_perm (now : Int) (jobs : List QueuedJob) (turns : Turns) :
    (lineOrder now jobs turns).Perm jobs := by
  have inTurn : (roundRobin (rotated ((freshJobs now jobs).map (·.workspaceId)) turns.lastWs)
      (workspaceOrder (freshJobs now jobs) turns)).Perm (freshJobs now jobs) := by
    refine (roundRobin_perm _ _).trans ((List.Perm.flatMap_left _ fun w _ =>
      workspaceOrder_perm _ _ w).trans ((flatMap_filter_perm (rotated_nodup _ _) _ _).trans ?_))
    refine .of_eq (List.filter_eq_self.mpr fun j hj => ?_)
    simpa using ⟨j, hj, rfl⟩
  rw [lineOrder_eq]
  exact (((byFifo_perm _).append (inTurn.trans (byFifo_perm _)))).trans
    (List.filter_append_perm (·.aged now) jobs)

/-- Who takes turns together: one submitter of a workspace, in one line. -/
def QueuedJob.turn (j : QueuedJob) : String × String × Line := (j.workspaceId, j.sub, j.line)

/-- The turns of a line leave one submitter's fresh jobs in arrival order. -/
theorem filter_turns (fresh : List QueuedJob) (turns : Turns) (t : String × String × Line) :
    (roundRobin (rotated (fresh.map (·.workspaceId)) turns.lastWs) (workspaceOrder fresh turns)).filter
      (·.turn = t) = fresh.filter (·.turn = t) := by
  by_cases here : ∃ j ∈ fresh, j.turn = t
  · obtain ⟨j, member, rfl⟩ := here
    rw [filter_roundRobin (rotated_nodup _ _)
      (by simpa using ⟨j, member, rfl⟩ : j.workspaceId ∈ _), workspaceOrder,
      filter_roundRobin (rotated_nodup _ _) (by simpa using ⟨j, ⟨member, rfl⟩, rfl⟩ : j.sub ∈ _)]
    · rw [List.filter_filter, List.filter_filter]
      refine List.filter_congr fun x _ => ?_
      by_cases same : x.turn = j.turn
      · simp only [QueuedJob.turn, Prod.mk.injEq] at same
        simp [QueuedJob.turn, same]
      · simp [same]
    · intro s _ different x hx
      simp only [List.mem_filter, decide_eq_true_eq] at hx
      simp [QueuedJob.turn, hx.2, different]
    · intro w _ different x hx
      have := (workspaceOrder_perm _ _ w).mem_iff.mp hx
      simp only [List.mem_filter, decide_eq_true_eq] at this
      simp [QueuedJob.turn, this.2, different]
  · have absent : fresh.filter (·.turn = t) = [] := by
      simpa [List.filter_eq_nil_iff] using here
    rw [absent, List.filter_eq_nil_iff]
    intro x hx
    have : x ∈ fresh := by
      have := (roundRobin_perm _ _).mem_iff.mp hx
      obtain ⟨w, -, hw⟩ := List.mem_flatMap.mp this
      exact List.mem_of_mem_filter ((workspaceOrder_perm _ _ w).mem_iff.mp hw)
    simpa using fun same => here ⟨x, this, same⟩

/-- A job that has aged came before one that hasn't. -/
theorem fifo_of_aged {a b : QueuedJob} {now : Int} (old : a.aged now = true)
    (fresh : b.aged now = false) : a.fifo b = true := by
  simp only [QueuedJob.aged, aged, ge_iff_le, decide_eq_true_eq, decide_eq_false_iff_not] at old fresh
  simp only [QueuedJob.fifo, decide_eq_true_eq, Prod.Lex.toLex_le_toLex]
  exact .inl (by omega)

theorem lineOrder_fifo (now : Int) (jobs : List QueuedJob) (turns : Turns)
    (t : String × String × Line) :
    ((lineOrder now jobs turns).filter (·.turn = t)).Pairwise fun a b => a.fifo b := by
  rw [lineOrder_eq, List.filter_append, filter_turns, List.pairwise_append]
  refine ⟨(byFifo_pairwise _).filter _, (byFifo_pairwise _).filter _, fun a ha b hb => ?_⟩
  have old := (byFifo_perm _).mem_iff.mp (List.mem_of_mem_filter ha)
  have fresh := (byFifo_perm _).mem_iff.mp (List.mem_of_mem_filter hb)
  exact fifo_of_aged (List.mem_filter.mp old).2 (by simpa using (List.mem_filter.mp fresh).2)

/-! ## The whole order -/

section Alternate

variable {α : Type}

/-- `zs` is made of `xs` and `ys`, each in its own order. -/
inductive Interleaves : List α → List α → List α → Prop where
  | nil : Interleaves [] [] []
  | left (x : α) {xs ys zs} : Interleaves xs ys zs → Interleaves (x :: xs) ys (x :: zs)
  | right (y : α) {xs ys zs} : Interleaves xs ys zs → Interleaves xs (y :: ys) (y :: zs)

theorem Interleaves.symm {xs ys zs : List α} (h : Interleaves xs ys zs) : Interleaves ys xs zs := by
  induction h with
  | nil => exact .nil
  | left x _ ih => exact .right x ih
  | right y _ ih => exact .left y ih

theorem Interleaves.perm {xs ys zs : List α} (h : Interleaves xs ys zs) : zs.Perm (xs ++ ys) := by
  induction h with
  | nil => exact .nil
  | left x _ ih => exact ih.cons x
  | right y _ ih => exact (ih.cons y).trans List.perm_middle.symm

/-- A test that no right-hand element passes finds the left-hand list in order. -/
theorem Interleaves.filter_left {xs ys zs : List α} (h : Interleaves xs ys zs) {p : α → Bool}
    (others : ∀ y ∈ ys, p y = false) : zs.filter p = xs.filter p := by
  induction h with
  | nil => rfl
  | left x _ ih => rw [List.filter_cons, List.filter_cons, ih others]
  | right y _ ih =>
      rw [List.filter_cons_of_neg (by simp [others y]), ih fun z hz => others z (by simp [hz])]

theorem alternate_interleaves (n : Nat) (next : Line) (pri std : List α)
    (enough : pri.length + std.length ≤ n) : Interleaves pri std (alternate n next pri std) := by
  induction n generalizing next pri std with
  | zero =>
      have hp : pri = [] := List.eq_nil_of_length_eq_zero (by omega)
      have hs : std = [] := List.eq_nil_of_length_eq_zero (by omega)
      subst hp hs
      exact .nil
  | succ n ih =>
      simp only [alternate]
      split
      · cases pri with
        | cons p rest => exact .left p (ih _ _ _ (by simp only [List.length_cons] at enough; omega))
        | nil =>
            cases std with
            | cons s rest => exact .right s (ih _ _ _ (by simp only [List.length] at *; omega))
            | nil => exact .nil
      · cases std with
        | cons s rest => exact .right s (ih _ _ _ (by simp only [List.length_cons] at enough; omega))
        | nil =>
            cases pri with
            | cons p rest => exact .left p (ih _ _ _ (by simp only [List.length] at *; omega))
            | nil => exact .nil

end Alternate

/-- The Priority and Standard jobs of a queue, by turns. -/
def turnsPart (now : Int) (queue : List QueuedJob) (turns : Turns) : List QueuedJob :=
  let pri := lineOrder now (ofLine queue .priority) turns
  let std := lineOrder now (ofLine queue .standard) turns
  alternate (pri.length + std.length) (alternateAfter turns.lastLine) pri std

theorem orderWith_eq (now : Int) (queue : List QueuedJob) (turns : Turns) :
    orderWith now queue turns = byFifo (ofLine queue .ci) ++ turnsPart now queue turns ++
      lineOrder now (ofLine queue .batch) turns := rfl

theorem turnsPart_interleaves (now : Int) (queue : List QueuedJob) (turns : Turns) :
    Interleaves (lineOrder now (ofLine queue .priority) turns)
      (lineOrder now (ofLine queue .standard) turns) (turnsPart now queue turns) :=
  alternate_interleaves _ _ _ _ le_rfl

theorem line_of_mem_lineOrder {now : Int} {queue : List QueuedJob} {turns : Turns} {l : Line}
    {j : QueuedJob} (member : j ∈ lineOrder now (ofLine queue l) turns) : j.line = l := by
  have := (lineOrder_perm _ _ _).mem_iff.mp member
  simpa using (List.mem_filter.mp this).2

theorem orderWith_perm (now : Int) (queue : List QueuedJob) (turns : Turns) :
    (orderWith now queue turns).Perm queue := by
  have lines := flatMap_filter_perm (show [Line.ci, .priority, .standard, .batch].Nodup by decide)
    QueuedJob.line queue
  have all : queue.filter (·.line ∈ [Line.ci, .priority, .standard, .batch]) = queue :=
    List.filter_eq_self.mpr fun j _ => by cases h : j.line <;> simp
  rw [all] at lines
  refine .trans ?_ lines
  rw [orderWith_eq]
  simp only [List.flatMap_cons, List.flatMap_nil, List.append_nil, List.append_assoc]
  refine (byFifo_perm _).append ?_
  change (turnsPart now queue turns ++ _).Perm
    (ofLine queue .priority ++ (ofLine queue .standard ++ ofLine queue .batch))
  rw [← List.append_assoc (ofLine queue .priority)]
  exact ((turnsPart_interleaves now queue turns).perm.trans
    ((lineOrder_perm _ _ _).append (lineOrder_perm _ _ _))).append (lineOrder_perm _ _ _)

/-- The order keeps one submitter's jobs of one line in arrival order. -/
theorem orderWith_fifo (now : Int) (queue : List QueuedJob) (turns : Turns)
    (t : String × String × Line) :
    ((orderWith now queue turns).filter (·.turn = t)).Pairwise fun a b => a.fifo b := by
  have ci : ∀ l, t.2.2 ≠ l → ∀ jobs : List QueuedJob, (∀ j ∈ jobs, j.line = l) →
      ∀ j ∈ jobs, decide (j.turn = t) = false := by
    intro l other jobs all j hj
    refine decide_eq_false fun same => other ?_
    rw [← all j hj, ← same]
    rfl
  have inLine : ∀ l, ∀ j ∈ lineOrder now (ofLine queue l) turns, j.line = l :=
    fun l j hj => line_of_mem_lineOrder hj
  have inCi : ∀ j ∈ byFifo (ofLine queue .ci), j.line = .ci := fun j hj => by
    simpa [ofLine] using (List.mem_filter.mp ((byFifo_perm _).mem_iff.mp hj)).2
  have none_of : ∀ jobs : List QueuedJob, (∀ j ∈ jobs, decide (j.turn = t) = false) →
      jobs.filter (·.turn = t) = [] := fun jobs all =>
    List.filter_eq_nil_iff.mpr fun j hj => by simpa using all j hj
  have both := turnsPart_interleaves now queue turns
  rw [orderWith_eq, List.filter_append, List.filter_append]
  cases line : t.2.2 with
  | ci =>
      have skip : ∀ l, l ≠ .ci → ∀ j ∈ lineOrder now (ofLine queue l) turns,
          decide (j.turn = t) = false :=
        fun l other => ci l (by rw [line]; exact other.symm) _ (inLine l)
      rw [both.filter_left (skip .standard (by decide)), none_of _ (skip .priority (by decide)),
        none_of _ (skip .batch (by decide)), List.append_nil, List.append_nil]
      exact (byFifo_pairwise _).filter _
  | priority =>
      have skip : ∀ l, l ≠ .priority → ∀ j ∈ lineOrder now (ofLine queue l) turns,
          decide (j.turn = t) = false :=
        fun l other => ci l (by rw [line]; exact other.symm) _ (inLine l)
      rw [both.filter_left (skip .standard (by decide)), none_of _ (skip .batch (by decide)),
        none_of _ (ci .ci (by rw [line]; decide) _ inCi), List.nil_append, List.append_nil]
      exact lineOrder_fifo _ _ _ _
  | standard =>
      have skip : ∀ l, l ≠ .standard → ∀ j ∈ lineOrder now (ofLine queue l) turns,
          decide (j.turn = t) = false :=
        fun l other => ci l (by rw [line]; exact other.symm) _ (inLine l)
      rw [both.symm.filter_left (skip .priority (by decide)), none_of _ (skip .batch (by decide)),
        none_of _ (ci .ci (by rw [line]; decide) _ inCi), List.nil_append, List.append_nil]
      exact lineOrder_fifo _ _ _ _
  | batch =>
      have skip : ∀ l, l ≠ .batch → ∀ j ∈ lineOrder now (ofLine queue l) turns,
          decide (j.turn = t) = false :=
        fun l other => ci l (by rw [line]; exact other.symm) _ (inLine l)
      rw [both.filter_left (skip .standard (by decide)), none_of _ (skip .priority (by decide)),
        none_of _ (ci .ci (by rw [line]; decide) _ inCi), List.nil_append]
      exact lineOrder_fifo _ _ _ _

end K2.Compute
