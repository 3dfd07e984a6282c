import K2.ToolHook.Outbox
import Mathlib.Logic.Function.Basic
import Mathlib.Order.WellFounded

/-! # Delivery order

A worker asks for a tool's due rows and records answers for the rows it was
given, while writers enqueue and owners retry and skip. It runs one pass at a
time, so what it records an answer for is a row that the tool's last `dueHeads`
returned. Every queue is then worked off from its head.
-/

namespace K2.ToolHook

open Outbox

/-! ## What `dueHeads` returns -/

namespace Outbox

theorem mem_limitRows {limit : Nat} {rows : List OutboxRow} {r : OutboxRow}
    (member : r ∈ limitRows limit rows) : r ∈ rows := by
  simp only [limitRows] at member
  split at member
  · exact List.mem_of_mem_take member
  · exact member

theorem behind_eq_false {o : Outbox} {r : OutboxRow} : o.behind r = false ↔
    ∀ e ∈ o.rows.rows, e.tool = r.tool → e.subjectKey = r.subjectKey → e.isOpen = true →
      e.isDelivered = true → r.seq ≤ e.seq := by
  simp [behind]

theorem waits_eq_false {o : Outbox} {r : OutboxRow} : o.waits r = false ↔
    ∀ d ∈ o.rows.rows, d.tool = r.tool → some d.subjectKey = r.afterSubject → d.isOpen = true →
      d.isDelivered = true → r.seq ≤ d.seq := by
  simp [waits]

/-- A due row is the pending head of its queue, and the subject it comes after
    has nothing open before it. -/
structure Head (o : Outbox) (tool : String) (now : Int) (r : OutboxRow) : Prop where
  member : r ∈ o.rows.rows
  tool : r.tool = tool
  pending : r.state = .pending
  due : r.nextAttemptAt ≤ now
  delivered : r.isDelivered = true
  first : ∀ e ∈ o.rows.rows, e.tool = r.tool → e.subjectKey = r.subjectKey → e.isOpen = true →
    e.isDelivered = true → r.seq ≤ e.seq
  after : ∀ d ∈ o.rows.rows, d.tool = r.tool → some d.subjectKey = r.afterSubject → d.isOpen = true →
    d.isDelivered = true → r.seq ≤ d.seq

private theorem mem_filter_head {o : Outbox} {tool : String} {now : Int} {r : OutboxRow} :
    r ∈ o.rows.rows.filter (fun r => r.tool = tool && r.state = .pending &&
      r.nextAttemptAt ≤ now && r.isDelivered && !o.behind r && !o.waits r) ↔ Head o tool now r := by
  simp only [List.mem_filter, Bool.and_eq_true, decide_eq_true_eq, Bool.not_eq_true', behind_eq_false,
    waits_eq_false]
  constructor
  · rintro ⟨member, ⟨⟨⟨⟨here, pending⟩, due⟩, delivered⟩, first⟩, after⟩
    exact ⟨member, here, pending, due, delivered, first, after⟩
  · exact fun h => ⟨h.member, ⟨⟨⟨⟨h.tool, h.pending⟩, h.due⟩, h.delivered⟩, h.first⟩, h.after⟩

theorem head_of_mem {o : Outbox} {tool : String} {now : Int} {limit : Nat} {r : OutboxRow}
    (member : r ∈ o.dueHeads tool now limit) : Head o tool now r := by
  have sorted := mem_limitRows member
  rw [(List.perm_insertionSort _ _).mem_iff] at sorted
  exact mem_filter_head.mp sorted

theorem Head.isOpen {o : Outbox} {tool : String} {now : Int} {r : OutboxRow} (head : Head o tool now r) :
    r.isOpen = true := by
  simp [OutboxRow.isOpen, head.pending]

/-- At most one row of a queue is due. -/
theorem Head.unique {o : Outbox} {tool : String} {now : Int} {r r' : OutboxRow}
    (head : Head o tool now r) (head' : Head o tool now r') (same : r.subjectKey = r'.subjectKey) :
    r = r' := by
  have tools : r.tool = r'.tool := head.tool.trans head'.tool.symm
  refine o.rows.eq_of_key head.member head'.member (le_antisymm ?_ ?_)
  · exact head.first r' head'.member tools.symm same.symm head'.isOpen head'.delivered
  · exact head'.first r head.member tools same head.isOpen head.delivered

theorem dueHeads_nodup (o : Outbox) (tool : String) (now : Int) (limit : Nat) :
    (o.dueHeads tool now limit).Nodup := by
  have rows : o.rows.rows.Nodup := List.Nodup.of_map _ o.unique
  have sorted := ((List.perm_insertionSort (fun a b : OutboxRow => a.seq ≤ b.seq) _).nodup_iff).mpr
    (rows.filter fun r => r.tool = tool && r.state = .pending && r.nextAttemptAt ≤ now &&
      r.isDelivered && !o.behind r && !o.waits r)
  simp only [dueHeads, limitRows]
  split
  · exact sorted.sublist (List.take_sublist _ _)
  · exact sorted

/-! ## Progress -/

instance : Std.Total fun a b : OutboxRow => a.seq ≤ b.seq := ⟨fun a b => Nat.le_total a.seq b.seq⟩

instance : IsTrans OutboxRow fun a b => a.seq ≤ b.seq := ⟨fun _ _ _ => Nat.le_trans⟩

/-- With nothing blocked and everything due, a queue that holds a pending row has
    a due head: the lowest pending row of the tool comes first, whatever the rows
    come after. -/
theorem due_heads_progress (o : Outbox) (tool : String) (now : Int) (limit : Nat)
    (unblocked : ∀ r ∈ o.rows.rows, r.tool = tool → r.isDelivered = true → r.state ≠ .blocked)
    (due : ∀ r ∈ o.rows.rows, r.tool = tool → r.isDelivered = true → r.state = .pending →
      r.nextAttemptAt ≤ now)
    (waiting : ∃ r ∈ o.rows.rows, r.tool = tool ∧ r.isDelivered = true ∧ r.state = .pending)
    (room : 1 ≤ limit) :
    ∃ r rest, o.dueHeads tool now limit = r :: rest ∧ r ∈ o.rows.rows ∧ r.tool = tool ∧
      r.isDelivered = true ∧ r.state = .pending ∧
      ∀ e ∈ o.rows.rows, e.tool = tool → e.isDelivered = true → e.state = .pending → r.seq ≤ e.seq := by
  obtain ⟨r, ⟨member, here, delivered, pending⟩, lowest⟩ := (measure OutboxRow.seq).wf.has_min
    {r | r ∈ o.rows.rows ∧ r.tool = tool ∧ r.isDelivered = true ∧ r.state = .pending} waiting
  have first : ∀ e ∈ o.rows.rows, e.tool = tool → e.isDelivered = true → e.state = .pending →
      r.seq ≤ e.seq := fun e he there delivered pending =>
    not_lt.mp (lowest e ⟨he, there, delivered, pending⟩)
  -- An open row of the tool is pending, so none comes before `r`: neither in its
  -- own queue nor in the one it waits for.
  have first_open : ∀ e ∈ o.rows.rows, e.tool = r.tool → e.isOpen = true → e.isDelivered = true →
      r.seq ≤ e.seq := by
    intro e he there opened delivered
    simp only [OutboxRow.isOpen, decide_eq_true_eq] at opened
    rcases opened with waits | halts
    · exact first e he (there.trans here) delivered waits
    · exact absurd halts (unblocked e he (there.trans here) delivered)
  have head : Head o tool now r :=
    ⟨member, here, pending, due r member here delivered pending, delivered,
      fun e he there _ => first_open e he there, fun d hd there _ => first_open d hd there⟩
  refine ⟨r, ?_⟩
  simp only [dueHeads]
  generalize listed : o.rows.rows.filter (fun r => r.tool = tool && r.state = .pending &&
    r.nextAttemptAt ≤ now && r.isDelivered && !o.behind r && !o.waits r) = heads
  have mem_heads : ∀ x, x ∈ heads.insertionSort (fun a b => a.seq ≤ b.seq) ↔ Head o tool now x := fun x => by
    rw [(List.perm_insertionSort _ _).mem_iff, ← listed, mem_filter_head]
  have sorted := List.pairwise_insertionSort (fun a b : OutboxRow => a.seq ≤ b.seq) heads
  generalize heads.insertionSort (fun a b => a.seq ≤ b.seq) = rows at mem_heads sorted ⊢
  have some_head := (mem_heads r).mpr head
  cases rows with
  | nil => cases some_head
  | cons x rest =>
      have headX := (mem_heads x).mp (List.mem_cons_self ..)
      have same : x = r := by
        refine o.rows.eq_of_key headX.member member (le_antisymm ?_ ?_)
        · rcases List.mem_cons.mp some_head with rfl | later
          · exact le_rfl
          · exact (List.pairwise_cons.mp sorted).1 r later
        · exact first x headX.member headX.tool headX.delivered headX.pending
      subst same
      obtain ⟨n, rfl⟩ := Nat.exists_eq_add_of_le' room
      refine ⟨limitRows (n + 1) (x :: rest) |>.tail, ?_, member, here, delivered, pending, first⟩
      simp only [limitRows]
      split <;> simp

/-- Three subjects, each but the first behind another's queue. -/
def waitingRows : Outbox :=
  ((Outbox.empty.enqueue "owner-token" 0
    [(⟨"chat", .provision, "k2:owner", .null, none, none, "reconcile", some "k2:owner"⟩, "r-1"),
      (⟨"chat", .provision, "k2:agent", .null, none, none, "grant", some "k2:owner"⟩, "r-2"),
      (⟨"chat", .provision, "k2:other", .null, none, none, "grant", some "k2:agent"⟩, "r-3")]).getD
      .empty)

theorem due_heads_progress_waiting :
    ∃ r rest, waitingRows.dueHeads "chat" 0 1 = r :: rest ∧ r ∈ waitingRows.rows.rows ∧ r.tool = "chat" ∧
      r.isDelivered = true ∧ r.state = .pending ∧ ∀ e ∈ waitingRows.rows.rows, e.tool = "chat" →
        e.isDelivered = true → e.state = .pending → r.seq ≤ e.seq :=
  due_heads_progress waitingRows "chat" 0 1 (by decide +kernel) (by decide +kernel) (by decide +kernel)
    le_rfl

/-! ## How an outbox moves on -/

/-- Every row of `o'` is one of `o`, not opened anew, or was inserted later under
    one of `ids`. -/
structure Evolves (ids : List String) (o o' : Outbox) : Prop where
  last : o.lastSeq ≤ o'.lastSeq
  row : ∀ e ∈ o'.rows.rows,
    (∃ r ∈ o.rows.rows, OutboxRow.Same r e ∧ (e.isOpen = true → r.isOpen = true)) ∨
      (o.lastSeq < e.seq ∧ e.id ∈ ids)

theorem Evolves.refl (o : Outbox) : Evolves [] o o :=
  ⟨le_rfl, fun e he => .inl ⟨e, he, ⟨rfl, rfl, rfl, rfl, rfl⟩, id⟩⟩

theorem Evolves.trans {ids ids' : List String} {o o' o'' : Outbox} (first : Evolves ids o o')
    (second : Evolves ids' o' o'') : Evolves (ids ++ ids') o o'' := by
  refine ⟨first.last.trans second.last, fun e he => ?_⟩
  rcases second.row e he with ⟨r, hr, same, opened⟩ | ⟨later, drawn⟩
  · rcases first.row r hr with ⟨x, hx, same', opened'⟩ | ⟨later, drawn⟩
    · exact .inl ⟨x, hx, ⟨same.id.trans same'.id, same.seq.trans same'.seq, same.tool.trans same'.tool,
        same.op.trans same'.op, same.subjectKey.trans same'.subjectKey⟩, fun h => opened' (opened h)⟩
    · exact .inr ⟨by rw [same.seq]; exact later,
        List.mem_append_left _ (by rw [same.id]; exact drawn)⟩
  · exact .inr ⟨lt_of_le_of_lt first.last later, List.mem_append_right _ drawn⟩

theorem update_evolves (o : Outbox) (p : OutboxRow → Bool) (f : OutboxRow → OutboxRow)
    (keeps : ∀ r, OutboxRow.Same r (f r))
    (opens : ∀ r, p r = true → (f r).isOpen = true → r.isOpen = true) :
    Evolves [] o (o.update p f keeps) := by
  refine ⟨le_rfl, fun e he => ?_⟩
  obtain ⟨r, hr, rfl⟩ := mem_update.mp he
  refine .inl ⟨r, hr, ?_⟩
  split
  · rename_i chosen
    exact ⟨keeps r, opens r chosen⟩
  · exact ⟨⟨rfl, rfl, rfl, rfl, rfl⟩, id⟩

theorem insert_evolves {o o' : Outbox} {row : Nat → OutboxRow} {seq : ∀ n, (row n).seq = n}
    (inserted : insert o row seq = some o') : Evolves [(row (o.lastSeq + 1)).id] o o' := by
  simp only [insert] at inserted
  split at inserted
  · cases inserted
  · cases inserted
    refine ⟨Nat.le_succ _, fun e he => ?_⟩
    rcases (KeyedTable.mem_upsert _ _ _).mp he with rfl | ⟨old, -⟩
    · refine .inr ⟨?_, List.mem_singleton.mpr rfl⟩
      rw [seq]
      exact Nat.lt_succ_self _
    · exact .inl ⟨e, old, ⟨rfl, rfl, rfl, rfl, rfl⟩, id⟩

theorem supersede_evolves (o : Outbox) (op : NewOp) (now : Int) : Evolves [] o (o.supersede op now) := by
  simp only [supersede]
  split
  · exact update_evolves _ _ _ _ fun r _ opened => by simp [OutboxRow.isOpen] at opened
  · exact Evolves.refl _

theorem enqueue_evolves {o o' : Outbox} {actor : String} {now : Int} {ops : List (NewOp × String)}
    (enqueued : o.enqueue actor now ops = some o') : Evolves (ops.map (·.2)) o o' := by
  induction ops generalizing o with
  | nil =>
      cases enqueued
      exact .refl _
  | cons op rest ih =>
      simp only [enqueue, Option.bind_eq_bind, Option.bind_eq_some_iff] at enqueued
      obtain ⟨between, inserted, later⟩ := enqueued
      have here := (supersede_evolves o op.1 now).trans (insert_evolves inserted)
      exact here.trans (ih later)

theorem prune_evolves (o : Outbox) (now : Int) : Evolves [] o (o.prune now) :=
  ⟨le_rfl, fun e he => .inl
    ⟨e, ((KeyedTable.mem_deleteWhere _ _ _).mp he).1, ⟨rfl, rfl, rfl, rfl, rfl⟩, id⟩⟩

private theorem get_spec {o : Outbox} {id : String} {row : OutboxRow} (found : o.get id = some row)
    {r : OutboxRow} (member : r ∈ o.rows.rows) (same : r.id = id) : r = row := by
  have here := List.mem_of_find?_eq_some found
  have named : row.id = id := by simpa using List.find?_some found
  exact o.eq_of_id member here (same.trans named.symm)

theorem retry_evolves {o o' : Outbox} {id : String} {now : Int} (retried : o.retry id now = .ok o') :
    Evolves [] o o' := by
  simp only [retry] at retried
  split at retried
  · cases retried
  · rename_i row found
    split at retried
    · rename_i allowed
      cases retried
      refine ⟨le_rfl, fun e he => ?_⟩
      obtain ⟨r, hr, rfl⟩ := mem_update.mp he
      refine .inl ⟨r, hr, ?_⟩
      split
      · rename_i chosen
        have same := get_spec found hr (by simpa using chosen)
        refine ⟨⟨rfl, rfl, rfl, rfl, rfl⟩, fun _ => ?_⟩
        rw [same]
        simp only [OutboxRow.isOpen, decide_eq_true_eq]
        rcases allowed with halts | ⟨waits, -⟩
        · exact .inr halts
        · exact .inl waits
      · exact ⟨⟨rfl, rfl, rfl, rfl, rfl⟩, fun h => h⟩
    · cases retried

theorem skip_evolves {o o' : Outbox} {id : String} {now : Int} (skipped : o.skip id now = .ok o') :
    Evolves [] o o' := by
  simp only [skip] at skipped
  split at skipped
  · cases skipped
  · split at skipped
    · cases skipped
      exact update_evolves _ _ _ _ fun r _ opened => by simp [OutboxRow.isOpen] at opened
    · cases skipped

theorem skipWhere_evolves (o : Outbox) (p : OutboxRow → Bool) (now : Int) (why : String) :
    Evolves [] o (o.skipWhere p now why) :=
  update_evolves _ _ _ _ fun r _ opened => by simp [OutboxRow.isOpen] at opened

theorem retryBlockedPrefix_evolves (o : Outbox) (tool pre : String) (now : Int) :
    Evolves [] o (o.retryBlockedPrefix tool pre now) :=
  update_evolves _ _ _ _ fun r chosen _ => by
    simp only [Bool.and_eq_true, decide_eq_true_eq] at chosen
    simp [OutboxRow.isOpen, chosen.1.2]

/-- `o'` is `o` but for the row under `id`, which keeps its place. -/
structure Touches (id : String) (o o' : Outbox) : Prop where
  last : o'.lastSeq = o.lastSeq
  row : ∀ e ∈ o'.rows.rows, ∃ r ∈ o.rows.rows, OutboxRow.Same r e ∧ (r.id ≠ id → e = r)

theorem update_touches (o : Outbox) (id : String) (p : OutboxRow → Bool) (f : OutboxRow → OutboxRow)
    (keeps : ∀ r, OutboxRow.Same r (f r)) (only : ∀ r, p r = true → r.id = id) :
    Touches id o (o.update p f keeps) := by
  refine ⟨rfl, fun e he => ?_⟩
  obtain ⟨r, hr, rfl⟩ := mem_update.mp he
  refine ⟨r, hr, ?_⟩
  split
  · rename_i chosen
    exact ⟨keeps r, fun other => absurd (only r chosen) other⟩
  · exact ⟨⟨rfl, rfl, rfl, rfl, rfl⟩, fun _ => rfl⟩

theorem mark_touches (o : Outbox) (id : String) (now : Int) (m : Mark) :
    Touches id o (o.mark id now m) := by
  have named : ∀ r : OutboxRow, decide (r.id = id) = true → r.id = id := by simp
  cases m <;> simp only [mark, markDone, markFilled, markHeld, markRetry, markBlocked, rewritePayload]
  case done status result => exact update_touches _ _ _ _ _ named
  case filled payload =>
      refine update_touches _ _ _ _ _ fun r chosen => ?_
      simp only [Bool.and_eq_true, decide_eq_true_eq] at chosen
      exact chosen.1
  case held status result error => exact update_touches _ _ _ _ _ named
  case retry status error nextAt => exact update_touches _ _ _ _ _ named
  case blocked status error => exact update_touches _ _ _ _ _ named
  case rewrite payload idemKey status => exact update_touches _ _ _ _ _ named

end Outbox

/-! ## Runs -/

/-- What writers and owners do to an outbox. -/
inductive Act where
  | retry (id : String) (now : Int)
  | skip (id : String) (now : Int)
  | skipBlockedSubject (tool subject : String) (now : Int) (why : String)
  | skipOpenPrefix (tool pre : String) (now : Int) (why : String)
  | retryBlockedPrefix (tool pre : String) (now : Int)
  | skipOpenRows (tool : String) (now : Int) (why : String)
  | prune (now : Int)

/-- The outbox after an act; a refused one changes nothing. -/
def Act.apply (o : Outbox) : Act → Outbox
  | .retry id now => (o.retry id now).toOption.getD o
  | .skip id now => (o.skip id now).toOption.getD o
  | .skipBlockedSubject tool subject now why => o.skipBlockedSubject tool subject now why
  | .skipOpenPrefix tool pre now why => o.skipOpenPrefix tool pre now why
  | .retryBlockedPrefix tool pre now => o.retryBlockedPrefix tool pre now
  | .skipOpenRows tool now why => o.skipOpenRows tool now why
  | .prune now => o.prune now

theorem act_evolves (o : Outbox) (a : Act) : Evolves [] o (a.apply o) := by
  cases a with
  | retry id now =>
      simp only [Act.apply]
      cases answer : o.retry id now with
      | error e => exact .refl o
      | ok o' => exact retry_evolves answer
  | skip id now =>
      simp only [Act.apply]
      cases answer : o.skip id now with
      | error e => exact .refl o
      | ok o' => exact skip_evolves answer
  | skipBlockedSubject tool subject now why => exact skipWhere_evolves ..
  | skipOpenPrefix tool pre now why => exact skipWhere_evolves ..
  | retryBlockedPrefix tool pre now => exact retryBlockedPrefix_evolves ..
  | skipOpenRows tool now why => exact skipWhere_evolves ..
  | prune now => exact prune_evolves o now

/-- An outbox and its worker. -/
structure Delivery where
  outbox : Outbox
  /-- What the last `dueHeads` of each tool returned: the rows of its pass. -/
  handed : String → List OutboxRow
  /-- The row ids drawn so far. -/
  drawn : List String

namespace Delivery

/-- The worker asks for a tool's due rows. -/
def ask (d : Delivery) (tool : String) (now : Int) (limit : Nat) : Delivery :=
  { d with handed := Function.update d.handed tool (d.outbox.dueHeads tool now limit) }

/-- The worker records an answer. -/
def answer (d : Delivery) (id : String) (now : Int) (m : Mark) : Delivery :=
  { d with outbox := d.outbox.mark id now m }

/-- The rows a mark moves to `done`. -/
def doneBy (d : Delivery) (id : String) : Mark → List OutboxRow
  | .done .. => d.outbox.rows.rows.filter (·.id = id)
  | _ => []

end Delivery

/-- The deliveries reached from an outbox, with the rows that reached `done` on
    the way, in order. Row ids are v4 UUIDs, no one of which is drawn twice. -/
inductive Reaches (start : Outbox) : List OutboxRow → Delivery → Prop where
  | start : Reaches start [] ⟨start, fun _ => [], start.rows.rows.map OutboxRow.id⟩
  | enqueue {log d} (actor : String) (now : Int) (ops : List (NewOp × String)) (outbox : Outbox)
      (reached : Reaches start log d) (new : ∀ op ∈ ops, op.2 ∉ d.drawn)
      (enqueued : d.outbox.enqueue actor now ops = some outbox) :
      Reaches start log { d with outbox, drawn := d.drawn ++ ops.map (·.2) }
  | act {log d} (a : Act) (reached : Reaches start log d) :
      Reaches start log { d with outbox := a.apply d.outbox }
  | due {log d} (tool : String) (now : Int) (limit : Nat) (reached : Reaches start log d) :
      Reaches start log (d.ask tool now limit)
  | mark {log d} (tool : String) (r : OutboxRow) (m : Mark) (now : Int)
      (reached : Reaches start log d) (given : r ∈ d.handed tool) :
      Reaches start (log ++ d.doneBy r.id m) (d.answer r.id now m)

/-! ## What a run keeps -/

/-- Nothing of `r`'s queue before `r` is open or still to be answered for. -/
def Delivery.Passed (d : Delivery) (r : OutboxRow) : Prop :=
  ∀ e ∈ d.outbox.rows.rows, r.sameQueue e → e.isDelivered = true → e.seq < r.seq →
    e.isOpen = false ∧ ∀ given ∈ d.handed e.tool, given.id ≠ e.id

/-- A row handed to the worker. -/
structure Delivery.Given (d : Delivery) (tool : String) (r : OutboxRow) : Prop where
  tool : r.tool = tool
  delivered : r.isDelivered = true
  last : r.seq ≤ d.outbox.lastSeq
  drawn : r.id ∈ d.drawn
  same : ∀ e ∈ d.outbox.rows.rows, e.id = r.id → OutboxRow.Same r e
  passed : d.Passed r

/-- The invariant of a run whose `done` rows are `log`. -/
structure Delivery.Sound (log : List OutboxRow) (d : Delivery) : Prop where
  ids : ∀ e ∈ d.outbox.rows.rows, e.id ∈ d.drawn
  given : ∀ tool, ∀ r ∈ d.handed tool, d.Given tool r
  last : ∀ r ∈ log, r.seq ≤ d.outbox.lastSeq
  passed : ∀ r ∈ log, d.Passed r
  ordered : log.Pairwise fun a b => a.sameQueue b → a.seq ≤ b.seq

namespace OutboxRow.Same

theorem trans {r s t : OutboxRow} (first : Same r s) (second : Same s t) : Same r t :=
  ⟨second.id.trans first.id, second.seq.trans first.seq, second.tool.trans first.tool,
    second.op.trans first.op, second.subjectKey.trans first.subjectKey⟩

theorem isDelivered {r e : OutboxRow} (same : Same r e) : e.isDelivered = r.isDelivered := by
  simp only [OutboxRow.isDelivered, same.op]

theorem sameQueue {r e x : OutboxRow} (same : Same r e) (queue : x.sameQueue e) : x.sameQueue r :=
  ⟨queue.1.trans same.tool, queue.2.trans same.subjectKey⟩

end OutboxRow.Same

namespace Delivery

theorem Passed.of_same {d : Delivery} {r x : OutboxRow} (passed : d.Passed r)
    (same : OutboxRow.Same r x) : d.Passed x := by
  intro e member queue delivered before
  rw [same.seq] at before
  exact passed e member ⟨same.tool.symm.trans queue.1, same.subjectKey.symm.trans queue.2⟩ delivered
    before

/-! ### Writers and owners -/

section Evolves

variable {d : Delivery} {o' : Outbox} {ids : List String} {drawn : List String}

theorem Passed.evolves (moved : Evolves ids d.outbox o') {r : OutboxRow} (passed : d.Passed r)
    (last : r.seq ≤ d.outbox.lastSeq) : Passed { d with outbox := o', drawn } r := by
  intro e member queue delivered before
  rcases moved.row e member with ⟨x, hx, same, opened⟩ | ⟨later, -⟩
  · have closed := passed x hx (same.sameQueue queue) (same.isDelivered ▸ delivered)
      (same.seq ▸ before)
    constructor
    · by_contra still
      have := opened (by simpa using still)
      rw [closed.1] at this
      cases this
    · intro given handed
      rw [same.id]
      exact closed.2 given (same.tool ▸ handed)
  · omega

theorem Sound.evolves {log : List OutboxRow} (sound : Sound log d) (moved : Evolves ids d.outbox o')
    (new : ∀ id ∈ ids, id ∉ d.drawn) :
    Sound log { d with outbox := o', drawn := d.drawn ++ ids } where
  ids := by
    intro e member
    rcases moved.row e member with ⟨x, hx, same, -⟩ | ⟨-, drawn⟩
    · exact List.mem_append_left _ (same.id ▸ sound.ids x hx)
    · exact List.mem_append_right _ drawn
  given := by
    intro tool r handed
    have given := sound.given tool r handed
    refine ⟨given.tool, given.delivered, given.last.trans moved.last,
      List.mem_append_left _ given.drawn, ?_, given.passed.evolves moved given.last⟩
    intro e member named
    rcases moved.row e member with ⟨x, hx, same, -⟩ | ⟨-, drawn⟩
    · exact (given.same x hx (same.id ▸ named)).trans same
    · exact absurd given.drawn (new _ (named ▸ drawn))
  last := fun r done => (sound.last r done).trans moved.last
  passed := fun r done => (sound.passed r done).evolves moved (sound.last r done)
  ordered := sound.ordered

end Evolves

/-! ### The worker asks -/

section Due

variable {d : Delivery} {tool : String} {now : Int} {limit : Nat}

theorem isOpen_of_due {o : Outbox} {given e : OutboxRow} (due : given ∈ o.dueHeads tool now limit)
    (member : e ∈ o.rows.rows) (named : given.id = e.id) : e.isOpen = true := by
  have head := head_of_mem due
  rw [← o.eq_of_id head.member member named]
  exact head.isOpen

theorem Passed.due {r : OutboxRow} (passed : d.Passed r) :
    (d.ask tool now limit).Passed r := by
  intro e member queue delivered before
  obtain ⟨closed, free⟩ := passed e member queue delivered before
  refine ⟨closed, fun given handed named => ?_⟩
  by_cases here : e.tool = tool
  · simp only [ask, here, Function.update_self] at handed
    simp [isOpen_of_due handed member named] at closed
  · simp only [ask, Function.update_of_ne here] at handed
    exact free given handed named

theorem passed_of_head {r : OutboxRow} (head : Head d.outbox tool now r) :
    (d.ask tool now limit).Passed r := by
  intro e member queue delivered before
  have closed : e.isOpen = false := by
    by_contra opened
    have := head.first e member queue.1.symm queue.2.symm (by simpa using opened) delivered
    omega
  refine ⟨closed, fun given handed named => ?_⟩
  simp only [ask, ← queue.1, head.tool, Function.update_self] at handed
  simp [isOpen_of_due handed member named] at closed

theorem Sound.due {log : List OutboxRow} (sound : Sound log d) :
    Sound log (d.ask tool now limit) where
  ids := sound.ids
  given := by
    intro asked r handed
    by_cases here : asked = tool
    · subst here
      simp only [ask, Function.update_self] at handed
      have head := head_of_mem handed
      refine ⟨head.tool, head.delivered, d.outbox.seq_le r head.member, sound.ids r head.member, ?_,
        passed_of_head head⟩
      intro e member named
      rw [d.outbox.eq_of_id member head.member named]
      exact ⟨rfl, rfl, rfl, rfl, rfl⟩
    · simp only [ask, Function.update_of_ne here] at handed
      have given := sound.given asked r handed
      exact ⟨given.tool, given.delivered, given.last, given.drawn, given.same, given.passed.due⟩
  last := sound.last
  passed := fun r done => (sound.passed r done).due
  ordered := sound.ordered

end Due

/-! ### The worker answers -/

section Mark

variable {d : Delivery} {log : List OutboxRow} {tool : String} {r : OutboxRow} {o' : Outbox}

theorem Passed.touches (sound : Sound log d) (handed : r ∈ d.handed tool)
    (moved : Touches r.id d.outbox o') {x : OutboxRow} (passed : d.Passed x) :
    Passed { d with outbox := o' } x := by
  intro e member queue delivered before
  obtain ⟨e', member', same, kept⟩ := moved.row e member
  have given := sound.given tool r handed
  have closed := passed e' member' (same.sameQueue queue) (same.isDelivered ▸ delivered)
    (same.seq ▸ before)
  have other : e'.id ≠ r.id := by
    intro named
    refine closed.2 r ?_ named.symm
    rw [(given.same e' member' named).tool, given.tool]
    exact handed
  rw [kept other]
  exact closed

theorem mem_doneBy {id : String} {m : Mark} {x : OutboxRow} (member : x ∈ d.doneBy id m) :
    x ∈ d.outbox.rows.rows ∧ x.id = id := by
  cases m with
  | done status result => simpa [doneBy] using member
  | _ => cases member

theorem Sound.mark (sound : Sound log d) (handed : r ∈ d.handed tool) (m : Mark) (now : Int) :
    Sound (log ++ d.doneBy r.id m) (d.answer r.id now m) := by
  have moved := mark_touches d.outbox r.id now m
  have given := sound.given tool r handed
  have same : ∀ x ∈ d.doneBy r.id m, OutboxRow.Same r x := fun x done =>
    given.same x (mem_doneBy done).1 (mem_doneBy done).2
  constructor
  · intro e member
    obtain ⟨e', member', same, -⟩ := moved.row e member
    exact same.id ▸ sound.ids e' member'
  · intro asked g handed'
    have given' := sound.given asked g handed'
    refine ⟨given'.tool, given'.delivered, moved.last ▸ given'.last, given'.drawn, ?_,
      given'.passed.touches sound handed moved⟩
    intro e member named
    obtain ⟨e', member', same, -⟩ := moved.row e member
    exact (given'.same e' member' (same.id ▸ named)).trans same
  · intro x done
    simp only [answer, moved.last]
    rcases List.mem_append.mp done with old | new
    · exact sound.last x old
    · exact d.outbox.seq_le x (mem_doneBy new).1
  · intro x done
    rcases List.mem_append.mp done with old | new
    · exact (sound.passed x old).touches sound handed moved
    · exact (given.passed.of_same (same x new)).touches sound handed moved
  · refine List.pairwise_append.mpr ⟨sound.ordered, ?_, ?_⟩
    · refine List.pairwise_of_forall_mem_list fun x hx y hy _ => ?_
      rw [(same x hx).seq, (same y hy).seq]
    · intro x hx y hy queue
      by_contra before
      -- `y` is handed out, so no row that was done comes after it in its queue.
      have member := (mem_doneBy hy).1
      have free := (sound.passed x hx y member queue ((same y hy).isDelivered ▸ given.delivered)
        (by omega)).2
      refine free r ?_ (same y hy).id.symm
      rw [(same y hy).tool, given.tool]
      exact handed

end Mark

theorem sound_of_reaches {start : Outbox} {log : List OutboxRow} {d : Delivery}
    (reached : Reaches start log d) : Sound log d := by
  induction reached with
  | start =>
      refine ⟨fun e member => List.mem_map_of_mem member, ?_, ?_, ?_, .nil⟩
      · intro tool r handed
        cases handed
      · intro r done
        cases done
      · intro r done
        cases done
  | enqueue actor now ops outbox _ new enqueued sound =>
      refine sound.evolves (enqueue_evolves enqueued) ?_
      intro id drawn
      obtain ⟨op, listed, rfl⟩ := List.mem_map.mp drawn
      exact new op listed
  | act a _ sound =>
      simpa using sound.evolves (act_evolves _ a) (by simp)
  | due tool now limit _ sound => exact sound.due
  | mark tool r m now _ handed sound => exact sound.mark handed m now

end Delivery

/-- In every run a due row is the head of its queue and of what it comes after, so
    at most one row of a queue is due, and the rows of a queue that reach `done`
    do so in `seq` order. -/
theorem delivered_in_order {start : Outbox} {log : List OutboxRow} {d : Delivery}
    (reached : Reaches start log d) :
    (∀ tool now limit, ∀ r ∈ d.outbox.dueHeads tool now limit,
      (∀ e ∈ d.outbox.rows.rows, r.sameQueue e → e.isDelivered = true →
        (e.state = .pending ∨ e.state = .blocked) → ¬ e.seq < r.seq) ∧
      (∀ e ∈ d.outbox.rows.rows, e.tool = r.tool → r.afterSubject = some e.subjectKey →
        e.isDelivered = true → (e.state = .pending ∨ e.state = .blocked) → ¬ e.seq < r.seq)) ∧
    (∀ tool now limit, (d.outbox.dueHeads tool now limit).Pairwise fun a b => ¬ a.sameQueue b) ∧
    log.Pairwise fun a b => a.sameQueue b → a.seq ≤ b.seq := by
  refine ⟨?_, ?_, (Delivery.sound_of_reaches reached).ordered⟩
  · intro tool now limit r due
    have head := head_of_mem due
    constructor
    · intro e member queue delivered opened
      exact not_lt.mpr (head.first e member queue.1.symm queue.2.symm
        (by simpa [OutboxRow.isOpen] using opened) delivered)
    · intro e member here comes delivered opened
      exact not_lt.mpr (head.after e member here comes.symm
        (by simpa [OutboxRow.isOpen] using opened) delivered)
  · intro tool now limit
    refine (dueHeads_nodup d.outbox tool now limit).imp_of_mem ?_
    intro a b ha hb other queue
    exact other ((head_of_mem ha).unique (head_of_mem hb) queue.2)

/-- Two rows of one queue. -/
def twoRows : Outbox :=
  ((Outbox.empty.enqueue "owner-token" 0
    [(⟨"chat", .provision, "k2:ann", .null, none, none, "reconcile", none⟩, "r-1"),
      (⟨"chat", .spaceMemberAdd, "k2:ann", .null, none, none, "reconcile", none⟩, "r-2")]).getD .empty)

/-- The worker with `twoRows`, and after it was done with the first and the second. -/
def begun : Delivery := ⟨twoRows, fun _ => [], ["r-1", "r-2"]⟩

def firstDone : Delivery := (begun.ask "chat" 0 5).answer "r-1" 1 (.done 200 none)

def bothDone : Delivery := (firstDone.ask "chat" 1 5).answer "r-2" 2 (.done 200 none)

theorem delivered_in_order_two_rows : ∃ log, log.map OutboxRow.id = ["r-1", "r-2"] ∧
    Reaches .empty log bothDone ∧ log.Pairwise fun a b => a.sameQueue b → a.seq ≤ b.seq := by
  have enqueued : Reaches .empty [] begun :=
    .enqueue "owner-token" 0
      [(⟨"chat", .provision, "k2:ann", .null, none, none, "reconcile", none⟩, "r-1"),
        (⟨"chat", .spaceMemberAdd, "k2:ann", .null, none, none, "reconcile", none⟩, "r-2")]
      twoRows .start (by simp [Outbox.empty, KeyedTable.empty]) (by rfl)
  have first := Reaches.mark "chat" _ (.done 200 none) 1
    (.due "chat" 0 5 enqueued) (List.mem_singleton.mpr rfl)
  have second := Reaches.mark "chat" _ (.done 200 none) 2
    (.due "chat" 1 5 first) (List.mem_singleton.mpr rfl)
  exact ⟨_, rfl, second, (delivered_in_order second).2.2⟩

end K2.ToolHook
