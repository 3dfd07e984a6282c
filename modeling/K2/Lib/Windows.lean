import Mathlib.Algebra.BigOperators.Fin
import Mathlib.Algebra.Order.BigOperators.Group.Multiset
import Mathlib.Algebra.Order.Group.Unbundled.Int
import Mathlib.Data.Fintype.Basic
import Mathlib.Data.Int.ModEq
import Mathlib.Data.List.DropRight
import Mathlib.Data.List.Sort
import Mathlib.Order.Lattice
import Mathlib.Tactic.Abel

/-! # Windows over a stream

What may be forgotten of a stream while a window of it is still answered for. -/

/-! ## Sliding windows with bounded memory

Hits are recorded at times that never go back. A queue that drops what has left
the window, and is cut to its newest entries now and then, still counts as many
hits in the window as were ever recorded there, up to what it keeps. -/

/-- Which times lie in the window that ends at a time. Later times stay longer,
    and what has left the window never returns. -/
structure SlidingWindow (τ : Type*) [LinearOrder τ] where
  live : τ → τ → Bool
  later : ∀ {now t t' : τ}, t ≤ t' → live now t → live now t'
  gone : ∀ {now now' t : τ}, now ≤ now' → live now' t → live now t

namespace SlidingWindow

/-! ## The newest entries -/

section
variable {α : Type*}

theorem rtake_append (n : Nat) (a b : List α) : (a.rtake n ++ b).rtake n = (a ++ b).rtake n := by
  simp only [List.rtake_eq_reverse_take_reverse, List.reverse_append, List.reverse_reverse, List.take_append,
    List.take_take]
  rw [Nat.min_eq_left (Nat.sub_le ..)]

theorem rtake_of_length_le {n : Nat} {l : List α} (short : l.length ≤ n) : l.rtake n = l := by
  rw [List.rtake, Nat.sub_eq_zero_of_le short, List.drop_zero]

theorem length_rtake (n : Nat) (l : List α) : (l.rtake n).length = min n l.length := by
  rw [List.rtake, List.length_drop]
  omega

theorem rtake_suffix (n : Nat) (l : List α) : l.rtake n <:+ l := List.drop_suffix ..

theorem rtake_cons_of_le {n : Nat} {l : List α} (enough : n ≤ l.length) (a : α) : (a :: l).rtake n = l.rtake n := by
  rw [List.rtake, List.length_cons, Nat.succ_sub enough, List.drop_succ_cons, List.rtake]

end

variable {τ : Type*} [LinearOrder τ] (W : SlidingWindow τ)

/-- The hits in the window, of all that were recorded. -/
def inside (now : τ) (hits : List τ) : List τ := hits.filter (W.live now)

/-- Drops expired hits from the front. -/
def prune (now : τ) (queue : List τ) : List τ := queue.dropWhile fun t => !W.live now t

theorem prune_suffix (now : τ) (queue : List τ) : W.prune now queue <:+ queue := List.dropWhile_suffix _

/-- In a queue in order of time nothing behind a live hit has expired. -/
theorem prune_eq_inside {queue : List τ} (sorted : queue.Pairwise (· ≤ ·)) (now : τ) :
    W.prune now queue = W.inside now queue := by
  induction queue with
  | nil => rfl
  | cons t rest ih =>
    obtain ⟨first, sorted⟩ := List.pairwise_cons.mp sorted
    cases alive : W.live now t with
    | false =>
      rw [prune, List.dropWhile_cons_of_pos (by rw [alive]; rfl), inside, List.filter_cons_of_neg (by simp [alive])]
      exact ih sorted
    | true =>
      have all : ∀ t' ∈ t :: rest, W.live now t' = true :=
        List.forall_mem_cons.mpr ⟨alive, fun t' mem => W.later (first t' mem) alive⟩
      rw [prune, List.dropWhile_cons_of_neg (by simp [alive]), inside, List.filter_eq_self.mpr all]

theorem inside_inside {now now' : τ} (later : now ≤ now') (hits : List τ) :
    W.inside now' (W.inside now hits) = W.inside now' hits := by
  rw [inside, inside, List.filter_filter]
  refine List.filter_congr fun t _ => ?_
  cases alive : W.live now' t with
  | false => rfl
  | true => rw [W.gone later alive]; rfl

theorem inside_rtake {hits : List τ} (sorted : hits.Pairwise (· ≤ ·)) (now : τ) (n : Nat) :
    W.inside now (hits.rtake n) = (W.inside now hits).rtake n := by
  induction hits with
  | nil => simp [inside]
  | cons t rest ih =>
    obtain ⟨first, sorted'⟩ := List.pairwise_cons.mp sorted
    by_cases enough : n ≤ rest.length
    · rw [rtake_cons_of_le enough, ih sorted']
      cases alive : W.live now t with
      | false => rw [inside, inside, List.filter_cons_of_neg (by simp [alive])]
      | true =>
        have all : ∀ t' ∈ rest, W.live now t' = true := fun t' mem => W.later (first t' mem) alive
        rw [inside, inside, List.filter_cons_of_pos alive, List.filter_eq_self.mpr all, rtake_cons_of_le enough]
    · have whole : (t :: rest).rtake n = t :: rest := rtake_of_length_le (by rw [List.length_cons]; omega)
      have few := List.length_filter_le (W.live now) (t :: rest)
      rw [whole, rtake_of_length_le]
      rw [inside]
      rw [List.length_cons] at few
      omega

/-! ## Queues that know enough -/

/-- From `clock` on the queue shows the newest `keep` of the hits in the window. -/
structure Tracks (keep : Nat) (clock : τ) (hits queue : List τ) : Prop where
  sorted : queue.Pairwise (· ≤ ·)
  shows : ∀ now, clock ≤ now → W.inside now queue = (W.inside now hits).rtake keep

variable {W} {keep : Nat} {clock now : τ} {hits queue : List τ}

theorem tracks_nil : W.Tracks keep clock [] [] :=
  ⟨List.Pairwise.nil, fun _ _ => (List.rtake_nil _).symm⟩

theorem Tracks.later (h : W.Tracks keep clock hits queue) (later : clock ≤ now) : W.Tracks keep now hits queue :=
  ⟨h.sorted, fun now' after => h.shows now' (later.trans after)⟩

theorem Tracks.prune (h : W.Tracks keep clock hits queue) (later : clock ≤ now) :
    W.Tracks keep now hits (W.prune now queue) := by
  refine ⟨h.sorted.sublist (W.prune_suffix now queue).sublist, fun now' after => ?_⟩
  rw [W.prune_eq_inside h.sorted, W.inside_inside after]
  exact h.shows now' (later.trans after)

theorem Tracks.record (h : W.Tracks keep clock hits queue) (later : clock ≤ now) (past : ∀ t ∈ queue, t ≤ now) :
    W.Tracks keep now (hits ++ [now]) ((queue ++ [now]).rtake keep) := by
  have sorted : (queue ++ [now]).Pairwise (· ≤ ·) := by
    refine List.pairwise_append.mpr ⟨h.sorted, List.pairwise_singleton .., fun t mem t' same => ?_⟩
    rw [List.mem_singleton.mp same]
    exact past t mem
  refine ⟨sorted.sublist (rtake_suffix ..).sublist, fun now' after => ?_⟩
  rw [W.inside_rtake sorted]
  have split : ∀ l : List τ, W.inside now' (l ++ [now]) = W.inside now' l ++ W.inside now' [now] :=
    fun l => List.filter_append ..
  rw [split, split, h.shows now' (later.trans after), rtake_append]

/-- A queue in which every hit is live counts the hits in the window, up to
    what it keeps. -/
theorem Tracks.length (h : W.Tracks keep clock hits queue) (fresh : W.inside clock queue = queue) :
    queue.length = min keep (W.inside clock hits).length := by
  rw [← length_rtake, ← h.shows clock (le_refl clock), fresh]

theorem inside_prune (W : SlidingWindow τ) (sorted : queue.Pairwise (· ≤ ·)) (now : τ) :
    W.inside now (W.prune now queue) = W.prune now queue := by
  rw [W.prune_eq_inside sorted, W.inside_inside (le_refl now)]

end SlidingWindow

/-! ## The last ids seen

A queue of the newest distinct ids refuses an id it holds. Over a whole history
of admissions, equal ids then stand far apart. -/

namespace Recent

variable {ι : Type*} {cap : Nat} {history : List ι} {x : ι}

/-- Equal ids stand more than `cap` places apart. -/
def Spaced (cap : Nat) (history : List ι) : Prop :=
  ∀ i j x, i < j → history[i]? = some x → history[j]? = some x → i + cap < j

/-- `x` joins the ids of the queue, the oldest dropped beyond `cap`. -/
def remember [DecidableEq ι] (cap : Nat) (queue : List ι) (x : ι) : List ι :=
  if x ∈ queue then queue else (queue ++ [x]).rtake cap

theorem remember_new [DecidableEq ι] (new : x ∉ history.rtake cap) :
    remember cap (history.rtake cap) x = (history ++ [x]).rtake cap := by
  simp [remember, new, SlidingWindow.rtake_append]

theorem mem_rtake {n : Nat} (mem : x ∈ history.rtake n) : x ∈ history :=
  (SlidingWindow.rtake_suffix n history).subset mem

theorem spaced_nil : Spaced cap ([] : List ι) := by simp [Spaced]

theorem Spaced.snoc (spaced : Spaced cap history) (new : x ∉ history.rtake cap) : Spaced cap (history ++ [x]) := by
  intro i j y before here there
  obtain ⟨inside, -⟩ := List.getElem?_eq_some_iff.mp there
  simp only [List.length_append, List.length_singleton] at inside
  have early : i < history.length := by omega
  rw [List.getElem?_append_left early] at here
  by_cases last : j < history.length
  · rw [List.getElem?_append_left last] at there
    exact spaced i j y before here there
  · obtain rfl : j = history.length := by omega
    obtain rfl : x = y := by simpa using there
    by_contra near
    refine new (List.mem_of_getElem? (i := i - (history.length - cap)) ?_)
    rw [List.rtake, List.getElem?_drop, ← here]
    congr 1
    omega

end Recent

/-! ## The oldest out

A collection with a bound drops its oldest entries, known by their keys, when it
has grown beyond it. -/

namespace Bounded

variable {α κ : Type*} [DecidableEq κ] (r : α → α → Prop) [DecidableRel r] (key : α → κ) (cap : Nat) (entries : List α)

/-- The oldest beyond the cap. -/
def excess : List α := (entries.insertionSort r).take (entries.length - cap)

def keep : List α := entries.filter fun x => key x ∉ (excess r cap entries).map key

variable {r key cap entries}

theorem mem_excess {x : α} (mem : x ∈ excess r cap entries) : x ∈ entries :=
  (List.mem_insertionSort r).mp (List.mem_of_mem_take mem)

theorem mem_keep {x : α} : x ∈ keep r key cap entries ↔ x ∈ entries ∧ ∀ g ∈ excess r cap entries, key g ≠ key x := by
  simp [keep]

theorem keep_distinct (distinct : (entries.map key).Nodup) : ((keep r key cap entries).map key).Nodup :=
  (List.filter_sublist.map _).nodup distinct

/-- However many there were, at most the cap stays. -/
theorem keep_length (distinct : (entries.map key).Nodup) : (keep r key cap entries).length ≤ cap := by
  have sorted : (entries.insertionSort r).Perm entries := List.perm_insertionSort r entries
  have gone : (excess r cap entries).Nodup :=
    (List.take_sublist ..).nodup (sorted.nodup_iff.mpr (List.Nodup.of_map _ distinct))
  have split := List.length_eq_length_filter_add (l := entries) fun x => decide (key x ∉ (excess r cap entries).map key)
  have many : (excess r cap entries).length ≤ (entries.filter fun x => !decide (key x ∉ (excess r cap entries).map key)).length := by
    apply (gone.subperm _).length_le
    intro x mem
    simpa using ⟨mem_excess mem, x, mem, rfl⟩
  have count : (excess r cap entries).length = entries.length - cap := by simp [excess]
  unfold keep
  omega

end Bounded

/-! ## Rings of numbered entries

Entries kept in a ring at the place of their number. Within a window as long as the
ring each number has a place of its own.
-/

namespace K2.SeqRing

section Place

variable {n : Nat} [NeZero n] {a b lo : Int}

theorem cast_pos (n : Nat) [NeZero n] : (0 : Int) < n := Int.natCast_pos.mpr (Nat.pos_of_ne_zero (NeZero.ne n))

/-- The place of a number. -/
def place (n : Nat) [NeZero n] (k : Int) : Fin n :=
  ⟨(k % n).toNat, by
    have := Int.emod_nonneg k (cast_pos n).ne'
    have := Int.emod_lt_of_pos k (cast_pos n)
    omega⟩

theorem place_eq_iff : place n a = place n b ↔ a % n = b % n := by
  have := Int.emod_nonneg a (cast_pos n).ne'
  have := Int.emod_nonneg b (cast_pos n).ne'
  rw [place, place, Fin.mk.injEq]
  omega

theorem place_inj (low_a : lo ≤ a) (high_a : a < lo + n) (low_b : lo ≤ b) (high_b : b < lo + n)
    (same : place n a = place n b) : a = b := by
  have divides : (n : Int) ∣ b - a := (show a ≡ b [ZMOD n] from place_eq_iff.mp same).dvd
  have none_between := Int.eq_zero_of_abs_lt_dvd divides (abs_lt.mpr ⟨by omega, by omega⟩)
  omega

end Place

/-! ## Entries -/

variable {n : Nat} {β : Type} {slots : Fin n → Option β}

/-- What the ring holds. -/
def holding (slots : Fin n → Option β) : Multiset β := ∑ i, (slots i).elim 0 fun b => {b}

@[simp] theorem holding_empty : holding (fun _ : Fin n => (none : Option β)) = 0 := by simp [holding]

/-- One place changes. -/
theorem holding_update (slots : Fin n → Option β) (i : Fin n) (new : Option β) :
    holding (Function.update slots i new) + ((slots i).elim 0 fun b => {b}) =
      holding slots + (new.elim 0 fun b => {b}) := by
  have rest : ∀ c : Option β, holding (Function.update slots i c) =
      (c.elim 0 fun b => {b}) + ∑ j ∈ Finset.univ \ {i}, (slots j).elim 0 fun b => {b} := by
    intro c
    have moved : (fun j => (Function.update slots i c j).elim 0 fun b : β => ({b} : Multiset β)) =
        Function.update (fun j => (slots j).elim 0 fun b => {b}) i (c.elim 0 fun b => {b}) := by
      funext j
      by_cases own : j = i
      · subst own
        simp
      · simp [own]
    rw [holding, moved, Finset.sum_update_of_mem (Finset.mem_univ i)]
  have whole := rest (slots i)
  rw [Function.update_eq_self] at whole
  rw [rest new, whole]
  abel

theorem holding_take {i : Fin n} {b : β} (here : slots i = some b) :
    b ::ₘ holding (Function.update slots i none) = holding slots := by
  have change := holding_update slots i none
  rw [here] at change
  simpa [add_comm _ {b}] using change

theorem holding_put {i : Fin n} {b : β} (free : slots i = none) :
    holding (Function.update slots i (some b)) = b ::ₘ holding slots := by
  have change := holding_update slots i (some b)
  rw [free] at change
  simpa [add_comm _ {b}] using change

theorem holding_replace {i : Fin n} {b old : β} (here : slots i = some old) :
    old ::ₘ holding (Function.update slots i (some b)) = b ::ₘ holding slots := by
  have change := holding_update slots i (some b)
  rw [here] at change
  simpa [add_comm _ {b}, add_comm _ {old}] using change

theorem mem_holding {b : β} : b ∈ holding slots ↔ ∃ i, slots i = some b := by
  rw [holding, Multiset.mem_sum]
  constructor
  · rintro ⟨i, -, member⟩
    cases here : slots i with
    | none =>
        rw [here] at member
        cases member
    | some b' =>
        rw [here] at member
        cases Multiset.mem_singleton.mp member
        exact ⟨i, here⟩
  · rintro ⟨i, here⟩
    exact ⟨i, Finset.mem_univ i, by rw [here]; exact Multiset.mem_singleton_self b⟩

/-! ## The window -/

section Window

variable [NeZero n] {num : β → Int} {lo : Int}

/-- The entry of a number, when its place holds that number. -/
def entry (num : β → Int) (slots : Fin n → Option β) (k : Int) : Option β :=
  (slots (place n k)).filter fun b => num b = k

theorem entry_eq_some {k : Int} {b : β} : entry num slots k = some b ↔ slots (place n k) = some b ∧ num b = k := by
  simp [entry, Option.filter_eq_some_iff]

/-- Every entry is at the place of its number, in the window. -/
def Within (num : β → Int) (slots : Fin n → Option β) (lo : Int) : Prop :=
  ∀ i b, slots i = some b → place n (num b) = i ∧ lo ≤ num b ∧ num b < lo + n

theorem within_empty : Within num (fun _ : Fin n => none) lo := nofun

theorem Within.take (within : Within num slots lo) (i : Fin n) : Within num (Function.update slots i none) lo := by
  intro j b here
  by_cases own : j = i
  · subst own
    rw [Function.update_self] at here
    cases here
  · rw [Function.update_of_ne own] at here
    exact within j b here

/-- A window whose first number is not here moves on. -/
theorem Within.pass (within : Within num slots lo) (missing : entry num slots lo = none) :
    Within num slots (lo + 1) := by
  intro i b here
  obtain ⟨own, low, high⟩ := within i b here
  refine ⟨own, ?_, by omega⟩
  have apart : num b ≠ lo := by
    rintro rfl
    rw [entry_eq_some.mpr ⟨own.symm ▸ here, rfl⟩] at missing
    cases missing
  omega

/-- Its first number taken, the window moves on. -/
theorem Within.next (within : Within num slots lo) : Within num (Function.update slots (place n lo) none) (lo + 1) := by
  refine (within.take (place n lo)).pass (Option.eq_none_iff_forall_ne_some.mpr fun b here => ?_)
  rw [entry_eq_some, Function.update_self] at here
  cases here.1

theorem Within.put (within : Within num slots lo) {b : β} (low : lo ≤ num b) (high : num b < lo + n) :
    Within num (Function.update slots (place n (num b)) (some b)) lo := by
  intro j b' here
  by_cases own : j = place n (num b)
  · subst own
    rw [Function.update_self] at here
    cases here
    exact ⟨rfl, low, high⟩
  · rw [Function.update_of_ne own] at here
    exact within j b' here

/-- In a window a place is taken by its own number only. -/
theorem Within.free (within : Within num slots lo) {k : Int} (low : lo ≤ k) (high : k < lo + n)
    (missing : entry num slots k = none) : slots (place n k) = none := by
  cases here : slots (place n k) with
  | none => rfl
  | some b =>
      obtain ⟨own, low', high'⟩ := within _ b here
      have same : num b = k := place_inj low' high' low high own
      rw [entry_eq_some.mpr ⟨here, same⟩] at missing
      cases missing

end Window

end K2.SeqRing
