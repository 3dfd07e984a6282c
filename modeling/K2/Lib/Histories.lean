import Mathlib.Data.Int.Init
import Mathlib.Data.List.Basic
import Mathlib.Data.List.Perm.Basic
import Mathlib.Data.Set.Basic
import Mathlib.Data.Set.Function
import Mathlib.Order.Basic
import Mathlib.Order.Defs.LinearOrder
import Mathlib.Order.Nat

/-! # States told by their history

Registers that keep the newest version, logs that undo, schedules that run on. -/

/-! ## Last writer wins

A register keeps the newest version it was given; versions are compared by a
stamp from a linear order, and one that is not strictly newer is dropped. Where
stamps tell versions apart, what a register ends up with depends only on which
versions it was given, not on their order or how often each came.
-/

namespace LastWriter

variable {α τ : Type*} [LinearOrder τ] (stamp : α → τ)

/-- The register after `x` arrives. -/
def merge (held : Option α) (x : α) : Option α :=
  match held with
  | none => some x
  | some h => if stamp h < stamp x then some x else some h

def mergeAll (held : Option α) (xs : List α) : Option α := xs.foldl (merge stamp) held

theorem mergeAll_append (held : Option α) (xs ys : List α) :
    mergeAll stamp held (xs ++ ys) = mergeAll stamp (mergeAll stamp held xs) ys := List.foldl_append

/-- A version that no other of the list outdates. -/
structure IsNewest (xs : List α) (w : α) : Prop where
  mem : w ∈ xs
  le : ∀ x ∈ xs, stamp x ≤ stamp w

variable {stamp}

theorem IsNewest.of_mem_iff {xs ys : List α} {w : α} (h : IsNewest stamp xs w)
    (same : ∀ x, x ∈ xs ↔ x ∈ ys) : IsNewest stamp ys w :=
  ⟨(same w).mp h.mem, fun x hx => h.le x ((same x).mpr hx)⟩

/-- Where stamps tell the versions apart, there is one newest version. -/
theorem IsNewest.unique {xs : List α} {v w : α} (apart : Set.InjOn stamp {x | x ∈ xs})
    (hv : IsNewest stamp xs v) (hw : IsNewest stamp xs w) : v = w :=
  apart hv.mem hw.mem (le_antisymm (hw.le v hv.mem) (hv.le w hw.mem))

variable (stamp) in
theorem merge_isNewest (held : Option α) (x : α) :
    ∃ w, merge stamp held x = some w ∧ IsNewest stamp (held.toList ++ [x]) w := by
  cases held with
  | none => exact ⟨x, rfl, by simp, by simp⟩
  | some h =>
      by_cases newer : stamp h < stamp x
      · exact ⟨x, by simp [merge, newer], by simp, by simp [newer.le]⟩
      · exact ⟨h, by simp [merge, newer], by simp, by simpa using not_lt.mp newer⟩

variable (stamp) in
/-- What a register holds after any run of versions is the newest of them. -/
theorem mergeAll_isNewest (xs : List α) (held : Option α) (some_given : held.toList ++ xs ≠ []) :
    ∃ w, mergeAll stamp held xs = some w ∧ IsNewest stamp (held.toList ++ xs) w := by
  induction xs generalizing held with
  | nil =>
      cases held with
      | none => simp at some_given
      | some h => exact ⟨h, rfl, by simp, by simp⟩
  | cons x rest ih =>
      obtain ⟨w, merged, newest⟩ := merge_isNewest stamp held x
      obtain ⟨v, total, last⟩ := ih (some w) (by simp)
      refine ⟨v, by rw [mergeAll, List.foldl_cons, merged]; exact total, ?_, fun y hy => ?_⟩
      · rcases List.mem_append.mp last.mem with hv | hv
        · have : v = w := by simpa using hv
          subst this
          have := newest.mem
          simp only [List.mem_append, List.mem_singleton] at this
          simp only [List.mem_append, List.mem_cons]
          tauto
        · simp [hv]
      · have top : stamp w ≤ stamp v := last.le w (by simp)
        simp only [List.mem_append, List.mem_cons] at hy
        rcases hy with hy | rfl | hy
        · exact (newest.le y (by simp [hy])).trans top
        · exact (newest.le y (by simp)).trans top
        · exact last.le y (by simp [hy])

end LastWriter

/-! ## Undo logs

A state goes through revs, one commit each, and the states are not kept. A log
keeps of each commit, for every key it changed, what the key held before. What a
key held after an earlier rev is what its first later entry says it held before,
or what it holds now. A log is pruned from its old end, by dropping entries or by
blanking what they say.
-/

namespace UndoLog

/-- What a commit did to one key. -/
structure Undo (κ ν : Type*) where
  rev : Int
  key : κ
  /-- What the key held before, unless it was blanked. -/
  before : Option ν

variable {κ ν : Type*} {log log' : Set (Undo κ ν)} {past past' : Int → κ → ν} {low low' head r : Int} {k : κ}

/-- From `low` on, a key that a rev changed has an entry at that rev; and what
    entries say is so. -/
structure Explains (log : Set (Undo κ ν)) (past : Int → κ → ν) (low head : Int) : Prop where
  whole : ∀ r k, low ≤ r → r ≤ head → past r k ≠ past (r - 1) k → ∃ u ∈ log, u.rev = r ∧ u.key = k
  known : ∀ u ∈ log, ∀ v, u.before = some v → past (u.rev - 1) u.key = v

/-- A key no rev of a stretch changed holds at its end what it held before it. -/
theorem past_unchanged {r' : Int} (le : r ≤ r') (quiet : ∀ i, r < i → i ≤ r' → past i k = past (i - 1) k) :
    past r' k = past r k := by
  induction r', le using Int.leInduction with
  | base => rfl
  | succ i le ih =>
      have last := quiet (i + 1) (by omega) le_rfl
      rw [Int.add_sub_cancel] at last
      rw [last]
      exact ih fun j above below => quiet j above (by omega)

namespace Explains

/-- A key with no entry in a stretch did not change in it. -/
theorem past_of_quiet (explains : Explains log past low head) {r' : Int} (whole : low ≤ r + 1) (le : r ≤ r')
    (to_head : r' ≤ head) (quiet : ∀ u ∈ log, u.key = k → r < u.rev → r' < u.rev) : past r' k = past r k := by
  refine past_unchanged le fun i above below => ?_
  by_contra changed
  obtain ⟨u, logged, rfl, key⟩ := explains.whole i k (by omega) (by omega) changed
  have := quiet u logged key above
  omega

/-- Where the first later entry says what the key held, that is what it held. -/
theorem past_of_first (explains : Explains log past low head) {u : Undo κ ν} {v : ν} (whole : low ≤ r + 1)
    (logged : u ∈ log) (after : r < u.rev) (to_head : u.rev ≤ head)
    (first : ∀ u' ∈ log, u'.key = u.key → r < u'.rev → u.rev ≤ u'.rev) (told : u.before = some v) :
    past r u.key = v := by
  rw [← explains.known u logged v told]
  refine (explains.past_of_quiet whole (by omega) (by omega) fun u' logged' same after' => ?_).symm
  have := first u' logged' same after'
  omega

/-- A commit logs every key it changes. -/
theorem commit (explains : Explains log past low head) (old : ∀ r ≤ head, past' r = past r)
    (kept : ∀ u ∈ log, u ∈ log')
    (logged : ∀ k, past' (head + 1) k ≠ past head k → ∃ u ∈ log', u.rev = head + 1 ∧ u.key = k)
    (new : ∀ u ∈ log', (u ∈ log ∧ u.rev ≤ head) ∨ (u.rev = head + 1 ∧ u.before = some (past head u.key))) :
    Explains log' past' low (head + 1) where
  whole r k from_low to_head changed := by
    rcases Int.lt_or_le head r with above | below
    · obtain rfl : r = head + 1 := by omega
      rw [Int.add_sub_cancel, old head le_rfl] at changed
      exact logged k changed
    · rw [old r below, old (r - 1) (by omega)] at changed
      obtain ⟨u, there, same⟩ := explains.whole r k from_low below changed
      exact ⟨u, kept u there, same⟩
  known u there v told := by
    rcases new u there with ⟨before, below⟩ | ⟨rev, held⟩
    · rw [old (u.rev - 1) (by omega)]
      exact explains.known u before v told
    · rw [rev, Int.add_sub_cancel, old head le_rfl]
      exact Option.some.inj (held.symm.trans told)

/-- Entries may be dropped below a rev, and blanked anywhere. -/
theorem prune (explains : Explains log past low head) (le : low ≤ low')
    (kept : ∀ u ∈ log, low' ≤ u.rev → ∃ u' ∈ log', u'.rev = u.rev ∧ u'.key = u.key)
    (from_log : ∀ u' ∈ log', u' ∈ log ∨ u'.before = none) : Explains log' past low' head where
  whole r k from_low to_head changed := by
    obtain ⟨u, there, rfl, rfl⟩ := explains.whole r k (le.trans from_low) to_head changed
    exact kept u there from_low
  known u' there v told := by
    rcases from_log u' there with same | blank
    · exact explains.known u' same v told
    · rw [blank] at told
      cases told

end Explains

/-- A test that holds of an initial part of a stretch holds below one rev. -/
theorem exists_cut {P : Int → Prop} (le : low ≤ head + 1)
    (initial : ∀ i j, low ≤ i → i ≤ j → j ≤ head → P j → P i) :
    ∃ cut, low ≤ cut ∧ cut ≤ head + 1 ∧ ∀ i, low ≤ i → i ≤ head → (P i ↔ i < cut) := by
  obtain ⟨n, rfl⟩ : ∃ n, head = n - 1 := ⟨head + 1, by omega⟩
  rw [Int.sub_add_cancel] at le
  induction n, le using Int.leInduction with
  | base => exact ⟨low, le_rfl, by omega, fun i _ _ => by omega⟩
  | succ n le ih =>
      by_cases last : P n
      · refine ⟨n + 1, by omega, by omega, fun i from_low to_n => ?_⟩
        exact ⟨fun _ => by omega, fun _ => initial i n from_low (by omega) (by omega) last⟩
      · obtain ⟨cut, from_low, to_n, below⟩ := ih fun i j from_low le to_n =>
          initial i j from_low le (by omega)
        refine ⟨cut, from_low, by omega, fun i low_le le_n => ?_⟩
        rcases Int.lt_or_eq_of_le (show i ≤ n by omega) with lt | rfl
        · exact below i low_le (by omega)
        · exact ⟨fun holds => absurd holds last, fun _ => by omega⟩

end UndoLog

/-! ## Simulated schedules

Some jobs run, each to its end, if that is known. Time moves on, what is over
leaves, and a rule says which job may be added beside those that run. A limit
that the rule keeps at every addition, and that holds of any part of a list it
holds of, is kept at every instant from the first addition in its scope on.
-/

namespace Timeline

variable {α : Type*} (ends : α → Option Nat) (allowed : List α → α → Prop)

/-- What still runs at `t`. -/
def still (t : Nat) (run : List α) : List α := run.filter fun x => (ends x).all (· > t)

/-- From `now` on, beside `run`: what is added, and when. -/
inductive Simulates : Nat → List α → List (Nat × α) → Prop where
  | done {now : Nat} {run : List α} : Simulates now run []
  | add {now : Nat} {run : List α} {x : α} {rest : List (Nat × α)} :
      allowed run x → Simulates now (run ++ [x]) rest → Simulates now run ((now, x) :: rest)
  | wait {now later : Nat} {run : List α} {rest : List (Nat × α)} :
      now ≤ later → Simulates later (still ends later run) rest → Simulates now run rest

/-- What runs at `t`. -/
def occupied (run : List α) (starts : List (Nat × α)) (t : Nat) : List α :=
  still ends t (run ++ (starts.filter (·.1 ≤ t)).map (·.2))

variable {ends allowed}

theorem still_append (t : Nat) (front back : List α) :
    still ends t (front ++ back) = still ends t front ++ still ends t back :=
  List.filter_append ..

theorem still_still {t later : Nat} (le : later ≤ t) (run : List α) :
    still ends t (still ends later run) = still ends t run := by
  unfold still
  rw [List.filter_filter]
  refine List.filter_congr fun x _ => ?_
  cases ends x with
  | none => rfl
  | some e =>
      simp only [Option.all_some]
      by_cases overrun : e > t
      · simp [overrun, Nat.lt_of_le_of_lt le overrun]
      · simp [overrun]

theorem Simulates.not_before {now : Nat} {run : List α} {starts : List (Nat × α)}
    (simulates : Simulates ends allowed now run starts) : ∀ s ∈ starts, now ≤ s.1 := by
  induction simulates with
  | done => simp
  | add _ _ ih => simpa using ih
  | wait le _ ih => exact fun s hs => le.trans (ih s hs)

/-- A limit on the jobs of a scope is kept from the first addition in it on. -/
theorem Simulates.within {L : List α → Prop} {scope : α → Bool}
    (part : ∀ l l', l.Sublist l' → L l' → L l)
    (kept : ∀ run x, allowed run x → scope x = true → L ((run ++ [x]).filter scope))
    {now : Nat} {run : List α} {starts : List (Nat × α)}
    (simulates : Simulates ends allowed now run starts) {t : Nat} (le : now ≤ t) :
    L ((occupied ends run starts t).filter scope) ∨ ∀ s ∈ starts, s.1 ≤ t → scope s.2 = false := by
  induction simulates with
  | done => exact .inr (by simp)
  | @add now run x rest may _ ih =>
      have same : occupied ends run ((now, x) :: rest) t = occupied ends (run ++ [x]) rest t := by
        unfold occupied
        rw [List.filter_cons_of_pos (by simpa using le), List.map_cons, List.append_assoc,
          List.singleton_append]
      rw [same]
      rcases ih le with kept_later | nothing
      · exact .inl kept_later
      · cases inside : scope x with
        | false => exact .inr (List.forall_mem_cons.mpr ⟨fun _ => inside, nothing⟩)
        | true =>
            -- Nothing of the scope comes after: what runs of it ran at this addition.
            have later : ((rest.filter (·.1 ≤ t)).map (·.2)).filter scope = [] := by
              rw [List.filter_eq_nil_iff]
              intro y hy
              obtain ⟨s, hs, rfl⟩ := List.mem_map.mp hy
              obtain ⟨member, soon⟩ := List.mem_filter.mp hs
              simp [nothing s member (by simpa using soon)]
            refine .inl (part _ _ ?_ (kept run x may inside))
            have shrinks := (List.filter_sublist (p := fun y => (ends y).all (· > t))
              (l := (run ++ [x]) ++ (rest.filter (·.1 ≤ t)).map (·.2))).filter scope
            rwa [List.filter_append (p := scope), later, List.append_nil] at shrinks
  | @wait now later run rest _ simulates ih =>
      by_cases reached : later ≤ t
      · have same : occupied ends (still ends later run) rest t = occupied ends run rest t := by
          unfold occupied
          rw [still_append, still_append, still_still reached]
        rw [← same]
        exact ih reached
      · exact .inr fun s hs soon => absurd ((simulates.not_before s hs).trans soon) reached

/-- A limit that what ran at first keeps by itself is kept. -/
theorem Simulates.keeps {L : List α → Prop} {scope : α → Bool}
    (part : ∀ l l', l.Sublist l' → L l' → L l)
    (kept : ∀ run x, allowed run x → scope x = true → L ((run ++ [x]).filter scope))
    {now : Nat} {run : List α} {starts : List (Nat × α)}
    (simulates : Simulates ends allowed now run starts) {t : Nat} (le : now ≤ t)
    (alone : L ((still ends t run).filter scope)) : L ((occupied ends run starts t).filter scope) := by
  rcases simulates.within part kept le with within | nothing
  · exact within
  · have none_of : (still ends t ((starts.filter (·.1 ≤ t)).map (·.2))).filter scope = [] := by
      rw [List.filter_eq_nil_iff]
      intro x hx
      obtain ⟨s, hs, rfl⟩ := List.mem_map.mp (List.mem_of_mem_filter hx)
      obtain ⟨member, soon⟩ := List.mem_filter.mp hs
      simp [nothing s member (by simpa using soon)]
    unfold occupied
    rw [still_append, List.filter_append, none_of, List.append_nil]
    exact alone

end Timeline
