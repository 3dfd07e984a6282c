import K2.Lib.Table
import Mathlib.Data.Int.Order.Basic
import Mathlib.Data.List.Induction
import Mathlib.Logic.Function.Basic
import Mathlib.Logic.Relation
import Mathlib.Order.Lattice
import Mathlib.Tactic.Common

/-! # Change feeds with a tombstone floor

A feed keeps one entry per key: a value or a tombstone, and the cursor value at
which it last changed. A write bumps the cursor once and stamps what it changed;
a collection forgets tombstones and raises the floor past them. A reader keeps a
mirror of the live values and catches up from the cursor it last saw: everything
when that cursor is below the floor, else only what changed since.

The theorem a store wants is `catchUp_live`: whatever was written and collected
in between, catching up from a mirror taken at an earlier cursor gives the live
values of now.
-/

/-- What a feed holds under one key; no value is a tombstone. -/
structure FeedEntry (β : Type*) where
  value : Option β
  seq : Int

structure Feed (κ β : Type*) where
  entry : κ → Option (FeedEntry β)
  cursor : Int
  floor : Int

namespace Feed

variable {κ β : Type*}

/-- The live values. -/
def live (f : Feed κ β) (k : κ) : Option β := (f.entry k).bind (·.value)

/-- No entry is newer than the cursor, and the floor has not passed it. -/
structure Sound (f : Feed κ β) : Prop where
  seq_le : ∀ k e, f.entry k = some e → e.seq ≤ f.cursor
  floor_le : f.floor ≤ f.cursor

/-- `m` is `f` after a write: its cursor is one further, and an entry that is
    not `f`'s own carries the new cursor. -/
structure Writes (f m : Feed κ β) : Prop where
  cursor : m.cursor = f.cursor + 1
  floor : m.floor = f.floor
  entry : ∀ k, m.entry k = f.entry k ∨ ∃ e, m.entry k = some e ∧ e.seq = m.cursor

/-- `g` is `m` after a collection: an entry that is gone was a tombstone at or
    below the new floor. -/
structure Collects (m g : Feed κ β) : Prop where
  cursor : g.cursor = m.cursor
  floor : m.floor ≤ g.floor
  floor_le : g.floor ≤ g.cursor
  entry : ∀ k, g.entry k = m.entry k ∨
    (g.entry k = none ∧ ∃ e, m.entry k = some e ∧ e.value = none ∧ e.seq ≤ g.floor)

/-- One operation of the store: nothing, or a write and the collection that
    follows it. -/
inductive Step (f : Feed κ β) : Feed κ β → Prop where
  | idle : Step f f
  | write {m g} : Writes f m → Collects m g → Step f g

theorem Step.cursor_le {f g : Feed κ β} (h : Step f g) : f.cursor ≤ g.cursor := by
  cases h with
  | idle => exact le_rfl
  | write w c => have := w.cursor; have := c.cursor; omega

theorem Step.floor_le {f g : Feed κ β} (h : Step f g) : f.floor ≤ g.floor := by
  cases h with
  | idle => exact le_rfl
  | write w c => have := w.floor; have := c.floor; omega

theorem Step.sound {f g : Feed κ β} (h : Step f g) (sound : f.Sound) : g.Sound := by
  cases h with
  | idle => exact sound
  | write w c =>
      refine ⟨fun k e found => ?_, c.floor_le⟩
      have := w.cursor
      have := c.cursor
      rcases c.entry k with same | ⟨gone, -⟩
      · rcases w.entry k with old | ⟨e', new, stamped⟩
        · have := sound.seq_le k e (by rw [← old, ← same, found])
          omega
        · rw [same, new] at found
          cases found
          omega
      · rw [gone] at found
        cases found

/-- The feeds a store can be in after `f`. -/
def Reaches (f g : Feed κ β) : Prop := Relation.ReflTransGen Step f g

/-- How the present feed `g` stands to an earlier one `f`: while the floor has
    not passed `f`'s cursor, an entry is as it was, or has changed since, or is
    a tombstone that was already one. -/
structure Follows (f g : Feed κ β) : Prop where
  cursor : f.cursor ≤ g.cursor
  floor : f.floor ≤ g.floor
  entry : g.floor ≤ f.cursor → ∀ k, g.entry k = f.entry k ∨
    (∃ e, g.entry k = some e ∧ f.cursor < e.seq) ∨ (g.entry k = none ∧ f.live k = none)

theorem Follows.refl (f : Feed κ β) : Follows f f := ⟨le_rfl, le_rfl, fun _ _ => .inl rfl⟩

/-- What one operation of the store does to a feed that follows `f`. -/
theorem Follows.step {f g h : Feed κ β} (follows : Follows f g) (step : Step g h) :
    Follows f h := by
  refine ⟨le_trans follows.cursor step.cursor_le, le_trans follows.floor step.floor_le,
    fun low k => ?_⟩
  have earlier := follows.entry (le_trans step.floor_le low) k
  have behind := follows.cursor
  cases step with
  | idle => exact earlier
  | @write m _ w c =>
      have next := w.cursor
      rcases c.entry k with same | ⟨gone, e, held, dead, below⟩
      · rcases w.entry k with old | ⟨e, new, stamped⟩
        · rw [same, old]
          exact earlier
        · exact .inr (.inl ⟨e, by rw [same, new], by omega⟩)
      -- A collected tombstone is not newer than the floor, so it is not newer
      -- than `f`'s cursor: it stood already, and `f` was not live under its key.
      · refine .inr (.inr ⟨gone, ?_⟩)
        rcases w.entry k with old | ⟨e', new, stamped⟩
        · rw [old] at held
          rcases earlier with asWas | ⟨e', now, newer⟩ | ⟨absent, -⟩
          · simp only [live, ← asWas, held, Option.bind_some, dead]
          · rw [held] at now
            cases now
            omega
          · rw [held] at absent
            cases absent
        · rw [held] at new
          cases new
          omega

theorem follows_of_reaches {f g : Feed κ β} (reaches : Reaches f g) : Follows f g := by
  induction reaches with
  | refl => exact .refl f
  | tail _ step ih => exact ih.step step

/-- A mirror after a list of changes, each a key and the value it now has. -/
def patch [DecidableEq κ] (mirror : κ → Option β) (changes : List (κ × Option β)) : κ → Option β :=
  changes.foldl (fun m c => Function.update m c.1 c.2) mirror

theorem patch_of_mem [DecidableEq κ] {changes : List (κ × Option β)} {k : κ} {v : Option β}
    (listed : (k, v) ∈ changes) (agree : ∀ c ∈ changes, c.1 = k → c.2 = v)
    (mirror : κ → Option β) : patch mirror changes k = v := by
  induction changes using List.reverseRecOn with
  | nil => cases listed
  | append_singleton rest c ih =>
      simp only [patch, List.foldl_append, List.foldl_cons, List.foldl_nil] at ih ⊢
      by_cases last : k = c.1
      · rw [last, Function.update_self]
        exact agree c (by simp) last.symm
      · rw [Function.update_of_ne last]
        refine ih ?_ fun d hd => agree d (by simp [hd])
        rcases List.mem_append.mp listed with early | here
        · exact early
        · exact absurd (congrArg Prod.fst (List.mem_singleton.mp here)) last

theorem patch_of_not_mem [DecidableEq κ] {changes : List (κ × Option β)} {k : κ}
    (absent : ∀ c ∈ changes, c.1 ≠ k) (mirror : κ → Option β) :
    patch mirror changes k = mirror k := by
  induction changes generalizing mirror with
  | nil => rfl
  | cons c rest ih =>
      rw [patch, List.foldl_cons, ← patch, ih fun d hd => absent d (List.mem_cons_of_mem _ hd)]
      exact Function.update_of_ne (absent c (by simp)).symm _ _

/-- Must a reader at `since` take everything? -/
def full (f : Feed κ β) (since : Int) : Prop := since < f.floor ∨ since > f.cursor

instance (f : Feed κ β) (since : Int) : Decidable (f.full since) :=
  inferInstanceAs (Decidable (_ ∨ _))

/-- A mirror after its reader caught up from `since`. -/
def catchUp (f : Feed κ β) (since : Int) (mirror : κ → Option β) (k : κ) : Option β :=
  if f.full since then f.live k
  else match f.entry k with
    | some e => if since < e.seq then e.value else mirror k
    | none => mirror k

/-- An answer lists every live value when the reader must take everything, else
    every entry that changed since. -/
def Answers (f : Feed κ β) (since : Int) (changes : List (κ × Option β)) : Prop :=
  ∀ k v, (k, v) ∈ changes ↔
    ∃ seq, f.entry k = some ⟨v, seq⟩ ∧ if f.full since then v.isSome else since < seq

/-- Patching the mirror, or an empty one, with such an answer is catching up. -/
theorem patch_catchUp [DecidableEq κ] {f : Feed κ β} {since : Int} {changes : List (κ × Option β)}
    (answers : f.Answers since changes) (mirror : κ → Option β) :
    patch (if f.full since then fun _ => none else mirror) changes = f.catchUp since mirror := by
  funext k
  by_cases listed : ∃ v, (k, v) ∈ changes
  · obtain ⟨v, member⟩ := listed
    obtain ⟨seq, held, shown⟩ := (answers k v).mp member
    rw [patch_of_mem member]
    · unfold catchUp
      by_cases all : f.full since
      · simp [all, live, held]
      · simp [all, held, (by simpa [all] using shown : since < seq)]
    · rintro ⟨k', w⟩ hc rfl
      obtain ⟨seq', held', -⟩ := (answers k' w).mp hc
      rw [held] at held'
      cases held'
      rfl
  · push Not at listed
    rw [patch_of_not_mem fun c hc same => listed c.2 (same ▸ hc)]
    unfold catchUp
    cases held : f.entry k with
    | none => by_cases all : f.full since <;> simp [all, live, held]
    | some e =>
        have unlisted := mt (answers k e.value).mpr (listed e.value)
        by_cases all : f.full since
        · have dead : e.value = none := by
            by_contra alive
            exact unlisted ⟨e.seq, held, by simpa [all] using Option.isSome_iff_ne_none.mpr alive⟩
          simp [all, live, held, dead]
        · have old : ¬ since < e.seq := fun newer =>
            unlisted ⟨e.seq, held, by simpa [all] using newer⟩
          simp [all, old]

/-- Catching up from a mirror taken at an earlier cursor gives the live values. -/
theorem catchUp_live {f g : Feed κ β} (reaches : Reaches f g) (sound : f.Sound) :
    g.catchUp f.cursor f.live = g.live := by
  have follows := follows_of_reaches reaches
  funext k
  unfold catchUp
  split
  · rfl
  · rename_i incremental
    have low : g.floor ≤ f.cursor := by
      by_contra high
      exact incremental (.inl (by omega))
    rcases follows.entry low k with asWas | ⟨e, now, newer⟩ | ⟨absent, dead⟩
    · cases held : f.entry k with
      | none => simp only [asWas, held, live, Option.bind_none]
      | some e =>
          have old : ¬ f.cursor < e.seq := by have := sound.seq_le k e held; omega
          simp only [asWas, held, live, Option.bind_some, if_neg old]
    · simp only [now, live, Option.bind_some, if_pos newer]
    · simp only [absent, live, Option.bind_none]
      exact dead

end Feed

/-! ## Feeds kept in tables

A store keeps a feed as rows of a table, under some of its keys. A write that
stamps the rows it touches, and the collection that follows it, are then one
step of the feed.
-/

namespace Feed

variable {ι κ ρ β : Type*} {key : ρ → κ} [DecidableEq κ]

/-- The feed kept in the rows of `t` under the keys `place i`. -/
def ofTable (t : KeyedTable key) (place : ι → κ) (shows : ρ → FeedEntry β) (cursor floor : Int) :
    Feed ι β where
  entry i := (t.get (place i)).map shows
  cursor := cursor
  floor := floor

variable {place : ι → κ} {shows : ρ → FeedEntry β}

/-- No row of the feed is newer than `top`. -/
def SeqAtMost (t : KeyedTable key) (place : ι → κ) (shows : ρ → FeedEntry β) (top : Int) : Prop :=
  ∀ i r, t.get (place i) = some r → (shows r).seq ≤ top

theorem Sound.seqAtMost {t : KeyedTable key} {cursor floor : Int}
    (sound : (ofTable t place shows cursor floor).Sound) : SeqAtMost t place shows cursor :=
  fun i r held => sound.seq_le i (shows r) (by simp [ofTable, held])

/-- A write leaves each row of the feed as it was, or stamps it. -/
def Stamps (old merged : KeyedTable key) (place : ι → κ) (shows : ρ → FeedEntry β) (next : Int) :
    Prop :=
  ∀ i, merged.get (place i) = old.get (place i) ∨
    ∃ r, merged.get (place i) = some r ∧ (shows r).seq = next

theorem Stamps.seqAtMost {old merged : KeyedTable key} {top next : Int}
    (stamps : Stamps old merged place shows next) (low : SeqAtMost old place shows top)
    (grows : top ≤ next) : SeqAtMost merged place shows next := by
  intro i r held
  rcases stamps i with same | ⟨r', now, stamped⟩
  · exact le_trans (low i r (same ▸ held)) grows
  · rw [held] at now
    cases now
    exact le_of_eq stamped

/-- A write and the collection that follows it are one step of the feed: the
    cursor moves one on, and the floor past what was collected. -/
theorem step_ofTable {old merged left : KeyedTable key} {cursor floor dropped : Int}
    (sound : (ofTable old place shows cursor floor).Sound)
    (stamps : Stamps old merged place shows (cursor + 1))
    (sub : ∀ r ∈ left.rows, r ∈ merged.rows)
    (gone : ∀ i r, merged.get (place i) = some r → r ∉ left.rows →
      (shows r).value = none ∧ (shows r).seq ≤ dropped)
    (bound : dropped ≤ cursor + 1) :
    Step (ofTable old place shows cursor floor)
      (ofTable left place shows (cursor + 1) (max floor dropped)) := by
  have low : floor ≤ cursor := sound.floor_le
  have raised : max floor dropped ≤ cursor + 1 := max_le (by omega) bound
  refine .write (m := ofTable merged place shows (cursor + 1) floor) ⟨rfl, rfl, fun i => ?_⟩
    ⟨rfl, le_max_left _ _, raised, fun i => ?_⟩
  · rcases stamps i with same | ⟨r, held, stamped⟩
    · exact .inl (by simp only [ofTable, same])
    · exact .inr ⟨shows r, by simp [ofTable, held], stamped⟩
  · rcases KeyedTable.get_of_subset sub (place i) with same | ⟨absent, r, held, dropped_row⟩
    · exact .inl (by simp only [ofTable, same])
    · obtain ⟨dead, below⟩ := gone i r held dropped_row
      exact .inr ⟨by simp [ofTable, absent], shows r, by simp [ofTable, held], dead,
        le_trans below (le_max_right _ _)⟩

/-- An answer read off the rows of the feed: the live ones when the reader must
    take everything, else those that changed since. -/
theorem answers_ofTable {t : KeyedTable key} {cursor floor since : Int} {rows : List ρ} {name : ρ → ι}
    (named : ∀ r i, key r = place i → name r = i)
    (listed : ∀ r, r ∈ rows ↔ r ∈ t.rows ∧ key r = place (name r) ∧
      if (ofTable t place shows cursor floor).full since then (shows r).value.isSome
      else since < (shows r).seq) :
    (ofTable t place shows cursor floor).Answers since
      (rows.map fun r => (name r, (shows r).value)) := by
  intro i v
  simp only [List.mem_map, Prod.mk.injEq]
  constructor
  · rintro ⟨r, member, rfl, rfl⟩
    obtain ⟨held, placed, shown⟩ := (listed r).mp member
    refine ⟨(shows r).seq, ?_, shown⟩
    simp only [ofTable, Option.map_eq_some_iff]
    exact ⟨r, KeyedTable.get_eq_some.mpr ⟨held, placed⟩, rfl⟩
  · rintro ⟨seq, found, shown⟩
    simp only [ofTable, Option.map_eq_some_iff] at found
    obtain ⟨r, held, entry⟩ := found
    obtain ⟨member, placed⟩ := KeyedTable.get_eq_some.mp held
    have here := named r i placed
    subst here
    exact ⟨r, (listed r).mpr ⟨member, placed, by rw [entry]; exact shown⟩, rfl, by rw [entry]⟩

end Feed

/-! # Reading a feed page by page

A reader at a place has taken what comes up to it in the order of cursor value and
key. A place may stand inside one cursor value, after a key. Between two pages the
feed is written and collected; the floor speaks for whole cursor values only, so a
collection is told apart by what it takes at the reader's own. -/

/-- After every entry of `since`, or after those up to the key `after`. -/
structure Place (κ : Type*) where
  since : Int
  after : Option κ

namespace Feed

variable {κ β : Type*} [LinearOrder κ]

/-- Does an entry stand inside the place's own cursor value, after it? -/
def inside (p : Place κ) (k : κ) (seq : Int) : Prop := seq = p.since ∧ ∃ a, p.after = some a ∧ a < k

/-- Does an entry come after a place? -/
def later (p : Place κ) (k : κ) (seq : Int) : Prop := p.since < seq ∨ inside p k seq

/-- `m` mirrors what `f` holds up to a place. -/
structure MirrorsTo (f : Feed κ β) (p : Place κ) (m : κ → Option β) : Prop where
  since_le : p.since ≤ f.cursor
  seen : ∀ k e, f.entry k = some e → ¬ later p k e.seq → m k = e.value
  gone : f.floor ≤ p.since → ∀ k, f.entry k = none → m k = none

/-- `g` is `f` after a collection, wherever its floor now stands. -/
structure Forgets (f g : Feed κ β) : Prop where
  cursor : g.cursor = f.cursor
  floor : f.floor ≤ g.floor
  entry : ∀ k, g.entry k = f.entry k ∨
    (g.entry k = none ∧ ∃ e, f.entry k = some e ∧ e.value = none ∧ e.seq ≤ g.floor)

/-- A page from a place: values of now, of all entries after it and up to the
    next place. -/
structure Pages (f : Feed κ β) (p q : Place κ) (items : List (κ × Option β)) : Prop where
  since_le : q.since ≤ f.cursor
  listed : ∀ k v, (k, v) ∈ items → ∃ e, f.entry k = some e ∧ e.value = v
  covers : ∀ k e, f.entry k = some e → later p k e.seq → later q k e.seq ∨ (k, e.value) ∈ items

variable {f g : Feed κ β} {p q : Place κ} {m : κ → Option β}

/-- What a write stamps comes after every place. -/
theorem MirrorsTo.write (mirrors : MirrorsTo f p m) (writes : Writes f g) : MirrorsTo g p m where
  since_le := by
    have := mirrors.since_le
    have := writes.cursor
    omega
  seen := by
    intro k e held old
    rcases writes.entry k with same | ⟨e', new, stamped⟩
    · exact mirrors.seen k e (same ▸ held) old
    · rw [new] at held
      cases held
      refine absurd (.inl ?_) old
      have := mirrors.since_le
      have := writes.cursor
      omega
  gone := by
    intro low k absent
    rw [writes.floor] at low
    rcases writes.entry k with same | ⟨e, new, -⟩
    · exact mirrors.gone low k (same ▸ absent)
    · rw [new] at absent
      cases absent

/-- A collection is harmless unless it takes, inside the reader's own cursor
    value, a tombstone of a key the mirror still has. -/
theorem MirrorsTo.forget (mirrors : MirrorsTo f p m) (forgets : Forgets f g)
    (clear : ∀ k e, f.entry k = some e → g.entry k = none → inside p k e.seq → m k = none) :
    MirrorsTo g p m where
  since_le := forgets.cursor ▸ mirrors.since_le
  seen := by
    intro k e held old
    rcases forgets.entry k with same | ⟨absent, -⟩
    · exact mirrors.seen k e (same ▸ held) old
    · rw [absent] at held
      cases held
  gone := by
    intro low k absent
    rcases forgets.entry k with same | ⟨-, e, held, dead, below⟩
    · exact mirrors.gone (forgets.floor.trans low) k (same ▸ absent)
    · by_cases ahead : later p k e.seq
      · rcases ahead with newer | here
        · omega
        · exact clear k e held absent here
      · rw [mirrors.seen k e held ahead, dead]

theorem MirrorsTo.page (mirrors : MirrorsTo f p m) {items : List (κ × Option β)}
    (pages : Pages f p q items) (low : f.floor ≤ p.since) : MirrorsTo f q (patch m items) where
  since_le := pages.since_le
  seen := by
    intro k e held old
    have agree : ∀ c ∈ items, c.1 = k → c.2 = e.value := by
      rintro ⟨k', v⟩ member rfl
      obtain ⟨e', held', rfl⟩ := pages.listed k' v member
      rw [held] at held'
      cases held'
      rfl
    by_cases ahead : later p k e.seq
    · rcases pages.covers k e held ahead with still | member
      · exact absurd still old
      · exact patch_of_mem member agree m
    · by_cases listed : ∃ c ∈ items, c.1 = k
      · obtain ⟨⟨k', v⟩, member, rfl⟩ := listed
        rw [← agree _ member rfl]
        exact patch_of_mem member (fun c hc same => (agree c hc same).trans (agree _ member rfl).symm) m
      · push Not at listed
        rw [patch_of_not_mem listed]
        exact mirrors.seen k e held ahead
  gone := by
    intro _ k absent
    rw [patch_of_not_mem]
    · exact mirrors.gone low k absent
    · rintro ⟨k', v⟩ member rfl
      obtain ⟨e, held, -⟩ := pages.listed k' v member
      rw [absent] at held
      cases held

/-- With nothing left after its place, a reader mirrors the live values. -/
theorem MirrorsTo.live (mirrors : MirrorsTo f p m) (low : f.floor ≤ p.since)
    (nothing : ∀ k e, f.entry k = some e → ¬ later p k e.seq) : m = f.live := by
  funext k
  cases held : f.entry k with
  | none =>
      rw [mirrors.gone low k held, Feed.live, held]
      rfl
  | some e =>
      rw [mirrors.seen k e held (nothing k e held), Feed.live, held]
      rfl

/-- A copy of the live values mirrors everything up to the cursor. -/
theorem mirrorsTo_copy : MirrorsTo f ⟨f.cursor, none⟩ f.live where
  since_le := le_rfl
  seen := by
    intro k e held _
    rw [Feed.live, held]
    rfl
  gone := by
    intro _ k absent
    rw [Feed.live, absent]
    rfl

end Feed
