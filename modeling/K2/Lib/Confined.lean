import K2.Lib.UnixFs

/-! # Confined to one new folder

While every link made in a folder is relative and climbs nowhere, a path into
the folder that climbs nowhere ends in it, through however many links. What is
made and written along such paths leaves everything else as it was. -/

namespace UnixFs

namespace Fs

variable {fs : Fs} {jump : Place → Path → Except Errno Found}

/-! ## Real folders on the way -/

theorem node_above {p q : Place} (there : fs.node (p ++ q) ≠ none) (more : q ≠ []) : fs.node p = some .dir := by
  induction q using List.reverseRecOn with
  | nil => exact absurd rfl more
  | append_singleton q n ih =>
    rw [← List.append_assoc] at there
    have above := (fs.parent _ _ there).1
    by_cases last : q = []
    · rwa [last, List.append_nil] at above
    · exact ih (by rw [above]; exact Option.some_ne_none _) last

theorem proper_of_mem {p : Place} (there : fs.node p ≠ none) {n : Name} (mem : n ∈ p) : Proper n := by
  obtain ⟨above, below, rfl⟩ := List.append_of_mem mem
  have here : fs.node (above ++ [n]) ≠ none := by
    by_cases last : below = []
    · rwa [last] at there
    · rw [List.append_cons] at there
      rw [node_above there last]
      exact Option.some_ne_none _
  exact (fs.parent _ _ here).2

/-- Folders that are there are walked through. -/
theorem walkFrom_append {here q : Place} (there : fs.node (here ++ q) = some .dir) (rest : Path) :
    fs.walkFrom jump here (q ++ rest) = fs.walkFrom jump (here ++ q) rest := by
  induction q generalizing here with
  | nil => rw [List.nil_append, List.append_nil]
  | cons n q ih =>
    have grouped : here ++ n :: q = here ++ [n] ++ q := by rw [List.append_assoc]; rfl
    have dir : fs.node (here ++ [n]) = some .dir := by
      by_cases last : q = []
      · rwa [last] at there
      · rw [grouped] at there
        exact node_above (by rw [there]; exact Option.some_ne_none _) last
    have proper := (fs.parent here n (by rw [dir]; exact Option.some_ne_none _)).2
    rw [List.cons_append, walkFrom, if_neg (fun h => h.elim proper.1 proper.2.1), if_neg proper.2.2.1, dir, grouped]
    exact ih (by rwa [← grouped])

theorem walk_append {here q : Place} (there : fs.node (here ++ q) = some .dir) (links : Nat) (rest : Path) :
    fs.walk links here (q ++ rest) = fs.walk links (here ++ q) rest := by
  cases links with
  | zero => exact walkFrom_append there rest
  | succ links => exact walkFrom_append there rest

theorem walk_nil (links : Nat) (here : Place) : fs.walk links here [] = .ok (.there here) := by
  cases links <;> rfl

theorem follow_append {q : Place} (there : fs.node q = some .dir) (rest : Path) :
    fs.follow (q ++ rest) = fs.walk MAXSYMLINKS q rest := walk_append there MAXSYMLINKS rest

theorem follow_dir {q : Place} (there : fs.node q = some .dir) : fs.follow q = .ok (.there q) := by
  have := follow_append there []
  rwa [List.append_nil, walk_nil] at this

theorem dir_dropLast {p : Place} (dir : fs.node p = some .dir) : fs.node p.dropLast = some .dir := by
  rcases List.eq_nil_or_concat p with rfl | ⟨q, n, rfl⟩
  · exact dir
  · rw [List.concat_eq_append] at dir ⊢
    rw [List.dropLast_concat]
    exact (fs.parent q n (by rw [dir]; exact Option.some_ne_none _)).1

/-- What a path leads to is there. -/
theorem walkFrom_there (jumps : ∀ {here path p}, fs.node here = some .dir → jump here path = .ok (.there p) → fs.node p ≠ none)
    {here : Place} {path : Path} {p : Place} (dir : fs.node here = some .dir)
    (leads : fs.walkFrom jump here path = .ok (.there p)) : fs.node p ≠ none := by
  induction path generalizing here with
  | nil =>
    cases leads
    rw [dir]
    exact Option.some_ne_none _
  | cons s rest ih =>
    unfold walkFrom at leads
    by_cases blank : s = [] ∨ s = dot
    · rw [if_pos blank] at leads
      exact ih dir leads
    rw [if_neg blank] at leads
    by_cases climbs : s = dotdot
    · rw [if_pos climbs] at leads
      exact ih (dir_dropLast dir) leads
    rw [if_neg climbs] at leads
    cases member : fs.node (here ++ [s]) with
    | none =>
      rw [member] at leads
      dsimp only at leads
      split at leads <;> cases leads
    | some x =>
      rw [member] at leads
      cases x with
      | dir => exact ih member leads
      | file i =>
        dsimp only at leads
        by_cases last : rest = []
        · rw [if_pos last] at leads
          cases leads
          rw [member]
          exact Option.some_ne_none _
        · rw [if_neg last] at leads
          cases leads
      | link t =>
        refine jumps ?_ leads
        by_cases rooted : absolute t = true
        · rw [if_pos rooted]
          exact fs.root
        · rw [if_neg rooted]
          exact dir

theorem follow_there {path : Path} {p : Place} (leads : fs.follow path = .ok (.there p)) : fs.node p ≠ none := by
  have walks (links : Nat) : ∀ {here : Place} {path : Path} {p : Place}, fs.node here = some .dir →
      fs.walk links here path = .ok (.there p) → fs.node p ≠ none := by
    induction links with
    | zero => exact fun dir leads => walkFrom_there (fun _ none => by cases none) dir leads
    | succ links ih => exact fun dir leads => walkFrom_there (fun dir leads => ih dir leads) dir leads
  exact walks _ fs.root leads

theorem rdropWhile_of_dir {q : Place} (there : fs.node q = some .dir) (rest : Path) :
    (q ++ rest).rdropWhile List.isEmpty = q ++ rest.rdropWhile List.isEmpty := by
  induction rest using List.reverseRecOn with
  | nil =>
    rw [List.append_nil, List.rdropWhile_nil, List.append_nil, List.rdropWhile_eq_self_iff]
    intro nonempty blank
    have last := proper_of_mem (by rw [there]; exact Option.some_ne_none _) (List.getLast_mem nonempty)
    exact last.1 (List.isEmpty_iff.mp blank)
  | append_singleton rest n ih =>
    rw [← List.append_assoc]
    by_cases blank : n.isEmpty = true
    · rw [List.rdropWhile_concat_pos _ _ _ blank, ih, List.rdropWhile_concat_pos _ _ _ blank]
    · rw [List.rdropWhile_concat_neg _ _ _ blank, List.rdropWhile_concat_neg _ _ _ blank, List.append_assoc]

/-- The entry a path names in a folder that is there. -/
theorem entry_append {d : Place} (dir : fs.node d = some .dir) {n : Name} (proper : Proper n) : fs.entry (d ++ [n]) = .ok (d, n) := by
  have stripped : (d ++ [n]).rdropWhile List.isEmpty = d ++ [n] :=
    List.rdropWhile_concat_neg _ _ _ fun blank => proper.1 (List.isEmpty_iff.mp blank)
  unfold entry
  simp only [stripped, List.getLast?_append, List.getLast?_singleton, Option.some_or, List.dropLast_concat, follow_dir dir, dir, if_true]
  exact if_neg fun h => h.elim proper.2.1 proper.2.2.1

theorem entry_eq_ok {path : Path} {d : Place} {n : Name} (named : fs.entry path = .ok (d, n)) :
    ∃ init, path.rdropWhile List.isEmpty = init ++ [n] ∧ fs.follow init = .ok (.there d) := by
  unfold entry at named
  dsimp only at named
  cases last : (path.rdropWhile List.isEmpty).getLast? with
  | none =>
    rw [last] at named
    cases named
  | some m =>
    rw [last] at named
    dsimp only at named
    by_cases dots : m = dot ∨ m = dotdot
    · rw [if_pos dots] at named
      cases named
    rw [if_neg dots] at named
    cases leads : fs.follow (path.rdropWhile List.isEmpty).dropLast with
    | error e =>
      rw [leads] at named
      cases named
    | ok f =>
      rw [leads] at named
      cases f with
      | free d' n' => cases named
      | there d' =>
        dsimp only at named
        by_cases dir : fs.node d' = some .dir
        · rw [if_pos dir] at named
          cases named
          exact ⟨_, (List.dropLast_append_getLast? _ last).symm, leads⟩
        · rw [if_neg dir] at named
          cases named

end Fs

/-! ## Inside one folder -/

/-- What a link may say: a relative path that climbs nowhere. -/
def Inward (target : List UInt8) : Prop := absolute target = false ∧ dotdot ∉ split target

/-- Only what is in one folder differs from before, and every file there is new. -/
structure Within (before : Fs) (dest : Place) (now : Fs) : Prop where
  outside : ∀ p, ¬dest <+: p → now.node p = before.node p
  old : ∀ i < before.next, now.data i = before.data i
  grown : before.next ≤ now.next
  new : ∀ p i, dest <+: p → now.node p = some (.file i) → before.next ≤ i
  tame : ∀ p t, dest <+: p → now.node p = some (.link t) → Inward t
  stands : now.node dest = some .dir

def Found.Inside (dest : Place) : Found → Prop
  | .there p => dest <+: p
  | .free d _ => dest <+: d

namespace Within

variable {before now : Fs} {dest : Place} (within : Within before dest now)
include within

theorem walkFrom_inside {jump : Place → Path → Except Errno Found}
    (jumps : ∀ {here path f}, dest <+: here → dotdot ∉ path → jump here path = .ok f → f.Inside dest)
    {here : Place} {path : Path} {f : Found} (inside : dest <+: here) (level : dotdot ∉ path)
    (leads : now.walkFrom jump here path = .ok f) : f.Inside dest := by
  induction path generalizing here with
  | nil =>
    cases leads
    exact inside
  | cons s rest ih =>
    have rest_level : dotdot ∉ rest := fun mem => level (List.mem_cons_of_mem _ mem)
    have deeper : dest <+: here ++ [s] := inside.trans (List.prefix_append ..)
    unfold Fs.walkFrom at leads
    by_cases blank : s = [] ∨ s = dot
    · rw [if_pos blank] at leads
      exact ih inside rest_level leads
    rw [if_neg blank, if_neg fun climbs : s = dotdot => level (climbs ▸ List.mem_cons_self ..)] at leads
    cases member : now.node (here ++ [s]) with
    | none =>
      rw [member] at leads
      dsimp only at leads
      by_cases last : rest = []
      · rw [if_pos last] at leads
        cases leads
        exact inside
      · rw [if_neg last] at leads
        cases leads
    | some x =>
      rw [member] at leads
      cases x with
      | dir => exact ih deeper rest_level leads
      | file i =>
        dsimp only at leads
        by_cases last : rest = []
        · rw [if_pos last] at leads
          cases leads
          exact deeper
        · rw [if_neg last] at leads
          cases leads
      | link t =>
        obtain ⟨relative, climbs_not⟩ := within.tame _ t deeper member
        dsimp only at leads
        rw [relative] at leads
        exact jumps inside (fun mem => (List.mem_append.mp mem).elim climbs_not rest_level) leads

theorem walk_inside (links : Nat) {here : Place} {path : Path} {f : Found} (inside : dest <+: here) (level : dotdot ∉ path)
    (leads : now.walk links here path = .ok f) : f.Inside dest := by
  induction links generalizing here path f with
  | zero => exact within.walkFrom_inside (fun _ _ none => by cases none) inside level leads
  | succ links ih => exact within.walkFrom_inside (fun inside level leads => ih inside level leads) inside level leads

/-- A path into the folder leads into it. -/
theorem follow_inside {path : Path} {f : Found} (level : dotdot ∉ path) (leads : now.follow (dest ++ path) = .ok f) :
    f.Inside dest := by
  rw [Fs.follow_append within.stands] at leads
  exact within.walk_inside _ List.prefix_rfl level leads

/-- And the entry it names is in it, or the folder itself. -/
theorem entry_inside {path : Path} {d : Place} {n : Name} (level : dotdot ∉ path)
    (named : now.entry (dest ++ path) = .ok (d, n)) : dest <+: d ++ [n] := by
  obtain ⟨init, stripped, leads⟩ := Fs.entry_eq_ok named
  rw [Fs.rdropWhile_of_dir within.stands] at stripped
  by_cases only : path.rdropWhile List.isEmpty = []
  · rw [only, List.append_nil] at stripped
    have above : now.node init = some .dir := by
      refine Fs.node_above (q := [n]) ?_ (List.cons_ne_nil _ _)
      rw [← stripped, within.stands]
      exact Option.some_ne_none _
    rw [Fs.follow_dir above] at leads
    cases leads
    exact stripped ▸ List.prefix_rfl
  · obtain ⟨front, m, split⟩ := List.eq_nil_or_concat _ |>.resolve_left only
    rw [split, List.concat_eq_append, ← List.append_assoc] at stripped
    obtain ⟨rfl, rfl⟩ := List.append_singleton_inj.mp stripped
    have part : front <+: path := by
      refine List.IsPrefix.trans ?_ (List.rdropWhile_prefix List.isEmpty path)
      rw [split, List.concat_eq_append]
      exact List.prefix_append ..
    have inside : dest <+: d := within.follow_inside (fun mem => level (part.subset mem)) leads
    exact inside.trans (List.prefix_append ..)

/-! ## Changes along paths into the folder -/

theorem put {d : Place} {n : Name} {x : Node} (free : now.Free d n) (numbered : ∀ i, x = .file i → i < now.next)
    (inside : dest <+: d ++ [n]) (new : ∀ i, x = .file i → before.next ≤ i) (tame : ∀ t, x = .link t → Inward t) :
    Within before dest (now.put d n x free numbered) where
  outside p apart := by
    have other : p ≠ d ++ [n] := fun same => apart (same ▸ inside)
    rw [Fs.node_put_of_ne free numbered other, within.outside p apart]
  old := within.old
  grown := within.grown
  new p i under there := by
    by_cases same : p = d ++ [n]
    · rw [same, Fs.node_put_self] at there
      exact new i (Option.some.inj there)
    · rw [Fs.node_put_of_ne free numbered same] at there
      exact within.new p i under there
  tame p t under there := by
    by_cases same : p = d ++ [n]
    · rw [same, Fs.node_put_self] at there
      exact tame t (Option.some.inj there)
    · rw [Fs.node_put_of_ne free numbered same] at there
      exact within.tame p t under there
  stands := Fs.node_put_of_some free numbered within.stands

theorem setData {i : Nat} (new : before.next ≤ i) (c : Contents) : Within before dest (now.setData i c) where
  outside := within.outside
  old j below := (Function.update_of_ne (by omega) ..).trans (within.old j below)
  grown := within.grown
  new := within.new
  tame := within.tame
  stands := within.stands

theorem fileMade (mode : Nat) : Within before dest (now.fileMade mode) where
  outside := within.outside
  old j below := by
    have grown := within.grown
    exact (Function.update_of_ne (by omega) ..).trans (within.old j below)
  grown := within.grown.trans (Nat.le_succ _)
  new := within.new
  tame := within.tame
  stands := within.stands

theorem mkdir {path : Path} (level : dotdot ∉ path) {later : Fs} (made : now.mkdir (dest ++ path) = .ok later) :
    Within before dest later := by
  obtain ⟨d, n, named, free, rfl⟩ := Fs.mkdir_eq_ok made
  exact within.put free _ (within.entry_inside level named) (fun _ same => by cases same) fun _ same => by cases same

theorem symlink {target : List UInt8} (inward : Inward target) {path : Path} (level : dotdot ∉ path) {later : Fs}
    (made : now.symlink target (dest ++ path) = .ok later) : Within before dest later := by
  obtain ⟨d, n, named, free, rfl⟩ := Fs.symlink_eq_ok made
  refine within.put free _ (within.entry_inside level named) (fun _ same => by cases same) fun t same => ?_
  cases same
  exact inward

theorem openWrite {mode : Nat} {path : Path} (level : dotdot ∉ path) {i : Nat} {later : Fs}
    (opened : now.openWrite mode (dest ++ path) = .ok (i, later)) : Within before dest later ∧ before.next ≤ i := by
  rcases Fs.openWrite_eq_ok opened with ⟨d, n, leads, rfl, free, rfl⟩ | ⟨p, leads, there, rfl⟩
  · have inside : dest <+: d := within.follow_inside level leads
    have grown := within.grown
    refine ⟨(within.fileMade mode).put free _ (inside.trans (List.prefix_append ..)) (fun i same => ?_) ?_, grown⟩
    · cases same
      exact grown
    · intro _ same
      cases same
  · have new := within.new p i (within.follow_inside level leads) there
    exact ⟨within.setData new _, new⟩

theorem append {i : Nat} (new : before.next ≤ i) (bytes : List UInt8) : Within before dest (now.append i bytes) :=
  within.setData new _

theorem chmod {mode : Nat} {path : Path} (level : dotdot ∉ path) {later : Fs}
    (changed : now.chmod mode (dest ++ path) = .ok later) : Within before dest later := by
  rcases Fs.chmod_eq_ok changed with rfl | ⟨p, i, leads, there, rfl⟩
  · exact within
  · exact within.setData (within.new p i (within.follow_inside level leads) there) _

end Within

/-! ## The folder made and removed -/

namespace Fs

variable {before now later : Fs}

/-- A folder that is there is not made again. -/
theorem mkdir_dir {fs : Fs} {q : Place} (there : fs.node q = some .dir) : fs.mkdir q ≠ .ok later := by
  intro made
  obtain ⟨d, n, named, free, -⟩ := mkdir_eq_ok made
  obtain ⟨init, stripped, leads⟩ := entry_eq_ok named
  have same := rdropWhile_of_dir there []
  rw [List.append_nil, List.rdropWhile_nil, List.append_nil, stripped] at same
  have above : fs.node init = some .dir := by
    refine node_above (q := [n]) ?_ (List.cons_ne_nil _ _)
    rw [same, there]
    exact Option.some_ne_none _
  rw [follow_dir above] at leads
  cases leads
  rw [← same, free.1] at there
  cases there

theorem follow_free {fs : Fs} {d : Place} {n : Name} (free : fs.Free d n) : fs.follow (d ++ [n]) = .ok (.free d n) := by
  obtain ⟨none, dir, proper⟩ := free
  rw [follow_append dir]
  change fs.walkFrom _ d [n] = _
  unfold walkFrom
  rw [if_neg fun h => h.elim proper.1 proper.2.1, if_neg proper.2.2.1, none]
  rfl

theorem node_below_none {fs : Fs} {q p : Place} (none : fs.node q = none) (below : q <+: p) : fs.node p = Option.none := by
  obtain ⟨rest, rfl⟩ := below
  by_contra there
  by_cases same : rest = []
  · rw [same, List.append_nil] at there
    exact there none
  · rw [node_above there same] at none
    cases none

/-- A folder made in another was not there, and only it is new. -/
theorem mkdir_new {d : Place} (dir : before.node d = some .dir) {n : Name} (nonempty : n ≠ [])
    (made : before.mkdir (d ++ [n]) = .ok now) : before.Free d n ∧ Within before (d ++ [n]) now := by
  obtain ⟨d', n', named, free, rfl⟩ := mkdir_eq_ok made
  obtain ⟨init, stripped, leads⟩ := entry_eq_ok named
  rw [List.rdropWhile_concat_neg _ _ _ fun blank => nonempty (List.isEmpty_iff.mp blank)] at stripped
  obtain ⟨rfl, rfl⟩ := List.append_singleton_inj.mp stripped
  rw [follow_dir dir] at leads
  cases leads
  refine ⟨free, ?_, fun _ _ => rfl, le_rfl, ?_, ?_, node_put_self ..⟩
  · exact fun p apart => node_put_of_ne free _ fun same => apart (same ▸ List.prefix_rfl)
  · intro p i below there
    by_cases same : p = d ++ [n]
    · rw [same, node_put_self] at there
      cases there
    · rw [node_put_of_ne free _ same, node_below_none free.1 below] at there
      cases there
  · intro p t below there
    by_cases same : p = d ++ [n]
    · rw [same, node_put_self] at there
      cases there
    · rw [node_put_of_ne free _ same, node_below_none free.1 below] at there
      cases there

end Fs

/-- Everything that was there is as it was. -/
structure Same (before now : Fs) : Prop where
  node : now.node = before.node
  data : ∀ i < before.next, now.data i = before.data i

theorem Same.refl (fs : Fs) : Same fs fs := ⟨rfl, fun _ _ => rfl⟩

/-- The new folder removed, everything is as before. -/
theorem Within.removeAll {before now : Fs} {d : Place} {n : Name} (within : Within before (d ++ [n]) now)
    (absent : before.node (d ++ [n]) = none) : Same before (now.removeAll (d ++ [n])) := by
  have there : now.node (d ++ [n]) ≠ none := by
    rw [within.stands]
    exact Option.some_ne_none _
  obtain ⟨dir, proper⟩ := now.parent d n there
  unfold Fs.removeAll
  rw [Fs.entry_append dir proper]
  dsimp only
  rw [within.stands, if_neg (by decide)]
  refine ⟨funext fun p => ?_, within.old⟩
  change (if Fs.Under (d ++ [n]) true p then none else now.node p) = before.node p
  by_cases below : d ++ [n] <+: p
  · rw [if_pos ⟨below, fun _ => rfl⟩, Fs.node_below_none absent below]
  · rw [if_neg fun under => below under.1, within.outside p below]

/-! ## A folder that was there removed -/

namespace Fs

variable {fs now : Fs} {parent : Place} {n : Name}

/-- A folder's member that leads to a folder, or a way to say a folder itself. -/
theorem foundDir_cases (dir : fs.node parent = some .dir) (nonempty : n ≠ []) (found : fs.foundDir (parent ++ [n]) = true) :
    (n = dot ∨ n = dotdot) ∨ Proper n ∧ ∃ x, fs.node (parent ++ [n]) = some x ∧ x.isFile = false := by
  by_cases dots : n = dot ∨ n = dotdot
  · exact .inl dots
  obtain ⟨one, two⟩ := not_or.mp dots
  have walked : fs.walk MAXSYMLINKS parent [n] = fs.walkFrom _ parent [n] := rfl
  unfold foundDir at found
  rw [follow_append dir, walked] at found
  unfold walkFrom at found
  rw [if_neg fun h => h.elim nonempty one, if_neg two] at found
  cases member : fs.node (parent ++ [n]) with
  | none =>
    rw [member] at found
    cases found
  | some x =>
    have proper := (fs.parent parent n (by rw [member]; exact Option.some_ne_none _)).2
    refine .inr ⟨proper, x, rfl, ?_⟩
    cases x with
    | dir => rfl
    | link t => rfl
    | file i =>
      rw [member] at found
      dsimp only at found
      rw [if_pos rfl] at found
      have isDir := of_decide_eq_true found
      rw [member] at isDir
      cases isDir

theorem entry_dots {d : Place} (dots : n = dot ∨ n = dotdot) : fs.entry (d ++ [n]) = .error EEXIST := by
  have stripped : (d ++ [n]).rdropWhile List.isEmpty = d ++ [n] :=
    List.rdropWhile_concat_neg _ _ _ fun blank => by rcases dots with rfl | rfl <;> cases blank
  unfold entry
  simp only [stripped, List.getLast?_append, List.getLast?_singleton, Option.some_or, if_pos dots]

/-- What is taken is not made, and not for want of anything above it. -/
theorem mkdir_taken (dir : fs.node parent = some .dir) (nonempty : n ≠ []) (found : fs.foundDir (parent ++ [n]) = true) :
    fs.mkdir (parent ++ [n]) = .error EEXIST := by
  unfold mkdir
  rcases foundDir_cases dir nonempty found with dots | ⟨proper, x, there, -⟩
  · rw [entry_dots dots]
  · rw [entry_append dir proper]
    exact dif_neg fun free => by rw [free.1] at there; cases there

/-- Removing a folder that was there takes something away that was there. -/
theorem removeAll_taken (grows : fs.Grows now) (dir : fs.node parent = some .dir) (nonempty : n ≠ [])
    (found : fs.foundDir (parent ++ [n]) = true) {last : Name} (member : fs.node (parent ++ [last]) ≠ none) :
    ∃ p, fs.node p ≠ none ∧ (now.removeAll (parent ++ [n])).node p = none := by
  have dir' := grows _ _ dir
  have emptied {q : Place} (above : q <+: parent) (leads : now.follow (parent ++ [n]) = .ok (.there q))
      (dots : n = dot ∨ n = dotdot) : (now.removeAll (parent ++ [n])).node (parent ++ [last]) = none := by
    unfold removeAll
    rw [entry_dots dots, leads]
    refine if_pos (show Under q false (parent ++ [last]) from ⟨above.trans (List.prefix_append ..), fun same => ?_⟩)
    have := above.length_le
    rw [← same, List.length_append, List.length_singleton] at this
    omega
  rcases foundDir_cases dir nonempty found with dots | ⟨proper, x, there, notFile⟩
  · refine ⟨_, member, ?_⟩
    rcases dots with rfl | rfl
    · exact emptied List.prefix_rfl (follow_append dir' [dot]) (.inl rfl)
    · exact emptied (List.dropLast_prefix _) (follow_append dir' [dotdot]) (.inr rfl)
  · refine ⟨parent ++ [n], by rw [there]; exact Option.some_ne_none _, ?_⟩
    unfold removeAll
    rw [entry_append dir' proper]
    dsimp only
    rw [grows _ _ there, Option.any_some, notFile, if_neg Bool.false_ne_true]
    exact if_pos (show Under _ true _ from ⟨List.prefix_rfl, fun _ => rfl⟩)

end Fs

end UnixFs
