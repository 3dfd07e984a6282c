import K2.FsExtract.Confinement
import K2.Lib.Terminal

/-! # Confined and all or nothing

An extraction makes and writes only inside one new folder, and one that fails
leaves everything as it was, unless every name it could give that folder is taken:
then it goes into the folder that has the first of them, and a failure removes it. -/

namespace K2.FsExtract

open UnixFs Triple

/-- Nothing is at a path. -/
def New (before : Fs) (dest : Path) : Prop := before.node dest = none ∧ before.found dest = false

/-- Only what is in one folder differs. -/
def OnlyIn (before : Fs) (dest : Place) (now : Fs) : Prop :=
  (∀ p, ¬dest <+: p → now.node p = before.node p) ∧ ∀ i < before.next, now.data i = before.data i

/-- At every moment only what is in one new folder differs from before, and after
    an error nothing does. -/
def AllOrNothing (before : Fs) : EStateM.Result String World Path → Prop
  | .ok dest w => New before dest ∧ ∀ s ∈ w.seen, OnlyIn before dest s
  | .error _ w => Same before w.fs ∧
      ((∀ s ∈ w.seen, Same before s) ∨ ∃ dest, New before dest ∧ ∀ s ∈ w.seen, OnlyIn before dest s)

/-- Every name for the folder is taken. -/
def AllTaken (env : Env) (fs : Fs) (parent : Place) (stem : Name) : Prop :=
  ∀ i, 1 ≤ i → i < 10000 → «exists» env fs (candidate parent stem i) = true

/-- They are, once the archive is open, and the first of them is a folder. -/
def Overrun (env : Env) (enclosed : EnclosedName) (fs : Fs) (src : List UInt8) (archive : Except String (List Entry)) : Prop :=
  ∃ parent stem entries w, openArchive env enclosed src archive (.start fs) = .ok (parent, stem, entries) w ∧
    isDir env fs (parent ++ [stem]) = true ∧ AllTaken env fs parent stem

/-! ## Before anything is made -/

def Untouched (before : Fs) (w : World) : Prop := w.fs = before ∧ w.past = []

section

variable {before : Fs} {env : Env}

theorem untouched_reading : Ends (Untouched before) (reading env) (fun _ => Untouched before) (Untouched before) := by
  intro w same
  unfold reading
  cases env.fault w.calls <;> exact same

theorem untouched_prescan {enclosed : EnclosedName} (entries : List Entry) (i declared : Nat) :
    Ends (Untouched before) (prescan env enclosed i declared entries) (fun _ => Untouched before) (Untouched before) := by
  induction entries generalizing i declared with
  | nil => exact .pure fun _ => id
  | cons entry rest ih =>
    unfold prescan
    refine Ends.bind (Q := fun _ => Untouched before) (fun _ same => same) fun stop => ?_
    cases stop with
    | true => exact .throw fun _ => id
    | false =>
      refine Ends.bind untouched_reading.mapErr fun _ => ?_
      split
      · exact .throw fun _ => id
      split
      · exact .throw fun _ => id
      split
      · exact .throw fun _ => id
      · exact ih _ _

theorem validateParent_eq_ok {raw : List UInt8} {path : Path} (valid : validateParent env before raw = .ok path) :
    path = env.path raw := by
  unfold validateParent at valid
  dsimp only at valid
  by_cases rootless : components raw = [] ∨ components raw = [.RootDir]
  · rw [if_pos rootless] at valid
    cases valid
  rw [if_neg rootless] at valid
  by_cases above : (components raw).dropLast ≠ [] ∧ «exists» env before (if absolute raw then
      (components raw).dropLast.map Component.toName else env.cwd ++ (components raw).dropLast.map Component.toName) = true
  · rw [if_pos above] at valid
    exact (Except.ok.inj valid).symm
  · rw [if_neg above] at valid
    cases valid

theorem validatePath_isFile {raw : List UInt8} {path : Path} (valid : validatePath env before raw = .ok path)
    (file : isFile env before path = true) : before.node path ≠ none := by
  obtain ⟨visible, found⟩ := Bool.and_eq_true_iff.mp file
  unfold validatePath at valid
  by_cases empty : raw = []
  · rw [if_pos empty] at valid
    cases valid
  rw [if_neg empty] at valid
  by_cases denied : env.denied (env.path raw) = true
  · rw [if_pos denied] at valid
    rw [validateParent_eq_ok valid, denied] at visible
    cases visible
  rw [if_neg denied] at valid
  split at valid
  next p leads =>
    cases valid
    exact Fs.follow_there leads
  next nowhere =>
    obtain rfl := validateParent_eq_ok valid
    unfold Fs.foundFile at found
    split at found
    next p leads => exact absurd leads (nowhere p)
    next => cases found

/-- What the archive's name says, in a folder that is there. -/
structure Opened (before : Fs) (r : Place × Name × List Entry) : Prop where
  named : r.2.1 ≠ []
  member : ∃ last, before.node (r.1 ++ [last]) ≠ none

theorem untouched_openArchive {enclosed : EnclosedName} (src : List UInt8) (archive : Except String (List Entry)) :
    Ends (Untouched before) (openArchive env enclosed src archive) (fun r w => Untouched before w ∧ Opened before r)
      (Untouched before) := by
  unfold openArchive
  refine Ends.bind (Q := fun a w => Untouched before w ∧ a.fs = before) (fun _ same => ⟨same, same.1⟩) fun a => ?_
  intro w ⟨same, fs⟩
  rw [fs]
  refine Ends.weaken (P := Untouched before) ?_ (fun _ => id) (fun _ _ => id) (fun _ => id) w same
  cases valid : validatePath env before src with
  | error e => exact .throw fun _ => id
  | ok path =>
    dsimp only
    by_cases file : isFile env before path = true
    · rw [file]
      have there := validatePath_isFile valid file
      cases last : path.getLast? with
      | none => exact .throw fun _ => id
      | some name =>
        have whole : path.dropLast ++ [name] = path := List.dropLast_append_getLast? _ last
        dsimp only
        rw [if_neg (show ¬(!true) = true by decide)]
        split
        · exact .throw fun _ => id
        split
        · exact .throw fun _ => id
        next nonempty =>
        refine Ends.bind untouched_reading.mapErr fun _ => ?_
        cases archive with
        | error e => exact .throw fun _ => id
        | ok entries =>
          dsimp only
          split
          · exact .throw fun _ => id
          · exact (untouched_prescan entries 0 0).bind fun _ =>
              .pure fun _ same => ⟨same, nonempty, name, by rw [whole]; exact there⟩
    · rw [Bool.eq_false_iff.mpr file]
      exact .throw fun _ => id

/-! ## The folder is made -/

theorem untouched_mkdir {path : Path} (there : before.node path = some .dir) :
    Ends (Untouched before) (mkdir env path) (fun _ => Untouched before) (Untouched before) := by
  intro w same
  obtain ⟨fs, past⟩ := same
  unfold mkdir change call
  cases env.fault w.calls with
  | some text => exact ⟨fs, past⟩
  | none =>
    dsimp only
    cases made : w.fs.mkdir path with
    | error e => exact ⟨fs, past⟩
    | ok later => exact absurd (fs ▸ made) (Fs.mkdir_dir there)

/-- The folder is new, and so far only it differs. -/
def Made (before : Fs) (dest : Path) (w : World) : Prop := New before dest ∧ Kept (Within before dest) (Same before) w

variable {parent : Place} {n : Name} (dir : before.node parent = some .dir) (nonempty : n ≠ [])
include dir nonempty

theorem made_mkdir : Ends (Untouched before) (mkdir env (parent ++ [n])) (fun _ => Made before (parent ++ [n])) (Untouched before) := by
  intro w same
  obtain ⟨fs, past⟩ := same
  unfold mkdir change call
  cases env.fault w.calls with
  | some text => exact ⟨fs, past⟩
  | none =>
    dsimp only
    cases made : w.fs.mkdir (parent ++ [n]) with
    | error e => exact ⟨fs, past⟩
    | ok later =>
      obtain ⟨free, within⟩ := Fs.mkdir_new dir nonempty (fs ▸ made)
      refine ⟨⟨free.1, ?_⟩, within, fun s mem => ?_⟩
      · rw [Fs.found, Fs.follow_free free]
      · rw [World.seen, past, List.mem_singleton, fs] at mem
        exact mem ▸ Same.refl before

omit nonempty in
theorem names_dir : names parent = parent :=
  names_of_proper fun _ mem => Fs.proper_of_mem (by rw [dir]; exact Option.some_ne_none _) mem

omit nonempty in
theorem dir_above : before.node (names (parent ++ [n])).dropLast = some .dir := by
  rw [names_append, names_dir dir]
  by_cases skipped : names [n] = []
  · rw [skipped, List.append_nil]
    exact Fs.dir_dropLast dir
  · have one : names [n] = [n] := by
      unfold names at skipped ⊢
      rw [List.filter_cons] at skipped ⊢
      split
      · rfl
      · rw [if_neg ‹_›] at skipped
        exact absurd rfl skipped
    rw [one, List.dropLast_concat]
    exact dir

theorem made_createDirAll (depth : Nat) : Ends (Untouched before) (createDirAll env depth (parent ++ [n]))
    (fun _ w => Made before (parent ++ [n]) w ∨ Untouched before w ∧ isDir env before (parent ++ [n]) = true)
    (Untouched before) := by
  have above (d : Nat) : Ends (Untouched before) (createDirAll env d (names (parent ++ [n])).dropLast)
      (fun _ => Untouched before) (Untouched before) :=
    ends_createDirAll_of (fun there => by rw [names_dir there]; exact Fs.dir_dropLast there) (fun there => untouched_mkdir there) d
      (dir_above dir)
  refine ends_createDirAll_step depth (fun d _ => above d) ?_ fun w same folder => .inr ⟨same, same.1 ▸ folder⟩
  exact (made_mkdir dir nonempty).weaken (fun _ => id) (fun _ _ => .inl) fun _ => id

end

/-! ## A run -/

theorem exists_of_isDir {env : Env} {fs : Fs} {path : Path} (folder : isDir env fs path = true) : «exists» env fs path = true := by
  obtain ⟨visible, found⟩ := Bool.and_eq_true_iff.mp folder
  refine Bool.and_eq_true_iff.mpr ⟨visible, ?_⟩
  unfold Fs.foundDir at found
  unfold Fs.found
  split at found
  next => rfl
  next => cases found

theorem siblingDestDir_cases (env : Env) (fs : Fs) (parent : Place) {stem : Name} (nonempty : stem ≠ []) :
    (∃ n ≠ [], siblingDestDir env fs parent stem = parent ++ [n] ∧ isDir env fs (parent ++ [n]) = false) ∨
      siblingDestDir env fs parent stem = parent ++ [stem] ∧ isDir env fs (parent ++ [stem]) = true ∧ AllTaken env fs parent stem := by
  have free {n : Name} (absent : «exists» env fs (parent ++ [n]) = false) : isDir env fs (parent ++ [n]) = false := by
    by_contra folder
    rw [exists_of_isDir (Bool.not_eq_false _ ▸ folder)] at absent
    cases absent
  unfold siblingDestDir
  by_cases first : «exists» env fs (parent ++ [stem]) = true
  · rw [if_pos first]
    cases search : ((List.range' 1 9999).map (candidate parent stem)).find? fun c => !«exists» env fs c with
    | some c =>
      obtain ⟨i, -, rfl⟩ := List.mem_map.mp (List.mem_of_find?_eq_some search)
      have absent := List.find?_some search
      exact .inl ⟨_, List.append_ne_nil_of_left_ne_nil nonempty _, rfl, free (Bool.not_eq_true' _ ▸ absent)⟩
    | none =>
      have taken := List.find?_eq_none.mp search
      by_cases folder : isDir env fs (parent ++ [stem]) = true
      · refine .inr ⟨rfl, folder, fun i low high => ?_⟩
        have := taken _ (List.mem_map_of_mem (List.mem_range'_1.mpr ⟨low, by omega⟩))
        simpa using this
      · exact .inl ⟨stem, nonempty, rfl, Bool.eq_false_iff.mpr folder⟩
  · rw [if_neg first]
    exact .inl ⟨stem, nonempty, rfl, free (Bool.eq_false_iff.mpr first)⟩

theorem siblingDestDir_taken {env : Env} {fs : Fs} {parent : Place} {stem : Name} (folder : isDir env fs (parent ++ [stem]) = true)
    (taken : AllTaken env fs parent stem) : siblingDestDir env fs parent stem = parent ++ [stem] := by
  have none : ((List.range' 1 9999).map (candidate parent stem)).find? (fun c => !«exists» env fs c) = Option.none := by
    refine List.find?_eq_none.mpr fun c mem => ?_
    obtain ⟨i, range, rfl⟩ := List.mem_map.mp mem
    obtain ⟨low, high⟩ := List.mem_range'_1.mp range
    rw [taken i low (by omega)]
    exact Bool.false_ne_true
  unfold siblingDestDir
  rw [if_pos (exists_of_isDir folder), none]
  rfl

section

variable {before : Fs} {env : Env} {enclosed : EnclosedName} {parent : Place} {stem : Name} (entries : List Entry)
  (dir : before.node parent = some .dir) (nonempty : stem ≠ [])

theorem OnlyIn.of_same {dest : Place} {s : Fs} (same : Same before s) : OnlyIn before dest s :=
  ⟨fun p _ => congrFun same.node p, same.data⟩

theorem OnlyIn.of_within {dest : Place} {s : Fs} (within : Within before dest s) : OnlyIn before dest s :=
  ⟨within.outside, within.old⟩

include dir nonempty

/-- With a name that is no folder's, an extraction stays in a new folder. -/
theorem extractBeside_confined (relative : enclosed.Relative)
    (room : ¬(isDir env before (parent ++ [stem]) = true ∧ AllTaken env before parent stem)) :
    Ends (Untouched before) (extractBeside env enclosed parent stem entries) (fun dest w => AllOrNothing before (.ok dest w))
      (fun w => ∀ e, AllOrNothing before (.error e w)) := by
  obtain ⟨n, nonempty, chosen, free⟩ := (siblingDestDir_cases env before parent nonempty).resolve_right fun h => room h.2
  unfold extractBeside
  refine Ends.bind (Q := fun a w => Untouched before w ∧ a.fs = before) (fun _ same => ⟨same, same.1⟩) fun a => ?_
  intro w ⟨same, fs⟩
  rw [fs, chosen]
  refine Ends.bind (P := Untouched before) (Q := fun _ => Made before (parent ++ [n])) ?_ (fun _ => ?_) w same
  · refine (made_createDirAll dir nonempty _).mapErr.weaken (fun _ => id) (fun _ w h => h.resolve_right fun taken => ?_) fun w same e => ?_
    · rw [free] at taken
      cases taken.2
    · have seen : ∀ s ∈ w.seen, Same before s := fun s mem => by
        rw [World.seen, same.1, same.2, List.mem_singleton] at mem
        exact mem ▸ Same.refl before
      exact ⟨seen _ (List.mem_cons_self ..), .inl seen⟩
  intro w ⟨new, within, past⟩
  have proper : ∀ m ∈ parent ++ [n], Proper m := fun m mem =>
    Fs.proper_of_mem (by rw [within.stands]; exact Option.some_ne_none _) mem
  have inside : Ends (Kept (Within before (parent ++ [n])) (OnlyIn before (parent ++ [n])))
      (extractEntries env enclosed (parent ++ [n]) 0 0 entries) (fun _ => Kept (Within before (parent ++ [n])) (OnlyIn before (parent ++ [n])))
      (Kept (Within before (parent ++ [n])) (OnlyIn before (parent ++ [n]))) :=
    ends_extractEntries (fun _ => OnlyIn.of_within) (stable_within proper) relative entries 0 0
  refine Ends.bind (Q := fun _ => Kept (Within before (parent ++ [n])) (OnlyIn before (parent ++ [n])))
    (E := fun w => ∀ e, AllOrNothing before (.error e w))
    (inside.attempt (fun _ _ => id) fun _ _ => id) (fun r => ?_) w ⟨within, fun s mem => OnlyIn.of_same (past s mem)⟩
  cases r with
  | ok _ =>
    refine .pure fun w kept => ⟨new, fun s mem => ?_⟩
    exact (List.mem_cons.mp mem).elim (fun same => same ▸ OnlyIn.of_within kept.1) (kept.2 s)
  | error e =>
    intro w ⟨within, past⟩ e
    have same := within.removeAll new.1
    refine ⟨same, .inr ⟨_, new, fun s mem => ?_⟩⟩
    rcases List.mem_cons.mp mem with rfl | mem
    · exact OnlyIn.of_same same
    rcases List.mem_cons.mp mem with rfl | mem
    · exact OnlyIn.of_within within
    · exact past s mem

theorem untouched_createDirAll (folder : isDir env before (parent ++ [stem]) = true) (depth : Nat) :
    Ends (Untouched before) (createDirAll env depth (parent ++ [stem])) (fun _ => Untouched before) (fun _ => False) := by
  intro w same
  have refused : ∃ e, e.notFound = false ∧ mkdir env (parent ++ [stem]) w = .error e w.ticked := by
    unfold mkdir change call
    cases env.fault w.calls with
    | some text => exact ⟨_, rfl, rfl⟩
    | none =>
      dsimp only
      rw [same.1, Fs.mkdir_taken dir nonempty (Bool.and_eq_true_iff.mp folder).2]
      exact ⟨_, rfl, rfl⟩
  obtain ⟨e, other, refused⟩ := refused
  have tried : (attempt (mkdir env (parent ++ [stem])) : EStateM Errno World _) w = .ok (.error e) w.ticked := by
    unfold attempt
    rw [refused]
  have passed : createDirAll env depth (parent ++ [stem]) w = .ok () w.ticked := by
    have there : unlessDir env (parent ++ [stem]) e w.ticked = .ok () w.ticked := by
      change (if isDir env w.fs (parent ++ [stem]) then (pure () : EStateM Errno World Unit) else throw e) w.ticked = _
      rw [same.1, if_pos folder]
      rfl
    unfold createDirAll
    rw [bind_ok tried]
    dsimp only
    rw [other, if_neg Bool.false_ne_true, there]
  rw [passed]
  exact same

/-- With every name taken and the first a folder's, it is that one's contents. -/
theorem extractBeside_overrun (relative : enclosed.Relative) {last : Name} (member : before.node (parent ++ [last]) ≠ none)
    (folder : isDir env before (parent ++ [stem]) = true) (taken : AllTaken env before parent stem) :
    Ends (Untouched before) (extractBeside env enclosed parent stem entries) (fun dest w => ¬AllOrNothing before (.ok dest w))
      (fun w => ∀ e, ¬AllOrNothing before (.error e w)) := by
  have found := (Bool.and_eq_true_iff.mp folder).2
  have there : before.found (parent ++ [stem]) = true := (Bool.and_eq_true_iff.mp (exists_of_isDir folder)).2
  unfold extractBeside
  refine Ends.bind (Q := fun a w => Untouched before w ∧ a.fs = before) (fun _ same => ⟨same, same.1⟩) fun a => ?_
  intro w ⟨same, fs⟩
  rw [fs, siblingDestDir_taken folder taken]
  refine Ends.bind (P := Untouched before) (Q := fun _ => Untouched before) ?_ (fun _ => ?_) w same
  · exact (untouched_createDirAll dir nonempty folder _).mapErr.weaken (fun _ => id) (fun _ _ => id) fun _ none => none.elim
  have kept : Ends (Kept before.Grows fun _ => True) (extractEntries env enclosed (parent ++ [stem]) 0 0 entries)
      (fun _ => Kept before.Grows fun _ => True) (Kept before.Grows fun _ => True) :=
    ends_extractEntries (fun _ _ => trivial) (stable_grows before (parent ++ [stem])) relative entries 0 0
  have started : Ends (Untouched before) (extractEntries env enclosed (parent ++ [stem]) 0 0 entries)
      (fun _ => Kept before.Grows fun _ => True) (Kept before.Grows fun _ => True) :=
    kept.weaken (fun w same => ⟨same.1 ▸ Fs.Grows.refl before, fun _ _ => trivial⟩) (fun _ _ => id) fun _ => id
  refine Ends.bind (Q := fun _ => Kept before.Grows fun _ => True) (E := fun w => ∀ e, ¬AllOrNothing before (.error e w))
    (started.attempt (fun _ _ => id) fun _ _ => id) fun r => ?_
  cases r with
  | ok _ =>
    refine .pure fun w _ all => ?_
    rw [all.1.2] at there
    cases there
  | error e =>
    intro w kept e all
    obtain ⟨p, here, gone⟩ := Fs.removeAll_taken kept.1 dir nonempty found member
    exact here (congrFun all.1.node p ▸ gone)

end

section

variable {before : Fs} {env : Env} {enclosed : EnclosedName} {src : List UInt8} {archive : Except String (List Entry)}

theorem extractFromZip_opened (relative : enclosed.Relative) {parent : Place} {stem : Name} {entries : List Entry} {w : World}
    (opened : openArchive env enclosed src archive (.start before) = .ok (parent, stem, entries) w) :
    AllOrNothing before (extractFromZip env enclosed src archive (.start before)) ↔
      ¬(isDir env before (parent ++ [stem]) = true ∧ AllTaken env before parent stem) := by
  have start : Untouched before (.start before) := ⟨rfl, rfl⟩
  obtain ⟨same, nonempty, last, member⟩ := (untouched_openArchive src archive).ok start opened
  have dir := (before.parent _ _ member).1
  have rest : extractFromZip env enclosed src archive (.start before) = extractBeside env enclosed parent stem entries w := by
    unfold extractFromZip
    rw [bind_ok opened]
  rw [rest]
  constructor
  · rintro all ⟨folder, taken⟩
    have overrun := extractBeside_overrun entries dir nonempty relative member folder taken w same
    cases ran : extractBeside env enclosed parent stem entries w with
    | ok dest w' =>
      rw [ran] at all overrun
      exact overrun all
    | error e w' =>
      rw [ran] at all overrun
      exact overrun e all
  · intro room
    have confined := extractBeside_confined entries dir nonempty relative room w same
    cases ran : extractBeside env enclosed parent stem entries w with
    | ok dest w' =>
      rw [ran] at confined
      exact confined
    | error e w' =>
      rw [ran] at confined
      exact confined e

/-- Wherever it fails or is cancelled, an extraction is confined to one new folder
    and all or nothing, exactly when it does not find every name taken and the
    first a folder's. -/
theorem extractFromZip_allOrNothing_iff (relative : enclosed.Relative) :
    AllOrNothing before (extractFromZip env enclosed src archive (.start before)) ↔ ¬Overrun env enclosed before src archive := by
  cases opened : openArchive env enclosed src archive (.start before) with
  | ok r w =>
    obtain ⟨parent, stem, entries⟩ := r
    rw [extractFromZip_opened relative opened]
    refine not_congr ⟨fun taken => ⟨parent, stem, entries, w, opened, taken⟩, fun ⟨_, _, _, _, same, taken⟩ => ?_⟩
    rw [opened] at same
    cases same
    exact taken
  | error e w =>
    have same := (untouched_openArchive src archive).error ⟨rfl, rfl⟩ opened
    have failed : extractFromZip env enclosed src archive (.start before) = .error e w := by
      unfold extractFromZip
      rw [bind_error opened]
    have seen : ∀ s ∈ w.seen, Same before s := fun s mem => by
      rw [World.seen, same.1, same.2, List.mem_singleton] at mem
      exact mem ▸ Same.refl before
    rw [failed]
    refine iff_of_true ⟨seen _ (List.mem_cons_self ..), .inl seen⟩ fun ⟨_, _, _, _, other, _⟩ => ?_
    rw [opened] at other
    cases other

end

/-! ## Every name taken -/

/-- A member's name as it is, when it is safe. -/
def plainName : EnclosedName := fun name => if memberNameIsSafe (utf8 name) then some (utf8 name) else none

theorem plainName_relative : plainName.Relative := by
  intro name rel named
  unfold plainName at named
  by_cases safe : memberNameIsSafe (utf8 name) = true
  · rw [if_pos safe] at named
    obtain rfl := Option.some.inj named
    unfold memberNameIsSafe at safe
    split at safe
    · cases safe
    split at safe
    · cases safe
    next relative =>
    split at safe
    · cases safe
    · exact ⟨Bool.eq_false_iff.mpr relative, level_of_safe safe⟩
  · rw [if_neg safe] at named
    cases named

/-- No call fails; the flag is read as set from its given time on. -/
def calm (firstCancel : Nat) : Env where
  cwd := []
  fault _ := none
  denied _ := false
  cancel n := decide (firstCancel ≤ n)
  copied _ := 0
  fileMode := 0o644

/-- `/a.zip`, and a folder for every other name with an `a` in front; `/a` has a file. -/
def crowdedNode : Place → Option Node
  | [] => some .dir
  | [n] => if n = [0x61, 0x2E, 0x7A, 0x69, 0x70] then some (.file 0) else if n.head? = some 0x61 ∧ Proper n then some .dir else none
  | [d, n] => if d = [0x61] ∧ n = [0x6B] then some (.file 1) else none
  | _ => none

def crowded : Fs where
  node := crowdedNode
  data _ := ⟨[], 0o644⟩
  next := 2
  root := rfl
  parent := by
    intro p n there
    match p with
    | [] =>
      refine ⟨rfl, ?_⟩
      change (if n = _ then _ else if n.head? = some 0x61 ∧ Proper n then _ else none) ≠ none at there
      by_cases zip : n = [0x61, 0x2E, 0x7A, 0x69, 0x70]
      · exact zip ▸ by decide
      rw [if_neg zip] at there
      by_cases member : n.head? = some 0x61 ∧ Proper n
      · exact member.2
      · rw [if_neg member] at there
        exact absurd rfl there
    | [d] =>
      change (if d = [0x61] ∧ n = [0x6B] then _ else none) ≠ none at there
      by_cases kept : d = [0x61] ∧ n = [0x6B]
      · obtain ⟨rfl, rfl⟩ := kept
        decide
      · rw [if_neg kept] at there
        exact absurd rfl there
    | _ :: _ :: [] => exact absurd rfl there
    | _ :: _ :: _ :: _ => exact absurd rfl there
  numbered := by
    intro p i there
    match p with
    | [] => cases there
    | [n] =>
      change (if n = _ then _ else if n.head? = some 0x61 ∧ Proper n then _ else none) = _ at there
      split at there
      · cases there
        decide
      split at there <;> cases there
    | [d, n] =>
      change (if d = [0x61] ∧ n = [0x6B] then _ else none) = _ at there
      split at there <;> cases there
      decide
    | _ :: _ :: _ :: _ => cases there

theorem numbered_bytes {i : Nat} {b : UInt8} (mem : b ∈ utf8 (" (" ++ toString i ++ ")")) : b ≠ slash ∧ b ≠ 0 := by
  have digits : ∀ c ∈ (toString i).toList, ∀ x ∈ String.utf8EncodeChar c, x ≠ slash ∧ x ≠ 0 := by
    intro c digit x mem
    rw [show toString i = i.repr from rfl, Nat.toList_repr] at digit
    have isDigit := Nat.isDigit_of_mem_toDigits (by decide) (by decide) digit
    have range : 48 ≤ c.toNat ∧ c.toNat ≤ 57 := by
      have both := Bool.and_eq_true_iff.mp isDigit
      exact ⟨UInt32.le_iff_toNat_le.mp (of_decide_eq_true both.1), UInt32.le_iff_toNat_le.mp (of_decide_eq_true both.2)⟩
    rw [Terminal.encode_ascii (by omega), List.mem_singleton] at mem
    have value : x.toNat = c.toNat := by
      rw [mem, UInt8.toNat_ofNat']
      omega
    constructor <;> rintro rfl
    · change 0x2F = _ at value
      omega
    · change 0 = _ at value
      omega
  rw [utf8_append, utf8_append, List.mem_append, List.mem_append] at mem
  rcases mem with (paren | number) | close
  · rw [← String.ofList_toList (s := " ("), utf8_ofList,
      show " (".toList.flatMap String.utf8EncodeChar = [0x20, 0x28] by decide] at paren
    rcases List.mem_pair.mp paren with rfl | rfl <;> decide
  · rw [← String.ofList_toList (s := toString i), utf8_ofList] at number
    obtain ⟨c, digit, mem⟩ := List.mem_flatMap.mp number
    exact digits c digit b mem
  · rw [← String.ofList_toList (s := ")"), utf8_ofList,
      show ")".toList.flatMap String.utf8EncodeChar = [0x29] by decide] at close
    rw [List.mem_singleton.mp close]
    decide

theorem crowded_folder {n : Name} (proper : Proper n) (first : n.head? = some 0x61) (other : n ≠ [0x61, 0x2E, 0x7A, 0x69, 0x70]) :
    crowded.node [n] = some .dir := by
  change (if n = _ then _ else if n.head? = some 0x61 ∧ Proper n then _ else none) = _
  rw [if_neg other, if_pos ⟨first, proper⟩]

theorem crowded_taken (t : Nat) : AllTaken (calm t) crowded [] [0x61] := by
  intro i _ _
  have blank : utf8 (" (" ++ toString i ++ ")") = 0x20 :: 0x28 :: utf8 (toString i ++ ")") := by
    rw [String.append_assoc, utf8_append, ← String.ofList_toList (s := " ("), utf8_ofList]
    rfl
  have proper : Proper ([0x61] ++ utf8 (" (" ++ toString i ++ ")")) := by
    refine ⟨List.cons_ne_nil _ _, ?_, ?_, fun mem => ?_, fun mem => ?_⟩
    · rw [blank]
      exact fun same => by cases same
    · rw [blank]
      exact fun same => by cases same
    · rcases List.mem_append.mp mem with head | mem
      · exact absurd head (by decide)
      · exact (numbered_bytes mem).1 rfl
    · rcases List.mem_append.mp mem with head | mem
      · exact absurd head (by decide)
      · exact (numbered_bytes mem).2 rfl
  have folder : crowded.node (candidate [] [0x61] i) = some .dir := by
    refine crowded_folder proper rfl ?_
    rw [blank]
    exact fun same => by cases same
  change (true && crowded.found (candidate [] [0x61] i)) = true
  rw [Bool.true_and, Fs.found, Fs.follow_dir folder]

def cancelledEntry : Entry where
  name := String.ofList ['x']
  encrypted := false
  size := 0
  isDir := false
  isSymlink := false
  unixMode := none
  content := []

theorem crowded_opened : ∃ w, openArchive (calm 3) plainName [0x2F, 0x61, 0x2E, 0x7A, 0x69, 0x70] (.ok [cancelledEntry])
    (.start crowded) = .ok ([], [0x61], [cancelledEntry]) w := by
  have lossy : utf8 (fromUtf8Lossy [0x61, 0x2E, 0x7A, 0x69, 0x70]) = [0x61, 0x2E, 0x7A, 0x69, 0x70] := by
    rw [fromUtf8Lossy, utf8_ofList]
    decide
  have suffix : utf8 ".zip" = [0x2E, 0x7A, 0x69, 0x70] := by
    rw [← String.ofList_toList (s := ".zip"), utf8_ofList]
    decide
  have zip : isZipFilename [0x61, 0x2E, 0x7A, 0x69, 0x70] = true := by
    unfold isZipFilename
    rw [suffix]
    decide
  have stem : zipStem [0x61, 0x2E, 0x7A, 0x69, 0x70] = [0x61] := by
    unfold zipStem
    rw [zip]
    rfl
  have member : utf8 cancelledEntry.name = [0x78] := utf8_ofList _
  have named : plainName cancelledEntry.name = some [0x78] := by
    unfold plainName
    rw [member]
    decide
  have valid : validatePath (calm 3) crowded [0x2F, 0x61, 0x2E, 0x7A, 0x69, 0x70] = .ok [[0x61, 0x2E, 0x7A, 0x69, 0x70]] := rfl
  have file : isFile (calm 3) crowded [[0x61, 0x2E, 0x7A, 0x69, 0x70]] = true := by decide
  have scanned : ∃ w, prescan (calm 3) plainName 0 0 [cancelledEntry] (World.start crowded).ticked = .ok () w := by
    unfold prescan
    have going : cancelled (calm 3) (World.start crowded).ticked = .ok false (World.start crowded).ticked.ticked := rfl
    have read : told ("Failed to read zip entry " ++ toString 0) (reading (calm 3)) (World.start crowded).ticked.ticked =
        .ok () (World.start crowded).ticked.ticked.ticked := rfl
    rw [bind_ok going, if_neg Bool.false_ne_true, bind_ok read, if_neg (show ¬cancelledEntry.encrypted = true by decide), member,
      named, if_neg (by decide), if_neg (by decide)]
    exact ⟨_, rfl⟩
  obtain ⟨w, scanned⟩ := scanned
  refine ⟨w, ?_⟩
  have got : (get : EStateM String World World) (.start crowded) = .ok (.start crowded) (.start crowded) := rfl
  have opened : told ("Failed to open zip " ++ display [[0x61, 0x2E, 0x7A, 0x69, 0x70]]) (reading (calm 3)) (World.start crowded) =
      .ok () (World.start crowded).ticked := rfl
  unfold openArchive
  rw [bind_ok got, show (World.start crowded).fs = crowded from rfl, valid]
  dsimp only
  rw [file, if_neg (by decide)]
  dsimp only [List.getLast?_singleton]
  rw [lossy, zip, if_neg (by decide), stem, if_neg (by decide), bind_ok opened, if_neg (by decide), bind_ok scanned]
  rfl

/-- With `a`, `a (1)` to `a (9999)` beside `a.zip` and the job cancelled before its
    first entry, `a` goes away with what was in it. -/
theorem crowded_folder_lost : ¬AllOrNothing crowded (extractFromZip (calm 3) plainName [0x2F, 0x61, 0x2E, 0x7A, 0x69, 0x70]
    (.ok [cancelledEntry]) (.start crowded)) := by
  obtain ⟨w, opened⟩ := crowded_opened
  rw [extractFromZip_opened plainName_relative opened]
  exact not_not.mpr ⟨by decide, crowded_taken 3⟩

/-- A folder, a file in it and a script. -/
def smallArchive : List Entry :=
  [{ cancelledEntry with name := "docs/", isDir := true }, { cancelledEntry with name := "docs/read.me", size := 2, content := [104, 105] },
    { cancelledEntry with name := "run.sh", size := 1, unixMode := some 0o755, content := [10] }]

theorem extractFromZip_allOrNothing_small :
    AllOrNothing crowded (extractFromZip (calm 9) plainName [0x2F, 0x61, 0x2E, 0x7A, 0x69, 0x70] (.ok smallArchive) (.start crowded)) ↔
      ¬Overrun (calm 9) plainName crowded [0x2F, 0x61, 0x2E, 0x7A, 0x69, 0x70] (.ok smallArchive) :=
  extractFromZip_allOrNothing_iff plainName_relative

end K2.FsExtract
