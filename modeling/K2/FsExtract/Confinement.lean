import K2.FsExtract.Extract
import K2.Lib.Confined

/-! # Extraction stays in its folder

Every call of an extraction goes along a path into the destination, and keeps what
such calls keep: everything outside, and in particular whatever was there before. -/

namespace K2.FsExtract

open UnixFs Triple

/-! ## Names on a path -/

theorem names_append (a b : Path) : names (a ++ b) = names a ++ names b := List.filter_append ..

theorem names_names (a : Path) : names (names a) = names a := by
  unfold names
  rw [List.filter_filter]
  congr 1
  funext s
  exact Bool.and_self _

theorem names_of_proper {p : Path} (proper : ∀ n ∈ p, Proper n) : names p = p :=
  List.filter_eq_self.mpr fun n mem => decide_eq_true ⟨(proper n mem).1, (proper n mem).2.1⟩

theorem dotdot_names {a : Path} (level : dotdot ∉ a) : dotdot ∉ names a := fun mem => level (List.mem_of_mem_filter mem)

/-- Paths an extraction calls on: into the destination, or above it. -/
inductive OnWay (dest : Path) : Path → Prop
  | into {rest : Path} : dotdot ∉ rest → OnWay dest (dest ++ rest)
  | named {rest : Path} : dotdot ∉ rest → OnWay dest (names dest ++ rest)
  | above {path : Path} : path <+: names dest → OnWay dest path

theorem OnWay.parent_named {dest rest : Path} (level : dotdot ∉ rest) : OnWay dest (names dest ++ names rest).dropLast := by
  by_cases last : names rest = []
  · rw [last, List.append_nil]
    exact .above (List.dropLast_prefix _)
  · rw [List.dropLast_append_of_ne_nil last]
    exact .named fun mem => dotdot_names level (List.dropLast_subset _ mem)

theorem OnWay.parent {dest path : Path} (way : OnWay dest path) : OnWay dest (names path).dropLast := by
  cases way with
  | into level =>
    rw [names_append]
    exact parent_named level
  | named level =>
    rw [names_append, names_names]
    exact parent_named level
  | above part =>
    refine .above ((List.dropLast_prefix _).trans ?_)
    have := part.filter fun s => decide (s ≠ [] ∧ s ≠ dot)
    rwa [← names, ← names, names_names] at this

/-! ## Safe names -/

theorem level_of_safe {raw : List UInt8} (safe : (components raw).all Component.isSafe = true) : dotdot ∉ split raw := by
  intro mem
  have listed : Component.ParentDir ∈ components raw :=
    List.mem_append_right _ (List.mem_filterMap.mpr ⟨dotdot, mem, by decide⟩)
  have := List.all_eq_true.mp safe _ listed
  cases this

theorem inward_of_safe {target : List UInt8} (safe : symlinkTargetIsSafe target = true) : Inward target := by
  unfold symlinkTargetIsSafe at safe
  by_cases empty : target = []
  · rw [if_pos empty] at safe
    cases safe
  rw [if_neg empty] at safe
  by_cases rooted : absolute target = true
  · rw [if_pos rooted] at safe
    cases safe
  rw [if_neg rooted] at safe
  exact ⟨Bool.eq_false_iff.mpr rooted, level_of_safe safe⟩

theorem resolveUnderDest_eq_ok {dest : Path} {rel : List UInt8} {out : Path} (resolved : resolveUnderDest dest rel = .ok out) :
    out = dest ++ split rel := by
  unfold resolveUnderDest at resolved
  split at resolved
  · cases resolved
  split at resolved
  · cases resolved
  split at resolved
  · cases resolved
  · exact (Except.ok.inj resolved).symm

/-! ## What every call of an extraction keeps -/

/-- Something the calls of an extraction into `dest` keep, writing only to files
    with numbers in `N`. -/
structure Stable (dest : Path) (N : Nat → Prop) (C : Fs → Prop) : Prop where
  mkdir {fs later : Fs} {path : Path} : C fs → OnWay dest path → fs.mkdir path = .ok later → C later
  symlink {fs later : Fs} {target : List UInt8} {rest : Path} :
    C fs → Inward target → dotdot ∉ rest → fs.symlink target (dest ++ rest) = .ok later → C later
  openWrite {fs later : Fs} {mode i : Nat} {rest : Path} :
    C fs → dotdot ∉ rest → fs.openWrite mode (dest ++ rest) = .ok (i, later) → C later ∧ N i
  append {fs : Fs} {i : Nat} : C fs → N i → ∀ bytes, C (fs.append i bytes)
  chmod {fs later : Fs} {mode : Nat} {rest : Path} :
    C fs → dotdot ∉ rest → fs.chmod mode (dest ++ rest) = .ok later → C later

theorem stable_within {before : Fs} {dest : Place} (proper : ∀ n ∈ dest, Proper n) :
    Stable dest (before.next ≤ ·) (Within before dest) where
  mkdir within way made := by
    cases way with
    | into level => exact within.mkdir level made
    | named level =>
      rw [names_of_proper proper] at made
      exact within.mkdir level made
    | above part =>
      rw [names_of_proper proper] at part
      obtain ⟨rest, rfl⟩ := part
      refine absurd made (Fs.mkdir_dir ?_)
      by_cases last : rest = []
      · have stands := within.stands
        rwa [last, List.append_nil] at stands
      · exact Fs.node_above (by rw [within.stands]; exact Option.some_ne_none _) last
  symlink within inward level made := within.symlink inward level made
  openWrite within level opened := within.openWrite level opened
  append within new bytes := within.append new bytes
  chmod within level changed := within.chmod level changed

theorem stable_grows (before : Fs) (dest : Path) : Stable dest (fun _ => True) before.Grows where
  mkdir grows _ made := grows.trans (Fs.grows_mkdir made)
  symlink grows _ _ made := grows.trans (Fs.grows_symlink made)
  openWrite grows _ opened := ⟨grows.trans (Fs.grows_openWrite opened), trivial⟩
  append grows _ _ := grows
  chmod grows _ changed := grows.trans (Fs.grows_chmod changed)

/-! ## Making folders -/

section

variable {I : World → Prop} {env : Env}

theorem ends_unlessDir {Q : World → Prop} {path : Path} (e : Errno) (there : ∀ w, I w → isDir env w.fs path = true → Q w) :
    Ends I (unlessDir env path e) (fun _ => Q) I := by
  refine Ends.bind (Q := fun a w => I w ∧ a = w) (fun _ here => ⟨here, rfl⟩) fun a => ?_
  by_cases folder : isDir env a.fs path = true
  · rw [if_pos folder]
    exact .pure fun w ⟨here, same⟩ => there w here (same ▸ folder)
  · rw [if_neg folder]
    exact .throw fun _ => And.left

theorem ends_createDirAll_step {Q : World → Prop} {path : Path} (depth : Nat)
    (above : ∀ d < depth, Ends I (createDirAll env d (names path).dropLast) (fun _ => I) I)
    (made : Ends I (mkdir env path) (fun _ => Q) I) (there : ∀ w, I w → isDir env w.fs path = true → Q w) :
    Ends I (createDirAll env depth path) (fun _ => Q) I := by
  have tried : Ends I (attempt (mkdir env path) : EStateM Errno World _)
      (fun r w => if r.isOk = true then Q w else I w) I :=
    made.attempt (fun _ _ => id) fun _ _ => id
  unfold createDirAll
  refine tried.bind fun r => ?_
  cases r with
  | ok _ => exact .pure fun _ => id
  | error e =>
    dsimp only
    by_cases missing : e.notFound = true
    · rw [if_pos missing]
      cases depth with
      | zero => exact .throw fun _ => id
      | succ depth =>
        refine Ends.bind (above depth (Nat.lt_succ_self _)) fun _ => tried.bind fun r => ?_
        cases r with
        | ok _ => exact .pure fun _ => id
        | error e => exact ends_unlessDir e there
    · rw [if_neg missing]
      exact ends_unlessDir e there

/-- What every single folder made on the way up keeps, they keep together. -/
theorem ends_createDirAll_of {W : Path → Prop} (up : ∀ {path}, W path → W (names path).dropLast)
    (made : ∀ {path}, W path → Ends I (mkdir env path) (fun _ => I) I) (depth : Nat) {path : Path} (way : W path) :
    Ends I (createDirAll env depth path) (fun _ => I) I := by
  induction depth using Nat.strong_induction_on generalizing path with
  | h depth ih => exact ends_createDirAll_step depth (fun d less => ih d less (up way)) (made way) fun _ here _ => here

end

/-- Now `C` holds, and `D` of all that went before. -/
def Kept (C D : Fs → Prop) (w : World) : Prop := C w.fs ∧ ∀ s ∈ w.past, D s

section

variable {C D : Fs → Prop} (done : ∀ s, C s → D s) {α : Type} {env : Env}

include done

theorem Kept.changed {w : World} (kept : Kept C D w) {later : Fs} (c : C later) (calls : Nat) :
    Kept C D { fs := later, past := w.seen, calls } :=
  ⟨c, fun s mem => (List.mem_cons.mp mem).elim (fun same => same ▸ done _ kept.1) (kept.2 s)⟩

theorem ends_call {f : Fs → Except Errno (α × Fs)} {Q : α → Prop}
    (keeps : ∀ {fs a later}, C fs → f fs = .ok (a, later) → C later ∧ Q a) :
    Ends (Kept C D) (call env f) (fun a w => Kept C D w ∧ Q a) (Kept C D) := by
  intro w kept
  unfold call
  cases env.fault w.calls with
  | some text => exact kept
  | none =>
    dsimp only
    cases came : f w.fs with
    | error e => exact kept
    | ok r =>
      obtain ⟨c, q⟩ := keeps kept.1 came
      exact ⟨kept.changed done c _, q⟩

theorem ends_change {f : Fs → Except Errno Fs} (keeps : ∀ {fs later}, C fs → f fs = .ok later → C later) :
    Ends (Kept C D) (change env f) (fun _ => Kept C D) (Kept C D) := by
  refine (ends_call done (Q := fun _ => True) fun {fs a later} c came => ⟨?_, trivial⟩).weaken (fun _ => id)
    (fun _ _ => And.left) fun _ => id
  cases changed : f fs with
  | error e =>
    rw [changed] at came
    cases came
  | ok fs' =>
    rw [changed] at came
    cases came
    exact keeps c changed

omit done in
theorem ends_reading : Ends (Kept C D) (reading env) (fun _ => Kept C D) (Kept C D) := by
  intro w kept
  unfold reading
  cases env.fault w.calls <;> exact kept

variable {dest : Path} {N : Nat → Prop} (stable : Stable dest N C)
include stable

theorem ends_mkdir {path : Path} (way : OnWay dest path) :
    Ends (Kept C D) (mkdir env path) (fun _ => Kept C D) (Kept C D) :=
  ends_change done fun c made => stable.mkdir c way made

theorem ends_createDirAll (depth : Nat) {path : Path} (way : OnWay dest path) :
    Ends (Kept C D) (createDirAll env depth path) (fun _ => Kept C D) (Kept C D) :=
  ends_createDirAll_of OnWay.parent (fun way => ends_mkdir done stable way) depth way

theorem ends_createParent {rest : Path} (level : dotdot ∉ rest) :
    Ends (Kept C D) (createParent env (dest ++ rest)) (fun _ => Kept C D) (Kept C D) :=
  (ends_createDirAll done stable _ (OnWay.into level).parent).mapErr

theorem ends_setUnixMode {rest : Path} (level : dotdot ∉ rest) (mode : Nat) :
    Ends (Kept C D) (setUnixMode env (dest ++ rest) mode) (fun _ => Kept C D) (Kept C D) := by
  have changed : Ends (Kept C D) (change env fun fs => fs.chmod (mode &&& 0o777) (dest ++ rest)) (fun _ => Kept C D) (Kept C D) :=
    ends_change done fun c came => stable.chmod c level came
  have tried : Ends (Kept C D) (attempt (change env fun fs => fs.chmod (mode &&& 0o777) (dest ++ rest)) : EStateM String World _)
      (fun _ => Kept C D) (Kept C D) := changed.attempt (fun _ _ => id) fun _ _ => id
  exact tried.bind fun _ => .pure fun _ => id

theorem ends_copy {i : Nat} (named : N i) (bytes : List UInt8) :
    Ends (Kept C D) (copy env i bytes) (fun _ => Kept C D) (Kept C D) := by
  intro w kept
  unfold copy
  cases env.fault w.calls with
  | some text => exact kept.changed done (stable.append kept.1 named _) _
  | none => exact kept.changed done (stable.append kept.1 named _) _

theorem ends_extractFile {rest : Path} (level : dotdot ∉ rest) (written : Nat) (entry : Entry) :
    Ends (Kept C D) (extractFile env written entry (dest ++ rest)) (fun _ => Kept C D) (Kept C D) := by
  unfold extractFile
  refine (ends_createParent done stable level).bind fun _ => ?_
  have opened : Ends (Kept C D) (call env fun fs => fs.openWrite env.fileMode (dest ++ rest)) (fun i w => Kept C D w ∧ N i)
      (Kept C D) := ends_call done fun c came => stable.openWrite c level came
  refine opened.mapErr.bind fun i => ?_
  intro w ⟨kept, named⟩
  refine Ends.bind (P := Kept C D) (ends_copy done stable named _).mapErr (fun n => ?_) w kept
  by_cases much : MAX_EXTRACT_UNCOMPRESSED < u64SaturatingAdd written n
  · rw [if_pos much]
    exact .throw fun _ => id
  · rw [if_neg much]
    cases entry.unixMode with
    | none => exact .pure fun _ => id
    | some mode => exact (ends_setUnixMode done stable level mode).bind fun _ => .pure fun _ => id

theorem ends_extractSymlink {rest : Path} (level : dotdot ∉ rest) (entry : Entry) :
    Ends (Kept C D) (extractSymlink env entry (dest ++ rest)) (fun _ => Kept C D) (Kept C D) := by
  unfold extractSymlink
  refine Ends.bind ends_reading.mapErr fun _ => ?_
  cases fromUtf8 entry.content with
  | none => exact .throw fun _ => id
  | some target =>
    dsimp only
    by_cases safe : symlinkTargetIsSafe entry.content = true
    · rw [safe]
      refine (ends_createParent done stable level).bind fun _ => ?_
      have linked : Ends (Kept C D) (change env fun fs => fs.symlink entry.content (dest ++ rest)) (fun _ => Kept C D) (Kept C D) :=
        ends_change done fun c came => stable.symlink c (inward_of_safe safe) level came
      exact linked.mapErr
    · rw [Bool.eq_false_iff.mpr safe]
      exact .throw fun _ => id

theorem ends_extractEntry {enclosed : EnclosedName} (relative : enclosed.Relative) (i written : Nat) (entry : Entry) :
    Ends (Kept C D) (extractEntry env enclosed dest i written entry) (fun _ => Kept C D) (Kept C D) := by
  unfold extractEntry
  refine Ends.bind ends_reading.mapErr fun _ => ?_
  cases member : enclosed entry.name with
  | none => exact .throw fun _ => id
  | some rel =>
    dsimp only
    cases resolved : resolveUnderDest dest rel with
    | error e => exact .throw fun _ => id
    | ok out =>
      dsimp only
      have level := (relative _ _ member).2
      rw [resolveUnderDest_eq_ok resolved]
      by_cases folder : entry.isDir = true
      · rw [if_pos folder]
        exact (ends_createDirAll done stable _ (.into level)).mapErr.bind fun _ => .pure fun _ => id
      rw [if_neg folder]
      by_cases link : entry.isSymlink = true
      · rw [if_pos link]
        exact (ends_extractSymlink done stable level entry).bind fun _ => .pure fun _ => id
      · rw [if_neg link]
        exact ends_extractFile done stable level written entry

omit done stable in
theorem ends_cancelled : Ends (Kept C D) (cancelled env) (fun _ => Kept C D) (Kept C D) := fun _ kept => kept

theorem ends_extractEntries {enclosed : EnclosedName} (relative : enclosed.Relative) (entries : List Entry) (i written : Nat) :
    Ends (Kept C D) (extractEntries env enclosed dest i written entries) (fun _ => Kept C D) (Kept C D) := by
  induction entries generalizing i written with
  | nil => exact .pure fun _ => id
  | cons entry rest ih =>
    unfold extractEntries
    refine ends_cancelled.bind fun stop => ?_
    cases stop with
    | true => exact .throw fun _ => id
    | false => exact (ends_extractEntry done stable relative i written entry).bind fun _ => ih _ _

end

end K2.FsExtract
