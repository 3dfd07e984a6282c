import Mathlib.Data.List.DropRight
import Mathlib.Logic.Function.Basic
import Mathlib.Tactic.Common

/-! # A Unix file system

A tree of folders, files and symbolic links. Files are numbered, so that two
names may share one file. Paths are followed component by component, links
included. -/

namespace UnixFs

abbrev Name := List UInt8

/-- A place in the tree: the names from the root down. -/
abbrev Place := List Name

/-- An absolute path cut at its slashes: names, blanks, `.` and `..`. -/
abbrev Path := List Name

def slash : UInt8 := 0x2F
def dot : Name := [0x2E]
def dotdot : Name := [0x2E, 0x2E]

def split (raw : List UInt8) : List Name := raw.splitOn slash

def absolute (raw : List UInt8) : Bool := raw.head? == some slash

/-- What a folder may call one of its members. -/
def Proper (n : Name) : Prop := n ≠ [] ∧ n ≠ dot ∧ n ≠ dotdot ∧ slash ∉ n ∧ 0 ∉ n

instance (n : Name) : Decidable (Proper n) := inferInstanceAs (Decidable (_ ∧ _))

inductive Node where
  | dir
  | file (ino : Nat)
  | link (target : List UInt8)
  deriving DecidableEq

def Node.isFile : Node → Bool
  | .file _ => true
  | _ => false

/-- What a file holds. -/
structure Contents where
  bytes : List UInt8
  mode : Nat
  deriving DecidableEq

structure Fs where
  node : Place → Option Node
  data : Nat → Contents
  /-- The number of the next file. -/
  next : Nat
  root : node [] = some .dir
  parent : ∀ p n, node (p ++ [n]) ≠ none → node p = some .dir ∧ Proper n
  numbered : ∀ p i, node p = some (.file i) → i < next

/-- Why a call failed. Making a folder and its parents goes on when something
    was not found. -/
structure Errno where
  notFound : Bool
  text : String

def ENOENT : Errno := ⟨true, "No such file or directory (os error 2)"⟩
def EEXIST : Errno := ⟨false, "File exists (os error 17)"⟩
def ENOTDIR : Errno := ⟨false, "Not a directory (os error 20)"⟩
def EISDIR : Errno := ⟨false, "Is a directory (os error 21)"⟩
def EINVAL : Errno := ⟨false, "Invalid argument (os error 22)"⟩
def ELOOP : Errno := ⟨false, "Too many levels of symbolic links (os error 40)"⟩

/-! ## Following a path -/

/-- Where a path leads: to what is there, or to a free name in a folder. -/
inductive Found where
  | there (p : Place)
  | free (d : Place) (n : Name)

def Found.place : Found → Place
  | .there p => p
  | .free d n => d ++ [n]

namespace Fs

/-- From a folder on; a link goes on with what it says and the rest. -/
def walkFrom (fs : Fs) (jump : Place → Path → Except Errno Found) : Place → Path → Except Errno Found
  | here, [] => .ok (.there here)
  | here, s :: rest =>
      if s = [] ∨ s = dot then fs.walkFrom jump here rest
      else if s = dotdot then fs.walkFrom jump here.dropLast rest
      else
        match fs.node (here ++ [s]) with
        | none => if rest = [] then .ok (.free here s) else .error ENOENT
        | some .dir => fs.walkFrom jump (here ++ [s]) rest
        | some (.file _) => if rest = [] then .ok (.there (here ++ [s])) else .error ENOTDIR
        | some (.link t) => jump (if absolute t then [] else here) (split t ++ rest)

/-- With at most so many links on the way. -/
def walk (fs : Fs) : Nat → Place → Path → Except Errno Found
  | 0 => fs.walkFrom fun _ _ => .error ELOOP
  | links + 1 => fs.walkFrom (fs.walk links)

def MAXSYMLINKS : Nat := 40

def follow (fs : Fs) (path : Path) : Except Errno Found := fs.walk MAXSYMLINKS [] path

/-- The folder and the name a path ends in, the last link not followed. -/
def entry (fs : Fs) (path : Path) : Except Errno (Place × Name) :=
  let stripped := path.rdropWhile List.isEmpty
  match stripped.getLast? with
  | none => .error EEXIST
  | some n =>
      if n = dot ∨ n = dotdot then .error EEXIST
      else
        match fs.follow stripped.dropLast with
        | .error e => .error e
        | .ok (.free ..) => .error ENOENT
        | .ok (.there d) => if fs.node d = some .dir then .ok (d, n) else .error ENOTDIR

/-- `stat` finds something. -/
def found (fs : Fs) (path : Path) : Bool :=
  match fs.follow path with
  | .ok (.there _) => true
  | _ => false

def foundDir (fs : Fs) (path : Path) : Bool :=
  match fs.follow path with
  | .ok (.there p) => fs.node p = some .dir
  | _ => false

def foundFile (fs : Fs) (path : Path) : Bool :=
  match fs.follow path with
  | .ok (.there p) => (fs.node p).any Node.isFile
  | _ => false

/-! ## Changes -/

/-- A member a folder has room for. -/
def Free (fs : Fs) (d : Place) (n : Name) : Prop := fs.node (d ++ [n]) = none ∧ fs.node d = some .dir ∧ Proper n

instance (fs : Fs) (d : Place) (n : Name) : Decidable (fs.Free d n) := inferInstanceAs (Decidable (_ ∧ _))

def put (fs : Fs) (d : Place) (n : Name) (x : Node) (free : fs.Free d n) (numbered : ∀ i, x = .file i → i < fs.next) : Fs where
  node := Function.update fs.node (d ++ [n]) (some x)
  data := fs.data
  next := fs.next
  root := by
    rw [Function.update_of_ne (List.append_ne_nil_of_right_ne_nil _ (List.cons_ne_nil _ _)).symm]
    exact fs.root
  parent := by
    intro p m there
    by_cases same : p ++ [m] = d ++ [n]
    · obtain ⟨rfl, rfl⟩ := List.append_singleton_inj.mp same
      have other : p ≠ p ++ [m] := fun h => List.cons_ne_nil _ _ (List.self_eq_append_right.mp h)
      rw [Function.update_of_ne other]
      exact free.2
    · rw [Function.update_of_ne same] at there
      obtain ⟨dir, proper⟩ := fs.parent p m there
      have other : p ≠ d ++ [n] := fun h => by rw [h, free.1] at dir; cases dir
      rw [Function.update_of_ne other]
      exact ⟨dir, proper⟩
  numbered := by
    intro p i there
    by_cases same : p = d ++ [n]
    · subst same
      rw [Function.update_self] at there
      exact numbered i (Option.some.inj there)
    · rw [Function.update_of_ne same] at there
      exact fs.numbered p i there

@[simp] theorem node_put_self {fs : Fs} {d : Place} {n : Name} {x : Node} (free : fs.Free d n) (numbered) :
    (fs.put d n x free numbered).node (d ++ [n]) = some x := Function.update_self ..

theorem node_put_of_ne {fs : Fs} {d : Place} {n : Name} {x : Node} (free : fs.Free d n) (numbered) {p : Place}
    (other : p ≠ d ++ [n]) : (fs.put d n x free numbered).node p = fs.node p := Function.update_of_ne other ..

/-- What was there is still there. -/
theorem node_put_of_some {fs : Fs} {d : Place} {n : Name} {x y : Node} (free : fs.Free d n) (numbered) {p : Place}
    (there : fs.node p = some y) : (fs.put d n x free numbered).node p = some y := by
  rw [node_put_of_ne free numbered, there]
  rintro rfl
  rw [free.1] at there
  cases there

def setData (fs : Fs) (i : Nat) (c : Contents) : Fs := { fs with data := Function.update fs.data i c }

/-- One more file, not yet in any folder. -/
def fileMade (fs : Fs) (mode : Nat) : Fs where
  node := fs.node
  data := Function.update fs.data fs.next ⟨[], mode⟩
  next := fs.next + 1
  root := fs.root
  parent := fs.parent
  numbered := fun p i there => Nat.lt_succ_of_lt (fs.numbered p i there)

/-- A place and everything below it, or only what is below it. -/
def Under (q : Place) (itself : Bool) (p : Place) : Prop := q <+: p ∧ (p = q → itself = true)

instance (q : Place) (itself : Bool) (p : Place) : Decidable (Under q itself p) := inferInstanceAs (Decidable (_ ∧ _))

theorem Under.below {q p : Place} {itself : Bool} (under : Under q itself p) (n : Name) : Under q itself (p ++ [n]) := by
  refine ⟨under.1.trans (List.prefix_append ..), fun same => ?_⟩
  have := under.1.length_le
  rw [← same, List.length_append, List.length_singleton] at this
  omega

def erase (fs : Fs) (q : Place) (itself : Bool) (kept : q = [] → itself = false) : Fs where
  node := fun p => if Under q itself p then none else fs.node p
  data := fs.data
  next := fs.next
  root := by
    rw [if_neg]
    · exact fs.root
    · rintro ⟨top, whole⟩
      have empty := List.prefix_nil.mp top
      rw [kept empty] at whole
      cases whole empty.symm
  parent := by
    intro p n there
    by_cases gone : Under q itself (p ++ [n])
    · rw [if_pos gone] at there
      exact absurd rfl there
    · rw [if_neg gone] at there
      rw [if_neg fun under => gone (under.below n)]
      exact fs.parent p n there
  numbered := by
    intro p i there
    by_cases gone : Under q itself p
    · rw [if_pos gone] at there
      cases there
    · rw [if_neg gone] at there
      exact fs.numbered p i there

/-! ## Calls -/

def mkdir (fs : Fs) (path : Path) : Except Errno Fs :=
  match fs.entry path with
  | .error e => .error e
  | .ok (d, n) => if free : fs.Free d n then .ok (fs.put d n .dir free fun _ same => by cases same) else .error EEXIST

def symlink (fs : Fs) (target : List UInt8) (path : Path) : Except Errno Fs :=
  if target = [] ∨ 0 ∈ target then .error EINVAL
  else if path.getLast? = some [] then .error ENOENT
  else
    match fs.entry path with
    | .error e => .error e
    | .ok (d, n) =>
        if free : fs.Free d n then .ok (fs.put d n (.link target) free fun _ same => by cases same) else .error EEXIST

/-- A file opened for writing, made when there is none and emptied when there is. -/
def openWrite (fs : Fs) (mode : Nat) (path : Path) : Except Errno (Nat × Fs) :=
  match fs.follow path with
  | .error e => .error e
  | .ok (.free d n) =>
      if free : fs.Free d n then
        .ok (fs.next, (fs.fileMade mode).put d n (.file fs.next) free fun _ same => by cases same; exact Nat.lt_succ_self _)
      else .error EINVAL
  | .ok (.there p) =>
      match fs.node p with
      | some (.file i) => .ok (i, fs.setData i { fs.data i with bytes := [] })
      | _ => .error EISDIR

def append (fs : Fs) (i : Nat) (bytes : List UInt8) : Fs := fs.setData i { fs.data i with bytes := (fs.data i).bytes ++ bytes }

/-- Only what is set on files is kept. -/
def chmod (fs : Fs) (mode : Nat) (path : Path) : Except Errno Fs :=
  match fs.follow path with
  | .error e => .error e
  | .ok (.free ..) => .error ENOENT
  | .ok (.there p) =>
      match fs.node p with
      | some (.file i) => .ok (fs.setData i { fs.data i with mode })
      | _ => .ok fs

/-- A link itself goes, a folder with all that is in it. What a path that ends in
    `.` or `..` leads to is emptied and stays. -/
def removeAll (fs : Fs) (path : Path) : Fs :=
  match fs.entry path with
  | .ok (d, n) =>
      if (fs.node (d ++ [n])).any Node.isFile then fs
      else fs.erase (d ++ [n]) true fun empty => absurd empty (List.append_ne_nil_of_right_ne_nil _ (List.cons_ne_nil _ _))
  | .error _ =>
      match fs.follow path with
      | .ok (.there q) => fs.erase q false fun _ => rfl
      | _ => fs

/-! ## What a call that went well did -/

variable {fs later : Fs} {path : Path}

theorem mkdir_eq_ok (made : fs.mkdir path = .ok later) :
    ∃ d n, fs.entry path = .ok (d, n) ∧ ∃ free, later = fs.put d n .dir free fun _ same => by cases same := by
  unfold mkdir at made
  cases named : fs.entry path with
  | error e =>
    rw [named] at made
    cases made
  | ok place =>
    obtain ⟨d, n⟩ := place
    rw [named] at made
    dsimp only at made
    by_cases free : fs.Free d n
    · rw [dif_pos free] at made
      cases made
      exact ⟨d, n, rfl, free, rfl⟩
    · rw [dif_neg free] at made
      cases made

theorem symlink_eq_ok {target : List UInt8} (made : fs.symlink target path = .ok later) :
    ∃ d n, fs.entry path = .ok (d, n) ∧ ∃ free, later = fs.put d n (.link target) free fun _ same => by cases same := by
  unfold symlink at made
  by_cases bad : target = [] ∨ 0 ∈ target
  · rw [if_pos bad] at made
    cases made
  rw [if_neg bad] at made
  by_cases trailing : path.getLast? = some []
  · rw [if_pos trailing] at made
    cases made
  rw [if_neg trailing] at made
  cases named : fs.entry path with
  | error e =>
    rw [named] at made
    cases made
  | ok place =>
    obtain ⟨d, n⟩ := place
    rw [named] at made
    dsimp only at made
    by_cases free : fs.Free d n
    · rw [dif_pos free] at made
      cases made
      exact ⟨d, n, rfl, free, rfl⟩
    · rw [dif_neg free] at made
      cases made

theorem openWrite_eq_ok {mode i : Nat} (opened : fs.openWrite mode path = .ok (i, later)) :
    (∃ d n, fs.follow path = .ok (.free d n) ∧ i = fs.next ∧ ∃ free,
        later = (fs.fileMade mode).put d n (.file fs.next) free fun _ same => by cases same; exact Nat.lt_succ_self _) ∨
      ∃ p, fs.follow path = .ok (.there p) ∧ fs.node p = some (.file i) ∧ later = fs.setData i { fs.data i with bytes := [] } := by
  unfold openWrite at opened
  cases leads : fs.follow path with
  | error e =>
    rw [leads] at opened
    cases opened
  | ok f =>
    rw [leads] at opened
    cases f with
    | free d n =>
      dsimp only at opened
      by_cases free : fs.Free d n
      · rw [dif_pos free] at opened
        cases opened
        exact .inl ⟨d, n, rfl, rfl, free, rfl⟩
      · rw [dif_neg free] at opened
        cases opened
    | there p =>
      dsimp only at opened
      split at opened
      next there =>
        cases opened
        exact .inr ⟨p, rfl, there, rfl⟩
      next => cases opened

theorem chmod_eq_ok {mode : Nat} (changed : fs.chmod mode path = .ok later) :
    later = fs ∨ ∃ p i, fs.follow path = .ok (.there p) ∧ fs.node p = some (.file i) ∧ later = fs.setData i { fs.data i with mode } := by
  unfold chmod at changed
  cases leads : fs.follow path with
  | error e =>
    rw [leads] at changed
    cases changed
  | ok f =>
    rw [leads] at changed
    cases f with
    | free d n => cases changed
    | there p =>
      dsimp only at changed
      split at changed
      next i there =>
        cases changed
        exact .inr ⟨p, i, rfl, there, rfl⟩
      next =>
        cases changed
        exact .inl rfl

/-- Nothing went away or became something else. -/
def Grows (fs later : Fs) : Prop := ∀ p x, fs.node p = some x → later.node p = some x

theorem Grows.refl (fs : Fs) : fs.Grows fs := fun _ _ there => there

theorem Grows.trans {a b c : Fs} (first : a.Grows b) (second : b.Grows c) : a.Grows c := fun p x there =>
  second p x (first p x there)

theorem grows_put {d : Place} {n : Name} {x : Node} (free : fs.Free d n) (numbered) : fs.Grows (fs.put d n x free numbered) :=
  fun _ _ there => node_put_of_some free numbered there

theorem grows_mkdir (made : fs.mkdir path = .ok later) : fs.Grows later := by
  obtain ⟨d, n, -, free, rfl⟩ := mkdir_eq_ok made
  exact grows_put free _

theorem grows_symlink {target : List UInt8} (made : fs.symlink target path = .ok later) : fs.Grows later := by
  obtain ⟨d, n, -, free, rfl⟩ := symlink_eq_ok made
  exact grows_put free _

theorem grows_openWrite {mode i : Nat} (opened : fs.openWrite mode path = .ok (i, later)) : fs.Grows later := by
  rcases openWrite_eq_ok opened with ⟨d, n, -, -, free, rfl⟩ | ⟨p, -, -, rfl⟩
  · exact Grows.trans (b := fs.fileMade mode) (fun _ _ there => there) (grows_put free _)
  · exact Grows.refl fs

theorem grows_chmod {mode : Nat} (changed : fs.chmod mode path = .ok later) : fs.Grows later := by
  rcases chmod_eq_ok changed with rfl | ⟨p, i, -, -, rfl⟩
  · exact Grows.refl _
  · exact Grows.refl fs

end Fs

end UnixFs
