import K2.Lib.Triple
import K2.Lib.UnixFs
import K2.Text

/-! # Extracting an archive

Every call on the file system may fail, a copy half way; and what each call found
is kept. The archive is the list of its entries, as the zip reader gives them. -/

namespace K2.FsExtract

open UnixFs Triple

def MAX_EXTRACT_ENTRIES : Nat := 100000
def MAX_EXTRACT_UNCOMPRESSED : Nat := 10 * 1024 * 1024 * 1024

/-! ## The machine -/

/-- What else decides a run: which calls fail, what cannot be looked at, when the
    job is seen cancelled, how far a failing copy gets. -/
structure Env where
  cwd : Place
  fault : Nat → Option String
  denied : Path → Bool
  cancel : Nat → Bool
  copied : Nat → Nat
  /-- Mode of a new file. -/
  fileMode : Nat

structure World where
  fs : Fs
  /-- What it was before each change, the last first. -/
  past : List Fs
  /-- The number of the next call. -/
  calls : Nat

def World.seen (w : World) : List Fs := w.fs :: w.past

def World.start (fs : Fs) : World := { fs, past := [], calls := 0 }

def World.ticked (w : World) : World := { w with calls := w.calls + 1 }

/-- A call that may fail, and else does what it does. -/
def call {α : Type} (env : Env) (f : Fs → Except Errno (α × Fs)) : EStateM Errno World α := fun w =>
  match env.fault w.calls with
  | some text => .error ⟨false, text⟩ w.ticked
  | none =>
      match f w.fs with
      | .error e => .error e w.ticked
      | .ok (a, fs) => .ok a { fs, past := w.seen, calls := w.calls + 1 }

/-- A call that only changes something. -/
def change (env : Env) (f : Fs → Except Errno Fs) : EStateM Errno World Unit :=
  call env fun fs =>
    match f fs with
    | .error e => .error e
    | .ok later => .ok ((), later)

/-- A call that only reads. -/
def reading (env : Env) : EStateM Errno World Unit := fun w =>
  match env.fault w.calls with
  | some text => .error ⟨false, text⟩ w.ticked
  | none => .ok () w.ticked

/-- `cancel.load`. -/
def cancelled (env : Env) : EStateM String World Bool := fun w => .ok (env.cancel w.calls) w.ticked

/-- `io::copy`: what is written before a failure stays written. -/
def copy (env : Env) (ino : Nat) (bytes : List UInt8) : EStateM Errno World Nat := fun w =>
  match env.fault w.calls with
  | some text => .error ⟨false, text⟩ { fs := w.fs.append ino (bytes.take (env.copied w.calls)), past := w.seen, calls := w.calls + 1 }
  | none => .ok bytes.length { fs := w.fs.append ino bytes, past := w.seen, calls := w.calls + 1 }

def «exists» (env : Env) (fs : Fs) (path : Path) : Bool := !env.denied path && fs.found path
def isDir (env : Env) (fs : Fs) (path : Path) : Bool := !env.denied path && fs.foundDir path
def isFile (env : Env) (fs : Fs) (path : Path) : Bool := !env.denied path && fs.foundFile path

def mkdir (env : Env) (path : Path) : EStateM Errno World Unit := change env fun fs => fs.mkdir path

def names (path : Path) : Path := path.filter fun s => s ≠ [] ∧ s ≠ dot

/-- A folder that could not be made may be there already. -/
def unlessDir (env : Env) (path : Path) (e : Errno) : EStateM Errno World Unit := do
  let w ← get
  if isDir env w.fs path then pure () else throw e

/-- `fs::create_dir_all`, where `depth` parents are left. -/
def createDirAll (env : Env) : Nat → Path → EStateM Errno World Unit
  | depth, path => do
      match ← attempt (mkdir env path) with
      | .ok () => pure ()
      | .error e =>
          if e.notFound then
            match depth with
            | 0 => throw ⟨false, "failed to create whole tree"⟩
            | depth + 1 => do
                createDirAll env depth (names path).dropLast
                match ← attempt (mkdir env path) with
                | .ok () => pure ()
                | .error e => unlessDir env path e
          else unlessDir env path e

def removeDirAll (path : Path) : EStateM String World Unit := fun w =>
  .ok () { fs := w.fs.removeAll path, past := w.seen, calls := w.calls + 1 }

/-! ## Names -/

def lowered (b : UInt8) : UInt8 := if 0x41 ≤ b ∧ b ≤ 0x5A then b + 0x20 else b

/-- True when the name ends with `.zip`, in any case. -/
def isZipFilename (name : Name) : Bool :=
  if name.length < 4 then false else (name.drop (name.length - 4)).map lowered == utf8 ".zip"

def zipStem (fileName : Name) : Name := if isZipFilename fileName then fileName.take (fileName.length - 4) else fileName

def candidate (parent : Place) (stem : Name) (i : Nat) : Path := parent ++ [stem ++ utf8 (" (" ++ toString i ++ ")")]

/-- `<parent>/<stem>/`, then `<stem> (1)/` and on; after 10000 taken names the
    first of them again. -/
def siblingDestDir (env : Env) (fs : Fs) (parent : Place) (stem : Name) : Path :=
  if «exists» env fs (parent ++ [stem]) then
    (((List.range' 1 9999).map (candidate parent stem)).find? fun c => !«exists» env fs c).getD (parent ++ [stem])
  else parent ++ [stem]

inductive Component where
  | RootDir
  | CurDir
  | ParentDir
  | Normal (n : Name)
  deriving DecidableEq

def Component.toName : Component → Name
  | .RootDir => []
  | .CurDir => dot
  | .ParentDir => dotdot
  | .Normal n => n

/-- `Path::components`. -/
def components (raw : List UInt8) : List Component :=
  (if absolute raw then [.RootDir] else if (split raw).head? = some dot then [.CurDir] else []) ++
    (split raw).filterMap fun s =>
      if s = [] ∨ s = dot then none else some (if s = dotdot then .ParentDir else .Normal s)

def Component.isSafe : Component → Bool
  | .Normal _ | .CurDir => true
  | .ParentDir | .RootDir => false

/-- No absolute path and no `..` in a raw member name. -/
def memberNameIsSafe (raw : List UInt8) : Bool :=
  if raw = [] then false
  else if absolute raw then false
  else if raw.head? = some slash ∨ raw.head? = some 0x5C then false
  else (components raw).all Component.isSafe

def symlinkTargetIsSafe (target : List UInt8) : Bool :=
  if target = [] then false
  else if absolute target then false
  else (components target).all Component.isSafe

/-- `Path::display`. -/
def display (path : Path) : String := fromUtf8Lossy (path.flatMap fun n => slash :: n)

def resolveUnderDest (dest : Path) (rel : List UInt8) : Except String Path :=
  if absolute rel then .error ("Zip-slip rejected: absolute member path " ++ fromUtf8Lossy rel)
  else if !(components rel).all Component.isSafe then
    .error ("Zip-slip rejected: unsafe member path " ++ fromUtf8Lossy rel)
  else if !dest.isPrefixOf (dest ++ split rel) then
    .error ("Zip-slip rejected: " ++ display (dest ++ split rel) ++ " escapes " ++ display dest)
  else .ok (dest ++ split rel)

/-! ## Entries -/

/-- A member of the archive. Its sizes are the declared and the true one. -/
structure Entry where
  name : String
  encrypted : Bool
  size : Nat
  isDir : Bool
  isSymlink : Bool
  unixMode : Option Nat
  content : List UInt8

/-- `ZipFile::enclosed_name`. -/
abbrev EnclosedName := String → Option (List UInt8)

/-- It yields a relative path without `..`. -/
def EnclosedName.Relative (enclosed : EnclosedName) : Prop :=
  ∀ name rel, enclosed name = some rel → absolute rel = false ∧ dotdot ∉ split rel

def u64SaturatingAdd (a b : Nat) : Nat := min (a + b) (2 ^ 64 - 1)

def told {α : Type} (what : String) (m : EStateM Errno World α) : EStateM String World α := mapErr (fun e => what ++ ": " ++ e.text) m

/-- `out.parent()`, made. -/
def createParent (env : Env) (out : Path) : EStateM String World Unit :=
  let parent := (names out).dropLast
  told ("Failed to create parent for " ++ display out) (createDirAll env parent.length parent)

def setUnixMode (env : Env) (out : Path) (mode : Nat) : EStateM String World Unit := do
  let _ ← attempt (change env fun fs => fs.chmod (mode &&& 0o777) out)
  pure ()

/-- One file, with what was written so far; how much it is then. -/
def extractFile (env : Env) (written : Nat) (entry : Entry) (out : Path) : EStateM String World Nat := do
  createParent env out
  let ino ← told ("Failed to create " ++ display out) (call env fun fs => fs.openWrite env.fileMode out)
  let n ← told ("Failed to extract " ++ entry.name)
    (copy env ino (entry.content.take (u64SaturatingAdd (MAX_EXTRACT_UNCOMPRESSED - written) 1)))
  if MAX_EXTRACT_UNCOMPRESSED < u64SaturatingAdd written n then
    throw ("Zip uncompressed size exceeds limit while extracting " ++ entry.name)
  else do
    match entry.unixMode with
    | some mode => do
        setUnixMode env out mode
        pure (u64SaturatingAdd written n)
    | none => pure (u64SaturatingAdd written n)

def extractSymlink (env : Env) (entry : Entry) (out : Path) : EStateM String World Unit := do
  told ("Failed to read symlink " ++ entry.name) (reading env)
  match fromUtf8 entry.content with
  | none => throw ("Failed to read symlink " ++ entry.name ++ ": stream did not contain valid UTF-8")
  | some target =>
      if !symlinkTargetIsSafe entry.content then
        throw ("Zip-slip rejected: unsafe symlink target in " ++ entry.name ++ ": " ++ target)
      else do
        createParent env out
        told ("Failed to create symlink " ++ display out) (change env fun fs => fs.symlink entry.content out)

/-- The entry with number `i`. -/
def extractEntry (env : Env) (enclosed : EnclosedName) (dest : Path) (i written : Nat) (entry : Entry) : EStateM String World Nat := do
  told ("Failed to open zip entry " ++ toString i) (reading env)
  match enclosed entry.name with
  | none => throw ("Zip-slip rejected: unsafe member path " ++ entry.name)
  | some rel =>
      match resolveUnderDest dest rel with
      | .error e => throw e
      | .ok out =>
          if entry.isDir then do
            told ("Failed to create directory " ++ display out) (createDirAll env (names out).length out)
            pure written
          else if entry.isSymlink then do
            extractSymlink env entry out
            pure written
          else extractFile env written entry out

def extractEntries (env : Env) (enclosed : EnclosedName) (dest : Path) : Nat → Nat → List Entry → EStateM String World Unit
  | _, _, [] => pure ()
  | i, written, entry :: rest => do
      if ← cancelled env then throw "Extraction cancelled"
      else do
        let written ← extractEntry env enclosed dest i written entry
        extractEntries env enclosed dest (i + 1) written rest

/-! ## The whole -/

/-- The entries looked over before anything is made. -/
def prescan (env : Env) (enclosed : EnclosedName) : Nat → Nat → List Entry → EStateM String World Unit
  | _, _, [] => pure ()
  | i, declared, entry :: rest => do
      if ← cancelled env then throw "Extraction cancelled"
      else do
        told ("Failed to read zip entry " ++ toString i) (reading env)
        if entry.encrypted then throw ("Password-protected zip entry not supported: " ++ entry.name)
        else if !memberNameIsSafe (utf8 entry.name) || (enclosed entry.name).isNone then
          throw ("Zip-slip rejected: unsafe member path " ++ entry.name)
        else if MAX_EXTRACT_UNCOMPRESSED < u64SaturatingAdd declared entry.size then
          throw ("Zip uncompressed size exceeds limit (" ++ toString (u64SaturatingAdd declared entry.size) ++ " > " ++
            toString MAX_EXTRACT_UNCOMPRESSED ++ " bytes)")
        else prescan env enclosed (i + 1) (u64SaturatingAdd declared entry.size) rest

/-- A path from the working directory on. -/
def Env.path (env : Env) (raw : List UInt8) : Path := if absolute raw then split raw else env.cwd ++ split raw

/-- A path that leads nowhere passes when its parent is there. -/
def validateParent (env : Env) (fs : Fs) (raw : List UInt8) : Except String Path :=
  let above := (components raw).dropLast
  if components raw = [] ∨ components raw = [.RootDir] then .error "Invalid path: no parent"
  else if above ≠ [] ∧
      «exists» env fs (if absolute raw then above.map Component.toName else env.cwd ++ above.map Component.toName) then
    .ok (env.path raw)
  else .error ("Parent directory does not exist: " ++ fromUtf8Lossy raw)

/-- `validate_path`: the real place of what is there. -/
def validatePath (env : Env) (fs : Fs) (raw : List UInt8) : Except String Path :=
  if raw = [] then .error "Path is empty"
  else if env.denied (env.path raw) then validateParent env fs raw
  else
    match fs.follow (env.path raw) with
    | .ok (.there p) => .ok p
    | _ => validateParent env fs raw

/-- What `extract_from_zip` does before it makes anything: the folder beside the
    archive, the stem of its name and its entries. -/
def openArchive (env : Env) (enclosed : EnclosedName) (src : List UInt8) (archive : Except String (List Entry)) :
    EStateM String World (Place × Name × List Entry) := do
  let w ← get
  match validatePath env w.fs src with
  | .error e => throw e
  | .ok srcPath =>
      if !isFile env w.fs srcPath then throw ("Not a regular file: " ++ fromUtf8Lossy src)
      else
        match srcPath.getLast? with
        | none => throw "Source has no name"
        | some last =>
            let fileName := utf8 (fromUtf8Lossy last)
            if !isZipFilename fileName then throw ("Not a .zip archive: " ++ fromUtf8Lossy last)
            else if zipStem fileName = [] then throw "Archive name has empty stem"
            else do
              told ("Failed to open zip " ++ display srcPath) (reading env)
              match archive with
              | .error e => throw ("Failed to read zip " ++ display srcPath ++ ": " ++ e)
              | .ok entries =>
                  if MAX_EXTRACT_ENTRIES < entries.length then
                    throw ("Zip has too many entries (" ++ toString entries.length ++ " > " ++ toString MAX_EXTRACT_ENTRIES ++ ")")
                  else do
                    prescan env enclosed 0 0 entries
                    pure (srcPath.dropLast, zipStem fileName, entries)

/-- And what it does then: the entries extracted into a sibling folder, which is
    removed again when something failed. -/
def extractBeside (env : Env) (enclosed : EnclosedName) (parent : Place) (stem : Name) (entries : List Entry) :
    EStateM String World Path := do
  let w ← get
  let dest := siblingDestDir env w.fs parent stem
  told ("Failed to create extract destination " ++ display dest) (createDirAll env (names dest).length dest)
  match ← attempt (extractEntries env enclosed dest 0 0 entries) with
  | .ok () => pure dest
  | .error e => do
      removeDirAll dest
      throw e

def extractFromZip (env : Env) (enclosed : EnclosedName) (src : List UInt8) (archive : Except String (List Entry)) :
    EStateM String World Path := do
  let (parent, stem, entries) ← openArchive env enclosed src archive
  extractBeside env enclosed parent stem entries

end K2.FsExtract
