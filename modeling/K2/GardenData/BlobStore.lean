import K2.GardenData.Store
import K2.Text

/-! # Blobs and their files

The store's files: uploads, what a space and an uploader may keep, and what is
dropped when the folder or a space is full or a copy is old. Rows and files move
while the store's one connection is held, so one call follows another.
-/

namespace K2.GardenData

/-! ## Limits -/

def maxBlobBytes : Nat := 16 * 1024 * 1024
def blobPendingKeepSecs : Int := 24 * 3600
def blobUnrefKeepSecs : Int := 35 * 86400
def strayFileKeepSecs : Int := 3600
def maxNameChars : Nat := 255

/-- The bytes one space holds, the whole folder, and one uploader's uploads that
    no key has named yet. -/
structure BlobCaps where
  space : Nat := 256 * 1024 * 1024
  store : Nat := 2 * 1024 * 1024 * 1024
  pending : Nat := 128 * 1024 * 1024

/-! ## What is kept of an upload -/

/-- The hash and the sniffed mime of bytes. -/
structure BlobReader where
  sha256Hex : List UInt8 → String
  sniff : List UInt8 → String

/-- Unicode format characters that change how a name reads. -/
def isFormatChar (c : Char) : Bool :=
  let n := c.toNat
  n = 0x00ad || n = 0x061c || n = 0x180e || (0x200b ≤ n && n ≤ 0x200f) || (0x202a ≤ n && n ≤ 0x202e) ||
    (0x2060 ≤ n && n ≤ 0x206f) || n = 0xfeff || (0xfff9 ≤ n && n ≤ 0xfffb)

/-- A file name as kept: the basename, without control and format characters. -/
def cleanName (name : String) : Option String :=
  let base := (name.toList.reverse.takeWhile fun c => c ≠ '/' && c ≠ '\\').reverse
  let kept := (base.filter fun c => !Text.isControl c && !isFormatChar c).take maxNameChars
  let s := Text.trim (String.ofList kept)
  if s = "" || s = "." || s = ".." then none else some s

/-- One blob as a caller sees it. -/
structure BlobInfo where
  reference : String
  size : Int
  mime : String
  name : Option String
  new : Bool
  deriving Repr, DecidableEq

def SpaceBlob.info (row : SpaceBlob) (new : Bool) : BlobInfo := ⟨refOf row.hash, row.size, row.mime, row.name, new⟩

/-! ## Tables and files -/

/-- A row of `blobs`: one file. -/
structure BlobFile where
  hash : String
  size : Int
  mime : String
  createdAt : Int
  deriving Repr, DecidableEq

/-- The store, its `blobs` table, and the files of the folder with their times. -/
structure BlobStore where
  data : Store
  files : KeyedTable BlobFile.hash
  disk : FinMap String Int

/-- What the file system does in a call: the time a new file gets, why it can't be
    written, and why a file can't be removed. -/
structure FileSystem where
  stamp : Int
  full : Option String
  stuck : String → Option String

/-- The sizes of some `space_blobs` rows. -/
def BlobTables.sizeOf (t : BlobTables) (p : SpaceBlob → Bool) : Int := ((t.held.rows.filter p).map (·.size)).sum

/-- What a space is charged for: every row it holds. -/
def BlobTables.charged (t : BlobTables) (space : String) : Int := t.sizeOf (·.space = space)

/-- The bytes one uploader's never named rows hold, in every space. -/
def BlobTables.pendingOf (t : BlobTables) (who : String) : Int :=
  t.sizeOf fun row => row.addedBy = who && row.firstRefAt.isNone

namespace BlobStore

def empty : BlobStore := ⟨.empty, .empty, .empty⟩

variable (s : BlobStore)

def held : KeyedTable SpaceBlob.key := s.data.blobs.held

def withHeld (held : KeyedTable SpaceBlob.key) : BlobStore :=
  { s with data := { s.data with blobs := { s.data.blobs with held } } }

def totalBytes : Int := (s.files.rows.map (·.size)).sum

/-- Remove a blob's file. A missing file is fine. -/
def removeFile (fs : FileSystem) (hash : String) : BlobStore × Except DataError Bool :=
  if !validHash hash.toList then (s, .error (.badRequest "not a blob hash"))
  else if (s.disk.lookup hash).isNone then (s, .ok false)
  else match fs.stuck hash with
    | some e => (s, .error (.unavailable ("can't remove a blob file: " ++ e)))
    | none => ({ s with disk := s.disk.erase hash }, .ok true)

/-- Write a blob's file. One that is there is never replaced. -/
def writeFile (fs : FileSystem) (hash : String) : Except DataError BlobStore :=
  if !validHash hash.toList then .error (.badRequest "not a blob hash")
  else if (s.disk.lookup hash).isSome then .ok s
  else match fs.full with
    | some e => .error (.unavailable ("can't write a blob: " ++ e))
    | none => .ok { s with disk := s.disk.insert hash fs.stamp }

/-! ## Dropping rows -/

/-- Remove one `space_blobs` row; the file and its `blobs` row go when no space
    holds it any more. Answers the file bytes freed. -/
def dropRow (fs : FileSystem) (space hash : String) : BlobStore × Except DataError Int :=
  let s := s.withHeld (s.held.deleteWhere (·.key = (space, hash)))
  if s.held.rows.any (·.hash = hash) then (s, .ok 0)
  else
    let size := (s.files.get hash).map (·.size)
    let s := { s with files := s.files.deleteWhere (·.hash = hash) }
    match size with
    | none => (s, .ok 0)
    | some size =>
        match s.removeFile fs hash with
        | (s, .ok _) => (s, .ok size)
        | (s, .error e) => (s, .error e)

/-- A row no key names, once let go. -/
def letGo (row : SpaceBlob) : Bool := row.refs ≤ 0 && row.unrefAt.isSome

/-- `ORDER BY unref_at, hash`. -/
def older (a b : SpaceBlob) : Bool :=
  a.unrefAt.getD 0 < b.unrefAt.getD 0 || (a.unrefAt = b.unrefAt && a.hash ≤ b.hash)

/-- Drop rows in order until `need` bytes are freed, as `freed` counts them. -/
def dropUntil (fs : FileSystem) (freed : SpaceBlob → Int → Int) (need : Int) :
    List SpaceBlob → Int → BlobStore → BlobStore × Except DataError Int
  | [], sum, s => (s, .ok sum)
  | row :: rest, sum, s =>
      if sum ≥ need then (s, .ok sum)
      else match s.dropRow fs row.space row.hash with
        | (s, .ok bytes) => dropUntil fs freed need rest (sum + freed row bytes) s
        | (s, .error e) => (s, .error e)

/-- A space's own let-go rows, oldest first, until `need` bytes of its quota are
    free. -/
def freeOwnLetGo (fs : FileSystem) (space : String) (need : Int) : BlobStore × Except DataError Int :=
  dropUntil fs (fun row _ => row.size) need
    ((s.held.rows.filter fun row => row.space = space && letGo row).insertionSort fun a b => older a b) 0 s

/-- `store_full` pressure: let-go rows until `need` bytes of files are freed, the
    asking space's own first. -/
def gcPressure (fs : FileSystem) (asking : String) (need : Int) : BlobStore × Except DataError Int :=
  dropUntil fs (fun _ bytes => bytes) need
    ((s.held.rows.filter letGo).insertionSort fun a b =>
      (a.space = asking && b.space ≠ asking) || ((a.space = asking ↔ b.space = asking) && older a b)) 0 s

/-! ## An upload -/

/-- The space's row for a blob, or none when it doesn't hold it. -/
def blobRow (space hash : String) : Except DataError (Option SpaceBlob) :=
  if !validHash hash.toList then .error (.badRequest "a blob ref looks like k2blob:sha256-<64 lowercase hex>")
  else .ok ((s.held.get (space, hash)).filter fun _ => (s.files.get hash).isSome)

/-- One call of `blob_put`. -/
structure Upload where
  now : Int
  space : Space
  bytes : List UInt8
  name : Option String
  who : String

variable (r : BlobReader) (caps : BlobCaps) (fs : FileSystem) (u : Upload)

def Upload.hash : String := r.sha256Hex u.bytes

def Upload.size : Int := u.bytes.length

/-- The new rows of an upload. -/
def Upload.file : BlobFile := ⟨u.hash r, u.size, r.sniff u.bytes, u.now⟩

def Upload.row : SpaceBlob where
  space := u.space.name
  hash := u.hash r
  size := u.size
  addedAt := u.now
  addedBy := u.who
  name := u.name.bind cleanName
  mime := r.sniff u.bytes
  refs := 0
  firstRefAt := none
  unrefAt := none

/-- The file, then its rows. -/
def insertBlob : BlobStore × Except DataError BlobInfo :=
  match s.writeFile fs (u.hash r) with
  | .error e => (s, .error e)
  | .ok s =>
      match s.held.insertNew (u.row r) with
      | none => (s, .error (sqliteConflict "space_blobs.space, space_blobs.hash"))
      | some held =>
          let files := if (s.files.get (u.hash r)).isSome then s.files else s.files.upsert (u.file r)
          let s := { s.withHeld held with files }
          match s.blobRow u.space.name (u.hash r) with
          | .ok (some row) => (s, .ok (row.info true))
          | .ok none => (s, .error (.unavailable "a blob row vanished"))
          | .error e => (s, .error e)

/-- Room for a new file in the whole folder. -/
def fitStore : BlobStore × Except DataError BlobInfo :=
  let excess := s.totalBytes + u.size - caps.store
  if (s.files.get (u.hash r)).isSome || excess ≤ 0 then s.insertBlob r fs u
  else match s.gcPressure fs u.space.name excess with
    | (s, .error e) => (s, .error e)
    | (s, .ok _) => if s.totalBytes + u.size > caps.store then (s, .error .storeFull) else s.insertBlob r fs u

/-- Room in the space's quota. -/
def fitSpace : BlobStore × Except DataError BlobInfo :=
  let excess := s.data.blobs.charged u.space.name + u.size - caps.space
  if excess ≤ 0 then s.fitStore r caps fs u
  else match s.freeOwnLetGo fs u.space.name excess with
    | (s, .error e) => (s, .error e)
    | (s, .ok freed) => if freed < excess then (s, .error (.spaceFull "blobs")) else s.fitStore r caps fs u

/-- Upload bytes into a space. Held already, nothing is charged again, and only
    the uploader hears the name back. -/
def blobPut : BlobStore × Except DataError BlobInfo :=
  if !u.space.isData then
    (s, .error (.badRequest "a widget's private save space keeps no files; use its data"))
  else if u.bytes.length > maxBlobBytes then
    (s, .error (.tooLarge
      s!"a file is at most {maxBlobBytes / (1024 * 1024)} MiB; this one is {u.bytes.length} bytes"))
  else match s.blobRow u.space.name (u.hash r) with
    | .error e => (s, .error e)
    | .ok (some row) =>
        let info := row.info false
        (s, .ok (if row.addedBy = u.who then info else { info with name := none }))
    | .ok none =>
        if s.data.blobs.pendingOf u.who + u.size > caps.pending then (s, .error (.spaceFull "pending"))
        else s.fitSpace r caps fs u

/-! ## The collector -/

/-- What one GC pass removed. -/
structure BlobGcReport where
  rows : Nat
  files : Nat
  bytes : Int
  deriving Repr, DecidableEq

/-- An upload past its day, or a let-go copy past its 35 days. -/
def stale (now : Int) (row : SpaceBlob) : Bool :=
  row.refs ≤ 0 && ((row.firstRefAt.isNone && row.addedAt < now - blobPendingKeepSecs) ||
    (row.unrefAt.any (· < now - blobUnrefKeepSecs)))

/-- Remove the files of orphans. -/
def removeOrphans (fs : FileSystem) : List BlobFile → BlobGcReport → BlobStore → BlobStore × Except DataError BlobGcReport
  | [], report, s => (s, .ok report)
  | f :: rest, report, s =>
      match s.removeFile fs f.hash with
      | (s, .ok gone) => removeOrphans fs rest
          { report with files := report.files + (if gone then 1 else 0), bytes := report.bytes + f.size } s
      | (s, .error e) => (s, .error e)

/-- Remove the files no row knows, an hour after they were written. -/
def removeStrays (fs : FileSystem) (now : Int) :
    List (String × Int) → BlobGcReport → BlobStore → BlobStore × Except DataError BlobGcReport
  | [], report, s => (s, .ok report)
  | (hash, written) :: rest, report, s =>
      if (s.files.get hash).isNone && written < now - strayFileKeepSecs then
        match s.removeFile fs hash with
        | (s, .ok gone) => removeStrays fs now rest { report with files := report.files + (if gone then 1 else 0) } s
        | (s, .error e) => (s, .error e)
      else removeStrays fs now rest report s

/-- One GC pass: old uploads and let-go copies, then every file no space holds,
    then stray files a crash left. -/
def blobGc (fs : FileSystem) (now : Int) : BlobStore × Except DataError BlobGcReport :=
  let rows := s.held.count (stale now)
  let s := s.withHeld (s.held.deleteWhere (stale now))
  let orphan := fun f : BlobFile => !s.held.rows.any (·.hash = f.hash)
  let orphans := s.files.rows.filter orphan
  let s := { s with files := s.files.deleteWhere orphan }
  match removeOrphans fs orphans ⟨rows, 0, 0⟩ s with
  | (s, .ok report) => removeStrays fs now s.disk.rows report s
  | (s, .error e) => (s, .error e)

end BlobStore

end K2.GardenData
