import K2.Json

/-! # Garden data: limits, spaces, operations, refusals

What the transaction table, the patch and the store share: the contract's
limits, a keyspace, one write of a batch, and every refusal they give.
-/

namespace K2.GardenData

/-! ## Limits -/

def maxKeyBytes : Nat := 256
/-- One value, as canonical JSON text. -/
def maxValueBytes : Nat := 60 * 1024
/-- A `data:` space. -/
def maxSpaceBytes : Int := 20 * 1024 * 1024
def maxSpaceKeys : Int := 100000
/-- A `save:` space. -/
def maxSaveBytes : Int := 5 * 1024 * 1024
def maxSaveKeys : Int := 10000
/-- `list` and `changes` pages. -/
def pageBytes : Nat := 60 * 1024
def changesPageItems : Nat := 500
/-- A batch, and one transaction part. -/
def maxBatchOps : Nat := 64
def maxBatchBytes : Nat := 60 * 1024
/-- One transaction commit. -/
def maxTxOps : Nat := 1000
def maxTxBytes : Nat := 1024 * 1024
def txIdleSecs : Int := 30
def maxTxPerPlacement : Nat := 2
def maxTxPerAgent : Nat := 4
def maxTxStagedBytes : Nat := 16 * 1024 * 1024
def tombstoneKeepSecs : Int := 7 * 86400
def changeLogKeepSecs : Int := 7 * 86400

/-! ## Spaces and operations -/

/-- A keyspace, by its stored name: `data:<widget>` or `save:<widget>`. -/
structure Space where
  name : String
  deriving Repr, DecidableEq

namespace Space

def isData (s : Space) : Bool := "data:".toList.isPrefixOf s.name.toList

/-- The widget name. -/
def widget (s : Space) : String := String.ofList (s.name.toList.drop 5)

end Space

/-- One write in a batch, a transaction part or an import. -/
inductive Op where
  | put (key : String) (value : Value) (ifRev : Option Int)
  | delete (key : String) (ifRev : Option Int)
  /-- A field-level merge: `value` is the partial. -/
  | patch (key : String) (value : Value) (ifRev : Option Int)
  deriving Repr

namespace Op

def key : Op → String
  | put k _ _ | delete k _ | patch k _ _ => k

def ifRev : Op → Option Int
  | put _ _ r | delete _ r | patch _ _ r => r

/-- Canonical JSON bytes of the value the op carries (a patch's partial, not the
    merged document). -/
def valueBytes : Op → Nat
  | put _ v _ | patch _ v _ => v.byteLen
  | delete _ _ => 0

end Op

/-- Values' bytes in a set of ops. -/
def opsBytes (ops : List Op) : Nat := (ops.map Op.valueBytes).sum

/-! ## Refusals -/

inductive DataError where
  | badRequest (message : String)
  | badKey (message : String)
  | notGranted (key : Option String)
  | valueTooLarge (bytes : Nat)
  | tooLarge (message : String)
  /-- `op`: the failing op's index in a batch; none for a single write. -/
  | conflict (key : String) (rev : Int) (op : Option Nat)
  | spaceFull (what : String)
  | storeFull
  | resync (reapedRev : Int)
  | badTx
  | txExpired
  | busy
  | notFound (code : String)
  /-- A value names blobs the space doesn't hold. -/
  | blobMissing (refs : List String)
  | refused (code : String) (status : Nat) (hint : String)
  | unavailable (message : String)
  deriving Repr, DecidableEq

end K2.GardenData
