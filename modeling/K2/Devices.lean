import K2.Lib.Table

/-! # The device registry

Homes sync and stash sync share one registry of a person's devices
(`homes_devices`). Of a device's row this model keeps what pulls and pushes read
and write: when it last synced, and whether it was removed.
-/

namespace K2

structure Device where
  person : String
  deviceId : String
  lastSyncAt : Option Int
  removedAt : Option Int
  deriving Repr, DecidableEq

def Device.key (d : Device) : String × String := (d.person, d.deviceId)

abbrev Devices := KeyedTable Device.key

/-- Stamp an active device's `lastSyncAt`. -/
def touchDevice (t : Devices) (person deviceId : String) (nowMs : Int) : Devices :=
  match t.get (person, deviceId) with
  | some d => if d.removedAt.isNone then t.upsert { d with lastSyncAt := some nowMs } else t
  | none => t

end K2

/-! ## A person's cursor and tombstone floor

Homes sync (`homes_people`) and stash sync (`stash_people`) each keep one row
per person: the cursor their pushes count up and the floor their collections
raise. A person without a row stands at 0.
-/

namespace K2

structure PersonRow where
  person : String
  seq : Int
  floor : Int
  deriving Repr

abbrev People := KeyedTable PersonRow.person

/-- A person's cursor and tombstone floor. -/
def personSeq (people : People) (person : String) : Int × Int :=
  ((people.get person).map fun p => (p.seq, p.floor)).getD (0, 0)

@[simp] theorem personSeq_empty (person : String) : personSeq .empty person = (0, 0) := rfl

@[simp] theorem personSeq_upsert_self (people : People) (person : String) (seq floor : Int) :
    personSeq (people.upsert ⟨person, seq, floor⟩) person = (seq, floor) := by
  simp [personSeq, KeyedTable.get_upsert]

theorem personSeq_upsert_of_ne (people : People) {person other : String} (seq floor : Int)
    (different : other ≠ person) :
    personSeq (people.upsert ⟨person, seq, floor⟩) other = personSeq people other := by
  simp [personSeq, KeyedTable.get_upsert, different.symm]

end K2
