import SlotBuild.Task

/-! Records of artifacts and the generations that hold them, and the fingerprint that a task has
for the records bound to its inputs. -/

namespace SlotBuild

/-- One artifact: a record without a producer was supplied from outside. -/
structure Record where
  slot : SlotId
  locations : List Path
  fingerprint : String
  inputFingerprint : Option String
  producer : Option TaskId
  createdAt : UInt64
deriving DecidableEq, Repr

structure Generation where
  number : UInt64
  records : Keyed (List Record)
  ordered : records.Ordered
deriving DecidableEq, Repr

namespace Record

def compareLocations : List Path → List Path → Ordering
  | [], [] => .eq
  | [], _ :: _ => .lt
  | _ :: _, [] => .gt
  | a :: r, b :: s => (a.compare b).then (compareLocations r s)

def compareProducers : Option TaskId → Option TaskId → Ordering
  | none, none => .eq
  | none, some _ => .lt
  | some _, none => .gt
  | some a, some b => compare a b

/-- Records are ordered by producer, supplied ones first, and then by location. -/
def compare (a b : Record) : Ordering :=
  (compareProducers a.producer b.producer).then (compareLocations a.locations b.locations)

end Record

namespace Generation

def blank (number : UInt64) : Generation := ⟨number, [], .nil⟩

def empty : Generation := blank 0

def put (g : Generation) (s : SlotId) (rs : List Record) : Generation :=
  ⟨g.number, Keyed.put s rs g.records, g.ordered.put⟩

/-- The records of a slot in an order that does not depend on when they were bound. -/
def recordsIn (g : Generation) (s : SlotId) : List Record :=
  ((Keyed.get? s g.records).getD []).mergeSort fun a b => a.compare b != .gt

def count (g : Generation) : Nat := (g.records.flatMap (·.2)).length

end Generation

namespace Fingerprint

def combine (task : TaskId) (configDigest : String) (digests : List String) : String :=
  Digest.ofParts ["kiln-inputs-v1", task, configDigest, Digest.ofUnordered digests]

def ofRecord (r : Record) : String :=
  Digest.ofParts [r.slot, r.fingerprint, r.inputFingerprint.getD ""]

/-- A record counts with its content and with the inputs of the run that made it, so a change is
seen by everything downstream even where the bytes come out the same. -/
def ofInputs (t : Task) (records : List Record) : String :=
  combine t.id t.configDigest ((records.filter fun r => t.filter.includes r.slot).map ofRecord)

end Fingerprint

end SlotBuild
