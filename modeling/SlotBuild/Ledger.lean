import SlotBuild.FileTree.Replace
import SlotBuild.Record.Json

/-! The ledger of a session: the generation that was read, which never changes, and the one that is
written. What a session leaves is saved in one step. -/

namespace SlotBuild

structure Ledger where
  path : Path
  previous : Generation
  current : Generation
deriving DecidableEq, Repr

inductive LedgerError where
  | unreadable (path : Path) (cause : OsError)
  | unwritable (path : Path) (cause : AccessError)
  | corrupt (path : Path)
deriving DecidableEq, Repr

def LedgerError.message : LedgerError → String
  | unreadable path cause => s!"cannot access build state at {path.text}: {cause.message}"
  | unwritable path cause => s!"cannot access build state at {path.text}: {cause.message}"
  | corrupt path => s!"corrupt build state at {path.text}: "

namespace Ledger

def successor (n : UInt64) : UInt64 := if n.toNat + 1 < UInt64.size then n + 1 else n

def after (path : Path) (previous : Generation) : Ledger :=
  ⟨path, previous, .blank (successor previous.number)⟩

def empty (path : Path) : Ledger := after path .empty

def load (files : FileTree) (cwd : Key) (path : Path) : Except LedgerError Ledger :=
  if !files.isThere cwd path then .ok (empty path)
  else match files.read cwd path with
    | .error e => .error (.unreadable path e)
    | .ok content =>
      match Generation.ofBytes? content with
      | none => .error (.corrupt path)
      | some g => .ok (after path g)

def loadOrEmpty (files : FileTree) (cwd : Key) (path : Path) : Ledger :=
  match load files cwd path with
  | .ok l => l
  | .error _ => empty path

/-- What `producer` put into a slot in the previous generation; `none` stands for supplies. -/
def previousRecords (l : Ledger) (s : SlotId) (producer : Option TaskId) : List Record :=
  (l.previous.recordsIn s).filter fun r => r.producer = producer

def currentRecords (l : Ledger) (s : SlotId) : List Record := l.current.recordsIn s

/-- The records of a slot once `r` is bound to it. In an appendable slot it replaces an earlier
record of its producer, in any other slot all records. -/
def bound (slot : Slot) (r : Record) (rs : List Record) : List Record :=
  if slot.appendable then (rs.filter fun x => x.producer ≠ r.producer) ++ [r] else [r]

def recordsAt (g : Generation) (s : SlotId) : List Record := (Keyed.get? s g.records).getD []

def withRecords (l : Ledger) (s : SlotId) (rs : List Record) : Ledger :=
  { l with current := l.current.put s rs }

def record (l : Ledger) (slot : Slot) (r : Record) : Except SlotError Ledger :=
  if r.slot ≠ slot.id then .error (.invalid slot.id (.foreignRecord r.slot))
  else .ok (l.withRecords slot.id (bound slot r (recordsAt l.current slot.id)))

/-- Whether a slot has no room for a record of `producer` from the previous generation. -/
def isTaken (slot : Slot) (producer : TaskId) (rs : List Record) : Bool :=
  if slot.appendable then rs.any fun r => r.producer = some producer else !rs.isEmpty

/-- Takes one record over if it is of `producer` and there is room for it, and counts it. -/
def carryRecord (slot : Slot) (producer : TaskId) (s : Nat × List Record) (r : Record) :
    Nat × List Record :=
  if r.producer = some producer ∧ !isTaken slot producer s.2 then (s.1 + 1, s.2 ++ [r]) else s

/-- The slot is listed even if nothing was taken over. -/
def carrySlot (c : Catalog) (producer : TaskId) (s : Nat × Ledger) (old : SlotId × List Record) :
    Nat × Ledger :=
  match c.find? old.1 with
  | none => s
  | some slot =>
    let carried := old.2.foldl (carryRecord slot producer) (s.1, recordsAt s.2.current old.1)
    (carried.1, s.2.withRecords old.1 carried.2)

/-- Without the slots that are listed with no record. -/
def swept (l : Ledger) : Ledger :=
  { l with current := ⟨l.current.number, l.current.records.filter fun x => !x.2.isEmpty,
    l.current.ordered.filter _⟩ }

/-- Takes over the history of a producer that was not attempted, and tells how many records that
were. -/
def carryForward (l : Ledger) (c : Catalog) (producer : TaskId) : Nat × Ledger :=
  let carried := l.previous.records.foldl (carrySlot c producer) (0, l)
  (carried.1, carried.2.swept)

/-- Each of some producers takes its history over in turn. -/
def carryForwardAll (l : Ledger) (c : Catalog) (producers : List TaskId) : Ledger :=
  producers.foldl (fun l p => (l.carryForward c p).2) l

def flush (faults : Faults) (l : Ledger) (files : FileTree) (cwd : Key) :
    Except LedgerError Unit × FileTree :=
  match files.replaceFile faults cwd l.path l.current.toBytes with
  | (.ok (), written) => (.ok (), written)
  | (.error e, left) => (.error (.unwritable l.path e), left)

end Ledger

end SlotBuild
