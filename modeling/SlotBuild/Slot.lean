/-! Slots for build artifacts and the catalog that declares them. A slot never changes once it is
declared. -/

namespace SlotBuild

abbrev SlotId := String

inductive Cardinality where
  | single
  | multiple
deriving DecidableEq, Repr

inductive Kind where
  | file
  | directory
deriving DecidableEq, Repr

inductive Category where
  | sources
  | intermediates
  | outputs
deriving DecidableEq, Repr

def Cardinality.name : Cardinality → String
  | single => "single"
  | multiple => "multiple"

def Kind.name : Kind → String
  | file => "file"
  | directory => "directory"

def Category.name : Category → String
  | sources => "sources"
  | intermediates => "intermediates"
  | outputs => "outputs"

/-- An appendable slot gathers the records of all its producers; any other keeps the latest. -/
structure Slot where
  id : SlotId
  cardinality : Cardinality
  kind : Kind
  category : Category
  appendable : Bool
deriving DecidableEq, Repr

namespace Slot

def single (id : SlotId) (kind : Kind) (category : Category) : Slot :=
  ⟨id, .single, kind, category, false⟩

def multiple (id : SlotId) (kind : Kind) (category : Category) : Slot :=
  ⟨id, .multiple, kind, category, false⟩

def shared (id : SlotId) (kind : Kind) (category : Category) : Slot :=
  ⟨id, .multiple, kind, category, true⟩

end Slot

inductive SlotFault where
  | singleAppendable
  | emptyId
  | foreignRecord (other : SlotId)
deriving DecidableEq, Repr

def SlotFault.message : SlotFault → String
  | singleAppendable => "only slots with multiple cardinality can be appendable"
  | emptyId => "slot id must not be empty"
  | foreignRecord other => s!"record belongs to slot `{other}`"

inductive SlotError where
  | duplicate (id : SlotId)
  | unknown (id : SlotId)
  | invalid (id : SlotId) (fault : SlotFault)
deriving DecidableEq, Repr

def SlotError.message : SlotError → String
  | duplicate id => s!"slot `{id}` is already declared"
  | unknown id => s!"slot `{id}` is not declared"
  | invalid id fault => s!"slot `{id}` is invalid: {fault.message}"

structure Catalog where
  slots : List Slot
deriving DecidableEq, Repr

namespace Catalog

def empty : Catalog := ⟨[]⟩

/-- Slots that every pipeline of this kind shares. -/
def wellKnown : Catalog :=
  ⟨["dex", "external-libs-dex", "partial-r-files", "res-compiled-flat-files"].map
    fun id => Slot.shared id .directory .intermediates⟩

def find? (c : Catalog) (id : SlotId) : Option Slot := c.slots.find? fun s => s.id = id

def contains (c : Catalog) (id : SlotId) : Bool := (c.find? id).isSome

def lookup (c : Catalog) (id : SlotId) : Except SlotError Slot :=
  match c.find? id with
  | some s => .ok s
  | none => .error (.unknown id)

def declare (c : Catalog) (s : Slot) : Except SlotError Catalog :=
  if c.contains s.id then .error (.duplicate s.id)
  else if s.appendable ∧ s.cardinality = .single then .error (.invalid s.id .singleAppendable)
  else if s.id = "" then .error (.invalid s.id .emptyId)
  else .ok ⟨c.slots ++ [s]⟩

def declareAll (c : Catalog) (ss : List Slot) : Except SlotError Catalog := ss.foldlM declare c

end Catalog

end SlotBuild
