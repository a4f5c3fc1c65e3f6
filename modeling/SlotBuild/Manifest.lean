import SlotBuild.Slot
import SlotBuild.Toml.Value

/-! The manifest of a project: build settings, the slots and sources it declares and the recipes of
its tasks. -/

namespace SlotBuild

/-- Paths that hold the content of a slot. -/
structure Placement where
  slot : SlotId
  paths : List String
deriving DecidableEq, Repr

structure BuildSettings where
  maxParallelism : Option Nat
  failFast : Bool
  forceRebuildAll : Bool
  stateDir : String
deriving DecidableEq, Repr

def BuildSettings.standard : BuildSettings := ⟨none, false, false, ".kiln"⟩

structure Recipe where
  id : String
  inputs : List SlotId
  outputs : List Placement
  command : List String
  env : Keyed String
  /-- Free settings of which only the content matters. -/
  config : Keyed Toml.Value
  fingerprintInputs : Option (List SlotId)
deriving Repr

structure Manifest where
  build : BuildSettings
  slots : List Slot
  sources : List Placement
  tasks : List Recipe
deriving Repr

def Recipe.equals (a b : Recipe) : Bool :=
  a.id == b.id && a.inputs == b.inputs && a.outputs == b.outputs && a.command == b.command
    && a.env == b.env && Toml.Value.entriesEqual a.config b.config
    && a.fingerprintInputs == b.fingerprintInputs

def recipesEqual : List Recipe → List Recipe → Bool
  | [], [] => true
  | a :: as, b :: bs => a.equals b && recipesEqual as bs
  | _, _ => false

/-- Equal in all fields, with floats compared as numbers. -/
def Manifest.equals (m n : Manifest) : Bool :=
  m.build == n.build && m.slots == n.slots && m.sources == n.sources && recipesEqual m.tasks n.tasks

end SlotBuild
