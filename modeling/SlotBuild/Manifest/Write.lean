import SlotBuild.Manifest
import SlotBuild.Toml.Printer

/-! Writing a manifest as text, and the text of a recipe that its outputs depend on. -/

namespace SlotBuild

open Toml (Value Entries)

def Placement.toValue (p : Placement) : Value :=
  .table [("slot", .string p.slot), ("paths", .array (p.paths.map .string))]

def BuildSettings.toValue (b : BuildSettings) : Value :=
  .table ((b.maxParallelism.map fun n => ("max_parallelism", Value.integer n)).toList
    ++ [("fail_fast", .boolean b.failFast), ("force_rebuild_all", .boolean b.forceRebuildAll),
      ("state_dir", .string b.stateDir)])

def Slot.toValue (s : Slot) : Value :=
  .table [("id", .string s.id), ("kind", .string s.kind.name),
    ("cardinality", .string s.cardinality.name), ("category", .string s.category.name),
    ("appendable", .boolean s.appendable)]

def entryUnless (empty : Bool) (k : String) (v : Value) : Entries := if empty then [] else [(k, v)]

namespace Recipe

def envValue (t : Recipe) : Value := .table (t.env.map fun e => (e.1, .string e.2))

def outputsValue (t : Recipe) : Value := .array (t.outputs.map Placement.toValue)

def commandValue (t : Recipe) : Value := .array (t.command.map .string)

def toValue (t : Recipe) : Value :=
  .table ([("id", .string t.id), ("inputs", .array (t.inputs.map .string)), ("outputs", t.outputsValue),
      ("command", t.commandValue)]
    ++ entryUnless t.env.isEmpty "env" t.envValue
    ++ entryUnless t.config.isEmpty "config" (.table t.config)
    ++ (t.fingerprintInputs.map fun ss =>
      ("fingerprint_inputs", Value.array (ss.map .string))).toList)

/-- All that outdates the outputs of a task when it is edited: the command with its environment,
where the outputs are written, and the free settings. -/
def configText (t : Recipe) : String :=
  Toml.write false [("command", t.commandValue), ("env", t.envValue), ("outputs", t.outputsValue),
    ("config", .table t.config)]

end Recipe

namespace Manifest

def toEntries (m : Manifest) : Entries :=
  ("build", m.build.toValue) :: entryUnless m.slots.isEmpty "slot" (.array (m.slots.map Slot.toValue))
    ++ entryUnless m.sources.isEmpty "source" (.array (m.sources.map Placement.toValue))
    ++ entryUnless m.tasks.isEmpty "task" (.array (m.tasks.map Recipe.toValue))

def toToml (m : Manifest) : String := Toml.write true m.toEntries

/-- The text of a manifest, if there is one: the integers of the format have 64 bits and a sign. -/
def toToml? (m : Manifest) : Option String :=
  if m.build.maxParallelism.all fun n : Nat => Toml.fitsInteger n then some m.toToml else none

end Manifest

end SlotBuild
