import SlotBuild.FileTree
import SlotBuild.Manifest
import SlotBuild.Manifest.Shape
import SlotBuild.Text.Split
import SlotBuild.Toml.Reader

/-! Reading a manifest: well-formed text, then the right shape, then the rules that every manifest
keeps. -/

namespace SlotBuild

namespace Manifest

open Shape

def settingsFields : List (RecordField BuildSettings) :=
  [.of "max_parallelism" false count fun n b => { b with maxParallelism := some n },
   .of "fail_fast" false boolean fun x b => { b with failFast := x },
   .of "force_rebuild_all" false boolean fun x b => { b with forceRebuildAll := x },
   .of "state_dir" false string fun s b => { b with stateDir := s }]

def kinds : List (String × Kind) := [("file", .file), ("directory", .directory)]

def cardinalities : List (String × Cardinality) := [("single", .single), ("multiple", .multiple)]

def categories : List (String × Category) :=
  [("sources", .sources), ("intermediates", .intermediates), ("outputs", .outputs)]

def slotFields : List (RecordField Slot) :=
  [.of "id" true string fun s x => { x with id := s },
   .of "kind" true (variant kinds) fun k x => { x with kind := k },
   .of "cardinality" false (variant cardinalities) fun c x => { x with cardinality := c },
   .of "category" false (variant categories) fun c x => { x with category := c },
   .of "appendable" false boolean fun b x => { x with appendable := b }]

def placementFields : List (RecordField Placement) :=
  [.of "slot" true string fun s p => { p with slot := s },
   .of "paths" true (list string) fun ps p => { p with paths := ps }]

def outputOf : Toml.Value → Result Placement := record "OutputDecl" placementFields ⟨"", []⟩

def sourceOf : Toml.Value → Result Placement := record "SourceDecl" placementFields ⟨"", []⟩

def slotOf : Toml.Value → Result Slot :=
  record "SlotDecl" slotFields (.single "" .file .intermediates)

/-- Tables in free settings are kept in the order of their keys. No key is special there, as in TOML
itself. -/
def setting (v : Toml.Value) : Result Toml.Value := .ok v.sorted

def recipeFields : List (RecordField Recipe) :=
  [.of "id" true string fun s t => { t with id := s },
   .of "inputs" false (list string) fun ss t => { t with inputs := ss },
   .of "outputs" false (list outputOf) fun ps t => { t with outputs := ps },
   .of "command" true (list string) fun ss t => { t with command := ss },
   .of "env" false (map string) fun e t => { t with env := e },
   .of "config" false (map setting) fun c t => { t with config := c },
   .of "fingerprint_inputs" false (list string) fun ss t => { t with fingerprintInputs := some ss }]

def recipeOf : Toml.Value → Result Recipe :=
  record "TaskDecl" recipeFields ⟨"", [], [], [], [], [], none⟩

def fields : List (RecordField Manifest) :=
  [.of "build" false (record "BuildSettings" settingsFields .standard) fun b m => { m with build := b },
   .of "slot" false (list slotOf) fun ss m => { m with slots := ss },
   .of "source" false (list sourceOf) fun ps m => { m with sources := ps },
   .of "task" false (list recipeOf) fun ts m => { m with tasks := ts }]

def ofEntries (es : Toml.Entries) : Result Manifest :=
  recordOfEntries fields ⟨.standard, [], [], []⟩ es

end Manifest

inductive ManifestFault where
  | zeroParallelism
  | emptyStateDir
  | emptyTaskId
  | duplicateTask (id : String)
  | emptyCommand (id : String)
  | noOutputs (id : String)
  | outputWithoutPaths (id slot : String)
  | sourceWithoutPaths (slot : String)
deriving DecidableEq, Repr

def ManifestFault.message : ManifestFault → String
  | zeroParallelism => "[build] max_parallelism must be at least 1"
  | emptyStateDir => "[build] state_dir must not be empty"
  | emptyTaskId => "task id must not be empty"
  | duplicateTask id => s!"task `{id}` is declared twice"
  | emptyCommand id => s!"task `{id}` has an empty command"
  | noOutputs id => s!"task `{id}` declares no outputs"
  | outputWithoutPaths id slot => s!"task `{id}` output `{slot}` lists no paths"
  | sourceWithoutPaths slot => s!"source for slot `{slot}` lists no paths"

inductive ManifestError where
  | unreadable (path : String) (cause : OsError)
  | malformed (origin : String)
  | misshapen (origin : String) (detail : ShapeError)
  | invalid (fault : ManifestFault)
deriving DecidableEq, Repr

/-- Where in the text a reader has stopped is left out. -/
def ManifestError.message : ManifestError → String
  | unreadable path cause => s!"cannot read {path}: {cause.message}"
  | malformed origin => s!"invalid kiln.toml at {origin}: "
  | misshapen origin detail => s!"invalid kiln.toml at {origin}: {detail.message}"
  | invalid fault => s!"invalid kiln.toml: {fault.message}"

namespace Manifest

def recipeFault? (seen : List String) (t : Recipe) : Option ManifestFault :=
  if allBlank t.id then some .emptyTaskId
  else if seen.contains t.id then some (.duplicateTask t.id)
  else if t.command = [] then some (.emptyCommand t.id)
  else if t.outputs = [] then some (.noOutputs t.id)
  else (t.outputs.find? fun o => o.paths = []).map fun o => .outputWithoutPaths t.id o.slot

def recipesFault? (seen : List String) : List Recipe → Option ManifestFault
  | [] => none
  | t :: ts =>
    match recipeFault? seen t with
    | some fault => some fault
    | none => recipesFault? (t.id :: seen) ts

def fault? (m : Manifest) : Option ManifestFault :=
  if m.build.maxParallelism = some 0 then some .zeroParallelism
  else if allBlank m.build.stateDir then some .emptyStateDir
  else match recipesFault? [] m.tasks with
    | some fault => some fault
    | none => (m.sources.find? fun s => s.paths = []).map fun s => .sourceWithoutPaths s.slot

/-- Reads the text of a manifest; `origin` names it in errors. -/
def parse (origin text : String) : Except ManifestError Manifest :=
  match Toml.read? text with
  | none => .error (.malformed origin)
  | some es =>
    match ofEntries es with
    | .error e => .error (.misshapen origin e)
    | .ok m =>
      match m.fault? with
      | some fault => .error (.invalid fault)
      | none => .ok m

end Manifest

end SlotBuild
