import SlotBuild.Command
import SlotBuild.Forecast
import SlotBuild.Manifest.Read
import SlotBuild.Manifest.Write
import SlotBuild.Session

/-! A project is a directory with a manifest. Its slots, supplies and tasks are made from the
manifest, and its history is kept in a state file below it. -/

namespace SlotBuild

/-- What a call adds to the settings of the manifest. -/
structure BuildOptions where
  /-- The tasks to build with all they depend on; none stands for all tasks. -/
  targets : List TaskId
  jobs : Option Nat
  failFast : Bool
  force : Bool
deriving DecidableEq, Repr

inductive ProjectError where
  | manifest (e : ManifestError)
  | slot (e : SlotError)
deriving Repr

def ProjectError.message : ProjectError → String
  | manifest e => e.message
  | .slot e => e.message

def Recipe.task (root : Path) (t : Recipe) : Task :=
  let command := Command.make root t.command t.env (t.outputs.map fun o => (o.slot, o.paths.map Path.mk))
  let filter := match t.fingerprintInputs with
    | some slots => InputFilter.only slots
    | none => .all
  ((((Task.make t.id command.action).withConfig t.configText).withInputs t.inputs).withOutputs
    (t.outputs.map (·.slot))).withFilter filter

def Placement.supply (root : Path) (p : Placement) : Supply :=
  ⟨p.slot, p.paths.map fun q => root.join ⟨q⟩⟩

structure Project where
  root : Path
  manifest : Manifest
  catalog : Catalog
  supplies : List Supply
  tasks : List Task

namespace Project

def manifestFile : String := "kiln.toml"

def stateFile : String := "state.json"

/-- The slots of the manifest are declared after the well-known ones. -/
def ofManifest (root : Path) (m : Manifest) : Except SlotError Project := do
  let catalog ← Catalog.wellKnown.declareAll m.slots
  return ⟨root, m, catalog, m.sources.map (Placement.supply root), m.tasks.map (Recipe.task root)⟩

def readManifest (files : FileTree) (cwd : Key) (path : Path) : Except ManifestError Manifest :=
  match files.read cwd path with
  | .error e => .error (.unreadable path.text e)
  | .ok content =>
    match Bytes.toString? content with
    | none => .error (.unreadable path.text .notText)
    | some text => Manifest.parse path.text text

def load (files : FileTree) (cwd : Key) (root : Path) : Except ProjectError Project :=
  match readManifest files cwd (root.join ⟨manifestFile⟩) with
  | .error e => .error (.manifest e)
  | .ok m =>
    match ofManifest root m with
    | .error e => .error (.slot e)
    | .ok p => .ok p

def stateDir (p : Project) : Path := p.root.join ⟨p.manifest.build.stateDir⟩

def statePath (p : Project) : Path := p.stateDir.join ⟨stateFile⟩

def graph (p : Project) (targets : List TaskId) : Except GraphError Graph := do
  let g ← Graph.build p.catalog (p.supplies.map (·.slot)) p.tasks
  if targets = [] then return g else g.select targets

/-- How many tasks may run at once, where a call or the manifest says so. -/
def jobs? (p : Project) (o : BuildOptions) : Option Nat := o.jobs.or p.manifest.build.maxParallelism

def config (p : Project) (processors : Nat) (o : BuildOptions) : SessionConfig :=
  ⟨(p.jobs? o).getD processors, o.failFast || p.manifest.build.failFast,
    o.force || p.manifest.build.forceRebuildAll⟩

def history (p : Project) (w : World) : Ledger := Ledger.loadOrEmpty w.files w.cwd p.statePath

def build (p : Project) (processors : Nat) (o : BuildOptions) (threads : Option String)
    (moves : List Move) (w : World) : Except SessionError SessionResult × World :=
  match p.graph o.targets with
  | .error e => (.error (.graph e), w)
  | .ok g =>
    let (result, site) :=
      runGraph ⟨p.catalog, g, p.config processors o⟩ p.supplies threads moves ⟨p.history w, w⟩
    (result, site.world)

def plan (p : Project) (processors : Nat) (o : BuildOptions) (w : World) :
    Except SessionError (List Forecast) :=
  match p.graph o.targets with
  | .error e => .error (.graph e)
  | .ok g =>
    match Forecast.make g p.supplies w (p.history w) (p.config processors o) with
    | .error e => .error (.access e)
    | .ok fs => .ok fs

/-- Removes the state directory and says whether there was anything to remove. -/
def clean (p : Project) (files : FileTree) (cwd : Key) : Except AccessError Bool × FileTree :=
  let existed := files.isThere cwd p.stateDir
  let (result, left) := files.removeTreeIfPresent cwd p.stateDir
  (result.map fun _ => existed, left)

end Project

end SlotBuild
