import SlotBuild.CommandLine.Arguments
import SlotBuild.LogFilter
import SlotBuild.Scaffold
import SlotBuild.Utility.Files

/-! The command line: a request is carried out in the working directory, and the answer is what is
printed and the exit code. -/

namespace SlotBuild.CommandLine

inductive Message where
  | line (s : String)
  | logged (s : String)
deriving DecidableEq, Repr

structure Response where
  code : Nat
  output : List String
  messages : List Message
deriving DecidableEq, Repr

namespace Response

def done : Response := ⟨0, [], []⟩

def printing (lines : List String) : Response := ⟨0, lines, []⟩

def telling (lines : List String) : Response := ⟨0, [], lines.map .line⟩

def failed (message : String) : Response := ⟨1, [], [.line s!"error: {message}"]⟩

def after (first : List Message) (r : Response) : Response :=
  { r with messages := first ++ r.messages }

end Response

def programName : String := "kiln"

def version : String := "0.1.0"

def usage : List String :=
  ["An incremental, artifact-driven task runner", "", "Usage: kiln [OPTIONS] <COMMAND>", "",
    "Commands:", "  init   Create a new Kiln project", "  build  Run tasks whose inputs changed",
    "  plan   Show which tasks a build would run, without running them",
    "  graph  Print tasks in dependency order with their slots",
    "  slots  List declared artifact slots", "  clean  Remove persisted build state"]

/-- How long a task, or else the whole session, took, in seconds. -/
abbrev Clock := Option TaskId → String

def workingDirectory (w : World) : Path := ⟨Utility.pathText w.cwd⟩

def noProject : String :=
  "no kiln.toml found in current directory; run `kiln init` to create a project"

def loadProject (w : World) : Except String Project :=
  let root := workingDirectory w
  if !w.files.isThere w.cwd (root.join ⟨Project.manifestFile⟩) then .error noProject
  else match Project.load w.files w.cwd root with
    | .error e => .error e.message
    | .ok p => .ok p

def withProject (w : World) (f : Project → Response × World) : Response × World :=
  match loadProject w with
  | .error message => (.failed message, w)
  | .ok p => f p

def init (name : Option String) (w : World) : Response × World :=
  let cwd := workingDirectory w
  let dir := match name with
    | some n => cwd.join ⟨n⟩
    | none => cwd
  let shown := name.getD (cwd.fileName?.getD "kiln-project")
  match Scaffold.create w.machine.faults shown dir w.files w.cwd with
  | (.error e, files) => (.failed e.message, { w with files := files })
  | (.ok (), files) =>
    (.telling ([s!"     Created project `{shown}` at {dir.text}", "", "  To get started:"]
      ++ (if dir.sameAs cwd then [] else [s!"    cd {shown}"]) ++ ["    kiln build"]),
      { w with files := files })

def statusLine (clock : Clock) (r : Report) : String :=
  match r.outcome with
  | .executed reason _ => s!"    Executed {r.task} ({reason.text}, {clock (some r.task)}s)"
  | .skipped .upToDate => s!"       Fresh {r.task}"
  | .skipped reason => s!"     Skipped {r.task} ({reason.text})"
  | .failed fault => s!"      Failed {r.task}: {fault.message}"

/-- A count that is told unless it is zero. -/
def problem (n : Nat) (what : String) : List String :=
  if n = 0 then [] else [s!"{Decimal.text n} {what}"]

def finishLine (clock : Clock) (r : SessionResult) : String :=
  let s := r.summary
  let parts := [s!"{Decimal.text s.executed} executed", s!"{Decimal.text s.upToDate} up to date"]
    ++ problem s.failed "failed" ++ problem s.blocked "blocked" ++ problem s.cancelled "cancelled"
  let number := Decimal.text r.generation.toNat
  s!"    Finished generation {number} in {clock none}s: " ++ ", ".intercalate parts

def logTarget : String := "kiln_engine"

def warnings (filter : LogFilter) (texts : List String) : List Message :=
  if filter.shows logTarget Level.warn then texts.map fun t => .logged s!"WARN {t}" else []

def failureWarning? (r : Report) : Option String :=
  match r.outcome with
  | .failed fault => some s!"task failed task={r.task} error={fault.message}"
  | _ => none

/-- What a session warns of: lost history, failed tasks and a generation that could not be saved. -/
def sessionWarnings (w : World) (p : Project) (r : SessionResult) : List String :=
  let lost := match Ledger.load w.files w.cwd p.statePath with
    | .error e => [s!"ignoring unreadable build state; rebuilding everything error={e.message}"]
    | .ok _ => []
  let unsaved := match r.storeError with
    | some e => [s!"could not persist build state error={e.message}"]
    | none => []
  lost ++ r.reports.filterMap failureWarning? ++ unsaved

def buildResponse (clock : Clock) (r : SessionResult) : Response :=
  let unsaved := match r.storeError with
    | some e => [s!"warning: build state was not saved: {e.message}"]
    | none => []
  let lines := r.reports.map (statusLine clock) ++ unsaved ++ [finishLine clock r]
  (if r.isSuccess then Response.done else .failed (r.firstFailure?.getD "build cancelled")).after
    (lines.map .line)

def build (processors : Nat) (clock : Clock) (filter : LogFilter) (o : BuildOptions) (w : World) :
    Response × World :=
  withProject w fun p =>
    match p.build processors o none [] w with
    | (.error e, left) => (.failed e.message, left)
    | (.ok r, left) => ((buildResponse clock r).after (warnings filter (sessionWarnings w p r)), left)

def plan (processors : Nat) (o : BuildOptions) (w : World) : Response × World :=
  withProject w fun p =>
    match p.plan processors o w with
    | .error e => (.failed e.message, w)
    | .ok fs =>
      let pending := Decimal.text (fs.countP fun f => f.expectation.willRun)
      let all := Decimal.text fs.length
      (⟨0, fs.map fun f => s!"{f.task} {f.expectation.text}",
        [.line s!"    {pending} of {all} task(s) would run"]⟩, w)

def originsOf (g : Graph) (s : SlotId) : List String :=
  ((g.producersOf s).filterMap fun i => (g.task? i).map (·.id))
    ++ if g.isSupplied s then ["source"] else []

def taskLines (g : Graph) (t : Task) : List String :=
  t.id :: t.inputs.map (fun s => s!"  <- {s} (" ++ ", ".intercalate (originsOf g s) ++ ")")
    ++ t.outputs.map fun s => s!"  -> {s}"

def graph (w : World) : Response × World :=
  withProject w fun p =>
    match p.graph [] with
    | .error e => (.failed e.message, w)
    | .ok g => (.printing ((g.order.filterMap g.task?).flatMap (taskLines g)), w)

def slotLine (s : Slot) : String :=
  s!"{s.id} {s.kind.name}, {s.cardinality.name}, {s.category.name}" ++
    if s.appendable then ", appendable" else ""

def slots (w : World) : Response × World :=
  withProject w fun p => (.printing (p.catalog.slots.map slotLine), w)

def clean (w : World) : Response × World :=
  withProject w fun p =>
    match p.clean w.files w.cwd with
    | (.error e, left) => (.failed e.message, { w with files := left })
    | (.ok existed, left) =>
      (.telling [if existed then "     Cleaned build state" else "     Nothing to clean"],
        { w with files := left })

def logVariable : String := "KILN_LOG"

def defaultDirectives (verbose : Bool) : String :=
  if verbose then "warn,kiln_engine=debug,kiln_cli=debug" else "warn"

/-- The filter for the log; the environment decides before the option does. -/
def filterOf (verbose : Bool) (w : World) : Except FilterError LogFilter :=
  match w.environment.reverse.lookup logVariable with
  | some directives =>
    LogFilter.parse (if allBlank directives then defaultDirectives verbose else directives)
  | none => LogFilter.parse (defaultDirectives verbose)

def perform (processors : Nat) (clock : Clock) (filter : LogFilter) (verb : Verb) (w : World) :
    Response × World :=
  match verb with
  | .init name => init name w
  | .build o => build processors clock filter o w
  | .plan o => plan processors o w
  | .graph => graph w
  | .slots => slots w
  | .clean => clean w

def silent : LogFilter := [⟨none, false, 0⟩]

/-- Arguments that make no request are answered with code 2. -/
def run (processors : Nat) (clock : Clock) (args : List String) (w : World) : Response × World :=
  match Request.ofArguments? args with
  | none => (⟨2, [], usage.map .line⟩, w)
  | some .help => (.printing usage, w)
  | some .version => (.printing [s!"{programName} {version}"], w)
  | some (.perform verbose verb) =>
    match filterOf verbose w with
    | .ok filter => perform processors clock filter verb w
    | .error e =>
      let (r, left) := perform processors clock silent verb w
      (r.after [.line s!"warning: logging disabled: {e.message}"], left)

end SlotBuild.CommandLine
