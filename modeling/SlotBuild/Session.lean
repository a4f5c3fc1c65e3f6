import SlotBuild.Coordinator
import SlotBuild.Graph.Build
import SlotBuild.Graph.Select

/-! A session: supplies are recorded, the tasks of a graph run, the history of tasks that were not
attempted is taken over, and the new generation is saved. -/

namespace SlotBuild

structure Supply where
  slot : SlotId
  locations : List Path
deriving DecidableEq, Repr

inductive SessionError where
  | access (e : AccessError)
  | slot (e : SlotError)
  | graph (e : GraphError)
  | workers (message : String)
deriving DecidableEq, Repr

def SessionError.message : SessionError → String
  | access e => e.message
  | .slot e => e.message
  | graph e => e.message
  | workers message => s!"cannot start worker pool: {message}"

structure SessionResult where
  /-- One for each task, dependencies first. -/
  reports : List Report
  generation : UInt64
  storeError : Option LedgerError
deriving DecidableEq, Repr

/-- All locations supplied for a slot, slot by slot. -/
def mergedSupplies (supplies : List Supply) : Keyed (List Path) :=
  supplies.foldl (fun m s => Keyed.put s.slot ((Keyed.get? s.slot m).getD [] ++ s.locations) m) []

def supplyRecord (w : World) (supply : SlotId × List Path) : Except AccessError Record := do
  let digest ← w.files.fingerprint w.cwd supply.2
  return ⟨supply.1, supply.2, digest, none, none, w.clock⟩

def supplyRecords (w : World) (supplies : List Supply) : Except AccessError (List Record) :=
  (mergedSupplies supplies).mapM (supplyRecord w)

/-- Producers with a history whose task did not get its turn: it is not in the graph, or it was
cancelled or blocked. -/
def unattempted (g : Graph) (previous : Generation) (reports : List Report) : List TaskId :=
  let skipped := (reports.filter fun r => r.outcome.isUnattempted).map (·.task)
  sortedSet (((previous.records.flatMap (·.2)).filterMap (·.producer)).filter fun p =>
    (g.indexOf? p).isNone || skipped.contains p)

def save (site : Site) : Option LedgerError × Site :=
  match site.ledger.flush site.world.machine.faults site.world.files site.world.cwd with
  | (.ok (), files) => (none, { site with world := { site.world with files := files } })
  | (.error e, files) => (some e, { site with world := { site.world with files := files } })

/-- Records what is supplied. Records before a failure stay. -/
def takeSupplies (c : Catalog) (supplies : List Supply) (site : Site) :
    Except SessionError Unit × Site :=
  match supplyRecords site.world supplies with
  | .error e => (.error (.access e), site)
  | .ok rs =>
    match bindAll c site.ledger rs with
    | (.error e, l) => (.error (.slot e), { site with ledger := l })
    | (.ok (), l) => (.ok (), { site with ledger := l })

/-- Runs the tasks of a graph and saves what they and those left alone have on record. -/
def runTasks (p : Plan) (moves : List Move) (site : Site) : SessionResult × Site :=
  let done := Coordinator.complete p site moves
  let reports := done.reports p.graph
  let ledger := done.site.ledger.carryForwardAll p.catalog
    (unattempted p.graph done.site.ledger.previous reports)
  let saved := save { done.site with ledger := ledger }
  (⟨reports, site.ledger.current.number, saved.1⟩, saved.2)

/-- Runs a graph; `moves` says how workers and cancellation interleave, and `threads`, if anything,
why the workers cannot be started. -/
def runGraph (p : Plan) (supplies : List Supply) (threads : Option String) (moves : List Move)
    (site : Site) : Except SessionError SessionResult × Site :=
  match takeSupplies p.catalog supplies site with
  | (.error e, s) => (.error e, s)
  | (.ok (), s) =>
    match threads with
    | some message => (.error (.workers message), s)
    | none => (.ok (runTasks p moves s).1, (runTasks p moves s).2)

def runBuild (c : Catalog) (tasks : List Task) (supplies : List Supply) (config : SessionConfig)
    (threads : Option String) (moves : List Move) (site : Site) :
    Except SessionError SessionResult × Site :=
  match Graph.build c (supplies.map (·.slot)) tasks with
  | .error e => (.error (.graph e), site)
  | .ok g => runGraph ⟨c, g, config⟩ supplies threads moves site

structure Summary where
  executed : Nat
  upToDate : Nat
  failed : Nat
  blocked : Nat
  cancelled : Nat
deriving DecidableEq, Repr

namespace SessionResult

def isSuccess (r : SessionResult) : Bool := r.reports.all fun x => x.outcome.isSuccess

def isExecuted : Outcome → Bool
  | .executed .. => true
  | _ => false

def isBlocked : Outcome → Bool
  | .skipped (.blocked _) => true
  | _ => false

def summary (r : SessionResult) : Summary where
  executed := r.reports.countP fun x => isExecuted x.outcome
  upToDate := r.reports.countP fun x => x.outcome == .skipped .upToDate
  failed := r.reports.countP fun x => x.outcome.isFailure
  blocked := r.reports.countP fun x => isBlocked x.outcome
  cancelled := r.reports.countP fun x => x.outcome == .skipped .cancelled

def failureText? (r : Report) : Option String :=
  match r.outcome with
  | .failed fault => some s!"task `{r.task}` failed: {fault.message}"
  | _ => none

def firstFailure? (r : SessionResult) : Option String := r.reports.findSome? failureText?

end SessionResult

end SlotBuild
