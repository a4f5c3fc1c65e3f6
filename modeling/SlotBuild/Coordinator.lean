import SlotBuild.Evaluation
import SlotBuild.Graph.Order

/-! The coordinator of a session. Workers evaluate running tasks in any order and send back what
became of them; the coordinator admits ready tasks as long as there is room and otherwise settles
the next result that has arrived. -/

namespace SlotBuild

structure Plan where
  catalog : Catalog
  graph : Graph
  config : SessionConfig

structure Coordinator where
  frontier : Frontier
  inherited : List (Option SkipReason)
  outcomes : List (Option Outcome)
  /-- Tasks that were admitted and not yet evaluated. -/
  running : List Nat
  arrived : List (Nat × Outcome)
  halted : Bool
  site : Site

inductive Move where
  | coordinate
  /-- The worker of the running task at this position evaluates it. -/
  | work (position : Nat)
  | cancel
deriving DecidableEq, Repr

namespace Coordinator

def start (g : Graph) (site : Site) : Coordinator where
  frontier := .start g
  inherited := List.replicate g.size none
  outcomes := List.replicate g.size none
  running := []
  arrived := []
  halted := false
  site := site

def inFlight (c : Coordinator) : Nat := c.running.length + c.arrived.length

/-- A task inherits the reason of the first of its dependencies that passes one on. -/
def inheritReason (reason : SkipReason) (rs : List (Option SkipReason)) (i : Nat) :
    List (Option SkipReason) :=
  match rs[i]? with
  | some none => rs.set i (some reason)
  | _ => rs

/-- Notes what became of task `i` and releases the tasks that wait for it. -/
def settle (g : Graph) (i : Nat) (o : Outcome) (c : Coordinator) : Coordinator :=
  match g.task? i with
  | none => c
  | some t =>
    let inherited := match o.passedOn t.id with
      | none => c.inherited
      | some reason => (g.dependents i).foldl (inheritReason reason) c.inherited
    { c with
      frontier := c.frontier.finish g i
      inherited := inherited
      outcomes := c.outcomes.set i (some o) }

/-- A ready task starts, unless something it depends on, a failure or a cancellation forbids it. -/
def launch (g : Graph) (i : Nat) (c : Coordinator) : Coordinator :=
  match c.inherited[i]? with
  | some (some reason) => settle g i (.skipped reason) c
  | _ =>
    if c.halted || c.site.world.cancelled then settle g i (.skipped .cancelled) c
    else { c with running := c.running ++ [i] }

def receive (p : Plan) (c : Coordinator) : Coordinator :=
  match c.arrived with
  | [] => c
  | (i, o) :: rest =>
    settle p.graph i o { c with
      arrived := rest
      halted := c.halted || (p.config.failFast && o.isFailure) }

def workers (p : Plan) : Nat := max 1 p.config.maxParallelism

def coordinate (p : Plan) (c : Coordinator) : Coordinator :=
  if c.inFlight < workers p then
    match c.frontier.pop? with
    | some (i, rest) => launch p.graph i { c with frontier := rest }
    | none => receive p c
  else receive p c

def work (p : Plan) (position : Nat) (c : Coordinator) : Coordinator :=
  match c.running[position]? with
  | none => c
  | some i =>
    match p.graph.task? i with
    | none => c
    | some t =>
      let (o, site) := evaluate p.catalog p.config t c.site
      { c with
        running := c.running.eraseIdx position
        arrived := c.arrived ++ [(i, o)]
        site := site }

def cancel (c : Coordinator) : Coordinator :=
  { c with site := { c.site with world := { c.site.world with cancelled := true } } }

def move (p : Plan) (c : Coordinator) : Move → Coordinator
  | .coordinate => coordinate p c
  | .work position => work p position c
  | .cancel => cancel c

def run (p : Plan) (c : Coordinator) (moves : List Move) : Coordinator := moves.foldl (move p) c

def isDone (c : Coordinator) : Bool := c.frontier.ready.isEmpty && c.inFlight == 0

/-- What to do next when nothing else decides: the coordinator comes before the workers, and the
worker that was admitted first before the others. -/
def nextMove (p : Plan) (c : Coordinator) : Move :=
  if c.inFlight < workers p && !c.frontier.ready.isEmpty then .coordinate
  else if c.arrived.isEmpty then .work 0
  else .coordinate

def finishWithin (p : Plan) : Nat → Coordinator → Coordinator
  | 0, c => c
  | fuel + 1, c => if c.isDone then c else finishWithin p fuel (move p c (nextMove p c))

/-- Each task is admitted, evaluated and settled at most once. -/
def finish (p : Plan) (c : Coordinator) : Coordinator := finishWithin p (3 * p.graph.size + 1) c

def outcomeOf (c : Coordinator) (i : Nat) : Outcome :=
  match c.outcomes[i]? with
  | some (some o) => o
  | _ => .skipped .cancelled

/-- A report for every task, dependencies first. -/
def reports (g : Graph) (c : Coordinator) : List Report :=
  g.order.filterMap fun i => (g.task? i).map fun t => ⟨t.id, c.outcomeOf i⟩

/-- Follows `moves` as far as they go and then finishes. -/
def complete (p : Plan) (site : Site) (moves : List Move) : Coordinator :=
  finish p (run p (start p.graph site) moves)

end Coordinator

end SlotBuild
