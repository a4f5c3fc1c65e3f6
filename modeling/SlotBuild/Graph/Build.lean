import SlotBuild.Graph

/-! Building a graph from declared tasks. The first problem found is reported: slots and ids of the
tasks in order, then producers, then inputs that nothing fills, then cycles. -/

namespace SlotBuild.Graph

def lookupAll (c : Catalog) : List SlotId → Except GraphError Unit
  | [] => .ok ()
  | s :: rest =>
    match c.lookup s with
    | .error e => .error (.slot e)
    | .ok _ => lookupAll c rest

def checkTask (c : Catalog) (seen : List TaskId) (t : Task) : Except GraphError Unit :=
  if seen.contains t.id then .error (.duplicateTask t.id)
  else
    match lookupAll c (t.inputs ++ t.outputs) with
    | .error e => .error e
    | .ok () =>
      match t.inputs.find? fun s => t.outputs.contains s with
      | some s => .error (.bothInputAndOutput t.id s)
      | none => .ok ()

def checkTasks (c : Catalog) (seen : List TaskId) : List Task → Except GraphError Unit
  | [] => .ok ()
  | t :: rest =>
    match checkTask c seen t with
    | .error e => .error e
    | .ok () => checkTasks c (t.id :: seen) rest

/-- Who fills `s` already, if only one may. -/
def rival? (slot : Slot) (tasks : List Task) (supplied : List SlotId) (found : Keyed (List Nat)) :
    Option Supplier :=
  if slot.appendable then none
  else if supplied.contains slot.id then some .external
  else do
    let first ← ((Keyed.get? slot.id found).getD []).head?
    let t ← tasks[first]?
    return .task t.id

def addProducer (c : Catalog) (tasks : List Task) (supplied : List SlotId) (i : Nat) (t : Task)
    (found : Keyed (List Nat)) : List SlotId → Except GraphError (Keyed (List Nat))
  | [] => .ok found
  | s :: rest =>
    match c.lookup s with
    | .error e => .error (.slot e)
    | .ok slot =>
      match rival? slot tasks supplied found with
      | some first => .error (.conflict s first t.id)
      | none => addProducer c tasks supplied i t (Keyed.append s i found) rest

def collectProducers (c : Catalog) (tasks : List Task) (supplied : List SlotId) (i : Nat)
    (found : Keyed (List Nat)) : List Task → Except GraphError (Keyed (List Nat))
  | [] => .ok found
  | t :: rest =>
    match addProducer c tasks supplied i t found t.outputs with
    | .error e => .error e
    | .ok more => collectProducers c tasks supplied (i + 1) more rest

def connectTask (supplied : List SlotId) (producers : Keyed (List Nat)) (i : Nat) (t : Task)
    (edges : List Edge) : List SlotId → Except GraphError (List Edge)
  | [] => .ok edges
  | s :: rest =>
    let sources := (Keyed.get? s producers).getD []
    if sources = [] ∧ !supplied.contains s then .error (.dangling t.id s)
    else connectTask supplied producers i t (sources.foldl (fun es p => insertOnce ⟨p, i, s⟩ es) edges) rest

def connect (supplied : List SlotId) (producers : Keyed (List Nat)) (i : Nat) (edges : List Edge) :
    List Task → Except GraphError (List Edge)
  | [] => .ok edges
  | t :: rest =>
    match connectTask supplied producers i t edges t.inputs with
    | .error e => .error e
    | .ok more => connect supplied producers (i + 1) more rest

inductive Mark where
  | fresh
  | entered
  | left
deriving DecidableEq, Repr

/-- A search in depth: `trail` holds the entered tasks, the latest at the end. -/
structure Search where
  marks : List Mark
  trail : List Nat
deriving DecidableEq, Repr

/-- Visits task `i` and what depends on it. The trail never holds a task twice, so `depth` may be
the number of tasks and one more. An error lists the tasks of a cycle, the first again at its end. -/
def visit (g : Graph) : Nat → Search → Nat → Except (List Nat) Search
  | 0, s, _ => .ok s
  | depth + 1, s, i =>
    match s.marks[i]? with
    | none => .ok s
    | some .left => .ok s
    | some .entered => .error ((s.trail.dropWhile (· ≠ i)) ++ [i])
    | some .fresh => do
      let inside : Search := ⟨s.marks.set i .entered, s.trail ++ [i]⟩
      let after ← (g.dependents i).foldlM (visit g depth) inside
      return ⟨after.marks.set i .left, after.trail.dropLast⟩

def findCycle (g : Graph) : Except (List Nat) Unit := do
  let start : Search := ⟨List.replicate g.size .fresh, []⟩
  let _ ← (List.range g.size).foldlM (visit g (g.size + 1)) start
  return ()

def build (c : Catalog) (supplies : List SlotId) (tasks : List Task) : Except GraphError Graph := do
  let supplied := sortedSet supplies
  lookupAll c supplied
  checkTasks c [] tasks
  let producers ← collectProducers c tasks supplied 0 [] tasks
  let edges ← connect supplied producers 0 [] tasks
  let g : Graph := ⟨tasks, edges, producers, supplied⟩
  match g.findCycle with
  | .error is => throw (.cycle (is.filterMap fun i => (g.task? i).map (·.id)))
  | .ok () => return g

end SlotBuild.Graph
