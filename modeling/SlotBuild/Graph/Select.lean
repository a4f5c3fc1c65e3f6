import SlotBuild.Graph

/-! What lies downstream of a task, and the part of a graph that some targets need. -/

namespace SlotBuild.Graph

/-- Adds to `seen` all that is reached from `pending` by `next`. -/
def reach (next : Nat → List Nat) : Nat → List Nat → List Nat → List Nat
  | 0, _, seen => seen
  | _ + 1, [], seen => seen
  | fuel + 1, i :: pending, seen =>
    if seen.contains i then reach next fuel pending seen
    else reach next fuel (next i ++ pending) (insertOnce i seen)

def reachable (g : Graph) (next : Nat → List Nat) (roots : List Nat) : List Nat :=
  reach next (roots.length + g.edges.length + 1) roots []

def downstream (g : Graph) (i : Nat) : List Nat := g.reachable g.dependents (g.dependents i)

/-- Every root and all that it depends on. -/
def dependencyClosure (g : Graph) (roots : List Nat) : List Nat := g.reachable g.dependencies roots

def targetIndices (g : Graph) : List TaskId → Except GraphError (List Nat)
  | [] => .ok []
  | id :: rest => do
    match g.indexOf? id with
    | none => throw (.unknownTask id)
    | some i => return i :: (← targetIndices g rest)

/-- The graph of the tasks in `keep` alone, which lists their positions in increasing order. -/
def restrict (g : Graph) (keep : List Nat) : Graph where
  tasks := keep.filterMap g.task?
  edges := g.edges.filterMap fun e => do
    return ⟨← keep.idxOf? e.producer, ← keep.idxOf? e.consumer, e.slot⟩
  producers := g.producers.filterMap fun e =>
    let kept := e.2.filterMap fun i => keep.idxOf? i
    if kept = [] then none else some (e.1, kept)
  supplied := g.supplied

def select (g : Graph) (targets : List TaskId) : Except GraphError Graph := do
  return g.restrict (g.dependencyClosure (← g.targetIndices targets))

end SlotBuild.Graph
