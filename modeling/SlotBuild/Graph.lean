import SlotBuild.Task

/-! The graph that tasks form through their slots. A task is named by its position in the order of
declaration. Who waits for whom is read off the edges. -/

namespace SlotBuild

structure Edge where
  producer : Nat
  consumer : Nat
  slot : SlotId
deriving DecidableEq, Repr

def Edge.before (a b : Edge) : Bool :=
  a.producer < b.producer
    || (a.producer == b.producer
      && (a.consumer < b.consumer || (a.consumer == b.consumer && decide (a.slot < b.slot))))

instance : LT Edge := ⟨fun a b => a.before b⟩

instance : DecidableLT Edge := fun a b => inferInstanceAs (Decidable (a.before b = true))

structure Graph where
  tasks : List Task
  /-- In order of producer, consumer and slot. -/
  edges : List Edge
  producers : Keyed (List Nat)
  supplied : List SlotId

inductive Supplier where
  | external
  | task (id : TaskId)
deriving DecidableEq, Repr

def Supplier.name : Supplier → String
  | external => "(external source)"
  | task id => id

inductive GraphError where
  | slot (e : SlotError)
  | duplicateTask (id : TaskId)
  | unknownTask (id : TaskId)
  | bothInputAndOutput (task : TaskId) (slot : SlotId)
  | conflict (slot : SlotId) (first : Supplier) (second : TaskId)
  | dangling (task : TaskId) (slot : SlotId)
  | cycle (tasks : List TaskId)
deriving DecidableEq, Repr

def GraphError.message : GraphError → String
  | slot e => e.message
  | duplicateTask id => s!"task `{id}` is declared more than once"
  | unknownTask id => s!"task `{id}` does not exist"
  | bothInputAndOutput t s => s!"slot `{s}` is both an input and an output of task `{t}`"
  | conflict s first second =>
    s!"slot `{s}` is produced by both `{first.name}` and `{second}` but is not appendable"
  | dangling t s => s!"task `{t}` consumes `{s}`, which no task produces and no source supplies"
  | cycle tasks => "task cycle detected: " ++ " -> ".intercalate tasks

namespace Graph

def size (g : Graph) : Nat := g.tasks.length

def task? (g : Graph) (i : Nat) : Option Task := g.tasks[i]?

def indexOf? (g : Graph) (id : TaskId) : Option Nat := g.tasks.findIdx? fun t => t.id = id

def producersOf (g : Graph) (s : SlotId) : List Nat := (Keyed.get? s g.producers).getD []

def isSupplied (g : Graph) (s : SlotId) : Bool := g.supplied.contains s

def dependencies (g : Graph) (i : Nat) : List Nat :=
  sortedSet ((g.edges.filter fun e => e.consumer = i).map (·.producer))

def dependents (g : Graph) (i : Nat) : List Nat :=
  sortedSet ((g.edges.filter fun e => e.producer = i).map (·.consumer))

end Graph

end SlotBuild
