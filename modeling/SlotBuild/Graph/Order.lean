import SlotBuild.Graph

/-! Which tasks may start. The frontier counts for every task the dependencies that are not yet
finished; the tasks without any are ready, in the order of declaration. -/

namespace SlotBuild

structure Frontier where
  waiting : List Nat
  ready : List Nat
deriving DecidableEq, Repr

namespace Frontier

def start (g : Graph) : Frontier :=
  let waiting := (List.range g.size).map fun i => (g.dependencies i).length
  ⟨waiting, (List.range g.size).filter fun i => waiting[i]? = some 0⟩

def release (f : Frontier) (i : Nat) : Frontier :=
  match f.waiting[i]? with
  | none => f
  | some n =>
    ⟨f.waiting.set i (n - 1), if n - 1 = 0 then insertOnce i f.ready else f.ready⟩

def finish (g : Graph) (i : Nat) (f : Frontier) : Frontier := (g.dependents i).foldl release f

def pop? (f : Frontier) : Option (Nat × Frontier) :=
  match f.ready with
  | [] => none
  | i :: r => some (i, { f with ready := r })

end Frontier

namespace Graph

def orderFrom (g : Graph) : Nat → Frontier → List Nat
  | 0, _ => []
  | fuel + 1, f =>
    match f.pop? with
    | none => []
    | some (i, rest) => i :: orderFrom g fuel (rest.finish g i)

/-- Dependencies come first, and of the tasks that may start the one declared first. -/
def order (g : Graph) : List Nat := g.orderFrom g.size (Frontier.start g)

end Graph

end SlotBuild
