import SlotBuild.Graph.Build
import SlotBuild.Proofs.Failure

/-! A graph is built, or is refused, without a look at the actions of its tasks. -/

namespace SlotBuild

/-- The task with another action. -/
def Task.acting (act : Task → Action) (t : Task) : Task := { t with action := act t }

namespace Graph

def acting (act : Task → Action) (g : Graph) : Graph := { g with tasks := g.tasks.map (Task.acting act) }

variable {c : Catalog} {act : Task → Action} {tasks : List Task}

theorem id_acting (i : Nat) : ((tasks.map (Task.acting act))[i]?).map Task.id = (tasks[i]?).map Task.id := by
  rw [List.getElem?_map, Option.map_map]
  rfl

theorem checkTasks_acting (seen : List TaskId) :
    checkTasks c seen (tasks.map (Task.acting act)) = checkTasks c seen tasks := by
  induction tasks generalizing seen with
  | nil => rfl
  | cons t tasks ih =>
    simp only [List.map_cons, checkTasks, ih]
    rfl

theorem rival?_acting (slot : Slot) (supplied : List SlotId) (found : Keyed (List Nat)) :
    rival? slot (tasks.map (Task.acting act)) supplied found = rival? slot tasks supplied found := by
  have hrival : ∀ ts : List Task, rival? slot ts supplied found =
      if slot.appendable then none
      else if supplied.contains slot.id then some .external
      else ((Keyed.get? slot.id found).getD []).head?.bind fun i => ((ts[i]?).map Task.id).map .task := by
    intro ts
    unfold rival?
    cases ((Keyed.get? slot.id found).getD []).head? with
    | none => rfl
    | some i => cases hi : ts[i]? <;> simp [hi]
  simp only [hrival, id_acting]

theorem addProducer_acting (supplied : List SlotId) (i : Nat) (t : Task) (found : Keyed (List Nat))
    (ss : List SlotId) : addProducer c (tasks.map (Task.acting act)) supplied i (t.acting act) found ss =
      addProducer c tasks supplied i t found ss := by
  induction ss generalizing found with
  | nil => rfl
  | cons s ss ih =>
    simp only [addProducer, rival?_acting, ih]
    rfl

theorem collectProducers_acting (supplied : List SlotId) (i : Nat) (found : Keyed (List Nat))
    (rest : List Task) :
    collectProducers c (tasks.map (Task.acting act)) supplied i found (rest.map (Task.acting act)) =
      collectProducers c tasks supplied i found rest := by
  induction rest generalizing i found with
  | nil => rfl
  | cons t rest ih =>
    simp only [List.map_cons, collectProducers, addProducer_acting, ih]
    rfl

theorem connectTask_acting (supplied : List SlotId) (producers : Keyed (List Nat)) (i : Nat) (t : Task)
    (edges : List Edge) (ss : List SlotId) :
    connectTask supplied producers i (t.acting act) edges ss =
      connectTask supplied producers i t edges ss := by
  induction ss generalizing edges with
  | nil => rfl
  | cons s ss ih =>
    simp only [connectTask, ih]
    rfl

theorem connect_acting (supplied : List SlotId) (producers : Keyed (List Nat)) (i : Nat) (edges : List Edge) :
    connect supplied producers i edges (tasks.map (Task.acting act)) =
      connect supplied producers i edges tasks := by
  induction tasks generalizing i edges with
  | nil => rfl
  | cons t tasks ih =>
    simp only [List.map_cons, connect, connectTask_acting, ih]
    rfl

theorem visit_acting (g : Graph) (depth : Nat) : visit (g.acting act) depth = visit g depth := by
  induction depth with
  | zero => rfl
  | succ depth ih =>
    funext s i
    simp only [visit, ih]
    rfl

theorem findCycle_acting (act : Task → Action) (g : Graph) : (g.acting act).findCycle = g.findCycle := by
  have hsize : (g.acting act).size = g.size := List.length_map _
  unfold findCycle
  rw [hsize, visit_acting]

theorem build_acting (supplies : List SlotId) :
    build c supplies (tasks.map (Task.acting act)) = (build c supplies tasks).map (acting act) := by
  unfold build
  simp only [checkTasks_acting, collectProducers_acting, connect_acting, map_bind]
  refine bind_congr fun _ => bind_congr fun _ => bind_congr fun producers => bind_congr fun edges => ?_
  have hcycle := findCycle_acting act ⟨tasks, edges, producers, sortedSet supplies⟩
  rw [acting] at hcycle
  rw [hcycle]
  cases (Graph.mk tasks edges producers (sortedSet supplies)).findCycle with
  | ok _ => rfl
  | error trail =>
    simp only [task?, id_acting]
    rfl

end Graph

end SlotBuild
