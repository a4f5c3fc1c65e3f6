import Mathlib.Data.Set.Finite.Basic
import Mathlib.Order.WellFoundedSet
import SlotBuild.Graph
import SlotBuild.Proofs.IndexSet

/-! The order that the edges of a graph put on its tasks, and the graphs in which it has no cycle.
In such a graph a property passes from the dependencies of a task to the task itself, and so it
holds of every task. -/

namespace SlotBuild.Graph

/-- Task `c` reads something that task `p` makes. -/
def Precedes (g : Graph) (p c : Nat) : Prop := ∃ e ∈ g.edges, e.producer = p ∧ e.consumer = c

/-- Every edge joins two tasks of the graph and no task comes before itself. -/
structure IsAcyclic (g : Graph) : Prop where
  inRange : ∀ e ∈ g.edges, e.producer < g.size ∧ e.consumer < g.size
  irreflexive : ∀ i, ¬ Relation.TransGen g.Precedes i i

@[simp] theorem mem_dependencies {g : Graph} {d i : Nat} : d ∈ g.dependencies i ↔ g.Precedes d i := by
  simp only [dependencies, mem_sortedSet, List.mem_map, List.mem_filter, decide_eq_true_eq, Precedes]
  constructor
  · rintro ⟨e, ⟨he, hi⟩, hd⟩
    exact ⟨e, he, hd, hi⟩
  · rintro ⟨e, he, hd, hi⟩
    exact ⟨e, ⟨he, hi⟩, hd⟩

@[simp] theorem mem_dependents {g : Graph} {i j : Nat} : j ∈ g.dependents i ↔ g.Precedes i j := by
  simp only [dependents, mem_sortedSet, List.mem_map, List.mem_filter, decide_eq_true_eq, Precedes]
  constructor
  · rintro ⟨e, ⟨he, hi⟩, hj⟩
    exact ⟨e, he, hi, hj⟩
  · rintro ⟨e, he, hi, hj⟩
    exact ⟨e, ⟨he, hi⟩, hj⟩

theorem dependencies_nodup (g : Graph) (i : Nat) : (g.dependencies i).Nodup := sortedSet_nodup _

theorem dependents_nodup (g : Graph) (i : Nat) : (g.dependents i).Nodup := sortedSet_nodup _

theorem task?_isSome {g : Graph} {i : Nat} : (g.task? i).isSome ↔ i < g.size := by
  simp [task?, size]

theorem lt_size_of_task? {g : Graph} {i : Nat} {t : Task} (h : g.task? i = some t) : i < g.size :=
  task?_isSome.mp (by simp [h])

theorem exists_task? {g : Graph} {i : Nat} (h : i < g.size) : ∃ t, g.task? i = some t :=
  Option.isSome_iff_exists.mp (task?_isSome.mpr h)

namespace IsAcyclic

variable {g : Graph}

theorem lt_size (h : g.IsAcyclic) {p c : Nat} (hpc : g.Precedes p c) : p < g.size ∧ c < g.size := by
  obtain ⟨e, he, rfl, rfl⟩ := hpc
  exact h.inRange e he

theorem induction (h : g.IsAcyclic) {motive : Nat → Prop}
    (step : ∀ i < g.size, (∀ d, g.Precedes d i → motive d) → motive i) :
    ∀ i < g.size, motive i := by
  have hwf : (Set.Iio g.size).WellFoundedOn (Relation.TransGen g.Precedes) := by
    have : IsStrictOrder Nat (Relation.TransGen g.Precedes) :=
      { irrefl := h.irreflexive, trans := fun _ _ _ => Relation.TransGen.trans }
    exact (Set.finite_Iio g.size).wellFoundedOn
  intro i hi
  refine hwf.induction hi fun j hj ih => ?_
  exact step j hj fun d hd => ih d (h.lt_size hd).1 (.single hd)

theorem of_increasing (h : ∀ e ∈ g.edges, e.producer < e.consumer ∧ e.consumer < g.size) :
    g.IsAcyclic := by
  have hlt : ∀ {a b}, Relation.TransGen g.Precedes a b → a < b := by
    intro a b hab
    induction hab with
    | single hs =>
      obtain ⟨e, he, rfl, rfl⟩ := hs
      exact (h e he).1
    | tail _ hs ih =>
      obtain ⟨e, he, rfl, rfl⟩ := hs
      exact ih.trans (h e he).1
  exact ⟨fun e he => ⟨(h e he).1.trans (h e he).2, (h e he).2⟩, fun i hi => (hlt hi).ne rfl⟩

end IsAcyclic

end SlotBuild.Graph
