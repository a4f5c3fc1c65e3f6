import SlotBuild.Proofs.Graph.Loop
import SlotBuild.Proofs.Graph.Standalone

/-! What lies downstream of a task and what a target needs are found by two searches, one along the
edges and one against them. The two are dual: a target lies downstream of exactly the other tasks
that it needs. -/

namespace SlotBuild

namespace Graph

variable {c : Catalog} {supplies : List SlotId} {g : Graph} {i j : Nat} {t u : Task}

theorem settles_downstream (g : Graph) (i : Nat) :
    Settles g.dependents ⟨g.dependents i, []⟩ (g.downstream i) :=
  settles_reach (length_dependents_le g) (Nat.lt_succ_self _)

theorem settles_dependencyClosure (g : Graph) (roots : List Nat) :
    Settles g.dependencies ⟨roots, []⟩ (g.dependencyClosure roots) :=
  settles_reach (length_dependencies_le g) (Nat.lt_succ_self _)

theorem Valid.targetIndices_singleton (hg : g.Valid c) (hj : g.task? j = some u) :
    g.targetIndices [u.id] = .ok [j] := by
  have hidx : g.indexOf? u.id = some j := hg.indexOf?_eq_some.mpr ⟨u, hj, rfl⟩
  rw [targetIndices, hidx]
  rfl

/-- Downstream of a task lies what is reached from it along at least one edge, and so never the task
itself. The search for it comes to an end, and so does the one for what a single target needs; the
target lies downstream of exactly the other tasks that it needs. -/
theorem downstream_dual (hg : BuiltFrom c supplies g) (hi : g.task? i = some t) (hj : g.task? j = some u) :
    Settles g.dependents ⟨g.dependents i, []⟩ (g.downstream i) ∧
      (∀ k, k ∈ g.downstream i ↔ Relation.TransGen g.Precedes i k) ∧ i ∉ g.downstream i ∧
      ∃ keep, Settles g.dependencies ⟨[j], []⟩ keep ∧ g.select [u.id] = .ok (g.restrict keep) ∧
        (j ∈ g.downstream i ↔ i ≠ j ∧ t ∈ (g.restrict keep).tasks) := by
  obtain ⟨-, hvalid⟩ := hg.valid
  have hself : i ∉ g.downstream i := fun h => hvalid.acyclic.irreflexive i (mem_downstream.mp h)
  have hselect : g.select [u.id] = .ok (g.restrict (g.dependencyClosure [j])) := by
    rw [select, hvalid.targetIndices_singleton hj]
    rfl
  refine ⟨settles_downstream g i, fun k => mem_downstream, hself, g.dependencyClosure [j],
    settles_dependencyClosure g [j], hselect, ?_⟩
  rw [hvalid.mem_restrict_iff hi, mem_dependencyClosure, mem_downstream]
  constructor
  · intro hij
    refine ⟨?_, j, List.mem_singleton_self j, hij.to_reflTransGen⟩
    rintro rfl
    exact hvalid.acyclic.irreflexive i hij
  · rintro ⟨hne, r, hr, hir⟩
    obtain rfl := List.mem_singleton.mp hr
    exact (Relation.reflTransGen_iff_eq_or_transGen.mp hir).resolve_left (Ne.symm hne)

end Graph

namespace Delta

open Wheel (task)

def spring : Task := task "spring" [] ["brook"]

def lake : Task := task "lake" ["east", "west"] ["river"]

def catalog : Catalog :=
  ⟨["brook", "west", "east", "river"].map fun s => Slot.single s .file .intermediates⟩

/-- From the spring two arms lead to the lake, which is met twice on the way down. -/
def tasks : List Task :=
  [lake, spring, task "west" ["brook"] ["west"], task "sea" ["river"] [], task "east" ["brook"] ["east"]]

def graph : Graph where
  tasks := tasks
  edges := [⟨0, 3, "river"⟩, ⟨1, 2, "brook"⟩, ⟨1, 4, "brook"⟩, ⟨2, 0, "west"⟩, ⟨4, 0, "east"⟩]
  producers := [("brook", [1]), ("east", [4]), ("river", [0]), ("west", [2])]
  supplied := []

/-- What is left without the sea. -/
def inland : Graph := graph.restrict [0, 1, 2, 4]

theorem inland_builtFrom : Graph.BuiltFrom catalog [] inland := by
  have hbuild : Graph.build catalog [] tasks = .ok graph := rfl
  have hselect : graph.select ["lake"] = .ok inland := rfl
  exact .select (.build hbuild) hselect

theorem lake_below_spring : Graph.BuiltFrom catalog [] inland ∧ inland.task? 1 = some spring ∧
    inland.task? 0 = some lake ∧ Graph.Settles inland.dependents ⟨[2, 3], []⟩ [0, 2, 3] ∧
    ∃ keep, inland.select ["lake"] = .ok (inland.restrict keep) ∧ spring ∈ (inland.restrict keep).tasks := by
  have hspring : inland.task? 1 = some spring := rfl
  have hlake : inland.task? 0 = some lake := rfl
  have hdownstream : inland.downstream 1 = [0, 2, 3] := rfl
  obtain ⟨hsettles, -, -, keep, -, hselect, hdual⟩ := Graph.downstream_dual inland_builtFrom hspring hlake
  rw [hdownstream] at hsettles hdual
  exact ⟨inland_builtFrom, hspring, hlake, hsettles, keep, hselect, (hdual.mp (by decide)).2⟩

end Delta

end SlotBuild
