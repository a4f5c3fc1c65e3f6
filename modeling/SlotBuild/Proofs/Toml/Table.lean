import Mathlib.Data.List.Nodup
import SlotBuild.Toml.Reader

/-! Tables that are read from their own lines: new keys are added at the end. -/

namespace SlotBuild.Toml

namespace Nodes

variable {k : String} {es fs : Nodes}

theorem get?_eq_none_iff : get? k es = none ↔ k ∉ es.map (·.1) := by
  induction es with
  | nil => simp [get?]
  | cons e es ih =>
    rw [get?]
    split_ifs with h
    · simp [h]
    · simp [ih, Ne.symm h]

theorem get?_append_new (h : get? k es = none) (n : Node) (fs : Nodes) :
    get? k (es ++ (k, n) :: fs) = some n := by
  induction es with
  | nil => exact if_pos rfl
  | cons e es ih =>
    rw [get?] at h
    split_ifs at h with he
    rw [List.cons_append, get?, if_neg he, ih h]

theorem replace_append_new (h : get? k es = none) (n m : Node) (fs : Nodes) :
    replace k m (es ++ (k, n) :: fs) = es ++ (k, m) :: fs := by
  induction es with
  | nil => exact if_pos rfl
  | cons e es ih =>
    rw [get?] at h
    split_ifs at h with he
    rw [List.cons_append, replace, if_neg he, ih h, List.cons_append]

end Nodes

theorem entriesOf_eq_map (es : Nodes) : entriesOf es = es.map fun e => (e.1, e.2.toValue) := by
  induction es with
  | nil => rfl
  | cons e es ih =>
    rw [entriesOf, ih]
    rfl

theorem entriesOf_append (es fs : Nodes) : entriesOf (es ++ fs) = entriesOf es ++ entriesOf fs := by
  simp [entriesOf_eq_map]

/-- The pairs of a table whose keys have no dots. -/
def plainPairs (es : Entries) : List (KeyPath × Value) := es.map fun e => (⟨[], e.1⟩, e.2)

def valueNodes (es : Entries) : Nodes := es.map fun e => (e.1, .value e.2)

theorem entriesOf_valueNodes (es : Entries) : entriesOf (valueNodes es) = es := by
  rw [entriesOf_eq_map, valueNodes, List.map_map]
  exact List.map_id es

theorem keys_valueNodes (es : Entries) : (valueNodes es).map (·.1) = es.map (·.1) := by
  simp [valueNodes]

/-- Pairs with new keys, each another one, become entries in their order. -/
theorem addPairs_plainPairs {es : Entries} (hkeys : (es.map (·.1)).Nodup) {ns : Nodes}
    (hnew : ∀ e ∈ es, Nodes.get? e.1 ns = none) :
    ns.addPairs (plainPairs es) = some (ns ++ valueNodes es) := by
  induction es generalizing ns with
  | nil => simp [Nodes.addPairs, plainPairs, valueNodes]
  | cons e es ih =>
    obtain ⟨he, hes⟩ := List.forall_mem_cons.mp hnew
    obtain ⟨hfresh, hkeys⟩ : e.1 ∉ es.map (·.1) ∧ (es.map (·.1)).Nodup := List.nodup_cons.mp hkeys
    have hadd : ns.addPair (⟨[], e.1⟩, e.2) = some (ns ++ [(e.1, .value e.2)]) := by
      simp [Nodes.addPair, Nodes.edit, Nodes.addNew, he]
    have hnew' : ∀ f ∈ es, Nodes.get? f.1 (ns ++ [(e.1, .value e.2)]) = none := by
      intro f hf
      have hne : f.1 ≠ e.1 := fun heq => hfresh (heq ▸ List.mem_map_of_mem hf)
      rw [Nodes.get?_eq_none_iff]
      simpa [hne] using Nodes.get?_eq_none_iff.mp (hes f hf)
    calc ns.addPairs (plainPairs (e :: es)) =
          (ns.addPair (⟨[], e.1⟩, e.2)).bind (Nodes.addPairs · (plainPairs es)) := rfl
      _ = some (ns ++ valueNodes (e :: es)) := by
        rw [hadd, Option.bind_some, ih hkeys hnew']
        simp [valueNodes]

end SlotBuild.Toml
