import SlotBuild.Proofs.Ledger.Upkeep

/-! The order in which the records of a slot are listed: where each producer has one record, it is
the order of the producers, whatever the order in which the records were bound. -/

namespace SlotBuild

open Ledger (recordsAt)

namespace Record

/-- The record without the time at which it was made. -/
def undated (r : Record) : Record := { r with createdAt := 0 }

theorem compareComponents_self (cs : List Component) : Path.compareComponents cs cs = .eq := by
  induction cs with
  | nil => rfl
  | cons c cs ih =>
    have hc : c.compare c = .eq := by simp [Component.compare, Std.ReflCmp.compare_self]
    rw [Path.compareComponents, hc, ih]
    rfl

theorem compareLocations_self (ps : List Path) : compareLocations ps ps = .eq := by
  induction ps with
  | nil => rfl
  | cons p ps ih =>
    have hp : p.compare p = .eq := compareComponents_self p.components
    rw [compareLocations, hp, ih]
    rfl

theorem compareProducers_eq (p q : Option TaskId) : compareProducers p q = Ord.compare p q := by
  cases p <;> cases q <;> rfl

/-- Whether the producer of `a` comes no later than that of `b`. -/
def upTo (a b : Record) : Bool := (Ord.compare a.producer b.producer).isLE

theorem upTo_trans (a b c : Record) (hab : a.upTo b = true) (hbc : b.upTo c = true) : a.upTo c = true :=
  Std.TransCmp.isLE_trans hab hbc

theorem upTo_total (a b : Record) : (a.upTo b || b.upTo a) = true := by
  have hswap : Ord.compare a.producer b.producer = (Ord.compare b.producer a.producer).swap :=
    Std.OrientedCmp.eq_swap
  unfold upTo
  rw [hswap]
  cases Ord.compare b.producer a.producer <;> rfl

theorem producer_eq_of_upTo {a b : Record} (hab : a.upTo b = true) (hba : b.upTo a = true) :
    a.producer = b.producer :=
  Std.LawfulEqCmp.eq_of_compare (Std.OrientedCmp.isLE_antisymm hab hba)

theorem compare_eq_upTo {a b : Record} (h : a.producer = b.producer → a = b) :
    (a.compare b != .gt) = a.undated.upTo b.undated := by
  have hproducers : a.undated.upTo b.undated = (Ord.compare a.producer b.producer).isLE := rfl
  rw [hproducers, compare, compareProducers_eq]
  cases hcmp : Ord.compare a.producer b.producer with
  | lt => rfl
  | gt => rfl
  | eq =>
    rw [h (Std.LawfulEqCmp.eq_of_compare hcmp), compareLocations_self]
    rfl

end Record

namespace Generation

theorem map_undated_recordsIn {g : Generation} (hg : g.Single) (s : SlotId) :
    (g.recordsIn s).map Record.undated = ((recordsAt g s).map Record.undated).mergeSort Record.upTo := by
  unfold recordsIn
  exact List.map_mergeSort fun a ha b hb => Record.compare_eq_upTo fun hab => hg.eq_of_producer ha hb hab

theorem recordsIn_upTo {g : Generation} (hg : g.Single) (s : SlotId) :
    (g.recordsIn s).Pairwise fun a b => a.upTo b = true := by
  have hsorted : ((g.recordsIn s).map Record.undated).Pairwise fun a b => a.upTo b = true := by
    rw [map_undated_recordsIn hg]
    exact List.pairwise_mergeSort Record.upTo_trans Record.upTo_total _
  exact List.pairwise_map.mp hsorted

/-- Apart from the times, two lists of the same records are the same list. -/
theorem undated_eq_of_perm {g g' : Generation} (hg : g.Single) (hg' : g'.Single) {s : SlotId}
    (h : ((g.recordsIn s).map Record.undated).Perm ((g'.recordsIn s).map Record.undated)) :
    (g.recordsIn s).map Record.undated = (g'.recordsIn s).map Record.undated := by
  have hsorted : ∀ {k : Generation}, k.Single →
      ((k.recordsIn s).map Record.undated).Pairwise fun a b => a.upTo b = true :=
    fun hk => List.pairwise_map.mpr (recordsIn_upTo hk s)
  refine List.Perm.eq_of_pairwise (fun a b ha hb hab hba => ?_) (hsorted hg) (hsorted hg') h
  obtain ⟨r, hr, rfl⟩ := List.mem_map.mp ha
  obtain ⟨r', hr', heq⟩ := List.mem_map.mp (h.mem_iff.mpr hb)
  have hproducer : r.producer = r'.producer := by
    have hsame := Record.producer_eq_of_upTo hab hba
    rwa [← heq] at hsame
  rw [← heq, hg.eq_of_producer (mem_recordsIn.mp hr) (mem_recordsIn.mp hr') hproducer]

theorem undated_eq_of_recordsBy {g g' : Generation} (hg : g.Single) (hg' : g'.Single) {s : SlotId}
    (h : ∀ q, (g.recordsBy s q).map Record.undated = (g'.recordsBy s q).map Record.undated) :
    (g.recordsIn s).map Record.undated = (g'.recordsIn s).map Record.undated := by
  have hnodup : ∀ {k : Generation}, k.Single → ((k.recordsIn s).map Record.undated).Nodup := by
    intro k hk
    have hproducers : (((k.recordsIn s).map Record.undated).map (·.producer)).Nodup := by
      rw [List.map_map]
      exact ((k.recordsIn_perm s).map _).nodup_iff.mpr (hk s)
    exact hproducers.of_map _
  have hsub : ∀ {k k' : Generation}, (∀ q, (k.recordsBy s q).map Record.undated =
      (k'.recordsBy s q).map Record.undated) → ∀ r ∈ (k.recordsIn s).map Record.undated,
        r ∈ (k'.recordsIn s).map Record.undated := by
    intro k k' hk u hu
    obtain ⟨r, hr, rfl⟩ := List.mem_map.mp hu
    have hby : r.undated ∈ (k.recordsBy s r.producer).map Record.undated :=
      List.mem_map_of_mem (mem_recordsBy.mpr ⟨mem_recordsIn.mp hr, rfl⟩)
    rw [hk] at hby
    obtain ⟨r', hr', heq⟩ := List.mem_map.mp hby
    exact List.mem_map.mpr ⟨r', mem_recordsIn.mpr (mem_recordsBy.mp hr').1, heq⟩
  refine undated_eq_of_perm hg hg' ((List.perm_ext_iff_of_nodup (hnodup hg) (hnodup hg')).mpr fun r => ?_)
  exact ⟨hsub h r, hsub (fun q => (h q).symm) r⟩

end Generation

end SlotBuild
