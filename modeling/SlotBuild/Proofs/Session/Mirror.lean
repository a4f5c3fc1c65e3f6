import SlotBuild.Proofs.Graph.Overlap
import SlotBuild.Proofs.Repetition
import SlotBuild.Proofs.Session.Legacy

/-! Two sessions side by side: a task of both finds the same in both of them if the tasks that it
depends on have bound the same, apart from the times at which things were recorded. -/

namespace SlotBuild

open Coordinator

namespace Session

variable {x y : Session} {res res' : SessionResult} {d e : Evaluation}

/-- What the two evaluations publish for one slot is the same. -/
def Mirrors.Agree (y x : Session) (d e : Evaluation) : Prop :=
  ∀ r ∈ d.published y.plan, ∀ r' ∈ e.published x.plan, r.slot = r'.slot → r.undated = r'.undated

/-- Two sessions over graphs that agree on their common tasks, supplied with the same. -/
structure Overlaps (y x : Session) : Prop where
  catalog : y.plan.catalog = x.plan.catalog
  graph : y.plan.graph.Agrees x.plan.graph
  supplies : y.supplies = x.supplies
  sources : ∀ m ∈ mergedSupplies x.supplies, y.site.world.files.fingerprint y.site.world.cwd m.2 =
    x.site.world.files.fingerprint x.site.world.cwd m.2

theorem shared_of_task_eq (hd : d ∈ y.evaluations) (he : e ∈ x.evaluations) (htask : d.task = e.task) :
    y.plan.graph.Shared x.plan.graph d.index e.index :=
  ⟨e.task, htask ▸ y.logged.task d hd, x.logged.task e he⟩

theorem task_eq_of_shared (hd : d ∈ y.evaluations) (he : e ∈ x.evaluations)
    (h : y.plan.graph.Shared x.plan.graph d.index e.index) : d.task = e.task := by
  obtain ⟨t, hdt, het⟩ := h
  rw [y.logged.task d hd] at hdt
  rw [x.logged.task e he] at het
  rw [Option.some.inj hdt, Option.some.inj het]

namespace Overlaps

theorem supplied_eq (h : y.Overlaps x) {s : SlotId} {rs rs' : List Record}
    (hrs : List.Forall₂ (fun locations r => supplyRecord y.site.world (s, locations) = .ok r)
      (Keyed.get? s (mergedSupplies x.supplies)).toList rs)
    (hrs' : List.Forall₂ (fun locations r => supplyRecord x.site.world (s, locations) = .ok r)
      (Keyed.get? s (mergedSupplies x.supplies)).toList rs') :
    rs.map Record.undated = rs'.map Record.undated := by
  refine map_eq_of_forall₂ hrs hrs' fun locations hloc r r' hr hr' => ?_
  obtain ⟨digest, hdigest, rfl⟩ := supplyRecord_ok hr
  obtain ⟨digest', hdigest', rfl⟩ := supplyRecord_ok hr'
  rw [h.sources _ (Keyed.mem_of_get? (Option.mem_toList.mp hloc)), hdigest'] at hdigest
  rw [Except.ok.inj hdigest]
  rfl

theorem inputs_perm (h : y.Overlaps x) (hx : x.Proper res) (hy : y.Proper res') (hd : d ∈ y.evaluations)
    (he : e ∈ x.evaluations) (htask : d.task = e.task)
    (hbefore : ∀ d' ∈ y.evaluations, ∀ e' ∈ x.evaluations, d'.task = e'.task →
      x.plan.graph.Precedes e'.index e.index → (d'.outcome y.plan).isSuccess = true →
      (e'.outcome x.plan).isSuccess = true → Mirrors.Agree y x d' e')
    {s : SlotId} (hs : s ∈ e.task.inputs) : ((d.site.ledger.currentRecords s).map Record.undated).Perm
      ((e.site.ledger.currentRecords s).map Record.undated) := by
  obtain ⟨supplied, made, hperm, hgathered⟩ :=
    gathered hy.graph hy.fresh hy.previous.filed hy.completed hd (htask ▸ hs)
  obtain ⟨supplied', made', hperm', hgathered'⟩ :=
    gathered hx.graph hx.fresh hx.previous.filed hx.completed he hs
  have hsupply := hgathered.supply
  rw [h.supplies] at hsupply
  have hsupplied := h.supplied_eq hsupply hgathered'.supply
  have hproducers := h.graph e.task (htask ▸ task_mem hd) (task_mem he) s hs
  have hmade : made.map Record.undated = made'.map Record.undated := by
    refine map_eq_of_related hproducers hgathered.production hgathered'.production ?_
    rintro k hk i r r' hshared ⟨d', hd', rfl, hod, hr, hrs⟩ ⟨e', he', rfl, hoe, hr', hrs'⟩
    have hprec : x.plan.graph.Precedes e'.index e.index := by
      obtain ⟨i, hi, hki⟩ := exists_right_of_forall₂ hproducers _ hk
      obtain rfl := hshared.unique hx.valid hki
      exact ⟨⟨e'.index, e.index, s⟩,
        (hx.valid.mem_edges _).mpr ⟨hi, e.task, x.logged.task e he, hs⟩, rfl, rfl⟩
    exact hbefore d' hd' e' he' (task_eq_of_shared hd' he' hshared) hprec hod hoe r hr r' hr'
      (hrs.trans hrs'.symm)
  calc (d.site.ledger.currentRecords s).map Record.undated
    _ |>.Perm ((supplied ++ made).map Record.undated) := hperm.map _
    _ = (supplied' ++ made').map Record.undated := by rw [List.map_append, List.map_append, hsupplied, hmade]
    _ |>.Perm ((e.site.ledger.currentRecords s).map Record.undated) := (hperm'.map _).symm

end Overlaps

namespace Mirrors

theorem overlaps (h : y.Mirrors x) (hx : x.Proper res) : y.Overlaps x :=
  ⟨h.catalog, h.graph ▸ hx.valid.agrees_self, h.supplies, h.sources⟩

theorem index_eq (h : y.Mirrors x) (hx : x.Proper res) (hd : d ∈ y.evaluations) (he : e ∈ x.evaluations)
    (htask : d.task = e.task) : d.index = e.index := by
  have hd' := y.logged.task d hd
  rw [h.graph] at hd'
  exact hx.valid.index_unique hd' (x.logged.task e he) (congrArg Task.id htask)

theorem inputs_perm (h : y.Mirrors x) (hx : x.Proper res) (hy : y.Proper res') (hd : d ∈ y.evaluations)
    (he : e ∈ x.evaluations) (hi : d.index = e.index)
    (hbefore : ∀ d' ∈ y.evaluations, ∀ e' ∈ x.evaluations, d'.index = e'.index →
      x.plan.graph.Precedes e'.index e.index → (d'.outcome y.plan).isSuccess = true →
      (e'.outcome x.plan).isSuccess = true → Agree y x d' e')
    {s : SlotId} (hs : s ∈ e.task.inputs) : ((d.site.ledger.currentRecords s).map Record.undated).Perm
      ((e.site.ledger.currentRecords s).map Record.undated) :=
  (h.overlaps hx).inputs_perm hx hy hd he (h.task_eq hd he hi)
    (fun d' hd' e' he' htask => hbefore d' hd' e' he' (h.index_eq hx hd' he' htask)) hs

end Mirrors

end Session

end SlotBuild
