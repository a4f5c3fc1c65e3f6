import SlotBuild.Proofs.Forecast
import SlotBuild.Proofs.Session.Reschedule

/-! A forecast and the session after it. If in between nothing happens to what is supplied or on
record, and no task writes where another one has its records, the session does what the forecast
says. -/

namespace SlotBuild

open Ledger (recordsAt)
open Coordinator

/-- What may become of a task of which this was foreseen. -/
def Expectation.Meets (o : Outcome) : Expectation → Prop
  | upToDate => o = .skipped .upToDate
  | execute reason => (∃ fingerprint, o = .executed reason fingerprint) ∨ o.isFailure = true
  | afterDependency => True

theorem concluded_meets (c : Catalog) (t : Task) (reason : RunReason) (fingerprint : String)
    (ran : ActionResult × World) :
    (Expectation.execute reason).Meets (concluded c t reason fingerprint ran).1 := by
  obtain ⟨result, w⟩ := ran
  cases result with
  | panicked => exact Or.inr rfl
  | failed message => exact Or.inr rfl
  | reported outputs =>
    simp only [concluded]
    split
    · exact Or.inr rfl
    · exact Or.inl ⟨fingerprint, rfl⟩

section supplies

variable {w w' : World} {supplies : List Supply}

theorem supplyRecord_undated {m : SlotId × List Path} (h : ∀ l ∈ m.2, w.contentAt l = w'.contentAt l) :
    (supplyRecord w m).map Record.undated = (supplyRecord w' m).map Record.undated := by
  rw [supplyRecord, supplyRecord, map_bind, map_bind, World.fingerprint_congr h]
  rfl

theorem supplyRecords_undated (h : ∀ m ∈ mergedSupplies supplies, ∀ l ∈ m.2, w.contentAt l = w'.contentAt l) :
    (supplyRecords w supplies).map (List.map Record.undated) =
      (supplyRecords w' supplies).map (List.map Record.undated) :=
  mapM_map_congr fun m hm => supplyRecord_undated (h m hm)

end supplies

namespace Session

variable {x : Session} {w : World} {res : SessionResult} {rs : List Record} {e : Evaluation}

theorem result_of_unsupplied {err : AccessError} (h : supplyRecords x.site.world x.supplies = .error err) :
    x.result.1 = .error (.access err) := by
  rw [result, runGraph, takeSupplies, h]

theorem exists_result_of_supplied (hg : x.plan.graph.BuiltFrom x.plan.catalog (x.supplies.map (·.slot)))
    (h : supplyRecords x.site.world x.supplies = .ok rs) : ∃ res, x.result.1 = .ok res := by
  have hdeclared : ∀ r ∈ rs, ∃ slot, x.plan.catalog.find? r.slot = some slot := by
    intro r hr
    obtain ⟨m, hm, hmr⟩ := exists_left_of_forall₂ (mapM_eq_ok.mp h) r hr
    obtain ⟨_, -, rfl⟩ := supplyRecord_ok hmr
    refine hg.valid.2.declared_supplied m.1 (hg.mem_supplied_iff.mpr ?_)
    rw [(mergedSupplies_ordered x.supplies).get?_eq_some.mpr hm]
    rfl
  obtain ⟨l, hbound⟩ := bindAll_of_declared hdeclared x.site.ledger
  have htaken : takeSupplies x.plan.catalog x.supplies x.site = (.ok (), { x.site with ledger := l }) := by
    rw [takeSupplies, h]
    simp only [hbound]
  exact exists_result htaken

/-- The location stands in a record that `q` has in the previous generation. -/
def Remembered (x : Session) (q : TaskId) (l : Path) : Prop :=
  ∃ s, ∃ r ∈ x.site.ledger.previousRecords s (some q), l ∈ r.locations

/-- A session over a graph that was built for its supplies, on a ledger that was just opened, that
nothing stops before its end. In the world `w` lies what it finds where its supplies and the records
of its tasks are, and none of its tasks touches what is on record for another one. -/
structure Foreseen (x : Session) (w : World) : Prop where
  graph : x.plan.graph.BuiltFrom x.plan.catalog (x.supplies.map (·.slot))
  ledger : x.site.ledger.Opened
  patient : x.plan.config.failFast = false
  live : x.Live
  contents : ∀ l, (x.Supplied l ∨ ∃ t ∈ x.plan.graph.tasks, x.Remembered t.id l) →
    w.contentAt l = x.site.world.contentAt l
  undisturbed : ∀ d ∈ x.evaluations, ∀ t ∈ x.plan.graph.tasks, t.id ≠ d.task.id → ∀ l, x.Remembered t.id l →
    (d.after x.plan).world.contentAt l = d.site.world.contentAt l

/-- The judgements of a forecast that was made for the session in the world `w`. -/
structure Foretold (x : Session) (w : World) (rs : List Record) (log : List Forecast.Judgement) : Prop where
  supplied : supplyRecords w x.supplies = .ok rs
  order : log.map (·.index) = x.plan.graph.order
  judges : ∃ p, Forecast.Judges x.plan.graph w x.site.ledger x.plan.config
    ⟨rs.foldl Forecast.addRecord .empty, [], []⟩ log p

section foretold

variable {log : List Forecast.Judgement} {j k : Forecast.Judgement} {i : Nat}

theorem exists_foretold (hg : x.plan.graph.IsAcyclic) (hrs : supplyRecords w x.supplies = .ok rs) :
    ∃ log, x.Foretold w rs log ∧ Forecast.make x.plan.graph x.supplies w x.site.ledger x.plan.config =
      .ok (log.map Forecast.Judgement.entry) := by
  have hrange : ∀ i ∈ x.plan.graph.order, i < x.plan.graph.size :=
    fun i hi => List.mem_range.mp ((Graph.order_perm hg).mem_iff.mp hi)
  have hnone : Forecast.Judges x.plan.graph w x.site.ledger x.plan.config
      ⟨rs.foldl Forecast.addRecord .empty, [], []⟩ [] _ := .nil
  obtain ⟨log, horder, hjudges⟩ := hnone.extend hrange
  refine ⟨log, ⟨hrs, horder, _, hjudges⟩, ?_⟩
  have hentries := hjudges.entries_eq
  simp only [List.nil_append] at hentries
  rw [Forecast.make, hrs, ← hentries]
  rfl

namespace Foretold

theorem nodup (hlog : x.Foretold w rs log) (hg : x.plan.graph.IsAcyclic) : (log.map (·.index)).Nodup := by
  rw [hlog.order, (Graph.order_perm hg).nodup_iff]
  exact List.nodup_range

theorem task_of_mem (hlog : x.Foretold w rs log) (hj : j ∈ log) :
    x.plan.graph.task? j.index = some j.task := by
  obtain ⟨_, hjudges⟩ := hlog.judges
  exact hjudges.task_of_mem hj

theorem exists_at (hlog : x.Foretold w rs log) (hg : x.plan.graph.IsAcyclic) (hi : i < x.plan.graph.size) :
    ∃ j ∈ log, j.index = i := by
  have hmem := (Graph.order_perm hg).mem_iff.mpr (List.mem_range.mpr hi)
  rw [← hlog.order] at hmem
  exact List.mem_map.mp hmem

/-- A task is judged after all that it depends on. -/
theorem exists_before (hlog : x.Foretold w rs log) (hj : j ∈ log) :
    ∃ before after, log = before ++ j :: after ∧
    Forecast.Judges x.plan.graph w x.site.ledger x.plan.config ⟨rs.foldl Forecast.addRecord .empty, [], []⟩
      before j.before ∧ Forecast.Judged w x.site.ledger x.plan.config j ∧
      ∀ d, Relation.TransGen x.plan.graph.Precedes d j.index → ∃ k ∈ before, k.index = d := by
  obtain ⟨_, hjudges⟩ := hlog.judges
  obtain ⟨before, after, rfl, hbefore, -, hjudged⟩ := hjudges.exists_before hj
  refine ⟨before, after, rfl, hbefore, hjudged, fun d hd => ?_⟩
  have horder := hlog.order
  rw [List.map_append, List.map_cons] at horder
  exact List.mem_map.mp (Graph.mem_before_of_transGen horder.symm hd)

/-- A task is left open if and only if it depends on one that would run for a reason of its own. -/
theorem afterDependency_iff (hlog : x.Foretold w rs log) (hg : x.plan.graph.IsAcyclic) (hj : j ∈ log) :
    j.expectation = .afterDependency ↔ ∃ k ∈ log, (∃ reason, k.expectation = .execute reason) ∧
      Relation.TransGen x.plan.graph.Precedes k.index j.index := by
  obtain ⟨before, after, hsplit, hbefore, hjudged, hdeps⟩ := hlog.exists_before hj
  rw [hjudged.expectation_eq_iff, hbefore.mem_unsettled rfl]
  constructor
  · rintro ⟨k, hk, hrun, hkj⟩
    exact ⟨k, hsplit ▸ List.mem_append_left _ hk, hrun, hkj⟩
  · rintro ⟨k, hk, hrun, hkj⟩
    obtain ⟨k', hk', hindex⟩ := hdeps k.index hkj
    have hmem : k' ∈ log := hsplit ▸ List.mem_append_left _ hk'
    obtain rfl : k' = k := List.inj_on_of_nodup_map (hlog.nodup hg) hmem hk hindex
    exact ⟨k', hk', hrun, hkj⟩

end Foretold

namespace Foreseen

variable (h : x.Foreseen w) (hx : x.Proper res) (hlog : x.Foretold w rs log)
include h hx

/-- What is on record for a task lies there as it did for the forecast when the task is evaluated. -/
theorem contentAt_eq (he : e ∈ x.evaluations) {l : Path} (hl : x.Remembered e.task.id l) :
    e.site.world.contentAt l = w.contentAt l := by
  obtain ⟨earlier, hfound⟩ := hx.exists_found h.live he
  have htask := List.mem_of_getElem? (x.logged.task e he)
  rw [h.contents l (Or.inr ⟨e.task, htask, hl⟩), ← begun_world hx.completed]
  refine hfound.carries.unchanged (f := fun w => w.contentAt l) fun d hd => ?_
  have hmem := hfound.mem_of_log hd
  refine h.undisturbed d hmem e.task htask (fun hid => hfound.index_ne hd ?_) l hl
  exact hx.valid.index_unique (x.logged.task e he) (x.logged.task d hmem) hid

include hlog

/-- A task whose dependencies are passed as up to date finds the inputs that the forecast counts on. -/
theorem inputs_perm {before : List Forecast.Judgement} {p : Forecast.Progress}
    (hbefore : Forecast.Judges x.plan.graph w x.site.ledger x.plan.config
      ⟨rs.foldl Forecast.addRecord .empty, [], []⟩ before p)
    (hnodup : (before.map (·.index)).Nodup) (he : e ∈ x.evaluations)
    (hready : ∀ d, x.plan.graph.Precedes d e.index →
      (∃ k ∈ before, k.index = d ∧ k.expectation = .upToDate) ∧
        ∃ e' ∈ x.evaluations, e'.index = d ∧ e'.outcome x.plan = .skipped .upToDate)
    {s : SlotId} (hs : s ∈ e.task.inputs) : ((e.site.ledger.currentRecords s).map Record.undated).Perm
      ((p.bound.recordsIn s).map Record.undated) := by
  have hprec : ∀ d ∈ x.plan.graph.producersOf s, x.plan.graph.Precedes d e.index := fun d hd =>
    ⟨⟨d, e.index, s⟩, (hx.valid.mem_edges _).mpr ⟨hd, e.task, x.logged.task e he, hs⟩, rfl, rfl⟩
  obtain ⟨supplied, made, hperm, hgathered⟩ :=
    gathered hx.graph hx.fresh hx.previous.filed hx.completed he hs
  obtain ⟨made', hperm', hmade'⟩ := hbefore.exists_gathered hx.valid hx.previous hnodup
    fun d hd => (hready d (hprec d hd)).1
  rw [Forecast.recordsAt_foldl_addRecord] at hperm'
  have hsupplied : supplied.map Record.undated = (rs.filter fun r => r.slot = s).map Record.undated := by
    refine map_eq_of_forall₂ hgathered.supply (filter_supplyRecords (mergedSupplies_ordered x.supplies)
      (mapM_eq_ok.mp hlog.supplied) s) fun locations hloc r r' hr hr' => ?_
    have hmem := Keyed.mem_of_get? (Option.mem_toList.mp hloc)
    have hsame : (supplyRecord x.site.world (s, locations)).map Record.undated =
        (supplyRecord w (s, locations)).map Record.undated :=
      supplyRecord_undated fun l hl => (h.contents l (Or.inl ⟨_, hmem, hl⟩)).symm
    rw [hr, hr'] at hsame
    exact Except.ok.inj hsame
  have hmade : made = made' := by
    have hmap := map_eq_of_forall₂ (f := id) (g := id) hgathered.production hmade' ?_
    · simpa using hmap
    · rintro d hd r r' ⟨e₁, he₁, rfl, -, hr, rfl⟩ ⟨k, hk, hkd, hone⟩
      obtain ⟨e₂, he₂, he₁₂, hupToDate⟩ := (hready e₁.index (hprec e₁.index hd)).2
      obtain rfl := x.logged.eq_of_index he₂ he₁ he₁₂
      have htask : k.task = e₂.task := by
        have hboth := hbefore.task_of_mem hk
        rw [hkd, x.logged.task e₂ he₁] at hboth
        exact (Option.some.inj hboth).symm
      have hold := hx.previous_of_reuse he₁ hupToDate hr
      rw [htask, hold] at hone
      exact List.singleton_inj.mp hone
  have hnone : recordsAt Generation.empty s = [] := rfl
  calc (e.site.ledger.currentRecords s).map Record.undated
    _ |>.Perm ((supplied ++ made).map Record.undated) := hperm.map _
    _ = ((recordsAt Generation.empty s ++ rs.filter fun r => r.slot = s) ++ made').map Record.undated := by
      rw [List.map_append, List.map_append, hsupplied, hmade, hnone, List.nil_append]
    _ |>.Perm ((p.bound.recordsIn s).map Record.undated) :=
      (((Generation.recordsIn_perm _ s).trans hperm').map _).symm

/-- By induction along the graph: what a settled task depends on is passed as up to date, so the
task gets its turn, and the verdict on it is the one that was foreseen. -/
theorem met : ∀ i < x.plan.graph.size, ∀ j ∈ log, j.index = i → j.expectation ≠ .afterDependency →
    ∃ e ∈ x.evaluations, e.index = i ∧ j.expectation.Meets (e.outcome x.plan) := by
  have hsteady := h.live.steady fun e _ => by rw [h.patient, Bool.false_and]
  refine hx.valid.acyclic.induction fun i hi ih j hj hji hsettled => ?_
  obtain ⟨before, after, hsplit, hbefore, hjudged, hdeps⟩ := hlog.exists_before hj
  have hnodup := hlog.nodup hx.valid.acyclic
  rw [hsplit, List.map_append] at hnodup
  rw [Ne, hjudged.expectation_eq_iff] at hsettled
  have hready : ∀ d, x.plan.graph.Precedes d i → (∃ k ∈ before, k.index = d ∧ k.expectation = .upToDate) ∧
      ∃ e' ∈ x.evaluations, e'.index = d ∧ e'.outcome x.plan = .skipped .upToDate := by
    intro d hd
    have htrans : Relation.TransGen x.plan.graph.Precedes d j.index := hji ▸ .single hd
    obtain ⟨k, hk, rfl⟩ := hdeps d htrans
    have hexpect := hbefore.upToDate_of_settled rfl hsettled hk htrans
    obtain ⟨e', he', hindex, hmeets⟩ := ih k.index hd k (hsplit ▸ List.mem_append_left _ hk) rfl
      (by simp [hexpect])
    rw [hexpect] at hmeets
    exact ⟨⟨k, hk, rfl, hexpect⟩, e', he', hindex, hmeets⟩
  obtain ⟨o, ho⟩ := x.logged.coherent.all_settled hx.valid.acyclic x.ended_isDone i hi
  obtain ⟨e, he, rfl, -⟩ := hsteady.exists_evaluation ho fun d o' hd ho' => by
    obtain ⟨-, e', he', rfl, hupToDate⟩ := hready d hd
    rw [x.settled he', hupToDate] at ho'
    rw [← Option.some.inj ho']
    rfl
  refine ⟨e, he, rfl, ?_⟩
  have htask : j.task = e.task := by
    have hboth := hlog.task_of_mem hj
    rw [hji, x.logged.task e he] at hboth
    exact (Option.some.inj hboth).symm
  have hfingerprint : e.fingerprint = j.before.fingerprint e.task := by
    refine Fingerprint.ofInputs_congr ?_
    rw [Task.boundRecords, Task.boundRecords, List.map_flatMap, List.map_flatMap]
    exact List.Perm.flatMap_left _ fun s hs =>
      h.inputs_perm hx hlog hbefore (List.nodup_append.mp hnodup).1 he hready hs
  have hverdict : verdict x.plan.config e.task e.fingerprint e.site =
      verdict x.plan.config j.task (j.before.fingerprint j.task) ⟨x.site.ledger, w⟩ := by
    rw [htask, ← hfingerprint]
    refine verdict_congr rfl (site_previous hx.completed he) fun s r hr _ l hl => ?_
    exact h.contentAt_eq hx he ⟨s, r, hr, hl⟩
  cases hjudged with
  | waiting unsettled => exact absurd unsettled hsettled
  | @due _ _ _ reason _ due =>
    rw [(Evaluation.concluded_of_due (h.live.uncancelled he) (hverdict.trans due)).2.1]
    exact concluded_meets _ _ _ _ _
  | saved _ saved =>
    obtain ⟨l, hl⟩ := evaluate_of_saved (hverdict.trans saved) (hx.previous_at he).filed
      (hx.outputs_declared he) e.task.action
    exact congrArg Prod.fst hl

end Foreseen

namespace Foretold

theorem reports_eq (hlog : x.Foretold w rs log) (hx : x.Proper res) :
    res.reports = log.map fun j => ⟨j.task.id, x.ended.outcomeOf j.index⟩ := by
  rw [(result_of_ok hx.completed).1, reports, ← hlog.order, List.filterMap_map, ← List.filterMap_eq_map]
  exact List.filterMap_congr fun j hj => by simp [hlog.task_of_mem hj]

theorem tasks_perm (hlog : x.Foretold w rs log) (hg : x.plan.graph.IsAcyclic) :
    ((log.map Forecast.Judgement.entry).map (·.task)).Perm (x.plan.graph.tasks.map (·.id)) := by
  have htasks : log.map (·.task) = x.plan.graph.order.filterMap x.plan.graph.task? := by
    rw [← hlog.order, List.filterMap_map, ← List.filterMap_eq_map]
    exact List.filterMap_congr fun j hj => (hlog.task_of_mem hj).symm
  have hids : (log.map Forecast.Judgement.entry).map (·.task) = (log.map (·.task)).map (·.id) := by
    rw [List.map_map, List.map_map]
    rfl
  rw [hids, htasks]
  exact (Graph.tasks_perm hg).map _

theorem exists_of_entry (hlog : x.Foretold w rs log) {c : Catalog} (hg : x.plan.graph.Valid c) {t : Task}
    (ht : x.plan.graph.task? i = some t) {expectation : Expectation} :
    ⟨t.id, expectation⟩ ∈ log.map Forecast.Judgement.entry ↔
      ∃ j ∈ log, j.index = i ∧ j.expectation = expectation := by
  rw [List.mem_map]
  constructor
  · rintro ⟨j, hj, hentry⟩
    obtain ⟨hid, hexpect⟩ := Forecast.mk.inj hentry
    exact ⟨j, hj, hg.index_unique (hlog.task_of_mem hj) ht hid, hexpect⟩
  · rintro ⟨j, hj, rfl, rfl⟩
    have htask := hlog.task_of_mem hj
    rw [ht] at htask
    exact ⟨j, hj, by rw [Forecast.Judgement.entry, Option.some.inj htask]⟩

end Foretold

end foretold

/-- A session does what was foreseen for it: it has the same tasks in the same order, those that are
up to date are passed over, those that have to run do so for the reason foreseen, unless they fail,
and left open is what depends on these. It cannot begin if there is no forecast. -/
theorem Foreseen.forecast_holds (h : x.Foreseen w) :
    match Forecast.make x.plan.graph x.supplies w x.site.ledger x.plan.config with
    | .error e => x.result.1 = .error (.access e)
    | .ok entries => ∃ res, x.result.1 = .ok res ∧
        (entries.map (·.task)).Perm (x.plan.graph.tasks.map (·.id)) ∧
        List.Forall₂ (fun f r => f.task = r.task ∧ f.expectation.Meets r.outcome) entries res.reports ∧
        ∀ i t, x.plan.graph.task? i = some t → (⟨t.id, .afterDependency⟩ ∈ entries ↔
          ∃ j u reason, Relation.TransGen x.plan.graph.Precedes j i ∧ x.plan.graph.task? j = some u ∧
            ⟨u.id, .execute reason⟩ ∈ entries) := by
  have hsupplies : (supplyRecords w x.supplies).map (List.map Record.undated) =
      (supplyRecords x.site.world x.supplies).map (List.map Record.undated) :=
    supplyRecords_undated fun m hm l hl => h.contents l (Or.inl ⟨m, hm, hl⟩)
  have hvalid := h.graph.valid.2
  cases hrs : supplyRecords w x.supplies with
  | error e =>
    have hmake : Forecast.make x.plan.graph x.supplies w x.site.ledger x.plan.config = .error e := by
      rw [Forecast.make, hrs]
      rfl
    rw [hmake]
    refine result_of_unsupplied ?_
    cases hrs' : supplyRecords x.site.world x.supplies <;> simp [hrs, hrs', Except.map] at hsupplies
    rw [hsupplies]
  | ok rs =>
    obtain ⟨rs', hrs'⟩ : ∃ rs', supplyRecords x.site.world x.supplies = .ok rs' := by
      cases hrs' : supplyRecords x.site.world x.supplies with
      | error e => simp [hrs, hrs', Except.map] at hsupplies
      | ok rs' => exact ⟨rs', rfl⟩
    obtain ⟨res, hres⟩ := exists_result_of_supplied h.graph hrs'
    have hx : x.Proper res := ⟨h.graph, h.ledger, hres⟩
    obtain ⟨log, hlog, hmake⟩ := exists_foretold hvalid.acyclic hrs
    rw [hmake]
    refine ⟨res, hres, hlog.tasks_perm hvalid.acyclic, ?_, fun i t ht => ?_⟩
    · rw [hlog.reports_eq hx]
      refine List.forall₂_map_left_iff.mpr
        (List.forall₂_map_right_iff.mpr (List.forall₂_same.mpr fun j hj => ⟨rfl, ?_⟩))
      by_cases hopen : j.expectation = .afterDependency
      · rw [Forecast.Judgement.entry, hopen]
        trivial
      · obtain ⟨e, he, hindex, hmeets⟩ :=
          h.met hx hlog j.index (Graph.lt_size_of_task? (hlog.task_of_mem hj)) j hj rfl hopen
        rw [← hindex, outcomeOf_eq (x.settled he)]
        exact hmeets
    · obtain ⟨j, hj, rfl⟩ := hlog.exists_at hvalid.acyclic (Graph.lt_size_of_task? ht)
      have hunique : ∀ k ∈ log, k.index = j.index → k = j :=
        fun k hk hkj => List.inj_on_of_nodup_map (hlog.nodup hvalid.acyclic) hk hj hkj
      rw [hlog.exists_of_entry hvalid ht]
      constructor
      · rintro ⟨k, hk, hkj, hopen⟩
        obtain rfl := hunique k hk hkj
        obtain ⟨k', hk', ⟨reason, hrun⟩, hbefore⟩ := (hlog.afterDependency_iff hvalid.acyclic hk).mp hopen
        have htask := hlog.task_of_mem hk'
        exact ⟨k'.index, k'.task, reason, hbefore, htask,
          (hlog.exists_of_entry hvalid htask).mpr ⟨k', hk', rfl, hrun⟩⟩
      · rintro ⟨i', u, reason, hbefore, hu, hentry⟩
        obtain ⟨k, hk, rfl, hrun⟩ := (hlog.exists_of_entry hvalid hu).mp hentry
        exact ⟨j, hj, rfl, (hlog.afterDependency_iff hvalid.acyclic hj).mpr ⟨k, hk, ⟨reason, hrun⟩, hbefore⟩⟩

end Session

/-! Two tasks that write files, of which only the second one has a history, and a third one that
reads what the first one makes. -/

namespace Shelf

def write (t : FileTree) (name : String) : FileTree := t.put [name] (.file (Bytes.ofString "text"))

def writer (id : TaskId) (s : SlotId) (names : List String) : Task := (Task.make id fun _ w =>
  (.reported [(s, names.map Path.mk)], { w with files := names.foldl write w.files })).withOutput s

def right : Task := writer "right" "y" ["o"]

def reader : Task := (Task.make "join" fun _ w => (.reported [], w)).withInput "x"

def catalog : Catalog := ⟨[Slot.multiple "x" .file .intermediates, Slot.multiple "y" .file .outputs]⟩

/-- The first task writes the files with these names. -/
def graph (names : List String) : Graph where
  tasks := [writer "left" "x" names, right, reader]
  edges := [⟨0, 2, "x"⟩]
  producers := [("x", [0]), ("y", [1])]
  supplied := []

def digest : String := ((write .empty "o").fingerprint [] [⟨"o"⟩]).toOption.getD ""

def rightRecord : Record := ⟨"y", [⟨"o"⟩], digest, some (Fingerprint.ofInputs right []), some "right", 0⟩

def kept : Generation := ⟨1, [("y", [rightRecord])], List.pairwise_singleton _ _⟩

def session (names : List String) (files : FileTree) : Session where
  plan := ⟨catalog, graph names, ⟨1, false, false⟩⟩
  supplies := []
  moves := []
  site := ⟨.after ⟨"state"⟩ kept, ⟨files, [], [], 0, false, .bare⟩⟩

section general

variable {names : List String} {files : FileTree} {l : Ledger}

theorem graph_builtFrom : (graph names).BuiltFrom catalog [] :=
  .build (show Graph.build catalog [] (graph names).tasks = .ok (graph names) from rfl)

theorem session_opened : (session names files).site.ledger.Opened := by
  have hbound : (Ledger.empty ⟨"state"⟩).record (Slot.multiple "y" .file .outputs) rightRecord =
      .ok ⟨⟨"state"⟩, .empty, kept⟩ := rfl
  have hkept : Ledger.Kept ⟨⟨"state"⟩, .empty, kept⟩ := .record (.empty ⟨"state"⟩) hbound
  have hread : FileTree.read ⟨[(["state"], .file kept.toBytes)]⟩ [] ⟨"state"⟩ = .ok kept.toBytes := rfl
  exact .inr ⟨_, _, _, _, hkept, hread, Ledger.load_of_read hread⟩

theorem session_proper : ∃ res, (session names files).Proper res := by
  obtain ⟨res, hres⟩ : ∃ res, (session names files).result.1 = .ok res := Session.exists_result rfl
  exact ⟨res, graph_builtFrom, session_opened, hres⟩

theorem session_live : (session names files).Live := by
  obtain ⟨res, hx⟩ : ∃ res, (session names files).Proper res := session_proper
  refine Session.live_of_quiet hx.completed (by simp [session]) rfl fun t ht call w hw => ?_
  simp only [session, graph, List.mem_cons, List.not_mem_nil, or_false] at ht
  rcases ht with rfl | rfl | rfl <;> exact hw

theorem previousRecords_eq (hl : l.previous = kept) (s : SlotId) (q : TaskId) :
    l.previousRecords s (some q) = if s = "y" ∧ q = "right" then [rightRecord] else [] := by
  have hrecords : kept.recordsIn s = if s = "y" then [rightRecord] else [] := by
    by_cases hs : s = "y"
    · simp [Generation.recordsIn, kept, Keyed.get?, hs]
    · simp [Generation.recordsIn, kept, Keyed.get?, hs, Ne.symm hs]
  rw [Ledger.previousRecords, hl, hrecords]
  by_cases hs : s = "y" <;> by_cases hq : q = "right" <;> simp [hs, hq, rightRecord, eq_comm]

theorem of_remembered {q : TaskId} {p : Path} (h : (session names files).Remembered q p) :
    q = "right" ∧ p = ⟨"o"⟩ := by
  obtain ⟨s, r, hr, hp⟩ := h
  rw [previousRecords_eq rfl] at hr
  split_ifs at hr with hright
  · rw [List.mem_singleton.mp hr] at hp
    exact ⟨hright.2, List.mem_singleton.mp hp⟩
  · simp at hr

theorem left_verdict (hl : l.previous = kept) (fingerprint : String) (w : World) :
    verdict ⟨1, false, false⟩ (writer "left" "x" names) fingerprint ⟨l, w⟩ = .error .noHistory := by
  have hnone : (writer "left" "x" names).history? l = none := by
    simp [Task.history?, writer, Task.withOutput, Task.make, Task.addOnce, previousRecords_eq hl]
  simp [verdict, reusable, hnone]

theorem right_verdict (hl : l.previous = kept) (w : World) :
    verdict ⟨1, false, false⟩ right (Fingerprint.ofInputs right []) ⟨l, w⟩ =
      if rightRecord.isIntact w.files w.cwd then .ok [rightRecord] else .error .outputsChanged := by
  have hone : right.history? l = some [rightRecord] := by
    simp [Task.history?, right, writer, Task.withOutput, Task.make, Task.addOnce, previousRecords_eq hl]
  have hinputs : rightRecord.inputFingerprint = some (Fingerprint.ofInputs right []) := rfl
  simp [verdict, reusable, hone, hinputs]

theorem forecast_eq : Forecast.make (session names files).plan.graph (session names files).supplies
    (session names files).site.world (session names files).site.ledger (session names files).plan.config =
      .ok [⟨"left", .execute .noHistory⟩,
        ⟨"right", if rightRecord.isIntact files [] then .upToDate else .execute .outputsChanged⟩,
        ⟨"join", .afterDependency⟩] := by
  have hdown : (graph names).downstream 0 = [2] := rfl
  have hids : (writer "left" "x" names).id = "left" ∧ right.id = "right" ∧ reader.id = "join" :=
    ⟨rfl, rfl, rfl⟩
  have hfingerprint : ∀ p : Forecast.Progress,
      p.fingerprint right = Fingerprint.ofInputs right [] := fun _ => rfl
  have hright := right_verdict (l := (session names files).site.ledger) rfl (session names files).site.world
  have hmake : Forecast.make (session names files).plan.graph (session names files).supplies
      (session names files).site.world (session names files).site.ledger (session names files).plan.config =
        .ok ([0, 1, 2].foldl (Forecast.expect (graph names) (session names files).site.world
          (session names files).site.ledger ⟨1, false, false⟩) ⟨.empty, [], []⟩).entries := rfl
  rw [hmake, List.foldl_cons, Forecast.expect_of_settled (t := writer "left" "x" names) rfl (by simp),
    left_verdict rfl, List.foldl_cons, Forecast.expect_of_settled (t := right) rfl
      (by simp [Forecast.Judgement.after, Expectation.willRun, hdown]), hfingerprint, hright, List.foldl_cons]
  by_cases hintact : rightRecord.isIntact files [] = true
  all_goals
    rw [Forecast.expect_of_unsettled (t := reader) rfl
      (by simp [hintact, session, Forecast.Judgement.after, Expectation.willRun, hdown])]
    simp [hintact, session, Forecast.Judgement.after, Forecast.Judgement.entry, hids]

end general

/-- The first task makes nothing, and the file of the second one is there. -/
def apart : Session := session [] (write .empty "o")

theorem isIntact_rightRecord : rightRecord.isIntact (write .empty "o") [] = true := by
  have hdigest : (write .empty "o").fingerprint [] rightRecord.locations = .ok digest := rfl
  rw [Record.isIntact, hdigest]
  exact beq_self_eq_true digest

theorem apart_foreseen : apart.Foreseen apart.site.world where
  graph := graph_builtFrom
  ledger := session_opened
  patient := rfl
  live := session_live
  contents _ _ := rfl
  undisturbed d hd t _ hne p hp := by
    rw [(of_remembered hp).1] at hne
    have htask := List.mem_of_getElem? (apart.logged.task d hd)
    rcases evaluate_world apart.plan.catalog apart.plan.config d.task d.site with hworld | hworld
    · rw [Evaluation.after, hworld]
    · rw [Evaluation.after, hworld]
      simp only [apart, session, graph, List.mem_cons, List.not_mem_nil, or_false] at htask
      rcases htask with htask | htask | htask
      · rw [htask]
        rfl
      · exact absurd (congrArg Task.id htask).symm hne
      · rw [htask]
        rfl

/-- What is foreseen of tasks that keep apart comes about. -/
theorem apart_holds : ∃ res, apart.result.1 = .ok res ∧
    List.Forall₂ (fun (f : Forecast) (r : Report) => f.task = r.task ∧ f.expectation.Meets r.outcome)
      [⟨"left", .execute .noHistory⟩, ⟨"right", .upToDate⟩, ⟨"join", .afterDependency⟩] res.reports := by
  have hholds := apart_foreseen.forecast_holds
  rw [apart, forecast_eq, if_pos isIntact_rightRecord, ← apart] at hholds
  obtain ⟨res, hres, -, hmet, -⟩ := hholds
  exact ⟨res, hres, hmet⟩

/-- The file of the second task is gone, but the first task writes it. -/
def shared : Session := session ["o"] .empty

/-- The first task writes the file before it is the turn of the second one. -/
theorem shared_evaluations : ∃ d e rest, shared.evaluations = d :: e :: rest ∧ d.index = 0 ∧ e.index = 1 ∧
    d.site = shared.site ∧ e.site = d.after shared.plan := by
  have hindices : (shared.evaluations.take 2).map (·.index) = [0, 1] := by decide +kernel
  have hcarries : Carries shared.plan shared.site shared.evaluations shared.ended.site := session_live.carries
  generalize shared.evaluations = log at hindices hcarries
  match log with
  | [] => simp at hindices
  | [_] => simp at hindices
  | d :: e :: rest =>
    obtain ⟨hd, he⟩ : d.index = 0 ∧ e.index = 1 := by simpa using hindices
    obtain ⟨hfirst, hrest⟩ := hcarries.of_cons
    exact ⟨d, e, rest, rfl, hd, he, hfirst, hrest.of_cons.1⟩

theorem shared_first {d : Evaluation} (hd : d ∈ shared.evaluations) (hi : d.index = 0)
    (hsite : d.site = shared.site) :
    (d.after shared.plan).world = ⟨write .empty "o", [], [], 0, false, .bare⟩ ∧
      ∃ r ∈ d.published shared.plan, r.locations = [⟨"o"⟩] := by
  have htask : d.task = writer "left" "x" ["o"] := by
    have hlogged := shared.logged.task d hd
    rw [hi] at hlogged
    exact (Option.some.inj hlogged).symm
  have hran : d.ran = (.reported [("x", [⟨"o"⟩])], ⟨write .empty "o", [], [], 0, false, .bare⟩) := by
    rw [Evaluation.ran, htask, hsite]
    rfl
  have hverdict : verdict shared.plan.config d.task d.fingerprint d.site = .error .noHistory := by
    rw [htask, hsite]
    exact left_verdict rfl _ _
  have hlive : shared.Live := session_live
  obtain ⟨hworld, -, hpublished⟩ := Evaluation.concluded_of_due (hlive.uncancelled hd) hverdict
  rw [hran, htask] at hpublished
  rw [hworld, hpublished, hran]
  exact ⟨rfl, ⟨"x", [⟨"o"⟩], digest, some d.fingerprint, some "left", 0⟩, List.mem_singleton_self _, rfl⟩

/-- A session may find a task up to date though it was foreseen to run, where another one reports
the file that is on record for it. -/
theorem shared_fails : (shared.plan.graph.BuiltFrom shared.plan.catalog [] ∧ shared.site.ledger.Opened ∧
      shared.plan.config.failFast = false ∧ shared.Live ∧
      ∀ d ∈ shared.evaluations, ∀ q p, shared.Remembered q p →
        (d.after shared.plan).world.contentAt p = d.site.world.contentAt p ∨
          ∃ r ∈ d.published shared.plan, p ∈ r.locations) ∧
    ∃ entries res, Forecast.make shared.plan.graph shared.supplies shared.site.world shared.site.ledger
        shared.plan.config = .ok entries ∧ shared.result.1 = .ok res ∧
      ⟨"right", .execute .outputsChanged⟩ ∈ entries ∧ ⟨"right", .skipped .upToDate⟩ ∈ res.reports := by
  obtain ⟨res, hx⟩ : ∃ res, shared.Proper res := session_proper
  obtain ⟨d, e, rest, heval, hd, he, hfirst, hsecond⟩ := shared_evaluations
  have hdmem : d ∈ shared.evaluations := by simp [heval]
  have hemem : e ∈ shared.evaluations := by simp [heval]
  obtain ⟨hwritten, r, hr, hlocations⟩ := shared_first hdmem hd hfirst
  have htask : e.task = right := by
    have hlogged := shared.logged.task e hemem
    rw [he] at hlogged
    exact (Option.some.inj hlogged).symm
  have hverdict : verdict shared.plan.config e.task e.fingerprint e.site = .ok [rightRecord] := by
    have hprevious : e.site.ledger.previous = kept := Session.site_previous hx.completed hemem
    have hintact : rightRecord.isIntact e.site.world.files e.site.world.cwd = true := by
      rw [hsecond, hwritten]
      exact isIntact_rightRecord
    have hright := right_verdict hprevious e.site.world
    rw [if_pos hintact] at hright
    rw [Evaluation.fingerprint, htask]
    exact hright
  obtain ⟨l, hreused⟩ := evaluate_of_saved hverdict (hx.previous_at hemem).filed
    (hx.outputs_declared hemem) e.task.action
  have hmissing : rightRecord.isIntact .empty [] = false := rfl
  refine ⟨⟨graph_builtFrom, session_opened, rfl, session_live, fun d' hd' q p hp => ?_⟩,
    _, res, forecast_eq, hx.completed, by simp [hmissing], ?_⟩
  · rw [(of_remembered hp).2]
    have hlogged := shared.logged.task d' hd'
    have hlt : d'.index < 3 := Graph.lt_size_of_task? hlogged
    have hindex : d'.index = 0 ∨ d'.index = 1 ∨ d'.index = 2 := by omega
    rcases hindex with hi | hi | hi
    · obtain rfl := shared.logged.eq_of_index hd' hdmem (hi.trans hd.symm)
      exact Or.inr ⟨r, hr, by simp [hlocations]⟩
    · obtain rfl := shared.logged.eq_of_index hd' hemem (hi.trans he.symm)
      exact Or.inl (congrArg (fun result => result.2.world.contentAt ⟨"o"⟩) hreused)
    · left
      rw [hi] at hlogged
      rcases evaluate_world shared.plan.catalog shared.plan.config d'.task d'.site with hworld | hworld
      · rw [Evaluation.after, hworld]
      · rw [Evaluation.after, hworld, ← Option.some.inj hlogged]
        rfl
  · have hreport := hx.report_mem hemem
    rw [htask, show e.outcome shared.plan = .skipped .upToDate from congrArg Prod.fst hreused] at hreport
    exact hreport

end Shelf

end SlotBuild
