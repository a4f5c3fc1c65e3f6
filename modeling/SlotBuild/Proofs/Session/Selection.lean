import SlotBuild.Proofs.Session.Reschedule

/-! A session over what some targets need and one over the whole graph, from the same start. The
tasks that were selected come to the same in both of them and bind the same records. -/

namespace SlotBuild

open Ledger (recordsAt)
open Coordinator

namespace Session

variable {x y : Session} {res res' : SessionResult} {d e : Evaluation} {targets : List TaskId} {q : TaskId}

/-- The records that a session binds for a task. -/
def boundBy (x : Session) (q : TaskId) : List Record :=
  (x.evaluations.filter fun e => e.task.id = q).flatMap fun e => e.published x.plan

/-- `y` runs what the targets need of the graph of `x`, or the whole graph if there are no targets,
from the same contents and the same ledger; the actions repeat what they do in the other run. -/
structure Selects (y x : Session) (targets : List TaskId) : Prop where
  graph : x.plan.graph.select targets = .ok y.plan.graph ∨ targets = [] ∧ y.plan.graph = x.plan.graph
  catalog : y.plan.catalog = x.plan.catalog
  supplies : y.supplies = x.supplies
  forced : y.plan.config.forceRebuildAll = x.plan.config.forceRebuildAll
  ledger : y.site.ledger = x.site.ledger
  contents : ∀ l, y.site.world.contentAt l = x.site.world.contentAt l
  peaceful : y.Peaceful ∧ x.Peaceful
  repeats : ∀ d ∈ y.evaluations, ∀ e ∈ x.evaluations, d.task.id = e.task.id → d.Repeats e

theorem boundBy_of_evaluated {c : Catalog} (hg : x.plan.graph.Valid c) (he : e ∈ x.evaluations) :
    x.boundBy e.task.id = e.published x.plan := by
  obtain ⟨before, after, hsplit⟩ := List.append_of_mem he
  have hnodup := x.logged.nodup
  rw [hsplit, List.map_append, List.map_cons, List.nodup_append, List.nodup_cons] at hnodup
  have hunique : ∀ e' ∈ x.evaluations, e'.task.id = e.task.id → e'.index = e.index := fun e' he' hid =>
    congrArg Evaluation.index (evaluation_unique hg he' he hid)
  have hbefore : before.filter (fun e' => e'.task.id = e.task.id) = [] := by
    refine List.filter_eq_nil_iff.mpr fun e' he' hid => ?_
    have hindex := hunique e' (hsplit ▸ List.mem_append_left _ he') (by simpa using hid)
    exact hnodup.2.2 e'.index (List.mem_map_of_mem he') e.index List.mem_cons_self hindex
  have hafter : after.filter (fun e' => e'.task.id = e.task.id) = [] := by
    refine List.filter_eq_nil_iff.mpr fun e' he' hid => ?_
    have hindex := hunique e' (hsplit ▸ List.mem_append_right _ (List.mem_cons_of_mem e he'))
      (by simpa using hid)
    exact hnodup.2.1.1 (hindex ▸ List.mem_map_of_mem he')
  rw [boundBy, hsplit, List.filter_append, List.filter_cons_of_pos (by simp), hbefore, hafter]
  simp

theorem boundBy_of_not_evaluated (h : ∀ e ∈ x.evaluations, e.task.id ≠ q) : x.boundBy q = [] := by
  rw [boundBy, List.filter_eq_nil_iff.mpr fun e he => by simpa using h e he, List.flatMap_nil]

namespace Selects

variable (h : y.Selects x targets) (hx : x.Proper res)
include h hx

theorem overlap : (∀ t ∈ y.plan.graph.tasks, t ∈ x.plan.graph.tasks) ∧ y.plan.graph.Agrees x.plan.graph ∧
    List.Forall₂ (y.plan.graph.Shared x.plan.graph) y.plan.graph.order
      (x.plan.graph.order.filter fun i => (x.plan.graph.task? i).any fun t => y.plan.graph.has t.id) := by
  rcases h.graph with hselect | ⟨-, heq⟩
  · exact ⟨(Graph.select_valid hx.valid hselect).1, Graph.select_agrees hx.valid hselect⟩
  · rw [heq]
    refine ⟨fun t ht => ht, hx.valid.agrees_self, ?_⟩
    have hall : ∀ i ∈ x.plan.graph.order, ∃ t, x.plan.graph.task? i = some t := fun i hi =>
      Graph.exists_task? (List.mem_range.mp ((Graph.order_perm hx.valid.acyclic).mem_iff.mp hi))
    have hself :
        (x.plan.graph.order.filter fun i => (x.plan.graph.task? i).any fun t => x.plan.graph.has t.id) =
        x.plan.graph.order := by
      refine List.filter_eq_self.mpr fun i hi => ?_
      obtain ⟨t, ht⟩ := hall i hi
      rw [ht, Option.any_some]
      exact Graph.has_iff.mpr ⟨t, List.mem_of_getElem? ht, rfl⟩
    rw [hself]
    refine List.forall₂_same.mpr fun i hi => ?_
    obtain ⟨t, ht⟩ := hall i hi
    exact ⟨t, ht, ht⟩

theorem concurs : y.Concurs x where
  catalog := h.catalog
  graph := (h.overlap hx).2.1
  supplies := h.supplies
  forced := h.forced
  ledger := h.ledger
  contents := h.contents
  peaceful := h.peaceful
  repeats d hd e he htask := h.repeats d hd e he (congrArg Task.id htask)

theorem proper : ∃ res', y.Proper res' := by
  obtain ⟨res', hres'⟩ := exists_result_of_sources h.catalog h.supplies
    (h.concurs hx).overlaps.sources hx.completed
  refine ⟨res', ?_, h.ledger ▸ hx.ledger, hres'⟩
  rw [h.catalog, h.supplies]
  rcases h.graph with hselect | ⟨-, heq⟩
  · exact .select hx.graph hselect
  · rw [heq]
    exact hx.graph

theorem reports_alike (hy : y.Proper res') :
    List.Forall₂ Report.Alike res'.reports (res.reports.filter fun r => y.plan.graph.has r.task) := by
  have hkept : (res.reports.filter fun r => y.plan.graph.has r.task) =
      (x.plan.graph.order.filter fun i => (x.plan.graph.task? i).any fun t => y.plan.graph.has t.id).filterMap
        fun i => (x.plan.graph.task? i).map fun t => ⟨t.id, x.ended.outcomeOf i⟩ := by
    rw [(result_of_ok hx.completed).1, reports, List.filter_filterMap, List.filterMap_filter]
    refine List.filterMap_congr fun i _ => ?_
    cases x.plan.graph.task? i with
    | none => simp
    | some t => cases hhas : y.plan.graph.has t.id <;> simp [hhas]
  rw [hkept, (result_of_ok hy.completed).1]
  exact (h.concurs hx).reports_alike hx hy (h.overlap hx).2.2

/-- A selected task is evaluated in both sessions or in none. -/
theorem evaluated_cases (hy : y.Proper res') (hq : y.plan.graph.has q = true) :
    (∃ d ∈ y.evaluations, ∃ e ∈ x.evaluations, d.task = e.task ∧ d.task.id = q) ∨
      (∀ d ∈ y.evaluations, d.task.id ≠ q) ∧ ∀ e ∈ x.evaluations, e.task.id ≠ q := by
  obtain ⟨t, ht, rfl⟩ := Graph.has_iff.mp hq
  by_cases hturn : ∃ d ∈ y.evaluations, d.task.id = t.id
  · obtain ⟨d, hd, hid⟩ := hturn
    obtain ⟨e, he, htask⟩ := (h.concurs hx).exists_evaluation hx hy hd ((h.overlap hx).1 _ (task_mem hd))
    exact Or.inl ⟨d, hd, e, he, htask, hid⟩
  · push Not at hturn
    refine Or.inr ⟨hturn, fun e he hid => ?_⟩
    obtain rfl := hx.task_eq he ((h.overlap hx).1 t ht) hid
    obtain ⟨d, hd, htask⟩ := (h.concurs hx).symm.exists_evaluation hy hx he ht
    exact hturn d hd (congrArg Task.id htask.symm)

theorem boundBy_eq (hy : y.Proper res') (hq : y.plan.graph.has q = true) :
    (y.boundBy q).map Record.undated = (x.boundBy q).map Record.undated := by
  rcases h.evaluated_cases hx hy hq with ⟨d, hd, e, he, htask, rfl⟩ | ⟨hnone, hnone'⟩
  · have hmatch := (h.concurs hx).matched hx hy hd he htask
    rw [boundBy_of_evaluated hy.valid hd, htask, boundBy_of_evaluated hx.valid he]
    exact hmatch.published
  · rw [boundBy_of_not_evaluated hnone, boundBy_of_not_evaluated hnone']

theorem boundBy_eq_of_reuse (hy : y.Proper res') {report : Report} (hr : report ∈ res'.reports)
    (hup : report.outcome = .skipped .upToDate) : y.boundBy report.task = x.boundBy report.task := by
  obtain ⟨d, hd, hid, ho⟩ := hy.exists_evaluation hr (by rw [hup]; rfl)
  obtain ⟨e, he, htask⟩ := (h.concurs hx).exists_evaluation hx hy hd ((h.overlap hx).1 _ (task_mem hd))
  rw [← hid, boundBy_of_evaluated hy.valid hd, htask, boundBy_of_evaluated hx.valid he]
  exact (h.concurs hx).published_eq_of_reuse hx hy hd he htask (ho.trans hup)

omit hx in
theorem has_target (hq : q ∈ targets) : y.plan.graph.has q = true := by
  rcases h.graph with hselect | ⟨rfl, -⟩
  · exact Graph.has_of_select hselect q hq
  · simp at hq

theorem recordsBy_eq (hy : y.Proper res') (hq : y.plan.graph.has q = true) (hturn : ¬ y.LeftAlone res' q)
    (s : SlotId) : (y.final.current.recordsBy s (some q)).map Record.undated =
      (x.final.current.recordsBy s (some q)).map Record.undated := by
  obtain ⟨d, hd, rfl⟩ := hy.exists_evaluation_of_turn hturn
  obtain ⟨e, he, htask⟩ := (h.concurs hx).exists_evaluation hx hy hd ((h.overlap hx).1 _ (task_mem hd))
  rw [htask]
  exact (h.concurs hx).recordsBy_of_evaluated hx hy hd he htask s

end Selects

/-- Selected tasks come to the same as in a run of everything. The session comes to its end as well,
its reports are those of the whole run for the tasks that were selected, in the same order, though a
task that is blocked may name another failure, and for each of these tasks and from the supplies the
same records are bound, apart from the times. -/
theorem selected_as_in_whole {x y : Session} {targets : List TaskId} {res : SessionResult} (hx : x.Proper res)
    (h : y.Selects x targets) : ∃ res', y.result.1 = .ok res' ∧
      (∀ q ∈ targets, y.plan.graph.has q = true) ∧
      List.Forall₂ Report.Alike res'.reports (res.reports.filter fun r => y.plan.graph.has r.task) ∧
      (∀ q, y.plan.graph.has q = true →
        (y.boundBy q).map Record.undated = (x.boundBy q).map Record.undated ∧
        (¬ y.LeftAlone res' q → ∀ s, (y.final.current.recordsBy s (some q)).map Record.undated =
          (x.final.current.recordsBy s (some q)).map Record.undated)) ∧
      (∀ report ∈ res'.reports, report.outcome = .skipped .upToDate →
        y.boundBy report.task = x.boundBy report.task) ∧
      ∀ s, (y.final.current.recordsBy s none).map Record.undated =
        (x.final.current.recordsBy s none).map Record.undated := by
  obtain ⟨res', hy⟩ := h.proper hx
  exact ⟨res', hy.completed, fun q hq => h.has_target hq, h.reports_alike hx hy,
    fun q hq => ⟨h.boundBy_eq hx hy hq, h.recordsBy_eq hx hy hq⟩, fun _ => h.boundBy_eq_of_reuse hx hy,
    (h.concurs hx).recordsBy_supplied hx hy⟩

end Session

namespace Parts

/-- What the second part needs, which is nothing but itself. -/
def alone : Session :=
  { inOrder with plan := { inOrder.plan with graph := ⟨[writer "right" "parts"], [], [("parts", [0])], []⟩ } }

theorem alone_selected : inOrder.plan.graph.select ["right"] = .ok alone.plan.graph := rfl

theorem alone_completed : ∃ res, alone.result.1 = .ok res := Session.exists_result rfl

theorem alone_peaceful : alone.Peaceful := by
  obtain ⟨res, hres⟩ := alone_completed
  have hindex : ∀ e ∈ alone.evaluations, e.index = 0 := fun e he =>
    Nat.lt_one_iff.mp (Graph.lt_size_of_task? (alone.logged.task e he))
  have hlive : alone.Live := Session.live_of_quiet hres (by simp [alone, inOrder, session]) rfl
    fun t ht call w hw => by
      obtain rfl := List.mem_singleton.mp ht
      exact hw
  refine ⟨rfl, hlive, fun d hd l hl => ?_⟩
  rcases hl with ⟨m, hm, -⟩ | ⟨e, he, hne, -⟩
  · simp [alone, inOrder, session, mergedSupplies] at hm
  · exact absurd ((hindex e he).trans (hindex d hd).symm) hne

theorem alone_selects : alone.Selects inOrder ["right"] where
  graph := Or.inl alone_selected
  catalog := rfl
  supplies := rfl
  forced := rfl
  ledger := rfl
  contents _ := rfl
  peaceful := ⟨alone_peaceful, inOrder_peaceful⟩
  repeats := by
    have hran : ∀ d ∈ alone.evaluations, ∀ e ∈ inOrder.evaluations, d.task.id = e.task.id →
        d.ran.1 = e.ran.1 ∧ e.ran.1 = .reported (e.task.outputs.map fun s => (s, [⟨e.task.id⟩])) ∧
          d.ran.2.SameFile e.ran.2 ⟨e.task.id⟩ := by decide +kernel
    exact fun d hd e he hid => repeats_of_ran (hran d hd e he hid)

/-- The second part is made on its own as it is made along with the rest. -/
theorem alone_as_in_whole : alone.evaluations.map (·.index) = [0] ∧
    inOrder.evaluations.map (·.index) = [0, 1, 2] ∧
    (alone.boundBy "right").map Record.undated = (inOrder.boundBy "right").map Record.undated := by
  obtain ⟨res, h⟩ := session_proper 1 []
  obtain ⟨res', -, hkept, -, hbound, -⟩ := Session.selected_as_in_whole h alone_selects
  exact ⟨by decide +kernel, by decide +kernel, (hbound "right" (hkept "right" List.mem_cons_self)).1⟩

end Parts

end SlotBuild
