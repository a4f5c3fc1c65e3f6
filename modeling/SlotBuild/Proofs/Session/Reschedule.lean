import SlotBuild.Proofs.Session.Concurrence

/-! The schedule of a session does not matter. If the tasks keep to themselves, any number of
workers that finish in any order come to the same reports and leave the same records. -/

namespace SlotBuild

open Ledger (recordsAt)
open Coordinator

namespace Session

variable {x y : Session} {res res' : SessionResult}

/-- Two runs of the same graph and supplies, from the same contents and the same ledger, with any
number of workers that finish in any order; the actions repeat what they do in the other run. -/
structure Reschedules (y x : Session) : Prop where
  catalog : y.plan.catalog = x.plan.catalog
  graph : y.plan.graph = x.plan.graph
  supplies : y.supplies = x.supplies
  forced : y.plan.config.forceRebuildAll = x.plan.config.forceRebuildAll
  ledger : y.site.ledger = x.site.ledger
  contents : ∀ l, y.site.world.contentAt l = x.site.world.contentAt l
  peaceful : y.Peaceful ∧ x.Peaceful
  repeats : ∀ d ∈ y.evaluations, ∀ e ∈ x.evaluations, d.index = e.index → d.Repeats e

namespace Reschedules

theorem mirrors (h : y.Reschedules x) : y.Mirrors x :=
  ⟨h.catalog, h.graph, h.supplies, fun _ _ => World.fingerprint_congr fun l _ => h.contents l⟩

theorem proper (h : y.Reschedules x) (hx : x.Proper res) : ∃ res', y.Proper res' := by
  obtain ⟨res', hres'⟩ := h.mirrors.completes hx.completed
  have hgraph := hx.graph
  rw [← h.graph, ← h.catalog, ← h.supplies] at hgraph
  exact ⟨res', hgraph, h.ledger ▸ hx.ledger, hres'⟩

theorem concurs (h : y.Reschedules x) (hx : x.Proper res) : y.Concurs x where
  catalog := h.catalog
  graph := (h.mirrors.overlaps hx).graph
  supplies := h.supplies
  forced := h.forced
  ledger := h.ledger
  contents := h.contents
  peaceful := h.peaceful
  repeats d hd e he htask := h.repeats d hd e he (h.mirrors.index_eq hx hd he htask)

theorem symm (h : y.Reschedules x) : x.Reschedules y where
  catalog := h.catalog.symm
  graph := h.graph.symm
  supplies := h.supplies.symm
  forced := h.forced.symm
  ledger := h.ledger.symm
  contents l := (h.contents l).symm
  peaceful := h.peaceful.symm
  repeats e he d hd hi := (h.repeats d hd e he hi.symm).symm

theorem reports_alike (h : y.Reschedules x) (hx : x.Proper res) (hy : y.Proper res') :
    List.Forall₂ Report.Alike res'.reports res.reports := by
  rw [(result_of_ok hy.completed).1, (result_of_ok hx.completed).1, reports, reports]
  refine (h.concurs hx).reports_alike hx hy ?_
  rw [h.graph]
  refine List.forall₂_same.mpr fun i hi => ?_
  have hlt := List.mem_range.mp ((Graph.order_perm hx.valid.acyclic).mem_iff.mp hi)
  obtain ⟨t, ht⟩ := Graph.exists_task? hlt
  exact ⟨t, ht, ht⟩

theorem leftAlone (h : y.Reschedules x) (hx : x.Proper res) (hy : y.Proper res') {q : TaskId}
    (hq : x.LeftAlone res q) : y.LeftAlone res' q := by
  rcases hq with hnone | ⟨report, hr, hid, hun⟩
  · exact Or.inl (h.graph ▸ hnone)
  · obtain ⟨report', hr', htask, houtcome⟩ := exists_left_of_forall₂ (h.reports_alike hx hy) report hr
    exact Or.inr ⟨report', hr', htask.trans hid, houtcome.isUnattempted_eq.trans hun⟩

theorem room (h : y.Reschedules x) (hx : x.Proper res) (hy : y.Proper res') {s : SlotId} {q : TaskId}
    (hroom : x.Room res s q) : y.Room res' s q := by
  obtain ⟨slot, hslot, hroom⟩ := hroom
  refine ⟨slot, h.catalog ▸ hslot, fun happ => ?_⟩
  obtain ⟨hsupplies, hmade, hbefore⟩ := hroom happ
  refine ⟨h.supplies ▸ hsupplies, fun t ht hs report' hr' hid => ?_, fun q' hq' hlt => ?_⟩
  · obtain ⟨report, hr, htask, houtcome⟩ := exists_right_of_forall₂ (h.reports_alike hx hy) report' hr'
    rw [houtcome.isSuccess_eq]
    exact hmade t (h.graph ▸ ht) hs report hr (htask.symm.trans hid)
  · rw [h.ledger]
    exact hbefore q' (h.symm.leftAlone hy hx hq') hlt

theorem recordsBy_of_leftAlone (h : y.Reschedules x) (hx : x.Proper res) (hy : y.Proper res') {q : TaskId}
    (hq : x.LeftAlone res q) (s : SlotId) :
    y.final.current.recordsBy s (some q) = x.final.current.recordsBy s (some q) := by
  have hq' := h.leftAlone hx hy hq
  by_cases hroom : x.Room res s q
  · rw [hy.final_of_room hq' (h.room hx hy hroom), hx.final_of_room hq hroom, h.ledger]
  · have hroom' : ¬ y.Room res' s q := fun hroom' => hroom (h.symm.room hy hx hroom')
    rw [hy.final_of_no_room hq' hroom', hx.final_of_no_room hq hroom]

theorem records_eq (h : y.Reschedules x) (hx : x.Proper res) (hy : y.Proper res') (s : SlotId) :
    (y.final.currentRecords s).map Record.undated = (x.final.currentRecords s).map Record.undated := by
  refine Generation.undated_eq_of_recordsBy hy.final_tidy.single hx.final_tidy.single fun q => ?_
  cases q with
  | none => exact (h.concurs hx).recordsBy_supplied hx hy s
  | some q =>
    by_cases hq : x.LeftAlone res q
    · rw [h.recordsBy_of_leftAlone hx hy hq]
    · obtain ⟨e, he, rfl⟩ := hx.exists_evaluation_of_turn hq
      obtain ⟨d, hd, htask⟩ := (h.concurs hx).symm.exists_evaluation hy hx he (h.graph ▸ task_mem he)
      exact (h.concurs hx).recordsBy_of_evaluated hx hy hd he htask.symm s

end Reschedules

/-- The schedule of a session does not matter: with another number of workers that finish in another
order it comes to an end as well, reports the same for every task, though a task that is blocked may
name another failure, and lists the same records in each slot, apart from the times. -/
theorem unaffected_by_schedule {x y : Session} {res : SessionResult} (hx : x.Proper res)
    (h : y.Reschedules x) : ∃ res', y.result.1 = .ok res' ∧
      List.Forall₂ Report.Alike res'.reports res.reports ∧
      ∀ s, (y.final.currentRecords s).map Record.undated = (x.final.currentRecords s).map Record.undated := by
  obtain ⟨res', hy⟩ := h.proper hx
  exact ⟨res', hy.completed, h.reports_alike hx hy, h.records_eq hx hy⟩

end Session

/-! Two tasks that fill one slot, and a third one that reads it. -/

namespace Parts

/-- Writes a file that bears its name. -/
def writer (id : TaskId) (s : SlotId) : Task := (Task.make id fun _ w =>
  (.reported [(s, [⟨id⟩])], { w with files := w.files.put [id] (.file (Bytes.ofString id)) })).withOutput s

def catalog : Catalog :=
  ⟨[Slot.shared "parts" .file .intermediates, Slot.multiple "whole" .file .outputs]⟩

def graph : Graph where
  tasks := [writer "left" "parts", writer "right" "parts", (writer "join" "whole").withInput "parts"]
  edges := [⟨0, 2, "parts"⟩, ⟨1, 2, "parts"⟩]
  producers := [("parts", [0, 1]), ("whole", [2])]
  supplied := []

def session (workers : Nat) (moves : List Move) : Session where
  plan := ⟨catalog, graph, ⟨workers, false, false⟩⟩
  supplies := []
  moves := moves
  site := ⟨.empty ⟨"state"⟩, ⟨.empty, [], [], 0, false, .bare⟩⟩

def inOrder : Session := session 1 []

def crossed : Session := session 2 [.coordinate, .coordinate, .work 1, .work 0]

theorem graph_builtFrom : graph.BuiltFrom catalog [] :=
  .build (show Graph.build catalog [] graph.tasks = .ok graph from rfl)

theorem session_proper (workers : Nat) (moves : List Move) : ∃ res, (session workers moves).Proper res := by
  obtain ⟨res, hres⟩ : ∃ res, (session workers moves).result.1 = .ok res := Session.exists_result rfl
  exact ⟨res, graph_builtFrom, .inl ⟨⟨"state"⟩, rfl⟩, hres⟩

theorem session_live {workers : Nat} {moves : List Move} (hmoves : Move.cancel ∉ moves) :
    (session workers moves).Live := by
  obtain ⟨res, h⟩ := session_proper workers moves
  refine Session.live_of_quiet h.completed hmoves rfl fun t ht call w hw => ?_
  simp only [session, graph, List.mem_cons, List.not_mem_nil, or_false] at ht
  rcases ht with rfl | rfl | rfl <;> exact hw

theorem session_peaceful {workers : Nat} {moves : List Move} (hmoves : Move.cancel ∉ moves)
    (hapart : ∀ d ∈ (session workers moves).evaluations, ∀ e ∈ (session workers moves).evaluations,
      e.index ≠ d.index → ∀ r ∈ e.published (session workers moves).plan, ∀ l ∈ r.locations,
        (d.after (session workers moves).plan).world.SameFile d.site.world l) :
    (session workers moves).Peaceful := by
  refine ⟨rfl, session_live hmoves, fun d hd l hl => ?_⟩
  obtain ⟨res, h⟩ := session_proper workers moves
  rcases hl with ⟨m, hm, -⟩ | ⟨e, he, hne, ⟨r, hr, hl⟩ | ⟨s, r, hr, -⟩⟩
  · simp [session, mergedSupplies] at hm
  · exact (hapart d hd e he hne r hr l hl).contentAt_eq
  · have hprevious : e.site.ledger.previous = .empty := Session.site_previous h.completed he
    have hold := (mem_previousRecords.mp hr).1
    simp [hprevious] at hold

theorem crossed_peaceful : crossed.Peaceful := session_peaceful (by simp) (by decide +kernel)

theorem inOrder_peaceful : inOrder.Peaceful := session_peaceful (by simp) (by decide +kernel)

/-- What two executions have made is the same if both report the same and each part is in a file of
its own. -/
theorem repeats_of_ran {d e : Evaluation} (hran : d.ran.1 = e.ran.1 ∧
    e.ran.1 = .reported (e.task.outputs.map fun s => (s, [⟨e.task.id⟩])) ∧
      d.ran.2.SameFile e.ran.2 ⟨e.task.id⟩) : d.Repeats e := by
  obtain ⟨hresult, hreport, hfile⟩ := hran
  intro _ _
  refine ⟨hresult, fun outputs houtputs m hm l hl => ?_⟩
  obtain rfl := ActionResult.reported.inj (hreport.symm.trans houtputs)
  obtain ⟨s, -, rfl⟩ := List.mem_map.mp hm
  rw [List.mem_singleton.mp hl]
  exact hfile.contentAt_eq

theorem crossed_reschedules : crossed.Reschedules inOrder where
  catalog := rfl
  graph := rfl
  supplies := rfl
  forced := rfl
  ledger := rfl
  contents _ := rfl
  peaceful := ⟨crossed_peaceful, inOrder_peaceful⟩
  repeats := by
    have hran : ∀ d ∈ crossed.evaluations, ∀ e ∈ inOrder.evaluations, d.index = e.index →
        d.ran.1 = e.ran.1 ∧ e.ran.1 = .reported (e.task.outputs.map fun s => (s, [⟨e.task.id⟩])) ∧
          d.ran.2.SameFile e.ran.2 ⟨e.task.id⟩ := by decide +kernel
    exact fun d hd e he hi => repeats_of_ran (hran d hd e he hi)

/-- Though the two parts are finished in different orders, nobody can tell from what is left. -/
theorem crossed_unaffected : inOrder.evaluations.map (·.index) = [0, 1, 2] ∧
    crossed.evaluations.map (·.index) = [1, 0, 2] ∧
    ∃ res res', inOrder.result.1 = .ok res ∧ crossed.result.1 = .ok res' ∧
      List.Forall₂ Report.Alike res'.reports res.reports ∧
      ∀ s, (crossed.final.currentRecords s).map Record.undated =
        (inOrder.final.currentRecords s).map Record.undated := by
  obtain ⟨res, h⟩ := session_proper 1 []
  obtain ⟨res', hres', hreports, hrecords⟩ := Session.unaffected_by_schedule h crossed_reschedules
  exact ⟨by decide +kernel, by decide +kernel, res, res', h.completed, hres', hreports, hrecords⟩

end Parts

end SlotBuild
