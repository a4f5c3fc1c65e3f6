import SlotBuild.Proofs.Session.Mirror
import SlotBuild.Proofs.Session.World

/-! A session after another one, on what that one has left. What was finished is not done again as
long as it is still there, wherever the first session may have stopped. -/

namespace SlotBuild

open Ledger (recordsAt)
open Coordinator

namespace Session

/-- `y` runs the graph of `x` again on the state that `x` has left, and neither forces nor gives up
anything. What is supplied, and what the tasks of `x` have recorded, is as `x` has found it when it
took its fingerprint: the supplies when `y` begins, the outputs when `y` comes to their task. -/
structure Follows (y x : Session) : Prop where
  mirrors : y.Mirrors x
  loads : ∃ files cwd path, files.read cwd path = .ok x.final.current.toBytes ∧
    Ledger.load files cwd path = .ok y.site.ledger
  outputs : ∀ d ∈ x.evaluations, (d.outcome x.plan).isSuccess = true → ∀ r ∈ d.published x.plan,
    ∀ e ∈ y.evaluations, e.index = d.index →
      e.site.world.files.fingerprint e.site.world.cwd r.locations =
        (d.after x.plan).world.files.fingerprint (d.after x.plan).world.cwd r.locations
  unforced : y.plan.config.forceRebuildAll = false
  patient : y.plan.config.failFast = false
  live : y.Live

namespace Follows

variable {x y : Session} {res res' : SessionResult} {d e : Evaluation}

theorem previous_eq (h : y.Follows x) : y.site.ledger.previous = x.final.current := by
  obtain ⟨files, cwd, path, hread, hload⟩ := h.loads
  rw [Ledger.eq_after_of_saved hread hload]
  rfl

theorem proper (h : y.Follows x) (hx : x.Proper res) : ∃ res', y.Proper res' := by
  obtain ⟨files, cwd, path, hread, hload⟩ := h.loads
  obtain ⟨res', hres'⟩ := h.mirrors.completes hx.completed
  have hgraph := hx.graph
  rw [← h.mirrors.graph, ← h.mirrors.catalog, ← h.mirrors.supplies] at hgraph
  exact ⟨res', hgraph, .inr ⟨files, cwd, path, x.final, hx.kept, hread, hload⟩, hres'⟩

/-- The records of an earlier run stand for the task. -/
def Reuses (y : Session) (e : Evaluation) : Prop :=
  ∃ rs, verdict y.plan.config e.task e.fingerprint e.site = .ok rs

theorem Reuses.evaluate_eq (h : Reuses y e) (hy : y.Proper res') (he : e ∈ y.evaluations) (action : Action) :
    ∃ l, evaluate y.plan.catalog y.plan.config { e.task with action := action } e.site =
      (.skipped .upToDate, { e.site with ledger := l }) := by
  obtain ⟨rs, hrs⟩ := h
  exact evaluate_of_saved hrs (hy.previous_at he).filed (hy.outputs_declared he) action

theorem Reuses.outcome_eq (h : Reuses y e) (hy : y.Proper res') (he : e ∈ y.evaluations) :
    e.outcome y.plan = .skipped .upToDate := by
  obtain ⟨l, hl⟩ := h.evaluate_eq hy he e.task.action
  exact congrArg Prod.fst hl

/-- Where `y` reuses what `x` has bound, it binds nothing else. -/
theorem agree (h : y.Follows x) (hx : x.Proper res) (hy : y.Proper res') (hd : d ∈ x.evaluations)
    (hod : (d.outcome x.plan).isSuccess = true) (he : e ∈ y.evaluations) (hi : e.index = d.index)
    (hreuse : Reuses y e) {r r' : Record} (hr : r ∈ e.published y.plan) (hr' : r' ∈ d.published x.plan)
    (hslot : r.slot = r'.slot) : r = r' := by
  have htask := h.mirrors.task_eq he hd hi
  have hev := e.evaluated y.plan
  rw [hreuse.outcome_eq hy he] at hev
  obtain ⟨s, -, hs, hq⟩ := hev.published_old (by simp) hr
  rw [site_previous hy.completed he, h.previous_eq] at hs
  rw [htask] at hq
  have hpub := (hx.published_of_final hd (Outcome.not_unattempted_of_success hod) hs hq).1
  exact (d.evaluated x.plan).published_unique (hx.previous_at hd) hpub hr' hslot

/-- What an execution has published stands for the task as long as the inputs have the same
fingerprint and it is still there. -/
theorem Reuses.of_success (hx : x.Proper res) (hy : y.result.1 = .ok res')
    (hprev : y.site.ledger.previous = x.final.current) (hforce : y.plan.config.forceRebuildAll = false)
    (hd : d ∈ x.evaluations) (hod : (d.outcome x.plan).isSuccess = true) (hne : d.task.outputs ≠ [])
    (he : e ∈ y.evaluations) (htask : e.task = d.task) (hfingerprint : e.fingerprint = d.fingerprint)
    (hthere : ∀ r ∈ d.published x.plan, e.site.world.files.fingerprint e.site.world.cwd r.locations =
      (d.after x.plan).world.files.fingerprint (d.after x.plan).world.cwd r.locations) : Reuses y e := by
  have hprev : e.site.ledger.previous = x.final.current := (site_previous hy he).trans hprev
  have hsome : ∀ s ∈ e.task.outputs, e.site.ledger.previousRecords s (some e.task.id) ≠ [] := by
    intro s hs
    rw [htask] at hs ⊢
    obtain ⟨r, -, -, hone⟩ := hx.final_of_success hd hod hs
    rw [Ledger.previousRecords, hprev]
    simp only [Generation.recordsBy] at hone
    simp [hone]
  obtain ⟨rs, hrs⟩ := exists_history (htask ▸ hne) hsome
  have hrecorded : ∀ r ∈ rs, r ∈ d.published x.plan := by
    intro r hr
    obtain ⟨s, -, hs, hq⟩ := ((history?_eq_some hrs).2.2 r).mp hr
    rw [hprev] at hs
    rw [htask] at hq
    exact (hx.published_of_final hd (Outcome.not_unattempted_of_success hod) hs hq).1
  refine ⟨rs, verdict_of_history hforce hrs (fun r hr => ?_) fun r hr => ?_⟩
  · rw [hfingerprint]
    exact ((d.evaluated x.plan).recorded (hrecorded r hr)).1
  · have hfound := ((d.evaluated x.plan).recorded (hrecorded r hr)).2
    rw [← hthere r (hrecorded r hr)] at hfound
    simp [Record.isIntact, hfound]

/-- All that the task of `d` depends on has succeeded in `x` and is reused. -/
def Prepared (y x : Session) (d : Evaluation) : Prop :=
  ∀ j, x.plan.graph.Precedes j d.index → ∃ d' ∈ x.evaluations, d'.index = j ∧
    (d'.outcome x.plan).isSuccess = true ∧ ∃ e' ∈ y.evaluations, e'.index = j ∧ Reuses y e'

theorem Prepared.of_reuse (hx : x.Proper res) (hd : d ∈ x.evaluations)
    (hreuse : ∀ d' ∈ x.evaluations, x.plan.graph.Precedes d'.index d.index →
      (d'.outcome x.plan).isSuccess = true → d'.task.outputs ≠ [] →
        ∃ e' ∈ y.evaluations, e'.index = d'.index ∧ Reuses y e') : Prepared y x d := by
  intro j hj
  obtain ⟨d', hd', rfl, hod', r, hpub, -⟩ := exists_maker hx.valid hd
    (fun s => gathered hx.graph hx.fresh hx.previous.filed hx.completed hd) hj
  have hout := published_slot (hx.previous_at hd').filed hpub
  exact ⟨d', hd', rfl, hod', hreuse d' hd' hj hod' (List.ne_nil_of_mem hout)⟩

theorem Prepared.inputs_perm (hready : Prepared y x d) (h : y.Follows x) (hx : x.Proper res)
    (hy : y.Proper res')
    (he : e ∈ y.evaluations) (hd : d ∈ x.evaluations) (hi : e.index = d.index) {s : SlotId}
    (hs : s ∈ d.task.inputs) : ((e.site.ledger.currentRecords s).map Record.undated).Perm
      ((d.site.ledger.currentRecords s).map Record.undated) := by
  refine h.mirrors.inputs_perm hx hy he hd hi (fun e' he' d' hd' hij hprec _ hod' r hr r' hr' hslot => ?_) hs
  obtain ⟨-, -, -, -, e'', he'', hei'', hreuse⟩ := hready _ hprec
  obtain rfl := y.logged.eq_of_index he'' he' (hei''.trans hij.symm)
  rw [h.agree hx hy hd' hod' he' hij hreuse hr hr' hslot]

/-- By induction along the graph: what a task depends on has succeeded in `x` and is reused, so the
task gets its turn and finds the inputs that it had. -/
theorem exists_reuse (h : y.Follows x) (hx : x.Proper res) (hy : y.Proper res') :
    ∀ i < x.plan.graph.size, ∀ d ∈ x.evaluations, d.index = i → (d.outcome x.plan).isSuccess = true →
      d.task.outputs ≠ [] → ∃ e ∈ y.evaluations, e.index = i ∧ Reuses y e := by
  have hsteady := h.live.steady fun e _ => by rw [h.patient, Bool.false_and]
  refine hx.valid.acyclic.induction fun i hi ih d hd hdi hod hne => ?_
  have hready : Prepared y x d := .of_reuse hx hd fun d' hd' hprec => ih d'.index (hdi ▸ hprec) d' hd' rfl
  have hsize : i < y.plan.graph.size := h.mirrors.graph ▸ hi
  obtain ⟨o, ho⟩ := y.logged.coherent.all_settled hy.valid.acyclic y.ended_isDone i hsize
  obtain ⟨e, he, hei, -⟩ := hsteady.exists_evaluation ho fun j o' hj ho' => by
    rw [h.mirrors.graph, ← hdi] at hj
    obtain ⟨-, -, -, -, e', he', rfl, hreuse⟩ := hready j hj
    have houtcome := y.settled he'
    rw [hreuse.outcome_eq hy he', ho'] at houtcome
    rw [Option.some.inj houtcome]
    rfl
  have hindex : e.index = d.index := hei.trans hdi.symm
  have htask := h.mirrors.task_eq he hd hindex
  have hfingerprint : e.fingerprint = d.fingerprint :=
    Evaluation.fingerprint_eq htask fun s hs => hready.inputs_perm h hx hy he hd hindex hs
  exact ⟨e, he, hei, .of_success hx hy.completed (h.previous_eq) h.unforced hd hod hne he htask hfingerprint
    fun r hr => h.outputs d hd hod r hr e he hindex⟩

/-- A task that is evaluated in both sessions finds the inputs that it had. -/
theorem inputs_perm (h : y.Follows x) (hx : x.Proper res) (hy : y.Proper res') (he : e ∈ y.evaluations)
    (hd : d ∈ x.evaluations) (hi : e.index = d.index) {s : SlotId} (hs : s ∈ d.task.inputs) :
    ((e.site.ledger.currentRecords s).map Record.undated).Perm
      ((d.site.ledger.currentRecords s).map Record.undated) := by
  have hready : Prepared y x d := .of_reuse hx hd fun d' hd' _ =>
    h.exists_reuse hx hy d'.index (Graph.lt_size_of_task? (x.logged.task d' hd')) d' hd' rfl
  exact hready.inputs_perm h hx hy he hd hi hs

/-- Where all is finished, nothing is left to be done. -/
theorem reports_upToDate (h : y.Follows x) (hx : x.Proper res) (hy : y.Proper res')
    (hall : ∀ report ∈ res.reports, report.outcome.isSuccess = true)
    (hmade : ∀ t ∈ x.plan.graph.tasks, t.outputs ≠ []) :
    ∀ report ∈ res'.reports, report.outcome = .skipped .upToDate := by
  intro report hreport
  rw [(result_of_ok hy.completed).1] at hreport
  obtain ⟨i, t, ht, rfl⟩ := mem_reports hreport
  rw [h.mirrors.graph] at ht
  obtain ⟨d, hd, rfl, rfl, hod⟩ := exists_success hx.valid hx.completed hall ht
  obtain ⟨e, he, hei, hreuse⟩ := h.exists_reuse hx hy d.index (Graph.lt_size_of_task? ht) d hd rfl hod
    (hmade d.task (task_mem hd))
  rw [← hei, outcomeOf_eq (y.settled he), hreuse.outcome_eq hy he]

theorem recordsBy_eq (h : y.Follows x) (hx : x.Proper res) (hy : y.Proper res') (hd : d ∈ x.evaluations)
    (hod : (d.outcome x.plan).isSuccess = true) (he : e ∈ y.evaluations) (hi : e.index = d.index)
    (hreuse : Reuses y e) (s : SlotId) :
    y.final.current.recordsBy s (some d.task.id) = x.final.current.recordsBy s (some d.task.id) := by
  have htask := h.mirrors.task_eq he hd hi
  have houtcome := hreuse.outcome_eq hy he
  by_cases hs : s ∈ d.task.outputs
  · obtain ⟨r, hpub, rfl, hone⟩ := hy.final_of_success he (by rw [houtcome]; rfl) (htask ▸ hs)
    have hold := hy.previous_of_reuse he houtcome hpub
    rw [Ledger.previousRecords, h.previous_eq] at hold
    rw [htask] at hone hold
    rw [hone, ← hold]
    rfl
  · have hfinal := hy.final_of_notMem_outputs he (by rw [houtcome]; rfl) (htask ▸ hs)
    rw [htask] at hfinal
    rw [hfinal, hx.final_of_notMem_outputs hd (Outcome.not_unattempted_of_success hod) hs]

end Follows

/-- What a session has finished, one that follows it passes as up to date: it comes to an end, the
action of the task plays no part in it, and it leaves the same records of the task. -/
theorem finished_not_redone {x y : Session} {res : SessionResult} (hx : x.Proper res) (h : y.Follows x) :
    ∃ res', y.result.1 = .ok res' ∧ ∀ t ∈ x.plan.graph.tasks, t.outputs ≠ [] →
      (∃ report ∈ res.reports, report.task = t.id ∧ report.outcome.isSuccess = true) →
      (⟨t.id, .skipped .upToDate⟩ : Report) ∈ res'.reports ∧
      (∀ report ∈ res'.reports, report.task = t.id → report.outcome = .skipped .upToDate) ∧
      (∀ e ∈ y.evaluations, e.task.id = t.id → ∀ action, ∃ l,
        evaluate y.plan.catalog y.plan.config { e.task with action := action } e.site =
          (.skipped .upToDate, { e.site with ledger := l })) ∧
      ∀ s, y.final.current.recordsBy s (some t.id) = x.final.current.recordsBy s (some t.id) := by
  obtain ⟨res', hy⟩ := h.proper hx
  refine ⟨res', hy.completed, fun t ht hne hsuccess => ?_⟩
  obtain ⟨report, hreport, hid, hsucc⟩ := hsuccess
  obtain ⟨d, hd, hdid, hdo⟩ := hx.exists_evaluation hreport (Outcome.not_unattempted_of_success hsucc)
  obtain rfl := hx.task_eq hd ht (hdid.trans hid)
  have hod : (d.outcome x.plan).isSuccess = true := hdo ▸ hsucc
  obtain ⟨e, he, hei, hreuse⟩ :=
    h.exists_reuse hx hy d.index (Graph.lt_size_of_task? (x.logged.task d hd)) d hd rfl hod hne
  have htask := h.mirrors.task_eq he hd hei
  have houtcome := hreuse.outcome_eq hy he
  refine ⟨?_, fun report' hreport' hid' => ?_, fun e' he' hid' action => ?_,
    fun s => h.recordsBy_eq hx hy hd hod he hei hreuse s⟩
  · have hmem := hy.report_mem he
    rwa [houtcome, htask] at hmem
  · rw [hy.report_eq he hreport' (by rw [htask, hid']), houtcome]
  · obtain rfl := evaluation_unique hy.valid he he' (by rw [htask, hid'])
    exact hreuse.evaluate_eq hy he action

end Session

namespace Pack

theorem session_live {l : Ledger} : (session l).Live := by
  obtain ⟨res, hres⟩ := exists_result l
  refine Session.live_of_quiet hres (by simp [session]) rfl fun t ht call w hw => ?_
  rw [List.mem_singleton.mp ht]
  exact hw

theorem world_eq {l : Ledger} {e : Evaluation} (he : e ∈ (session l).evaluations) :
    e.site.world = (session l).site.world ∧
      (e.after (session l).plan).world = (session l).site.world := by
  obtain ⟨res, hres⟩ := exists_result l
  refine session_live.world_eq hres (fun t ht call w => ?_) he
  rw [List.mem_singleton.mp ht]
  rfl

theorem first_succeeds : (first.ended.outcomeOf 0).isSuccess = true := by decide +kernel

theorem first_proper : ∃ res, first.Proper res := by
  obtain ⟨res, hres⟩ := exists_result (.empty ⟨"state"⟩)
  exact ⟨res, graph_builtFrom, .inl ⟨⟨"state"⟩, rfl⟩, hres⟩

theorem second_follows : second.Follows first where
  mirrors := ⟨rfl, rfl, rfl, by simp [first, session, mergedSupplies]⟩
  loads := by
    obtain ⟨res, hfirst⟩ := first_proper
    have hread : FileTree.read ⟨[(["state"], .file first.final.current.toBytes)]⟩ [] ⟨"state"⟩ =
        .ok first.final.current.toBytes := rfl
    exact ⟨_, _, _, hread, Ledger.load_of_read hread⟩
  outputs d hd _ r _ e he _ := by
    have hnow : e.site.world = second.site.world := (world_eq he).1
    have hthen : (d.after first.plan).world = first.site.world := (world_eq hd).2
    have hsame : second.site.world = first.site.world := rfl
    rw [hnow, hthen, hsame]
  unforced := rfl
  patient := rfl
  live := session_live

/-- The second session takes over what the first one has made. -/
theorem second_takes_over : (∃ res, second.result.1 = .ok res ∧
      (⟨"pack", .skipped .upToDate⟩ : Report) ∈ res.reports) ∧
    ∀ s, second.final.current.recordsBy s (some "pack") = first.final.current.recordsBy s (some "pack") := by
  obtain ⟨res, hfirst⟩ := first_proper
  have hreports : res.reports = [⟨"pack", first.ended.outcomeOf 0⟩] := reports_eq hfirst.completed
  have hsuccess : ∃ report ∈ res.reports, report.task = task.id ∧ report.outcome.isSuccess = true :=
    ⟨⟨"pack", first.ended.outcomeOf 0⟩, by rw [hreports]; exact List.mem_singleton_self _, rfl,
      first_succeeds⟩
  obtain ⟨res', hres', hall⟩ := Session.finished_not_redone hfirst second_follows
  obtain ⟨hreport, -, -, hsame⟩ := hall task List.mem_cons_self (List.cons_ne_nil _ _) hsuccess
  exact ⟨⟨res', hres', hreport⟩, hsame⟩

end Pack

end SlotBuild
