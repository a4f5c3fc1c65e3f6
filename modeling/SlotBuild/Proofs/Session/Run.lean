import SlotBuild.Proofs.Coordinator.Schedule
import SlotBuild.Proofs.Ledger.Inheritance
import SlotBuild.Proofs.Session.Inputs

/-! A session as a whole: where the records of the generation that it writes come from. A record is
a supply, or an evaluation of its producer has published it, or its producer was not attempted and
had it before. -/

namespace SlotBuild

open Ledger (recordsAt)
open Coordinator

/-- Whether a task of the graph has made a record. -/
def Graph.makes (g : Graph) (r : Record) : Bool := r.producer.any fun q => (g.indexOf? q).isSome

theorem Graph.makes_of_task {g : Graph} {t : Task} {r : Record} (ht : t ∈ g.tasks)
    (hr : r.producer = some t.id) : g.makes r = true := by
  rw [makes, hr, Option.any_some, indexOf?, List.findIdx?_isSome, List.any_eq_true]
  exact ⟨t, ht, by simp⟩

/-- A run of a graph with some supplies, whose workers can be started; `moves` says how they and
cancellation interleave. -/
structure Session where
  plan : Plan
  supplies : List Supply
  moves : List Move
  site : Site

/-- A session that comes to its end has started its workers. -/
theorem threads_of_ok {p : Plan} {supplies : List Supply} {threads : Option String} {moves : List Move}
    {site : Site} {res : SessionResult} (h : (runGraph p supplies threads moves site).1 = .ok res) :
    threads = none := by
  cases threads with
  | none => rfl
  | some message =>
    cases hbegun : takeSupplies p.catalog supplies site with
    | mk taken s => cases taken <;> simp [runGraph, hbegun] at h

namespace Session

def result (x : Session) : Except SessionError SessionResult × Site :=
  runGraph x.plan x.supplies none x.moves x.site

def final (x : Session) : Ledger := x.result.2.ledger

def begun (x : Session) : Site := (takeSupplies x.plan.catalog x.supplies x.site).2

def ended (x : Session) : Coordinator := complete x.plan x.begun x.moves

def evaluations (x : Session) : List Evaluation :=
  Coordinator.evaluations x.plan (start x.plan.graph x.begun) (schedule x.plan x.begun x.moves)

/-- The session has run the action of a task and bound what it reported. -/
structure Executed (x : Session) (e : Evaluation) : Prop where
  completed : ∃ res, x.result.1 = .ok res
  mem : e ∈ x.evaluations
  ran : ∃ reason, e.outcome x.plan = .executed reason e.fingerprint

variable {x : Session}

theorem begun_of_ok {res : SessionResult} (h : x.result.1 = .ok res) :
    takeSupplies x.plan.catalog x.supplies x.site = (.ok (), x.begun) := by
  cases hbegun : takeSupplies x.plan.catalog x.supplies x.site with
  | mk taken s =>
    cases taken with
    | error e => simp [result, runGraph, hbegun] at h
    | ok => rw [begun, hbegun]

theorem result_eq_runTasks (h : takeSupplies x.plan.catalog x.supplies x.site = (.ok (), x.begun)) :
    x.result = (.ok (runTasks x.plan x.moves x.begun).1, (runTasks x.plan x.moves x.begun).2) := by
  rw [result, runGraph, h]

theorem exists_result {site : Site}
    (h : takeSupplies x.plan.catalog x.supplies x.site = (.ok (), site)) :
    ∃ res, x.result.1 = .ok res := by
  have hbegun : x.begun = site := by rw [begun, h]
  rw [← hbegun] at h
  exact ⟨_, by rw [result_eq_runTasks h]⟩

theorem save_ledger (site : Site) : (save site).2.ledger = site.ledger := by
  unfold save
  cases site.ledger.flush site.world.machine.faults site.world.files site.world.cwd with
  | mk problem files => cases problem <;> rfl

theorem runTasks_ledger (p : Plan) (moves : List Move) (site : Site) :
    (runTasks p moves site).2.ledger = (complete p site moves).site.ledger.carryForwardAll p.catalog
      (unattempted p.graph (complete p site moves).site.ledger.previous
        ((complete p site moves).reports p.graph)) := by
  simp only [runTasks, save_ledger]

theorem result_of_ok {res : SessionResult} (h : x.result.1 = .ok res) :
    res.reports = x.ended.reports x.plan.graph ∧
      x.final = x.ended.site.ledger.carryForwardAll x.plan.catalog
        (unattempted x.plan.graph x.ended.site.ledger.previous res.reports) := by
  have heq := result_eq_runTasks (begun_of_ok h)
  rw [heq] at h
  obtain rfl := Except.ok.inj h
  exact ⟨rfl, by rw [final, heq, runTasks_ledger]; rfl⟩

theorem ended_eq_run (x : Session) :
    x.ended = run x.plan (start x.plan.graph x.begun) (schedule x.plan x.begun x.moves) :=
  complete_eq_run x.plan x.begun x.moves

theorem ended_isDone (x : Session) : x.ended.isDone = true := complete_isDone _ _ _

theorem logged (x : Session) : Logged x.plan x.evaluations x.ended := by
  rw [ended_eq_run]
  exact run_logged _ _ _

theorem task_mem {e : Evaluation} (he : e ∈ x.evaluations) : e.task ∈ x.plan.graph.tasks :=
  List.mem_of_getElem? (x.logged.task e he)

theorem passes (x : Session) : Passes x.plan x.begun.ledger x.evaluations x.ended.site.ledger := by
  rw [ended_eq_run]
  exact run_passes _ _ _

theorem settled (x : Session) {e : Evaluation} (he : e ∈ x.evaluations) :
    x.ended.outcome? e.index = some (e.outcome x.plan) := x.logged.settled_of_isDone x.ended_isDone he

end Session

/-- The ledger of a session in which the evaluations `log` have happened. -/
structure Sourced (p : Plan) (log : List Evaluation) (l : Ledger) : Prop where
  filed : l.current.Filed
  single : l.current.Single
  sources : ∀ s, ∀ r ∈ recordsAt l.current s, r.producer = none ∨ ∃ e ∈ log, r ∈ e.published p

theorem Sourced.bindAll {p : Plan} {log log' : List Evaluation} {l : Ledger} (h : Sourced p log l)
    (hlog : log ⊆ log') {rs : List Record}
    (hrs : ∀ r ∈ rs, r.producer = none ∨ ∃ e ∈ log', r ∈ e.published p) :
    Sourced p log' (bindAll p.catalog l rs).2 := by
  refine ⟨fun s r hr => ?_, bindAll_single h.single _ _, fun s r hr => ?_⟩
  · rcases mem_bindAll hr with hr | hr
    · exact h.filed s r hr
    · exact hr.2
  · rcases mem_bindAll hr with hr | hr
    · exact (h.sources s r hr).imp_right fun ⟨e, he, hre⟩ => ⟨e, hlog he, hre⟩
    · exact hrs r hr.1

theorem Coordinator.Passes.sourced {p : Plan} {log : List Evaluation} {l l' : Ledger}
    (h : Passes p l log l') (hl : Sourced p [] l) : Sourced p log l' := by
  induction h with
  | nil => exact hl
  | @snoc log e _ ih =>
    rw [(e.evaluated p).ledger_eq]
    exact ih.bindAll (List.subset_append_left _ _) fun r hr => Or.inr ⟨e, by simp, hr⟩

namespace Session

variable {x : Session} {res : SessionResult}

/-- The ledger holds nothing of this session yet. -/
def Fresh (x : Session) : Prop := x.site.ledger.current.records = []

theorem Fresh.recordsAt_eq_nil (hfresh : x.Fresh) (s : SlotId) : recordsAt x.site.ledger.current s = [] := by
  rw [recordsAt, show x.site.ledger.current.records = [] from hfresh]
  rfl

theorem begun_sourced (hfresh : x.Fresh) (h : x.result.1 = .ok res) : Sourced x.plan [] x.begun.ledger := by
  obtain ⟨rs, l, hrs, hbound, hbegun⟩ := takeSupplies_ok (begun_of_ok h)
  have hempty : Sourced x.plan [] x.site.ledger := by
    have hnone := hfresh.recordsAt_eq_nil
    refine ⟨fun s r hr => ?_, fun s => ?_, fun s r hr => ?_⟩
    · simp [hnone] at hr
    · simp [hnone]
    · simp [hnone] at hr
  have hsupplied : ∀ r ∈ rs, r.producer = none ∨ ∃ e ∈ ([] : List Evaluation), r ∈ e.published x.plan := by
    intro r hr
    obtain ⟨y, -, hy⟩ := exists_left_of_forall₂ hrs r hr
    obtain ⟨_, -, rfl⟩ := supplyRecord_ok hy
    exact Or.inl rfl
  have hnext := hempty.bindAll (List.Subset.refl _) hsupplied
  rw [hbound] at hnext
  rwa [hbegun]

theorem begun_previous (h : x.result.1 = .ok res) : x.begun.ledger.previous = x.site.ledger.previous := by
  obtain ⟨rs, l, -, hbound, hbegun⟩ := takeSupplies_ok (begun_of_ok h)
  have hprev := bindAll_previous x.plan.catalog x.site.ledger rs
  rw [hbound] at hprev
  rwa [hbegun]

theorem ended_previous (h : x.result.1 = .ok res) :
    x.ended.site.ledger.previous = x.site.ledger.previous :=
  x.passes.previous.trans (begun_previous h)

theorem site_previous (h : x.result.1 = .ok res) {e : Evaluation} (he : e ∈ x.evaluations) :
    e.site.ledger.previous = x.site.ledger.previous := by
  obtain ⟨before, -, hbefore⟩ := x.passes.exists_before he
  exact hbefore.previous.trans (begun_previous h)

theorem final_extends (h : x.result.1 = .ok res) :
    x.ended.site.ledger.Extends
      (· ∈ unattempted x.plan.graph x.site.ledger.previous res.reports) x.final := by
  obtain ⟨-, hfinal⟩ := result_of_ok h
  rw [hfinal, ended_previous h]
  exact Ledger.carryForwardAll_extends _ _ _

theorem mem_final (hfresh : x.Fresh) (h : x.result.1 = .ok res) {s : SlotId} {r : Record}
    (hr : r ∈ recordsAt x.final.current s) :
    (r.producer = none ∨ ∃ e ∈ x.evaluations, r ∈ e.published x.plan) ∧ r.slot = s ∨
      r ∈ recordsAt x.site.ledger.previous s ∧
        ∃ q ∈ unattempted x.plan.graph x.site.ledger.previous res.reports, r.producer = some q := by
  have hended := x.passes.sourced (begun_sourced hfresh h)
  obtain ⟨extra, hx, hextra⟩ := (final_extends h).records s
  rw [hx] at hr
  rcases List.mem_append.mp hr with hr | hr
  · exact Or.inl ⟨hended.sources s r hr, hended.filed s r hr⟩
  · obtain ⟨hold, hq⟩ := hextra r hr
    rw [ended_previous h] at hold
    exact Or.inr ⟨hold, hq⟩

theorem final_single (hfresh : x.Fresh) (h : x.result.1 = .ok res) : x.final.current.Single :=
  (final_extends h).single (x.passes.sourced (begun_sourced hfresh h)).single

theorem final_filed (hfresh : x.Fresh) (h : x.result.1 = .ok res)
    (hfiled : x.site.ledger.previous.Filed) : x.final.current.Filed := by
  intro s r hr
  rcases mem_final hfresh h hr with hr | hr
  · exact hr.2
  · exact hfiled s r hr.1

theorem mem_reports {report : Report} (hr : report ∈ x.ended.reports x.plan.graph) :
    ∃ i t, x.plan.graph.task? i = some t ∧ report = ⟨t.id, x.ended.outcomeOf i⟩ := by
  obtain ⟨i, -, hi⟩ := List.mem_filterMap.mp hr
  obtain ⟨t, ht, rfl⟩ := Option.map_eq_some_iff.mp hi
  exact ⟨i, t, ht, rfl⟩

theorem outcomeOf_eq_getD (c : Coordinator) (i : Nat) :
    c.outcomeOf i = (c.outcome? i).getD (.skipped .cancelled) := by
  unfold outcomeOf outcome?
  rcases c.outcomes[i]? with _ | _ | o <;> rfl

theorem outcomeOf_eq {c : Coordinator} {i : Nat} {o : Outcome} (h : c.outcome? i = some o) :
    c.outcomeOf i = o := by
  rw [outcomeOf_eq_getD, h, Option.getD_some]

theorem exists_evaluation_of_report {c : Catalog} (hg : x.plan.graph.Valid c) (h : x.result.1 = .ok res)
    {report : Report} (hr : report ∈ res.reports) (ho : report.outcome.isUnattempted = false) :
    ∃ e ∈ x.evaluations, e.task.id = report.task ∧ e.outcome x.plan = report.outcome := by
  rw [(result_of_ok h).1] at hr
  obtain ⟨i, t, ht, rfl⟩ := mem_reports hr
  obtain ⟨o, hsettled⟩ :=
    x.logged.coherent.all_settled hg.acyclic x.ended_isDone i (Graph.lt_size_of_task? ht)
  rw [outcomeOf_eq hsettled] at ho ⊢
  obtain ⟨e, he, rfl, heo⟩ := x.logged.settled i o hsettled ho
  obtain rfl : e.task = t := Option.some.inj ((x.logged.task e he).symm.trans ht)
  exact ⟨e, he, rfl, heo⟩

theorem evaluation_unique {c : Catalog} (hg : x.plan.graph.Valid c) {e e' : Evaluation}
    (he : e ∈ x.evaluations) (he' : e' ∈ x.evaluations) (hid : e.task.id = e'.task.id) : e = e' :=
  x.logged.eq_of_index he he' (hg.index_unique (x.logged.task e he) (x.logged.task e' he') hid)

theorem notMem_unattempted {c : Catalog} (hg : x.plan.graph.Valid c) (h : x.result.1 = .ok res)
    {e : Evaluation} (he : e ∈ x.evaluations) (ho : (e.outcome x.plan).isUnattempted = false)
    (previous : Generation) : e.task.id ∉ unattempted x.plan.graph previous res.reports := by
  intro hmem
  have htask := x.logged.task e he
  simp only [unattempted, mem_sortedSet, List.mem_filter, Bool.or_eq_true, List.contains_iff_mem,
    List.mem_map] at hmem
  rcases hmem.2 with hnone | ⟨report, hreport, hid⟩
  · have hall := List.findIdx?_eq_none_iff.mp (Option.isNone_iff_eq_none.mp hnone)
    simpa using hall e.task (List.mem_of_getElem? htask)
  · rw [(result_of_ok h).1] at hreport
    obtain ⟨i, t, ht, rfl⟩ := mem_reports hreport.1
    obtain rfl := hg.index_unique ht htask hid
    have hout := outcomeOf_eq (x.settled he)
    simp [hout, ho] at hreport

theorem gathered_after (hg : x.plan.graph.BuiltFrom x.plan.catalog (x.supplies.map (·.slot)))
    (hfresh : x.Fresh) (hfiled : x.site.ledger.previous.Filed) (h : x.result.1 = .ok res) {e : Evaluation}
    {earlier : List Move} {m : Move}
    (hm : evaluation? x.plan (run x.plan (start x.plan.graph x.begun) earlier) m = some e) {s : SlotId}
    (hs : s ∈ e.task.inputs) : ∃ supplied made, (e.site.ledger.currentRecords s).Perm (supplied ++ made) ∧
      Gathered x.plan x.supplies x.site.world
        (Coordinator.evaluations x.plan (start x.plan.graph x.begun) earlier) s supplied made := by
  have hvalid := hg.valid.2
  obtain ⟨position, -, hi, ht, hsite⟩ := evaluation?_eq_some hm
  obtain ⟨slot, hslot⟩ := hvalid.declared e.task (List.mem_of_getElem? ht) s (List.mem_append_left _ hs)
  have hdone := (run_logged x.plan x.begun earlier).coherent.producers_done hvalid
    (List.mem_of_getElem? hi) ht hs
  obtain ⟨supplied, made, hperm, hgathered⟩ := exists_gathered hg hfiled hfresh.recordsAt_eq_nil
    (begun_of_ok h) earlier hslot hdone
  refine ⟨supplied, made, ?_, hgathered⟩
  rw [hsite]
  exact (Generation.recordsIn_perm _ s).trans hperm

theorem gathered (hg : x.plan.graph.BuiltFrom x.plan.catalog (x.supplies.map (·.slot)))
    (hfresh : x.Fresh) (hfiled : x.site.ledger.previous.Filed) (h : x.result.1 = .ok res) {e : Evaluation}
    (he : e ∈ x.evaluations) {s : SlotId} (hs : s ∈ e.task.inputs) :
    ∃ supplied made, (e.site.ledger.currentRecords s).Perm (supplied ++ made) ∧
      Gathered x.plan x.supplies x.site.world x.evaluations s supplied made := by
  obtain ⟨earlier, m, later, hmoves, hm⟩ := exists_split_of_mem_evaluations he
  obtain ⟨supplied, made, hperm, hgathered⟩ := gathered_after hg hfresh hfiled h hm hs
  refine ⟨supplied, made, hperm, hgathered.mono ?_⟩
  rw [evaluations, hmoves, evaluations_append]
  exact List.subset_append_left _ _

/-- What comes before a task has made something for it by the time that it is evaluated. -/
theorem exists_maker {c : Catalog} (hg : x.plan.graph.Valid c) {e : Evaluation} (he : e ∈ x.evaluations)
    {log : List Evaluation} (hgathered : ∀ s ∈ e.task.inputs, ∃ supplied made,
      (e.site.ledger.currentRecords s).Perm (supplied ++ made) ∧
        Gathered x.plan x.supplies x.site.world log s supplied made) {j : Nat}
    (hj : x.plan.graph.Precedes j e.index) : ∃ d ∈ log, d.index = j ∧ (d.outcome x.plan).isSuccess = true ∧
      ∃ r ∈ d.published x.plan, r.slot ∈ e.task.inputs := by
  obtain ⟨⟨_, _, s⟩, hedge, rfl, hi⟩ := hj
  obtain ⟨hj, t, ht, hs⟩ := (hg.mem_edges _).mp hedge
  obtain rfl : e.task = t := Option.some.inj ((x.logged.task e he).symm.trans (hi ▸ ht))
  obtain ⟨supplied, made, -, hgathered⟩ := hgathered s hs
  obtain ⟨r, -, d, hd, hdj, hod, hpub, hslot⟩ := exists_right_of_forall₂ hgathered.production _ hj
  exact ⟨d, hd, hdj, hod, r, hpub, hslot ▸ hs⟩

theorem succeeded (h : x.result.1 = .ok res) (hall : ∀ report ∈ res.reports, report.outcome.isSuccess = true)
    (hacyclic : x.plan.graph.IsAcyclic) {j : Nat} (hj : j < x.plan.graph.size) :
    ∃ o, x.ended.outcome? j = some o ∧ o.isSuccess = true := by
  obtain ⟨t, ht⟩ := Graph.exists_task? hj
  have hreport : (⟨t.id, x.ended.outcomeOf j⟩ : Report) ∈ res.reports := by
    rw [(result_of_ok h).1]
    refine List.mem_filterMap.mpr ⟨j, (Graph.order_perm hacyclic).mem_iff.mpr (List.mem_range.mpr hj), ?_⟩
    rw [ht, Option.map_some]
  have hsucc := hall _ hreport
  cases ho : x.ended.outcome? j with
  | none => simp [outcomeOf_eq_getD, ho, Outcome.isSuccess] at hsucc
  | some o => exact ⟨o, rfl, outcomeOf_eq ho ▸ hsucc⟩

theorem exists_success {c : Catalog} (hg : x.plan.graph.Valid c) (h : x.result.1 = .ok res)
    (hall : ∀ report ∈ res.reports, report.outcome.isSuccess = true) {i : Nat} {t : Task}
    (ht : x.plan.graph.task? i = some t) :
    ∃ e ∈ x.evaluations, e.index = i ∧ e.task = t ∧ (e.outcome x.plan).isSuccess = true := by
  obtain ⟨o, ho, hsuccess⟩ := succeeded h hall hg.acyclic (Graph.lt_size_of_task? ht)
  obtain ⟨e, he, rfl, rfl⟩ := x.logged.exists_of_success ho hsuccess
  exact ⟨e, he, rfl, Option.some.inj ((x.logged.task e he).symm.trans ht), hsuccess⟩

/-- The session is cancelled at no moment. -/
def Live (x : Session) : Prop :=
  ∀ earlier, earlier <+: schedule x.plan x.begun x.moves →
    (run x.plan (start x.plan.graph x.begun) earlier).site.world.cancelled = false

theorem Live.site (h : x.Live) {e : Evaluation} (he : e ∈ x.evaluations) :
    e.site.world.cancelled = false := by
  obtain ⟨earlier, later, hmoves, -, -, hsite⟩ := exists_of_mem_evaluations he
  rw [hsite]
  exact h earlier ⟨later, hmoves.symm⟩

theorem Live.steady (hlive : x.Live)
    (hcalm : ∀ e ∈ x.evaluations, (x.plan.config.failFast && (e.outcome x.plan).isFailure) = false) :
    Steady x.plan x.evaluations x.ended := by
  have hended := (Steady.start x.plan x.begun).run (Logged.start x.plan x.begun) hcalm hlive
  rwa [← ended_eq_run] at hended

theorem Live.reports_succeed (hlive : x.Live) (hacyclic : x.plan.graph.IsAcyclic)
    (h : x.result.1 = .ok res) (hall : ∀ e ∈ x.evaluations, (e.outcome x.plan).isSuccess = true) :
    ∀ report ∈ res.reports, report.outcome.isSuccess = true := by
  have hsteady := hlive.steady fun e he => by
    have hsucc := hall e he
    cases ho : e.outcome x.plan <;> simp [ho, Outcome.isSuccess, Outcome.isFailure] at hsucc ⊢
  have hsettled := x.logged.coherent.all_settled hacyclic x.ended_isDone
  have hsucceeds : ∀ i < x.plan.graph.size, ∀ o, x.ended.outcome? i = some o → o.isSuccess = true := by
    refine hacyclic.induction fun i _ ih o ho => ?_
    obtain ⟨e, he, -, rfl⟩ := hsteady.exists_evaluation ho fun d o' hd ho' => ih d hd o' ho'
    exact hall e he
  intro report hr
  rw [(result_of_ok h).1] at hr
  obtain ⟨i, t, ht, rfl⟩ := mem_reports hr
  obtain ⟨o, ho⟩ := hsettled i (Graph.lt_size_of_task? ht)
  rw [outcomeOf_eq ho]
  exact hsucceeds i (Graph.lt_size_of_task? ht) o ho

theorem indexOf?_of_mem_unattempted (hall : ∀ report ∈ res.reports, report.outcome.isSuccess = true)
    {previous : Generation} {q : TaskId} (hq : q ∈ unattempted x.plan.graph previous res.reports) :
    x.plan.graph.indexOf? q = none := by
  simp only [unattempted, mem_sortedSet, List.mem_filter, Bool.or_eq_true, List.contains_iff_mem,
    List.mem_map] at hq
  rcases hq.2 with hnone | ⟨report, ⟨hmem, hun⟩, -⟩
  · exact Option.isNone_iff_eq_none.mp hnone
  · have hsucc := hall report hmem
    rcases ho : report.outcome with _ | ⟨_ | _ | _⟩ | _ <;>
      simp [ho, Outcome.isSuccess, Outcome.isUnattempted] at hsucc hun

theorem exists_made (hg : x.plan.graph.Valid x.plan.catalog) (hfresh : x.Fresh) (h : x.result.1 = .ok res)
    (hfiled : x.site.ledger.previous.Filed)
    (hnone : ∀ q ∈ unattempted x.plan.graph x.site.ledger.previous res.reports,
      x.plan.graph.indexOf? q = none) {s : SlotId} {r : Record} (hr : r ∈ x.final.currentRecords s)
    (hmakes : x.plan.graph.makes r = true) : ∃ e ∈ x.evaluations, (e.outcome x.plan).isSuccess = true ∧
      r ∈ e.published x.plan ∧ r.slot = s ∧ s ∈ e.task.outputs := by
  rcases mem_final hfresh h (Generation.mem_recordsIn.mp hr) with
    ⟨hq | ⟨e, he, hpub⟩, hs⟩ | ⟨-, q, hq, hrq⟩
  · simp [Graph.makes, hq] at hmakes
  · have hfiled' : e.site.ledger.previous.Filed := by rwa [site_previous h he]
    refine ⟨e, he, ?_, hpub, hs, hs ▸ published_slot hfiled' hpub⟩
    by_contra hfail
    have hnil := (e.evaluated x.plan).published_of_not_success hfiled' (fun s' hs' =>
      hg.declared e.task (List.mem_of_getElem? (x.logged.task e he)) s' (List.mem_append_right _ hs'))
      (by simpa using hfail)
    simp [Evaluation.published, hnil] at hpub
  · simp [Graph.makes, hrq, hnone q hq] at hmakes

theorem final_made (hg : x.plan.graph.BuiltFrom x.plan.catalog (x.supplies.map (·.slot)))
    (hfresh : x.Fresh) (hfiled : x.site.ledger.previous.Filed) (h : x.result.1 = .ok res)
    (hall : ∀ report ∈ res.reports, report.outcome.isSuccess = true) {s : SlotId} {slot : Slot}
    (hslot : x.plan.catalog.find? s = some slot) :
    ∃ made, ((x.final.currentRecords s).filter x.plan.graph.makes).Perm made ∧
      List.Forall₂ (fun j r => ∃ e ∈ x.evaluations, e.index = j ∧ (e.outcome x.plan).isSuccess = true ∧
        r ∈ e.published x.plan ∧ r.slot = s) (x.plan.graph.producersOf s) made := by
  have hvalid := hg.valid.2
  have hdone : ∀ j ∈ x.plan.graph.producersOf s, ∃ o, x.ended.outcome? j = some o ∧ o.isSuccess = true := by
    intro j hj
    obtain ⟨t, ht, -⟩ := (hvalid.mem_producersOf s j).mp hj
    exact succeeded h hall hvalid.acyclic (Graph.lt_size_of_task? ht)
  rw [ended_eq_run] at hdone
  obtain ⟨supplied, made, hperm, hgathered⟩ := exists_gathered hg hfiled hfresh.recordsAt_eq_nil
    (begun_of_ok h) _ hslot hdone
  obtain ⟨extra, hx, hextra⟩ := (final_extends h).records s
  refine ⟨made, ?_, hgathered.production⟩
  rw [ended_eq_run] at hx
  have hfinal := (Generation.recordsIn_perm x.final.current s).trans (hx ▸ hperm.append_right extra)
  have hsupplied : supplied.filter x.plan.graph.makes = [] := by
    apply List.filter_eq_nil_iff.mpr
    intro r hr
    obtain ⟨_, -, hlr⟩ := exists_left_of_forall₂ hgathered.supply r hr
    obtain ⟨_, -, rfl⟩ := supplyRecord_ok hlr
    simp [Graph.makes]
  have hmade : made.filter x.plan.graph.makes = made := by
    apply List.filter_eq_self.mpr
    intro r hr
    obtain ⟨j, -, e, he, -, -, hpub, -⟩ := exists_left_of_forall₂ hgathered.production r hr
    exact Graph.makes_of_task (List.mem_of_getElem? (x.logged.task e he)) (published_producer hpub)
  have hinherited : extra.filter x.plan.graph.makes = [] := by
    apply List.filter_eq_nil_iff.mpr
    intro r hr
    obtain ⟨-, q, hq, hrq⟩ := hextra r hr
    simp [Graph.makes, hrq, indexOf?_of_mem_unattempted hall hq]
  have hfilter := hfinal.filter x.plan.graph.makes
  rwa [List.filter_append, List.filter_append, hsupplied, hmade, hinherited, List.nil_append,
    List.append_nil] at hfilter

/-- A session comes to its end if another one does that is supplied with the same. -/
theorem exists_result_of_sources {y : Session} (hcatalog : y.plan.catalog = x.plan.catalog)
    (hsupplies : y.supplies = x.supplies)
    (hsources : ∀ m ∈ mergedSupplies x.supplies, y.site.world.files.fingerprint y.site.world.cwd m.2 =
      x.site.world.files.fingerprint x.site.world.cwd m.2)
    (hres : x.result.1 = .ok res) : ∃ res', y.result.1 = .ok res' := by
  obtain ⟨rs, l, hrs, hbound, -⟩ := takeSupplies_ok (begun_of_ok hres)
  have hone : ∀ m ∈ mergedSupplies y.supplies, ∃ r, supplyRecord y.site.world m = .ok r := by
    intro m hm
    rw [hsupplies] at hm
    obtain ⟨r, -, hr⟩ := exists_right_of_forall₂ hrs m hm
    obtain ⟨digest, hdigest, -⟩ := supplyRecord_ok hr
    rw [← hsources m hm] at hdigest
    exact ⟨_, bind_eq_ok.mpr ⟨digest, hdigest, rfl⟩⟩
  obtain ⟨rs', hrs'⟩ := exists_mapM_eq_ok hone
  have hdeclared : ∀ r ∈ rs', ∃ slot, y.plan.catalog.find? r.slot = some slot := by
    intro r hr
    obtain ⟨m, hm, hmr⟩ := exists_left_of_forall₂ (mapM_eq_ok.mp hrs') r hr
    obtain ⟨_, -, rfl⟩ := supplyRecord_ok hmr
    rw [hsupplies] at hm
    obtain ⟨r', hr', hmr'⟩ := exists_right_of_forall₂ hrs m hm
    obtain ⟨_, -, heq⟩ := supplyRecord_ok hmr'
    have hfind := declared_of_bindAll hbound r' hr'
    rwa [heq, ← hcatalog] at hfind
  obtain ⟨l', hb⟩ := bindAll_of_declared hdeclared y.site.ledger
  have hrecords : supplyRecords y.site.world y.supplies = .ok rs' := hrs'
  have htake : takeSupplies y.plan.catalog y.supplies y.site =
      (.ok (), { y.site with ledger := l' }) := by
    rw [takeSupplies, hrecords]
    simp only [hb]
  exact exists_result htake

/-- Two sessions over one graph and catalog that are supplied with the same. -/
structure Mirrors (y x : Session) : Prop where
  catalog : y.plan.catalog = x.plan.catalog
  graph : y.plan.graph = x.plan.graph
  supplies : y.supplies = x.supplies
  sources : ∀ m ∈ mergedSupplies x.supplies, y.site.world.files.fingerprint y.site.world.cwd m.2 =
    x.site.world.files.fingerprint x.site.world.cwd m.2

namespace Mirrors

variable {y : Session}

theorem task_eq (h : y.Mirrors x) {d e : Evaluation} (hd : d ∈ y.evaluations)
    (he : e ∈ x.evaluations) (hi : d.index = e.index) : d.task = e.task := by
  have htask := y.logged.task d hd
  rw [h.graph, hi, x.logged.task e he] at htask
  exact (Option.some.inj htask).symm

theorem completes (h : y.Mirrors x) (hres : x.result.1 = .ok res) : ∃ res', y.result.1 = .ok res' :=
  exists_result_of_sources h.catalog h.supplies h.sources hres

end Mirrors

end Session

end SlotBuild
