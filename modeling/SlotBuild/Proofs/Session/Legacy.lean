import SlotBuild.Proofs.Ledger.Writes
import SlotBuild.Proofs.Session.History

/-! What a session leaves behind. In each slot stand the record of its supply, one record of each
task that fills it and has succeeded, and what the producers that were left alone had there before,
as far as there is room; a task that has failed leaves nothing. -/

namespace SlotBuild

open Ledger (recordsAt)
open Coordinator

theorem Coordinator.Passes.recordsAt_of_undeclared {p : Plan} {l l' : Ledger} {log : List Evaluation}
    (h : Passes p l log l') {s : SlotId} (hs : p.catalog.find? s = none) :
    recordsAt l'.current s = recordsAt l.current s := by
  induction h with
  | nil => rfl
  | @snoc log e _ ih => rw [(e.evaluated p).ledger_eq, recordsAt_bindAll_of_undeclared hs, ih]

theorem Coordinator.Passes.kept {p : Plan} {l l' : Ledger} {log : List Evaluation} (h : Passes p l log l')
    (hl : l.Kept) : l'.Kept := by
  induction h with
  | nil => exact hl
  | @snoc log e _ ih =>
    rw [(e.evaluated p).ledger_eq]
    exact bindAll_kept ih _

/-- Two records of one evaluation stand in different slots. -/
theorem Evaluated.published_unique {c : Catalog} {config : SessionConfig} {t : Task} {site site' : Site}
    {o : Outcome} (h : Evaluated c config t site o site') (hprev : site.ledger.previous.Tidy)
    {r r' : Record} (hr : r ∈ published c config t site) (hr' : r' ∈ published c config t site)
    (hslot : r.slot = r'.slot) : r = r' := by
  have hold : ∀ {rs}, verdict config t (t.fingerprintAt site) site = .ok rs → r = r' := by
    intro rs saved
    rw [published_of_saved saved] at hr hr'
    obtain ⟨-, -, hmem⟩ := history?_eq_some (verdict_ok saved).2.1
    obtain ⟨s, -, hs, hq⟩ := (hmem r).mp hr
    obtain ⟨s', -, hs', hq'⟩ := (hmem r').mp hr'
    obtain rfl : s = s' := by rw [← hprev.filed s r hs, ← hprev.filed s' r' hs', hslot]
    exact hprev.single.eq_of_producer hs hs' (hq.trans hq'.symm)
  cases h with
  | reused saved _ => exact hold saved
  | unusable saved _ => exact hold saved
  | executed due live ran checked _ =>
    rw [published_of_ran due live ran checked] at hr hr'
    have hone := ((outputRecords_mem checked).1 r hr).2
    rw [hslot, ((outputRecords_mem checked).1 r' hr').2] at hone
    exact (Except.ok.inj hone).symm
  | idle _ _ nothing => simp [nothing] at hr

namespace Session

/-- A session over a graph that was built for its supplies, on a ledger to which nothing was bound
since it was loaded, that has come to its end. -/
structure Proper (x : Session) (res : SessionResult) : Prop where
  graph : x.plan.graph.BuiltFrom x.plan.catalog (x.supplies.map (·.slot))
  ledger : x.site.ledger.Opened
  completed : x.result.1 = .ok res

/-- The producer did not get its turn: it is not in the graph, or it was cancelled or blocked. -/
def LeftAlone (x : Session) (res : SessionResult) (q : TaskId) : Prop :=
  x.plan.graph.indexOf? q = none ∨
    ∃ report ∈ res.reports, report.task = q ∧ report.outcome.isUnattempted = true

/-- There is room in `s` for what `q` had there before: in a slot that is not appendable, nothing
was bound and no producer before `q` that was left alone had anything. -/
def Room (x : Session) (res : SessionResult) (s : SlotId) (q : TaskId) : Prop :=
  ∃ slot, x.plan.catalog.find? s = some slot ∧ (slot.appendable = false →
    s ∉ x.supplies.map (·.slot) ∧
    (∀ t ∈ x.plan.graph.tasks, s ∈ t.outputs → ∀ report ∈ res.reports, report.task = t.id →
      report.outcome.isSuccess = false) ∧
    ∀ q', x.LeftAlone res q' → q' < q → x.site.ledger.previousRecords s (some q') = [])

namespace Proper

variable {x : Session} {res : SessionResult} {s : SlotId} {q : TaskId} {e : Evaluation}

theorem valid (h : x.Proper res) : x.plan.graph.Valid x.plan.catalog := h.graph.valid.2

theorem fresh (h : x.Proper res) : x.Fresh := by
  obtain ⟨path, g, -, heq⟩ := h.ledger.exists_after
  rw [Fresh, heq]
  rfl

theorem previous (h : x.Proper res) : x.site.ledger.previous.Tidy := h.ledger.kept.tidy.2

theorem previous_at (h : x.Proper res) (he : e ∈ x.evaluations) : e.site.ledger.previous.Tidy := by
  rw [site_previous h.completed he]
  exact h.previous

theorem single_at (h : x.Proper res) (he : e ∈ x.evaluations) : e.site.ledger.current.Single := by
  obtain ⟨before, -, hbefore⟩ := x.passes.exists_before he
  exact (hbefore.sourced (begun_sourced h.fresh h.completed)).single

theorem task_eq (h : x.Proper res) (he : e ∈ x.evaluations) {t : Task} (ht : t ∈ x.plan.graph.tasks)
    (hid : e.task.id = t.id) : e.task = t :=
  List.inj_on_of_nodup_map h.valid.ids_nodup (List.mem_of_getElem? (x.logged.task e he)) ht hid

theorem outputs_declared (h : x.Proper res) (he : e ∈ x.evaluations) :
    ∀ s ∈ e.task.outputs, ∃ slot, x.plan.catalog.find? s = some slot := fun s hs =>
  h.valid.declared e.task (List.mem_of_getElem? (x.logged.task e he)) s (List.mem_append_right _ hs)

theorem kept (h : x.Proper res) : x.final.Kept := by
  obtain ⟨rs, l, -, hbound, hbegun⟩ := takeSupplies_ok (begun_of_ok h.completed)
  have hstart := bindAll_kept (c := x.plan.catalog) h.ledger.kept rs
  rw [hbound] at hstart
  rw [(result_of_ok h.completed).2]
  refine (x.passes.kept ?_).carryForwardAll _ _
  rwa [hbegun]

theorem final_tidy (h : x.Proper res) : x.final.current.Tidy := h.kept.tidy.1

section reports

theorem mem_reports_iff (h : x.Proper res) {report : Report} : report ∈ res.reports ↔
    ∃ i t o, x.plan.graph.task? i = some t ∧ x.ended.outcome? i = some o ∧ report = ⟨t.id, o⟩ := by
  have hacyclic := h.valid.acyclic
  rw [(result_of_ok h.completed).1]
  constructor
  · intro hr
    obtain ⟨i, t, ht, rfl⟩ := mem_reports hr
    obtain ⟨o, ho⟩ := x.logged.coherent.all_settled hacyclic x.ended_isDone i (Graph.lt_size_of_task? ht)
    exact ⟨i, t, o, ht, ho, by rw [outcomeOf_eq ho]⟩
  · rintro ⟨i, t, o, ht, ho, rfl⟩
    refine List.mem_filterMap.mpr ⟨i, ?_, by rw [ht, Option.map_some, outcomeOf_eq ho]⟩
    exact (Graph.order_perm hacyclic).mem_iff.mpr (List.mem_range.mpr (Graph.lt_size_of_task? ht))

theorem report_eq (h : x.Proper res) (he : e ∈ x.evaluations) {report : Report}
    (hr : report ∈ res.reports) (hid : report.task = e.task.id) : report.outcome = e.outcome x.plan := by
  obtain ⟨i, t, o, ht, ho, rfl⟩ := h.mem_reports_iff.mp hr
  obtain rfl := h.valid.index_unique ht (x.logged.task e he) hid
  exact Option.some.inj (ho.symm.trans (x.settled he))

theorem report_mem (h : x.Proper res) (he : e ∈ x.evaluations) :
    (⟨e.task.id, e.outcome x.plan⟩ : Report) ∈ res.reports :=
  h.mem_reports_iff.mpr ⟨e.index, e.task, _, x.logged.task e he, x.settled he, rfl⟩

theorem exists_evaluation (h : x.Proper res) {report : Report} (hr : report ∈ res.reports)
    (ho : report.outcome.isUnattempted = false) :
    ∃ e ∈ x.evaluations, e.task.id = report.task ∧ e.outcome x.plan = report.outcome :=
  exists_evaluation_of_report h.valid h.completed hr ho

theorem exists_evaluation_of_task (h : x.Proper res) {report : Report} (hr : report ∈ res.reports) {t : Task}
    (ht : t ∈ x.plan.graph.tasks) (hid : report.task = t.id) (ho : report.outcome.isUnattempted = false) :
    ∃ e ∈ x.evaluations, e.task = t ∧ e.outcome x.plan = report.outcome := by
  obtain ⟨e, he, heid, heo⟩ := h.exists_evaluation hr ho
  exact ⟨e, he, h.task_eq he ht (heid.trans hid), heo⟩

theorem not_leftAlone (h : x.Proper res) (he : e ∈ x.evaluations)
    (ho : (e.outcome x.plan).isUnattempted = false) : ¬ x.LeftAlone res e.task.id := by
  rintro (hnone | ⟨report, hr, hid, hun⟩)
  · have hall := List.findIdx?_eq_none_iff.mp hnone
    simpa using hall e.task (List.mem_of_getElem? (x.logged.task e he))
  · rw [h.report_eq he hr hid, ho] at hun
    simp at hun

theorem exists_evaluation_of_turn (h : x.Proper res) (hq : ¬ x.LeftAlone res q) :
    ∃ e ∈ x.evaluations, e.task.id = q := by
  obtain ⟨hsome, hattempted⟩ := not_or.mp hq
  obtain ⟨i, hi⟩ := Option.ne_none_iff_exists'.mp hsome
  obtain ⟨hlt, hid, -⟩ := List.findIdx?_eq_some_iff_getElem.mp hi
  have ht : x.plan.graph.task? i = some x.plan.graph.tasks[i] := List.getElem?_eq_getElem hlt
  obtain ⟨o, ho⟩ := x.logged.coherent.all_settled h.valid.acyclic x.ended_isDone i hlt
  have hreport := h.mem_reports_iff.mpr ⟨i, _, o, ht, ho, rfl⟩
  have hid : x.plan.graph.tasks[i].id = q := by simpa using hid
  obtain ⟨e, he, heid, -⟩ := h.exists_evaluation hreport (by
    by_contra hun
    exact hattempted ⟨_, hreport, hid, by simpa using hun⟩)
  exact ⟨e, he, heid.trans hid⟩

theorem mem_unattempted_iff :
    q ∈ SlotBuild.unattempted x.plan.graph x.site.ledger.previous res.reports ↔
      x.LeftAlone res q ∧ ∃ s, ∃ r ∈ recordsAt x.site.ledger.previous s, r.producer = some q := by
  have hrecords : (∃ r ∈ x.site.ledger.previous.records.flatMap (·.2), r.producer = some q) ↔
      ∃ s, ∃ r ∈ recordsAt x.site.ledger.previous s, r.producer = some q := by
    constructor
    · rintro ⟨r, hr, hq⟩
      obtain ⟨old, hold, hr⟩ := List.mem_flatMap.mp hr
      refine ⟨old.1, r, ?_, hq⟩
      rwa [recordsAt, x.site.ledger.previous.ordered.get?_eq_some.mpr hold, Option.getD_some]
    · rintro ⟨s, r, hr, hq⟩
      refine ⟨r, ?_, hq⟩
      unfold recordsAt at hr
      cases hs : Keyed.get? s x.site.ledger.previous.records with
      | none => simp [hs] at hr
      | some old => exact List.mem_flatMap.mpr ⟨(s, old), Keyed.mem_of_get? hs, by simpa [hs] using hr⟩
  have hskipped : q ∈ (res.reports.filter fun r => r.outcome.isUnattempted).map (·.task) ↔
      ∃ report ∈ res.reports, report.task = q ∧ report.outcome.isUnattempted = true := by
    simp only [List.mem_map, List.mem_filter]
    constructor
    · rintro ⟨report, ⟨hr, hun⟩, hid⟩
      exact ⟨report, hr, hid, hun⟩
    · rintro ⟨report, hr, hid, hun⟩
      exact ⟨report, ⟨hr, hun⟩, hid⟩
  simp only [SlotBuild.unattempted, mem_sortedSet, List.mem_filter, List.mem_filterMap, Bool.or_eq_true,
    List.contains_iff_mem, hskipped, Option.isNone_iff_eq_none, hrecords, LeftAlone]
  exact and_comm

end reports

section records

theorem ended_records (h : x.Proper res) {slot : Slot} (hslot : x.plan.catalog.find? s = some slot) :
    ∃ supplied made, recordsAt x.ended.site.ledger.current s = supplied ++ made ∧
      List.Forall₂ (fun locations r => supplyRecord x.site.world (s, locations) = .ok r)
        (Keyed.get? s (mergedSupplies x.supplies)).toList supplied ∧
      List.Forall₂ (fun e r => r ∈ e.published x.plan ∧ r.slot = s)
        (x.evaluations.filter (Evaluation.fills x.plan s)) made := by
  have hbegun := begun_of_ok h.completed
  have hempty := h.fresh.recordsAt_eq_nil
  have hfiled : x.begun.ledger.previous.Filed := by
    rw [begun_previous h.completed]
    exact h.previous.filed
  obtain ⟨made, hrecords, hmade⟩ := x.passes.gathers h.valid hfiled x.logged.task x.logged.nodup hslot
    (producer_of_supplies h.graph hempty hbegun hslot)
  exact ⟨_, made, hrecords, recordsAt_takeSupplies hbegun hslot (hempty s), hmade⟩

theorem ended_of_undeclared (h : x.Proper res) (hs : x.plan.catalog.find? s = none) :
    recordsAt x.ended.site.ledger.current s = [] := by
  obtain ⟨rs, l, -, hbound, hbegun⟩ := takeSupplies_ok (begun_of_ok h.completed)
  have hstart : recordsAt (bindAll x.plan.catalog x.site.ledger rs).2.current s =
      recordsAt x.site.ledger.current s := recordsAt_bindAll_of_undeclared hs
  rw [hbound] at hstart
  rw [x.passes.recordsAt_of_undeclared hs, hbegun, ← h.fresh.recordsAt_eq_nil s]
  exact hstart

theorem mem_final_of_ended (h : x.Proper res) {r : Record}
    (hr : r ∈ recordsAt x.ended.site.ledger.current s) : r ∈ recordsAt x.final.current s := by
  obtain ⟨extra, hx, -⟩ := (final_extends h.completed).records s
  rw [hx]
  exact List.mem_append_left _ hr

theorem final_mem (h : x.Proper res) {r : Record} (hr : r ∈ recordsAt x.final.current s) :
    (r.producer = none ∨ ∃ e ∈ x.evaluations, r ∈ e.published x.plan) ∨
      r ∈ recordsAt x.site.ledger.previous s ∧ ∃ q, x.LeftAlone res q ∧ r.producer = some q := by
  rcases mem_final h.fresh h.completed hr with ⟨hsource, -⟩ | ⟨hold, q, hq, hrq⟩
  · exact Or.inl hsource
  · exact Or.inr ⟨hold, q, (mem_unattempted_iff.mp hq).1, hrq⟩

theorem final_supply (h : x.Proper res) :
    List.Forall₂ (fun locations r => supplyRecord x.site.world (s, locations) = .ok r)
      (Keyed.get? s (mergedSupplies x.supplies)).toList (x.final.current.recordsBy s none) := by
  cases hslot : x.plan.catalog.find? s with
  | none =>
    have hnone : Keyed.get? s (mergedSupplies x.supplies) = none := by
      by_contra hsome
      have hsup := h.graph.mem_supplied_iff.mpr (Option.isSome_iff_ne_none.mpr hsome)
      obtain ⟨slot, hslot'⟩ := h.valid.declared_supplied s hsup
      simp [hslot] at hslot'
    have hnil : x.final.current.recordsBy s none = [] := by
      refine Generation.recordsBy_eq_nil.mpr fun r hr => ?_
      rw [(result_of_ok h.completed).2, Ledger.recordsAt_carryForwardAll_of_undeclared hslot,
        h.ended_of_undeclared hslot] at hr
      simp at hr
    rw [hnone, hnil]
    exact .nil
  | some slot =>
    obtain ⟨supplied, made, hrecords, hsupplied, hmade⟩ := h.ended_records hslot
    obtain ⟨extra, hx, hextra⟩ := (final_extends h.completed).records s
    have hkeep : supplied.filter (fun r => r.producer = none) = supplied := by
      refine List.filter_eq_self.mpr fun r hr => ?_
      obtain ⟨_, -, hlr⟩ := exists_left_of_forall₂ hsupplied r hr
      obtain ⟨_, -, rfl⟩ := supplyRecord_ok hlr
      simp
    have hdrop : made.filter (fun r => r.producer = none) = [] := by
      refine List.filter_eq_nil_iff.mpr fun r hr => ?_
      obtain ⟨e, -, hpub, -⟩ := exists_left_of_forall₂ hmade r hr
      simp [published_producer hpub]
    have hdrop' : extra.filter (fun r => r.producer = none) = [] := by
      refine List.filter_eq_nil_iff.mpr fun r hr => ?_
      obtain ⟨-, q, -, hq⟩ := hextra r hr
      simp [hq]
    rw [h.final_tidy.single.recordsBy_eq_filter, hx, hrecords, List.filter_append, List.filter_append, hkeep,
      hdrop, hdrop', List.append_nil, List.append_nil]
    exact hsupplied

/-- A success leaves the records that it has published. -/
theorem final_of_success (h : x.Proper res) (he : e ∈ x.evaluations)
    (ho : (e.outcome x.plan).isSuccess = true) (hs : s ∈ e.task.outputs) :
    ∃ r ∈ e.published x.plan, r.slot = s ∧ x.final.current.recordsBy s (some e.task.id) = [r] := by
  obtain ⟨slot, hslot⟩ := h.outputs_declared he s hs
  obtain ⟨supplied, made, hrecords, -, hmade⟩ := h.ended_records hslot
  obtain ⟨r, hr, hpub, hrs⟩ := exists_right_of_forall₂ hmade e
    (List.mem_filter.mpr ⟨he, Evaluation.fills_iff.mpr ⟨ho, hs⟩⟩)
  refine ⟨r, hpub, hrs, h.final_tidy.single.recordsBy_eq (h.mem_final_of_ended ?_) (published_producer hpub)⟩
  rw [hrecords]
  exact List.mem_append_right _ hr

theorem published_of_final (h : x.Proper res) (he : e ∈ x.evaluations)
    (ho : (e.outcome x.plan).isUnattempted = false) {r : Record} (hr : r ∈ recordsAt x.final.current s)
    (hq : r.producer = some e.task.id) : r ∈ e.published x.plan ∧ s ∈ e.task.outputs := by
  obtain ⟨hpub, hslot⟩ := History.published_of_mem h.valid h.fresh h.completed he ho
    (Or.inr rfl) hr hq
  exact ⟨hpub, hslot ▸ published_slot (h.previous_at he).filed hpub⟩

theorem final_of_notMem_outputs (h : x.Proper res) (he : e ∈ x.evaluations)
    (ho : (e.outcome x.plan).isUnattempted = false) (hs : s ∉ e.task.outputs) :
    x.final.current.recordsBy s (some e.task.id) = [] :=
  Generation.recordsBy_eq_nil.mpr fun _ hr hq => hs (h.published_of_final he ho hr hq).2

theorem final_of_failure (h : x.Proper res) (he : e ∈ x.evaluations)
    (ho : (e.outcome x.plan).isFailure = true) : x.final.current.recordsBy s (some e.task.id) = [] := by
  obtain ⟨fault, hfault⟩ : ∃ fault, e.outcome x.plan = .failed fault := by
    cases hc : e.outcome x.plan <;> simp [hc, Outcome.isFailure] at ho ⊢
  have hnothing : e.published x.plan = [] := (e.evaluated x.plan).published_of_not_success
    (h.previous_at he).filed (h.outputs_declared he) (by rw [hfault]; rfl)
  refine Generation.recordsBy_eq_nil.mpr fun r hr hq => ?_
  have hpub := (h.published_of_final he (by rw [hfault]; rfl) hr hq).1
  simp [hnothing] at hpub

theorem previous_of_reuse (h : x.Proper res) (he : e ∈ x.evaluations)
    (ho : e.outcome x.plan = .skipped .upToDate) {r : Record} (hr : r ∈ e.published x.plan) :
    x.site.ledger.previousRecords r.slot (some e.task.id) = [r] := by
  obtain ⟨s', -, hs', hq⟩ := (e.evaluated x.plan).published_old (fun reason heq => by simp [ho] at heq) hr
  rw [site_previous h.completed he] at hs'
  rw [h.previous.filed s' r hs']
  exact h.previous.single.recordsBy_eq hs' hq

theorem ended_eq_nil_iff (h : x.Proper res) {slot : Slot} (hslot : x.plan.catalog.find? s = some slot) :
    recordsAt x.ended.site.ledger.current s = [] ↔ s ∉ x.supplies.map (·.slot) ∧
      ∀ t ∈ x.plan.graph.tasks, s ∈ t.outputs → ∀ report ∈ res.reports, report.task = t.id →
        report.outcome.isSuccess = false := by
  obtain ⟨supplied, made, hrecords, hsupplied, hmade⟩ := h.ended_records hslot
  rw [hrecords, List.append_eq_nil_iff]
  refine and_congr ?_ ?_
  · rw [← List.length_eq_zero_iff, ← hsupplied.length_eq, length_mergedSupplies]
    simp
  · have hfills : made = [] ↔ x.evaluations.filter (Evaluation.fills x.plan s) = [] := by
      rw [← List.length_eq_zero_iff, ← List.length_eq_zero_iff, hmade.length_eq]
    rw [hfills, List.filter_eq_nil_iff]
    constructor
    · intro hall t ht hs report hr hid
      by_contra hsucc
      have hsucc : report.outcome.isSuccess = true := by simpa using hsucc
      obtain ⟨e, he, rfl, heo⟩ :=
        h.exists_evaluation_of_task hr ht hid (Outcome.not_unattempted_of_success hsucc)
      exact hall e he (Evaluation.fills_iff.mpr ⟨heo ▸ hsucc, hs⟩)
    · intro hall e he hfill
      obtain ⟨hsucc, hs⟩ := Evaluation.fills_iff.mp hfill
      have hfail := hall e.task (List.mem_of_getElem? (x.logged.task e he)) hs _ (h.report_mem he) rfl
      simp [hsucc] at hfail

theorem ended_of_leftAlone (h : x.Proper res) (hq : x.LeftAlone res q) :
    ∀ r ∈ recordsAt x.ended.site.ledger.current s, r.producer ≠ some q := by
  intro r hr hrq
  cases hslot : x.plan.catalog.find? s with
  | none => simp [h.ended_of_undeclared hslot] at hr
  | some slot =>
    obtain ⟨supplied, made, hrecords, hsupplied, hmade⟩ := h.ended_records hslot
    rw [hrecords] at hr
    rcases List.mem_append.mp hr with hr | hr
    · obtain ⟨_, -, hlr⟩ := exists_left_of_forall₂ hsupplied r hr
      obtain ⟨_, -, rfl⟩ := supplyRecord_ok hlr
      simp at hrq
    · obtain ⟨e, he, hpub, -⟩ := exists_left_of_forall₂ hmade r hr
      obtain ⟨he, hfill⟩ := List.mem_filter.mp he
      have hsucc := (Evaluation.fills_iff.mp hfill).1
      obtain rfl : e.task.id = q := Option.some.inj ((published_producer hpub).symm.trans hrq)
      exact h.not_leftAlone he (Outcome.not_unattempted_of_success hsucc) hq

theorem final_recordsAt (h : x.Proper res) {slot : Slot} (hslot : x.plan.catalog.find? s = some slot) :
    recordsAt x.final.current s = Ledger.takeOver slot (recordsAt x.site.ledger.previous s)
      (SlotBuild.unattempted x.plan.graph x.site.ledger.previous res.reports)
      (recordsAt x.ended.site.ledger.current s) := by
  have hprev := ended_previous h.completed
  rw [(result_of_ok h.completed).2, Ledger.recordsAt_carryForwardAll hslot, hprev]

theorem previousRecords_eq_nil {l : Ledger} :
    l.previousRecords s (some q) = [] ↔ ∀ r ∈ recordsAt l.previous s, r.producer ≠ some q :=
  Generation.recordsBy_eq_nil

theorem final_of_room (h : x.Proper res) (hq : x.LeftAlone res q) (hroom : x.Room res s q) :
    x.final.current.recordsBy s (some q) = x.site.ledger.previousRecords s (some q) := by
  obtain ⟨slot, hslot, hroom⟩ := hroom
  have hnone := h.ended_of_leftAlone (s := s) hq
  have hold := h.previous.single
  have hprevious : x.site.ledger.previousRecords s (some q) =
      (recordsAt x.site.ledger.previous s).filter fun r => r.producer = some q := hold.recordsBy_eq_filter
  rw [h.final_tidy.single.recordsBy_eq_filter, h.final_recordsAt hslot, hprevious]
  by_cases hmem : q ∈ SlotBuild.unattempted x.plan.graph x.site.ledger.previous res.reports
  · refine Ledger.filter_takeOver_of_room (hold s) (sortedSet_increasing _) hmem hnone fun happ => ?_
    obtain ⟨hsup, hmade, hbefore⟩ := hroom happ
    refine ⟨(h.ended_eq_nil_iff hslot).mpr ⟨hsup, hmade⟩, fun q' hq' hlt => ?_⟩
    exact previousRecords_eq_nil.mp (hbefore q' (mem_unattempted_iff.mp hq').1 hlt)
  · have hnothing : ∀ r ∈ recordsAt x.site.ledger.previous s, r.producer ≠ some q := fun r hr hrq =>
      hmem (mem_unattempted_iff.mpr ⟨hq, s, r, hr, hrq⟩)
    rw [Ledger.filter_takeOver_of_notMem hmem,
      List.filter_eq_nil_iff.mpr fun r hr => by simpa using hnone r hr,
      List.filter_eq_nil_iff.mpr fun r hr => by simpa using hnothing r hr]

theorem final_of_no_room (h : x.Proper res) (hq : x.LeftAlone res q) (hroom : ¬ x.Room res s q) :
    x.final.current.recordsBy s (some q) = [] := by
  have hnone := h.ended_of_leftAlone (s := s) hq
  cases hslot : x.plan.catalog.find? s with
  | none =>
    refine Generation.recordsBy_eq_nil.mpr fun r hr => ?_
    rw [(result_of_ok h.completed).2, Ledger.recordsAt_carryForwardAll_of_undeclared hslot] at hr
    exact hnone r hr
  | some slot =>
    rw [h.final_tidy.single.recordsBy_eq_filter, h.final_recordsAt hslot]
    have happ : slot.appendable = false := by
      by_contra happ
      exact hroom ⟨slot, hslot, fun hfalse => absurd hfalse happ⟩
    refine Ledger.filter_takeOver_of_taken (h.previous.single s) (sortedSet_increasing _) happ hnone ?_
    by_cases hempty : recordsAt x.ended.site.ledger.current s = []
    · right
      by_contra hbefore
      obtain ⟨hsup, hmade⟩ := (h.ended_eq_nil_iff hslot).mp hempty
      refine hroom ⟨slot, hslot, fun _ => ⟨hsup, hmade, fun q' hq' hlt => ?_⟩⟩
      refine previousRecords_eq_nil.mpr fun r hr hrq => hbefore ?_
      exact ⟨q', mem_unattempted_iff.mpr ⟨hq', s, r, hr, hrq⟩, hlt, r, hr, hrq⟩
    · exact Or.inl hempty

end records

end Proper

/-- What a session leaves in a slot, producer by producer, and that there is nothing else. -/
theorem legacy {x : Session} {res : SessionResult} (h : x.Proper res) (s : SlotId) :
    (x.final.current.recordsBy s none).length = (if s ∈ x.supplies.map (·.slot) then 1 else 0) ∧
    (∀ t ∈ x.plan.graph.tasks, ∀ report ∈ res.reports, report.task = t.id →
      (report.outcome.isSuccess = true →
        (x.final.current.recordsBy s (some t.id)).length = if s ∈ t.outputs then 1 else 0) ∧
      (report.outcome = .skipped .upToDate → s ∈ t.outputs →
        x.final.current.recordsBy s (some t.id) = x.site.ledger.previousRecords s (some t.id)) ∧
      (report.outcome.isFailure = true → x.final.current.recordsBy s (some t.id) = [])) ∧
    (∀ q, x.LeftAlone res q →
      (x.Room res s q →
        x.final.current.recordsBy s (some q) = x.site.ledger.previousRecords s (some q)) ∧
      (¬ x.Room res s q → x.final.current.recordsBy s (some q) = [])) ∧
    (∀ r ∈ x.final.currentRecords s, r.slot = s ∧ (r.producer = none ∨
      (∃ report ∈ res.reports, report.outcome.isSuccess = true ∧ r.producer = some report.task) ∨
      ∃ q, x.LeftAlone res q ∧ r.producer = some q)) ∧
    ((x.final.currentRecords s).map (·.producer)).Nodup := by
  refine ⟨?_, fun t ht report hr hid => ?_, fun q hq => ⟨h.final_of_room hq, h.final_of_no_room hq⟩,
    fun r hr => ?_, ?_⟩
  · rw [← h.final_supply.length_eq, length_mergedSupplies]
  · have hevaluation := h.exists_evaluation_of_task hr ht hid
    refine ⟨fun hsucc => ?_, fun hup hs => ?_, fun hfail => ?_⟩
    · obtain ⟨e, he, rfl, heo⟩ := hevaluation (Outcome.not_unattempted_of_success hsucc)
      split_ifs with hs
      · obtain ⟨r, -, -, hone⟩ := h.final_of_success he (heo ▸ hsucc) hs
        rw [hone, List.length_singleton]
      · rw [h.final_of_notMem_outputs he (heo ▸ Outcome.not_unattempted_of_success hsucc) hs, List.length_nil]
    · obtain ⟨e, he, rfl, heo⟩ := hevaluation (by rw [hup]; rfl)
      obtain ⟨r, hpub, rfl, hone⟩ := h.final_of_success he (by rw [heo, hup]; rfl) hs
      rw [hone, h.previous_of_reuse he (heo.trans hup) hpub]
    · obtain ⟨e, he, rfl, heo⟩ := hevaluation (by
        cases hc : report.outcome <;> simp [hc, Outcome.isFailure, Outcome.isUnattempted] at hfail ⊢)
      exact h.final_of_failure he (heo ▸ hfail)
  · have hr := Generation.mem_recordsIn.mp hr
    refine ⟨h.final_tidy.filed s r hr, ?_⟩
    rcases h.final_mem hr with (hnone | ⟨e, he, hpub⟩) | ⟨-, q, hq, hrq⟩
    · exact Or.inl hnone
    · have hproducer := published_producer hpub
      by_cases hsucc : (e.outcome x.plan).isSuccess = true
      · exact Or.inr (Or.inl ⟨_, h.report_mem he, hsucc, hproducer⟩)
      · have hnothing := (e.evaluated x.plan).published_of_not_success (h.previous_at he).filed
          (h.outputs_declared he) (by simpa using hsucc)
        simp [Evaluation.published, hnothing] at hpub
    · exact Or.inr (Or.inr ⟨q, hq, hrq⟩)
  · exact ((Generation.recordsIn_perm _ s).map _).nodup_iff.mpr (h.final_tidy.single s)

end Session

namespace Mill

def grain : Slot := Slot.multiple "grain" .file .sources

def flour : Slot := Slot.shared "flour" .file .intermediates

def bread : Slot := Slot.multiple "bread" .file .intermediates

def toast : Slot := Slot.single "toast" .file .outputs

def catalog : Catalog := ⟨[grain, flour, bread, toast]⟩

def grind : Task :=
  ((Task.make "grind" fun _ w => (.reported [("flour", [])], w)).withInput "grain").withOutput "flour"

def bake : Task :=
  ((Task.make "bake" fun _ w => (.failed "burnt", w)).withInput "flour").withOutput "bread"

def slice : Task :=
  ((Task.make "slice" fun _ w => (.reported [("toast", [])], w)).withInput "bread").withOutput "toast"

def graph : Graph where
  tasks := [grind, bake, slice]
  edges := [⟨0, 1, "flour"⟩, ⟨1, 2, "bread"⟩]
  producers := [("bread", [1]), ("flour", [0]), ("toast", [2])]
  supplied := ["grain"]

def note (slot : SlotId) (producer : TaskId) : Record := ⟨slot, [], "", none, some producer, 0⟩

/-- Flour of two tasks, of which `import` is gone by now, and what was made of it. -/
def earlier : Ledger := (Ledger.empty ⟨"state"⟩).writeAll
  [.record flour (note "flour" "grind"), .record flour (note "flour" "import"),
    .record bread (note "bread" "bake"), .record toast (note "toast" "slice")]

/-- All is made again; the second task fails and keeps the third one from its turn. -/
def burnt : Session where
  plan := ⟨catalog, graph, ⟨2, false, true⟩⟩
  supplies := [⟨"grain", []⟩]
  moves := []
  site := ⟨.after ⟨"state"⟩ earlier.current, ⟨.empty, [], [], 0, false, .bare⟩⟩

theorem burnt_proper : ∃ res, burnt.Proper res := by
  have hearlier : earlier.Kept := (Ledger.Kept.empty ⟨"state"⟩).writeAll _
  have hread : FileTree.read ⟨[(["state"], .file earlier.current.toBytes)]⟩ [] ⟨"state"⟩ =
      .ok earlier.current.toBytes := rfl
  have hbuilt : Graph.build catalog ["grain"] [grind, bake, slice] = .ok graph := rfl
  obtain ⟨res, hres⟩ : ∃ res, burnt.result.1 = .ok res := Session.exists_result rfl
  exact ⟨res, .build hbuilt, .inr ⟨_, _, _, earlier, hearlier, hread, Ledger.load_of_read hread⟩, hres⟩

def statuses (reports : List Report) : List (TaskId × Bool × Bool × Bool) :=
  reports.map fun r => (r.task, r.outcome.isSuccess, r.outcome.isFailure, r.outcome.isUnattempted)

theorem burnt_statuses : statuses (burnt.ended.reports graph) =
    [("grind", true, false, false), ("bake", false, true, false), ("slice", false, false, true)] := by
  decide +kernel

theorem exists_report {reports : List Report} {id : TaskId} {good bad idle : Bool}
    (h : (id, good, bad, idle) ∈ statuses reports) : ∃ report ∈ reports, report.task = id ∧
      report.outcome.isSuccess = good ∧ report.outcome.isFailure = bad ∧
        report.outcome.isUnattempted = idle := by
  obtain ⟨report, hreport, heq⟩ := List.mem_map.mp h
  simp only [Prod.mk.injEq] at heq
  exact ⟨report, hreport, heq⟩

/-- The supply and what was ground are there, a failure has left nothing, and what was kept from its
turn and what is gone from the graph have their records from before. -/
theorem burnt_leaves : ∃ res, burnt.Proper res ∧
    statuses res.reports =
      [("grind", true, false, false), ("bake", false, true, false), ("slice", false, false, true)] ∧
    (burnt.final.current.recordsBy "grain" none).length = 1 ∧
    (burnt.final.current.recordsBy "flour" (some "grind")).length = 1 ∧
    burnt.final.current.recordsBy "bread" (some "bake") = [] ∧
    burnt.final.current.recordsBy "toast" (some "slice") = [note "toast" "slice"] ∧
    burnt.final.current.recordsBy "flour" (some "import") = [note "flour" "import"] ∧
    ((burnt.final.currentRecords "flour").map (·.producer)).Nodup := by
  obtain ⟨res, h⟩ := burnt_proper
  have hstatuses : statuses res.reports =
      [("grind", true, false, false), ("bake", false, true, false), ("slice", false, false, true)] :=
    (congrArg statuses (Session.result_of_ok h.completed).1).trans burnt_statuses
  obtain ⟨ground, hground, hgrind, hgood, -, -⟩ := exists_report (by rw [hstatuses]; exact .head _)
  obtain ⟨lost, hlost, hbake, -, hbad, -⟩ := exists_report (by rw [hstatuses]; exact .tail _ (.head _))
  obtain ⟨idle, hidle, hslice, -, -, hskipped⟩ :=
    exists_report (by rw [hstatuses]; exact .tail _ (.tail _ (.head _)))
  have hunsliced : ∀ report ∈ res.reports, report.task = "slice" → report.outcome.isSuccess = false := by
    intro report hreport hid
    have hmem : (report.task, report.outcome.isSuccess, report.outcome.isFailure,
        report.outcome.isUnattempted) ∈ statuses res.reports := List.mem_map_of_mem hreport
    rw [hstatuses, hid] at hmem
    have hslice := (by simpa using hmem : report.outcome.isSuccess = false ∧
      report.outcome.isFailure = false ∧ report.outcome.isUnattempted = true)
    exact hslice.1
  have hold : ∀ r ∈ recordsAt burnt.site.ledger.previous "toast", r.producer = some "slice" := by
    decide
  have hroom : burnt.Room res "toast" "slice" := by
    refine ⟨toast, rfl, fun _ => ⟨by decide, fun t ht hs => ?_, fun q _ hlt => ?_⟩⟩
    · simp only [burnt, graph, List.mem_cons, List.not_mem_nil, or_false] at ht
      rcases ht with rfl | rfl | rfl
      · exact absurd hs (by decide)
      · exact absurd hs (by decide)
      · exact hunsliced
    · refine Session.Proper.previousRecords_eq_nil.mpr fun r hr hq => ?_
      obtain rfl : "slice" = q := Option.some.inj ((hold r hr).symm.trans hq)
      exact lt_irrefl _ hlt
  have hshared : burnt.Room res "flour" "import" := ⟨flour, rfl, fun happ => absurd happ (by decide)⟩
  obtain ⟨hgrain, -⟩ := Session.legacy h "grain"
  obtain ⟨-, hflour, himport, -, hnodup⟩ := Session.legacy h "flour"
  obtain ⟨-, hbread, -⟩ := Session.legacy h "bread"
  obtain ⟨-, -, htoast, -⟩ := Session.legacy h "toast"
  refine ⟨res, h, hstatuses, hgrain, (hflour grind (by simp [burnt, graph]) ground hground hgrind).1 hgood,
    (hbread bake (by simp [burnt, graph]) lost hlost hbake).2.2 hbad, ?_, ?_, hnodup⟩
  · rw [(htoast "slice" (.inr ⟨idle, hidle, hslice, hskipped⟩)).1 hroom]
    exact h.previous.single.recordsBy_eq (r := note "toast" "slice") (by decide) rfl
  · rw [(himport "import" (.inl rfl)).1 hshared]
    exact h.previous.single.recordsBy_eq (r := note "flour" "import") (by decide) rfl

end Mill

end SlotBuild
