import SlotBuild.Proofs.Session.Peaceful

/-! Two peaceful sessions from the same start over graphs that agree on their common tasks. A task
that both graphs have finds the same in both sessions and comes to the same, whatever else is run
beside it. -/

namespace SlotBuild

open Ledger (recordsAt)
open Coordinator

namespace Session

variable {x y : Session} {res res' : SessionResult} {d e : Evaluation} {l : Path}

/-- Two runs that start from the same contents and the same ledger, with any number of workers that
finish in any order; the actions of common tasks repeat what they do in the other run. -/
structure Concurs (y x : Session) : Prop where
  catalog : y.plan.catalog = x.plan.catalog
  graph : y.plan.graph.Agrees x.plan.graph
  supplies : y.supplies = x.supplies
  forced : y.plan.config.forceRebuildAll = x.plan.config.forceRebuildAll
  ledger : y.site.ledger = x.site.ledger
  contents : ∀ l, y.site.world.contentAt l = x.site.world.contentAt l
  peaceful : y.Peaceful ∧ x.Peaceful
  repeats : ∀ d ∈ y.evaluations, ∀ e ∈ x.evaluations, d.task = e.task → d.Repeats e

namespace Concurs

theorem symm (h : y.Concurs x) : x.Concurs y where
  catalog := h.catalog.symm
  graph := h.graph.symm
  supplies := h.supplies.symm
  forced := h.forced.symm
  ledger := h.ledger.symm
  contents l := (h.contents l).symm
  peaceful := h.peaceful.symm
  repeats e he d hd htask := (h.repeats d hd e he htask.symm).symm

theorem overlaps (h : y.Concurs x) : y.Overlaps x :=
  ⟨h.catalog, h.graph, h.supplies, fun _ _ => World.fingerprint_congr fun l _ => h.contents l⟩

theorem supplied (h : y.Concurs x) (hl : x.Supplied l) : y.Supplied l := by
  unfold Supplied at hl ⊢
  rwa [h.supplies]

section inputs

variable (h : y.Concurs x) (hx : x.Proper res) (hy : y.Proper res') (hd : d ∈ y.evaluations)
  (he : e ∈ x.evaluations) (htask : d.task = e.task)
  (hbefore : ∀ d' ∈ y.evaluations, ∀ e' ∈ x.evaluations, d'.task = e'.task →
    x.plan.graph.Precedes e'.index e.index → d'.Matches y.plan x.plan e')
include h hx hy hd he

theorem contentAt_eq_of_untouched (hld : y.Supplied l ∨ d.Owns y.plan l)
    (hle : x.Supplied l ∨ e.Owns x.plan l) :
    d.site.world.contentAt l = e.site.world.contentAt l := by
  obtain ⟨logd, hfoundd⟩ := hy.exists_found h.peaceful.1.live hd
  obtain ⟨loge, hfounde⟩ := hx.exists_found h.peaceful.2.live he
  rw [hfoundd.contentAt_eq_begun hy h.peaceful.1 hld,
    hfounde.contentAt_eq_begun hx h.peaceful.2 hle, h.contents]

theorem previous_eq : d.site.ledger.previous = e.site.ledger.previous := by
  rw [site_previous hy.completed hd, site_previous hx.completed he, h.ledger]

include htask hbefore

theorem inputs_eq : ∀ s ∈ e.task.inputs, (d.site.ledger.currentRecords s).map Record.undated =
    (e.site.ledger.currentRecords s).map Record.undated := by
  intro s hs
  refine Generation.undated_eq_of_perm (hy.single_at hd) (hx.single_at he) ?_
  refine h.overlaps.inputs_perm hx hy hd he htask (fun d' hd' e' he' htask' hprec _ _ => ?_) hs
  exact hy.agree_of_matches hd' (hbefore d' hd' e' he' htask' hprec)

theorem contentAt_input {s : SlotId} (hs : s ∈ e.task.inputs) {r : Record}
    (hr : r ∈ e.site.ledger.currentRecords s) (hl : l ∈ r.locations) :
    d.site.world.contentAt l = e.site.world.contentAt l := by
  obtain ⟨logd, hfoundd⟩ := hy.exists_found h.peaceful.1.live hd
  obtain ⟨loge, hfounde⟩ := hx.exists_found h.peaceful.2.live he
  rcases hfounde.source hx hs hr with hsupplied | ⟨e', he', hprec, hpub⟩
  · have hsup := hsupplied l hl
    exact h.contentAt_eq_of_untouched hx hy hd he (Or.inl (h.supplied hsup)) (Or.inl hsup)
  · -- `y` has done the same task by now, and from then on the location belongs to it in both sessions
    have hmem' := hfounde.mem_of_log he'
    obtain ⟨a, hshared, hprec'⟩ := h.graph.exists_precedes hy.valid hx.valid
      (shared_of_task_eq hd he htask) hprec
    obtain ⟨d', hd', rfl, -⟩ := hfoundd.ready hy hprec'
    have htask' := task_eq_of_shared (hfoundd.mem_of_log hd') hmem' hshared
    have hmatch := hbefore d' (hfoundd.mem_of_log hd') e' hmem' htask' hprec
    obtain ⟨r', hr', heq⟩ := hmatch.exists_published hpub
    have hlocations : r'.undated.locations = r.undated.locations := congrArg Record.locations heq
    have howns : d'.Owns y.plan l := Or.inl ⟨r', hr', hlocations ▸ hl⟩
    have howns' : e'.Owns x.plan l := Or.inl ⟨r, hpub, hl⟩
    calc d.site.world.contentAt l
      _ = (d'.after y.plan).world.contentAt l := hfoundd.contentAt_eq_after h.peaceful.1 hd' howns
      _ = (e'.after x.plan).world.contentAt l := hmatch.contents r hpub l hl
      _ = e.site.world.contentAt l := (hfounde.contentAt_eq_after h.peaceful.2 he' howns').symm

theorem same : d.Same y.plan x.plan e := by
  have hprevious := h.previous_eq hx hy hd he
  have hinputs := h.inputs_eq hx hy hd he htask hbefore
  have hfingerprint : d.fingerprint = e.fingerprint :=
    Evaluation.fingerprint_eq htask fun s hs => .of_eq (hinputs s hs)
  refine ⟨h.catalog, h.forced, htask, hprevious, hinputs,
    fun s hs r hr l => h.contentAt_input hx hy hd he htask hbefore hs hr, fun l hl => ?_⟩
  have hl' : d.Recorded l := by
    obtain ⟨s, r, hr, hsame, hl⟩ := hl
    refine ⟨s, r, ?_, hfingerprint ▸ hsame, hl⟩
    rwa [previousRecords_congr hprevious, htask]
  exact h.contentAt_eq_of_untouched hx hy hd he (Or.inr (Or.inr hl')) (Or.inr (Or.inr hl))

end inputs

variable (h : y.Concurs x) (hx : x.Proper res) (hy : y.Proper res')
include h hx hy

/-- By induction along the graph: the tasks that a task depends on have come to the same, so it
finds the same and comes to the same. -/
theorem matched_at : ∀ i < x.plan.graph.size, ∀ d ∈ y.evaluations, ∀ e ∈ x.evaluations, d.task = e.task →
    e.index = i → d.Matches y.plan x.plan e := by
  refine hx.valid.acyclic.induction fun i _ ih d hd e he htask hei => ?_
  have hsame := h.same hx hy hd he htask fun d' hd' e' he' htask' hprec =>
    ih e'.index (hei ▸ hprec) d' hd' e' he' htask' rfl
  exact hsame.matched (h.repeats d hd e he htask) (h.peaceful.1.live.uncancelled hd)
    (h.peaceful.2.live.uncancelled he) (hx.previous_at he).filed (hx.outputs_declared he)

theorem matched (hd : d ∈ y.evaluations) (he : e ∈ x.evaluations) (htask : d.task = e.task) :
    d.Matches y.plan x.plan e :=
  h.matched_at hx hy e.index (Graph.lt_size_of_task? (x.logged.task e he)) d hd e he htask rfl

/-- Records that are taken over from the generation before are the same with their times. -/
theorem published_eq_of_reuse (hd : d ∈ y.evaluations) (he : e ∈ x.evaluations) (htask : d.task = e.task)
    (hup : d.outcome y.plan = .skipped .upToDate) : d.published y.plan = e.published x.plan := by
  have hup' : e.outcome x.plan = .skipped .upToDate := (h.matched hx hy hd he htask).outcome.symm.trans hup
  have hsame := history?_congr (t := e.task) (h.previous_eq hx hy hd he)
  have hhistory := d.history?_of_reuse hup
  rw [htask, hsame, e.history?_of_reuse hup'] at hhistory
  exact (Option.some.inj hhistory).symm

/-- A common task that gets its turn in one session gets it in the other. -/
theorem exists_evaluation_at : ∀ i < x.plan.graph.size, ∀ d ∈ y.evaluations,
    y.plan.graph.Shared x.plan.graph d.index i → ∃ e ∈ x.evaluations, e.index = i := by
  have hsteady := h.peaceful.2.live.steady fun e _ => by rw [h.peaceful.2.patient, Bool.false_and]
  refine hx.valid.acyclic.induction fun i hi ih d hd hshared => ?_
  obtain ⟨log, hfound⟩ := hy.exists_found h.peaceful.1.live hd
  obtain ⟨o, ho⟩ := x.logged.coherent.all_settled hx.valid.acyclic x.ended_isDone i hi
  obtain ⟨e, he, hei, -⟩ := hsteady.exists_evaluation ho fun j o' hj ho' => by
    obtain ⟨a, hshared', hprec⟩ := h.graph.exists_precedes hy.valid hx.valid hshared hj
    obtain ⟨d', hd', rfl, hsucc⟩ := hfound.ready hy hprec
    obtain ⟨e', he', rfl⟩ := ih j hj d' (hfound.mem_of_log hd') hshared'
    have htask := task_eq_of_shared (hfound.mem_of_log hd') he' hshared'
    have houtcome := x.settled he'
    rw [ho', ← (h.matched hx hy (hfound.mem_of_log hd') he' htask).outcome] at houtcome
    rwa [Option.some.inj houtcome]
  exact ⟨e, he, hei⟩

theorem exists_evaluation (hd : d ∈ y.evaluations) (ht : d.task ∈ x.plan.graph.tasks) :
    ∃ e ∈ x.evaluations, d.task = e.task := by
  obtain ⟨i, hi⟩ := List.mem_iff_getElem?.mp ht
  have hshared : y.plan.graph.Shared x.plan.graph d.index i := ⟨d.task, y.logged.task d hd, hi⟩
  obtain ⟨e, he, rfl⟩ := h.exists_evaluation_at hx hy i (Graph.lt_size_of_task? hi) d hd hshared
  exact ⟨e, he, task_eq_of_shared hd he hshared⟩

theorem outcomes_alike {k i : Nat} (hshared : y.plan.graph.Shared x.plan.graph k i) :
    (y.ended.outcomeOf k).Alike (x.ended.outcomeOf i) := by
  obtain ⟨t, hk, hi⟩ := hshared
  obtain ⟨o', ho'⟩ := y.logged.coherent.all_settled hy.valid.acyclic y.ended_isDone k
    (Graph.lt_size_of_task? hk)
  obtain ⟨o, ho⟩ := x.logged.coherent.all_settled hx.valid.acyclic x.ended_isDone i
    (Graph.lt_size_of_task? hi)
  rw [outcomeOf_eq ho, outcomeOf_eq ho']
  rcases h.peaceful.1.evaluated_or_blocked hy k (Graph.lt_size_of_task? hk) o' ho' with
    ⟨d, hd, rfl, rfl⟩ | ⟨q', rfl⟩
  · obtain ⟨e, he, rfl⟩ := h.exists_evaluation_at hx hy i (Graph.lt_size_of_task? hi) d hd ⟨t, hk, hi⟩
    obtain rfl : e.outcome x.plan = o := Option.some.inj ((x.settled he).symm.trans ho)
    exact Or.inl (h.matched hx hy hd he (task_eq_of_shared hd he ⟨t, hk, hi⟩)).outcome
  · rcases h.peaceful.2.evaluated_or_blocked hx i (Graph.lt_size_of_task? hi) o ho with
      ⟨e, he, rfl, rfl⟩ | ⟨q, rfl⟩
    · -- its turn in `x` would be its turn in `y`
      obtain ⟨d, hd, rfl⟩ := h.symm.exists_evaluation_at hy hx k (Graph.lt_size_of_task? hk) e he ⟨t, hi, hk⟩
      have hblocked := Option.some.inj ((y.settled hd).symm.trans ho')
      have hattempted := (h.peaceful.1.live.uncancelled hd).attempted
      rw [hblocked] at hattempted
      simp [Outcome.isUnattempted] at hattempted
    · exact Or.inr ⟨q', q, rfl, rfl⟩

theorem reports_alike {ks is : List Nat} (hshared : List.Forall₂ (y.plan.graph.Shared x.plan.graph) ks is) :
    List.Forall₂ Report.Alike
      (ks.filterMap fun k => (y.plan.graph.task? k).map fun t => ⟨t.id, y.ended.outcomeOf k⟩)
      (is.filterMap fun i => (x.plan.graph.task? i).map fun t => ⟨t.id, x.ended.outcomeOf i⟩) := by
  induction hshared with
  | nil => exact .nil
  | cons hshared _ ih =>
    obtain ⟨t, hk, hi⟩ := hshared
    simp only [List.filterMap_cons, hk, hi, Option.map_some]
    exact .cons ⟨rfl, h.outcomes_alike hx hy ⟨t, hk, hi⟩⟩ ih

theorem recordsBy_of_evaluated (hd : d ∈ y.evaluations) (he : e ∈ x.evaluations) (htask : d.task = e.task)
    (s : SlotId) : (y.final.current.recordsBy s (some e.task.id)).map Record.undated =
      (x.final.current.recordsBy s (some e.task.id)).map Record.undated := by
  have hmatch := h.matched hx hy hd he htask
  have hattempted := (h.peaceful.2.live.uncancelled he).attempted
  by_cases hsucc : (e.outcome x.plan).isSuccess = true
  · have hsucc' : (d.outcome y.plan).isSuccess = true := hmatch.outcome ▸ hsucc
    by_cases hs : s ∈ e.task.outputs
    · obtain ⟨r, hpub, hrs, hone⟩ := hx.final_of_success he hsucc hs
      obtain ⟨r', hpub', hrs', hone'⟩ := hy.final_of_success hd hsucc' (htask ▸ hs)
      rw [htask] at hone'
      rw [hone, hone', List.map_singleton, List.map_singleton,
        hy.agree_of_matches hd hmatch r' hpub' r hpub (hrs'.trans hrs.symm)]
    · have hnone := hy.final_of_notMem_outputs hd (hmatch.outcome ▸ hattempted) (htask ▸ hs)
      rw [htask] at hnone
      rw [hnone, hx.final_of_notMem_outputs he hattempted hs]
  · have hfail := Outcome.isFailure_of_attempted hattempted hsucc
    have hnone := hy.final_of_failure (s := s) hd (hmatch.outcome ▸ hfail)
    rw [htask] at hnone
    rw [hnone, hx.final_of_failure he hfail]

theorem recordsBy_supplied (s : SlotId) : (y.final.current.recordsBy s none).map Record.undated =
    (x.final.current.recordsBy s none).map Record.undated := by
  have hsupply := hy.final_supply (s := s)
  rw [h.supplies] at hsupply
  exact h.overlaps.supplied_eq hsupply hx.final_supply

end Concurs

end Session

end SlotBuild
