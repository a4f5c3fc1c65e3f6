import SlotBuild.Proofs.Session.Mirror
import SlotBuild.Proofs.Session.World

/-! Sessions that nothing stops before their end and whose tasks keep to themselves: what a task
finds at a location is what the session has started with or what the owner of the location has left
there. -/

namespace SlotBuild

open Coordinator

namespace Outcome

/-- The same outcome, though a task that is blocked may name another failure. -/
def Alike (o o' : Outcome) : Prop :=
  o = o' ∨ ∃ q q', o = .skipped (.blocked q) ∧ o' = .skipped (.blocked q')

variable {o o' : Outcome}

theorem Alike.isSuccess_eq (h : o.Alike o') : o.isSuccess = o'.isSuccess := by
  rcases h with rfl | ⟨q, q', rfl, rfl⟩ <;> rfl

theorem Alike.isUnattempted_eq (h : o.Alike o') : o.isUnattempted = o'.isUnattempted := by
  rcases h with rfl | ⟨q, q', rfl, rfl⟩ <;> rfl

theorem isFailure_of_attempted (h : o.isUnattempted = false) (ho : ¬ o.isSuccess = true) :
    o.isFailure = true := by
  rcases o with _ | ⟨_ | _ | _⟩ | _ <;> simp [isUnattempted, isSuccess, isFailure] at h ho ⊢

theorem blocked_of_passedOn {task : TaskId} {reason : SkipReason} (h : o.passedOn task = some reason)
    (ho : o.isUnattempted = false ∨ ∃ q, o = .skipped (.blocked q)) : ∃ q, reason = .blocked q := by
  rcases ho with ho | ⟨q, rfl⟩
  · rcases o with _ | ⟨_ | _ | _⟩ | _ <;> simp [passedOn, isUnattempted] at h ho
    exact ⟨task, h.symm⟩
  · exact ⟨q, (Option.some.inj h).symm⟩

end Outcome

def Report.Alike (r r' : Report) : Prop := r.task = r'.task ∧ r.outcome.Alike r'.outcome

/-- What a task publishes is its own, and what it has recorded for the inputs that it has now. -/
def Evaluation.Owns (p : Plan) (e : Evaluation) (l : Path) : Prop :=
  (∃ r ∈ e.published p, l ∈ r.locations) ∨ e.Recorded l

namespace Session

def Supplied (x : Session) (l : Path) : Prop := ∃ m ∈ mergedSupplies x.supplies, l ∈ m.2

/-- Nothing stops the session before its end, and no task touches what is supplied or what another
task owns. -/
structure Peaceful (x : Session) : Prop where
  patient : x.plan.config.failFast = false
  live : x.Live
  confined : ∀ d ∈ x.evaluations, ∀ l,
    (x.Supplied l ∨ ∃ e ∈ x.evaluations, e.index ≠ d.index ∧ e.Owns x.plan l) →
      (d.after x.plan).world.contentAt l = d.site.world.contentAt l

/-- What was evaluated before `e`, and where the inputs of `e` come from. -/
structure Found (x : Session) (log : List Evaluation) (e : Evaluation) : Prop where
  split : ∃ rest, x.evaluations = log ++ e :: rest
  carries : Carries x.plan x.begun log e.site
  gathered : ∀ s ∈ e.task.inputs, ∃ supplied made,
    (e.site.ledger.currentRecords s).Perm (supplied ++ made) ∧
      Gathered x.plan x.supplies x.site.world log s supplied made

variable {x y : Session} {res res' : SessionResult} {d e : Evaluation} {log : List Evaluation} {l : Path}

theorem Proper.exists_found (h : x.Proper res) (hlive : x.Live) (he : e ∈ x.evaluations) :
    ∃ log, x.Found log e := by
  obtain ⟨earlier, m, later, hmoves, hm⟩ := exists_split_of_mem_evaluations he
  have hsite : e.site = (run x.plan (start x.plan.graph x.begun) earlier).site := by
    obtain ⟨_, -, -, -, hsite⟩ := evaluation?_eq_some hm
    exact hsite
  refine ⟨Coordinator.evaluations x.plan (start x.plan.graph x.begun) earlier, ⟨Coordinator.evaluations x.plan
    (move x.plan (run x.plan (start x.plan.graph x.begun) earlier) m) later, ?_⟩, ?_, fun s hs => ?_⟩
  · rw [evaluations, hmoves, evaluations_append, Coordinator.evaluations, hm]
    rfl
  · rw [hsite]
    refine run_carries x.plan x.begun fun hcancel => hlive.cancel_notMem ?_
    rw [hmoves]
    exact List.mem_append_left _ hcancel
  · exact gathered_after h.graph h.fresh h.previous.filed h.completed hm hs

theorem Proper.agree_of_matches (h : y.Proper res') (hd : d ∈ y.evaluations)
    (hmatch : d.Matches y.plan x.plan e) : Mirrors.Agree y x d e := by
  intro r hr r' hr' hslot
  obtain ⟨r'', hr'', heq⟩ := hmatch.exists_published hr'
  have hslot' : r''.undated.slot = r'.undated.slot := congrArg Record.slot heq
  rw [← heq, (d.evaluated y.plan).published_unique (h.previous_at hd) hr hr'' (hslot.trans hslot'.symm)]

namespace Found

theorem mem_of_log (h : x.Found log e) (hd : d ∈ log) : d ∈ x.evaluations := by
  obtain ⟨rest, hsplit⟩ := h.split
  rw [hsplit]
  exact List.mem_append_left _ hd

theorem index_ne (h : x.Found log e) (hd : d ∈ log) : e.index ≠ d.index := by
  obtain ⟨rest, hsplit⟩ := h.split
  have hnodup := x.logged.nodup
  rw [hsplit, List.map_append, List.nodup_append] at hnodup
  exact (hnodup.2.2 d.index (List.mem_map_of_mem hd) e.index (by simp)).symm

theorem mem (h : x.Found log e) : e ∈ x.evaluations := by
  obtain ⟨rest, hsplit⟩ := h.split
  simp [hsplit]

/-- Until `e` is evaluated, nobody touches what is supplied or what `e` owns. -/
theorem contentAt_eq_begun (h : x.Found log e) (hx : x.Proper res) (hpeace : x.Peaceful)
    (hl : x.Supplied l ∨ e.Owns x.plan l) : e.site.world.contentAt l = x.site.world.contentAt l := by
  rw [← begun_world hx.completed]
  refine h.carries.unchanged (f := fun w => w.contentAt l) fun d hd =>
    hpeace.confined d (h.mem_of_log hd) l (hl.imp_right fun howns => ?_)
  exact ⟨e, h.mem, h.index_ne hd, howns⟩

/-- From the time that `d` is done until `e` is evaluated, nobody touches what `d` owns. -/
theorem contentAt_eq_after (h : x.Found log e) (hpeace : x.Peaceful) (hd : d ∈ log)
    (hl : d.Owns x.plan l) : e.site.world.contentAt l = (d.after x.plan).world.contentAt l := by
  obtain ⟨before, after, rfl, -, hcarries⟩ := h.carries.exists_before hd
  refine hcarries.unchanged (f := fun w => w.contentAt l) fun d' hd' => ?_
  have hmem : d' ∈ before ++ d :: after := List.mem_append_right _ (List.mem_cons_of_mem d hd')
  refine hpeace.confined d' (h.mem_of_log hmem) l (Or.inr ⟨d, h.mem_of_log hd, ?_, hl⟩)
  obtain ⟨rest, hsplit⟩ := h.split
  have hnodup := x.logged.nodup
  rw [hsplit, List.append_assoc, List.map_append, List.nodup_append, List.cons_append, List.map_cons,
    List.nodup_cons] at hnodup
  intro heq
  refine hnodup.2.1.1 ?_
  rw [heq]
  exact List.mem_map_of_mem (List.mem_append_left _ hd')

theorem ready (h : x.Found log e) (hx : x.Proper res) {j : Nat} (hj : x.plan.graph.Precedes j e.index) :
    ∃ d ∈ log, d.index = j ∧ (d.outcome x.plan).isSuccess = true := by
  obtain ⟨d, hd, hdj, hod, -⟩ := exists_maker hx.valid h.mem h.gathered hj
  exact ⟨d, hd, hdj, hod⟩

/-- An input record is a supply, or a task that comes before has published it. -/
theorem source (h : x.Found log e) (hx : x.Proper res) {s : SlotId} (hs : s ∈ e.task.inputs) {r : Record}
    (hr : r ∈ e.site.ledger.currentRecords s) : (∀ l ∈ r.locations, x.Supplied l) ∨
      ∃ d ∈ log, x.plan.graph.Precedes d.index e.index ∧ r ∈ d.published x.plan := by
  obtain ⟨supplied, made, hperm, hgathered⟩ := h.gathered s hs
  rcases List.mem_append.mp (hperm.mem_iff.mp hr) with hr | hr
  · left
    obtain ⟨locations, hloc, hlr⟩ := exists_left_of_forall₂ hgathered.supply r hr
    obtain ⟨_, -, rfl⟩ := supplyRecord_ok hlr
    exact fun l hl => ⟨(s, locations), Keyed.mem_of_get? (Option.mem_toList.mp hloc), hl⟩
  · right
    obtain ⟨j, hj, d, hd, rfl, -, hpub, -⟩ := exists_left_of_forall₂ hgathered.production r hr
    exact ⟨d, hd, ⟨⟨d.index, e.index, s⟩,
      (hx.valid.mem_edges _).mpr ⟨hj, e.task, x.logged.task e h.mem, hs⟩, rfl, rfl⟩, hpub⟩

end Found

/-- In a peaceful session every task is evaluated, unless a failure blocks it. -/
theorem Peaceful.evaluated_or_blocked (h : x.Peaceful) (hx : x.Proper res) :
    ∀ i < x.plan.graph.size, ∀ o, x.ended.outcome? i = some o →
      (∃ e ∈ x.evaluations, e.index = i ∧ e.outcome x.plan = o) ∨ ∃ q, o = .skipped (.blocked q) := by
  have hsteady := h.live.steady fun e _ => by rw [h.patient, Bool.false_and]
  refine hx.valid.acyclic.induction fun i _ ih o ho => ?_
  rcases hsteady.explained i o ho with heval | ⟨j, t, o', reason, hj, -, ho', hpass, rfl⟩
  · exact Or.inl heval
  · right
    obtain ⟨q, rfl⟩ : ∃ q, reason = .blocked q := by
      refine Outcome.blocked_of_passedOn hpass ((ih j hj o' ho').imp_left ?_)
      rintro ⟨e, he, -, rfl⟩
      exact (h.live.uncancelled he).attempted
    exact ⟨q, rfl⟩

end Session

end SlotBuild
