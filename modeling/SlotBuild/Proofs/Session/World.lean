import SlotBuild.Proofs.Repetition
import SlotBuild.Proofs.Session.Run

/-! The world of a session that nobody cancels: it passes from one evaluation to the next, and only
actions change it. -/

namespace SlotBuild

theorem evaluate_world (c : Catalog) (config : SessionConfig) (t : Task) (site : Site) :
    (evaluate c config t site).2.world = site.world ∨
      (evaluate c config t site).2.world = (t.action (t.callAt site) site.world).2 := by
  by_cases hran : (∃ reason, verdict config t (t.fingerprintAt site) site = .error reason) ∧
      site.world.cancelled = false
  · obtain ⟨⟨reason, due⟩, live⟩ := hran
    exact Or.inr (evaluate_of_due due live).1
  · left
    unfold evaluate
    simp only []
    split
    case h_1 => split <;> rfl
    case h_2 reason due =>
      split_ifs with live
      · rfl
      · exact absurd ⟨⟨reason, due⟩, by simpa using live⟩ hran

namespace Coordinator

variable {p : Plan} {s s' : Site} {log : List Evaluation} {c : Coordinator}

theorem site_of_evaluation {m : Move} {e : Evaluation} (h : evaluation? p c m = some e) :
    e.site = c.site ∧ (move p c m).site = e.after p := by
  obtain ⟨position, rfl, hrun, ht, hsite⟩ := evaluation?_eq_some h
  exact ⟨hsite, by simp [move, work, hrun, ht, Evaluation.after, hsite]⟩

theorem site_of_no_evaluation {m : Move} (hm : m ≠ .cancel) (h : evaluation? p c m = none) :
    (move p c m).site = c.site := by
  cases m with
  | coordinate => exact coordinate_site p c
  | cancel => exact absurd rfl hm
  | work position => rw [move, work_of_evaluation?_eq_none h]

/-- A site passes through evaluations, each of which finds what the one before has left. -/
inductive Carries (p : Plan) (s : Site) : List Evaluation → Site → Prop where
  | nil : Carries p s [] s
  | snoc {log : List Evaluation} {e : Evaluation} (before : Carries p s log e.site) :
      Carries p s (log ++ [e]) (e.after p)

namespace Carries

theorem move (h : Carries p s log c.site) {m : Move} (hm : m ≠ .cancel) :
    Carries p s (log ++ (evaluation? p c m).toList) (move p c m).site := by
  cases he : evaluation? p c m with
  | some e =>
    obtain ⟨hsite, hafter⟩ := site_of_evaluation he
    rw [hafter]
    rw [← hsite] at h
    exact .snoc h
  | none => simpa [site_of_no_evaluation hm he] using h

theorem run (h : Carries p s log c.site) {moves : List Move} (hmoves : Move.cancel ∉ moves) :
    Carries p s (log ++ evaluations p c moves) (run p c moves).site := by
  induction moves generalizing log c with
  | nil => simpa [evaluations, Coordinator.run] using h
  | cons m ms ih =>
    obtain ⟨hm, hms⟩ := not_or.mp (List.mem_cons.not.mp hmoves)
    have hnext := ih (h.move (Ne.symm hm)) hms
    rwa [List.append_assoc] at hnext

theorem exists_before (h : Carries p s log s') {e : Evaluation} (he : e ∈ log) : ∃ before after,
    log = before ++ e :: after ∧ Carries p s before e.site ∧ Carries p (e.after p) after s' := by
  induction h with
  | nil => simp at he
  | @snoc log x hbefore ih =>
    rcases List.mem_append.mp he with he | he
    · obtain ⟨before, after, rfl, hpass, hrest⟩ := ih he
      exact ⟨before, after ++ [x], by simp, hpass, .snoc hrest⟩
    · obtain rfl := List.mem_singleton.mp he
      exact ⟨log, [], rfl, hbefore, .nil⟩

theorem eq_of_nil (h : Carries p s [] s') : s' = s := by
  generalize hnone : ([] : List Evaluation) = log at h
  cases h with
  | nil => rfl
  | snoc _ => simp at hnone

theorem of_cons {e : Evaluation} (h : Carries p s (e :: log) s') :
    e.site = s ∧ Carries p (e.after p) log s' := by
  generalize hall : e :: log = all at h
  induction h generalizing log with
  | nil => simp at hall
  | @snoc before x hbefore ih =>
    cases before with
    | nil =>
      obtain ⟨rfl, rfl⟩ := List.cons.inj hall
      exact ⟨hbefore.eq_of_nil, .nil⟩
    | cons y before =>
      obtain ⟨rfl, rfl⟩ := List.cons.inj hall
      obtain ⟨hsite, hrest⟩ := ih rfl
      exact ⟨hsite, .snoc hrest⟩

/-- What no evaluation changes is in the end as it was. -/
theorem unchanged {α : Type} {f : World → α} (h : Carries p s log s')
    (hlog : ∀ e ∈ log, f (e.after p).world = f e.site.world) : f s'.world = f s.world := by
  induction h with
  | nil => rfl
  | @snoc log e _ ih => exact (hlog e (by simp)).trans (ih fun x hx => hlog x (List.mem_append_left _ hx))

theorem world_eq (h : Carries p s log s')
    (hidle : ∀ e ∈ log, ∀ call w, (e.task.action call w).2 = w) : s'.world = s.world := by
  refine h.unchanged (f := id) fun e he => ?_
  rcases evaluate_world p.catalog p.config e.task e.site with hworld | hworld
  · exact hworld
  · exact hworld.trans (hidle e he _ _)

end Carries

/-- What neither a cancellation nor an evaluation changes is as it was. -/
theorem run_unchanged {α : Type} {f : World → α} (hcancel : ∀ w : World, f { w with cancelled := true } = f w)
    {moves : List Move} (hlog : ∀ e ∈ evaluations p c moves, f (e.after p).world = f e.site.world) :
    f (run p c moves).site.world = f c.site.world := by
  induction moves generalizing c with
  | nil => rfl
  | cons m ms ih =>
    have hmove : f (move p c m).site.world = f c.site.world := by
      by_cases hm : m = .cancel
      · rw [hm]
        exact hcancel c.site.world
      · cases he : evaluation? p c m with
        | none => rw [site_of_no_evaluation hm he]
        | some e =>
          obtain ⟨hsite, hafter⟩ := site_of_evaluation he
          rw [hafter, ← hsite]
          exact hlog e (by simp [evaluations, he])
    exact (ih fun e he => hlog e (List.mem_append_right _ he)).trans hmove

theorem run_carries (p : Plan) (site : Site) {moves : List Move} (hmoves : Move.cancel ∉ moves) :
    Carries p site (evaluations p (start p.graph site) moves) (run p (start p.graph site) moves).site := by
  have h : Carries p site [] (start p.graph site).site := .nil
  exact h.run hmoves

theorem cancel_notMem_schedule {site : Site} {moves : List Move} (hmoves : Move.cancel ∉ moves) :
    Move.cancel ∉ schedule p site moves := by
  have hfinish : ∀ fuel c, Move.cancel ∉ finishMoves p fuel c := by
    intro fuel
    induction fuel with
    | zero => simp [finishMoves]
    | succ fuel ih =>
      intro c hm
      rw [finishMoves] at hm
      split at hm
      · simp at hm
      · rcases List.mem_cons.mp hm with hm | hm
        · unfold nextMove at hm
          split at hm
          · simp at hm
          · split at hm <;> simp at hm
        · exact ih _ hm
  intro hm
  rcases List.mem_append.mp hm with hm | hm
  · exact hmoves hm
  · exact hfinish _ _ hm

end Coordinator

namespace Session

open Coordinator

variable {x : Session} {res : SessionResult}

theorem begun_world (h : x.result.1 = .ok res) : x.begun.world = x.site.world := by
  obtain ⟨rs, l, -, -, hbegun⟩ := takeSupplies_ok (begun_of_ok h)
  rw [hbegun]

theorem Live.cancel_notMem (h : x.Live) : Move.cancel ∉ schedule x.plan x.begun x.moves := by
  intro hm
  obtain ⟨earlier, later, hmoves⟩ := List.append_of_mem hm
  have hcancelled := h (earlier ++ [.cancel]) ⟨later, by rw [hmoves, List.append_assoc]; rfl⟩
  simp [run, move, cancel] at hcancelled

theorem Live.uncancelled (h : x.Live) {e : Evaluation} (he : e ∈ x.evaluations) : e.Uncancelled x.plan := by
  obtain ⟨earlier, m, later, hmoves, hm⟩ := exists_split_of_mem_evaluations he
  obtain ⟨position, rfl, hrun, ht, hsite⟩ := evaluation?_eq_some hm
  refine ⟨h.site he, ?_⟩
  have hlive := h (earlier ++ [.work position]) ⟨later, by rw [hmoves, List.append_assoc]; rfl⟩
  rw [run, List.foldl_append] at hlive
  rw [run] at hrun hsite
  simpa [move, work, hrun, ht, Evaluation.after, hsite] using hlive

theorem Live.carries (h : x.Live) : Carries x.plan x.begun x.evaluations x.ended.site := by
  rw [ended_eq_run]
  exact run_carries x.plan x.begun h.cancel_notMem

/-- A session goes on to its end if nobody cancels it, neither from outside nor by an action. -/
theorem live_of_quiet (h : x.result.1 = .ok res) (hmoves : Move.cancel ∉ x.moves)
    (hstart : x.site.world.cancelled = false)
    (hquiet : ∀ t ∈ x.plan.graph.tasks, ∀ call w, w.cancelled = false →
      (t.action call w).2.cancelled = false) :
    x.Live := by
  have hcarried : ∀ log s', (∀ e ∈ log, e.task ∈ x.plan.graph.tasks) → Carries x.plan x.begun log s' →
      s'.world.cancelled = false := by
    intro log s' htask hcarries
    induction hcarries with
    | nil => rw [begun_world h, hstart]
    | @snoc log e _ ih =>
      have hlive := ih fun y hy => htask y (List.mem_append_left _ hy)
      rcases evaluate_world x.plan.catalog x.plan.config e.task e.site with hworld | hworld
      · exact hworld ▸ hlive
      · rw [Evaluation.after, hworld]
        exact hquiet e.task (htask e (by simp)) _ _ hlive
  intro earlier hearlier
  have hnone : Move.cancel ∉ earlier := fun hm => cancel_notMem_schedule hmoves (hearlier.subset hm)
  refine hcarried _ _ (fun e he => ?_) (run_carries x.plan x.begun hnone)
  exact List.mem_of_getElem? ((run_logged x.plan x.begun earlier).task e he)

theorem Live.world_eq (hlive : x.Live) (h : x.result.1 = .ok res)
    (hidle : ∀ t ∈ x.plan.graph.tasks, ∀ call w, (t.action call w).2 = w) {e : Evaluation}
    (he : e ∈ x.evaluations) : e.site.world = x.site.world ∧ (e.after x.plan).world = x.site.world := by
  have hlog : ∀ y ∈ x.evaluations, ∀ call w, (y.task.action call w).2 = w := fun y hy =>
    hidle y.task (List.mem_of_getElem? (x.logged.task y hy))
  obtain ⟨before, after, hparts, hcarries, -⟩ := hlive.carries.exists_before he
  have hbefore : ∀ y ∈ before ++ [e], ∀ call w, (y.task.action call w).2 = w := by
    intro y hy
    refine hlog y ?_
    rw [hparts, List.append_cons]
    exact List.mem_append_left _ hy
  have hsite := hcarries.world_eq fun y hy => hbefore y (List.mem_append_left _ hy)
  rw [← begun_world h]
  exact ⟨hsite, hcarries.snoc.world_eq hbefore⟩

end Session

end SlotBuild
