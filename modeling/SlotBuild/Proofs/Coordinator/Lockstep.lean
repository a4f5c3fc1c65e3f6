import SlotBuild.Proofs.Coordinator.Blockage
import SlotBuild.Proofs.Coordinator.Evaluations

/-! A session with one worker. At most one task is under way, so the coordinator's frontier is
always where the order of the graph has got to, and the session settles the tasks in that order. -/

namespace SlotBuild

namespace Coordinator

/-- The order from here on, once the tasks under way are finished. -/
def later (p : Plan) (c : Coordinator) : List Nat :=
  p.graph.orderFrom p.graph.size (c.underway.foldl (fun f i => f.finish p.graph i) c.frontier)

def toSettle (p : Plan) (c : Coordinator) : List Nat := c.underway ++ later p c

def toEvaluate (p : Plan) (c : Coordinator) : List Nat := c.running ++ later p c

/-- Everything that a turn can do while at most one task is under way. -/
inductive Paced (p : Plan) (c c' : Coordinator) : Option Deed → Prop where
  | accept {i : Nat} (running : c.running = []) (arrived : c.arrived = []) (runs : c'.running = [i])
      (arrives : c'.arrived = []) (next : later p c = i :: later p c') : Paced p c c' (some (.accept i))
  | skip {i : Nat} {reason : SkipReason} (running : c.running = []) (arrived : c.arrived = [])
      (runs : c'.running = []) (arrives : c'.arrived = []) (next : later p c = i :: later p c') :
      Paced p c c' (some (.skip i reason))
  | receive {i : Nat} {o : Outcome} (running : c.running = []) (arrived : c.arrived = [(i, o)])
      (runs : c'.running = []) (arrives : c'.arrived = []) (next : later p c = later p c') :
      Paced p c c' (some (.receive i o))
  | answer {i : Nat} {o : Outcome} (running : c.running = [i]) (arrived : c.arrived = [])
      (runs : c'.running = []) (arrives : c'.arrived = [(i, o)]) (next : later p c = later p c') :
      Paced p c c' (some (.answer i o))
  | rest (runs : c'.running = c.running) (arrives : c'.arrived = c.arrived)
      (next : later p c = later p c') : Paced p c c' none

section turn

variable {p : Plan} {c c' : Coordinator} {d : Option Deed}

theorem later_of_idle (hrun : c.running = []) (harr : c.arrived = []) :
    later p c = p.graph.orderFrom p.graph.size c.frontier := by
  simp [later, underway, hrun, harr]

theorem later_of_one {i : Nat} (h : c.underway = [i]) :
    later p c = p.graph.orderFrom p.graph.size (c.frontier.finish p.graph i) := by
  simp [later, h]

theorem idle_of_room (hone : workers p = 1) (hroom : c.inFlight < workers p) :
    c.running = [] ∧ c.arrived = [] := by
  rw [hone, inFlight] at hroom
  exact ⟨List.eq_nil_of_length_eq_zero (by omega), List.eq_nil_of_length_eq_zero (by omega)⟩

theorem later_of_pop? (h : c.Coherent p []) (hrun : c.running = []) (harr : c.arrived = []) {i : Nat}
    {rest : Frontier} (hp : c.frontier.pop? = some (i, rest)) :
    later p c = i :: p.graph.orderFrom p.graph.size (rest.finish p.graph i) := by
  have ht := h.tracks_taken
  rw [taken_of_idle hrun harr] at ht
  rw [later_of_idle hrun harr]
  exact Graph.orderFrom_of_pop? ht hp

theorem alone_of_running (hbound : c.inFlight ≤ 1) {position i : Nat}
    (runs : c.running[position]? = some i) : position = 0 ∧ c.running = [i] ∧ c.arrived = [] := by
  obtain ⟨hlt, hget⟩ := List.getElem?_eq_some_iff.mp runs
  rw [inFlight] at hbound
  obtain ⟨j, hj⟩ : ∃ j, c.running = [j] := List.length_eq_one_iff.mp (by omega)
  obtain rfl : position = 0 := by omega
  exact ⟨rfl, by simpa [hj] using runs, List.eq_nil_of_length_eq_zero (by omega)⟩

theorem room_of_skip {t : Turn} {i : Nat} {reason : SkipReason}
    (h : deed? p c t = some (.skip i reason)) : c.inFlight < workers p := by
  cases t with
  | coordinate =>
    by_contra hfull
    simp only [deed?, nextDeed?, if_neg hfull] at h
    cases harr : c.arrived <;> simp [harr] at h
  | answer position o => simp [deed?] at h
  | change site => simp [deed?] at h

/-- A task that the coordinator skips is the next of the order. -/
theorem settle_paced (hone : workers p = 1) (h : c.Coherent p []) (hroom : c.inFlight < workers p)
    {i : Nat} {rest : Frontier} (hp : c.frontier.pop? = some (i, rest)) (reason : SkipReason) :
    Paced p c (settle p.graph i (.skipped reason) { c with frontier := rest })
      (some (.skip i reason)) := by
  obtain ⟨hrun, harr⟩ := idle_of_room hone hroom
  obtain ⟨t, ht⟩ := Graph.exists_task? (h.popped_new hp).1
  refine .skip hrun harr (by simpa using hrun) (by simpa using harr) ?_
  rw [later_of_pop? h hrun harr hp, later_of_idle (by simpa using hrun) (by simpa using harr),
    settle_frontier ht]

theorem turn_paced (hone : workers p = 1) (h : c.Coherent p []) (hbound : c.inFlight ≤ workers p)
    (t : Turn) : Paced p c (turn p c t) (deed? p c t) := by
  have hskip : ∀ i r, deed? p c t = some (.skip i r) → c.inFlight < workers p := fun _ _ => room_of_skip
  have hs := turn_step p c t
  rw [hone] at hbound
  generalize deed? p c t = d at hs hskip
  generalize turn p c t = c' at hs
  cases hs with
  | @accept i rest room popped _ _ _ =>
    obtain ⟨hrun, harr⟩ := idle_of_room hone room
    refine .accept hrun harr (by simp [hrun]) harr ?_
    rw [later_of_pop? h hrun harr popped]
    have hunder :
        ({ c with frontier := rest, running := c.running ++ [i] } : Coordinator).underway = [i] := by
      simp [underway, hrun, harr]
    rw [later_of_one hunder]
  | inherit popped _ => exact settle_paced hone h (hskip _ _ rfl) popped _
  | cancel popped _ _ => exact settle_paced hone h (hskip _ _ rfl) popped _
  | @receive i o rest head =>
    rw [inFlight, head, List.length_cons] at hbound
    have hrun : c.running = [] := List.eq_nil_of_length_eq_zero (by omega)
    obtain rfl : rest = [] := List.eq_nil_of_length_eq_zero (by omega)
    obtain ⟨t, ht⟩ := Graph.exists_task? (h.head_new head).1
    refine .receive hrun head (by simpa using hrun) (by simp) ?_
    have hunder : c.underway = [i] := by simp [underway, hrun, head]
    rw [later_of_one hunder, later_of_idle (by simpa using hrun) (by simp), settle_frontier ht]
  | @answer position i o runs =>
    obtain ⟨rfl, hrun, harr⟩ := alone_of_running hbound runs
    refine .answer hrun harr (by simp [hrun]) (by simp [harr]) ?_
    simp [later, underway, hrun, harr]
  | rest site => exact .rest rfl rfl rfl

namespace Paced

/-- What a turn settles is what was to be settled first. -/
theorem toSettle_eq (h : Paced p c c' d) :
    toSettle p c = (d.bind Deed.settled?).toList.map (·.1) ++ toSettle p c' := by
  cases h with
  | accept running arrived runs arrives next
  | skip running arrived runs arrives next
  | receive running arrived runs arrives next
  | answer running arrived runs arrives next =>
    simp [toSettle, underway, Deed.settled?, running, arrived, runs, arrives, next]
  | rest runs arrives next => simp [toSettle, underway, runs, arrives, next]

/-- A task is dropped from what is to be evaluated where it is skipped and where it is answered. -/
theorem toEvaluate_sublist (h : Paced p c c' d) : (toEvaluate p c').Sublist (toEvaluate p c) := by
  cases h with
  | accept running _ runs _ next
  | skip running _ runs _ next
  | receive running _ runs _ next
  | answer running _ runs _ next => simp [toEvaluate, running, runs, next]
  | rest runs _ next => simp [toEvaluate, runs, next]

end Paced

theorem toEvaluate_start (p : Plan) (site : Site) : toEvaluate p (start p.graph site) = p.graph.order := rfl

theorem toSettle_of_isDone (hd : c.isDone = true) : toSettle p c = [] := by
  obtain ⟨hready, hrun, harr⟩ := idle_of_isDone hd
  rw [toSettle, later_of_idle hrun harr, Graph.orderFrom_eq_nil hready]
  simp [underway, hrun, harr]

/-- What has been settled and what is still to be settled make up one sequence throughout. -/
theorem Accounts.toSettle_eq (hone : workers p = 1) {log : List Deed} (h : Accounts p log c)
    (turns : List Turn) : toSettle p c =
      (completions (deeds p c turns)).map (·.1) ++ toSettle p (Coordinator.follow p c turns) := by
  induction turns generalizing log c with
  | nil => simp [deeds, completions, Coordinator.follow]
  | cons t ts ih =>
    have hturn := (turn_paced hone h.coherent h.bounded t).toSettle_eq
    have hrest := ih (h.step (turn_step p c t))
    have hcompletions : completions (deeds p c (t :: ts)) =
        ((deed? p c t).bind Deed.settled?).toList ++ completions (deeds p (turn p c t) ts) := by
      have happend := completions_append [] (deed? p c t)
      simp only [List.nil_append] at happend
      rw [deeds, completions, List.filterMap_append, ← completions, ← completions, happend]
      rfl
    rw [hturn, hrest, hcompletions, List.map_append, List.append_assoc]
    rfl

end turn

section moves

variable {p : Plan} {c : Coordinator}

theorem move_sublist (hone : workers p = 1) {log : List Deed} (h : Accounts p log c) (m : Move) :
    ((evaluation? p c m).toList.map (·.index) ++ toEvaluate p (move p c m)).Sublist (toEvaluate p c) := by
  cases he : evaluation? p c m with
  | none =>
    cases m with
    | coordinate => exact (turn_paced hone h.coherent h.bounded .coordinate).toEvaluate_sublist
    | cancel => exact List.Sublist.refl _
    | work position =>
      rw [move, work_of_evaluation?_eq_none he]
      exact List.Sublist.refl _
  | some e =>
    obtain ⟨position, rfl, runs, ht, -⟩ := evaluation?_eq_some he
    obtain ⟨rfl, hrun, harr⟩ := alone_of_running (hone ▸ h.bounded) runs
    have hmove : toEvaluate p (move p c (.work 0)) = later p c := by
      simp [toEvaluate, later, underway, move, work, hrun, harr, ht]
    rw [hmove, toEvaluate, hrun]
    exact List.Sublist.refl _

theorem evaluations_sublist (hone : workers p = 1) {log : List Deed} (h : Accounts p log c)
    (moves : List Move) : ((evaluations p c moves).map (·.index)).Sublist (toEvaluate p c) := by
  induction moves generalizing log c with
  | nil => exact List.nil_sublist _
  | cons m ms ih =>
    have hnext := h.follow (turnsOf p c m)
    rw [follow_turnsOf] at hnext
    rw [evaluations, List.map_append]
    exact ((ih hnext).append_left _).trans (move_sublist hone h m)

end moves

/-- With one worker the tasks are settled in the order of the graph, whatever becomes of each of
them, and evaluated in the order in which they are reported. -/
theorem one_worker_keeps_order (p : Plan) (hone : p.config.maxParallelism ≤ 1) (site : Site) :
    (∀ turns, (completions (deeds p (start p.graph site) turns)).map (·.1) <+: p.graph.order ∧
      ((follow p (start p.graph site) turns).isDone = true →
        (completions (deeds p (start p.graph site) turns)).map (·.1) = p.graph.order)) ∧
    ∀ moves, (settlements p site moves).map (·.1) = p.graph.order ∧
      ((evaluations p (start p.graph site) (schedule p site moves)).map (·.task.id)).Sublist
        ((reports p.graph (complete p site moves)).map (·.task)) := by
  have hworkers : workers p = 1 := by
    rw [workers]
    omega
  have hturns : ∀ turns, p.graph.order = (completions (deeds p (start p.graph site) turns)).map (·.1) ++
      toSettle p (follow p (start p.graph site) turns) := fun turns =>
    (start_accounts p site).toSettle_eq hworkers turns
  refine ⟨fun turns => ⟨⟨_, (hturns turns).symm⟩, fun hd => ?_⟩, fun moves => ⟨?_, ?_⟩⟩
  · rw [hturns turns, toSettle_of_isDone hd, List.append_nil]
  · have hdone := complete_isDone p site moves
    rw [complete_eq_run, ← follow_turnsAlong] at hdone
    have horder := hturns (turnsAlong p (start p.graph site) (schedule p site moves))
    rw [toSettle_of_isDone hdone, List.append_nil] at horder
    exact horder.symm
  · have hindex := evaluations_sublist hworkers (start_accounts p site) (schedule p site moves)
    rw [toEvaluate_start] at hindex
    have htask := (run_logged p site (schedule p site moves)).task
    have hids : (evaluations p (start p.graph site) (schedule p site moves)).map (·.task.id) =
        ((evaluations p (start p.graph site) (schedule p site moves)).map (·.index)).filterMap
          fun i => (p.graph.task? i).map (·.id) := by
      rw [List.filterMap_map, ← List.filterMap_eq_map]
      refine List.filterMap_congr fun e he => ?_
      simp [htask e he]
    have hreports : (reports p.graph (complete p site moves)).map (·.task) =
        p.graph.order.filterMap fun i => (p.graph.task? i).map (·.id) := by
      rw [reports, List.map_filterMap]
      simp only [Option.map_map]
      rfl
    rw [hids, hreports]
    exact hindex.filterMap _

namespace Crossing

/-- What needs the other two is declared before them. -/
def backward : Plan where
  catalog := plan.catalog
  graph := ⟨[(failing "joint").withInputs ["x", "y"], source, aside], [⟨1, 0, "x"⟩, ⟨2, 0, "y"⟩],
    [("x", [1]), ("y", [2])], []⟩
  config := ⟨0, true, false⟩

/-- One task fails, which keeps the second from being started and blocks the third. -/
theorem backward_keeps_order : backward.config.maxParallelism ≤ 1 ∧
    settlements backward quiet [] =
      [(1, .failed (.action "no")), (2, .skipped .cancelled), (0, .skipped (.blocked "source"))] ∧
    (settlements backward quiet []).map (·.1) = backward.graph.order ∧
    ((evaluations backward (start backward.graph quiet) (schedule backward quiet [])).map
      (·.task.id)).Sublist ((reports backward.graph (complete backward quiet [])).map (·.task)) := by
  have hone : backward.config.maxParallelism ≤ 1 := by decide
  have hmixed : settlements backward quiet [] =
      [(1, .failed (.action "no")), (2, .skipped .cancelled), (0, .skipped (.blocked "source"))] := by
    decide +kernel
  obtain ⟨hsettled, hevaluated⟩ := (one_worker_keeps_order backward hone quiet).2 []
  exact ⟨hone, hmixed, hsettled, hevaluated⟩

end Crossing

end Coordinator

end SlotBuild
