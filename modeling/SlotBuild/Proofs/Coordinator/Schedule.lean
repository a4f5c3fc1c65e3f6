import SlotBuild.Proofs.Coordinator.Record

/-! A session over an acyclic graph runs in an orderly way, whatever its workers answer, in
whatever order they do and whenever it is cancelled: it ends, every task gets exactly one outcome
and one report, and a task is only admitted while there is room, once all its dependencies have
succeeded, and as long as nothing forbids it. -/

namespace SlotBuild.Coordinator

/-- What the deeds so far say about the state that they led to. -/
structure Accounts (p : Plan) (log : List Deed) (c : Coordinator) : Prop where
  coherent : c.Coherent p []
  admitted_nodup : (admissions log).Nodup
  admitted_taken : ∀ i ∈ admissions log, i ∈ c.taken
  settled_nodup : ((completions log).map (·.1)).Nodup
  settled_iff : ∀ i o, (i, o) ∈ completions log ↔ c.outcome? i = some o
  halted_of_failure : p.config.failFast = true → ∀ x ∈ completions log, x.2.isFailure = true →
    c.halted = true
  bounded : c.inFlight ≤ workers p
  length_le : remaining p.graph c + log.length ≤ 3 * p.graph.size

theorem Deed.eq_taken_of_admitted {d : Deed} {i : Nat} (h : d.admitted? = some i) :
    d.taken? = some i := by
  cases d <;> simp_all [Deed.admitted?, Deed.taken?]

theorem start_accounts (p : Plan) (site : Site) : Accounts p [] (start p.graph site) where
  coherent := .start p site
  admitted_nodup := by simp [admissions]
  admitted_taken := by simp [admissions]
  settled_nodup := by simp [completions]
  settled_iff := by
    intro i o
    simp only [completions, List.filterMap_nil, List.not_mem_nil, false_iff, outcome?, start,
      List.getElem?_replicate]
    split <;> simp
  halted_of_failure := by simp [completions]
  bounded := by simp [inFlight, start]
  length_le := by
    simp only [remaining, start, List.length_nil]
    omega

namespace Step

variable {p : Plan} {c c' : Coordinator} {d : Option Deed}

theorem bounded (hs : Step p c d c') (hb : c.inFlight ≤ workers p) : c'.inFlight ≤ workers p := by
  cases hs with
  | accept room _ _ _ _ =>
    simp only [inFlight, List.length_append, List.length_singleton] at room ⊢
    omega
  | inherit _ _ => simpa [inFlight] using hb
  | cancel _ _ => simpa [inFlight] using hb
  | receive head =>
    simp only [inFlight, settle_running, settle_arrived, head, List.length_cons] at hb ⊢
    omega
  | answer o runs =>
    obtain ⟨hlt, -⟩ := List.getElem?_eq_some_iff.mp runs
    simp only [inFlight, List.length_append, List.length_singleton,
      List.length_eraseIdx_of_lt hlt] at hb ⊢
    omega
  | rest _ => exact hb

theorem halted (hs : Step p c d c') (hhalt : c.halted = true) : c'.halted = true := by
  cases hs with
  | accept _ _ _ going _ => simp [going] at hhalt
  | inherit _ _ => simpa using hhalt
  | cancel _ _ => simpa using hhalt
  | receive _ => simp [hhalt]
  | answer _ _ => exact hhalt
  | rest _ => exact hhalt

theorem halted_of_failure (hs : Step p c d c') (hff : p.config.failFast = true) {x : Nat × Outcome}
    (hx : d.bind Deed.settled? = some x) (hfail : x.2.isFailure = true) : c'.halted = true := by
  cases hs with
  | receive _ =>
    obtain rfl : _ = x := Option.some.inj hx
    simp [hff, hfail]
  | inherit _ _ =>
    obtain rfl : _ = x := Option.some.inj hx
    simp [Outcome.isFailure] at hfail
  | cancel _ _ =>
    obtain rfl : _ = x := Option.some.inj hx
    simp [Outcome.isFailure] at hfail
  | accept _ _ _ _ _ => simp [Deed.settled?] at hx
  | answer _ _ => simp [Deed.settled?] at hx
  | rest _ => simp at hx

end Step

theorem Accounts.step {p : Plan} {log : List Deed} {c c' : Coordinator} {d : Option Deed}
    (h : Accounts p log c) (hs : Step p c d c') : Accounts p (log ++ d.toList) c' := by
  obtain ⟨hnone, hout⟩ := h.coherent.outcome?_step hs
  obtain ⟨hnew, htaken⟩ := h.coherent.taken_step hs
  have hadmitted : ∀ i, d.bind Deed.admitted? = some i → d.bind Deed.taken? = some i := by
    intro i hi
    obtain ⟨e, rfl, he⟩ := Option.bind_eq_some_iff.mp hi
    exact Deed.eq_taken_of_admitted he
  refine ⟨h.coherent.step hs, ?_, ?_, ?_, ?_, ?_, ?_, ?_⟩
  · rw [admissions_append]
    refine List.nodup_append.mpr ⟨h.admitted_nodup, by cases d.bind Deed.admitted? <;> simp, ?_⟩
    rintro i hi j hj rfl
    exact hnew i (hadmitted i (Option.mem_toList.mp hj)) (h.admitted_taken i hi)
  · intro i hi
    rw [admissions_append, List.mem_append] at hi
    rcases hi with hi | hi
    · exact (htaken i).mpr (Or.inl (h.admitted_taken i hi))
    · exact (htaken i).mpr (Or.inr (hadmitted i (Option.mem_toList.mp hi)))
  · rw [completions_append, List.map_append]
    refine List.nodup_append.mpr ⟨h.settled_nodup, by cases d.bind Deed.settled? <;> simp, ?_⟩
    rintro i hi j hj rfl
    obtain ⟨⟨k, o⟩, hm, rfl⟩ := List.mem_map.mp hi
    obtain ⟨⟨k', o'⟩, hm', hk⟩ := List.mem_map.mp hj
    obtain rfl : k' = k := hk
    have hk' := (hnone k' o' (Option.mem_toList.mp hm')).2
    rw [(h.settled_iff k' o).mp hm] at hk'
    simp at hk'
  · intro i o
    rw [completions_append, List.mem_append, h.settled_iff, hout, Option.mem_toList]
  · intro hff x hx hfail
    rw [completions_append, List.mem_append] at hx
    rcases hx with hx | hx
    · exact hs.halted (h.halted_of_failure hff x hx hfail)
    · exact hs.halted_of_failure hff (Option.mem_toList.mp hx) hfail
  · exact hs.bounded h.bounded
  · have hr := h.coherent.remaining_step hs
    have hl := h.length_le
    rw [List.length_append]
    omega

theorem Accounts.follow {p : Plan} {log : List Deed} {c : Coordinator} (h : Accounts p log c)
    (turns : List Turn) : Accounts p (log ++ deeds p c turns) (follow p c turns) := by
  induction turns generalizing log c with
  | nil => simpa [deeds, Coordinator.follow] using h
  | cons t ts ih =>
    have ht := ih (h.step (turn_step p c t))
    rwa [List.append_assoc] at ht

theorem follow_accounts (p : Plan) (site : Site) (turns : List Turn) :
    Accounts p (deeds p (start p.graph site) turns) (follow p (start p.graph site) turns) := by
  simpa using (start_accounts p site).follow turns

theorem nextDeed?_isSome {p : Plan} {c : Coordinator} :
    (nextDeed? p c).isSome ↔ (c.inFlight < workers p ∧ c.frontier.ready ≠ []) ∨ c.arrived ≠ [] := by
  by_cases hroom : c.inFlight < workers p
  · cases hr : c.frontier.ready with
    | nil => cases harr : c.arrived <;> simp [nextDeed?, hroom, Frontier.pop?, hr, harr]
    | cons i rest =>
      simp only [nextDeed?, hroom, if_true, Frontier.pop?, hr, ne_eq, reduceCtorEq, not_false_eq_true,
        and_self, true_or, iff_true]
      split
      · rfl
      · split <;> rfl
  · cases harr : c.arrived <;> simp [nextDeed?, hroom, harr]

theorem workers_pos (p : Plan) : 0 < workers p := by
  simp only [workers]
  omega

theorem goes_on {p : Plan} {c : Coordinator} (hd : c.isDone = false) :
    (nextDeed? p c).isSome ∨ c.running ≠ [] := by
  rw [nextDeed?_isSome]
  by_contra hstuck
  simp only [not_or, not_and, not_not] at hstuck
  obtain ⟨⟨hready, harr⟩, hrun⟩ := hstuck
  have hidle : c.inFlight = 0 := by simp [inFlight, hrun, harr]
  have := hready (by rw [hidle]; exact workers_pos p)
  simp [isDone, this, hidle] at hd

theorem Coherent.all_settled {p : Plan} {c : Coordinator} (h : c.Coherent p [])
    (hg : p.graph.IsAcyclic) (hd : c.isDone = true) :
    ∀ i < p.graph.size, ∃ o, c.outcome? i = some o := by
  obtain ⟨hready, hrun, harr⟩ := idle_of_isDone hd
  intro i hi
  have hdone := h.tracks_taken.done_of_dry hg hready (taken_of_idle hrun harr).subset i hi
  exact Option.isSome_iff_exists.mp (mem_done.mp hdone)

theorem Accounts.settled_perm {p : Plan} {log : List Deed} {c : Coordinator} (h : Accounts p log c)
    (hall : ∀ i < p.graph.size, ∃ o, c.outcome? i = some o) :
    ((completions log).map (·.1)).Perm (List.range p.graph.size) := by
  apply (List.perm_ext_iff_of_nodup h.settled_nodup List.nodup_range).mpr
  intro i
  rw [List.mem_range, List.mem_map]
  constructor
  · rintro ⟨⟨j, o⟩, hm, rfl⟩
    have ho := (h.settled_iff j o).mp hm
    rw [← h.coherent.length_outcomes]
    by_contra hge
    simp [outcome?, List.getElem?_eq_none (Nat.le_of_not_lt hge)] at ho
  · intro hi
    obtain ⟨o, ho⟩ := hall i hi
    exact ⟨(i, o), (h.settled_iff i o).mpr ho, rfl⟩

theorem Accounts.reports_eq {p : Plan} {log : List Deed} {c : Coordinator} (h : Accounts p log c)
    (hg : p.graph.IsAcyclic) (hall : ∀ i < p.graph.size, ∃ o, c.outcome? i = some o) :
    List.Forall₂ (fun i r => ∃ t o, p.graph.task? i = some t ∧ (i, o) ∈ completions log ∧
      r = ⟨t.id, o⟩) p.graph.order (reports p.graph c) := by
  have hrange : ∀ i ∈ p.graph.order, i < p.graph.size :=
    fun i hi => List.mem_range.mp ((Graph.order_perm hg).mem_iff.mp hi)
  unfold reports
  generalize p.graph.order = is at hrange
  induction is with
  | nil => exact .nil
  | cons i is ih =>
    have hi := hrange i List.mem_cons_self
    obtain ⟨t, ht⟩ := Graph.exists_task? hi
    obtain ⟨o, ho⟩ := hall i hi
    have hof : c.outcomeOf i = o := by
      simp only [outcome?, Option.join_eq_some_iff] at ho
      simp [outcomeOf, ho]
    rw [List.filterMap_cons_some (b := ⟨t.id, o⟩) (by rw [ht, Option.map_some, hof])]
    exact .cons ⟨t, o, ht, (h.settled_iff i o).mpr ho, rfl⟩
      (ih fun j hj => hrange j (List.mem_cons_of_mem i hj))

theorem deed?_eq_accept {p : Plan} {c : Coordinator} {t : Turn} {i : Nat} :
    deed? p c t = some (.accept i) ↔ (turn p c t).running = c.running ++ [i] := by
  have hs := turn_step p c t
  generalize deed? p c t = d at hs
  generalize turn p c t = c' at hs
  cases hs with
  | accept _ _ _ _ _ => simp
  | inherit _ _ => simp
  | cancel _ _ => simp
  | receive _ => simp
  | @answer position _ o runs =>
    have hle : (c.running.eraseIdx position).length ≤ c.running.length := List.length_eraseIdx_le ..
    apply iff_of_false (by simp)
    intro heq
    have hlen := congrArg List.length heq
    simp only [List.length_append, List.length_singleton] at hlen
    omega
  | rest _ => simp

theorem Accounts.admit_ready {p : Plan} {log : List Deed} {c : Coordinator} (h : Accounts p log c)
    {t : Turn} {i : Nat} (hi : deed? p c t = some (.accept i)) :
    (∀ d ∈ p.graph.dependencies i, ∃ o, (d, o) ∈ completions log ∧ o.isSuccess = true) ∧
      c.site.world.cancelled = false ∧
      (p.config.failFast = true → ∀ x ∈ completions log, x.2.isFailure = false) := by
  have hs := turn_step p c t
  rw [hi] at hs
  generalize turn p c t = c' at hs
  cases hs with
  | accept room popped free going live =>
    refine ⟨fun d hd => ?_, live, fun hff x hx => ?_⟩
    · have hc := (h.coherent.pop popped).accept free
      obtain ⟨o, ho, hsucc⟩ := hc.clear i (by simp [underway]) d (Graph.mem_dependencies.mp hd)
      exact ⟨o, (h.settled_iff d o).mpr ho, hsucc⟩
    · by_contra hfail
      have := h.halted_of_failure hff x hx (by simpa using hfail)
      simp [going] at this

def finishMoves (p : Plan) : Nat → Coordinator → List Move
  | 0, _ => []
  | fuel + 1, c =>
    if c.isDone then [] else nextMove p c :: finishMoves p fuel (move p c (nextMove p c))

theorem finishWithin_eq_run (p : Plan) (fuel : Nat) (c : Coordinator) :
    finishWithin p fuel c = run p c (finishMoves p fuel c) := by
  induction fuel generalizing c with
  | zero => rfl
  | succ fuel ih =>
    simp only [finishWithin, finishMoves]
    split
    · rfl
    · rw [ih]
      rfl

/-- All the moves of a session: the given ones and those that finish it. -/
def schedule (p : Plan) (site : Site) (moves : List Move) : List Move :=
  moves ++ finishMoves p (3 * p.graph.size + 1) (run p (start p.graph site) moves)

theorem complete_eq_run (p : Plan) (site : Site) (moves : List Move) :
    complete p site moves = run p (start p.graph site) (schedule p site moves) := by
  rw [complete, finish, finishWithin_eq_run, schedule, run, run, run, List.foldl_append]

theorem Accounts.nextMove_deeds {p : Plan} {log : List Deed} {c : Coordinator} (h : Accounts p log c)
    (hd : c.isDone = false) : deeds p c (turnsOf p c (nextMove p c)) ≠ [] := by
  have hcoordinate : (nextDeed? p c).isSome → deeds p c (turnsOf p c .coordinate) ≠ [] := by
    intro hsome
    obtain ⟨deed, hdeed⟩ := Option.isSome_iff_exists.mp hsome
    simp [turnsOf, deeds, deed?, hdeed]
  rw [nextMove]
  split_ifs with hr harr
  · simp only [Bool.and_eq_true, decide_eq_true_eq, Bool.not_eq_true', List.isEmpty_eq_false_iff] at hr
    exact hcoordinate (nextDeed?_isSome.mpr (Or.inl hr))
  · simp only [Bool.and_eq_true, decide_eq_true_eq, Bool.not_eq_true', List.isEmpty_eq_false_iff] at hr
    have hnone : ¬ (nextDeed? p c).isSome = true := by
      rw [nextDeed?_isSome, List.isEmpty_iff.mp harr]
      simpa using hr
    obtain ⟨i, rest, hrun⟩ := List.exists_cons_of_ne_nil ((goes_on hd).resolve_left hnone)
    obtain ⟨t, ht⟩ := Graph.exists_task? (h.coherent.lt_size (i := i) (by simp [underway, hrun]))
    simp [turnsOf, hrun, ht, deeds, deed?, turn]
  · exact hcoordinate (nextDeed?_isSome.mpr (Or.inr (by simpa using harr)))

theorem Accounts.isDone_finishWithin {p : Plan} {log : List Deed} {c : Coordinator}
    (h : Accounts p log c) {fuel : Nat} (hfuel : 3 * p.graph.size < log.length + fuel) :
    (finishWithin p fuel c).isDone = true := by
  induction fuel generalizing log c with
  | zero =>
    have := h.length_le
    omega
  | succ fuel ih =>
    simp only [finishWithin]
    split_ifs with hd
    · assumption
    · have hnext := h.follow (turnsOf p c (nextMove p c))
      rw [follow_turnsOf] at hnext
      have hpos := List.length_pos_iff.mpr (h.nextMove_deeds (by simpa using hd))
      refine ih hnext ?_
      rw [List.length_append]
      omega

theorem complete_isDone (p : Plan) (site : Site) (moves : List Move) :
    (complete p site moves).isDone = true := by
  obtain ⟨turns, hturns⟩ := exists_follow_eq_run p (start p.graph site) moves
  rw [complete, finish, hturns]
  exact (follow_accounts p site turns).isDone_finishWithin (by omega)

/-- What holds after any turns of a session in which `log` was done. -/
structure Orderly (p : Plan) (log : List Deed) (c : Coordinator) : Prop where
  /-- No session goes on for ever. -/
  length_le : log.length ≤ 3 * p.graph.size
  /-- No session gets stuck. -/
  goes_on : c.isDone = false → (nextDeed? p c).isSome ∨ c.running ≠ []
  /-- Every task has exactly one outcome in the end. -/
  settled_once : c.isDone = true → ((completions log).map (·.1)).Perm (List.range p.graph.size)
  settled_kept : ∀ i o, (i, o) ∈ completions log ↔ c.outcomes[i]? = some (some o)
  order_perm : p.graph.order.Perm (List.range p.graph.size)
  /-- Every task has exactly one report, in the order of the graph. -/
  reported : c.isDone = true → List.Forall₂ (fun i r => ∃ t o, p.graph.task? i = some t ∧
    (i, o) ∈ completions log ∧ r = ⟨t.id, o⟩) p.graph.order (reports p.graph c)
  admitted_iff : ∀ t i, deed? p c t = some (.accept i) ↔ (turn p c t).running = c.running ++ [i]
  admitted_once : (admissions log).Nodup
  admitted_ready : ∀ t i, (turn p c t).running = c.running ++ [i] →
    (∀ d ∈ p.graph.dependencies i, ∃ o, (d, o) ∈ completions log ∧ o.isSuccess = true) ∧
      c.site.world.cancelled = false ∧
      (p.config.failFast = true → ∀ x ∈ completions log, x.2.isFailure = false)
  inFlight_le : c.inFlight ≤ max 1 p.config.maxParallelism

/-- Every session over an acyclic graph is orderly after any turns, and the moves of a session are
such turns and bring it to its end. -/
theorem orderly_of_acyclic (p : Plan) (hg : p.graph.IsAcyclic) (site : Site) :
    (∀ turns, Orderly p (deeds p (start p.graph site) turns) (follow p (start p.graph site) turns)) ∧
      ∀ moves, (complete p site moves).isDone = true ∧
        ∃ turns, complete p site moves = follow p (start p.graph site) turns := by
  constructor
  · intro turns
    have h := follow_accounts p site turns
    refine ⟨?_, goes_on, fun hd => h.settled_perm (h.coherent.all_settled hg hd), fun i o => ?_,
      Graph.order_perm hg, fun hd => h.reports_eq hg (h.coherent.all_settled hg hd),
      fun t i => deed?_eq_accept,
      h.admitted_nodup, fun t i hi => h.admit_ready (deed?_eq_accept.mpr hi), h.bounded⟩
    · have := h.length_le
      omega
    · rw [h.settled_iff, outcome?, Option.join_eq_some_iff]
  · intro moves
    refine ⟨complete_isDone p site moves, ?_⟩
    rw [complete_eq_run]
    exact exists_follow_eq_run p _ _

/-- Two tasks, of which the second reads what the first makes. -/
def chain : Plan where
  catalog := ⟨[Slot.multiple "mid" .file .intermediates]⟩
  graph := ⟨[(Task.make "head" fun _ w => (.failed "no", w)).withOutput "mid",
    (Task.make "tail" fun _ w => (.panicked, w)).withInput "mid"], [⟨0, 1, "mid"⟩], [("mid", [0])], []⟩
  config := ⟨2, true, false⟩

def quiet : Site := ⟨.empty ⟨"state"⟩, ⟨.empty, [], [], 0, false, .bare⟩⟩

theorem chain_orderly : chain.graph.IsAcyclic ∧ (complete chain quiet []).isDone = true ∧
    ∃ log, Orderly chain log (complete chain quiet []) := by
  have hg : chain.graph.IsAcyclic := .of_increasing (by decide)
  obtain ⟨horderly, hcomplete⟩ := orderly_of_acyclic chain hg quiet
  obtain ⟨hdone, turns, heq⟩ := hcomplete []
  exact ⟨hg, hdone, _, heq ▸ horderly turns⟩

end SlotBuild.Coordinator
