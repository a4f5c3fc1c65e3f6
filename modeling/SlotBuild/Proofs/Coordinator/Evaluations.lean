import SlotBuild.Proofs.Coordinator.Record
import SlotBuild.Proofs.Evaluation

/-! The evaluations that the workers of a session carry out, in order. Each task is evaluated at
most once, what becomes of it is what the coordinator notes, and the ledger of a session passes from
one evaluation to the next. -/

namespace SlotBuild

/-- A worker evaluates a task of the graph; `site` is what it finds. -/
structure Evaluation where
  index : Nat
  task : Task
  site : Site

namespace Evaluation

def outcome (p : Plan) (e : Evaluation) : Outcome := (evaluate p.catalog p.config e.task e.site).1

def after (p : Plan) (e : Evaluation) : Site := (evaluate p.catalog p.config e.task e.site).2

def published (p : Plan) (e : Evaluation) : List Record :=
  SlotBuild.published p.catalog p.config e.task e.site

def fingerprint (e : Evaluation) : String := e.task.fingerprintAt e.site

theorem evaluated (p : Plan) (e : Evaluation) :
    Evaluated p.catalog p.config e.task e.site (e.outcome p) (e.after p) := evaluate_evaluated _ _ _ _

end Evaluation

namespace Coordinator

def evaluation? (p : Plan) (c : Coordinator) : Move → Option Evaluation
  | .work position =>
    (c.running[position]?).bind fun i => (p.graph.task? i).map fun t => ⟨i, t, c.site⟩
  | _ => none

def evaluations (p : Plan) : Coordinator → List Move → List Evaluation
  | _, [] => []
  | c, m :: ms => (evaluation? p c m).toList ++ evaluations p (move p c m) ms

theorem evaluations_append (p : Plan) (c : Coordinator) (ms ns : List Move) :
    evaluations p c (ms ++ ns) = evaluations p c ms ++ evaluations p (run p c ms) ns := by
  induction ms generalizing c with
  | nil => rfl
  | cons m ms ih => simp [evaluations, ih, run]

variable {p : Plan} {c c' : Coordinator}

theorem evaluation?_eq_some {m : Move} {e : Evaluation} (h : evaluation? p c m = some e) :
    ∃ position, m = .work position ∧ c.running[position]? = some e.index ∧
      p.graph.task? e.index = some e.task ∧ e.site = c.site := by
  cases m with
  | coordinate => simp [evaluation?] at h
  | cancel => simp [evaluation?] at h
  | work position =>
    obtain ⟨i, hi, h⟩ := Option.bind_eq_some_iff.mp h
    obtain ⟨t, ht, rfl⟩ := Option.map_eq_some_iff.mp h
    exact ⟨position, rfl, hi, ht, rfl⟩

theorem work_of_evaluation?_eq_none {position : Nat} (h : evaluation? p c (.work position) = none) :
    work p position c = c := by
  cases hi : c.running[position]? with
  | none => simp [work, hi]
  | some i =>
    simp only [evaluation?, hi, Option.bind_some, Option.map_eq_none_iff] at h
    simp [work, hi, h]

theorem exists_split_of_mem_evaluations {moves : List Move} {e : Evaluation}
    (he : e ∈ evaluations p c moves) : ∃ earlier m later, moves = earlier ++ m :: later ∧
      evaluation? p (run p c earlier) m = some e := by
  induction moves generalizing c with
  | nil => simp [evaluations] at he
  | cons m ms ih =>
    rcases List.mem_append.mp he with he | he
    · exact ⟨[], m, ms, rfl, Option.mem_toList.mp he⟩
    · obtain ⟨earlier, m', later, rfl, hm⟩ := ih he
      exact ⟨m :: earlier, m', later, rfl, hm⟩

theorem exists_of_mem_evaluations {moves : List Move} {e : Evaluation}
    (he : e ∈ evaluations p c moves) : ∃ earlier later, moves = earlier ++ later ∧
      e.index ∈ (run p c earlier).running ∧ p.graph.task? e.index = some e.task ∧
      e.site = (run p c earlier).site := by
  obtain ⟨earlier, m, later, hmoves, hm⟩ := exists_split_of_mem_evaluations he
  obtain ⟨position, -, hi, ht, hsite⟩ := evaluation?_eq_some hm
  exact ⟨earlier, m :: later, hmoves, List.mem_of_getElem? hi, ht, hsite⟩

/-- What the evaluations so far say about the state that they led to. -/
structure Logged (p : Plan) (log : List Evaluation) (c : Coordinator) : Prop where
  coherent : c.Coherent p []
  task : ∀ e ∈ log, p.graph.task? e.index = some e.task
  nodup : (log.map (·.index)).Nodup
  kept : ∀ e ∈ log, (e.index, e.outcome p) ∈ c.arrived ∨ c.outcome? e.index = some (e.outcome p)
  arrived : ∀ i o, (i, o) ∈ c.arrived → ∃ e ∈ log, e.index = i ∧ e.outcome p = o
  settled : ∀ i o, c.outcome? i = some o → o.isUnattempted = false →
    ∃ e ∈ log, e.index = i ∧ e.outcome p = o

namespace Logged

variable {log : List Evaluation}

theorem start (p : Plan) (site : Site) : Logged p [] (start p.graph site) := by
  refine ⟨.start p site, by simp, by simp, by simp, by simp [Coordinator.start], ?_⟩
  intro i o ho
  simp only [outcome?, Coordinator.start, List.getElem?_replicate] at ho
  split at ho <;> simp at ho

theorem notMem_running (h : Logged p log c) {e : Evaluation} (he : e ∈ log) : e.index ∉ c.running := by
  intro hi
  rcases h.kept e he with harr | hset
  · have hnd := h.coherent.apart
    rw [List.nil_append, underway, List.nodup_append] at hnd
    exact hnd.2.2 _ hi _ (List.mem_map_of_mem harr) rfl
  · have hnone := h.coherent.unsettled e.index (by simp [underway, hi])
    simp [hset] at hnone

theorem inherited_isUnattempted (h : c.Coherent p []) {i : Nat} {reason : SkipReason}
    (hi : c.inherited[i]? = some (some reason)) : (Outcome.skipped reason).isUnattempted = true := by
  obtain ⟨d, t, o, -, -, -, hpass⟩ := h.inherits i reason hi
  cases reason with
  | upToDate => exact absurd hpass Outcome.passedOn_ne_upToDate
  | blocked _ => rfl
  | cancelled => rfl

theorem coordinate (h : Logged p log c) : Logged p log (coordinate p c) := by
  have hs := coordinate_step p c
  have hnot := nextDeed?_ne_answer p c
  obtain ⟨-, hout⟩ := h.coherent.outcome?_step hs
  have hcoh := h.coherent.step hs
  generalize nextDeed? p c = d at hs hout hnot
  generalize Coordinator.coordinate p c = c' at hs hout hcoh
  have hkeep : c'.arrived = c.arrived → ∀ e ∈ log,
      (e.index, e.outcome p) ∈ c'.arrived ∨ c'.outcome? e.index = some (e.outcome p) := by
    intro harr e he
    rw [harr, hout]
    exact (h.kept e he).imp_right Or.inl
  have hsettled : (∀ i o, d.bind Deed.settled? = some (i, o) → o.isUnattempted = false →
      ∃ e ∈ log, e.index = i ∧ e.outcome p = o) → ∀ i o, c'.outcome? i = some o →
        o.isUnattempted = false → ∃ e ∈ log, e.index = i ∧ e.outcome p = o := by
    intro hnew i o ho hun
    rcases (hout i o).mp ho with ho | hd
    · exact h.settled i o ho hun
    · exact hnew i o hd hun
  cases hs with
  | accept _ _ _ _ _ =>
    exact ⟨hcoh, h.task, h.nodup, hkeep rfl, h.arrived, hsettled (by simp [Deed.settled?])⟩
  | inherit popped bound =>
    have hun := inherited_isUnattempted h.coherent bound
    refine ⟨hcoh, h.task, h.nodup, hkeep (by simp), by simpa using h.arrived, hsettled fun i o heq ho => ?_⟩
    obtain ⟨rfl, rfl⟩ : _ ∧ _ = o := by simpa [Deed.settled?] using heq
    simp [hun] at ho
  | cancel popped _ =>
    refine ⟨hcoh, h.task, h.nodup, hkeep (by simp), by simpa using h.arrived, hsettled fun i o heq ho => ?_⟩
    obtain ⟨rfl, rfl⟩ : _ ∧ _ = o := by simpa [Deed.settled?] using heq
    simp [Outcome.isUnattempted] at ho
  | @receive i o rest head =>
    refine ⟨hcoh, h.task, h.nodup, fun e he => ?_, fun j o' hj => ?_, hsettled fun j o' heq _ => ?_⟩
    · rw [hout]
      rcases h.kept e he with harr | hset
      · rw [head] at harr
        rcases List.mem_cons.mp harr with heq | harr
        · exact Or.inr (Or.inr (by simp [Deed.settled?, heq]))
        · exact Or.inl (by simpa using harr)
      · exact Or.inr (Or.inl hset)
    · refine h.arrived j o' ?_
      rw [head]
      exact List.mem_cons_of_mem _ (by simpa using hj)
    · obtain ⟨rfl, rfl⟩ : i = j ∧ o = o' := by simpa [Deed.settled?] using heq
      exact h.arrived i o (by simp [head])
  | answer o _ => exact absurd rfl (hnot _ o)
  | rest site => exact ⟨hcoh, h.task, h.nodup, h.kept, h.arrived, h.settled⟩

theorem work (h : Logged p log c) {position : Nat} {e : Evaluation}
    (hrun : c.running[position]? = some e.index) (ht : p.graph.task? e.index = some e.task)
    (hsite : e.site = c.site) : Logged p (log ++ [e]) (work p position c) := by
  have hwork : Coordinator.work p position c = { c with
      running := c.running.eraseIdx position
      arrived := c.arrived ++ [(e.index, e.outcome p)]
      site := e.after p } := by
    simp [Coordinator.work, hrun, ht, Evaluation.outcome, Evaluation.after, hsite]
  have hcoh := (h.coherent.answer hrun (e.outcome p)).step (.rest (e.after p))
  have hnew : ∀ x ∈ log, x.index ≠ e.index := fun x hx heq =>
    h.notMem_running hx (heq ▸ List.mem_of_getElem? hrun)
  rw [hwork]
  refine ⟨hcoh, ?_, ?_, ?_, ?_, ?_⟩
  · intro x hx
    rcases List.mem_append.mp hx with hx | hx
    · exact h.task x hx
    · obtain rfl := List.mem_singleton.mp hx
      exact ht
  · rw [List.map_append]
    refine List.nodup_append.mpr ⟨h.nodup, by simp, ?_⟩
    rintro i hi j hj rfl
    obtain ⟨x, hx, rfl⟩ := List.mem_map.mp hi
    exact hnew x hx (by simpa using hj)
  · intro x hx
    rcases List.mem_append.mp hx with hx | hx
    · exact (h.kept x hx).imp_left (List.mem_append_left _)
    · obtain rfl := List.mem_singleton.mp hx
      exact Or.inl (by simp)
  · intro i o hm
    rcases List.mem_append.mp hm with hm | hm
    · obtain ⟨x, hx, hix⟩ := h.arrived i o hm
      exact ⟨x, List.mem_append_left _ hx, hix⟩
    · obtain ⟨rfl, rfl⟩ : i = e.index ∧ o = e.outcome p := by simpa using hm
      exact ⟨e, by simp, rfl, rfl⟩
  · intro i o ho hun
    obtain ⟨x, hx, hix⟩ := h.settled i o ho hun
    exact ⟨x, List.mem_append_left _ hx, hix⟩

theorem move (h : Logged p log c) (m : Move) :
    Logged p (log ++ (evaluation? p c m).toList) (move p c m) := by
  cases he : evaluation? p c m with
  | some e =>
    obtain ⟨position, rfl, hrun, ht, hsite⟩ := evaluation?_eq_some he
    exact h.work hrun ht hsite
  | none =>
    simp only [Option.toList_none, List.append_nil]
    cases m with
    | coordinate => exact h.coordinate
    | cancel => exact ⟨h.coherent.step (.rest _), h.task, h.nodup, h.kept, h.arrived, h.settled⟩
    | work position =>
      rw [Coordinator.move, work_of_evaluation?_eq_none he]
      exact h

theorem run (h : Logged p log c) (moves : List Move) :
    Logged p (log ++ evaluations p c moves) (run p c moves) := by
  induction moves generalizing log c with
  | nil => simpa [evaluations, Coordinator.run] using h
  | cons m ms ih =>
    have hm := ih (h.move m)
    rwa [List.append_assoc] at hm

theorem eq_of_index (h : Logged p log c) {e x : Evaluation} (he : e ∈ log) (hx : x ∈ log)
    (hi : e.index = x.index) : e = x := List.inj_on_of_nodup_map h.nodup he hx hi

theorem settled_of_isDone (h : Logged p log c) (hd : c.isDone = true) {e : Evaluation}
    (he : e ∈ log) : c.outcome? e.index = some (e.outcome p) := by
  apply (h.kept e he).resolve_left
  intro harr
  obtain ⟨-, -, hempty⟩ := idle_of_isDone hd
  simp [hempty] at harr

theorem exists_of_success (h : Logged p log c) {i : Nat} {o : Outcome} (ho : c.outcome? i = some o)
    (hs : o.isSuccess = true) : ∃ e ∈ log, e.index = i ∧ e.outcome p = o :=
  h.settled i o ho (Outcome.not_unattempted_of_success hs)

end Logged

theorem run_logged (p : Plan) (site : Site) (moves : List Move) :
    Logged p (evaluations p (start p.graph site) moves) (run p (start p.graph site) moves) := by
  simpa using (Logged.start p site).run moves

/-- No failure has halted the session so far, and whatever was settled was evaluated or has
inherited a reason not to be. -/
structure Steady (p : Plan) (log : List Evaluation) (c : Coordinator) : Prop where
  going : c.halted = false
  explained : ∀ i o, c.outcome? i = some o → (∃ e ∈ log, e.index = i ∧ e.outcome p = o) ∨
    ∃ d t o' reason, p.graph.Precedes d i ∧ p.graph.task? d = some t ∧ c.outcome? d = some o' ∧
      o'.passedOn t.id = some reason ∧ o = .skipped reason

namespace Steady

variable {log : List Evaluation}

theorem start (p : Plan) (site : Site) : Steady p [] (start p.graph site) := by
  refine ⟨rfl, fun i o ho => ?_⟩
  simp only [outcome?, Coordinator.start, List.getElem?_replicate] at ho
  split at ho <;> simp at ho

theorem coordinate (h : Steady p log c) (hlog : Logged p log c)
    (hcalm : ∀ e ∈ log, (p.config.failFast && (e.outcome p).isFailure) = false)
    (live : c.site.world.cancelled = false) : Steady p log (coordinate p c) := by
  have hs := coordinate_step p c
  have hnot := nextDeed?_ne_answer p c
  obtain ⟨-, hout⟩ := hlog.coherent.outcome?_step hs
  generalize nextDeed? p c = d at hs hout hnot
  generalize Coordinator.coordinate p c = c' at hs hout
  have hexplained : (∀ i o, d.bind Deed.settled? = some (i, o) → (∃ e ∈ log, e.index = i ∧ e.outcome p = o) ∨
      ∃ d t o' reason, p.graph.Precedes d i ∧ p.graph.task? d = some t ∧ c.outcome? d = some o' ∧
        o'.passedOn t.id = some reason ∧ o = .skipped reason) →
      ∀ i o, c'.outcome? i = some o → (∃ e ∈ log, e.index = i ∧ e.outcome p = o) ∨
        ∃ d t o' reason, p.graph.Precedes d i ∧ p.graph.task? d = some t ∧ c'.outcome? d = some o' ∧
          o'.passedOn t.id = some reason ∧ o = .skipped reason := by
    intro hnew i o ho
    have hold := ((hout i o).mp ho).elim (h.explained i o) (hnew i o)
    refine hold.imp_right ?_
    rintro ⟨k, t, o', reason, hk, ht, ho', hrest⟩
    exact ⟨k, t, o', reason, hk, ht, (hout k o').mpr (Or.inl ho'), hrest⟩
  cases hs with
  | accept _ _ _ _ _ => exact ⟨h.going, h.explained⟩
  | @inherit i rest reason _ bound =>
    refine ⟨by simpa using h.going, hexplained fun j o heq => Or.inr ?_⟩
    obtain ⟨rfl, rfl⟩ : i = j ∧ Outcome.skipped reason = o := by simpa [Deed.settled?] using heq
    obtain ⟨k, t, o', hk, ht, ho', hpass⟩ := hlog.coherent.inherits i reason bound
    exact ⟨k, t, o', reason, hk, ht, ho', hpass, rfl⟩
  | cancel _ cause => simp [h.going, live] at cause
  | @receive i o rest head =>
    obtain ⟨e, he, hei, heo⟩ := hlog.arrived i o (by simp [head])
    refine ⟨?_, hexplained fun j o' heq => Or.inl ?_⟩
    · have hfail := hcalm e he
      rw [heo] at hfail
      simp only [settle_halted, h.going, hfail, Bool.or_false]
    · obtain ⟨rfl, rfl⟩ : i = j ∧ o = o' := by simpa [Deed.settled?] using heq
      exact ⟨e, he, hei, heo⟩
  | answer o _ => exact absurd rfl (hnot _ o)
  | rest _ => exact ⟨h.going, h.explained⟩

theorem move (h : Steady p log c) (hlog : Logged p log c)
    (hcalm : ∀ e ∈ log, (p.config.failFast && (e.outcome p).isFailure) = false)
    (live : c.site.world.cancelled = false) (m : Move) :
    Steady p (log ++ (evaluation? p c m).toList) (move p c m) := by
  have hmono : ∀ {c' : Coordinator} {more : List Evaluation},
      Steady p log c' → Steady p (log ++ more) c' := by
    intro c' more h'
    refine ⟨h'.going, fun i o ho => (h'.explained i o ho).imp_left ?_⟩
    rintro ⟨e, he, heo⟩
    exact ⟨e, List.mem_append_left _ he, heo⟩
  cases m with
  | coordinate => exact hmono (h.coordinate hlog hcalm live)
  | cancel => exact hmono ⟨h.going, h.explained⟩
  | work position =>
    refine hmono ?_
    rw [Coordinator.move, Coordinator.work]
    split
    · exact h
    · split
      · exact h
      · exact ⟨h.going, h.explained⟩

theorem run (h : Steady p log c) (hlog : Logged p log c) {moves : List Move}
    (hcalm : ∀ e ∈ log ++ evaluations p c moves, (p.config.failFast && (e.outcome p).isFailure) = false)
    (live : ∀ earlier, earlier <+: moves → (run p c earlier).site.world.cancelled = false) :
    Steady p (log ++ evaluations p c moves) (run p c moves) := by
  induction moves generalizing log c with
  | nil => simpa [evaluations, Coordinator.run] using h
  | cons m ms ih =>
    rw [evaluations, ← List.append_assoc] at hcalm
    have hnow := h.move hlog (fun e he => hcalm e (by simp [he])) (live [] List.nil_prefix) m
    have hnext := ih hnow (hlog.move m) hcalm fun earlier hearlier =>
      live (m :: earlier) (List.cons_prefix_cons.mpr ⟨rfl, hearlier⟩)
    rwa [List.append_assoc] at hnext

/-- A task that depends on successes only was evaluated. -/
theorem exists_evaluation (h : Steady p log c) {i : Nat} {o : Outcome} (ho : c.outcome? i = some o)
    (hdeps : ∀ d o', p.graph.Precedes d i → c.outcome? d = some o' → o'.isSuccess = true) :
    ∃ e ∈ log, e.index = i ∧ e.outcome p = o := by
  refine (h.explained i o ho).resolve_right ?_
  rintro ⟨d, t, o', reason, hd, -, ho', hpass, -⟩
  have hnone : o'.passedOn t.id = none := Outcome.isSuccess_iff_passedOn.mp (hdeps d o' hd ho')
  simp [hnone] at hpass

end Steady

/-- A ledger passes through evaluations, each of which finds what the one before has left. -/
inductive Passes (p : Plan) (l : Ledger) : List Evaluation → Ledger → Prop where
  | nil : Passes p l [] l
  | snoc {log : List Evaluation} {e : Evaluation} (before : Passes p l log e.site.ledger) :
      Passes p l (log ++ [e]) (e.after p).ledger

theorem launch_site (g : Graph) (i : Nat) (c : Coordinator) : (launch g i c).site = c.site := by
  unfold launch
  split
  · exact settle_site
  · split
    · exact settle_site
    · rfl

theorem receive_site (p : Plan) (c : Coordinator) : (receive p c).site = c.site := by
  unfold receive
  split
  · rfl
  · exact settle_site

theorem coordinate_site (p : Plan) (c : Coordinator) : (coordinate p c).site = c.site := by
  unfold coordinate
  split
  · split
    · exact launch_site p.graph _ _
    · exact receive_site p c
  · exact receive_site p c

theorem Passes.move {l : Ledger} {log : List Evaluation} (h : Passes p l log c.site.ledger) (m : Move) :
    Passes p l (log ++ (evaluation? p c m).toList) (move p c m).site.ledger := by
  cases he : evaluation? p c m with
  | some e =>
    obtain ⟨position, rfl, hrun, ht, hsite⟩ := evaluation?_eq_some he
    have hafter : (Coordinator.move p c (.work position)).site = e.after p := by
      simp [Coordinator.move, work, hrun, ht, Evaluation.after, hsite]
    rw [hafter]
    rw [← hsite] at h
    exact .snoc h
  | none =>
    have hsame : (Coordinator.move p c m).site.ledger = c.site.ledger := by
      cases m with
      | coordinate => exact congrArg Site.ledger (coordinate_site p c)
      | cancel => rfl
      | work position => rw [Coordinator.move, work_of_evaluation?_eq_none he]
    simpa [hsame] using h

theorem Passes.run {l : Ledger} {log : List Evaluation} (h : Passes p l log c.site.ledger)
    (moves : List Move) : Passes p l (log ++ evaluations p c moves) (run p c moves).site.ledger := by
  induction moves generalizing log c with
  | nil => simpa [evaluations, Coordinator.run] using h
  | cons m ms ih =>
    have hm := ih (h.move m)
    rwa [List.append_assoc] at hm

theorem run_passes (p : Plan) (site : Site) (moves : List Move) :
    Passes p site.ledger (evaluations p (start p.graph site) moves)
      (run p (start p.graph site) moves).site.ledger := by
  have h : Passes p site.ledger [] (start p.graph site).site.ledger := .nil
  exact h.run moves

theorem Passes.exists_before {l l' : Ledger} {log : List Evaluation} (h : Passes p l log l')
    {e : Evaluation} (he : e ∈ log) :
    ∃ before, (before ++ [e]) ⊆ log ∧ Passes p l before e.site.ledger := by
  induction h with
  | nil => simp at he
  | @snoc log x hbefore ih =>
    rcases List.mem_append.mp he with he | he
    · obtain ⟨before, hsub, hpass⟩ := ih he
      exact ⟨before, List.Subset.trans hsub (List.subset_append_left _ _), hpass⟩
    · obtain rfl := List.mem_singleton.mp he
      exact ⟨log, List.Subset.refl _, hbefore⟩

theorem Passes.previous {l l' : Ledger} {log : List Evaluation} (h : Passes p l log l') :
    l'.previous = l.previous := by
  induction h with
  | nil => rfl
  | snoc _ ih => rw [(Evaluation.evaluated p _).previous, ih]

theorem Passes.path {l l' : Ledger} {log : List Evaluation} (h : Passes p l log l') : l'.path = l.path := by
  induction h with
  | nil => rfl
  | snoc _ ih => rw [(Evaluation.evaluated p _).ledger_eq, bindAll_path, ih]

end Coordinator

end SlotBuild
