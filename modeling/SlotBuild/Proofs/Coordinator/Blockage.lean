import SlotBuild.Proofs.Coordinator.Schedule
import SlotBuild.Proofs.Graph.Closure

/-! Which tasks a session reports as blocked. Of the reasons that the dependencies of a task pass
on, it keeps the one that comes first: a task below a failure is blocked unless a cancellation has
reached it before. -/

namespace SlotBuild

theorem Outcome.passedOn_eq_blocked {o : Outcome} {task f : TaskId}
    (h : o.passedOn task = some (.blocked f)) :
    (∃ fault, o = .failed fault ∧ f = task) ∨ o = .skipped (.blocked f) := by
  rcases o with _ | ⟨_ | _ | _⟩ | _ <;> simp_all [passedOn]

theorem Outcome.passedOn_eq_cancelled {o : Outcome} {task : TaskId}
    (h : o.passedOn task = some .cancelled) : o = .skipped .cancelled := by
  rcases o with _ | ⟨_ | _ | _⟩ | _ <;> simp_all [passedOn]

theorem evaluate_ne_blocked (c : Catalog) (config : SessionConfig) (t : Task) (site : Site) (f : TaskId) :
    (evaluate c config t site).1 ≠ .skipped (.blocked f) := by
  simp only [evaluate]
  split
  · split <;> simp
  · split
    · simp
    · simp only [execute]
      split
      · simp
      · split <;> simp
      · split
        · simp
        · split <;> simp

namespace Coordinator

/-- What task `j` inherits after these tasks have been settled in this order. -/
def bequest (g : Graph) (j : Nat) (settled : List (Nat × Outcome)) : Option SkipReason :=
  settled.findSome? fun x =>
    if j ∈ g.dependents x.1 then (g.task? x.1).bind fun t => x.2.passedOn t.id else none

section bequest

variable {g : Graph} {j : Nat} {settled : List (Nat × Outcome)}

theorem bequest_append (more : List (Nat × Outcome)) :
    bequest g j (settled ++ more) = (bequest g j settled).or (bequest g j more) := List.findSome?_append

theorem bequest_singleton {i : Nat} {t : Task} (ht : g.task? i = some t) (o : Outcome) :
    bequest g j [(i, o)] = if j ∈ g.dependents i then o.passedOn t.id else none := by
  simp [bequest, ht]

theorem bequest_singleton_of_not_precedes {i : Nat} (h : ¬ g.Precedes i j) (o : Outcome) :
    bequest g j [(i, o)] = none := by
  simp [bequest, h]

theorem exists_of_bequest {r : SkipReason} (h : bequest g j settled = some r) :
    ∃ d t o, (d, o) ∈ settled ∧ g.Precedes d j ∧ g.task? d = some t ∧ o.passedOn t.id = some r := by
  obtain ⟨⟨d, o⟩, hm, hd⟩ := List.exists_of_findSome?_eq_some h
  split_ifs at hd with hj
  obtain ⟨t, ht, hr⟩ := Option.bind_eq_some_iff.mp hd
  exact ⟨d, t, o, hm, Graph.mem_dependents.mp hj, ht, hr⟩

theorem exists_bequest {d : Nat} {t : Task} {o : Outcome} (hm : (d, o) ∈ settled) (hd : g.Precedes d j)
    (ht : g.task? d = some t) (ho : o.isSuccess = false) : ∃ r, bequest g j settled = some r := by
  by_contra hnone
  have hall := List.findSome?_eq_none_iff.mp (Option.eq_none_iff_forall_ne_some.mpr (not_exists.mp hnone))
  have hpass := hall (d, o) hm
  rw [if_pos (Graph.mem_dependents.mpr hd), ht, Option.bind_some,
    ← Outcome.isSuccess_iff_passedOn] at hpass
  simp [ho] at hpass

end bequest

def Turn.Honest : Turn → Prop
  | .answer _ o => ∀ f, o ≠ .skipped (.blocked f)
  | _ => True

theorem turnsAlong_honest (p : Plan) (c : Coordinator) (moves : List Move) :
    ∀ t ∈ turnsAlong p c moves, Turn.Honest t := by
  induction moves generalizing c with
  | nil => simp [turnsAlong]
  | cons m moves ih =>
    refine List.forall_mem_append.mpr ⟨?_, ih _⟩
    cases m with
    | coordinate => simp [turnsOf, Turn.Honest]
    | cancel => simp [turnsOf, Turn.Honest]
    | work position =>
      simp only [turnsOf]
      split
      · simp
      · simpa [Turn.Honest] using evaluate_ne_blocked _ _ _ _

/-- What the tasks settled so far have left to those that depend on them: a task was settled after
its dependencies, and with the reason it inherited if it did. -/
structure Heirs (p : Plan) (settled : List (Nat × Outcome)) (c : Coordinator) : Prop where
  inherited : ∀ j < p.graph.size, c.inherited[j]? = some (bequest p.graph j settled)
  closed : ∀ j o, (j, o) ∈ settled → ∀ d, p.graph.Precedes d j → ∃ o', (d, o') ∈ settled
  heir : ∀ j o r, (j, o) ∈ settled → bequest p.graph j settled = some r → o = .skipped r
  own : ∀ j o, (j, o) ∈ settled → bequest p.graph j settled = none → ∀ f, o ≠ .skipped (.blocked f)
  honest : ∀ j o, (j, o) ∈ c.arrived → ∀ f, o ≠ .skipped (.blocked f)

namespace Heirs

variable {p : Plan} {c c' : Coordinator} {settled : List (Nat × Outcome)}

theorem start (p : Plan) (site : Site) : Heirs p [] (start p.graph site) := by
  refine ⟨fun j hj => ?_, by simp, by simp, by simp, by simp [Coordinator.start]⟩
  simp [Coordinator.start, hj, bequest]

theorem settle (h : Heirs p settled c) {b : Coordinator} {i : Nat} {o : Outcome}
    (hb : b.inherited = c.inherited) (harr : ∀ x ∈ b.arrived, x ∈ c.arrived) (hi : i < p.graph.size)
    (hnew : ∀ o', (i, o') ∉ settled)
    (hdeps : ∀ d, p.graph.Precedes d i → ∃ o', (d, o') ∈ settled)
    (hheir : ∀ r, bequest p.graph i settled = some r → o = .skipped r)
    (hown : bequest p.graph i settled = none → ∀ f, o ≠ .skipped (.blocked f)) :
    Heirs p (settled ++ [(i, o)]) (settle p.graph i o b) := by
  obtain ⟨t, ht⟩ := Graph.exists_task? hi
  have hfixed : ∀ j, (∀ d, p.graph.Precedes d j → ∃ o', (d, o') ∈ settled) →
      bequest p.graph j (settled ++ [(i, o)]) = bequest p.graph j settled := by
    intro j hj
    have hij : ¬ p.graph.Precedes i j := fun hij => by
      obtain ⟨o', ho'⟩ := hj i hij
      exact hnew o' ho'
    rw [bequest_append, bequest_singleton_of_not_precedes hij, Option.or_none]
  have hmember : ∀ j o', (j, o') ∈ settled ++ [(i, o)] → (j, o') ∈ settled ∨ (j = i ∧ o' = o) := by
    intro j o' hm
    simpa using hm
  refine ⟨fun j hj => ?_, fun j o' hm d hd => ?_, fun j o' r hm hr => ?_, fun j o' hm hr => ?_, ?_⟩
  · rw [settle_inherited ht, hb, h.inherited j hj, Option.map_some, bequest_append, bequest_singleton ht]
    split <;> simp
  · have hclosed : ∃ o'', (d, o'') ∈ settled := by
      rcases hmember j o' hm with hm | ⟨rfl, -⟩
      · exact h.closed j o' hm d hd
      · exact hdeps d hd
    obtain ⟨o'', ho''⟩ := hclosed
    exact ⟨o'', List.mem_append_left _ ho''⟩
  · rcases hmember j o' hm with hm | ⟨rfl, rfl⟩
    · rw [hfixed j (h.closed j o' hm)] at hr
      exact h.heir j o' r hm hr
    · rw [hfixed j hdeps] at hr
      exact hheir r hr
  · rcases hmember j o' hm with hm | ⟨rfl, rfl⟩
    · rw [hfixed j (h.closed j o' hm)] at hr
      exact h.own j o' hm hr
    · rw [hfixed j hdeps] at hr
      exact hown hr
  · intro j o' hj
    rw [settle_arrived] at hj
    exact h.honest j o' (harr _ hj)

theorem step {log : List Deed} (h : Heirs p (completions log) c) (ha : Accounts p log c) {d : Option Deed}
    (hs : Step p c d c') (hhonest : ∀ i o, d = some (.answer i o) → ∀ f, o ≠ .skipped (.blocked f)) :
    Heirs p (completions (log ++ d.toList)) c' := by
  have hfresh : ∀ {i : Nat}, c.outcome? i = none → ∀ o, (i, o) ∉ completions log := by
    intro i hi o hm
    simp [(ha.settled_iff i o).mp hm] at hi
  have hdone : ∀ {d : Nat}, d ∈ c.done → ∃ o, (d, o) ∈ completions log := by
    intro d hd
    obtain ⟨o, ho⟩ := Option.isSome_iff_exists.mp (mem_done.mp hd)
    exact ⟨o, (ha.settled_iff d o).mpr ho⟩
  have htracks := ha.coherent.tracks_taken
  rw [completions_append]
  cases hs with
  | accept _ _ _ _ _ => simpa [Deed.settled?] using ⟨h.inherited, h.closed, h.heir, h.own, h.honest⟩
  | @inherit i rest reason popped bound =>
    obtain ⟨hi, -, hnone⟩ := ha.coherent.popped_new popped
    obtain ⟨-, -, hdeps, -⟩ := htracks.pop popped
    have hreason : bequest p.graph i (completions log) = some reason := by
      simpa [h.inherited i hi] using bound
    refine h.settle (by rfl) (fun _ hx => hx) hi (hfresh hnone) (fun d hd => hdone (hdeps d hd))
      (fun r hr => ?_) (fun hr => ?_)
    · rw [Option.some.inj (hreason.symm.trans hr)]
    · simp [hreason] at hr
  | @cancel i rest popped _ free =>
    obtain ⟨hi, -, hnone⟩ := ha.coherent.popped_new popped
    obtain ⟨-, -, hdeps, -⟩ := htracks.pop popped
    refine h.settle (by rfl) (fun _ hx => hx) hi (hfresh hnone) (fun d hd => hdone (hdeps d hd))
      (fun r hr => ?_) (fun _ => by simp)
    exact absurd (by rw [h.inherited i hi, hr]) (free r)
  | @receive i o rest head =>
    obtain ⟨hi, -, hnone⟩ := ha.coherent.head_new head
    have hunder : i ∈ c.underway := (unload_perm head).mem_iff.mp List.mem_cons_self
    refine h.settle (by rfl) (fun x hx => by simp [head, hx]) hi (hfresh hnone) (fun d hd => ?_)
      (fun r hr => ?_) (fun _ => h.honest i o (by simp [head]))
    · obtain ⟨o', ho', -⟩ := ha.coherent.clear i hunder d hd
      exact ⟨o', (ha.settled_iff d o').mpr ho'⟩
    · -- what is under way depends on successes only, and a success passes nothing on
      obtain ⟨d, t, o', hm, hd, ht, hpass⟩ := exists_of_bequest hr
      obtain ⟨o'', ho'', hsucc⟩ := ha.coherent.clear i hunder d hd
      obtain rfl : o'' = o' := Option.some.inj (ho''.symm.trans ((ha.settled_iff d o').mp hm))
      have hnone : o''.passedOn t.id = none := Outcome.isSuccess_iff_passedOn.mp hsucc
      simp [hnone] at hpass
  | @answer position i o runs =>
    simp only [Option.bind_some, Deed.settled?, Option.toList_none, List.append_nil]
    refine ⟨h.inherited, h.closed, h.heir, h.own, fun j o' hm => ?_⟩
    rcases List.mem_append.mp hm with hm | hm
    · exact h.honest j o' hm
    · obtain ⟨rfl, rfl⟩ : j = i ∧ o' = o := by simpa using hm
      exact hhonest j o' rfl
  | rest site => simpa using ⟨h.inherited, h.closed, h.heir, h.own, h.honest⟩

theorem follow {log : List Deed} (h : Heirs p (completions log) c) (ha : Accounts p log c)
    {turns : List Turn} (hhonest : ∀ t ∈ turns, Turn.Honest t) :
    Heirs p (completions (log ++ deeds p c turns)) (follow p c turns) := by
  induction turns generalizing log c with
  | nil => simpa [deeds, Coordinator.follow] using h
  | cons t ts ih =>
    obtain ⟨ht, hts⟩ := List.forall_mem_cons.mp hhonest
    have hs := turn_step p c t
    have hanswer : ∀ i o, deed? p c t = some (.answer i o) → ∀ f, o ≠ .skipped (.blocked f) := by
      intro i o hd
      cases t with
      | coordinate => exact absurd hd (nextDeed?_ne_answer p c i o)
      | change site => simp [deed?] at hd
      | answer position o' =>
        obtain ⟨k, -, hk⟩ := Option.map_eq_some_iff.mp hd
        obtain ⟨-, rfl⟩ : k = i ∧ o' = o := by simpa using hk
        exact ht
    have hrest := ih (h.step ha hs hanswer) (ha.step hs) hts
    rwa [List.append_assoc] at hrest

section ended

variable (h : Heirs p settled c) (hall : ∀ i < p.graph.size, ∃ o, (i, o) ∈ settled)
include h hall

theorem mem_blocked_iff {j : Nat} (hj : j < p.graph.size) {f : TaskId} :
    (j, .skipped (.blocked f)) ∈ settled ↔ bequest p.graph j settled = some (.blocked f) := by
  constructor
  · intro hm
    cases hr : bequest p.graph j settled with
    | none => exact absurd rfl (h.own j _ hm hr f)
    | some r => simpa [eq_comm] using h.heir j _ r hm hr
  · intro hr
    obtain ⟨o, hm⟩ := hall j hj
    exact h.heir j o _ hm hr ▸ hm

/-- What is passed on to a task keeps it from being attempted. -/
theorem exists_unattempted (hg : p.graph.IsAcyclic) {d j : Nat} {o : Outcome} (hm : (d, o) ∈ settled)
    (ho : o.isSuccess = false) (hd : p.graph.Precedes d j) : ∃ r, bequest p.graph j settled = some r ∧
      (j, .skipped r) ∈ settled ∧ (r = .cancelled ∨ ∃ f, r = .blocked f) := by
  obtain ⟨t, ht⟩ := Graph.exists_task? (hg.lt_size hd).1
  obtain ⟨r, hr⟩ := exists_bequest hm hd ht ho
  obtain ⟨o', hm'⟩ := hall j (hg.lt_size hd).2
  obtain ⟨d', t', o'', -, -, -, hpass⟩ := exists_of_bequest hr
  refine ⟨r, hr, h.heir j o' r hm' hr ▸ hm', ?_⟩
  cases r with
  | upToDate => exact absurd hpass Outcome.passedOn_ne_upToDate
  | blocked f => exact Or.inr ⟨f, rfl⟩
  | cancelled => exact Or.inl rfl

theorem exists_unattempted_below (hg : p.graph.IsAcyclic) {d j : Nat} {o : Outcome}
    (hm : (d, o) ∈ settled) (ho : o.isSuccess = false) (hd : Relation.TransGen p.graph.Precedes d j) :
    ∃ r, bequest p.graph j settled = some r ∧ (j, .skipped r) ∈ settled ∧
      (r = .cancelled ∨ ∃ f, r = .blocked f) := by
  induction hd with
  | single hd => exact h.exists_unattempted hall hg hm ho hd
  | tail _ hjk ih =>
    obtain ⟨r, -, hr, hkind⟩ := ih
    refine h.exists_unattempted hall hg hr ?_ hjk
    rcases hkind with rfl | ⟨f, rfl⟩ <;> rfl

omit hall in
theorem exists_failed_above (hg : p.graph.IsAcyclic) : ∀ j < p.graph.size, ∀ f,
    (j, .skipped (.blocked f)) ∈ settled → ∃ d t fault, Relation.TransGen p.graph.Precedes d j ∧
      p.graph.task? d = some t ∧ t.id = f ∧ (d, .failed fault) ∈ settled := by
  refine hg.induction fun j hj ih f hm => ?_
  cases hr : bequest p.graph j settled with
  | none => exact absurd rfl (h.own j _ hm hr f)
  | some r =>
    obtain rfl : r = .blocked f := by simpa [eq_comm] using h.heir j _ r hm hr
    obtain ⟨d, t, o, hmd, hd, ht, hpass⟩ := exists_of_bequest hr
    rcases Outcome.passedOn_eq_blocked hpass with ⟨fault, rfl, rfl⟩ | rfl
    · exact ⟨d, t, fault, .single hd, ht, rfl, hmd⟩
    · obtain ⟨d', t', fault, hd', ht', hid, hfail⟩ := ih d hd f hmd
      exact ⟨d', t', fault, .tail hd' hd, ht', hid, hfail⟩

end ended

end Heirs

theorem Accounts.mem_reports_iff {p : Plan} {log : List Deed} {c : Coordinator} (h : Accounts p log c)
    {catalog : Catalog} (hg : p.graph.Valid catalog) (hall : ∀ i < p.graph.size, ∃ o, c.outcome? i = some o)
    {j : Nat} {t : Task} (ht : p.graph.task? j = some t) (o : Outcome) :
    ⟨t.id, o⟩ ∈ reports p.graph c ↔ (j, o) ∈ completions log := by
  have hreports := h.reports_eq hg.acyclic hall
  constructor
  · intro hm
    obtain ⟨i, -, t', o', ht', hm', heq⟩ := exists_left_of_forall₂ hreports _ hm
    obtain ⟨hid, rfl⟩ : t.id = t'.id ∧ o = o' := by simpa using heq
    rwa [hg.index_unique ht ht' hid]
  · intro hm
    have hj : j ∈ p.graph.order :=
      (Graph.order_perm hg.acyclic).mem_iff.mpr (List.mem_range.mpr (Graph.lt_size_of_task? ht))
    obtain ⟨r, hr, t', o', ht', hm', rfl⟩ := exists_right_of_forall₂ hreports j hj
    obtain rfl : t = t' := Option.some.inj (ht.symm.trans ht')
    have ho := (h.settled_iff j o).mp hm
    obtain rfl : o = o' := Option.some.inj (ho.symm.trans ((h.settled_iff j o').mp hm'))
    exact hr

def sessionDeeds (p : Plan) (site : Site) (moves : List Move) : List Deed :=
  deeds p (start p.graph site) (turnsAlong p (start p.graph site) (schedule p site moves))

/-- The tasks of a session in the order in which they are settled, with what became of them. -/
def settlements (p : Plan) (site : Site) (moves : List Move) : List (Nat × Outcome) :=
  completions (sessionDeeds p site moves)

theorem complete_accounts (p : Plan) (site : Site) (moves : List Move) :
    Accounts p (sessionDeeds p site moves) (complete p site moves) := by
  rw [complete_eq_run, ← follow_turnsAlong]
  exact follow_accounts p site _

theorem complete_heirs (p : Plan) (site : Site) (moves : List Move) :
    Heirs p (settlements p site moves) (complete p site moves) := by
  rw [complete_eq_run, ← follow_turnsAlong]
  have hstart : Heirs p (completions []) (start p.graph site) := Heirs.start p site
  exact hstart.follow (start_accounts p site) (turnsAlong_honest p _ _)

/-- Task `j` depends, directly or through others, on a task named `f` that is reported as failed. -/
def FailedAbove (g : Graph) (rs : List Report) (j : Nat) (f : TaskId) : Prop :=
  ∃ d t fault, Relation.TransGen g.Precedes d j ∧ g.task? d = some t ∧ t.id = f ∧ ⟨f, .failed fault⟩ ∈ rs

/-- When a session reports task `j`, which is `t`, as blocked. -/
structure Blockage (g : Graph) (settled : List (Nat × Outcome)) (rs : List Report) (j : Nat) (t : Task) :
    Prop where
  /-- The task is blocked exactly if the first reason that a dependency passed on to it says so. -/
  blocked_iff : ∀ f, ⟨t.id, .skipped (.blocked f)⟩ ∈ rs ↔ bequest g j settled = some (.blocked f)
  failed_above : ∀ f, ⟨t.id, .skipped (.blocked f)⟩ ∈ rs → FailedAbove g rs j f
  below_failed : (∃ f, FailedAbove g rs j f) →
    ⟨t.id, .skipped .cancelled⟩ ∈ rs ∨ ∃ f, ⟨t.id, .skipped (.blocked f)⟩ ∈ rs
  /-- No cancellation can have come first where it has reached no dependency of the task. -/
  unless_cancelled : (∀ d u, g.Precedes d j → g.task? d = some u → ⟨u.id, .skipped .cancelled⟩ ∉ rs) →
    ((∃ f, ⟨t.id, .skipped (.blocked f)⟩ ∈ rs) ↔ ∃ f, FailedAbove g rs j f)

theorem blockage_of_builtFrom {catalog : Catalog} {supplies : List SlotId} (p : Plan)
    (hg : p.graph.BuiltFrom catalog supplies) (site : Site) (moves : List Move) {j : Nat} {t : Task}
    (ht : p.graph.task? j = some t) :
    Blockage p.graph (settlements p site moves) (reports p.graph (complete p site moves)) j t := by
  obtain ⟨-, hvalid⟩ := hg.valid
  have hacyclic := hvalid.acyclic
  have hj := Graph.lt_size_of_task? ht
  have hheirs := complete_heirs p site moves
  have haccounts := complete_accounts p site moves
  have hsettled := haccounts.coherent.all_settled hacyclic (complete_isDone p site moves)
  have hall : ∀ i < p.graph.size, ∃ o, (i, o) ∈ settlements p site moves := by
    intro i hi
    obtain ⟨o, ho⟩ := hsettled i hi
    exact ⟨o, (haccounts.settled_iff i o).mpr ho⟩
  have hreport : ∀ {i : Nat} {u : Task}, p.graph.task? i = some u → ∀ o,
      ⟨u.id, o⟩ ∈ reports p.graph (complete p site moves) ↔ (i, o) ∈ settlements p site moves :=
    fun hu o => haccounts.mem_reports_iff hvalid hsettled hu o
  have hfailed : ∀ f, FailedAbove p.graph (reports p.graph (complete p site moves)) j f ↔
      ∃ d u fault, Relation.TransGen p.graph.Precedes d j ∧ p.graph.task? d = some u ∧ u.id = f ∧
        (d, .failed fault) ∈ settlements p site moves := by
    intro f
    constructor
    · rintro ⟨d, u, fault, hd, hu, rfl, hm⟩
      exact ⟨d, u, fault, hd, hu, rfl, (hreport hu _).mp hm⟩
    · rintro ⟨d, u, fault, hd, hu, rfl, hm⟩
      exact ⟨d, u, fault, hd, hu, rfl, (hreport hu _).mpr hm⟩
  have habove : ∀ f, ⟨t.id, .skipped (.blocked f)⟩ ∈ reports p.graph (complete p site moves) →
      FailedAbove p.graph (reports p.graph (complete p site moves)) j f := fun f hm =>
    (hfailed f).mpr (hheirs.exists_failed_above hacyclic j hj f ((hreport ht _).mp hm))
  -- nothing behind a failure is attempted, though what is handed on to it may be a cancellation
  have hbelow : (∃ f, FailedAbove p.graph (reports p.graph (complete p site moves)) j f) →
      ∃ r, bequest p.graph j (settlements p site moves) = some r ∧
        (j, .skipped r) ∈ settlements p site moves ∧ (r = .cancelled ∨ ∃ f, r = .blocked f) := by
    rintro ⟨f, hf⟩
    obtain ⟨d, u, fault, hd, -, -, hm⟩ := (hfailed f).mp hf
    exact hheirs.exists_unattempted_below hall hacyclic hm rfl hd
  refine ⟨fun f => (hreport ht _).trans (hheirs.mem_blocked_iff hall hj), habove, fun hf => ?_,
    fun hcalm => ⟨fun ⟨f, hm⟩ => ⟨f, habove f hm⟩, fun hf => ?_⟩⟩
  · obtain ⟨r, -, hm, rfl | ⟨f, rfl⟩⟩ := hbelow hf
    · exact Or.inl ((hreport ht _).mpr hm)
    · exact Or.inr ⟨f, (hreport ht _).mpr hm⟩
  · obtain ⟨r, hr, hm, rfl | ⟨f, rfl⟩⟩ := hbelow hf
    · obtain ⟨d, u, o, hmd, hd, hu, hpass⟩ := exists_of_bequest hr
      rw [Outcome.passedOn_eq_cancelled hpass] at hmd
      exact absurd ((hreport hu _).mpr hmd) (hcalm d u hd hu)
    · exact ⟨f, (hreport ht _).mpr hm⟩

namespace Crossing

def failing (id : TaskId) : Task := Task.make id fun _ w => (.failed "no", w)

def source : Task := (failing "source").withOutput "x"

def aside : Task := (failing "aside").withOutput "y"

def between : Task := ((failing "between").withInput "x").withOutput "z"

def sink : Task := (failing "sink").withInputs ["y", "z"]

def plan : Plan where
  catalog := ⟨["x", "y", "z"].map fun id => Slot.multiple id .file .intermediates⟩
  graph := ⟨[source, aside, between, sink], [⟨0, 2, "x"⟩, ⟨1, 3, "y"⟩, ⟨2, 3, "z"⟩],
    [("x", [0]), ("y", [1]), ("z", [2])], []⟩
  config := ⟨1, true, false⟩

def settled : List (Nat × Outcome) := settlements plan quiet []

def reported : List Report := reports plan.graph (complete plan quiet [])

theorem graph_builtFrom : plan.graph.BuiltFrom plan.catalog [] :=
  .build (show Graph.build plan.catalog [] plan.graph.tasks = .ok plan.graph from rfl)

theorem reported_eq : reported = [⟨"source", .failed (.action "no")⟩, ⟨"aside", .skipped .cancelled⟩,
    ⟨"between", .skipped (.blocked "source")⟩, ⟨"sink", .skipped .cancelled⟩] := by
  decide +kernel

theorem between_blocked : plan.graph.BuiltFrom plan.catalog [] ∧ plan.graph.task? 2 = some between ∧
    Blockage plan.graph settled reported 2 between ∧
    bequest plan.graph 2 settled = some (.blocked "source") := by
  have htask : plan.graph.task? 2 = some between := rfl
  have h : Blockage plan.graph settled reported 2 between :=
    blockage_of_builtFrom plan graph_builtFrom quiet [] htask
  have hreport : ⟨between.id, .skipped (.blocked "source")⟩ ∈ reported := by
    rw [reported_eq]
    exact .tail _ (.tail _ (.head _))
  exact ⟨graph_builtFrom, htask, h, (h.blocked_iff "source").mp hreport⟩

/-- A task below a failure that a cancellation has reached first is not reported as blocked. -/
theorem sink_not_blocked : plan.graph.BuiltFrom plan.catalog [] ∧
    FailedAbove plan.graph reported 3 "source" ∧ ⟨"sink", .skipped .cancelled⟩ ∈ reported ∧
    ∀ f, ⟨"sink", .skipped (.blocked f)⟩ ∉ reported := by
  have hfirst : plan.graph.Precedes 0 2 := ⟨⟨0, 2, "x"⟩, by simp [plan], rfl, rfl⟩
  have hsecond : plan.graph.Precedes 2 3 := ⟨⟨2, 3, "z"⟩, by simp [plan], rfl, rfl⟩
  rw [reported_eq]
  exact ⟨graph_builtFrom, ⟨0, source, .action "no", .tail (.single hfirst) hsecond, rfl, rfl, by simp⟩,
    by simp, by simp⟩

end Crossing

end Coordinator

end SlotBuild
