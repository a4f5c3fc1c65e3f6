import SlotBuild.Proofs.Coordinator.Coherence

/-! What the deeds of a session add up to: who was admitted, what became of whom, and how many
deeds can still follow. -/

namespace SlotBuild.Coordinator

variable {p : Plan} {c c' : Coordinator} {d : Option Deed}

def admissions (log : List Deed) : List Nat := log.filterMap Deed.admitted?

/-- The tasks in the order in which the coordinator is done with them, with what became of them. -/
def completions (log : List Deed) : List (Nat × Outcome) := log.filterMap Deed.settled?

theorem admissions_append (log : List Deed) (d : Option Deed) :
    admissions (log ++ d.toList) = admissions log ++ (d.bind Deed.admitted?).toList := by
  cases d with
  | none => simp [admissions]
  | some d => cases h : d.admitted? <;> simp [admissions, h]

theorem completions_append (log : List Deed) (d : Option Deed) :
    completions (log ++ d.toList) = completions log ++ (d.bind Deed.settled?).toList := by
  cases d with
  | none => simp [completions]
  | some d => cases h : d.settled? <;> simp [completions, h]

theorem Coherent.popped_new (h : c.Coherent p []) {i : Nat} {rest : Frontier}
    (hp : c.frontier.pop? = some (i, rest)) : i < p.graph.size ∧ i ∉ c.taken ∧ c.outcome? i = none := by
  obtain ⟨hi, hnew, -⟩ := h.tracks_taken.pop hp
  exact ⟨hi, hnew, (notMem_taken hnew).1⟩

theorem Coherent.head_new (h : c.Coherent p []) {i : Nat} {o : Outcome} {rest : List (Nat × Outcome)}
    (head : c.arrived = (i, o) :: rest) :
    i < p.graph.size ∧ i ∈ c.taken ∧ c.outcome? i = none := by
  have hm : i ∈ c.underway := (unload_perm head).mem_iff.mp List.mem_cons_self
  exact ⟨h.lt_size hm, mem_taken.mpr (Or.inl hm), h.unsettled i hm⟩

theorem settle_outcome?_iff {g : Graph} {b : Coordinator} {j : Nat} {o : Outcome}
    (hb : b.outcomes = c.outcomes) (hlen : c.outcomes.length = g.size) (hj : j < g.size)
    (hnone : c.outcome? j = none) (i : Nat) (o' : Outcome) :
    (settle g j o b).outcome? i = some o' ↔ c.outcome? i = some o' ∨ some (j, o) = some (i, o') := by
  obtain ⟨t, ht⟩ := Graph.exists_task? hj
  have hjb : j < b.outcomes.length := by rw [hb, hlen]; exact hj
  have hsame : b.outcome? i = c.outcome? i := by simp only [outcome?, hb]
  rw [settle_outcome? ht hjb, hsame]
  by_cases hij : i = j
  · subst hij
    simp [hnone]
  · simp [hij, Ne.symm hij]

theorem Coherent.outcome?_step (h : c.Coherent p []) (hs : Step p c d c') :
    (∀ i o, d.bind Deed.settled? = some (i, o) → i < p.graph.size ∧ c.outcome? i = none) ∧
      ∀ i o, c'.outcome? i = some o ↔ c.outcome? i = some o ∨ d.bind Deed.settled? = some (i, o) := by
  have hnew : ∀ {j : Nat} {o : Outcome}, j < p.graph.size ∧ c.outcome? j = none →
      ∀ i o', some (j, o) = some (i, o') → i < p.graph.size ∧ c.outcome? i = none := by
    rintro j o hj i o' heq
    simp only [Option.some.injEq, Prod.mk.injEq] at heq
    exact heq.1 ▸ hj
  cases hs with
  | accept room popped free going live => exact ⟨by simp [Deed.settled?], by simp [Deed.settled?, outcome?]⟩
  | inherit popped bound =>
    obtain ⟨hi, -, hnone⟩ := h.popped_new popped
    exact ⟨hnew ⟨hi, hnone⟩, settle_outcome?_iff rfl h.length_outcomes hi hnone⟩
  | cancel popped _ =>
    obtain ⟨hi, -, hnone⟩ := h.popped_new popped
    exact ⟨hnew ⟨hi, hnone⟩, settle_outcome?_iff rfl h.length_outcomes hi hnone⟩
  | receive head =>
    obtain ⟨hi, -, hnone⟩ := h.head_new head
    exact ⟨hnew ⟨hi, hnone⟩, settle_outcome?_iff rfl h.length_outcomes hi hnone⟩
  | answer o runs => exact ⟨by simp [Deed.settled?], by simp [Deed.settled?, outcome?]⟩
  | rest site => exact ⟨by simp, by simp [outcome?]⟩

theorem mem_settle_taken {g : Graph} {b : Coordinator} {j : Nat} (o : Outcome)
    (hb : b.outcomes = c.outcomes) (hlen : c.outcomes.length = g.size) (hj : j < g.size) (i : Nat) :
    i ∈ (settle g j o b).taken ↔ i = j ∨ i ∈ b.underway ∨ (c.outcome? i).isSome := by
  obtain ⟨t, ht⟩ := Graph.exists_task? hj
  have hjb : j < b.outcomes.length := by rw [hb, hlen]; exact hj
  have hsame : b.outcome? i = c.outcome? i := by simp only [outcome?, hb]
  rw [settle_taken ht hjb, Finset.mem_insert, mem_taken, hsame]

theorem Coherent.taken_step (h : c.Coherent p []) (hs : Step p c d c') :
    (∀ i, d.bind Deed.taken? = some i → i ∉ c.taken) ∧
      ∀ i, i ∈ c'.taken ↔ i ∈ c.taken ∨ d.bind Deed.taken? = some i := by
  have hnew : ∀ {j : Nat}, j ∉ c.taken → ∀ i, some j = some i → i ∉ c.taken := by
    rintro j hj i heq
    exact Option.some.inj heq ▸ hj
  cases hs with
  | @accept j rest room popped free going live =>
    refine ⟨hnew (h.popped_new popped).2.1, fun i => ?_⟩
    have hmem : i ∈ ({ c with frontier := rest, running := c.running ++ [j] } : Coordinator).underway ↔
        i ∈ c.underway ∨ i = j := by
      simp only [underway, List.mem_append, List.mem_singleton]
      tauto
    rw [mem_taken, mem_taken, hmem]
    simp only [outcome?, Option.bind_some, Deed.taken?, Option.some.injEq, eq_comm]
    tauto
  | @inherit j rest reason popped bound =>
    obtain ⟨hj, hout, -⟩ := h.popped_new popped
    refine ⟨hnew hout, fun i => ?_⟩
    refine (mem_settle_taken _ (by rfl) h.length_outcomes hj i).trans ?_
    rw [mem_taken]
    simp only [underway, Option.bind_some, Deed.taken?, Option.some.injEq, eq_comm]
    tauto
  | @cancel j rest popped _ =>
    obtain ⟨hj, hout, -⟩ := h.popped_new popped
    refine ⟨hnew hout, fun i => ?_⟩
    refine (mem_settle_taken _ (by rfl) h.length_outcomes hj i).trans ?_
    rw [mem_taken]
    simp only [underway, Option.bind_some, Deed.taken?, Option.some.injEq, eq_comm]
    tauto
  | @receive j o rest head =>
    refine ⟨by simp [Deed.taken?], fun i => ?_⟩
    have hi := (unload_perm head).mem_iff (a := i)
    rw [List.mem_cons] at hi
    refine (mem_settle_taken _ (by rfl) h.length_outcomes (h.head_new head).1 i).trans ?_
    rw [mem_taken, ← hi]
    simp [Deed.taken?, underway, or_assoc]
  | answer o runs =>
    refine ⟨by simp [Deed.taken?], fun i => ?_⟩
    rw [mem_taken, mem_taken, ← (answer_perm runs o).mem_iff]
    simp [Deed.taken?, underway, outcome?]
  | rest site => exact ⟨by simp, by simp [mem_taken, underway, outcome?]⟩

/-- Every deed leaves fewer deeds to come. -/
theorem Coherent.remaining_step (h : c.Coherent p []) (hs : Step p c d c') :
    remaining p.graph c' + d.toList.length ≤ remaining p.graph c := by
  obtain ⟨hnew, hmem⟩ := h.taken_step hs
  have hcard : c'.taken.card ≤ p.graph.size := (h.step hs).tracks_taken.card_le
  have hmore : ∀ i, d.bind Deed.taken? = some i → c'.taken.card = c.taken.card + 1 := by
    intro i hi
    rw [← Finset.card_insert_of_notMem (hnew i hi)]
    congr 1
    ext j
    rw [hmem, hi, Finset.mem_insert, Option.some.injEq, eq_comm, or_comm]
  have hsame : d.bind Deed.taken? = none → c'.taken.card = c.taken.card := by
    intro hi
    congr 1
    ext j
    simp [hmem, hi]
  -- a task counts for three deeds until it is taken, for two while it runs, then for one
  cases hs with
  | @accept j rest room popped free going live =>
    have := hmore j rfl
    simp only [remaining, List.length_append, List.length_singleton, Option.toList_some]
    omega
  | @inherit j rest reason popped bound =>
    have := hmore j rfl
    simp only [remaining, settle_running, settle_arrived, Option.toList_some, List.length_singleton]
    omega
  | @cancel j rest popped _ =>
    have := hmore j rfl
    simp only [remaining, settle_running, settle_arrived, Option.toList_some, List.length_singleton]
    omega
  | receive head =>
    have := hsame rfl
    simp only [remaining, settle_running, settle_arrived, Option.toList_some, head, List.length_cons,
      List.length_nil]
    omega
  | answer o runs =>
    have := hsame rfl
    obtain ⟨hlt, -⟩ := List.getElem?_eq_some_iff.mp runs
    simp only [remaining, List.length_append, List.length_singleton, Option.toList_some,
      List.length_eraseIdx_of_lt hlt]
    omega
  | rest site =>
    have := hsame rfl
    simp only [remaining, Option.toList_none, List.length_nil]
    omega

end SlotBuild.Coordinator
