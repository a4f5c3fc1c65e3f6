import SlotBuild.Proofs.Coordinator.Turn

/-! What every turn of a coordinator preserves: the frontier, the tasks that are under way, the
outcomes and the inherited reasons tell one story. The number of deeds that are left bounds the
length of a session. -/

namespace SlotBuild

theorem Outcome.isSuccess_iff_passedOn {o : Outcome} {task : TaskId} :
    o.isSuccess = true ↔ o.passedOn task = none := by
  rcases o with _ | ⟨_ | _ | _⟩ | _ <;> simp [isSuccess, passedOn]

theorem Outcome.not_unattempted_of_success {o : Outcome} (h : o.isSuccess = true) :
    o.isUnattempted = false := by
  rcases o with _ | ⟨_ | _ | _⟩ | _ <;> simp [isSuccess, isUnattempted] at h ⊢

theorem Outcome.passedOn_ne_upToDate {o : Outcome} {task : TaskId} :
    o.passedOn task ≠ some .upToDate := by
  rcases o with _ | ⟨_ | _ | _⟩ | _ <;> simp [passedOn]

namespace Coordinator

def outcome? (c : Coordinator) (i : Nat) : Option Outcome := (c.outcomes[i]?).join

def done (c : Coordinator) : Finset Nat :=
  (Finset.range c.outcomes.length).filter fun i => (c.outcome? i).isSome

/-- The tasks that were admitted and whose results the coordinator does not have. -/
def underway (c : Coordinator) : List Nat := c.running ++ c.arrived.map (·.1)

def taken (c : Coordinator) : Finset Nat := c.underway.toFinset ∪ c.done

/-- How many deeds can still follow. -/
def remaining (g : Graph) (c : Coordinator) : Nat :=
  3 * (g.size - c.taken.card) + 2 * c.running.length + c.arrived.length

/-- The parts of `c` agree with each other while the coordinator has the tasks in `hand` between
two of its lists. -/
structure Coherent (p : Plan) (hand : List Nat) (c : Coordinator) : Prop where
  length_outcomes : c.outcomes.length = p.graph.size
  length_inherited : c.inherited.length = p.graph.size
  tracks : c.frontier.Tracks p.graph (hand.toFinset ∪ c.taken) c.done
  apart : (hand ++ c.underway).Nodup
  unsettled : ∀ i ∈ hand ++ c.underway, c.outcome? i = none
  free : ∀ i < p.graph.size, (∀ r, c.inherited[i]? ≠ some (some r)) →
    ∀ d o, p.graph.Precedes d i → c.outcome? d = some o → o.isSuccess = true
  inherits : ∀ i r, c.inherited[i]? = some (some r) → ∃ d t o,
    p.graph.Precedes d i ∧ p.graph.task? d = some t ∧ c.outcome? d = some o ∧ o.passedOn t.id = some r
  clear : ∀ i ∈ c.underway, ∀ d, p.graph.Precedes d i →
    ∃ o, c.outcome? d = some o ∧ o.isSuccess = true

variable {p : Plan} {c : Coordinator} {hand : List Nat}

theorem mem_done {i : Nat} : i ∈ c.done ↔ (c.outcome? i).isSome := by
  simp only [done, Finset.mem_filter, Finset.mem_range, and_iff_right_iff_imp]
  intro h
  by_contra hge
  simp [outcome?, List.getElem?_eq_none (Nat.le_of_not_lt hge)] at h

theorem mem_taken {i : Nat} : i ∈ c.taken ↔ i ∈ c.underway ∨ (c.outcome? i).isSome := by
  simp [taken, mem_done]

theorem notMem_done {i : Nat} : i ∉ c.done ↔ c.outcome? i = none := by simp [mem_done]

theorem notMem_taken {i : Nat} (h : i ∉ c.taken) : c.outcome? i = none ∧ i ∉ c.underway := by
  simpa [mem_taken, and_comm] using h

section settle

variable {g : Graph} {i : Nat} {t : Task} {o : Outcome}

@[simp] theorem settle_running : (settle g i o c).running = c.running := by
  unfold settle
  split <;> rfl

@[simp] theorem settle_arrived : (settle g i o c).arrived = c.arrived := by
  unfold settle
  split <;> rfl

@[simp] theorem settle_halted : (settle g i o c).halted = c.halted := by
  unfold settle
  split <;> rfl

@[simp] theorem settle_site : (settle g i o c).site = c.site := by
  unfold settle
  split <;> rfl

@[simp] theorem settle_underway : (settle g i o c).underway = c.underway := by simp [underway]

theorem settle_frontier (ht : g.task? i = some t) :
    (settle g i o c).frontier = c.frontier.finish g i := by simp [settle, ht]

theorem settle_outcomes (ht : g.task? i = some t) :
    (settle g i o c).outcomes = c.outcomes.set i (some o) := by simp [settle, ht]

theorem settle_outcome? (ht : g.task? i = some t) (hi : i < c.outcomes.length) (j : Nat) :
    (settle g i o c).outcome? j = if j = i then some o else c.outcome? j := by
  simp only [outcome?, settle_outcomes ht]
  by_cases hj : j = i
  · subst j
    simp [hi]
  · simp [hj, List.getElem?_set_ne (Ne.symm hj)]

theorem inheritReason_getElem? (reason : SkipReason) (rs : List (Option SkipReason)) (i j : Nat) :
    (inheritReason reason rs i)[j]? =
      (rs[j]?).map fun r => if j = i then r.or (some reason) else r := by
  unfold inheritReason
  split
  case h_1 hi =>
    obtain ⟨hlt, hnone⟩ := List.getElem?_eq_some_iff.mp hi
    by_cases hj : j = i
    · subst j
      simp [hlt, hnone]
    · simp [hj, List.getElem?_set_ne (Ne.symm hj)]
  case h_2 hi =>
    by_cases hj : j = i
    · subst j
      rcases hr : rs[i]? with _ | _ | r
      · simp
      · exact absurd hr hi
      · simp
    · simp [hj]

theorem foldl_inheritReason {reason : SkipReason} {js : List Nat} (rs : List (Option SkipReason))
    (j : Nat) : (js.foldl (inheritReason reason) rs)[j]? =
      (rs[j]?).map fun r => if j ∈ js then r.or (some reason) else r := by
  induction js generalizing rs with
  | nil => simp
  | cons k js ih =>
    rw [List.foldl_cons, ih, inheritReason_getElem?, Option.map_map]
    congr 1
    funext r
    by_cases hj : j = k
    · subst j
      cases r <;> simp
    · simp [hj]

theorem length_foldl_inheritReason (reason : SkipReason) (js : List Nat) (rs : List (Option SkipReason)) :
    (js.foldl (inheritReason reason) rs).length = rs.length := by
  induction js generalizing rs with
  | nil => rfl
  | cons j js ih =>
    rw [List.foldl_cons, ih]
    unfold inheritReason
    split <;> simp

theorem settle_length_inherited : (settle g i o c).inherited.length = c.inherited.length := by
  unfold settle
  split
  · rfl
  · split
    · rfl
    · exact length_foldl_inheritReason _ _ _

theorem settle_inherited (ht : g.task? i = some t) (j : Nat) :
    (settle g i o c).inherited[j]? = (c.inherited[j]?).map fun r =>
      if j ∈ g.dependents i then r.or (o.passedOn t.id) else r := by
  cases hp : o.passedOn t.id with
  | none => simp [settle, ht, hp]
  | some reason => simp [settle, ht, hp, foldl_inheritReason]

theorem settle_done (ht : g.task? i = some t) (hi : i < c.outcomes.length) :
    (settle g i o c).done = insert i c.done := by
  ext j
  simp only [mem_done, settle_outcome? ht hi, Finset.mem_insert]
  by_cases hj : j = i <;> simp [hj]

theorem settle_taken (ht : g.task? i = some t) (hi : i < c.outcomes.length) :
    (settle g i o c).taken = insert i c.taken := by
  ext j
  simp only [mem_taken, settle_underway, settle_outcome? ht hi, Finset.mem_insert]
  by_cases hj : j = i <;> simp [hj]

end settle

/-- While nothing is under way, whatever was taken is done. -/
theorem taken_of_idle (hrun : c.running = []) (harr : c.arrived = []) : c.taken = c.done := by
  simp [taken, underway, hrun, harr]

theorem idle_of_isDone (hd : c.isDone = true) :
    c.frontier.ready = [] ∧ c.running = [] ∧ c.arrived = [] := by
  simp only [isDone, inFlight, Bool.and_eq_true, List.isEmpty_iff, beq_iff_eq] at hd
  obtain ⟨hready, hidle⟩ := hd
  exact ⟨hready, List.eq_nil_of_length_eq_zero (by omega), List.eq_nil_of_length_eq_zero (by omega)⟩

theorem unload_perm {i : Nat} {o : Outcome} {rest : List (Nat × Outcome)}
    (head : c.arrived = (i, o) :: rest) : (i :: (c.running ++ rest.map (·.1))).Perm c.underway := by
  rw [underway, head, List.map_cons]
  exact List.perm_middle.symm

theorem answer_perm {position i : Nat} (runs : c.running[position]? = some i) (o : Outcome) :
    (c.running.eraseIdx position ++ (c.arrived ++ [(i, o)]).map (·.1)).Perm c.underway := by
  obtain ⟨hlt, rfl⟩ := List.getElem?_eq_some_iff.mp runs
  have hrun := (List.getElem_cons_eraseIdx_perm hlt).append_right (c.arrived.map (·.1))
  refine (List.Perm.trans ?_ hrun)
  rw [List.map_append, ← List.append_assoc]
  exact List.perm_append_singleton _ _

namespace Coherent

theorem lt_size (h : c.Coherent p hand) {i : Nat} (hi : i ∈ hand ++ c.underway) : i < p.graph.size := by
  refine (h.tracks.taken_ready i ?_).1
  simp only [List.mem_append] at hi
  simp only [Finset.mem_union, List.mem_toFinset, mem_taken]
  tauto

theorem tracks_taken (h : c.Coherent p []) : c.frontier.Tracks p.graph c.taken c.done := by
  have ht := h.tracks
  rwa [List.toFinset_nil, Finset.empty_union] at ht

theorem start (p : Plan) (site : Site) : (start p.graph site).Coherent p [] := by
  have hnone : ∀ i, (Coordinator.start p.graph site).outcome? i = none := by
    intro i
    simp only [outcome?, Coordinator.start, List.getElem?_replicate]
    split <;> rfl
  have hempty : (Coordinator.start p.graph site).underway = [] := rfl
  have hdone : (Coordinator.start p.graph site).done = ∅ := by
    ext i
    simp [mem_done, hnone]
  have htaken : [].toFinset ∪ (Coordinator.start p.graph site).taken = ∅ := by
    ext i
    simp [mem_taken, hnone, hempty]
  refine ⟨by simp [Coordinator.start], by simp [Coordinator.start], ?_, by simp [hempty],
    by simp [hempty], ?_, ?_, by simp [hempty]⟩
  · rw [htaken, hdone]
    exact Frontier.start_tracks p.graph
  · intro i _ _ d o _ ho
    simp [hnone] at ho
  · intro i r hr
    simp [Coordinator.start, List.getElem?_replicate] at hr

theorem pop (h : c.Coherent p []) {i : Nat} {rest : Frontier} (hp : c.frontier.pop? = some (i, rest)) :
    ({ c with frontier := rest } : Coordinator).Coherent p [i] := by
  obtain ⟨-, hnew, -, hrest⟩ := h.tracks_taken.pop hp
  obtain ⟨hnone, hout⟩ := notMem_taken hnew
  have htaken : [i].toFinset ∪ ({ c with frontier := rest } : Coordinator).taken = insert i c.taken := by
    ext j
    simp only [Finset.mem_union, List.mem_toFinset, List.mem_singleton, Finset.mem_insert]
    rfl
  refine ⟨h.length_outcomes, h.length_inherited, ?_, List.nodup_cons.mpr ⟨hout, h.apart⟩, ?_, h.free,
    h.inherits, h.clear⟩
  · rw [htaken]
    exact hrest
  · intro j hj
    rcases List.mem_cons.mp hj with rfl | hj
    · exact hnone
    · exact h.unsettled j hj

theorem unload (h : c.Coherent p []) {i : Nat} {o : Outcome} {rest : List (Nat × Outcome)}
    (head : c.arrived = (i, o) :: rest) (halted : Bool) :
    ({ c with arrived := rest, halted := halted } : Coordinator).Coherent p [i] := by
  have hperm := unload_perm head
  have htaken : [i].toFinset ∪ ({ c with arrived := rest, halted := halted } : Coordinator).taken =
      [].toFinset ∪ c.taken := by
    ext j
    have hj := hperm.mem_iff (a := j)
    rw [List.mem_cons] at hj
    simp only [Finset.mem_union, List.mem_toFinset, mem_taken, List.mem_singleton, List.not_mem_nil,
      false_or]
    rw [← hj, or_assoc]
    rfl
  refine ⟨h.length_outcomes, h.length_inherited, ?_, hperm.nodup_iff.mpr h.apart, ?_, h.free, h.inherits, ?_⟩
  · rw [htaken]
    exact h.tracks
  · exact fun j hj => h.unsettled j (hperm.mem_iff.mp hj)
  · exact fun j hj => h.clear j (hperm.mem_iff.mp (List.mem_cons_of_mem i hj))

/-- A task without an inherited reason still only depends on successes once `i` is settled: had `i`
passed a reason on, the task would have inherited it. -/
theorem settle_free {i : Nat} (h : c.Coherent p [i]) (o : Outcome) {t : Task}
    (ht : p.graph.task? i = some t) (hlen : i < c.outcomes.length) {j : Nat} (hj : j < p.graph.size)
    (hfree : ∀ r, (settle p.graph i o c).inherited[j]? ≠ some (some r)) {d : Nat} {o' : Outcome}
    (hd : p.graph.Precedes d j) (ho' : (settle p.graph i o c).outcome? d = some o') :
    o'.isSuccess = true := by
  have hjlen : j < c.inherited.length := by rw [h.length_inherited]; exact hj
  rw [settle_inherited ht, List.getElem?_eq_getElem hjlen, Option.map_some] at hfree
  have hopen : ∀ r, c.inherited[j]? ≠ some (some r) := by
    intro r hr
    rw [List.getElem?_eq_getElem hjlen] at hr
    apply hfree r
    simp [Option.some.inj hr]
  have hnone : c.inherited[j] = none := by
    by_contra hne
    obtain ⟨r, hr⟩ := Option.ne_none_iff_exists'.mp hne
    exact hopen r (by rw [List.getElem?_eq_getElem hjlen, hr])
  rw [settle_outcome? ht hlen] at ho'
  split_ifs at ho' with hdi
  · subst hdi
    obtain rfl := Option.some.inj ho'
    apply (Outcome.isSuccess_iff_passedOn (o := o) : _ ↔ o.passedOn t.id = none).mpr
    by_contra hp
    obtain ⟨r, hr⟩ := Option.ne_none_iff_exists'.mp hp
    exact hfree r (by simp [hnone, hd, hr])
  · exact h.free j hj hopen d o' hd ho'

theorem settle_inherits {i : Nat} (h : c.Coherent p [i]) (o : Outcome) {t : Task}
    (ht : p.graph.task? i = some t) (hlen : i < c.outcomes.length)
    (hother : ∀ j o', c.outcome? j = some o' → (settle p.graph i o c).outcome? j = some o') {j : Nat}
    {r : SkipReason} (hr : (settle p.graph i o c).inherited[j]? = some (some r)) :
    ∃ d t' o', p.graph.Precedes d j ∧ p.graph.task? d = some t' ∧
      (settle p.graph i o c).outcome? d = some o' ∧ o'.passedOn t'.id = some r := by
  rw [settle_inherited ht] at hr
  obtain ⟨r₀, hr₀, hr⟩ := Option.map_eq_some_iff.mp hr
  by_cases hj : p.graph.Precedes i j
  · rw [if_pos (Graph.mem_dependents.mpr hj)] at hr
    cases r₀ with
    | none => exact ⟨i, t, o, hj, ht, by simp [settle_outcome? ht hlen], hr⟩
    | some r₁ =>
      obtain ⟨d, t', o', hd, ht', ho', hp⟩ := h.inherits j r₁ hr₀
      exact ⟨d, t', o', hd, ht', hother d o' ho', by simpa [hp] using hr⟩
  · rw [if_neg (fun hm => hj (Graph.mem_dependents.mp hm))] at hr
    obtain ⟨d, t', o', hd, ht', ho', hp⟩ := h.inherits j r (by rw [hr₀, hr])
    exact ⟨d, t', o', hd, ht', hother d o' ho', hp⟩

theorem settle {i : Nat} (h : c.Coherent p [i]) (o : Outcome) :
    (settle p.graph i o c).Coherent p [] := by
  have hi : i < p.graph.size := h.lt_size (by simp)
  obtain ⟨t, ht⟩ := Graph.exists_task? hi
  have hlen : i < c.outcomes.length := by rw [h.length_outcomes]; exact hi
  have hnone : c.outcome? i = none := h.unsettled i (by simp)
  have hout : i ∉ c.underway := (List.nodup_cons.mp h.apart).1
  have hother : ∀ j o', c.outcome? j = some o' → (Coordinator.settle p.graph i o c).outcome? j = some o' := by
    intro j o' hj
    have hji : j ≠ i := fun he => by simp [he, hnone] at hj
    rw [settle_outcome? ht hlen, if_neg hji, hj]
  have htaken : [].toFinset ∪ (Coordinator.settle p.graph i o c).taken = [i].toFinset ∪ c.taken := by
    ext j
    simp [settle_taken ht hlen]
  refine ⟨?_, ?_, ?_, ?_, ?_, ?_, ?_, ?_⟩
  · simp [settle_outcomes ht, h.length_outcomes]
  · rw [settle_length_inherited, h.length_inherited]
  · rw [htaken, settle_done ht hlen, settle_frontier ht]
    exact h.tracks.finish (by simp) (notMem_done.mpr hnone)
  · simpa using (List.nodup_cons.mp h.apart).2
  · intro j hj
    simp only [List.nil_append, settle_underway] at hj
    have hji : j ≠ i := fun he => hout (he ▸ hj)
    rw [settle_outcome? ht hlen, if_neg hji]
    exact h.unsettled j (List.mem_cons_of_mem i hj)
  · exact fun j hj hfree d o' hd ho' => h.settle_free o ht hlen hj hfree hd ho'
  · exact fun j r hr => h.settle_inherits o ht hlen hother hr
  · intro j hj d hd
    simp only [settle_underway] at hj
    obtain ⟨o', ho', hs⟩ := h.clear j hj d hd
    exact ⟨o', hother d o' ho', hs⟩

theorem accept {i : Nat} (h : c.Coherent p [i]) (hfree : ∀ r, c.inherited[i]? ≠ some (some r)) :
    ({ c with running := c.running ++ [i] } : Coordinator).Coherent p [] := by
  have hi : i < p.graph.size := h.lt_size (by simp)
  have hperm : (c.running ++ [i] ++ c.arrived.map (·.1)).Perm (i :: c.underway) := by
    rw [List.append_assoc]
    exact List.perm_middle
  have htaken : [].toFinset ∪ ({ c with running := c.running ++ [i] } : Coordinator).taken =
      [i].toFinset ∪ c.taken := by
    ext j
    have hj := hperm.mem_iff (a := j)
    rw [List.mem_cons] at hj
    simp only [Finset.mem_union, List.mem_toFinset, mem_taken, List.mem_singleton, List.not_mem_nil,
      false_or]
    rw [← or_assoc, ← hj]
    rfl
  refine ⟨h.length_outcomes, h.length_inherited, ?_, hperm.nodup_iff.mpr h.apart, ?_, h.free,
    h.inherits, ?_⟩
  · rw [htaken]
    exact h.tracks
  · exact fun j hj => h.unsettled j (hperm.mem_iff.mp hj)
  · intro j hj d hd
    rcases List.mem_cons.mp (hperm.mem_iff.mp hj) with rfl | hj
    · have hdone := (h.tracks.taken_ready j (by simp)).2 d hd
      obtain ⟨o, ho⟩ := Option.isSome_iff_exists.mp (mem_done.mp hdone)
      exact ⟨o, ho, h.free j hi hfree d o hd ho⟩
    · exact h.clear j hj d hd

theorem answer (h : c.Coherent p []) {position i : Nat} (runs : c.running[position]? = some i)
    (o : Outcome) : ({ c with
      running := c.running.eraseIdx position
      arrived := c.arrived ++ [(i, o)] } : Coordinator).Coherent p [] := by
  have hperm := answer_perm runs o
  have htaken : ({ c with
      running := c.running.eraseIdx position
      arrived := c.arrived ++ [(i, o)] } : Coordinator).taken = c.taken := by
    ext j
    have hj := hperm.mem_iff (a := j)
    simp only [mem_taken]
    rw [← hj]
    rfl
  refine ⟨h.length_outcomes, h.length_inherited, ?_, hperm.nodup_iff.mpr h.apart, ?_, h.free,
    h.inherits, ?_⟩
  · rw [htaken]
    exact h.tracks
  · exact fun j hj => h.unsettled j (hperm.mem_iff.mp hj)
  · exact fun j hj => h.clear j (hperm.mem_iff.mp hj)

theorem step (h : c.Coherent p []) {d : Option Deed} {c' : Coordinator} (hs : Step p c d c') :
    c'.Coherent p [] := by
  cases hs with
  | accept _ popped free _ _ => exact (h.pop popped).accept free
  | inherit popped _ => exact (h.pop popped).settle _
  | cancel popped _ => exact (h.pop popped).settle _
  | receive head => exact (h.unload head _).settle _
  | answer o runs => exact h.answer runs o
  | rest site =>
    exact ⟨h.length_outcomes, h.length_inherited, h.tracks, h.apart, h.unsettled, h.free, h.inherits,
      h.clear⟩

end Coherent

end Coordinator

end SlotBuild
