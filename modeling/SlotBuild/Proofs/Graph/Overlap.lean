import SlotBuild.Proofs.Graph.Closure
import SlotBuild.Proofs.Graph.Frontier

/-! Graphs that have tasks in common. A part of a graph in which nothing is missing has the same
producers for its tasks as the whole, and puts them in the same order. -/

namespace SlotBuild.Graph

variable {c c' : Catalog} {g g' : Graph} {i j k : Nat}

/-- One task stands at position `k` of one graph and at position `i` of the other. -/
def Shared (g' g : Graph) (k i : Nat) : Prop := ∃ t, g'.task? k = some t ∧ g.task? i = some t

/-- The inputs of a common task come from common producers, which are in the same order. -/
def Agrees (g' g : Graph) : Prop :=
  ∀ t ∈ g'.tasks, t ∈ g.tasks → ∀ s ∈ t.inputs,
    List.Forall₂ (g'.Shared g) (g'.producersOf s) (g.producersOf s)

theorem Shared.symm (h : g'.Shared g k i) : g.Shared g' i k := by
  obtain ⟨t, hk, hi⟩ := h
  exact ⟨t, hi, hk⟩

theorem Shared.unique (h : g'.Shared g k i) (hg : g.Valid c) (h' : g'.Shared g k j) : i = j := by
  obtain ⟨t, hk, hi⟩ := h
  obtain ⟨t', hk', hj⟩ := h'
  obtain rfl : t = t' := Option.some.inj (hk.symm.trans hk')
  exact hg.index_unique hi hj rfl

theorem Agrees.symm (h : g'.Agrees g) : g.Agrees g' :=
  fun t ht ht' s hs => ((h t ht' ht s hs).imp fun _ _ => Shared.symm).flip

theorem Valid.agrees_self (hg : g.Valid c) : g.Agrees g := by
  refine fun _ _ _ s _ => List.forall₂_same.mpr fun i hi => ?_
  obtain ⟨t, ht, -⟩ := (hg.mem_producersOf s i).mp hi
  exact ⟨t, ht, ht⟩

/-- What a common task depends on is common as well. -/
theorem Agrees.exists_precedes (h : g'.Agrees g) (hg' : g'.Valid c') (hg : g.Valid c) (hki : g'.Shared g k i)
    (hj : g.Precedes j i) : ∃ a, g'.Shared g a j ∧ g'.Precedes a k := by
  obtain ⟨t, hk, hi⟩ := hki
  obtain ⟨⟨_, _, s⟩, hedge, rfl, rfl⟩ := hj
  obtain ⟨hproducer, t', ht', hs⟩ := (hg.mem_edges _).mp hedge
  obtain rfl : t = t' := Option.some.inj (hi.symm.trans ht')
  have hall := h t (List.mem_of_getElem? hk) (List.mem_of_getElem? hi) s hs
  obtain ⟨a, ha, hshared⟩ := exists_left_of_forall₂ hall _ hproducer
  exact ⟨a, hshared, ⟨a, k, s⟩, (hg'.mem_edges _).mpr ⟨ha, t, hk, hs⟩, rfl, rfl⟩

namespace Closed

variable {keep : List Nat}

theorem lt_size_restrict (hk : g.Closed keep) (h : keep[k]? = some i) : k < (g.restrict keep).size := by
  obtain ⟨t, ht⟩ := exists_task? (hk.inRange i (List.mem_of_getElem? h))
  exact lt_size_of_task? (hk.task?_restrict_iff.mpr ⟨i, h, ht⟩)

theorem exists_getElem? (hk : g.Closed keep) (h : k < (g.restrict keep).size) : ∃ i, keep[k]? = some i := by
  obtain ⟨t, ht⟩ := exists_task? h
  obtain ⟨i, hi, -⟩ := hk.task?_restrict_iff.mp ht
  exact ⟨i, hi⟩

theorem shared (hk : g.Closed keep) (h : keep[k]? = some i) : (g.restrict keep).Shared g k i := by
  obtain ⟨t, ht⟩ := exists_task? (hk.inRange i (List.mem_of_getElem? h))
  exact ⟨t, hk.task?_restrict_iff.mpr ⟨i, h, ht⟩, ht⟩

theorem precedes_restrict (hk : g.Closed keep) {a b : Nat} (ha : keep[a]? = some i) (hb : keep[b]? = some j)
    (h : g.Precedes i j) : (g.restrict keep).Precedes a b := by
  obtain ⟨e, he, rfl, rfl⟩ := h
  exact ⟨⟨a, b, e.slot⟩, hk.mem_restrict_edges.mpr ⟨e, he, ha, hb, rfl⟩, rfl, rfl⟩

theorem restrict_agrees (hk : g.Closed keep) (hg : g.Valid c) : (g.restrict keep).Agrees g := by
  intro t ht _ s hs
  obtain ⟨i, hi, hti⟩ := mem_restrict_tasks ht
  have hkept : ∀ j ∈ g.producersOf s, ∃ k, keep[k]? = some j := fun j hj =>
    List.mem_iff_getElem?.mp
      (hk.closed i hi j ⟨⟨j, i, s⟩, (hg.mem_edges _).mpr ⟨hj, t, hti, hs⟩, rfl, rfl⟩)
  rw [producersOf_restrict hg.ordered]
  generalize g.producersOf s = js at hkept
  induction js with
  | nil => exact .nil
  | cons j js ih =>
    obtain ⟨k, hkj⟩ := hkept j List.mem_cons_self
    have hidx : keep.idxOf? j = some k := hk.idxOf?_eq_some.mpr hkj
    rw [List.filterMap_cons, hidx]
    exact .cons (hk.shared hkj) (ih fun j' hj' => hkept j' (List.mem_cons_of_mem j hj'))

section order

variable {done done' : Finset Nat} {f f' : Frontier}

theorem mem_ready_restrict (hk : g.Closed keep) (h : f.Tracks g done done)
    (h' : f'.Tracks (g.restrict keep) done' done')
    (hdone : ∀ {k i}, keep[k]? = some i → (k ∈ done' ↔ i ∈ done)) (hki : keep[k]? = some i) :
    k ∈ f'.ready ↔ i ∈ f.ready := by
  rw [h.mem_ready, h'.mem_ready, hdone hki]
  constructor
  · rintro ⟨-, hnew, hdeps⟩
    refine ⟨hk.inRange i (List.mem_of_getElem? hki), hnew, fun d hd => ?_⟩
    obtain ⟨a, ha⟩ := List.mem_iff_getElem?.mp (hk.closed i (List.mem_of_getElem? hki) d hd)
    exact (hdone ha).mp (hdeps a (hk.precedes_restrict ha hki hd))
  · rintro ⟨-, hnew, hdeps⟩
    refine ⟨hk.lt_size_restrict hki, hnew, fun a ha => ?_⟩
    obtain ⟨d, i', hd, hi', hprec⟩ := hk.precedes_of_restrict ha
    obtain rfl : i = i' := Option.some.inj (hki.symm.trans hi')
    exact (hdone hd).mpr (hdeps d hprec)

theorem ready_restrict_eq_nil (hk : g.Closed keep) (h : f.Tracks g done done)
    (h' : f'.Tracks (g.restrict keep) done' done')
    (hdone : ∀ {k i}, keep[k]? = some i → (k ∈ done' ↔ i ∈ done)) (hready : f.ready = []) :
    f'.ready = [] := by
  refine List.eq_nil_iff_forall_not_mem.mpr fun k hmem => ?_
  obtain ⟨i, hki⟩ := hk.exists_getElem? ((h'.mem_ready k).mp hmem).1
  have := (hk.mem_ready_restrict h h' hdone hki).mp hmem
  simp [hready] at this

/-- The first that is ready in the whole graph is the first in the part, if it belongs to it. -/
theorem pop?_restrict (hk : g.Closed keep) (h : f.Tracks g done done)
    (h' : f'.Tracks (g.restrict keep) done' done')
    (hdone : ∀ {k i}, keep[k]? = some i → (k ∈ done' ↔ i ∈ done)) {rest : Frontier}
    (hpop : f.pop? = some (i, rest)) (hki : keep[k]? = some i) : ∃ rest', f'.pop? = some (k, rest') := by
  have hready := Frontier.ready_of_pop? hpop
  have hmem : k ∈ f'.ready := (hk.mem_ready_restrict h h' hdone hki).mpr (by simp [hready])
  cases hready' : f'.ready with
  | nil => simp [hready'] at hmem
  | cons a as =>
    obtain ⟨j, haj⟩ := hk.exists_getElem? ((h'.mem_ready a).mp (by simp [hready'])).1
    have hj := (hk.mem_ready_restrict h h' hdone haj).mp (by simp [hready'])
    have hka := hk.getElem?_le hki haj (h.le_of_pop? hpop j hj)
    have hinc := h'.increasing
    rw [hready'] at hinc hmem
    obtain rfl : a = k := by
      rcases List.mem_cons.mp hmem with rfl | hlater
      · rfl
      · have := (List.pairwise_cons.mp hinc).1 k hlater
        omega
    exact ⟨_, by rw [Frontier.pop?, hready']⟩

theorem mem_insert_iff (hk : g.Closed keep) (hdone : ∀ {k i}, keep[k]? = some i → (k ∈ done' ↔ i ∈ done))
    (hki : keep[k]? = some i) {a j : Nat} (haj : keep[a]? = some j) :
    a ∈ insert k done' ↔ j ∈ insert i done := by
  have hsame : a = k ↔ j = i := by
    constructor
    · rintro rfl
      exact Option.some.inj (haj.symm.trans hki)
    · rintro rfl
      exact Nat.le_antisymm (hk.getElem?_le haj hki le_rfl) (hk.getElem?_le hki haj le_rfl)
  rw [Finset.mem_insert, Finset.mem_insert, hsame, hdone haj]

/-- Tasks outside the part may come in between, and nothing in the part waits for them. -/
theorem orderFrom_restrict (hk : g.Closed keep) {fuel fuel' : Nat}
    (h : f.Tracks g done done) (h' : f'.Tracks (g.restrict keep) done' done')
    (hdone : ∀ {k i}, keep[k]? = some i → (k ∈ done' ↔ i ∈ done)) (hfuel : g.size ≤ done.card + fuel)
    (hfuel' : (g.restrict keep).size ≤ done'.card + fuel') :
    List.Forall₂ (fun k i => keep[k]? = some i) ((g.restrict keep).orderFrom fuel' f')
      ((g.orderFrom fuel f).filter (· ∈ keep)) := by
  induction fuel generalizing f f' done done' fuel' with
  | zero =>
    cases hpop : f.pop? with
    | none =>
      rw [orderFrom_eq_nil (hk.ready_restrict_eq_nil h h' hdone (Frontier.pop?_eq_none.mp hpop))]
      exact .nil
    | some next =>
      have := h.card_lt hpop
      omega
  | succ fuel ih =>
    cases hpop : f.pop? with
    | none =>
      have hdry := Frontier.pop?_eq_none.mp hpop
      rw [orderFrom_eq_nil hdry, orderFrom_eq_nil (hk.ready_restrict_eq_nil h h' hdone hdry)]
      exact .nil
    | some next =>
      obtain ⟨i, rest⟩ := next
      obtain ⟨-, hnext, hcard⟩ := h.advance hpop
      by_cases hi : i ∈ keep
      · obtain ⟨k, hki⟩ := List.mem_iff_getElem?.mp hi
        obtain ⟨rest', hpop'⟩ := hk.pop?_restrict h h' hdone hpop hki
        obtain ⟨-, hnext', hcard'⟩ := h'.advance hpop'
        obtain ⟨fuel', rfl⟩ : ∃ n, fuel' = n + 1 := Nat.exists_eq_succ_of_ne_zero fun hzero => by
          have := h'.card_lt hpop'
          omega
        simp only [orderFrom, hpop, hpop']
        rw [List.filter_cons_of_pos (by simpa using hi)]
        exact .cons hki (ih hnext hnext' (hk.mem_insert_iff hdone hki) (by omega) (by omega))
      · have hdone' : ∀ {a j}, keep[a]? = some j → (a ∈ done' ↔ j ∈ insert i done) := fun haj => by
          have hne : _ ≠ i := fun heq => hi (heq ▸ List.mem_of_getElem? haj)
          rw [hdone haj, Finset.mem_insert]
          exact (or_iff_right hne).symm
        simp only [orderFrom, hpop]
        rw [List.filter_cons_of_neg (by simpa using hi)]
        exact ih hnext h' hdone' (by omega) hfuel'

theorem order_restrict (hk : g.Closed keep) :
    List.Forall₂ (fun k i => keep[k]? = some i) (g.restrict keep).order (g.order.filter (· ∈ keep)) :=
  orderFrom_restrict hk (Frontier.start_tracks g) (Frontier.start_tracks _) (by simp) (by simp) (by simp)

end order

end Closed

/-- Whether a graph has a task of this name. -/
def has (g : Graph) (id : TaskId) : Bool := (g.indexOf? id).isSome

theorem has_iff {id : TaskId} : g.has id = true ↔ ∃ t ∈ g.tasks, t.id = id := by
  simp [has, indexOf?, List.findIdx?_isSome]

theorem Valid.has_iff_mem (hg : g.Valid c) (hsub : ∀ t ∈ g'.tasks, t ∈ g.tasks) {t : Task}
    (ht : t ∈ g.tasks) :
    g'.has t.id = true ↔ t ∈ g'.tasks := by
  rw [has_iff]
  constructor
  · rintro ⟨u, hu, hid⟩
    obtain rfl := List.inj_on_of_nodup_map hg.ids_nodup (hsub u hu) ht hid
    exact hu
  · exact fun h => ⟨t, h, rfl⟩

theorem has_of_select {targets : List TaskId} (h : g.select targets = .ok g') :
    ∀ id ∈ targets, g'.has id = true := by
  intro id hid
  obtain ⟨roots, hroots, h⟩ := bind_eq_ok.mp h
  obtain rfl : g.restrict (g.dependencyClosure roots) = g' := by simpa [pure, Except.pure] using h
  obtain ⟨i, hi, hidx⟩ := (targetIndices_ok hroots).1 id hid
  obtain ⟨hlt, hname, -⟩ := List.findIdx?_eq_some_iff_getElem.mp hidx
  refine has_iff.mpr ⟨g.tasks[i], List.mem_filterMap.mpr ⟨i, mem_dependencyClosure_of_mem hi, ?_⟩,
    by simpa using hname⟩
  exact List.getElem?_eq_getElem hlt

/-- What some targets need agrees with the whole graph and keeps the order of its tasks. -/
theorem select_agrees {targets : List TaskId} (hg : g.Valid c) (h : g.select targets = .ok g') :
    g'.Agrees g ∧ List.Forall₂ (g'.Shared g) g'.order
      (g.order.filter fun i => (g.task? i).any fun t => g'.has t.id) := by
  have hsub := (select_valid hg h).1
  obtain ⟨keep, hk, rfl⟩ := exists_closed_of_select hg h
  refine ⟨hk.restrict_agrees hg, ?_⟩
  have hkept : (g.order.filter fun i => (g.task? i).any fun t => (g.restrict keep).has t.id) =
      g.order.filter (· ∈ keep) := by
    refine List.filter_congr fun i hi => ?_
    obtain ⟨t, ht⟩ := exists_task? (List.mem_range.mp ((order_perm hg.acyclic).mem_iff.mp hi))
    rw [ht, Option.any_some, Bool.eq_iff_iff,
      hg.has_iff_mem hsub (List.mem_of_getElem? ht), decide_eq_true_eq,
      hg.mem_restrict_iff ht]
  rw [hkept]
  exact hk.order_restrict.imp fun _ _ => hk.shared

end SlotBuild.Graph
