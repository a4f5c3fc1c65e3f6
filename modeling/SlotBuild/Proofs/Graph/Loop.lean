import SlotBuild.Proofs.Graph.Acceptance
import SlotBuild.Proofs.Graph.Search

/-! The cycle that a failed build reports: a way round through tasks that were declared. -/

namespace SlotBuild

namespace Graph

variable {c : Catalog} {tasks : List Task} {supplied supplies : List SlotId} {ids : List TaskId}

section stages

theorem lookupAll_ne_cycle {ss : List SlotId} : lookupAll c ss ≠ .error (.cycle ids) := by
  induction ss with
  | nil => simp [lookupAll]
  | cons s rest ih =>
    simp only [lookupAll]
    split
    · simp
    · exact ih

theorem checkTasks_ne_cycle {seen : List TaskId} {ts : List Task} :
    checkTasks c seen ts ≠ .error (.cycle ids) := by
  induction ts generalizing seen with
  | nil => simp [checkTasks]
  | cons t rest ih =>
    have ht : checkTask c seen t ≠ .error (.cycle ids) := by
      unfold checkTask
      split
      · simp
      · split
        case h_1 hslots => exact fun h => lookupAll_ne_cycle (hslots.trans h)
        case h_2 => split <;> simp
    simp only [checkTasks]
    cases hfault : checkTask c seen t with
    | error e => exact fun h => ht (hfault.trans h)
    | ok _ => exact ih

theorem addProducer_ne_cycle {i : Nat} {t : Task} {found : Keyed (List Nat)} {ss : List SlotId} :
    addProducer c tasks supplied i t found ss ≠ .error (.cycle ids) := by
  induction ss generalizing found with
  | nil => simp [addProducer]
  | cons s rest ih =>
    simp only [addProducer]
    split
    · simp
    · split
      · simp
      · exact ih

theorem collectProducers_ne_cycle {i : Nat} {found : Keyed (List Nat)} {ts : List Task} :
    collectProducers c tasks supplied i found ts ≠ .error (.cycle ids) := by
  induction ts generalizing i found with
  | nil => simp [collectProducers]
  | cons t rest ih =>
    simp only [collectProducers]
    cases hfault : addProducer c tasks supplied i t found t.outputs with
    | error e => exact fun h => addProducer_ne_cycle (hfault.trans h)
    | ok more => exact ih

variable {producers : Keyed (List Nat)}

theorem connectTask_ne_cycle {i : Nat} {t : Task} {es : List Edge} {ss : List SlotId} :
    connectTask supplied producers i t es ss ≠ .error (.cycle ids) := by
  induction ss generalizing es with
  | nil => simp [connectTask]
  | cons s rest ih =>
    simp only [connectTask]
    split
    · simp
    · exact ih

theorem connect_ne_cycle {i : Nat} {es : List Edge} {ts : List Task} :
    connect supplied producers i es ts ≠ .error (.cycle ids) := by
  induction ts generalizing i es with
  | nil => simp [connect]
  | cons t rest ih =>
    simp only [connect]
    cases hfault : connectTask supplied producers i t es t.inputs with
    | error e => exact fun h => connectTask_ne_cycle (hfault.trans h)
    | ok more => exact ih

end stages

/-- A build that reports a cycle has passed all its other checks. -/
theorem build_eq_cycle (h : build c supplies tasks = .error (.cycle ids)) :
    checkTasks c [] tasks = .ok () ∧
      ∃ producers, collectProducers c tasks (sortedSet supplies) 0 [] tasks = .ok producers ∧
        ∃ edges, connect (sortedSet supplies) producers 0 [] tasks = .ok edges ∧
          ∃ path, findCycle ⟨tasks, edges, producers, sortedSet supplies⟩ = .error path ∧
            ids = path.filterMap fun i => (tasks[i]?).map (·.id) := by
  simp only [build, bind_eq_error] at h
  rcases h with h | ⟨-, -, h | ⟨⟨⟩, hchecked, h | ⟨producers, hproducers, h | ⟨edges, hedges, h⟩⟩⟩⟩
  · exact absurd h lookupAll_ne_cycle
  · exact absurd h checkTasks_ne_cycle
  · exact absurd h collectProducers_ne_cycle
  · exact absurd h connect_ne_cycle
  · cases hpath : findCycle ⟨tasks, edges, producers, sortedSet supplies⟩ with
    | error path =>
      rw [hpath] at h
      have hids := GraphError.cycle.inj (Except.error.inj h)
      exact ⟨hchecked, producers, hproducers, edges, hedges, path, hpath, hids.symm⟩
    | ok _ => simp [hpath, pure, Except.pure] at h

def idAt (tasks : List Task) (i : Nat) : TaskId := ((tasks[i]?).map (·.id)).getD ""

theorem idAt_eq {i : Nat} {t : Task} (h : tasks[i]? = some t) : idAt tasks i = t.id := by
  simp [idAt, h]

theorem filterMap_idAt {path : List Nat} (h : ∀ i ∈ path, ∃ t, tasks[i]? = some t) :
    (path.filterMap fun i => (tasks[i]?).map (·.id)) = path.map (idAt tasks) := by
  rw [← List.filterMap_eq_map]
  refine List.filterMap_congr fun i hi => ?_
  obtain ⟨t, ht⟩ := h i hi
  simp [ht, idAt_eq ht]

/-- The ids of tasks each of which makes something that the next one reads, the first again at the
end. -/
structure Loop (tasks : List Task) (ids : List TaskId) : Prop where
  three_le : 3 ≤ ids.length
  closed : ids.head? = ids.getLast?
  nodup : ids.dropLast.Nodup
  declared : ∀ id ∈ ids, id ∈ tasks.map (·.id)
  identifies : (tasks.map (·.id)).Nodup
  linked : ids.IsChain fun p c => ∃ t ∈ tasks, ∃ u ∈ tasks, t.id = p ∧ u.id = c ∧
    ∃ s ∈ t.outputs, s ∈ u.inputs

theorem exists_of_isChain_concat {R : Nat → Nat → Prop} {path : List Nat} {j : Nat}
    (h : (path ++ [j]).IsChain R) : ∀ i ∈ path, ∃ k, R i k := by
  induction path with
  | nil => simp
  | cons a rest ih =>
    obtain ⟨b, r, hb⟩ : ∃ b r, rest ++ [j] = b :: r := List.exists_cons_of_ne_nil (by simp)
    rw [List.cons_append, hb, List.isChain_cons_cons, ← hb] at h
    exact List.forall_mem_cons.mpr ⟨⟨b, h.1⟩, ih h.2⟩

/-- A way round through positions is a way round through ids. -/
theorem Circle.loop {g : Graph} {path : List Nat} (h : g.Circle path)
    (hfeeds : ∀ p q, g.Precedes p q → Feeds tasks p q) (hids : (tasks.map (·.id)).Nodup)
    (hseparate : ∀ t ∈ tasks, ∀ s ∈ t.inputs, s ∉ t.outputs) :
    Loop tasks (path.filterMap fun i => (tasks[i]?).map (·.id)) := by
  obtain ⟨i, r, rfl, hround⟩ := h.closed
  have hfed : ((i :: r) ++ [i]).IsChain (Feeds tasks) := h.chain.imp hfeeds
  have htask : ∀ j ∈ i :: r, ∃ t, tasks[j]? = some t := fun j hj => by
    obtain ⟨-, t, -, -, ht, -⟩ := exists_of_isChain_concat hfed j hj
    exact ⟨t, ht⟩
  have hall : ∀ j ∈ (i :: r) ++ [i], ∃ t, tasks[j]? = some t := fun j hj => by
    rcases List.mem_append.mp hj with hj | hj
    · exact htask j hj
    · obtain rfl := List.mem_singleton.mp hj
      exact htask j List.mem_cons_self
  have hne : r ≠ [] := by
    rintro rfl
    obtain ⟨t, u, s, ht, hu, hst, hsu⟩ : Feeds tasks i i := by simpa using hfed
    obtain rfl : t = u := Option.some.inj (ht.symm.trans hu)
    exact hseparate t (List.mem_of_getElem? ht) s hsu hst
  rw [← List.cons_append, filterMap_idAt hall]
  refine ⟨?_, ?_, ?_, ?_, hids, ?_⟩
  · have hpos := List.length_pos_of_ne_nil hne
    simp only [List.length_map, List.length_append, List.length_cons, List.length_nil]
    omega
  · rw [List.map_append, List.map_singleton, List.getLast?_concat]
    rfl
  · rw [List.map_append, List.map_singleton, List.dropLast_concat]
    refine List.Nodup.map_on (fun j hj k hk hjk => ?_) hround
    obtain ⟨t, ht⟩ := htask j hj
    obtain ⟨u, hu⟩ := htask k hk
    rw [idAt_eq ht, idAt_eq hu] at hjk
    exact index_unique_of_nodup hids ht hu hjk
  · refine List.forall_mem_map.mpr fun j hj => ?_
    obtain ⟨t, ht⟩ := hall j hj
    rw [idAt_eq ht]
    exact List.mem_map_of_mem (List.mem_of_getElem? ht)
  · refine (List.isChain_map (idAt tasks)).mpr (hfed.imp ?_)
    rintro p q ⟨t, u, s, ht, hu, hst, hsu⟩
    exact ⟨t, List.mem_of_getElem? ht, u, List.mem_of_getElem? hu, (idAt_eq ht).symm,
      (idAt_eq hu).symm, s, hst, hsu⟩

/-- A reported cycle leads through the declared tasks and back, and the search that reports it comes
to an end on every graph and enters no task twice. -/
theorem reported_cycle_loops :
    (∀ (c : Catalog) (supplies : List SlotId) (tasks : List Task) (ids : List TaskId),
      build c supplies tasks = .error (.cycle ids) → Loop tasks ids) ∧
    ∀ g : Graph, ∃ entered result,
      Searches g (Search.start g) (List.range g.size) entered result ∧
      result.map (fun _ => ()) = g.findCycle ∧
      entered.Nodup ∧ (∀ i ∈ entered, i < g.size) ∧
      ∀ entered' result', Searches g (Search.start g) (List.range g.size) entered' result' →
        entered' = entered ∧ result' = result := by
  refine ⟨fun c supplies tasks ids h => ?_, fun g => ?_⟩
  · obtain ⟨hchecked, producers, hproducers, edges, hedges, path, hpath, rfl⟩ := build_eq_cycle h
    obtain ⟨hids, -, -, hseparate⟩ := checkTasks_eq_ok.mp hchecked
    have hcol := collectProducers_collected start_collected List.drop_zero hproducers
    have hcircle := circle_of_findCycle (hcol.edges_inRange hedges) hpath
    exact hcircle.loop (fun p q => hcol.feeds hedges) hids hseparate
  · obtain ⟨entered, result, h, hresult⟩ := exists_searches g
    have hspends := h.spends
    refine ⟨entered, result, h, hresult, hspends.nodup, fun i hi => ?_, fun _ _ h' => h'.unique h⟩
    exact Search.mem_fresh_start.mp (hspends.fresh i hi)

end Graph

namespace Wheel

def catalog : Catalog :=
  ⟨["ore", "hub", "spoke", "rim", "log"].map fun s => Slot.single s .file .intermediates⟩

def task (id : TaskId) (inputs outputs : List SlotId) : Task :=
  ((Task.make id fun _ w => (.reported [], w)).withInputs inputs).withOutputs outputs

/-- `mine` leads to `note`, which leads no further, and into the ring of the other three. -/
def tasks : List Task :=
  [task "mine" [] ["ore"], task "note" ["ore"] ["log"], task "first" ["ore", "rim"] ["hub"],
    task "second" ["hub"] ["spoke"], task "third" ["spoke"] ["rim"]]

theorem ring_loops : Graph.build catalog [] tasks =
      .error (.cycle ["first", "second", "third", "first"]) ∧
    Graph.Loop tasks ["first", "second", "third", "first"] := by
  have hcycle : Graph.build catalog [] tasks =
      .error (.cycle ["first", "second", "third", "first"]) := rfl
  exact ⟨hcycle, Graph.reported_cycle_loops.1 catalog [] tasks _ hcycle⟩

end Wheel

end SlotBuild
