import SlotBuild.Proofs.Graph.Valid

/-! Which tasks make a graph. The checks of a build pass exactly where the tasks and the supplies
fit together, and what is derived from the tasks then agrees with what they declare. -/

namespace SlotBuild

namespace Edge

theorem before_iff {a b : Edge} : a.before b ↔ a.producer < b.producer ∨
    (a.producer = b.producer ∧
      (a.consumer < b.consumer ∨ (a.consumer = b.consumer ∧ a.slot < b.slot))) := by
  simp [before]

theorem before_trans {a b d : Edge} (hab : a.before b) (hbd : b.before d) : a.before d := by
  rw [before_iff] at hab hbd ⊢
  rcases hab with hab | ⟨hp, hab | ⟨hc, hs⟩⟩ <;> rcases hbd with hbd | ⟨hp', hbd | ⟨hc', hs'⟩⟩
  all_goals first | omega | exact Or.inr ⟨hp.trans hp', Or.inr ⟨hc.trans hc', lt_trans hs hs'⟩⟩

theorem before_total {a b : Edge} (hne : a ≠ b) : a.before b ∨ b.before a := by
  by_contra hcon
  obtain ⟨hab, hba⟩ := not_or.mp hcon
  rw [before_iff] at hab hba
  have hp : a.producer = b.producer := by omega
  have hc : a.consumer = b.consumer := by omega
  have hs : a.slot = b.slot := by
    refine le_antisymm (not_lt.mp fun hlt => ?_) (not_lt.mp fun hlt => ?_)
    · exact hba (Or.inr ⟨hp.symm, Or.inr ⟨hc.symm, hlt⟩⟩)
    · exact hab (Or.inr ⟨hp, Or.inr ⟨hc, hlt⟩⟩)
  obtain ⟨p, q, s⟩ := a
  obtain ⟨p', q', s'⟩ := b
  exact hne (by simpa using ⟨hp, hc, hs⟩)

instance : IsTrans Edge (· < ·) := ⟨fun _ _ _ => before_trans⟩

instance : Std.Trichotomous (α := Edge) (· < ·) :=
  ⟨fun _ _ hab hba => by_contra fun hne => (before_total hne).elim hab hba⟩

end Edge

namespace Graph

variable {c : Catalog} {tasks : List Task} {supplied : List SlotId}

theorem lookupAll_eq_ok {ss : List SlotId} :
    lookupAll c ss = .ok () ↔ ∀ s ∈ ss, ∃ slot, c.find? s = some slot := by
  refine ⟨lookupAll_ok, fun h => ?_⟩
  induction ss with
  | nil => rfl
  | cons s rest ih =>
    obtain ⟨⟨slot, hslot⟩, hrest⟩ := List.forall_mem_cons.mp h
    simp only [lookupAll, Catalog.lookup_eq_ok.mpr hslot]
    exact ih hrest

theorem checkTask_eq_ok {seen : List TaskId} {t : Task} : checkTask c seen t = .ok () ↔
    t.id ∉ seen ∧ (∀ s ∈ t.inputs ++ t.outputs, ∃ slot, c.find? s = some slot) ∧
      ∀ s ∈ t.inputs, s ∉ t.outputs := by
  rw [← lookupAll_eq_ok]
  have hfind : (t.inputs.find? fun s => t.outputs.contains s) = none ↔ ∀ s ∈ t.inputs, s ∉ t.outputs := by
    simp
  rw [← hfind, checkTask]
  by_cases hseen : t.id ∈ seen
  · simp [hseen]
  · cases lookupAll c (t.inputs ++ t.outputs) <;>
      cases t.inputs.find? fun s => t.outputs.contains s <;> simp [hseen]

theorem checkTasks_eq_ok {seen : List TaskId} {ts : List Task} : checkTasks c seen ts = .ok () ↔
    (ts.map (·.id)).Nodup ∧ (∀ t ∈ ts, t.id ∉ seen) ∧
      (∀ t ∈ ts, ∀ s ∈ t.inputs ++ t.outputs, ∃ slot, c.find? s = some slot) ∧
      ∀ t ∈ ts, ∀ s ∈ t.inputs, s ∉ t.outputs := by
  induction ts generalizing seen with
  | nil => simp [checkTasks]
  | cons t rest ih =>
    have hstep : checkTasks c seen (t :: rest) = .ok () ↔
        checkTask c seen t = .ok () ∧ checkTasks c (t.id :: seen) rest = .ok () := by
      cases ht : checkTask c seen t <;> simp [checkTasks, ht]
    rw [hstep, checkTask_eq_ok, ih]
    simp only [List.map_cons, List.nodup_cons, List.mem_map, List.mem_cons, not_or, not_exists, not_and]
    grind

theorem rival?_eq_none_of_free {slot : Slot} {found : Keyed (List Nat)}
    (h : slot.appendable = false → (Keyed.get? slot.id found).getD [] = [] ∧ slot.id ∉ supplied) :
    rival? slot tasks supplied found = none := by
  by_cases happ : slot.appendable = true
  · simp [rival?, happ]
  · obtain ⟨hnone, hout⟩ := h (by simpa using happ)
    simp [rival?, happ, hnone, hout]

theorem exists_addProducer {i : Nat} {t : Task} {ss : List SlotId} {found : Keyed (List Nat)}
    (hss : ss.Nodup) (hdeclared : ∀ s ∈ ss, ∃ slot, c.find? s = some slot)
    (hfree : ∀ s ∈ ss, ∀ slot, c.find? s = some slot → slot.appendable = false →
      (Keyed.get? s found).getD [] = [] ∧ s ∉ supplied) :
    ∃ found', addProducer c tasks supplied i t found ss = .ok found' := by
  induction ss generalizing found with
  | nil => exact ⟨found, rfl⟩
  | cons x rest ih =>
    obtain ⟨hx, hrest⟩ := List.nodup_cons.mp hss
    obtain ⟨⟨slot, hslot⟩, hdeclared⟩ := List.forall_mem_cons.mp hdeclared
    obtain ⟨hfreeX, hfree⟩ := List.forall_mem_cons.mp hfree
    have hrival : rival? slot tasks supplied found = none :=
      rival?_eq_none_of_free (Catalog.id_of_find? hslot ▸ hfreeX slot hslot)
    simp only [addProducer, Catalog.lookup_eq_ok.mpr hslot, hrival]
    refine ih hrest hdeclared fun s hs slot' hs' happ => ?_
    have hne : x ≠ s := fun he => hx (he ▸ hs)
    rw [Keyed.getD_append, if_neg hne, List.append_nil]
    exact hfree s hs slot' hs' happ

/-- Something that task `p` makes is read by task `q`. -/
def Feeds (tasks : List Task) (p q : Nat) : Prop :=
  ∃ t u s, tasks[p]? = some t ∧ tasks[q]? = some u ∧ s ∈ t.outputs ∧ s ∈ u.inputs

theorem Collected.feeds {producers : Keyed (List Nat)} {edges : List Edge}
    (h : Collected c tasks supplied tasks.length producers)
    (hedges : connect supplied producers 0 [] tasks = .ok edges) {p q : Nat}
    (hpq : Precedes ⟨tasks, edges, producers, supplied⟩ p q) : Feeds tasks p q := by
  obtain ⟨e, he, rfl, rfl⟩ := hpq
  obtain ⟨hp, u, hu, hsu⟩ := (mem_connected hedges e).mp he
  obtain ⟨t, ht, hst⟩ := (h.mem_makers e.slot e.producer).mp hp
  exact ⟨t, u, e.slot, ht, hu, hst, hsu⟩

/-- Tasks and supplies that fit together. -/
structure Buildable (c : Catalog) (supplies : List SlotId) (tasks : List Task) : Prop where
  supplies_declared : ∀ s ∈ supplies, ∃ slot, c.find? s = some slot
  slots_declared : ∀ t ∈ tasks, ∀ s ∈ t.inputs ++ t.outputs, ∃ slot, c.find? s = some slot
  ids_nodup : (tasks.map (·.id)).Nodup
  separate : ∀ t ∈ tasks, ∀ s ∈ t.inputs, s ∉ t.outputs
  maker_unique : ∀ s slot, c.find? s = some slot → slot.appendable = false →
    ∀ (i j : Nat) (t u : Task), tasks[i]? = some t → tasks[j]? = some u →
      s ∈ t.outputs → s ∈ u.outputs → i = j
  supply_unmade : ∀ s slot, c.find? s = some slot → slot.appendable = false → s ∈ supplies →
    ∀ t ∈ tasks, s ∉ t.outputs
  filled : ∀ t ∈ tasks, ∀ s ∈ t.inputs, s ∈ supplies ∨ ∃ u ∈ tasks, s ∈ u.outputs
  acyclic : ∀ i, ¬ Relation.TransGen (Feeds tasks) i i

/-- What a graph says of its tasks is what the tasks declare. -/
structure Reflects (g : Graph) (supplies : List SlotId) (tasks : List Task) : Prop where
  tasks_eq : g.tasks = tasks
  mem_supplied : ∀ s, s ∈ g.supplied ↔ s ∈ supplies
  mem_edges : ∀ e, e ∈ g.edges ↔ ∃ t u, tasks[e.producer]? = some t ∧ tasks[e.consumer]? = some u ∧
    e.slot ∈ t.outputs ∧ e.slot ∈ u.inputs
  edges_ordered : g.edges.Pairwise (·.before ·)
  mem_producersOf : ∀ s i, i ∈ g.producersOf s ↔ ∃ t, tasks[i]? = some t ∧ s ∈ t.outputs
  producersOf_increasing : ∀ s, (g.producersOf s).Pairwise (· < ·)
  mem_dependencies : ∀ p q, p ∈ g.dependencies q ↔ ∃ e ∈ g.edges, e.producer = p ∧ e.consumer = q
  mem_dependents : ∀ p q, q ∈ g.dependents p ↔ p ∈ g.dependencies q
  dependencies_increasing : ∀ q, (g.dependencies q).Pairwise (· < ·)
  dependents_increasing : ∀ p, (g.dependents p).Pairwise (· < ·)

namespace Buildable

variable {supplies : List SlotId}

theorem exists_collectProducers (h : Buildable c supplies tasks)
    {n : Nat} {rest : List Task} {found : Keyed (List Nat)}
    (hcol : Collected c tasks (sortedSet supplies) n found) (hrest : tasks.drop n = rest) :
    ∃ producers, collectProducers c tasks (sortedSet supplies) n found rest = .ok producers := by
  induction rest generalizing n found with
  | nil => exact ⟨found, rfl⟩
  | cons t rest ih =>
    obtain ⟨ht, hdrop⟩ := getElem?_of_drop_eq_cons hrest
    have hmem := List.mem_of_getElem? ht
    obtain ⟨more, hmore⟩ : ∃ more,
        addProducer c tasks (sortedSet supplies) n t found t.outputs = .ok more := by
      refine exists_addProducer t.outputs_nodup
        (fun s hs => h.slots_declared t hmem s (List.mem_append_right _ hs)) fun s hs slot hslot happ => ?_
      refine ⟨?_, fun hsup => h.supply_unmade s slot hslot happ (mem_sortedSet.mp hsup) t hmem hs⟩
      rw [hcol.makers, List.eq_nil_iff_forall_not_mem]
      intro i hi
      obtain ⟨hlt, u, hu, hsu⟩ := mem_makersBelow.mp hi
      exact hlt.ne (h.maker_unique s slot hslot happ i n u t hu ht hsu hs)
    simp only [collectProducers, hmore]
    exact ih (hcol.step ht hmore) hdrop

end Buildable

theorem exists_connectTask {producers : Keyed (List Nat)} {i : Nat} {t : Task} {ss : List SlotId}
    {es : List Edge} (h : ∀ s ∈ ss, (Keyed.get? s producers).getD [] ≠ [] ∨ s ∈ supplied) :
    ∃ es', connectTask supplied producers i t es ss = .ok es' := by
  induction ss generalizing es with
  | nil => exact ⟨es, rfl⟩
  | cons s rest ih =>
    obtain ⟨hs, hrest⟩ := List.forall_mem_cons.mp h
    have hfilled : ¬ ((Keyed.get? s producers).getD [] = [] ∧ !supplied.contains s) := by
      rintro ⟨hnone, hout⟩
      exact hs.elim (fun hne => hne hnone) fun hin => by simp [hin] at hout
    simp only [connectTask, if_neg hfilled]
    exact ih hrest

theorem exists_connect {producers : Keyed (List Nat)} {i : Nat} {ts : List Task} {es : List Edge}
    (h : ∀ t ∈ ts, ∀ s ∈ t.inputs, (Keyed.get? s producers).getD [] ≠ [] ∨ s ∈ supplied) :
    ∃ es', connect supplied producers i es ts = .ok es' := by
  induction ts generalizing i es with
  | nil => exact ⟨es, rfl⟩
  | cons t rest ih =>
    obtain ⟨ht, hrest⟩ := List.forall_mem_cons.mp h
    obtain ⟨more, hmore⟩ : ∃ more, connectTask supplied producers i t es t.inputs = .ok more :=
      exists_connectTask ht
    simp only [connect, hmore]
    exact ih hrest

theorem connectTask_ordered {producers : Keyed (List Nat)} {i : Nat} {t : Task} {ss : List SlotId}
    {es es' : List Edge} (hes : es.Pairwise (·.before ·))
    (h : connectTask supplied producers i t es ss = .ok es') : es'.Pairwise (·.before ·) := by
  induction ss generalizing es with
  | nil =>
    obtain rfl : es = es' := by simpa [connectTask] using h
    exact hes
  | cons s rest ih =>
    simp only [connectTask] at h
    split at h
    · simp at h
    · exact ih (foldl_insertOnce_increasing (fun p => ⟨p, i, s⟩) hes) h

theorem connect_ordered {producers : Keyed (List Nat)} {i : Nat} {ts : List Task} {es es' : List Edge}
    (hes : es.Pairwise (·.before ·)) (h : connect supplied producers i es ts = .ok es') :
    es'.Pairwise (·.before ·) := by
  induction ts generalizing i es with
  | nil =>
    obtain rfl : es = es' := by simpa [connect] using h
    exact hes
  | cons t rest ih =>
    rw [connect] at h
    cases hmore : connectTask supplied producers i t es t.inputs with
    | error e => simp [hmore] at h
    | ok more =>
      rw [hmore] at h
      exact ih (connectTask_ordered hes hmore) h

variable {supplies : List SlotId} {g : Graph}

theorem reflects_of_build (h : build c supplies tasks = .ok g) :
    g.Reflects supplies tasks := by
  obtain ⟨htasks, hsupplied, hg⟩ := build_valid h
  obtain ⟨-, -, producers, -, edges, hedges, hgraph, -⟩ := build_eq_ok.mp h
  have hordered : g.edges.Pairwise (·.before ·) := hgraph ▸ connect_ordered List.Pairwise.nil hedges
  subst htasks
  refine ⟨rfl, fun s => by rw [hsupplied, mem_sortedSet], fun e => ?_, hordered, hg.mem_producersOf,
    hg.increasing, fun p q => mem_dependencies,
    fun p q => mem_dependents.trans mem_dependencies.symm, fun q => sortedSet_increasing _,
    fun p => sortedSet_increasing _⟩
  rw [hg.mem_edges, hg.mem_producersOf]
  constructor
  · rintro ⟨⟨t, ht, hst⟩, u, hu, hsu⟩
    exact ⟨t, u, ht, hu, hst, hsu⟩
  · rintro ⟨t, u, ht, hu, hst, hsu⟩
    exact ⟨⟨t, ht, hst⟩, u, hu, hsu⟩

theorem Valid.precedes_iff (hg : g.Valid c) {p q : Nat} : g.Precedes p q ↔ Feeds g.tasks p q := by
  constructor
  · rintro ⟨e, he, rfl, rfl⟩
    obtain ⟨hp, u, hu, hsu⟩ := (hg.mem_edges e).mp he
    obtain ⟨t, ht, hst⟩ := (hg.mem_producersOf _ _).mp hp
    exact ⟨t, u, e.slot, ht, hu, hst, hsu⟩
  · rintro ⟨t, u, s, ht, hu, hst, hsu⟩
    have hp : p ∈ g.producersOf s := (hg.mem_producersOf s p).mpr ⟨t, ht, hst⟩
    exact ⟨⟨p, q, s⟩, (hg.mem_edges _).mpr ⟨hp, u, hu, hsu⟩, rfl, rfl⟩

/-- The tasks of a valid graph fit together, wherever the graph comes from. -/
theorem Valid.buildable (hg : g.Valid c) (hsupplied : g.supplied = sortedSet supplies) :
    Buildable c supplies g.tasks := by
  have hsupply : ∀ {s}, s ∈ g.supplied ↔ s ∈ supplies := by simp [hsupplied]
  have hacyclic : ∀ i, ¬ Relation.TransGen (Feeds g.tasks) i i := fun i hi =>
    hg.acyclic.irreflexive i (hi.lift id fun _ _ => hg.precedes_iff.mpr)
  refine ⟨fun s hs => hg.declared_supplied s (hsupply.mpr hs), hg.declared,
    hg.ids_nodup, fun t ht s hs hst => ?_, fun s slot hslot happ i j t u hi hj hst hsu => ?_,
    fun s slot hslot happ hs t ht hst => ?_, fun t ht s hs => ?_, hacyclic⟩
  · obtain ⟨i, hi⟩ := List.mem_iff_getElem?.mp ht
    exact hacyclic i (.single ⟨t, t, s, hi, hi, hst, hs⟩)
  · obtain ⟨hone, -⟩ := hg.exclusive s slot hslot happ
    have him := (hg.mem_producersOf s i).mpr ⟨t, hi, hst⟩
    have hjm := (hg.mem_producersOf s j).mpr ⟨u, hj, hsu⟩
    obtain ⟨k, hk⟩ := List.length_eq_one_iff.mp (le_antisymm hone (List.length_pos_of_mem him))
    rw [hk, List.mem_singleton] at him hjm
    exact him.trans hjm.symm
  · obtain ⟨-, hnone⟩ := hg.exclusive s slot hslot happ
    obtain ⟨i, hi⟩ := List.mem_iff_getElem?.mp ht
    have him := (hg.mem_producersOf s i).mpr ⟨t, hi, hst⟩
    rw [hnone (hsupply.mpr hs)] at him
    exact List.not_mem_nil him
  · rcases hg.filled t ht s hs with hne | hsup
    · obtain ⟨p, hp⟩ := List.exists_mem_of_ne_nil _ hne
      obtain ⟨u, hu, hsu⟩ := (hg.mem_producersOf s p).mp hp
      exact Or.inr ⟨u, List.mem_of_getElem? hu, hsu⟩
    · exact Or.inl (hsupply.mp hsup)

theorem buildable_of_build (h : build c supplies tasks = .ok g) :
    Buildable c supplies tasks := by
  obtain ⟨rfl, hsupplied, hg⟩ := build_valid h
  exact hg.buildable hsupplied

theorem Buildable.exists_build (h : Buildable c supplies tasks) :
    ∃ g, build c supplies tasks = .ok g := by
  have hsupplied : lookupAll c (sortedSet supplies) = .ok () :=
    lookupAll_eq_ok.mpr fun s hs => h.supplies_declared s (mem_sortedSet.mp hs)
  have hchecked : checkTasks c [] tasks = .ok () :=
    checkTasks_eq_ok.mpr ⟨h.ids_nodup, by simp, h.slots_declared, h.separate⟩
  obtain ⟨producers, hproducers⟩ := h.exists_collectProducers start_collected List.drop_zero
  have hcol := collectProducers_collected start_collected List.drop_zero hproducers
  obtain ⟨edges, hedges⟩ : ∃ edges, connect (sortedSet supplies) producers 0 [] tasks = .ok edges := by
    refine exists_connect fun t ht s hs => ?_
    rcases h.filled t ht s hs with hsup | ⟨u, hu, hsu⟩
    · exact Or.inr (mem_sortedSet.mpr hsup)
    · obtain ⟨i, hi⟩ := List.mem_iff_getElem?.mp hu
      exact Or.inl (List.ne_nil_of_mem ((hcol.mem_makers s i).mpr ⟨u, hi, hsu⟩))
  refine ⟨_, build_eq_ok.mpr ⟨hsupplied, hchecked, producers, hproducers, edges, hedges, rfl, ?_⟩⟩
  cases hcycle : findCycle ⟨tasks, edges, producers, sortedSet supplies⟩ with
  | ok => rfl
  | error path =>
    obtain ⟨i, hi⟩ := (circle_of_findCycle (hcol.edges_inRange hedges) hcycle).exists_transGen
    exact absurd (hi.lift id fun p q hpq => hcol.feeds hedges hpq) (h.acyclic i)

/-- A graph is built from exactly the tasks and supplies that fit together, and it reflects them. -/
theorem build_accepts (c : Catalog) (supplies : List SlotId) (tasks : List Task) :
    ((∃ g, build c supplies tasks = .ok g) ↔ Buildable c supplies tasks) ∧
      ∀ g, build c supplies tasks = .ok g → g.Reflects supplies tasks :=
  ⟨⟨fun ⟨_, h⟩ => buildable_of_build h, fun h => h.exists_build⟩,
    fun _ h => reflects_of_build h⟩

end Graph

namespace Merge

def catalog : Catalog :=
  ⟨[Slot.multiple "src" .file .sources, Slot.shared "parts" .file .intermediates,
    Slot.single "app" .file .outputs]⟩

def half (id : TaskId) : Task :=
  ((Task.make id fun _ w => (.reported [], w)).withInput "src").withOutput "parts"

def whole : Task :=
  ((Task.make "whole" fun _ w => (.reported [], w)).withInputs ["parts", "src"]).withOutput "app"

def tasks : List Task := [whole, half "left", half "right"]

def graph : Graph :=
  ⟨tasks, [⟨1, 0, "parts"⟩, ⟨2, 0, "parts"⟩], [("app", [0]), ("parts", [1, 2])], ["src"]⟩

theorem graph_reflects : Graph.Buildable catalog ["src"] tasks ∧
    graph.Reflects ["src"] tasks ∧ ¬ Graph.Buildable catalog [] tasks := by
  have hbuild : Graph.build catalog ["src"] tasks = .ok graph := rfl
  have hdangling : Graph.build catalog [] tasks = .error (.dangling "whole" "src") := rfl
  obtain ⟨hfits, hreflects⟩ := Graph.build_accepts catalog ["src"] tasks
  obtain ⟨hmisses, -⟩ := Graph.build_accepts catalog [] tasks
  refine ⟨hfits.mp ⟨graph, hbuild⟩, hreflects graph hbuild, fun h => ?_⟩
  obtain ⟨g, hg⟩ := hmisses.mpr h
  simp [hdangling] at hg

end Merge

end SlotBuild
