import SlotBuild.Proofs.Graph.Acceptance
import SlotBuild.Proofs.Graph.Overlap

/-! The part of a graph that some targets need stands alone: it is the graph that a build makes of
its tasks. A graph that was built is in a normal form, in which it is determined by its tasks and
supplies; a part in which nothing is missing is valid and in that form again. -/

namespace SlotBuild

instance : Std.Asymm fun a b : Edge => a.before b = true :=
  ⟨fun a b hab hba => by
    rw [Edge.before_iff] at hab hba
    rcases hab with hab | ⟨hp, hab | ⟨hc, hs⟩⟩
    · omega
    · omega
    · rcases hba with hba | ⟨-, hba | ⟨-, hs'⟩⟩
      · omega
      · omega
      · exact lt_asymm hs hs'⟩

namespace Keyed

theorem append_ne_nil {α : Type} {k : String} {v : α} {m : Keyed (List α)} (hm : ∀ x ∈ m, x.2 ≠ []) :
    ∀ x ∈ append k v m, x.2 ≠ [] := by
  intro x hx
  rcases mem_put hx with rfl | hx
  · simp
  · exact hm x hx

end Keyed

namespace Graph

/-- Nothing in a graph of this form is written in two ways. -/
structure Normal (g : Graph) : Prop where
  edges_ordered : g.edges.Pairwise (·.before ·)
  produced : ∀ x ∈ g.producers, x.2 ≠ []

section build

variable {c : Catalog} {tasks : List Task} {supplied : List SlotId} {found found' : Keyed (List Nat)}

theorem addProducer_ne_nil {i : Nat} {t : Task} {ss : List SlotId} (hfound : ∀ x ∈ found, x.2 ≠ [])
    (h : addProducer c tasks supplied i t found ss = .ok found') : ∀ x ∈ found', x.2 ≠ [] := by
  induction ss generalizing found with
  | nil =>
    obtain rfl : found = found' := by simpa [addProducer] using h
    exact hfound
  | cons s rest ih =>
    simp only [addProducer] at h
    split at h
    · simp at h
    · split at h
      · simp at h
      · exact ih (Keyed.append_ne_nil hfound) h

theorem collectProducers_ne_nil {i : Nat} {ts : List Task} (hfound : ∀ x ∈ found, x.2 ≠ [])
    (h : collectProducers c tasks supplied i found ts = .ok found') : ∀ x ∈ found', x.2 ≠ [] := by
  induction ts generalizing i found with
  | nil =>
    obtain rfl : found = found' := by simpa [collectProducers] using h
    exact hfound
  | cons t rest ih =>
    rw [collectProducers] at h
    cases hmore : addProducer c tasks supplied i t found t.outputs with
    | error e => simp [hmore] at h
    | ok more =>
      rw [hmore] at h
      exact ih (addProducer_ne_nil hfound hmore) h

theorem normal_of_build {supplies : List SlotId} {g : Graph} (h : build c supplies tasks = .ok g) :
    g.Normal := by
  obtain ⟨-, -, producers, hproducers, edges, hedges, rfl, -⟩ := build_eq_ok.mp h
  exact ⟨connect_ordered .nil hedges, collectProducers_ne_nil (by simp) hproducers⟩

end build

variable {c : Catalog} {g g' : Graph}

theorem Normal.get?_producers (hn : g.Normal) (s : SlotId) :
    Keyed.get? s g.producers = if g.producersOf s = [] then none else some (g.producersOf s) := by
  rw [producersOf]
  cases h : Keyed.get? s g.producers with
  | none => rfl
  | some is =>
    have hne : is ≠ [] := hn.produced _ (Keyed.mem_of_get? h)
    rw [Option.getD_some, if_neg hne]

/-- A valid graph in normal form is determined by its tasks and supplies. -/
theorem Valid.eq_of_normal (hg : g.Valid c) (hg' : g'.Valid c) (hn : g.Normal) (hn' : g'.Normal)
    (htasks : g.tasks = g'.tasks) (hsupplied : g.supplied = g'.supplied) : g = g' := by
  have htask : ∀ i, g.task? i = g'.task? i := fun i => by rw [task?, task?, htasks]
  have hproducersOf : ∀ s, g.producersOf s = g'.producersOf s := fun s =>
    (hg.increasing s).eq_of_mem_iff (hg'.increasing s) fun i => by
      rw [hg.mem_producersOf, hg'.mem_producersOf, htask]
  have hproducers : g.producers = g'.producers := hg.ordered.ext hg'.ordered fun s => by
    rw [hn.get?_producers, hn'.get?_producers, hproducersOf]
  have hedges : g.edges = g'.edges := hn.edges_ordered.eq_of_mem_iff hn'.edges_ordered fun e => by
    rw [hg.mem_edges, hg'.mem_edges, hproducersOf, htask]
  cases g
  cases g'
  simp_all

namespace Closed

variable {keep : List Nat} {a b i j : Nat}

theorem getElem?_inj (hk : g.Closed keep) (ha : keep[a]? = some i) (hb : keep[b]? = some i) : a = b :=
  le_antisymm (hk.getElem?_le ha hb le_rfl) (hk.getElem?_le hb ha le_rfl)

theorem getElem?_lt (hk : g.Closed keep) (ha : keep[a]? = some i) (hb : keep[b]? = some j)
    (h : i < j) : a < b := by
  have hne : a ≠ b := by
    rintro rfl
    have : i = j := Option.some.inj (ha.symm.trans hb)
    omega
  exact lt_of_le_of_ne (hk.getElem?_le ha hb h.le) hne

theorem sublist_range (hk : g.Closed keep) : keep.Sublist (List.range g.size) := by
  have hsub : keep ⊆ List.range g.size := fun i hi => List.mem_range.mpr (hk.inRange i hi)
  exact List.sublist_of_subperm_of_pairwise (List.subperm_of_subset hk.increasing.nodup hsub)
    hk.increasing List.pairwise_lt_range

theorem restrict_tasks_sublist (hk : g.Closed keep) : (g.restrict keep).tasks.Sublist g.tasks := by
  have hall := hk.sublist_range.filterMap g.task?
  rwa [filterMap_task?] at hall

theorem before_renumbered (hk : g.Closed keep) {x y e f : Edge} (hxy : x.before y)
    (hx : keep[e.producer]? = some x.producer ∧ keep[e.consumer]? = some x.consumer ∧ e.slot = x.slot)
    (hy : keep[f.producer]? = some y.producer ∧ keep[f.consumer]? = some y.consumer ∧ f.slot = y.slot) :
    e.before f := by
  obtain ⟨hxp, hxc, hxs⟩ := hx
  obtain ⟨hyp, hyc, hys⟩ := hy
  rw [Edge.before_iff] at hxy ⊢
  rcases hxy with hp | ⟨hp, hxy⟩
  · exact Or.inl (hk.getElem?_lt hxp hyp hp)
  · refine Or.inr ⟨hk.getElem?_inj hxp (hp ▸ hyp), ?_⟩
    rcases hxy with hc | ⟨hc, hs⟩
    · exact Or.inl (hk.getElem?_lt hxc hyc hc)
    · exact Or.inr ⟨hk.getElem?_inj hxc (hc ▸ hyc), by rwa [hxs, hys]⟩

theorem restrict_normal (hk : g.Closed keep) (hn : g.Normal) : (g.restrict keep).Normal := by
  constructor
  · refine List.pairwise_filterMap.mpr (hn.edges_ordered.imp ?_)
    intro x y hxy e he f hf
    exact hk.before_renumbered hxy (hk.renumbered_iff.mp he) (hk.renumbered_iff.mp hf)
  · intro x hx
    rw [restrict_producers] at hx
    obtain ⟨y, -, hy⟩ := List.mem_filterMap.mp hx
    obtain ⟨kept, hkept, rfl⟩ := Option.map_eq_some_iff.mp hy
    unfold kept? at hkept
    split_ifs at hkept with hne
    obtain rfl := Option.some.inj hkept
    exact hne

end Closed

/-- A part in which nothing is missing is what a build makes of its tasks. -/
theorem Closed.build_restrict {keep : List Nat} {supplies : List SlotId} (hk : g.Closed keep) (hg : g.Valid c)
    (hn : g.Normal) (hsupplied : g.supplied = sortedSet supplies) :
    build c supplies (g.restrict keep).tasks = .ok (g.restrict keep) := by
  have hvalid := hk.restrict_valid hg
  obtain ⟨g', hbuild⟩ := (hvalid.buildable hsupplied).exists_build
  obtain ⟨htasks, hsupplied', hvalid'⟩ := build_valid hbuild
  have heq : g' = g.restrict keep := hvalid'.eq_of_normal hvalid (normal_of_build hbuild)
    (hk.restrict_normal hn) htasks (hsupplied'.trans hsupplied.symm)
  rw [hbuild, heq]

/-- `t` is a target, or a target depends on it, directly or through other tasks. -/
def Needed (tasks : List Task) (targets : List TaskId) (t : Task) : Prop :=
  ∃ i j u, tasks[i]? = some t ∧ tasks[j]? = some u ∧ u.id ∈ targets ∧ Relation.ReflTransGen (Feeds tasks) i j

theorem Valid.indexOf?_eq_some (hg : g.Valid c) {id : TaskId} {i : Nat} :
    g.indexOf? id = some i ↔ ∃ t, g.task? i = some t ∧ t.id = id := by
  constructor
  · intro h
    obtain ⟨hlt, hname, -⟩ := List.findIdx?_eq_some_iff_getElem.mp h
    exact ⟨g.tasks[i], List.getElem?_eq_getElem hlt, by simpa using hname⟩
  · rintro ⟨t, ht, rfl⟩
    have hhas : g.has t.id = true := has_iff.mpr ⟨t, List.mem_of_getElem? ht, rfl⟩
    obtain ⟨j, hj⟩ := Option.isSome_iff_exists.mp hhas
    obtain ⟨hlt, hname, -⟩ := List.findIdx?_eq_some_iff_getElem.mp hj
    have hij : j = i := hg.index_unique (List.getElem?_eq_getElem hlt) ht (by simpa using hname)
    rw [hj, hij]

theorem Valid.mem_restrict_iff_needed (hg : g.Valid c) {targets : List TaskId} {roots : List Nat}
    (hroots : g.targetIndices targets = .ok roots) {t : Task} :
    t ∈ (g.restrict (g.dependencyClosure roots)).tasks ↔ Needed g.tasks targets t := by
  obtain ⟨hfound, honly⟩ := targetIndices_ok hroots
  have hpath : ∀ {i j}, Relation.ReflTransGen g.Precedes i j ↔ Relation.ReflTransGen (Feeds g.tasks) i j := by
    intro i j
    rw [show g.Precedes = Feeds g.tasks from funext fun p => funext fun q => propext hg.precedes_iff]
  constructor
  · intro ht
    obtain ⟨i, hi, hti⟩ := Closed.mem_restrict_tasks ht
    obtain ⟨r, hr, hir⟩ := mem_dependencyClosure.mp hi
    obtain ⟨id, hid, hidx⟩ := honly r hr
    obtain ⟨u, hu, rfl⟩ := hg.indexOf?_eq_some.mp hidx
    exact ⟨i, r, u, hti, hu, hid, hpath.mp hir⟩
  · rintro ⟨i, j, u, hti, hu, hid, hij⟩
    obtain ⟨r, hr, hidx⟩ := hfound u.id hid
    obtain rfl : j = r := Option.some.inj ((hg.indexOf?_eq_some.mpr ⟨u, hu, rfl⟩).symm.trans hidx)
    exact List.mem_filterMap.mpr ⟨i, mem_dependencyClosure.mpr ⟨j, hr, hpath.mpr hij⟩, hti⟩

theorem targetIndices_unknown {front : List TaskId} (back : List TaskId) {id : TaskId}
    (hfront : ∀ x ∈ front, g.has x = true)
    (hid : g.has id = false) : g.targetIndices (front ++ id :: back) = .error (.unknownTask id) := by
  induction front with
  | nil =>
    have hnone : g.indexOf? id = none := by simpa [has] using hid
    rw [List.nil_append, targetIndices, hnone]
    rfl
  | cons x front ih =>
    obtain ⟨hx, hfront⟩ := List.forall_mem_cons.mp hfront
    obtain ⟨i, hi⟩ := Option.isSome_iff_exists.mp hx
    rw [List.cons_append, targetIndices, hi, ih hfront]
    rfl

theorem exists_targetIndices {targets : List TaskId} (h : ∀ id ∈ targets, g.has id = true) :
    ∃ roots, g.targetIndices targets = .ok roots := by
  induction targets with
  | nil => exact ⟨[], rfl⟩
  | cons id rest ih =>
    obtain ⟨hid, hrest⟩ := List.forall_mem_cons.mp h
    obtain ⟨i, hi⟩ := Option.isSome_iff_exists.mp hid
    obtain ⟨is, his⟩ := ih hrest
    refine ⟨i :: is, ?_⟩
    rw [targetIndices, hi, his]
    rfl

/-- What some targets need of a graph is the graph built from those tasks alone. The first target
that is no task is reported. -/
theorem select_eq_build (c : Catalog) (supplies : List SlotId) (tasks : List Task) (g : Graph)
    (targets : List TaskId) (h : build c supplies tasks = .ok g) :
    (∀ front id back, targets = front ++ id :: back → (∀ x ∈ front, x ∈ tasks.map (·.id)) →
        id ∉ tasks.map (·.id) → g.select targets = .error (.unknownTask id)) ∧
      ((∀ x ∈ targets, x ∈ tasks.map (·.id)) → ∃ part, g.select targets = .ok part ∧
        part.tasks.Sublist tasks ∧ (∀ t, t ∈ part.tasks ↔ Needed tasks targets t) ∧
          build c supplies part.tasks = .ok part) := by
  obtain ⟨rfl, hsupplied, hg⟩ := build_valid h
  have hhas : ∀ {id}, g.has id = true ↔ id ∈ g.tasks.map (·.id) := by
    intro id
    rw [has_iff, List.mem_map]
  constructor
  · rintro front id back rfl hfront hid
    have hunknown : g.has id = false := by rwa [← Bool.not_eq_true, hhas]
    have herror := targetIndices_unknown back (fun x hx => hhas.mpr (hfront x hx)) hunknown
    rw [select, herror]
    rfl
  · intro htargets
    obtain ⟨roots, hroots⟩ := exists_targetIndices fun x hx => hhas.mpr (htargets x hx)
    have hselect : g.select targets = .ok (g.restrict (g.dependencyClosure roots)) := by
      rw [select, hroots]
      rfl
    have hk : g.Closed (g.dependencyClosure roots) := closed_dependencyClosure hg hroots
    exact ⟨_, hselect, hk.restrict_tasks_sublist, fun t => hg.mem_restrict_iff_needed hroots,
      hk.build_restrict hg (normal_of_build h) hsupplied⟩

end Graph

namespace Merge

/-- One half is made without the other, and without what joins them. -/
def rightAlone : Graph := ⟨[half "right"], [], [("parts", [0])], ["src"]⟩

theorem right_stands_alone : Graph.build catalog ["src"] tasks = .ok graph ∧
    graph.select ["right", "middle", "top"] = .error (.unknownTask "middle") ∧
    graph.select ["right", "right"] = .ok rightAlone ∧
    Graph.build catalog ["src"] [half "right"] = .ok rightAlone := by
  have hbuild : Graph.build catalog ["src"] tasks = .ok graph := rfl
  have hselect : graph.select ["right", "right"] = .ok rightAlone := rfl
  have hunknown := (Graph.select_eq_build catalog ["src"] tasks graph ["right", "middle", "top"]
    hbuild).1 ["right"] "middle" ["top"] rfl (by decide) (by decide)
  obtain ⟨part, hpart, -, -, halone⟩ := (Graph.select_eq_build catalog ["src"] tasks graph
    ["right", "right"] hbuild).2 (by decide)
  obtain rfl : rightAlone = part := Except.ok.inj (hselect.symm.trans hpart)
  exact ⟨hbuild, hunknown, hselect, halone⟩

end Merge

end SlotBuild
