import SlotBuild.Proofs.Graph.Valid
import SlotBuild.Proofs.Graph.Worklist

/-! What is reached from some tasks, and the part of a valid graph that some targets need, which is
valid again. -/

namespace SlotBuild

namespace Graph

variable {g : Graph}

theorem length_sortedSet_le (is : List Nat) : (sortedSet is).length ≤ is.length :=
  (List.subperm_of_subset (sortedSet_nodup is) fun _ hi => mem_sortedSet.mp hi).length_le

theorem length_dependencies_le (g : Graph) (i : Nat) :
    (g.dependencies i).length ≤ g.edges.countP fun e => e.consumer = i := by
  refine (length_sortedSet_le _).trans ?_
  rw [List.length_map, List.countP_eq_length_filter]

theorem length_dependents_le (g : Graph) (i : Nat) :
    (g.dependents i).length ≤ g.edges.countP fun e => e.producer = i := by
  refine (length_sortedSet_le _).trans ?_
  rw [List.length_map, List.countP_eq_length_filter]

theorem explores_downstream (g : Graph) (i : Nat) :
    Explores g.dependents (g.dependents i) ⟨0, g.downstream i⟩ :=
  explores_reach (length_dependents_le g) (Nat.lt_succ_self _)

theorem mem_downstream {i j : Nat} : j ∈ g.downstream i ↔ Relation.TransGen g.Precedes i j := by
  rw [(explores_downstream g i).mem_found, Relation.TransGen.head'_iff]
  simp only [mem_dependents]

theorem explores_dependencyClosure (g : Graph) (roots : List Nat) :
    Explores g.dependencies roots ⟨0, g.dependencyClosure roots⟩ :=
  explores_reach (length_dependencies_le g) (Nat.lt_succ_self _)

theorem dependencyClosure_increasing (g : Graph) (roots : List Nat) :
    (g.dependencyClosure roots).Pairwise (· < ·) := (explores_dependencyClosure g roots).increasing

theorem mem_dependencyClosure {roots : List Nat} {i : Nat} :
    i ∈ g.dependencyClosure roots ↔ ∃ r ∈ roots, Relation.ReflTransGen g.Precedes i r := by
  rw [(explores_dependencyClosure g roots).mem_found]
  simp only [mem_dependencies]
  exact exists_congr fun r => and_congr_right fun _ => Relation.reflTransGen_swap

theorem mem_dependencyClosure_of_mem {roots : List Nat} {i : Nat} (hi : i ∈ roots) :
    i ∈ g.dependencyClosure roots := mem_dependencyClosure.mpr ⟨i, hi, .refl⟩

theorem dependencyClosure_closed {roots : List Nat} {d i : Nat} (hi : i ∈ g.dependencyClosure roots)
    (hd : g.Precedes d i) : d ∈ g.dependencyClosure roots := by
  obtain ⟨r, hr, hir⟩ := mem_dependencyClosure.mp hi
  exact mem_dependencyClosure.mpr ⟨r, hr, .head hd hir⟩

theorem IsAcyclic.dependencyClosure_lt (hg : g.IsAcyclic) {roots : List Nat}
    (hroots : ∀ i ∈ roots, i < g.size) {i : Nat} (hi : i ∈ g.dependencyClosure roots) : i < g.size := by
  obtain ⟨r, hr, hir⟩ := mem_dependencyClosure.mp hi
  rcases Relation.ReflTransGen.cases_head hir with rfl | ⟨j, hij, -⟩
  · exact hroots _ hr
  · exact (hg.lt_size hij).1

theorem targetIndices_ok {targets : List TaskId} {is : List Nat} (h : g.targetIndices targets = .ok is) :
    (∀ id ∈ targets, ∃ i ∈ is, g.indexOf? id = some i) ∧
      ∀ i ∈ is, ∃ id ∈ targets, g.indexOf? id = some i := by
  induction targets generalizing is with
  | nil =>
    obtain rfl : [] = is := by simpa [targetIndices] using h
    simp
  | cons id rest ih =>
    cases hi : g.indexOf? id with
    | none => simp [targetIndices, hi, throw, throwThe, MonadExceptOf.throw] at h
    | some i =>
      simp only [targetIndices, hi] at h
      obtain ⟨js, hjs, h⟩ := bind_eq_ok.mp h
      obtain rfl : i :: js = is := by simpa [pure, Except.pure] using h
      obtain ⟨hfound, honly⟩ := ih hjs
      refine ⟨List.forall_mem_cons.mpr ⟨⟨i, List.mem_cons_self, hi⟩, fun id' hid' => ?_⟩,
        List.forall_mem_cons.mpr ⟨⟨id, List.mem_cons_self, hi⟩, fun j hj => ?_⟩⟩
      · obtain ⟨j, hj, hidx⟩ := hfound id' hid'
        exact ⟨j, List.mem_cons_of_mem i hj, hidx⟩
      · obtain ⟨id', hid', hidx⟩ := honly j hj
        exact ⟨id', List.mem_cons_of_mem id hid', hidx⟩

theorem targetIndices_lt {targets : List TaskId} {is : List Nat} (h : g.targetIndices targets = .ok is) :
    ∀ i ∈ is, i < g.size := by
  intro i hi
  obtain ⟨id, -, hidx⟩ := (targetIndices_ok h).2 i hi
  exact (List.findIdx?_eq_some_iff_findIdx_eq.mp hidx).1

/-- Positions that make a graph of their own: none is outside, and none needs one that is missing. -/
structure Closed (g : Graph) (keep : List Nat) : Prop where
  increasing : keep.Pairwise (· < ·)
  inRange : ∀ i ∈ keep, i < g.size
  closed : ∀ i ∈ keep, ∀ d, g.Precedes d i → d ∈ keep

namespace Closed

variable {keep : List Nat}

theorem idxOf?_eq_some (hk : g.Closed keep) {i k : Nat} :
    keep.idxOf? i = some k ↔ keep[k]? = some i := by
  rw [List.idxOf?_eq_some_iff]
  constructor
  · rintro ⟨hlt, rfl, -⟩
    exact List.getElem?_eq_getElem hlt
  · intro h
    obtain ⟨hlt, rfl⟩ := List.getElem?_eq_some_iff.mp h
    refine ⟨hlt, rfl, fun j hj heq => ?_⟩
    have := List.pairwise_iff_getElem.mp hk.increasing j k (hj.trans hlt) hlt hj
    omega

theorem task?_restrict (hk : g.Closed keep) (k : Nat) :
    (g.restrict keep).task? k = (keep[k]?).bind g.task? := by
  have h : ∀ is : List Nat, (∀ i ∈ is, i < g.size) → ∀ k : Nat,
      (is.filterMap g.task?)[k]? = (is[k]?).bind g.task? := by
    intro is
    induction is with
    | nil => simp
    | cons i is ih =>
      intro his k
      obtain ⟨t, ht⟩ := exists_task? (his i List.mem_cons_self)
      rw [List.filterMap_cons_some ht]
      cases k with
      | zero => simp [ht]
      | succ k => simpa using ih (fun j hj => his j (List.mem_cons_of_mem i hj)) k
  exact h keep hk.inRange k

theorem task?_restrict_iff (hk : g.Closed keep) {k : Nat} {t : Task} :
    (g.restrict keep).task? k = some t ↔ ∃ i, keep[k]? = some i ∧ g.task? i = some t := by
  rw [hk.task?_restrict, Option.bind_eq_some_iff]

theorem mem_restrict_tasks {t : Task} (ht : t ∈ (g.restrict keep).tasks) :
    ∃ i ∈ keep, g.task? i = some t := List.mem_filterMap.mp ht

def kept? (keep : List Nat) (is : List Nat) : Option (List Nat) :=
  if is.filterMap keep.idxOf? = [] then none else some (is.filterMap keep.idxOf?)

theorem restrict_producers (g : Graph) (keep : List Nat) :
    (g.restrict keep).producers =
      g.producers.filterMap fun e => (kept? keep e.2).map fun v => (e.1, v) := by
  simp only [restrict]
  congr 1
  funext e
  simp only [kept?]
  split <;> rfl

theorem producersOf_restrict (hg : g.producers.Ordered) (keep : List Nat) (s : SlotId) :
    (g.restrict keep).producersOf s = (g.producersOf s).filterMap keep.idxOf? := by
  rw [producersOf, restrict_producers, hg.get?_filterMap, producersOf]
  cases Keyed.get? s g.producers with
  | none => rfl
  | some is =>
    simp only [Option.bind_some, Option.getD_some, kept?]
    split_ifs with h
    · simp [h]
    · simp

theorem mem_producersOf_restrict {c : Catalog} (hk : g.Closed keep) (hg : g.Valid c) (s : SlotId)
    (k : Nat) : k ∈ (g.restrict keep).producersOf s ↔ ∃ i ∈ g.producersOf s, keep[k]? = some i := by
  simp only [producersOf_restrict hg.ordered, List.mem_filterMap, hk.idxOf?_eq_some]

theorem renumbered_iff (hk : g.Closed keep) {x e : Edge} : (do
      return ⟨← keep.idxOf? x.producer, ← keep.idxOf? x.consumer, x.slot⟩ : Option Edge) = some e ↔
    keep[e.producer]? = some x.producer ∧ keep[e.consumer]? = some x.consumer ∧ e.slot = x.slot := by
  rw [← hk.idxOf?_eq_some, ← hk.idxOf?_eq_some]
  cases keep.idxOf? x.producer <;> cases keep.idxOf? x.consumer <;> cases e <;> simp [eq_comm]

theorem mem_restrict_edges (hk : g.Closed keep) {e : Edge} : e ∈ (g.restrict keep).edges ↔
    ∃ x ∈ g.edges, keep[e.producer]? = some x.producer ∧ keep[e.consumer]? = some x.consumer ∧
      e.slot = x.slot := by
  simp only [restrict, List.mem_filterMap, hk.renumbered_iff]

theorem precedes_of_restrict (hk : g.Closed keep) {a b : Nat}
    (h : (g.restrict keep).Precedes a b) :
    ∃ i j, keep[a]? = some i ∧ keep[b]? = some j ∧ g.Precedes i j := by
  obtain ⟨e, he, rfl, rfl⟩ := h
  obtain ⟨x, hx, hp, hc, -⟩ := hk.mem_restrict_edges.mp he
  exact ⟨_, _, hp, hc, x, hx, rfl, rfl⟩

theorem restrict_acyclic (hk : g.Closed keep) (hg : g.IsAcyclic) : (g.restrict keep).IsAcyclic := by
  have hlt : ∀ {a i : Nat}, keep[a]? = some i → a < (g.restrict keep).size := by
    intro a i ha
    obtain ⟨t, ht⟩ := exists_task? (hk.inRange i (List.mem_of_getElem? ha))
    exact lt_size_of_task? (hk.task?_restrict_iff.mpr ⟨i, ha, ht⟩)
  have htrans : ∀ {a b : Nat}, Relation.TransGen (g.restrict keep).Precedes a b →
      ∃ i j, keep[a]? = some i ∧ keep[b]? = some j ∧ Relation.TransGen g.Precedes i j := by
    intro a b hab
    induction hab with
    | single h =>
      obtain ⟨i, j, ha, hb, hij⟩ := hk.precedes_of_restrict h
      exact ⟨i, j, ha, hb, .single hij⟩
    | tail _ h ih =>
      obtain ⟨i, j, ha, hb, hij⟩ := ih
      obtain ⟨j', l, hb', hc, hjl⟩ := hk.precedes_of_restrict h
      obtain rfl : j = j' := Option.some.inj (hb.symm.trans hb')
      exact ⟨i, l, ha, hc, .tail hij hjl⟩
  refine ⟨fun e he => ?_, fun a ha => ?_⟩
  · obtain ⟨x, -, hp, hc, -⟩ := hk.mem_restrict_edges.mp he
    exact ⟨hlt hp, hlt hc⟩
  · obtain ⟨i, j, hi, hj, hij⟩ := htrans ha
    obtain rfl : i = j := Option.some.inj (hi.symm.trans hj)
    exact hg.irreflexive i hij

theorem mem_of_mem_restrict {t : Task} (ht : t ∈ (g.restrict keep).tasks) : t ∈ g.tasks := by
  obtain ⟨i, -, hi⟩ := mem_restrict_tasks ht
  exact List.mem_of_getElem? hi

/-- Tasks that are kept stay in their order. -/
theorem getElem?_le (hk : g.Closed keep) {a b i j : Nat} (ha : keep[a]? = some i) (hb : keep[b]? = some j)
    (h : i ≤ j) : a ≤ b := by
  obtain ⟨ha', rfl⟩ := List.getElem?_eq_some_iff.mp ha
  obtain ⟨hb', rfl⟩ := List.getElem?_eq_some_iff.mp hb
  by_contra hlt
  have := List.pairwise_iff_getElem.mp hk.increasing b a hb' ha' (by omega)
  omega

theorem restrict_valid {c : Catalog} (hk : g.Closed keep) (hg : g.Valid c) : (g.restrict keep).Valid c where
  ids_nodup := by
    refine List.pairwise_map.mpr (List.pairwise_filterMap.mpr (hk.increasing.imp ?_))
    intro i j hij t ht u hu heq
    exact hij.ne (hg.index_unique ht hu heq)
  declared t ht := hg.declared t (mem_of_mem_restrict ht)
  declared_supplied := hg.declared_supplied
  ordered := by
    rw [restrict_producers]
    exact hg.ordered.filterMap
  mem_producersOf s k := by
    rw [hk.mem_producersOf_restrict hg]
    simp only [hk.task?_restrict_iff, hg.mem_producersOf]
    constructor
    · rintro ⟨i, ⟨t, ht, hs⟩, hi⟩
      exact ⟨t, ⟨i, hi, ht⟩, hs⟩
    · rintro ⟨t, ⟨i, hi, ht⟩, hs⟩
      exact ⟨i, ⟨t, ht, hs⟩, hi⟩
  increasing s := by
    rw [producersOf_restrict hg.ordered]
    refine List.pairwise_filterMap.mpr ((hg.increasing s).imp ?_)
    intro i j hij a ha b hb
    have hi := hk.idxOf?_eq_some.mp ha
    have hj := hk.idxOf?_eq_some.mp hb
    refine Nat.lt_of_le_of_ne (hk.getElem?_le hi hj hij.le) ?_
    rintro rfl
    exact hij.ne (Option.some.inj (hi.symm.trans hj))
  exclusive s slot hs happ := by
    obtain ⟨hone, hsupplied⟩ := hg.exclusive s slot hs happ
    rw [producersOf_restrict hg.ordered]
    refine ⟨(List.length_filterMap_le _ _).trans hone, fun hm => ?_⟩
    rw [hsupplied hm, List.filterMap_nil]
  filled t ht s hs := by
    obtain ⟨i, hi, hti⟩ := mem_restrict_tasks ht
    refine (hg.filled t (mem_of_mem_restrict ht) s hs).imp_left fun hne => ?_
    obtain ⟨p, r, hp⟩ := List.exists_cons_of_ne_nil hne
    have hpm : p ∈ g.producersOf s := by simp [hp]
    have hedge : g.Precedes p i := ⟨⟨p, i, s⟩, (hg.mem_edges _).mpr ⟨hpm, t, hti, hs⟩, rfl, rfl⟩
    obtain ⟨k, hk', hget⟩ := List.getElem_of_mem (hk.closed i hi p hedge)
    have hm := (hk.mem_producersOf_restrict hg s k).mpr ⟨p, hpm, List.getElem?_eq_some_iff.mpr ⟨hk', hget⟩⟩
    exact List.ne_nil_of_mem hm
  mem_edges e := by
    rw [hk.mem_restrict_edges, hk.mem_producersOf_restrict hg]
    simp only [hk.task?_restrict_iff]
    constructor
    · rintro ⟨x, hx, hp, hc, hs⟩
      obtain ⟨hxp, t, ht, hxs⟩ := (hg.mem_edges x).mp hx
      exact ⟨⟨x.producer, hs ▸ hxp, hp⟩, t, ⟨x.consumer, hc, ht⟩, hs ▸ hxs⟩
    · rintro ⟨⟨i, hi, hp⟩, t, ⟨j, hj, ht⟩, hs⟩
      exact ⟨⟨i, j, e.slot⟩, (hg.mem_edges _).mpr ⟨hi, t, ht, hs⟩, hp, hj, rfl⟩
  acyclic := hk.restrict_acyclic hg.acyclic

end Closed

theorem Valid.mem_restrict_iff {c : Catalog} {i : Nat} {t : Task} (hg : g.Valid c) (hi : g.task? i = some t)
    (keep : List Nat) : t ∈ (g.restrict keep).tasks ↔ i ∈ keep := by
  constructor
  · intro ht
    obtain ⟨k, hk, htk⟩ := Closed.mem_restrict_tasks ht
    rwa [hg.index_unique hi htk rfl]
  · exact fun hk => List.mem_filterMap.mpr ⟨i, hk, hi⟩

theorem closed_dependencyClosure {c : Catalog} {targets : List TaskId} {roots : List Nat} (hg : g.Valid c)
    (h : g.targetIndices targets = .ok roots) : g.Closed (g.dependencyClosure roots) :=
  ⟨g.dependencyClosure_increasing roots,
    fun _ hi => hg.acyclic.dependencyClosure_lt (targetIndices_lt h) hi,
    fun _ hi _ hd => dependencyClosure_closed hi hd⟩

theorem exists_closed_of_select {c : Catalog} {targets : List TaskId} {g' : Graph} (hg : g.Valid c)
    (h : g.select targets = .ok g') : ∃ keep, g.Closed keep ∧ g.restrict keep = g' := by
  obtain ⟨roots, hroots, h⟩ := bind_eq_ok.mp h
  exact ⟨_, closed_dependencyClosure hg hroots, by simpa [pure, Except.pure] using h⟩

/-- What some targets need of a valid graph is a valid graph of tasks of it, with the same supplies. -/
theorem select_valid {c : Catalog} {targets : List TaskId} {g' : Graph} (hg : g.Valid c)
    (h : g.select targets = .ok g') :
    (∀ t ∈ g'.tasks, t ∈ g.tasks) ∧ g'.supplied = g.supplied ∧ g'.Valid c := by
  obtain ⟨keep, hk, rfl⟩ := exists_closed_of_select hg h
  exact ⟨fun _ => Closed.mem_of_mem_restrict, rfl, hk.restrict_valid hg⟩

/-- The graphs that can be had from a catalog and supplies: what is built and any part of it that
some targets need. -/
inductive BuiltFrom (c : Catalog) (supplies : List SlotId) : Graph → Prop where
  | build {tasks : List Task} {g : Graph} (built : build c supplies tasks = .ok g) :
      BuiltFrom c supplies g
  | select {targets : List TaskId} {g g' : Graph} (whole : BuiltFrom c supplies g)
      (selected : g.select targets = .ok g') : BuiltFrom c supplies g'

theorem BuiltFrom.valid {c : Catalog} {supplies : List SlotId} {g : Graph}
    (h : BuiltFrom c supplies g) : g.supplied = sortedSet supplies ∧ g.Valid c := by
  induction h with
  | build hb =>
    obtain ⟨-, hs, hv⟩ := build_valid hb
    exact ⟨hs, hv⟩
  | select _ hsel ih =>
    obtain ⟨-, hs, hv⟩ := select_valid ih.2 hsel
    exact ⟨hs.trans ih.1, hv⟩

end Graph

end SlotBuild
