import SlotBuild.Proofs.Graph.Cycle
import SlotBuild.Proofs.Keyed

/-! What a graph that was built is like: its slots are declared, the producers of a slot are the
tasks that put something into it, the edges join each of them to the tasks that read the slot, and
a slot that is not appendable is filled once. -/

namespace SlotBuild

namespace Catalog

variable {c : Catalog} {s : SlotId} {slot : Slot}

theorem lookup_eq_ok : c.lookup s = .ok slot ↔ c.find? s = some slot := by
  cases h : c.find? s <;> simp [lookup, h]

theorem id_of_find? (h : c.find? s = some slot) : slot.id = s := by
  simpa using List.find?_some h

end Catalog

namespace Graph

structure Valid (c : Catalog) (g : Graph) : Prop where
  ids_nodup : (g.tasks.map (·.id)).Nodup
  declared : ∀ t ∈ g.tasks, ∀ s ∈ t.inputs ++ t.outputs, ∃ slot, c.find? s = some slot
  declared_supplied : ∀ s ∈ g.supplied, ∃ slot, c.find? s = some slot
  ordered : g.producers.Ordered
  mem_producersOf : ∀ s i, i ∈ g.producersOf s ↔ ∃ t, g.task? i = some t ∧ s ∈ t.outputs
  increasing : ∀ s, (g.producersOf s).Pairwise (· < ·)
  exclusive : ∀ s slot, c.find? s = some slot → slot.appendable = false →
    (g.producersOf s).length ≤ 1 ∧ (s ∈ g.supplied → g.producersOf s = [])
  filled : ∀ t ∈ g.tasks, ∀ s ∈ t.inputs, g.producersOf s ≠ [] ∨ s ∈ g.supplied
  mem_edges : ∀ e, e ∈ g.edges ↔ e.producer ∈ g.producersOf e.slot ∧
    ∃ t, g.task? e.consumer = some t ∧ e.slot ∈ t.inputs
  acyclic : g.IsAcyclic

theorem index_unique_of_nodup {tasks : List Task} (hids : (tasks.map (·.id)).Nodup) {i j : Nat} {t u : Task}
    (hi : tasks[i]? = some t) (hj : tasks[j]? = some u) (hid : t.id = u.id) : i = j := by
  have hlt : i < (tasks.map (·.id)).length := by simpa using (List.getElem?_eq_some_iff.mp hi).1
  exact (List.getElem?_inj hlt hids).mp (by simp [hi, hj, hid])

theorem Valid.index_unique {c : Catalog} {g : Graph} (hg : g.Valid c) {i j : Nat} {t u : Task}
    (hi : g.task? i = some t) (hj : g.task? j = some u) (hid : t.id = u.id) : i = j :=
  index_unique_of_nodup hg.ids_nodup hi hj hid

section checks

variable {c : Catalog}

theorem lookupAll_ok {ss : List SlotId} (h : lookupAll c ss = .ok ()) :
    ∀ s ∈ ss, ∃ slot, c.find? s = some slot := by
  induction ss with
  | nil => simp
  | cons s rest ih =>
    simp only [lookupAll] at h
    cases hs : c.lookup s with
    | error e => simp [hs] at h
    | ok slot =>
      simp only [hs] at h
      intro x hx
      rcases List.mem_cons.mp hx with rfl | hx
      · exact ⟨slot, Catalog.lookup_eq_ok.mp hs⟩
      · exact ih h x hx

theorem checkTask_ok {seen : List TaskId} {t : Task} (h : checkTask c seen t = .ok ()) :
    t.id ∉ seen ∧ ∀ s ∈ t.inputs ++ t.outputs, ∃ slot, c.find? s = some slot := by
  unfold checkTask at h
  by_cases hseen : seen.contains t.id
  · simp only [if_pos hseen, reduceCtorEq] at h
  · rw [if_neg hseen] at h
    cases hall : lookupAll c (t.inputs ++ t.outputs) with
    | error e => simp [hall] at h
    | ok _ =>
      simp only [hall] at h
      exact ⟨by simpa using hseen, lookupAll_ok hall⟩

theorem checkTasks_ok {seen : List TaskId} {ts : List Task} (h : checkTasks c seen ts = .ok ()) :
    (ts.map (·.id)).Nodup ∧ (∀ t ∈ ts, t.id ∉ seen) ∧
      ∀ t ∈ ts, ∀ s ∈ t.inputs ++ t.outputs, ∃ slot, c.find? s = some slot := by
  induction ts generalizing seen with
  | nil => simp
  | cons t rest ih =>
    simp only [checkTasks] at h
    cases ht : checkTask c seen t with
    | error e => simp [ht] at h
    | ok _ =>
      simp only [ht] at h
      obtain ⟨hnew, hslots⟩ := checkTask_ok ht
      obtain ⟨hnd, hout, hall⟩ := ih h
      refine ⟨?_, ?_, List.forall_mem_cons.mpr ⟨hslots, hall⟩⟩
      · refine List.nodup_cons.mpr ⟨fun hm => ?_, hnd⟩
        obtain ⟨u, hu, hid⟩ := List.mem_map.mp hm
        exact hout u hu (by simp [hid])
      · refine List.forall_mem_cons.mpr ⟨hnew, fun u hu hm => ?_⟩
        exact hout u hu (List.mem_cons_of_mem _ hm)

end checks

def makersBelow (tasks : List Task) (n : Nat) (s : SlotId) : List Nat :=
  (List.range n).filter fun i => (tasks[i]?).any fun t => t.outputs.contains s

theorem mem_makersBelow {tasks : List Task} {n i : Nat} {s : SlotId} :
    i ∈ makersBelow tasks n s ↔ i < n ∧ ∃ t, tasks[i]? = some t ∧ s ∈ t.outputs := by
  simp [makersBelow, Option.any_eq_true]

theorem makersBelow_succ {tasks : List Task} {n : Nat} {t : Task} (ht : tasks[n]? = some t)
    (s : SlotId) : makersBelow tasks (n + 1) s =
      makersBelow tasks n s ++ if s ∈ t.outputs then [n] else [] := by
  simp only [makersBelow, List.range_succ, List.filter_append, List.filter_singleton, ht,
    Option.any_some]
  split <;> simp_all

/-- The producers found among the tasks before position `n`. -/
structure Collected (c : Catalog) (tasks : List Task) (supplied : List SlotId) (n : Nat)
    (found : Keyed (List Nat)) : Prop where
  ordered : found.Ordered
  makers : ∀ s, (Keyed.get? s found).getD [] = makersBelow tasks n s
  exclusive : ∀ s slot, c.find? s = some slot → slot.appendable = false →
    (makersBelow tasks n s).length ≤ 1 ∧ (s ∈ supplied → makersBelow tasks n s = [])

variable {c : Catalog} {tasks : List Task} {supplied : List SlotId}

theorem rival?_eq_none {slot : Slot} {found : Keyed (List Nat)}
    (hrange : ∀ i ∈ (Keyed.get? slot.id found).getD [], ∃ t, tasks[i]? = some t)
    (h : rival? slot tasks supplied found = none) (happ : slot.appendable = false) :
    (Keyed.get? slot.id found).getD [] = [] ∧ slot.id ∉ supplied := by
  unfold rival? at h
  rw [if_neg (by simp [happ])] at h
  by_cases hs : supplied.contains slot.id
  · simp only [if_pos hs, reduceCtorEq] at h
  · rw [if_neg hs] at h
    refine ⟨?_, by simpa using hs⟩
    cases hl : (Keyed.get? slot.id found).getD [] with
    | nil => rfl
    | cons i r =>
      obtain ⟨t, ht⟩ := hrange i (by simp [hl])
      simp [hl, ht] at h

theorem addProducer_ok {i : Nat} {t : Task} {ss : List SlotId} {found found' : Keyed (List Nat)}
    (hss : ss.Nodup) (hrange : ∀ s, ∀ j ∈ (Keyed.get? s found).getD [], ∃ u, tasks[j]? = some u)
    (hi : tasks[i]? = some t) (hord : found.Ordered)
    (h : addProducer c tasks supplied i t found ss = .ok found') :
    found'.Ordered ∧
      (∀ s, (Keyed.get? s found').getD [] =
        (Keyed.get? s found).getD [] ++ if s ∈ ss then [i] else []) ∧
      ∀ s ∈ ss, ∀ slot, c.find? s = some slot → slot.appendable = false →
        (Keyed.get? s found).getD [] = [] ∧ s ∉ supplied := by
  induction ss generalizing found with
  | nil =>
    obtain rfl : found = found' := by simpa [addProducer] using h
    exact ⟨hord, by simp, by simp⟩
  | cons x rest ih =>
    obtain ⟨hx, hrest⟩ := List.nodup_cons.mp hss
    simp only [addProducer] at h
    cases hslot : c.lookup x with
    | error e => simp [hslot] at h
    | ok slot =>
      simp only [hslot] at h
      have hfind := Catalog.lookup_eq_ok.mp hslot
      have hid := Catalog.id_of_find? hfind
      cases hrival : rival? slot tasks supplied found with
      | some first => simp [hrival] at h
      | none =>
        simp only [hrival] at h
        have hrange' : ∀ s, ∀ j ∈ (Keyed.get? s (Keyed.append x i found)).getD [],
            ∃ u, tasks[j]? = some u := by
          intro s j hj
          rw [Keyed.getD_append] at hj
          rcases List.mem_append.mp hj with hj | hj
          · exact hrange s j hj
          · split at hj
            · exact ⟨t, List.mem_singleton.mp hj ▸ hi⟩
            · simp at hj
        obtain ⟨hord', hget, hfree⟩ := ih hrest hrange' hord.append h
        refine ⟨hord', fun s => ?_, fun s hs slot' hs' happ => ?_⟩
        · rw [hget, Keyed.getD_append, List.append_assoc]
          congr 1
          by_cases hxs : x = s
          · subst hxs
            simp [hx]
          · simp [hxs, Ne.symm hxs]
        · rcases List.mem_cons.mp hs with rfl | hs
          · obtain rfl : slot = slot' := by simpa [hfind] using hs'
            have := rival?_eq_none (hid ▸ hrange slot.id) hrival happ
            rwa [hid] at this
          · have hne : x ≠ s := fun he => hx (he ▸ hs)
            have := hfree s hs slot' hs' happ
            rwa [Keyed.getD_append, if_neg hne, List.append_nil] at this

theorem Collected.step {n : Nat} {t : Task} {found found' : Keyed (List Nat)}
    (h : Collected c tasks supplied n found) (ht : tasks[n]? = some t)
    (hadd : addProducer c tasks supplied n t found t.outputs = .ok found') :
    Collected c tasks supplied (n + 1) found' := by
  have hrange : ∀ s, ∀ j ∈ (Keyed.get? s found).getD [], ∃ u, tasks[j]? = some u := by
    intro s j hj
    rw [h.makers] at hj
    obtain ⟨-, u, hu, -⟩ := mem_makersBelow.mp hj
    exact ⟨u, hu⟩
  obtain ⟨hord, hget, hfree⟩ := addProducer_ok t.outputs_nodup hrange ht h.ordered hadd
  refine ⟨hord, fun s => ?_, fun s slot hs happ => ?_⟩
  · rw [hget, h.makers, makersBelow_succ ht]
  · rw [makersBelow_succ ht]
    by_cases hm : s ∈ t.outputs
    · obtain ⟨hnone, hout⟩ := hfree s hm slot hs happ
      rw [h.makers] at hnone
      simp [hm, hnone, hout]
    · simpa [hm] using h.exclusive s slot hs happ

theorem getElem?_of_drop_eq_cons {n : Nat} {t : Task} {rest : List Task} (h : tasks.drop n = t :: rest) :
    tasks[n]? = some t ∧ tasks.drop (n + 1) = rest := by
  have hget : (tasks.drop n)[0]? = tasks[n + 0]? := List.getElem?_drop
  exact ⟨by simpa [h] using hget.symm, by rw [← List.drop_drop, h, List.drop_one, List.tail_cons]⟩

theorem collectProducers_collected {n : Nat} {rest : List Task} {found found' : Keyed (List Nat)}
    (h : Collected c tasks supplied n found) (hrest : tasks.drop n = rest)
    (hc : collectProducers c tasks supplied n found rest = .ok found') :
    Collected c tasks supplied tasks.length found' := by
  induction rest generalizing n found with
  | nil =>
    obtain rfl : found = found' := by simpa [collectProducers] using hc
    have hle : tasks.length ≤ n := List.drop_eq_nil_iff.mp hrest
    have hmakers : ∀ s, makersBelow tasks n s = makersBelow tasks tasks.length s := by
      intro s
      obtain ⟨k, rfl⟩ := Nat.exists_eq_add_of_le hle
      have hnone : ((List.range k).map (tasks.length + ·)).filter
          (fun i => (tasks[i]?).any fun t => t.outputs.contains s) = [] := by
        simp
      rw [makersBelow, List.range_add, List.filter_append, hnone, List.append_nil, makersBelow]
    refine ⟨h.ordered, fun s => by rw [h.makers, hmakers], fun s slot hs happ => ?_⟩
    rw [← hmakers]
    exact h.exclusive s slot hs happ
  | cons t rest ih =>
    simp only [collectProducers] at hc
    cases hadd : addProducer c tasks supplied n t found t.outputs with
    | error e => simp [hadd] at hc
    | ok more =>
      simp only [hadd] at hc
      obtain ⟨ht, hdrop⟩ := getElem?_of_drop_eq_cons hrest
      exact ih (h.step ht hadd) hdrop hc

theorem mem_foldl_edges {i : Nat} {s : SlotId} {ps : List Nat} {x : Edge} {es : List Edge} :
    x ∈ ps.foldl (fun es p => insertOnce ⟨p, i, s⟩ es) es ↔
      (x.producer ∈ ps ∧ x.consumer = i ∧ x.slot = s) ∨ x ∈ es := by
  rw [mem_foldl_insertOnce fun p => (⟨p, i, s⟩ : Edge)]
  refine or_congr_left ⟨?_, ?_⟩
  · rintro ⟨p, hp, rfl⟩
    exact ⟨hp, rfl, rfl⟩
  · rintro ⟨hp, rfl, rfl⟩
    exact ⟨x.producer, hp, rfl⟩

variable {producers : Keyed (List Nat)}

theorem connectTask_ok {i : Nat} {t : Task} {ss : List SlotId} {es es' : List Edge}
    (h : connectTask supplied producers i t es ss = .ok es') :
    (∀ s ∈ ss, (Keyed.get? s producers).getD [] ≠ [] ∨ s ∈ supplied) ∧
      ∀ e, e ∈ es' ↔ e ∈ es ∨
        (e.consumer = i ∧ e.slot ∈ ss ∧ e.producer ∈ (Keyed.get? e.slot producers).getD []) := by
  induction ss generalizing es with
  | nil =>
    obtain rfl : es = es' := by simpa [connectTask] using h
    simp
  | cons s rest ih =>
    simp only [connectTask] at h
    by_cases hfilled : (Keyed.get? s producers).getD [] = [] ∧ !supplied.contains s
    · simp only [if_pos hfilled, reduceCtorEq] at h
    · rw [if_neg hfilled] at h
      obtain ⟨hrest, hmem⟩ := ih h
      refine ⟨List.forall_mem_cons.mpr ⟨?_, hrest⟩, fun e => ?_⟩
      · by_contra hcon
        simp only [not_or, not_not] at hcon
        exact hfilled ⟨hcon.1, by simpa using hcon.2⟩
      · rw [hmem, mem_foldl_edges, List.mem_cons]
        constructor
        · rintro ((⟨hp, hi, rfl⟩ | he) | ⟨hi, hs, hp⟩)
          · exact Or.inr ⟨hi, Or.inl rfl, hp⟩
          · exact Or.inl he
          · exact Or.inr ⟨hi, Or.inr hs, hp⟩
        · rintro (he | ⟨hi, rfl | hs, hp⟩)
          · exact Or.inl (Or.inr he)
          · exact Or.inl (Or.inl ⟨hp, hi, rfl⟩)
          · exact Or.inr ⟨hi, hs, hp⟩

theorem connect_ok {i : Nat} {ts : List Task} {es es' : List Edge}
    (h : connect supplied producers i es ts = .ok es') :
    (∀ t ∈ ts, ∀ s ∈ t.inputs, (Keyed.get? s producers).getD [] ≠ [] ∨ s ∈ supplied) ∧
      ∀ e, e ∈ es' ↔ e ∈ es ∨ ∃ k t, ts[k]? = some t ∧ e.consumer = i + k ∧ e.slot ∈ t.inputs ∧
        e.producer ∈ (Keyed.get? e.slot producers).getD [] := by
  induction ts generalizing i es with
  | nil =>
    obtain rfl : es = es' := by simpa [connect] using h
    simp
  | cons t rest ih =>
    simp only [connect] at h
    cases hmore : connectTask supplied producers i t es t.inputs with
    | error e => simp [hmore] at h
    | ok more =>
      simp only [hmore] at h
      obtain ⟨hfilled, hmem⟩ := connectTask_ok hmore
      obtain ⟨hrest, hmem'⟩ := ih h
      refine ⟨List.forall_mem_cons.mpr ⟨hfilled, hrest⟩, fun e => ?_⟩
      rw [hmem', hmem]
      constructor
      · rintro ((he | ⟨hi, hs, hp⟩) | ⟨k, u, hu, hk, hs, hp⟩)
        · exact Or.inl he
        · exact Or.inr ⟨0, t, rfl, by simpa using hi, hs, hp⟩
        · exact Or.inr ⟨k + 1, u, by simpa using hu, by omega, hs, hp⟩
      · rintro (he | ⟨k, u, hu, hk, hs, hp⟩)
        · exact Or.inl (Or.inl he)
        · cases k with
          | zero =>
            obtain rfl : t = u := by simpa using hu
            exact Or.inl (Or.inr ⟨by simpa using hk, hs, hp⟩)
          | succ k => exact Or.inr ⟨k, u, by simpa using hu, by omega, hs, hp⟩

theorem start_collected : Collected c tasks supplied 0 [] :=
  ⟨.nil, by simp [Keyed.get?, makersBelow], by simp [makersBelow]⟩

theorem Collected.mem_makers (h : Collected c tasks supplied tasks.length producers) (s : SlotId)
    (i : Nat) : i ∈ (Keyed.get? s producers).getD [] ↔ ∃ t, tasks[i]? = some t ∧ s ∈ t.outputs := by
  rw [h.makers, mem_makersBelow]
  refine ⟨fun hi => hi.2, fun hi => ⟨?_, hi⟩⟩
  obtain ⟨t, ht, -⟩ := hi
  exact (List.getElem?_eq_some_iff.mp ht).1

theorem mem_connected {edges : List Edge} (h : connect supplied producers 0 [] tasks = .ok edges)
    (e : Edge) : e ∈ edges ↔ e.producer ∈ (Keyed.get? e.slot producers).getD [] ∧
      ∃ t, tasks[e.consumer]? = some t ∧ e.slot ∈ t.inputs := by
  rw [(connect_ok h).2]
  constructor
  · rintro (he | ⟨k, t, ht, hk, hs, hp⟩)
    · simp at he
    · rw [Nat.zero_add] at hk
      exact ⟨hp, t, hk ▸ ht, hs⟩
  · rintro ⟨hp, t, ht, hs⟩
    exact Or.inr ⟨e.consumer, t, ht, by simp, hs, hp⟩

theorem Collected.edges_inRange {edges : List Edge}
    (h : Collected c tasks supplied tasks.length producers)
    (hedges : connect supplied producers 0 [] tasks = .ok edges) :
    ∀ e ∈ edges, e.producer < tasks.length ∧ e.consumer < tasks.length := by
  intro e he
  obtain ⟨hp, t, ht, -⟩ := (mem_connected hedges e).mp he
  obtain ⟨u, hu, -⟩ := (h.mem_makers _ _).mp hp
  exact ⟨(List.getElem?_eq_some_iff.mp hu).1, (List.getElem?_eq_some_iff.mp ht).1⟩

theorem build_eq_ok {supplies : List SlotId} {g : Graph} : build c supplies tasks = .ok g ↔
    lookupAll c (sortedSet supplies) = .ok () ∧ checkTasks c [] tasks = .ok () ∧
      ∃ producers, collectProducers c tasks (sortedSet supplies) 0 [] tasks = .ok producers ∧
        ∃ edges, connect (sortedSet supplies) producers 0 [] tasks = .ok edges ∧
          g = ⟨tasks, edges, producers, sortedSet supplies⟩ ∧ g.findCycle = .ok () := by
  simp only [build, bind_eq_ok]
  constructor
  · rintro ⟨⟨⟩, hsupplied, ⟨⟩, hchecked, producers, hproducers, edges, hedges, h⟩
    cases hacyclic : findCycle ⟨tasks, edges, producers, sortedSet supplies⟩ with
    | error path => simp [hacyclic, throw, throwThe, MonadExceptOf.throw] at h
    | ok _ =>
      obtain rfl : (⟨tasks, edges, producers, sortedSet supplies⟩ : Graph) = g := by
        simpa [hacyclic, pure, Except.pure] using h
      exact ⟨hsupplied, hchecked, producers, hproducers, edges, hedges, rfl, hacyclic⟩
  · rintro ⟨hsupplied, hchecked, producers, hproducers, edges, hedges, rfl, hacyclic⟩
    exact ⟨(), hsupplied, (), hchecked, producers, hproducers, edges, hedges, by rw [hacyclic]; rfl⟩

/-- Whatever graph is built has the tasks and supplies it was built from and is valid. -/
theorem build_valid {supplies : List SlotId} {g : Graph} (h : build c supplies tasks = .ok g) :
    g.tasks = tasks ∧ g.supplied = sortedSet supplies ∧ g.Valid c := by
  obtain ⟨hsupplied, hchecked, producers, hproducers, edges, hedges, rfl, hacyclic⟩ := build_eq_ok.mp h
  obtain ⟨hids, -, hdeclared⟩ := checkTasks_ok hchecked
  have hcol := collectProducers_collected start_collected List.drop_zero hproducers
  refine ⟨rfl, rfl, hids, hdeclared, lookupAll_ok hsupplied, hcol.ordered, hcol.mem_makers,
    fun s => ?_, fun s slot hs happ => ?_, (connect_ok hedges).1, mem_connected hedges,
    isAcyclic_of_findCycle (hcol.edges_inRange hedges) hacyclic⟩
  · rw [producersOf, hcol.makers]
    exact List.pairwise_lt_range.filter _
  · rw [producersOf, hcol.makers]
    exact hcol.exclusive s slot hs happ

end Graph

end SlotBuild
