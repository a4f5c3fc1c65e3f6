import SlotBuild.Graph.Order
import SlotBuild.Proofs.Graph.Precedence

/-! What a frontier knows of a run: the tasks that were taken from it and those of them that are
done. It counts for each task the dependencies that are not done and offers the tasks for which
none is left, so in an acyclic graph it runs dry only when everything is done. -/

namespace SlotBuild

namespace Frontier

/-- The frontier `f` belongs to a run in which the tasks in `taken` have started and those in `done`
have finished. -/
structure Tracks (g : Graph) (taken done : Finset Nat) (f : Frontier) : Prop where
  length_waiting : f.waiting.length = g.size
  waiting : ∀ i < g.size, f.waiting[i]? = some ((g.dependencies i).countP fun d => d ∉ done)
  mem_ready : ∀ i, i ∈ f.ready ↔ i < g.size ∧ i ∉ taken ∧ ∀ d, g.Precedes d i → d ∈ done
  increasing : f.ready.Pairwise (· < ·)
  taken_ready : ∀ i ∈ taken, i < g.size ∧ ∀ d, g.Precedes d i → d ∈ done
  done_taken : done ⊆ taken

variable {g : Graph}

theorem start_tracks (g : Graph) : (start g).Tracks g ∅ ∅ where
  length_waiting := by simp [start]
  waiting := by
    intro i hi
    simp [start, hi]
  mem_ready := by
    intro i
    constructor
    · intro h
      obtain ⟨hi, hw⟩ := List.mem_filter.mp h
      have hlt : i < g.size := List.mem_range.mp hi
      have hz : (g.dependencies i).length = 0 := by simpa [hlt] using hw
      refine ⟨hlt, by simp, fun d hd => ?_⟩
      have hm := Graph.mem_dependencies.mpr hd
      simp [List.length_eq_zero_iff.mp hz] at hm
    · rintro ⟨hlt, -, hd⟩
      have hz : g.dependencies i = [] := by
        apply List.eq_nil_iff_forall_not_mem.mpr
        intro d hm
        simpa using hd d (Graph.mem_dependencies.mp hm)
      exact List.mem_filter.mpr ⟨List.mem_range.mpr hlt, by simp [hlt, hz]⟩
  increasing := List.pairwise_lt_range.filter _
  taken_ready := by simp
  done_taken := by simp

theorem pop?_eq_none {f : Frontier} : f.pop? = none ↔ f.ready = [] := by
  cases h : f.ready <;> simp [pop?, h]

theorem ready_of_pop? {f rest : Frontier} {i : Nat} (h : f.pop? = some (i, rest)) :
    f.ready = i :: rest.ready := by
  cases hr : f.ready with
  | nil => simp [pop?, hr] at h
  | cons x r =>
    simp only [pop?, hr, Option.some.injEq, Prod.mk.injEq] at h
    obtain ⟨rfl, rfl⟩ := h
    rfl

theorem Tracks.le_of_pop? {taken done : Finset Nat} {f rest : Frontier} {i : Nat}
    (h : f.Tracks g taken done) (hp : f.pop? = some (i, rest)) : ∀ j ∈ f.ready, i ≤ j := by
  have hready := ready_of_pop? hp
  have hinc := h.increasing
  rw [hready] at hinc ⊢
  exact List.forall_mem_cons.mpr ⟨le_rfl, fun j hj => ((List.pairwise_cons.mp hinc).1 j hj).le⟩

theorem Tracks.pop {taken done : Finset Nat} {f rest : Frontier} {i : Nat}
    (h : f.Tracks g taken done) (hp : f.pop? = some (i, rest)) :
    i < g.size ∧ i ∉ taken ∧ (∀ d, g.Precedes d i → d ∈ done) ∧ rest.Tracks g (insert i taken) done := by
  cases hr : f.ready with
  | nil => simp [pop?, hr] at hp
  | cons x r =>
    simp only [pop?, hr, Option.some.injEq, Prod.mk.injEq] at hp
    obtain ⟨rfl, rfl⟩ := hp
    obtain ⟨hlt, hnew, hdeps⟩ := (h.mem_ready x).mp (by simp [hr])
    have hinc := h.increasing
    rw [hr] at hinc
    obtain ⟨hx, hrest⟩ := List.pairwise_cons.mp hinc
    refine ⟨hlt, hnew, hdeps, h.length_waiting, h.waiting, fun j => ?_, hrest, ?_, ?_⟩
    · have hj := h.mem_ready j
      rw [hr, List.mem_cons] at hj
      constructor
      · intro hm
        obtain ⟨h1, h2, h3⟩ := hj.mp (Or.inr hm)
        refine ⟨h1, ?_, h3⟩
        have := hx j hm
        simp only [Finset.mem_insert, not_or]
        exact ⟨by omega, h2⟩
      · rintro ⟨h1, h2, h3⟩
        simp only [Finset.mem_insert, not_or] at h2
        exact (hj.mpr ⟨h1, h2.2, h3⟩).resolve_left h2.1
    · intro j hj
      rcases Finset.mem_insert.mp hj with rfl | hj
      · exact ⟨hlt, hdeps⟩
      · exact h.taken_ready j hj
    · exact h.done_taken.trans (Finset.subset_insert _ _)

theorem release_waiting (f : Frontier) (i j : Nat) :
    (f.release i).waiting[j]? = (f.waiting[j]?).map fun n => if j = i then n - 1 else n := by
  by_cases hji : j = i
  · subst j
    cases hn : f.waiting[i]? with
    | none => simp [release, hn]
    | some n =>
      obtain ⟨hlt, rfl⟩ := List.getElem?_eq_some_iff.mp hn
      simp [release, hlt]
  · unfold release
    split
    · simp [hji]
    · simp [hji, List.getElem?_set_ne (Ne.symm hji)]

theorem mem_release_ready {f : Frontier} {i j : Nat} :
    j ∈ (f.release i).ready ↔ j ∈ f.ready ∨ j = i ∧ ∃ n, f.waiting[i]? = some n ∧ n - 1 = 0 := by
  cases hn : f.waiting[i]? with
  | none => simp [release, hn]
  | some n =>
    by_cases hz : n - 1 = 0
    · simp [release, mem_insertOnce, hn, hz, or_comm]
    · simp [release, hn, hz]

theorem release_increasing {f : Frontier} (i : Nat) (h : f.ready.Pairwise (· < ·)) :
    (f.release i).ready.Pairwise (· < ·) := by
  unfold release
  split
  · exact h
  · split
    · exact insertOnce_increasing h
    · exact h

theorem foldl_release_waiting {js : List Nat} (hjs : js.Nodup) (f : Frontier) (j : Nat) :
    (js.foldl release f).waiting[j]? =
      (f.waiting[j]?).map fun n => if j ∈ js then n - 1 else n := by
  induction js generalizing f with
  | nil => simp
  | cons i js ih =>
    obtain ⟨hi, hjs⟩ := List.nodup_cons.mp hjs
    rw [List.foldl_cons, ih hjs, release_waiting, Option.map_map]
    congr 1
    funext n
    by_cases hj : j = i
    · subst j
      simp [hi]
    · simp [hj]

theorem mem_foldl_release_ready {js : List Nat} (hjs : js.Nodup) {f : Frontier} {j : Nat} :
    j ∈ (js.foldl release f).ready ↔
      j ∈ f.ready ∨ j ∈ js ∧ ∃ n, f.waiting[j]? = some n ∧ n - 1 = 0 := by
  induction js generalizing f with
  | nil => simp
  | cons i js ih =>
    obtain ⟨hi, hjs⟩ := List.nodup_cons.mp hjs
    rw [List.foldl_cons, ih hjs, mem_release_ready, release_waiting, List.mem_cons]
    by_cases hj : j = i
    · subst j
      simp [hi]
    · simp [hj]

theorem foldl_release_increasing {js : List Nat} {f : Frontier} (h : f.ready.Pairwise (· < ·)) :
    (js.foldl release f).ready.Pairwise (· < ·) := by
  induction js generalizing f with
  | nil => exact h
  | cons i js ih => exact ih (release_increasing i h)

theorem countP_insert_of_notMem {ds : List Nat} {done : Finset Nat} {i : Nat} (h : i ∉ ds) :
    ds.countP (fun d => d ∉ insert i done) = ds.countP fun d => d ∉ done := by
  apply List.countP_congr
  intro d hd
  have hdi : d ≠ i := fun he => h (he ▸ hd)
  simp [hdi]

theorem countP_insert_of_mem {ds : List Nat} (hds : ds.Nodup) {done : Finset Nat} {i : Nat}
    (hm : i ∈ ds) (hi : i ∉ done) :
    ds.countP (fun d => d ∉ insert i done) + 1 = ds.countP fun d => d ∉ done := by
  have hp := List.perm_cons_erase hm
  have hrest : i ∉ ds.erase i := fun h => (List.Nodup.mem_erase_iff hds).mp h |>.1 rfl
  rw [hp.countP_eq, hp.countP_eq, List.countP_cons_of_neg (by simp),
    List.countP_cons_of_pos (by simpa using hi), countP_insert_of_notMem hrest]

theorem foldl_release_length (js : List Nat) (f : Frontier) :
    (js.foldl release f).waiting.length = f.waiting.length := by
  induction js generalizing f with
  | nil => rfl
  | cons i js ih =>
    rw [List.foldl_cons, ih]
    unfold release
    split <;> simp

theorem Tracks.finish_waiting {taken done : Finset Nat} {f : Frontier} {i : Nat}
    (h : f.Tracks g taken done) (hdone : i ∉ done) {j : Nat} (hj : j < g.size) :
    (f.finish g i).waiting[j]? = some ((g.dependencies j).countP fun d => d ∉ insert i done) := by
  rw [Frontier.finish, foldl_release_waiting (g.dependents_nodup i), h.waiting j hj, Option.map_some]
  by_cases hij : g.Precedes i j
  · have hc := countP_insert_of_mem (g.dependencies_nodup j) (Graph.mem_dependencies.mpr hij) hdone
    rw [if_pos (Graph.mem_dependents.mpr hij), ← hc, Nat.add_sub_cancel]
  · rw [if_neg (fun hm => hij (Graph.mem_dependents.mp hm)),
      countP_insert_of_notMem fun hm => hij (Graph.mem_dependencies.mp hm)]

theorem Tracks.finish {taken done : Finset Nat} {f : Frontier} {i : Nat}
    (h : f.Tracks g taken done) (htaken : i ∈ taken) (hdone : i ∉ done) :
    (f.finish g i).Tracks g taken (insert i done) := by
  have hnd := g.dependents_nodup i
  refine ⟨?_, fun j hj => h.finish_waiting hdone hj, fun j => ?_, foldl_release_increasing h.increasing,
    ?_, ?_⟩
  · rw [Frontier.finish, foldl_release_length, h.length_waiting]
  · rw [Frontier.finish, mem_foldl_release_ready hnd, h.mem_ready, Graph.mem_dependents]
    constructor
    · rintro (⟨hj, hnew, hdeps⟩ | ⟨hij, n, hn, hz⟩)
      · exact ⟨hj, hnew, fun d hd => Finset.mem_insert_of_mem (hdeps d hd)⟩
      · have hj : j < g.size := by
          rw [← h.length_waiting]
          exact (List.getElem?_eq_some_iff.mp hn).1
        refine ⟨hj, fun hjt => hdone ((h.taken_ready j hjt).2 i hij), fun d hd => ?_⟩
        have hc := h.finish_waiting hdone hj
        rw [Frontier.finish, foldl_release_waiting hnd, hn] at hc
        simp only [Graph.mem_dependents, hij, if_true, Option.map_some, hz, Option.some.injEq] at hc
        have hz := List.countP_eq_zero.mp hc.symm d (Graph.mem_dependencies.mpr hd)
        simpa only [decide_eq_true_eq, not_not] using hz
    · rintro ⟨hj, hnew, hdeps⟩
      by_cases hij : g.Precedes i j
      · refine Or.inr ⟨hij, _, h.waiting j hj, ?_⟩
        have hc := countP_insert_of_mem (g.dependencies_nodup j) (Graph.mem_dependencies.mpr hij) hdone
        rw [← hc, Nat.add_sub_cancel]
        apply List.countP_eq_zero.mpr
        intro d hd
        simpa only [decide_eq_true_eq, not_not] using hdeps d (Graph.mem_dependencies.mp hd)
      · refine Or.inl ⟨hj, hnew, fun d hd => ?_⟩
        rcases Finset.mem_insert.mp (hdeps d hd) with rfl | hm
        · exact absurd hd hij
        · exact hm
  · intro j hj
    obtain ⟨hlt, hdeps⟩ := h.taken_ready j hj
    exact ⟨hlt, fun d hd => Finset.mem_insert_of_mem (hdeps d hd)⟩
  · exact Finset.insert_subset htaken h.done_taken

theorem Tracks.done_of_dry {taken done : Finset Nat} {f : Frontier} (h : f.Tracks g taken done)
    (hg : g.IsAcyclic) (hr : f.ready = []) (ht : taken ⊆ done) : ∀ i < g.size, i ∈ done := by
  refine hg.induction fun i hi ih => ?_
  by_contra hni
  have hm := (h.mem_ready i).mpr ⟨hi, fun hit => hni (ht hit), ih⟩
  simp [hr] at hm

theorem Tracks.card_le {taken done : Finset Nat} {f : Frontier} (h : f.Tracks g taken done) :
    taken.card ≤ g.size := by
  have hsub : taken ⊆ Finset.range g.size :=
    fun i hi => Finset.mem_range.mpr (h.taken_ready i hi).1
  simpa using Finset.card_le_card hsub

theorem Tracks.card_lt {taken done : Finset Nat} {f rest : Frontier} {i : Nat} (h : f.Tracks g taken done)
    (hp : f.pop? = some (i, rest)) : taken.card < g.size := by
  obtain ⟨-, hnew, -, hrest⟩ := h.pop hp
  have hcard := Finset.card_insert_of_notMem hnew
  have hle := hrest.card_le
  omega

/-- Where each task that is taken is finished at once, the next one goes from ready to done. -/
theorem Tracks.advance {done : Finset Nat} {f rest : Frontier} {i : Nat} (h : f.Tracks g done done)
    (hp : f.pop? = some (i, rest)) : i ∉ done ∧
      (rest.finish g i).Tracks g (insert i done) (insert i done) ∧
      (insert i done).card = done.card + 1 := by
  obtain ⟨-, hnew, -, hrest⟩ := h.pop hp
  exact ⟨hnew, hrest.finish (Finset.mem_insert_self i done) hnew, Finset.card_insert_of_notMem hnew⟩

end Frontier

namespace Graph

variable {g : Graph}

theorem orderFrom_eq_nil {fuel : Nat} {f : Frontier} (h : f.ready = []) : g.orderFrom fuel f = [] := by
  cases fuel with
  | zero => rfl
  | succ fuel => simp [orderFrom, Frontier.pop?_eq_none.mpr h]

/-- Fuel beyond the number of tasks that are left changes nothing. -/
theorem orderFrom_succ {fuel : Nat} {done : Finset Nat} {f : Frontier} (h : f.Tracks g done done)
    (hfuel : g.size ≤ done.card + fuel) : g.orderFrom (fuel + 1) f = g.orderFrom fuel f := by
  induction fuel generalizing f done with
  | zero =>
    cases hp : f.pop? with
    | none => simp [orderFrom, hp]
    | some next =>
      have := h.card_lt hp
      omega
  | succ fuel ih =>
    cases hp : f.pop? with
    | none =>
      have hready := Frontier.pop?_eq_none.mp hp
      rw [orderFrom_eq_nil hready, orderFrom_eq_nil hready]
    | some next =>
      obtain ⟨i, rest⟩ := next
      obtain ⟨-, hnext, hcard⟩ := h.advance hp
      have hrec := ih hnext (by omega)
      rw [orderFrom, orderFrom, hp]
      exact congrArg (i :: ·) hrec

theorem orderFrom_of_pop? {done : Finset Nat} {f rest : Frontier} {i : Nat} (h : f.Tracks g done done)
    (hp : f.pop? = some (i, rest)) :
    g.orderFrom g.size f = i :: g.orderFrom g.size (rest.finish g i) := by
  obtain ⟨-, hnext, hcard⟩ := h.advance hp
  have hlt := h.card_lt hp
  obtain ⟨n, hn⟩ : ∃ n, g.size = n + 1 := ⟨g.size - 1, by omega⟩
  have hrec : g.orderFrom (n + 1) (rest.finish g i) = g.orderFrom n (rest.finish g i) :=
    orderFrom_succ hnext (by omega)
  rw [hn, hrec, orderFrom, hp]

theorem mem_orderFrom {fuel : Nat} {done : Finset Nat} {f : Frontier} (hg : g.IsAcyclic)
    (h : f.Tracks g done done) (hfuel : g.size ≤ done.card + fuel) {i : Nat} :
    i ∈ g.orderFrom fuel f ↔ i < g.size ∧ i ∉ done := by
  induction fuel generalizing f done with
  | zero =>
    have hall : done = Finset.range g.size :=
      Finset.eq_of_subset_of_card_le (fun j hj => Finset.mem_range.mpr (h.taken_ready j hj).1)
        (by simpa using hfuel)
    simp [orderFrom, hall]
  | succ fuel ih =>
    cases hp : f.pop? with
    | none =>
      have hall := h.done_of_dry hg (Frontier.pop?_eq_none.mp hp) (Finset.Subset.refl _)
      simp only [orderFrom, hp, List.not_mem_nil, false_iff, not_and, not_not]
      exact hall i
    | some next =>
      obtain ⟨j, rest⟩ := next
      obtain ⟨hj, -⟩ := h.pop hp
      obtain ⟨hnew, hnext, hcard⟩ := h.advance hp
      have hi := ih hnext (by omega)
      simp only [orderFrom, hp, List.mem_cons, hi, Finset.mem_insert, not_or]
      constructor
      · rintro (rfl | ⟨h1, -, h3⟩)
        · exact ⟨hj, hnew⟩
        · exact ⟨h1, h3⟩
      · rintro ⟨h1, h2⟩
        by_cases hij : i = j
        · exact Or.inl hij
        · exact Or.inr ⟨h1, hij, h2⟩

theorem orderFrom_nodup {fuel : Nat} {done : Finset Nat} {f : Frontier}
    (h : f.Tracks g done done) : (g.orderFrom fuel f).Nodup ∧ ∀ i ∈ g.orderFrom fuel f, i ∉ done := by
  induction fuel generalizing f done with
  | zero => simp [orderFrom]
  | succ fuel ih =>
    cases hp : f.pop? with
    | none => simp [orderFrom, hp]
    | some next =>
      obtain ⟨j, rest⟩ := next
      obtain ⟨hnew, hnext, -⟩ := h.advance hp
      obtain ⟨hnd, hout⟩ := ih hnext
      simp only [orderFrom, hp, List.nodup_cons, List.mem_cons, forall_eq_or_imp]
      exact ⟨⟨fun hm => hout j hm (Finset.mem_insert_self j done), hnd⟩, hnew,
        fun i hi hd => hout i hi (Finset.mem_insert_of_mem hd)⟩

theorem orderFrom_precedes {fuel : Nat} {done : Finset Nat} {f : Frontier} (h : f.Tracks g done done)
    {before after : List Nat} {i d : Nat} (horder : g.orderFrom fuel f = before ++ i :: after)
    (hd : g.Precedes d i) : d ∈ done ∨ d ∈ before := by
  induction fuel generalizing f done before with
  | zero => simp [orderFrom] at horder
  | succ fuel ih =>
    cases hp : f.pop? with
    | none => simp [orderFrom, hp] at horder
    | some next =>
      obtain ⟨j, rest⟩ := next
      obtain ⟨-, -, hready, -⟩ := h.pop hp
      obtain ⟨-, hnext, -⟩ := h.advance hp
      simp only [orderFrom, hp] at horder
      rcases before with _ | ⟨b, before⟩
      · obtain ⟨rfl, -⟩ := List.cons.inj horder
        exact Or.inl (hready d hd)
      · obtain ⟨rfl, hlater⟩ := List.cons.inj horder
        rcases ih hnext hlater with hdone | hbefore
        · rcases Finset.mem_insert.mp hdone with rfl | hdone
          · exact Or.inr List.mem_cons_self
          · exact Or.inl hdone
        · exact Or.inr (List.mem_cons_of_mem j hbefore)

/-- In the order of the tasks, all that a task depends on comes before it. -/
theorem mem_before_of_transGen {before after : List Nat} {d i : Nat} (horder : g.order = before ++ i :: after)
    (hd : Relation.TransGen g.Precedes d i) : d ∈ before := by
  have hone : ∀ {before after : List Nat} {d i : Nat}, g.order = before ++ i :: after → g.Precedes d i →
      d ∈ before := fun horder hd =>
    (orderFrom_precedes (Frontier.start_tracks g) horder hd).resolve_left (Finset.notMem_empty _)
  induction hd generalizing before after with
  | single hd => exact hone horder hd
  | tail _ hm ih =>
    obtain ⟨earlier, later, rfl⟩ := List.append_of_mem (hone horder hm)
    rw [List.append_assoc, List.cons_append] at horder
    exact List.mem_append_left _ (ih horder)

theorem order_perm (hg : g.IsAcyclic) : g.order.Perm (List.range g.size) := by
  have hs := Frontier.start_tracks g
  have hnd : g.order.Nodup := (orderFrom_nodup hs).1
  have hm : ∀ i, i ∈ g.order ↔ i < g.size ∧ i ∉ (∅ : Finset Nat) := fun _ => mem_orderFrom hg hs (by simp)
  exact (List.perm_ext_iff_of_nodup hnd List.nodup_range).mpr fun i => by simpa using hm i

theorem filterMap_task? (g : Graph) : (List.range g.size).filterMap g.task? = g.tasks := by
  have hall : ∀ ts : List Task, (List.range ts.length).filterMap (fun i => ts[i]?) = ts := by
    intro ts
    induction ts with
    | nil => rfl
    | cons t ts ih =>
      rw [List.length_cons, List.range_succ_eq_map, List.filterMap_cons_some (by rfl), List.filterMap_map]
      exact congrArg (t :: ·) ih
  exact hall g.tasks

/-- Each task has its place in the order. -/
theorem tasks_perm (hg : g.IsAcyclic) : (g.order.filterMap g.task?).Perm g.tasks := by
  have hperm := (order_perm hg).filterMap g.task?
  rwa [filterMap_task?] at hperm

end Graph

end SlotBuild
