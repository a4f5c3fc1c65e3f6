import Mathlib.Data.List.Induction
import Mathlib.Data.List.Sort
import Mathlib.Data.String.Basic
import SlotBuild.Keyed

/-! Keyed lists as finite maps: what is found after an insertion, and that a list in the order of
its keys is determined by what is found in it. -/

namespace SlotBuild.Keyed

variable {α β : Type}

theorem get?_put (j k : String) (v : α) (m : Keyed α) :
    get? j (put k v m) = if k = j then some v else get? j m := by
  by_cases h : k = j
  · rw [if_pos h, ← h, get?_put_self]
  · rw [if_neg h, get?_put_ne h]

theorem getD_append (j k : String) (v : α) (m : Keyed (List α)) :
    (get? j (append k v m)).getD [] = (get? j m).getD [] ++ if k = j then [v] else [] := by
  rw [append, get?_put]
  by_cases h : k = j
  · simp [h]
  · simp [h]

theorem mem_of_get? {k : String} {v : α} {m : Keyed α} (h : get? k m = some v) : (k, v) ∈ m := by
  induction m with
  | nil => simp [get?] at h
  | cons x r ih =>
    by_cases hx : x.1 = k
    · rw [get?, if_pos hx] at h
      obtain rfl := Option.some.inj h
      subst hx
      exact List.mem_cons_self
    · rw [get?, if_neg hx] at h
      exact List.mem_cons_of_mem x (ih h)

theorem get?_eq_none_of_lt {k : String} {m : Keyed α} (h : ∀ x ∈ m, k < x.1) : get? k m = none := by
  cases hk : get? k m with
  | none => rfl
  | some v => exact absurd (h _ (mem_of_get? hk)) (lt_irrefl k)

theorem mem_keys {k : String} {m : Keyed α} : k ∈ keys m ↔ ∃ v, get? k m = some v := by
  induction m with
  | nil => simp [keys, get?]
  | cons x r ih =>
    by_cases hx : x.1 = k
    · simp [keys, get?, hx]
    · rw [get?, if_neg hx, ← ih]
      simp [keys, Ne.symm hx]

theorem mem_ofList {xs : List (String × α)} {x : String × α} (h : x ∈ ofList xs) : x ∈ xs := by
  have hfold : ∀ (ys : List (String × α)) (m : Keyed α), x ∈ ys.foldl (fun m y => put y.1 y.2 m) m →
      x ∈ m ∨ x ∈ ys := by
    intro ys
    induction ys with
    | nil => exact fun m hm => Or.inl hm
    | cons y ys ih =>
      intro m hm
      rcases ih _ hm with hm | hm
      · rcases mem_put hm with rfl | hm
        · exact Or.inr List.mem_cons_self
        · exact Or.inl hm
      · exact Or.inr (List.mem_cons_of_mem y hm)
  exact (hfold xs [] h).resolve_left List.not_mem_nil

namespace Ordered

theorem get?_eq_some {k : String} {v : α} {m : Keyed α} (hm : Ordered m) :
    get? k m = some v ↔ (k, v) ∈ m := by
  refine ⟨mem_of_get?, fun h => ?_⟩
  induction m with
  | nil => simp at h
  | cons x r ih =>
    obtain ⟨hx, hr⟩ := List.pairwise_cons.mp hm
    rcases List.mem_cons.mp h with rfl | h
    · simp [get?]
    · have hne : x.1 ≠ k := (hx _ h).ne
      simp only [get?, if_neg hne]
      exact ih hr h

theorem append {k : String} {v : α} {m : Keyed (List α)} (hm : Ordered m) :
    Ordered (append k v m) := hm.put

end Ordered

theorem put_eq_append {k : String} {v : α} {m : Keyed α} (h : ∀ x ∈ m, x.1 < k) :
    put k v m = m ++ [(k, v)] := by
  induction m with
  | nil => rfl
  | cons x r ih =>
    have hx := h x List.mem_cons_self
    simp only [put, if_neg (lt_asymm hx), if_neg hx.ne, List.cons_append]
    rw [ih fun y hy => h y (List.mem_cons_of_mem x hy)]

theorem Ordered.ofList_eq {m : Keyed α} (hm : Ordered m) : Keyed.ofList m = m := by
  have h : ∀ m' : Keyed α, Ordered (m' ++ m) →
      m.foldl (fun m x => Keyed.put x.1 x.2 m) m' = m' ++ m := by
    induction m with
    | nil => simp
    | cons x r ih =>
      intro m' hm'
      have hlt : ∀ y ∈ m', y.1 < x.1 := fun y hy =>
        (List.pairwise_append.mp hm').2.2 y hy x List.mem_cons_self
      rw [List.foldl_cons, put_eq_append hlt,
        ih (List.pairwise_cons.mp hm).2 (m' ++ [x]) (by simpa using hm')]
      simp
  exact h [] hm

theorem put_perm {k : String} {v : α} {m : Keyed α} (h : k ∉ keys m) :
    (put k v m).Perm ((k, v) :: m) := by
  induction m with
  | nil => exact List.Perm.refl _
  | cons x r ih =>
    obtain ⟨hx, hr⟩ : k ≠ x.1 ∧ k ∉ keys r := by simpa [keys] using h
    simp only [put, if_neg hx.symm]
    split
    · exact List.Perm.refl _
    · exact ((ih hr).cons x).trans (List.Perm.swap _ _ _)

theorem ofList_perm {xs : List (String × α)} (h : (keys xs).Nodup) : (Keyed.ofList xs).Perm xs := by
  have hfold : ∀ m : Keyed α, (keys (m ++ xs)).Nodup →
      (xs.foldl (fun m x => put x.1 x.2 m) m).Perm (m ++ xs) := by
    induction xs with
    | nil => simp
    | cons x xs ih =>
      intro m hm
      have hnew : x.1 ∉ keys m := by
        rw [keys, List.map_append, List.nodup_append] at hm
        exact fun hx => hm.2.2 x.1 hx x.1 (by simp) rfl
      have hperm : (put x.1 x.2 m ++ xs).Perm (m ++ x :: xs) :=
        ((put_perm hnew).append_right xs).trans List.perm_middle.symm
      have hkeys : (keys xs).Nodup := (List.nodup_cons.mp h).2
      exact (ih hkeys _ ((hperm.map _).nodup_iff.mpr hm)).trans hperm
  exact hfold [] h

theorem Ordered.nodup {m : Keyed α} (hm : Ordered m) : (keys m).Nodup :=
  List.pairwise_map.mpr (hm.imp fun h => h.ne)

/-- Sorting by key undoes every change of the order. -/
theorem Ordered.ofList_eq_of_perm {m : Keyed α} (hm : Ordered m) {xs : List (String × α)}
    (h : xs.Perm m) :
    Keyed.ofList xs = m := by
  have hkeys : (keys xs).Nodup := (h.map _).nodup_iff.mpr hm.nodup
  exact ((ofList_perm hkeys).trans h).eq_of_pairwise
    (fun a b _ _ hab hba => absurd hab (lt_asymm hba)) (Ordered.ofList xs) hm

/-- A keyed list in order is determined by what is found in it. -/
theorem Ordered.ext {m m' : Keyed α} (hm : Ordered m) (hm' : Ordered m')
    (h : ∀ k, get? k m = get? k m') : m = m' := by
  have : Std.Asymm fun a b : String × α => a.1 < b.1 := ⟨fun _ _ => lt_asymm⟩
  refine List.Pairwise.eq_of_mem_iff hm hm' fun x => ?_
  rw [← hm.get?_eq_some, ← hm'.get?_eq_some, h]

theorem get?_ofList_map (f : String → α) (ks : List String) (k : String) :
    get? k (Keyed.ofList (ks.map fun j => (j, f j))) = if k ∈ ks then some (f k) else none := by
  have h : ∀ m : Keyed α, get? k ((ks.map fun j => (j, f j)).foldl (fun m x => put x.1 x.2 m) m) =
      if k ∈ ks then some (f k) else get? k m := by
    induction ks with
    | nil => simp
    | cons j ks ih =>
      intro m
      rw [List.map_cons, List.foldl_cons, ih, get?_put]
      by_cases hk : k ∈ ks
      · simp [hk]
      · by_cases hj : j = k
        · simp [hj]
        · simp [hk, hj, Ne.symm hj]
  exact h []

/-- Of several values under one key the last one is found. -/
theorem get?_ofList (xs : List (String × α)) (k : String) :
    get? k (Keyed.ofList xs) = (xs.filter fun x => x.1 = k).getLast?.map (·.2) := by
  induction xs using List.reverseRecOn with
  | nil => rfl
  | append_singleton xs x ih =>
    have hlast : Keyed.ofList (xs ++ [x]) = put x.1 x.2 (Keyed.ofList xs) := List.foldl_append
    rw [hlast, get?_put, ih, List.filter_append]
    by_cases hx : x.1 = k <;> simp [hx]

theorem get?_ofList_of_last {earlier later : List (String × α)} {k : String} {v : α}
    (h : ∀ x ∈ later, x.1 ≠ k) : get? k (Keyed.ofList (earlier ++ (k, v) :: later)) = some v := by
  have hlater : later.filter (fun x => x.1 = k) = [] :=
    List.filter_eq_nil_iff.mpr fun x hx => by simpa using h x hx
  simp [get?_ofList, List.filter_append, hlater]

theorem Ordered.filterMap {f : α → Option β} {m : Keyed α} (hm : Ordered m) :
    Ordered (m.filterMap fun e => (f e.2).map fun v => (e.1, v)) := by
  refine List.pairwise_filterMap.mpr (hm.imp ?_)
  rintro a b hab _ ha _ hb
  obtain ⟨v, -, rfl⟩ := Option.map_eq_some_iff.mp ha
  obtain ⟨w, -, rfl⟩ := Option.map_eq_some_iff.mp hb
  exact hab

theorem Ordered.get?_filterMap {f : α → Option β} {m : Keyed α} (hm : Ordered m) (k : String) :
    get? k (m.filterMap fun e => (f e.2).map fun v => (e.1, v)) = (get? k m).bind f := by
  ext v
  rw [hm.filterMap.get?_eq_some, List.mem_filterMap, Option.bind_eq_some_iff]
  constructor
  · rintro ⟨⟨j, x⟩, hx, hv⟩
    obtain ⟨v', hv', heq⟩ := Option.map_eq_some_iff.mp hv
    simp only [Prod.mk.injEq] at heq
    obtain ⟨rfl, rfl⟩ := heq
    exact ⟨x, hm.get?_eq_some.mpr hx, hv'⟩
  · rintro ⟨x, hx, hv⟩
    exact ⟨(k, x), mem_of_get? hx, by simp [hv]⟩

end SlotBuild.Keyed
