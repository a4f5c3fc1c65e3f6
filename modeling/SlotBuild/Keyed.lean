/-! Lists of pairs with text keys in increasing order, each key once. -/

namespace SlotBuild

abbrev Keyed (α : Type) := List (String × α)

namespace Keyed

variable {α : Type}

def get? (k : String) : Keyed α → Option α
  | [] => none
  | x :: r => if x.1 = k then some x.2 else get? k r

def put (k : String) (v : α) : Keyed α → Keyed α
  | [] => [(k, v)]
  | x :: r => if k < x.1 then (k, v) :: x :: r else if x.1 = k then (k, v) :: r else x :: put k v r

def ofList (xs : List (String × α)) : Keyed α := xs.foldl (fun m x => put x.1 x.2 m) []

def keys (m : Keyed α) : List String := m.map (·.1)

/-- The keys increase, so each of them occurs once. -/
def Ordered (m : Keyed α) : Prop := m.Pairwise fun a b => a.1 < b.1

instance (m : Keyed α) : Decidable m.Ordered :=
  inferInstanceAs (Decidable (m.Pairwise fun a b => a.1 < b.1))

/-- Adds `v` at the end of the list under `k`. -/
def append (k : String) (v : α) (m : Keyed (List α)) : Keyed (List α) :=
  put k ((get? k m).getD [] ++ [v]) m

theorem get?_put_self (k : String) (v : α) (m : Keyed α) : get? k (put k v m) = some v := by
  induction m with
  | nil => simp [put, get?]
  | cons x r ih =>
    by_cases hlt : k < x.1
    · simp [put, get?, hlt]
    · by_cases heq : x.1 = k
      · simp [put, get?, heq]
      · simp [put, get?, hlt, heq, ih]

theorem get?_put_ne {k j : String} (h : k ≠ j) (v : α) (m : Keyed α) :
    get? j (put k v m) = get? j m := by
  induction m with
  | nil => simp [put, get?, h]
  | cons x r ih =>
    by_cases hlt : k < x.1
    · simp [put, get?, hlt, h]
    · by_cases heq : x.1 = k
      · simp [put, get?, heq, h]
      · simp [put, get?, hlt, heq, ih]

theorem mem_put {k : String} {v : α} {m : Keyed α} {x : String × α} (h : x ∈ put k v m) :
    x = (k, v) ∨ x ∈ m := by
  induction m with
  | nil => simpa [put] using h
  | cons y r ih =>
    by_cases hlt : k < y.1
    · simpa [put, hlt] using h
    · by_cases heq : y.1 = k
      · simp only [put, if_neg hlt, if_pos heq, List.mem_cons] at h
        exact h.imp_right (List.mem_cons_of_mem y)
      · simp only [put, if_neg hlt, if_neg heq, List.mem_cons] at h
        rcases h with rfl | h
        · exact Or.inr List.mem_cons_self
        · exact (ih h).imp_right (List.mem_cons_of_mem y)

namespace Ordered

variable {m : Keyed α}

theorem nil : Ordered ([] : Keyed α) := List.Pairwise.nil

theorem put (hm : Ordered m) {k : String} {v : α} : Ordered (put k v m) := by
  induction m with
  | nil => exact List.pairwise_singleton _ _
  | cons x r ih =>
    obtain ⟨hx, hr⟩ := List.pairwise_cons.mp hm
    by_cases hlt : k < x.1
    · rw [Keyed.put, if_pos hlt]
      refine List.pairwise_cons.mpr ⟨fun y hy => ?_, hm⟩
      rcases List.mem_cons.mp hy with rfl | hy
      · exact hlt
      · exact String.lt_trans hlt (hx y hy)
    · by_cases heq : x.1 = k
      · rw [Keyed.put, if_neg hlt, if_pos heq]
        exact List.pairwise_cons.mpr ⟨fun y hy => heq ▸ hx y hy, hr⟩
      · have hgt : x.1 < k := Decidable.byContradiction fun h =>
          heq (String.le_antisymm (String.not_lt.mp hlt) (String.not_lt.mp h))
        rw [Keyed.put, if_neg hlt, if_neg heq]
        refine List.pairwise_cons.mpr ⟨fun y hy => ?_, ih hr⟩
        rcases mem_put hy with rfl | hy
        · exact hgt
        · exact hx y hy

theorem filter (hm : Ordered m) (f : String × α → Bool) : Ordered (m.filter f) :=
  List.Pairwise.filter f hm

theorem ofList (xs : List (String × α)) : Ordered (ofList xs) := by
  have h : ∀ m : Keyed α, Ordered m → Ordered (xs.foldl (fun m x => Keyed.put x.1 x.2 m) m) := by
    induction xs with
    | nil => exact fun m hm => hm
    | cons x xs ih => exact fun m hm => ih _ hm.put
  exact h [] .nil

end Ordered

end Keyed

/-- Inserts into an increasing list what is not there already. -/
def insertOnce {α : Type} [LT α] [DecidableLT α] [DecidableEq α] (a : α) : List α → List α
  | [] => [a]
  | x :: r => if a < x then a :: x :: r else if a = x then x :: r else x :: insertOnce a r

/-- The elements of a list in increasing order, each once. -/
def sortedSet {α : Type} [LT α] [DecidableLT α] [DecidableEq α] (as : List α) : List α :=
  as.foldl (fun s a => insertOnce a s) []

end SlotBuild
