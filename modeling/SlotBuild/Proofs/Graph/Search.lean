import Mathlib.Data.Finset.Card
import SlotBuild.Graph.Build
import SlotBuild.Proofs.Failure

/-! The search for a cycle with no bound on its depth. It comes to an end on every graph, since it
never enters a task twice, and a depth beyond the number of tasks is as good as none. -/

namespace SlotBuild.Graph

namespace Search

def start (g : Graph) : Search := ⟨List.replicate g.size .fresh, []⟩

def enter (s : Search) (i : Nat) : Search := ⟨s.marks.set i .entered, s.trail ++ [i]⟩

def leave (s : Search) (i : Nat) : Search := ⟨s.marks.set i .left, s.trail.dropLast⟩

/-- The tasks that may still be entered. -/
def fresh (s : Search) : Finset Nat :=
  (Finset.range s.marks.length).filter fun i => s.marks[i]? = some .fresh

variable {s : Search} {i j : Nat}

theorem mem_fresh : i ∈ s.fresh ↔ s.marks[i]? = some .fresh := by
  simp only [fresh, Finset.mem_filter, Finset.mem_range, and_iff_right_iff_imp]
  exact fun h => (List.getElem?_eq_some_iff.mp h).1

theorem getElem?_set_fresh {marks : List Mark} {m : Mark} (hm : m ≠ .fresh) :
    (marks.set i m)[j]? = some .fresh ↔ marks[j]? = some .fresh ∧ j ≠ i := by
  by_cases hij : i = j
  · subst hij
    by_cases hlt : i < marks.length
    · simp [hlt, hm]
    · simp [hlt]
  · simp [hij, Ne.symm hij]

theorem mem_fresh_enter : j ∈ (s.enter i).fresh ↔ j ∈ s.fresh ∧ j ≠ i := by
  rw [mem_fresh, mem_fresh]
  exact getElem?_set_fresh (by decide)

theorem mem_fresh_leave : j ∈ (s.leave i).fresh ↔ j ∈ s.fresh ∧ j ≠ i := by
  rw [mem_fresh, mem_fresh]
  exact getElem?_set_fresh (by decide)

theorem mem_fresh_start {g : Graph} : i ∈ (start g).fresh ↔ i < g.size := by
  simp [mem_fresh, start, List.getElem?_replicate]

theorem card_fresh_start (g : Graph) : (start g).fresh.card = g.size := by
  have hfresh : (start g).fresh = Finset.range g.size := by
    ext i
    rw [mem_fresh_start, Finset.mem_range]
  rw [hfresh, Finset.card_range]

end Search

/-- From `s` the search of these tasks, one after the other, enters the tasks `entered` in this
order and ends with `result`. A task is entered while it has no mark, and what depends on it is
searched before the next task is. -/
inductive Searches (g : Graph) : Search → List Nat → List Nat → Except (List Nat) Search → Prop
  | done {s : Search} : Searches g s [] [] (.ok s)
  | pass {s : Search} {i : Nat} {rest entered : List Nat} {result : Except (List Nat) Search}
      (hi : s.marks[i]? = none ∨ s.marks[i]? = some .left)
      (hrest : Searches g s rest entered result) : Searches g s (i :: rest) entered result
  | meet {s : Search} {i : Nat} {rest : List Nat} (hi : s.marks[i]? = some .entered) :
      Searches g s (i :: rest) [] (.error (s.trail.dropWhile (· ≠ i) ++ [i]))
  | enter {s after : Search} {i : Nat} {rest below beside : List Nat}
      {result : Except (List Nat) Search} (hi : s.marks[i]? = some .fresh)
      (hbelow : Searches g (s.enter i) (g.dependents i) below (.ok after))
      (hrest : Searches g (after.leave i) rest beside result) :
      Searches g s (i :: rest) (i :: (below ++ beside)) result
  | stop {s : Search} {i : Nat} {rest below path : List Nat} (hi : s.marks[i]? = some .fresh)
      (hbelow : Searches g (s.enter i) (g.dependents i) below (.error path)) :
      Searches g s (i :: rest) (i :: below) (.error path)

namespace Searches

variable {g : Graph} {s : Search} {is entered : List Nat} {result : Except (List Nat) Search}

/-- What a search enters had no mark before, and has one after. -/
structure Spends (s : Search) (entered : List Nat) (result : Except (List Nat) Search) : Prop where
  nodup : entered.Nodup
  fresh : ∀ i ∈ entered, i ∈ s.fresh
  rest : ∀ after, result = .ok after → ∀ i, i ∈ after.fresh ↔ i ∈ s.fresh ∧ i ∉ entered

theorem spends (h : Searches g s is entered result) : Spends s entered result := by
  induction h with
  | done =>
    refine ⟨List.nodup_nil, by simp, ?_⟩
    rintro after ⟨⟩ i
    simp
  | pass _ _ ih => exact ih
  | meet => exact ⟨List.nodup_nil, by simp, by simp⟩
  | @enter s after i rest below beside result hi _ _ ihbelow ihrest =>
    have hfresh : i ∈ s.fresh := Search.mem_fresh.mpr hi
    have hbelow : ∀ j ∈ below, j ∈ s.fresh ∧ j ≠ i := fun j hj =>
      Search.mem_fresh_enter.mp (ihbelow.fresh j hj)
    have hafter : ∀ j, j ∈ (after.leave i).fresh ↔ (j ∈ s.fresh ∧ j ≠ i) ∧ j ∉ below := by
      intro j
      rw [Search.mem_fresh_leave, ihbelow.rest after rfl, Search.mem_fresh_enter]
      tauto
    have hbeside : ∀ j ∈ beside, (j ∈ s.fresh ∧ j ≠ i) ∧ j ∉ below := fun j hj =>
      (hafter j).mp (ihrest.fresh j hj)
    refine ⟨List.nodup_cons.mpr ⟨fun hm => ?_, ?_⟩, ?_, fun last hlast j => ?_⟩
    · rcases List.mem_append.mp hm with hm | hm
      · exact (hbelow i hm).2 rfl
      · exact (hbeside i hm).1.2 rfl
    · exact ihbelow.nodup.append ihrest.nodup fun j hj hj' => (hbeside j hj').2 hj
    · refine List.forall_mem_cons.mpr ⟨hfresh, fun j hj => ?_⟩
      rcases List.mem_append.mp hj with hj | hj
      · exact (hbelow j hj).1
      · exact (hbeside j hj).1.1
    · rw [ihrest.rest last hlast, hafter, List.mem_cons, List.mem_append]
      tauto
  | @stop s i rest below path hi _ ih =>
    have hbelow : ∀ j ∈ below, j ∈ s.fresh ∧ j ≠ i := fun j hj =>
      Search.mem_fresh_enter.mp (ih.fresh j hj)
    refine ⟨List.nodup_cons.mpr ⟨fun hm => (hbelow i hm).2 rfl, ih.nodup⟩, ?_, by simp⟩
    exact List.forall_mem_cons.mpr ⟨Search.mem_fresh.mpr hi, fun j hj => (hbelow j hj).1⟩

theorem unique {entered' : List Nat} {result' : Except (List Nat) Search}
    (h : Searches g s is entered result) (h' : Searches g s is entered' result') :
    entered = entered' ∧ result = result' := by
  induction h generalizing entered' result' with
  | done =>
    cases h'
    exact ⟨rfl, rfl⟩
  | pass hi _ ih =>
    cases h' with
    | pass _ hrest => exact ih hrest
    | meet hi' => simp [hi'] at hi
    | enter hi' => simp [hi'] at hi
    | stop hi' => simp [hi'] at hi
  | meet hi =>
    cases h' with
    | pass hi' => simp [hi] at hi'
    | meet => exact ⟨rfl, rfl⟩
    | enter hi' => simp [hi] at hi'
    | stop hi' => simp [hi] at hi'
  | enter hi _ _ ihbelow ihrest =>
    cases h' with
    | pass hi' => simp [hi] at hi'
    | meet hi' => simp [hi] at hi'
    | enter _ hbelow hrest =>
      obtain ⟨rfl, hsame⟩ := ihbelow hbelow
      obtain rfl := Except.ok.inj hsame
      obtain ⟨rfl, rfl⟩ := ihrest hrest
      exact ⟨rfl, rfl⟩
    | stop _ hbelow => simpa using (ihbelow hbelow).2
  | stop hi _ ih =>
    cases h' with
    | pass hi' => simp [hi] at hi'
    | meet hi' => simp [hi] at hi'
    | enter _ hbelow => simpa using (ih hbelow).2
    | stop _ hbelow =>
      obtain ⟨rfl, hsame⟩ := ih hbelow
      exact ⟨rfl, hsame⟩

end Searches

variable {g : Graph}

theorem visit_pass {s : Search} {i depth : Nat}
    (hi : s.marks[i]? = none ∨ s.marks[i]? = some .left) : visit g (depth + 1) s i = .ok s := by
  rcases hi with hi | hi <;> simp [visit, hi]

theorem visit_meet {s : Search} {i depth : Nat} (hi : s.marks[i]? = some .entered) :
    visit g (depth + 1) s i = .error (s.trail.dropWhile (· ≠ i) ++ [i]) := by
  simp [visit, hi]

theorem visit_fresh {s : Search} {i depth : Nat} (hi : s.marks[i]? = some .fresh) :
    visit g (depth + 1) s i =
      (g.dependents i).foldlM (visit g depth) (s.enter i) >>= fun after => .ok (after.leave i) := by
  simp only [visit, hi]
  rfl

/-- The depth goes down where a task is entered, and so does the number of tasks without a mark. -/
theorem searches_foldlM {depth : Nat} {s : Search} (hdepth : s.fresh.card < depth) (is : List Nat) :
    ∃ entered, Searches g s is entered (is.foldlM (visit g depth) s) := by
  induction depth generalizing s is with
  | zero => omega
  | succ depth ihdepth =>
    induction is generalizing s with
    | nil => exact ⟨[], .done⟩
    | cons i rest ihrest =>
      rw [List.foldlM_cons]
      rcases hm : s.marks[i]? with _ | _ | _ | _
      · obtain ⟨entered, hrest⟩ := ihrest hdepth
        rw [visit_pass (.inl hm)]
        exact ⟨entered, .pass (.inl hm) hrest⟩
      · have hfresh : i ∈ s.fresh := Search.mem_fresh.mpr hm
        have hless : (s.enter i).fresh.card < s.fresh.card := by
          refine Finset.card_lt_card ⟨fun j hj => (Search.mem_fresh_enter.mp hj).1, fun hsub => ?_⟩
          exact (Search.mem_fresh_enter.mp (hsub hfresh)).2 rfl
        obtain ⟨below, hbelow⟩ := ihdepth (show (s.enter i).fresh.card < depth by omega) (g.dependents i)
        rw [visit_fresh hm]
        cases hinner : (g.dependents i).foldlM (visit g depth) (s.enter i) with
        | error path =>
          rw [hinner] at hbelow
          exact ⟨i :: below, .stop hm hbelow⟩
        | ok after =>
          rw [hinner] at hbelow
          have hafter : (after.leave i).fresh ⊆ s.fresh := fun j hj => by
            have hj' := (hbelow.spends.rest after rfl j).mp (Search.mem_fresh_leave.mp hj).1
            exact (Search.mem_fresh_enter.mp hj'.1).1
          have hcard := Finset.card_le_card hafter
          obtain ⟨beside, hrest⟩ := ihrest (show (after.leave i).fresh.card < depth + 1 by omega)
          exact ⟨i :: (below ++ beside), .enter hm hbelow hrest⟩
      · rw [visit_meet hm]
        exact ⟨[], .meet hm⟩
      · obtain ⟨entered, hrest⟩ := ihrest hdepth
        rw [visit_pass (.inr hm)]
        exact ⟨entered, .pass (.inr hm) hrest⟩

theorem findCycle_eq : g.findCycle =
    ((List.range g.size).foldlM (visit g (g.size + 1)) (Search.start g)).map fun _ => () := by
  rw [findCycle, Search.start]
  cases (List.range g.size).foldlM (visit g (g.size + 1)) ⟨List.replicate g.size .fresh, []⟩ <;> rfl

theorem exists_searches (g : Graph) : ∃ entered result,
    Searches g (Search.start g) (List.range g.size) entered result ∧
      result.map (fun _ => ()) = g.findCycle := by
  have hdepth : (Search.start g).fresh.card < g.size + 1 := by
    rw [Search.card_fresh_start]
    omega
  obtain ⟨entered, h⟩ := searches_foldlM hdepth (List.range g.size)
  exact ⟨entered, _, h, findCycle_eq.symm⟩

end SlotBuild.Graph
