import Mathlib.Data.List.Chain
import Mathlib.Data.List.TakeWhile
import SlotBuild.Proofs.Graph.Precedence
import SlotBuild.Proofs.Graph.Search

/-! The search for a cycle. What it has left behind leads only to what it has left behind, so where
it gets through all tasks there is no way back to any of them. Where it stops, the trail has led
back to a task on it, and what it reports is a cycle. -/

namespace SlotBuild.Graph

/-- The tasks on the trail are the entered ones; no way leads from a task that was left to one that
was not, nor back to the task. -/
structure Search.Sound (g : Graph) (s : Search) : Prop where
  length_marks : s.marks.length = g.size
  trail_nodup : s.trail.Nodup
  mem_trail : ∀ i, i ∈ s.trail ↔ s.marks[i]? = some .entered
  closed : ∀ i j, s.marks[i]? = some Mark.left → g.Precedes i j → s.marks[j]? = some Mark.left
  noReturn : ∀ i, s.marks[i]? = some Mark.left → ¬ Relation.TransGen g.Precedes i i

namespace Search

variable {g : Graph} {s : Search}

theorem start_sound (g : Graph) : (start g).Sound g := by
  refine ⟨by simp [start], by simp [start], ?_, ?_, ?_⟩ <;> simp [start, List.getElem?_replicate]

theorem Sound.lt_size (h : s.Sound g) {i : Nat} {m : Mark} (hi : s.marks[i]? = some m) : i < g.size := by
  rw [← h.length_marks]
  exact (List.getElem?_eq_some_iff.mp hi).1

theorem Sound.enter (h : s.Sound g) {i : Nat} (hi : s.marks[i]? = some .fresh) :
    (s.enter i).Sound g := by
  obtain ⟨hlt, -⟩ := List.getElem?_eq_some_iff.mp hi
  have hout : i ∉ s.trail := by simp [h.mem_trail, hi]
  have hleft : ∀ j : Nat, (s.marks.set i .entered)[j]? = some Mark.left ↔ s.marks[j]? = some Mark.left := by
    intro j
    by_cases hj : i = j
    · subst hj
      simp [List.getElem?_set_self hlt, hi]
    · simp [hj]
  refine ⟨by simp [Search.enter, h.length_marks], ?_, fun j => ?_, fun j k hj hk => ?_, fun j hj => ?_⟩
  · exact List.nodup_append.mpr ⟨h.trail_nodup, by simp,
      by simpa using fun j hj => ne_of_mem_of_not_mem hj hout⟩
  · by_cases hj : i = j
    · subst hj
      simp [Search.enter, hlt]
    · simp [Search.enter, hj, h.mem_trail, Ne.symm hj]
  · exact (hleft k).mpr (h.closed j k ((hleft j).mp hj) hk)
  · exact h.noReturn j ((hleft j).mp hj)

theorem Sound.closed_trans (h : s.Sound g) {i j : Nat} (hi : s.marks[i]? = some Mark.left)
    (hij : Relation.ReflTransGen g.Precedes i j) : s.marks[j]? = some Mark.left := by
  induction hij with
  | refl => exact hi
  | tail _ hjk ih => exact h.closed _ _ ih hjk

theorem Sound.leave (h : s.Sound g) {i : Nat} {trail : List Nat} (ht : s.trail = trail ++ [i])
    (hdeps : ∀ j, g.Precedes i j → s.marks[j]? = some Mark.left) :
    Sound g ⟨s.marks.set i .left, trail⟩ := by
  have hi : s.marks[i]? = some .entered := (h.mem_trail i).mp (by simp [ht])
  obtain ⟨hlt, -⟩ := List.getElem?_eq_some_iff.mp hi
  have hnd := h.trail_nodup
  rw [ht] at hnd
  obtain ⟨htrail, -, hdisj⟩ := List.nodup_append.mp hnd
  have hleft : ∀ j : Nat, (s.marks.set i .left)[j]? = some Mark.left ↔
      j = i ∨ s.marks[j]? = some Mark.left := by
    intro j
    by_cases hj : i = j
    · subst hj
      simp [hlt]
    · simp [hj, Ne.symm hj]
  refine ⟨by simp [h.length_marks], htrail, fun j => ?_, fun j k hj hk => ?_, fun j hj hcycle => ?_⟩
  · by_cases hj : i = j
    · subst hj
      have hout : i ∉ trail := fun hm => hdisj i hm i (by simp) rfl
      simp [hlt, hout]
    · have hm := h.mem_trail j
      simp only [ht, List.mem_append, List.mem_singleton, Ne.symm hj, or_false] at hm
      simp [hj, hm]
  · apply (hleft k).mpr
    rcases (hleft j).mp hj with rfl | hj
    · exact Or.inr (hdeps k hk)
    · exact Or.inr (h.closed j k hj hk)
  · rcases (hleft j).mp hj with rfl | hj
    · -- a way from `i` back to it would lead through a task that was left, and from there none does
      obtain ⟨k, hk, hback⟩ := Relation.TransGen.head'_iff.mp hcycle
      have := h.closed_trans (hdeps k hk) hback
      simp [hi] at this
    · exact h.noReturn j hj hcycle

end Search

variable {g : Graph}

/-- A visit that finds no cycle leaves the task and keeps the trail and what was left before. -/
structure Visited (g : Graph) (js : List Nat) (s s' : Search) : Prop where
  sound : s'.Sound g
  trail : s'.trail = s.trail
  kept : ∀ j : Nat, s.marks[j]? = some Mark.left → s'.marks[j]? = some Mark.left
  left : ∀ j ∈ js, s'.marks[j]? = some Mark.left

theorem Visited.trans {i : Nat} {js : List Nat} {s s' s'' : Search} (h : Visited g [i] s s')
    (h' : Visited g js s' s'') : Visited g (i :: js) s s'' := by
  refine ⟨h'.sound, h'.trail.trans h.trail, fun j hj => h'.kept j (h.kept j hj), ?_⟩
  exact List.forall_mem_cons.mpr ⟨h'.kept i (h.left i List.mem_cons_self), h'.left⟩

/-- Where all that depends on a task has been visited, the task is left. -/
theorem Visited.leave {i : Nat} {s after : Search} (hs : s.Sound g) (hi : s.marks[i]? = some .fresh)
    (h : Visited g (g.dependents i) (s.enter i) after) : Visited g [i] s (after.leave i) := by
  have htrail : after.trail = s.trail ++ [i] := h.trail
  have hleave : after.leave i = ⟨after.marks.set i .left, s.trail⟩ := by
    rw [Search.leave, htrail, List.dropLast_concat]
  have hlt : i < after.marks.length := by
    rw [h.sound.length_marks]
    exact hs.lt_size hi
  rw [hleave]
  refine ⟨h.sound.leave htrail fun j hj => h.left j (mem_dependents.mpr hj), rfl, fun j hj => ?_, ?_⟩
  · by_cases hji : i = j
    · subst hji
      simp [hi] at hj
    · have hkept := h.kept j (by simpa [Search.enter, hji] using hj)
      simpa [hji] using hkept
  · simp [hlt]

section search

variable (hrange : ∀ e ∈ g.edges, e.producer < g.size ∧ e.consumer < g.size)

include hrange

theorem dependents_lt (i : Nat) : ∀ j ∈ g.dependents i, j < g.size := by
  intro j hj
  obtain ⟨e, he, -, rfl⟩ := mem_dependents.mp hj
  exact (hrange e he).2

theorem Searches.visited {s s' : Search} {is entered : List Nat} (hs : s.Sound g)
    (his : ∀ i ∈ is, i < g.size) (h : Searches g s is entered (.ok s')) : Visited g is s s' := by
  generalize hresult : Except.ok s' = result at h
  induction h generalizing s' with
  | done =>
    obtain rfl := Except.ok.inj hresult
    exact ⟨hs, rfl, fun _ hj => hj, by simp⟩
  | @pass s i rest _ _ hi _ ih =>
    obtain ⟨hlt, hrest⟩ := List.forall_mem_cons.mp his
    have hmark : s.marks[i]? ≠ none := by
      rw [Ne, List.getElem?_eq_none_iff, hs.length_marks]
      omega
    have hleft : Visited g [i] s s := ⟨hs, rfl, fun _ hj => hj, by simpa using hi.resolve_left hmark⟩
    exact hleft.trans (ih hs hrest hresult)
  | meet => cases hresult
  | @enter s after i _ _ _ _ hi _ _ ihbelow ihrest =>
    have hbelow := ihbelow (hs.enter hi) (dependents_lt hrange i) rfl
    have hleft := hbelow.leave hs hi
    exact hleft.trans (ihrest hleft.sound (List.forall_mem_cons.mp his).2 hresult)
  | stop => cases hresult

theorem isAcyclic_of_findCycle (h : g.findCycle = .ok ()) : g.IsAcyclic := by
  obtain ⟨entered, result, hsearch, hresult⟩ := exists_searches g
  rw [h] at hresult
  obtain ⟨s, rfl⟩ : ∃ s, result = .ok s := by
    cases result with
    | error path => simp [Except.map] at hresult
    | ok s => exact ⟨s, rfl⟩
  have hall := hsearch.visited hrange (Search.start_sound g) fun i hi => List.mem_range.mp hi
  refine ⟨hrange, fun i hi => ?_⟩
  have hlt : i < g.size := by
    obtain ⟨j, ⟨e, he, rfl, -⟩, -⟩ := Relation.TransGen.head'_iff.mp hi
    exact (hrange e he).1
  exact hall.sound.noReturn i (hall.left i (List.mem_range.mpr hlt)) hi

omit hrange

/-- Tasks each of which reads something that the one before makes, the first again at the end. -/
structure Circle (g : Graph) (path : List Nat) : Prop where
  chain : path.IsChain g.Precedes
  closed : ∃ i r, path = i :: (r ++ [i]) ∧ (i :: r).Nodup

theorem Circle.exists_transGen {path : List Nat} (h : g.Circle path) :
    ∃ i, Relation.TransGen g.Precedes i i := by
  obtain ⟨i, r, rfl, -⟩ := h.closed
  obtain ⟨k, l, hkl⟩ : ∃ k l, r ++ [i] = k :: l := List.exists_cons_of_ne_nil (by simp)
  have hchain := h.chain
  rw [hkl, List.isChain_cons_cons] at hchain
  have hlast : (k :: l).getLast (List.cons_ne_nil k l) = i := by simp [← hkl]
  exact ⟨i, .head' hchain.1 (List.relationReflTransGen_of_exists_isChain_cons l hchain.2 hlast)⟩

/-- Where a task on the trail is met again, the trail from there on leads round. -/
theorem Search.Sound.circle {s : Search} (h : s.Sound g) {i : Nat} (hi : i ∈ s.trail)
    (hchain : (s.trail ++ [i]).IsChain g.Precedes) :
    g.Circle (s.trail.dropWhile (· ≠ i) ++ [i]) := by
  have hsuffix : s.trail.dropWhile (· ≠ i) <:+ s.trail := List.dropWhile_suffix _
  cases hd : s.trail.dropWhile (· ≠ i) with
  | nil =>
    have := List.dropWhile_eq_nil_iff.mp hd i hi
    simp at this
  | cons j r =>
    have hhead := List.head?_dropWhile_not (fun k => decide (k ≠ i)) s.trail
    rw [hd] at hhead
    obtain rfl : j = i := by simpa using hhead
    rw [hd] at hsuffix
    refine ⟨?_, j, r, rfl, h.trail_nodup.sublist hsuffix.sublist⟩
    obtain ⟨before, hbefore⟩ := hsuffix
    rw [← hbefore, List.append_assoc] at hchain
    exact hchain.right_of_append

include hrange

/-- The trail is a way, and the search goes on at the tasks that prolong it. -/
theorem Searches.circle {s : Search} {is entered path : List Nat} (hs : s.Sound g)
    (his : ∀ i ∈ is, i < g.size ∧ (s.trail ++ [i]).IsChain g.Precedes)
    (h : Searches g s is entered (.error path)) : g.Circle path := by
  have hprolong : ∀ {s : Search} {i : Nat}, (s.trail ++ [i]).IsChain g.Precedes →
      ∀ j ∈ g.dependents i, j < g.size ∧ ((s.enter i).trail ++ [j]).IsChain g.Precedes := by
    intro s i hchain j hj
    refine ⟨dependents_lt hrange i j hj, hchain.append (List.isChain_singleton j) fun a ha b hb => ?_⟩
    obtain rfl : i = a := by simpa using ha
    obtain rfl : j = b := by simpa using hb
    exact mem_dependents.mp hj
  generalize hresult : Except.error path = result at h
  induction h with
  | done => cases hresult
  | pass _ _ ih => exact ih hs (List.forall_mem_cons.mp his).2 hresult
  | @meet s i _ hi =>
    obtain rfl := Except.error.inj hresult
    exact hs.circle ((hs.mem_trail i).mpr hi) (his i List.mem_cons_self).2
  | @enter s after i _ _ _ _ hi hbelow _ _ ihrest =>
    have hvisited := hbelow.visited hrange (hs.enter hi) (dependents_lt hrange i)
    have hleft := hvisited.leave hs hi
    refine ihrest hleft.sound (fun j hj => ?_) hresult
    rw [hleft.trail]
    exact his j (List.mem_cons_of_mem i hj)
  | @stop s i _ _ _ hi _ ih =>
    exact ih (hs.enter hi) (hprolong (his i List.mem_cons_self).2) hresult

theorem circle_of_findCycle {path : List Nat} (h : g.findCycle = .error path) : g.Circle path := by
  obtain ⟨entered, result, hsearch, hresult⟩ := exists_searches g
  rw [h] at hresult
  obtain rfl : result = .error path := by
    cases result with
    | error path' => simpa [Except.map] using hresult
    | ok s => simp [Except.map] at hresult
  refine hsearch.circle hrange (Search.start_sound g) fun i hi => ⟨List.mem_range.mp hi, ?_⟩
  exact List.isChain_singleton i

end search

end SlotBuild.Graph
