import Mathlib.Data.List.Sort
import Mathlib.Data.Multiset.AddSub
import Mathlib.Logic.Relation
import SlotBuild.Graph.Select
import SlotBuild.Proofs.IndexSet

/-! Searches through a graph, one task at a time. A search comes to an end whatever it takes first,
since each step leaves less that is pending or can become so, and then it has found all that is
reached from where it began, and nothing else. -/

namespace SlotBuild.Graph

/-- A search on its way: the tasks that are still to be taken, each as often as it was met, and
those that were seen, in increasing order. -/
structure Worklist where
  pending : Multiset Nat
  seen : List Nat

/-- One step of a search along `next`, which may take any pending task. What was seen before is
dropped; anything else is seen from now on, and what comes next is pending. -/
inductive Takes (next : Nat → List Nat) : Worklist → Worklist → Prop
  | drop {i : Nat} {pending : Multiset Nat} {seen : List Nat} (hi : i ∈ seen) :
      Takes next ⟨i ::ₘ pending, seen⟩ ⟨pending, seen⟩
  | see {i : Nat} {pending : Multiset Nat} {seen : List Nat} (hi : i ∉ seen) :
      Takes next ⟨i ::ₘ pending, seen⟩ ⟨next i + pending, insertOnce i seen⟩

/-- The search from `w` finds `found`, in whatever order the tasks are taken. -/
structure Settles (next : Nat → List Nat) (w : Worklist) (found : List Nat) : Prop where
  /-- No search goes on for ever. -/
  ends : Acc (fun after before => Takes next before after) w
  reached : Relation.ReflTransGen (Takes next) w ⟨0, found⟩
  only : ∀ last, Relation.ReflTransGen (Takes next) w last → (∀ after, ¬ Takes next last after) →
    last = ⟨0, found⟩

variable {next : Nat → List Nat} {edges : List Edge} {key : Edge → Nat} {w after : Worklist}
  {roots : List Nat}

theorem exists_takes (next : Nat → List Nat) (hw : w.pending ≠ 0) : ∃ after, Takes next w after := by
  obtain ⟨pending, seen⟩ := w
  obtain ⟨i, hi⟩ := Multiset.exists_mem_of_ne_zero hw
  obtain ⟨rest, rfl⟩ := Multiset.exists_cons_of_mem hi
  by_cases hseen : i ∈ seen
  · exact ⟨_, .drop hseen⟩
  · exact ⟨_, .see hseen⟩

/-- How far a search from `roots` has come: nothing that follows is lost, and nothing else was met. -/
structure Explores (next : Nat → List Nat) (roots : List Nat) (w : Worklist) : Prop where
  increasing : w.seen.Pairwise (· < ·)
  rooted : ∀ r ∈ roots, r ∈ w.seen ∨ r ∈ w.pending
  closed : ∀ i ∈ w.seen, ∀ j ∈ next i, j ∈ w.seen ∨ j ∈ w.pending
  reached : ∀ j, j ∈ w.seen ∨ j ∈ w.pending →
    ∃ r ∈ roots, Relation.ReflTransGen (fun a b => b ∈ next a) r j

namespace Explores

theorem start (next : Nat → List Nat) (roots : List Nat) : Explores next roots ⟨roots, []⟩ where
  increasing := .nil
  rooted _ hr := Or.inr hr
  closed _ hi := absurd hi List.not_mem_nil
  reached j hj := ⟨j, hj.resolve_left List.not_mem_nil, .refl⟩

theorem step (hw : Explores next roots w) (h : Takes next w after) : Explores next roots after := by
  cases h with
  | @drop i pending seen hi =>
    have hknown : ∀ j, j ∈ seen ∨ j ∈ i ::ₘ pending ↔ j ∈ seen ∨ j ∈ pending := by
      intro j
      rw [Multiset.mem_cons]
      constructor
      · rintro (hj | rfl | hj)
        exacts [Or.inl hj, Or.inl hi, Or.inr hj]
      · exact Or.imp_right Or.inr
    exact ⟨hw.increasing, fun r hr => (hknown r).mp (hw.rooted r hr),
      fun k hk j hj => (hknown j).mp (hw.closed k hk j hj), fun j hj => hw.reached j ((hknown j).mpr hj)⟩
  | @see i pending seen hi =>
    have hknown : ∀ j, j ∈ insertOnce i seen ∨ j ∈ (next i + pending : Multiset Nat) ↔
        (j ∈ seen ∨ j ∈ i ::ₘ pending) ∨ j ∈ next i := by
      intro j
      rw [mem_insertOnce, Multiset.mem_add, Multiset.mem_cons, Multiset.mem_coe]
      tauto
    refine ⟨insertOnce_increasing hw.increasing, fun r hr => (hknown r).mpr (Or.inl (hw.rooted r hr)),
      fun k hk j hj => (hknown j).mpr ?_, fun j hj => ?_⟩
    · rcases mem_insertOnce.mp hk with rfl | hk
      · exact Or.inr hj
      · exact Or.inl (hw.closed k hk j hj)
    · rcases (hknown j).mp hj with hj | hj
      · exact hw.reached j hj
      · obtain ⟨r, hr, hri⟩ := hw.reached i (Or.inr (Multiset.mem_cons_self i pending))
        exact ⟨r, hr, hri.tail hj⟩

theorem run (hw : Explores next roots w) (h : Relation.ReflTransGen (Takes next) w after) :
    Explores next roots after := by
  induction h with
  | refl => exact hw
  | tail _ htake ih => exact ih.step htake

theorem mem_found {found : List Nat} (h : Explores next roots ⟨0, found⟩) {j : Nat} :
    j ∈ found ↔ ∃ r ∈ roots, Relation.ReflTransGen (fun a b => b ∈ next a) r j := by
  have hfound : ∀ {k}, k ∈ found ∨ k ∈ (0 : Multiset Nat) → k ∈ found :=
    fun hk => hk.resolve_right (Multiset.notMem_zero _)
  constructor
  · exact fun hj => h.reached j (Or.inl hj)
  · rintro ⟨r, hr, hrj⟩
    induction hrj with
    | refl => exact hfound (h.rooted r hr)
    | tail _ hab ih => exact hfound (h.closed _ ih _ hab)

end Explores

theorem countP_insertOnce {seen : List Nat} {i : Nat} (hi : i ∉ seen) :
    edges.countP (fun e => key e ∉ insertOnce i seen) + edges.countP (fun e => key e = i) =
      edges.countP fun e => key e ∉ seen := by
  induction edges with
  | nil => rfl
  | cons e edges ih =>
    simp only [List.countP_cons, mem_insertOnce, not_or, decide_eq_true_eq] at ih ⊢
    by_cases he : key e = i
    · simp only [he, hi, not_true_eq_false, false_and, if_false, if_true, not_false_eq_true]
      omega
    · simp only [he, not_false_eq_true, true_and, if_false]
      omega

/-- What is pending, and the edges at whose `key` there is a task that was not seen yet. -/
def Worklist.load (edges : List Edge) (key : Edge → Nat) (w : Worklist) : Nat :=
  w.pending.card + edges.countP fun e => key e ∉ w.seen

section edges

variable (hnext : ∀ i, (next i).length ≤ edges.countP fun e => key e = i)

include hnext

/-- A step may make more tasks pending than it takes, but then it uses up as many edges. -/
theorem Takes.load_lt (h : Takes next w after) : after.load edges key < w.load edges key := by
  cases h with
  | drop hi =>
    simp only [Worklist.load, Multiset.card_cons]
    omega
  | @see i pending seen hi =>
    have hused : edges.countP (fun e => key e ∉ insertOnce i seen) +
        edges.countP (fun e => key e = i) = edges.countP fun e => key e ∉ seen := countP_insertOnce hi
    have hmore := hnext i
    simp only [Worklist.load, Multiset.card_cons, Multiset.card_add, Multiset.coe_card]
    omega

theorem acc_takes (w : Worklist) : Acc (fun after before => Takes next before after) w := by
  have hload : Acc (InvImage (· < ·) (Worklist.load edges key)) w :=
    InvImage.accessible _ (Nat.lt_wfRel.wf.apply _)
  exact Subrelation.accessible (Takes.load_lt hnext) hload

/-- With enough fuel `reach` is one of the searches: it takes what was met last. -/
theorem reach_takes {fuel : Nat} {pending seen : List Nat}
    (hfuel : Worklist.load edges key ⟨pending, seen⟩ < fuel) :
    Relation.ReflTransGen (Takes next) ⟨pending, seen⟩ ⟨0, reach next fuel pending seen⟩ := by
  induction fuel generalizing pending seen with
  | zero => omega
  | succ fuel ih =>
    cases pending with
    | nil => exact .refl
    | cons i pending =>
      simp only [reach]
      split_ifs with hi
      · have htake : Takes next ⟨↑(i :: pending), seen⟩ ⟨pending, seen⟩ := by
          rw [← Multiset.cons_coe]
          exact .drop (by simpa using hi)
        have hless := htake.load_lt hnext
        exact .head htake (ih (by omega))
      · have htake : Takes next ⟨↑(i :: pending), seen⟩ ⟨↑(next i ++ pending), insertOnce i seen⟩ := by
          rw [← Multiset.cons_coe, ← Multiset.coe_add]
          exact .see (by simpa using hi)
        have hless := htake.load_lt hnext
        exact .head htake (ih (by omega))

variable {fuel : Nat} (hfuel : roots.length + edges.length < fuel)

include hfuel

theorem start_reach_takes : Relation.ReflTransGen (Takes next) ⟨roots, []⟩ ⟨0, reach next fuel roots []⟩ := by
  have hload : Worklist.load edges key ⟨roots, []⟩ < fuel := by
    have hcount : edges.countP (fun e => key e ∉ ([] : List Nat)) ≤ edges.length := List.countP_le_length
    simp only [Worklist.load, Multiset.coe_card]
    omega
  exact reach_takes hnext hload

theorem explores_reach : Explores next roots ⟨0, reach next fuel roots []⟩ :=
  (Explores.start next roots).run (start_reach_takes hnext hfuel)

/-- What `reach` computes is what every search for it finds. -/
theorem settles_reach : Settles next ⟨roots, []⟩ (reach next fuel roots []) := by
  refine ⟨acc_takes hnext _, start_reach_takes hnext hfuel, ?_⟩
  rintro ⟨pending, seen⟩ hrun hstuck
  obtain rfl : pending = 0 := by
    by_contra hpending
    obtain ⟨after, htake⟩ := exists_takes next (w := ⟨pending, seen⟩) hpending
    exact hstuck after htake
  have hseen := (Explores.start next roots).run hrun
  have hfound := explores_reach hnext hfuel
  have hsame : seen = reach next fuel roots [] := hseen.increasing.eq_of_mem_iff hfound.increasing fun j => by
    rw [hseen.mem_found, hfound.mem_found]
  rw [hsame]

end edges

end SlotBuild.Graph
