import SlotBuild.Proofs.Graph.Acceptance
import SlotBuild.Proofs.Graph.Closure
import SlotBuild.Proofs.Graph.Frontier

/-! Among all the sequences in which the tasks of a graph can be run, its order is the first when
they are compared place by place. -/

namespace SlotBuild

namespace Graph

/-- Every task once, and the maker of what an edge carries before the reader. -/
structure Sequence (g : Graph) (is : List Nat) : Prop where
  perm : is.Perm (List.range g.size)
  forward : ∀ e ∈ g.edges, is.idxOf e.producer < is.idxOf e.consumer

/-- What is left of a sequence after the tasks in `done`. -/
structure Remainder (g : Graph) (done : Finset Nat) (is : List Nat) : Prop where
  nodup : is.Nodup
  mem_iff : ∀ i, i ∈ is ↔ i < g.size ∧ i ∉ done
  forward : ∀ d i, g.Precedes d i → i ∈ is → d ∈ done ∨ is.idxOf d < is.idxOf i

variable {g : Graph}

theorem Sequence.remainder {is : List Nat} (h : g.Sequence is) : g.Remainder ∅ is := by
  refine ⟨h.perm.nodup_iff.mpr List.nodup_range, fun i => ?_, ?_⟩
  · simp [h.perm.mem_iff]
  · rintro d i ⟨e, he, rfl, rfl⟩ -
    exact Or.inr (h.forward e he)

namespace Remainder

variable {done : Finset Nat} {i : Nat} {is : List Nat}

theorem head_ready (h : g.Remainder done (i :: is)) : ∀ d, g.Precedes d i → d ∈ done := by
  intro d hd
  have hbefore := h.forward d i hd List.mem_cons_self
  rw [List.idxOf_cons_self] at hbefore
  exact hbefore.resolve_right (Nat.not_lt_zero _)

theorem tail (h : g.Remainder done (i :: is)) : g.Remainder (insert i done) is := by
  obtain ⟨hi, hnodup⟩ := List.nodup_cons.mp h.nodup
  refine ⟨hnodup, fun j => ?_, fun d j hd hj => ?_⟩
  · have hmem := h.mem_iff j
    rw [List.mem_cons] at hmem
    rw [Finset.mem_insert, not_or]
    constructor
    · intro hj
      obtain ⟨hlt, hnew⟩ := hmem.mp (Or.inr hj)
      exact ⟨hlt, fun he => hi (he ▸ hj), hnew⟩
    · rintro ⟨hlt, hne, hnew⟩
      exact (hmem.mpr ⟨hlt, hnew⟩).resolve_left hne
  · have hij : i ≠ j := fun he => hi (he ▸ hj)
    by_cases hid : i = d
    · exact Or.inl (hid ▸ Finset.mem_insert_self i done)
    · rcases h.forward d j hd (List.mem_cons_of_mem i hj) with hdone | hlt
      · exact Or.inl (Finset.mem_insert_of_mem hdone)
      · rw [List.idxOf_cons_ne _ hid, List.idxOf_cons_ne _ hij] at hlt
        exact Or.inr (by omega)

end Remainder

/-- Where the two differ for the first time, both tasks were ready, and the smallest was taken. -/
theorem orderFrom_least {fuel : Nat} {done : Finset Nat} {f : Frontier} {is : List Nat}
    (h : f.Tracks g done done) (hfuel : g.size ≤ done.card + fuel) (his : g.Remainder done is) :
    is = g.orderFrom fuel f ∨ List.Lex (· < ·) (g.orderFrom fuel f) is := by
  -- Along the other sequence: as long as the two agree, the same tasks are done in both.
  induction is generalizing fuel done f with
  | nil =>
    have hready : f.ready = [] := by
      refine List.eq_nil_iff_forall_not_mem.mpr fun i hi => ?_
      obtain ⟨hlt, hnew, -⟩ := (h.mem_ready i).mp hi
      exact List.not_mem_nil ((his.mem_iff i).mpr ⟨hlt, hnew⟩)
    exact Or.inl (orderFrom_eq_nil hready).symm
  | cons j is ih =>
    obtain ⟨hj, hnew⟩ := (his.mem_iff j).mp List.mem_cons_self
    have hready : j ∈ f.ready := (h.mem_ready j).mpr ⟨hj, hnew, his.head_ready⟩
    cases hpop : f.pop? with
    | none => simp [Frontier.pop?_eq_none.mp hpop] at hready
    | some next =>
      obtain ⟨i, rest⟩ := next
      have hlt := h.card_lt hpop
      obtain ⟨fuel, rfl⟩ : ∃ n, fuel = n + 1 := ⟨fuel - 1, by omega⟩
      simp only [orderFrom, hpop]
      by_cases hij : i = j
      · subst hij
        obtain ⟨-, hnext, hcard⟩ := h.advance hpop
        have hfuel' : g.size ≤ (insert i done).card + fuel := by omega
        rcases ih hnext hfuel' his.tail with hsame | hless
        · exact Or.inl (by rw [← hsame])
        · exact Or.inr (.cons hless)
      · have hle := h.le_of_pop? hpop j hready
        exact Or.inr (.rel (by omega))

theorem order_sequence (hg : g.IsAcyclic) : g.Sequence g.order := by
  have hperm := order_perm hg
  refine ⟨hperm, fun e he => ?_⟩
  have hconsumer : e.consumer ∈ g.order :=
    hperm.mem_iff.mpr (List.mem_range.mpr (hg.inRange e he).2)
  obtain ⟨before, after, horder⟩ := List.append_of_mem hconsumer
  have hproducer : e.producer ∈ before := mem_before_of_transGen horder (.single ⟨e, he, rfl, rfl⟩)
  have hnodup : g.order.Nodup := hperm.nodup_iff.mpr List.nodup_range
  rw [horder] at hnodup ⊢
  have hout : e.consumer ∉ before := fun hm =>
    List.disjoint_of_nodup_append hnodup hm List.mem_cons_self
  rw [List.idxOf_append_of_mem hproducer, List.idxOf_append_of_notMem hout, List.idxOf_cons_self]
  exact List.idxOf_lt_length_of_mem hproducer

variable {c : Catalog} {supplies : List SlotId}

/-- The order of a graph is one of the sequences in which its tasks can be run, and of these the one
that comes first lexicographically. -/
theorem order_least (h : BuiltFrom c supplies g) : g.Sequence g.order ∧
    ∀ is, g.Sequence is → is ≠ g.order → List.Lex (· < ·) g.order is := by
  obtain ⟨-, hvalid⟩ := h.valid
  refine ⟨order_sequence hvalid.acyclic, fun is his hne => ?_⟩
  have hleast : is = g.order ∨ List.Lex (· < ·) g.order is :=
    orderFrom_least (Frontier.start_tracks g) (by simp) his.remainder
  exact hleast.resolve_left hne

end Graph

namespace Merge

/-- The task that joins the halves was declared first; the halves may go in either order. -/
theorem halves_in_order : Graph.BuiltFrom catalog ["src"] graph ∧ graph.order = [1, 2, 0] ∧
    graph.Sequence graph.order ∧ graph.Sequence [2, 1, 0] ∧ List.Lex (· < ·) graph.order [2, 1, 0] := by
  have hbuilt : Graph.BuiltFrom catalog ["src"] graph :=
    .build (show Graph.build catalog ["src"] tasks = .ok graph from rfl)
  have horder : graph.order = [1, 2, 0] := by decide
  have hswapped : graph.Sequence [2, 1, 0] := ⟨by decide, by decide⟩
  obtain ⟨hsequence, hleast⟩ := Graph.order_least hbuilt
  exact ⟨hbuilt, horder, hsequence, hswapped, hleast [2, 1, 0] hswapped (by rw [horder]; decide)⟩

end Merge

end SlotBuild
