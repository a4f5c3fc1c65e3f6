import SlotBuild.Proofs.Keyed
import SlotBuild.Proofs.Toml.Sections

/-! Free settings are kept in the order of their keys, in every table of them. So the change of
order that comes with writing and reading them again is undone. -/

namespace SlotBuild.Toml

namespace Value

mutual

/-- Every table has its keys in order. -/
def InOrder : Value → Prop
  | array xs => ElementsInOrder xs
  | table es => Keyed.Ordered es ∧ EntriesInOrder es
  | _ => True

def ElementsInOrder : List Value → Prop
  | [] => True
  | x :: xs => x.InOrder ∧ ElementsInOrder xs

def EntriesInOrder : List (String × Value) → Prop
  | [] => True
  | (_, x) :: es => x.InOrder ∧ EntriesInOrder es

end

variable {v : Value} {xs : List Value} {es : Entries}

theorem elementsInOrder_iff : ElementsInOrder xs ↔ ∀ x ∈ xs, x.InOrder := by
  induction xs with
  | nil => simp [ElementsInOrder]
  | cons x xs ih => rw [ElementsInOrder, ih, List.forall_mem_cons]

theorem entriesInOrder_iff : EntriesInOrder es ↔ ∀ e ∈ es, e.2.InOrder := by
  induction es with
  | nil => simp [EntriesInOrder]
  | cons e es ih => rw [EntriesInOrder, ih, List.forall_mem_cons]

theorem sortedElements_eq_map (xs : List Value) : sortedElements xs = xs.map sorted := by
  induction xs with
  | nil => rfl
  | cons x xs ih => rw [sortedElements, ih, List.map_cons]

theorem sortedEntries_eq_map (es : Entries) :
    sortedEntries es = es.map fun e => (e.1, e.2.sorted) := by
  induction es with
  | nil => rfl
  | cons e es ih => rw [sortedEntries, ih, List.map_cons]

theorem sorted_inOrder (v : Value) : v.sorted.InOrder := by
  induction v using Value.induct with
  | array xs ih =>
    rw [sorted, InOrder, elementsInOrder_iff, sortedElements_eq_map, List.forall_mem_map]
    exact ih
  | table es ih =>
    rw [sorted, InOrder, entriesInOrder_iff, sortedEntries_eq_map]
    refine ⟨Keyed.Ordered.ofList _, fun e he => ?_⟩
    obtain ⟨f, hf, rfl⟩ := List.mem_map.mp (Keyed.mem_ofList he)
    exact ih f hf
  | _ => trivial

theorem Sound.sorted (h : v.Sound) : v.sorted.Sound := by
  induction v using Value.induct with
  | array xs ih =>
    rw [Sound, elementsSound_iff] at h
    rw [Value.sorted, Sound, elementsSound_iff, sortedElements_eq_map, List.forall_mem_map]
    exact fun x hx => ih x hx (h x hx)
  | table es ih =>
    rw [Sound, entriesSound_iff] at h
    rw [Value.sorted, Sound, entriesSound_iff, sortedEntries_eq_map]
    refine ⟨(Keyed.Ordered.ofList _).nodup, fun e he => ?_⟩
    obtain ⟨f, hf, rfl⟩ := List.mem_map.mp (Keyed.mem_ofList he)
    exact ih f hf (h.2 f hf)
  | _ => exact h

theorem InOrder.sorted_eq (h : v.InOrder) : v.sorted = v := by
  induction v using Value.induct with
  | array xs ih =>
    rw [InOrder, elementsInOrder_iff] at h
    have helements : xs.map sorted = xs.map id := List.map_congr_left fun x hx => ih x hx (h x hx)
    rw [sorted, sortedElements_eq_map, helements, List.map_id]
  | table es ih =>
    rw [InOrder, entriesInOrder_iff] at h
    have hentries : es.map (fun e => (e.1, e.2.sorted)) = es.map id :=
      List.map_congr_left fun e he => Prod.ext rfl (ih e he (h.2 e he))
    rw [sorted, sortedEntries_eq_map, hentries, List.map_id, h.1.ofList_eq]
  | _ => rfl

end Value

theorem arrangedElements_eq_map (xs : List Value) : arrangedElements xs = xs.map arranged := by
  induction xs with
  | nil => rfl
  | cons x xs ih => rw [arrangedElements, ih, List.map_cons]

theorem arrangedTables_eq_map (es : Entries) :
    arrangedTables es = (es.filter fun e => hasHeader e.2).map fun e => (e.1, arranged e.2) := by
  induction es with
  | nil => rfl
  | cons e es ih =>
    rw [arrangedTables, ih, List.filter_cons]
    split <;> rfl

/-- Entries whose tables were moved behind all else are the same in the order of their keys. -/
theorem ofList_arranged {es : Entries} (hkeys : Keyed.Ordered es) (horder : ∀ e ∈ es, e.2.InOrder)
    (h : ∀ e ∈ es, (arranged e.2).sorted = e.2) :
    Keyed.ofList ((bodyOf es ++ arrangedTables es).map fun e => (e.1, e.2.sorted)) = es := by
  have hbody : (bodyOf es).map (fun e => (e.1, e.2.sorted)) = (bodyOf es).map id :=
    List.map_congr_left fun e he => Prod.ext rfl (horder e (List.mem_filter.mp he).1).sorted_eq
  have htables : (arrangedTables es).map (fun e => (e.1, e.2.sorted)) =
      (es.filter fun e => hasHeader e.2).map id := by
    rw [arrangedTables_eq_map, List.map_map]
    exact List.map_congr_left fun e he => Prod.ext rfl (h e (List.mem_filter.mp he).1)
  rw [List.map_append, hbody, htables, List.map_id, List.map_id]
  refine hkeys.ofList_eq_of_perm (List.perm_append_comm.trans ?_)
  exact List.filter_append_perm (fun e => hasHeader e.2) es

theorem Value.InOrder.sorted_arranged {v : Value} (h : v.InOrder) : (arranged v).sorted = v := by
  induction v using Value.induct with
  | array xs ih =>
    rw [InOrder, elementsInOrder_iff] at h
    have helements : xs.map (sorted ∘ arranged) = xs.map id :=
      List.map_congr_left fun x hx => ih x hx (h x hx)
    rw [arranged, sorted, sortedElements_eq_map, arrangedElements_eq_map, List.map_map, helements,
      List.map_id]
  | table es ih =>
    rw [InOrder, entriesInOrder_iff] at h
    rw [arranged, sorted, sortedEntries_eq_map,
      ofList_arranged h.1 h.2 fun e he => ih e he (h.2 e he)]
  | _ => rfl

mutual

/-- Something in the value is not a number, so the value does not even equal itself. -/
def Value.holdsNan : Value → Bool
  | .float .nan => true
  | .array xs => elementsHoldNan xs
  | .table es => entriesHoldNan es
  | _ => false

def elementsHoldNan : List Value → Bool
  | [] => false
  | x :: xs => x.holdsNan || elementsHoldNan xs

def entriesHoldNan : List (String × Value) → Bool
  | [] => false
  | (_, x) :: es => x.holdsNan || entriesHoldNan es

end

theorem elementsHoldNan_iff {xs : List Value} :
    elementsHoldNan xs = false ↔ ∀ x ∈ xs, x.holdsNan = false := by
  induction xs with
  | nil => simp [elementsHoldNan]
  | cons x xs ih => rw [elementsHoldNan, Bool.or_eq_false_iff, ih, List.forall_mem_cons]

theorem entriesHoldNan_iff {es : Entries} :
    entriesHoldNan es = false ↔ ∀ e ∈ es, e.2.holdsNan = false := by
  induction es with
  | nil => simp [entriesHoldNan]
  | cons e es ih => rw [entriesHoldNan, Bool.or_eq_false_iff, ih, List.forall_mem_cons]

namespace Value

variable {es : Entries} {v : Value}

theorem entriesEqual_self (h : ∀ e ∈ es, e.2.equals e.2 = true) : entriesEqual es es = true := by
  induction es with
  | nil => rfl
  | cons e es ih =>
    obtain ⟨he, hes⟩ := List.forall_mem_cons.mp h
    simp [entriesEqual, he, ih hes]

theorem equals_self (h : v.holdsNan = false) : v.equals v = true := by
  induction v using Value.induct with
  | float x =>
    cases x with
    | nan => cases h
    | infinite negative => simp [equals, Binary64.equals]
    | finite negative s e => cases s <;> simp [equals, Binary64.equals]
  | array xs ih =>
    rw [holdsNan, elementsHoldNan_iff] at h
    rw [equals]
    induction xs with
    | nil => rfl
    | cons x xs ihxs =>
      obtain ⟨ihx, ihrest⟩ := List.forall_mem_cons.mp ih
      obtain ⟨hx, hxs⟩ := List.forall_mem_cons.mp h
      rw [elementsEqual, ihx hx, ihxs ihrest hxs, Bool.and_true]
  | table es ih =>
    rw [holdsNan, entriesHoldNan_iff] at h
    exact entriesEqual_self fun e he => ih e he (h e he)
  | _ => simp [equals]

end Value

end SlotBuild.Toml
