import SlotBuild.Evaluation
import SlotBuild.Proofs.Graph.Valid

/-! What a ledger holds after records were bound: a record takes the place of an earlier one of its
producer, and of all others where the slot is not appendable. -/

namespace SlotBuild

open Ledger (recordsAt bound)

/-- Every record stands under the slot that it names. -/
def Generation.Filed (g : Generation) : Prop := ∀ s, ∀ r ∈ recordsAt g s, r.slot = s

/-- No producer has two records in a slot. -/
def Generation.Single (g : Generation) : Prop := ∀ s, ((recordsAt g s).map (·.producer)).Nodup

theorem Generation.recordsIn_perm (g : Generation) (s : SlotId) :
    (g.recordsIn s).Perm (recordsAt g s) := List.mergeSort_perm _ _

theorem Generation.Single.filter_eq {g : Generation} (h : g.Single) {s : SlotId} {r : Record}
    (hr : r ∈ recordsAt g s) : (g.recordsIn s).filter (fun x => x.producer = r.producer) = [r] := by
  have hnd : ((g.recordsIn s).map (·.producer)).Nodup := ((g.recordsIn_perm s).map _).nodup_iff.mpr (h s)
  have hm : r ∈ g.recordsIn s := (g.recordsIn_perm s).mem_iff.mpr hr
  generalize g.recordsIn s = xs at hnd hm
  induction xs with
  | nil => simp at hm
  | cons x xs ih =>
    obtain ⟨hx, hnd⟩ := List.nodup_cons.mp hnd
    rcases List.mem_cons.mp hm with heq | hm
    · subst heq
      have hnone : xs.filter (fun x => x.producer = r.producer) = [] := by
        apply List.filter_eq_nil_iff.mpr
        intro y hy
        have hne : y.producer ≠ r.producer := fun hyr => hx (List.mem_map.mpr ⟨y, hy, hyr⟩)
        simpa using hne
      rw [List.filter_cons_of_pos (by simp), hnone]
    · have hne : x.producer ≠ r.producer := fun hxr => hx (List.mem_map.mpr ⟨r, hm, hxr.symm⟩)
      rw [List.filter_cons_of_neg (by simpa using hne), ih hnd hm]

@[simp] theorem Generation.recordsAt_empty (s : SlotId) : recordsAt empty s = [] := rfl

theorem Generation.recordsAt_put (g : Generation) (s : SlotId) (rs : List Record) (s' : SlotId) :
    recordsAt (g.put s rs) s' = if s = s' then rs else recordsAt g s' := by
  simp only [recordsAt, put, Keyed.get?_put]
  by_cases h : s = s' <;> simp [h]

theorem Generation.mem_recordsIn {g : Generation} {s : SlotId} {r : Record} :
    r ∈ g.recordsIn s ↔ r ∈ recordsAt g s := (g.recordsIn_perm s).mem_iff

namespace Ledger

variable {l : Ledger} {s : SlotId} {rs : List Record}

theorem recordsAt_withRecords (l : Ledger) (s : SlotId) (rs : List Record) (s' : SlotId) :
    recordsAt (l.withRecords s rs).current s' = if s = s' then rs else recordsAt l.current s' :=
  l.current.recordsAt_put s rs s'

@[simp] theorem recordsAt_after (path : Path) (g : Generation) (s : SlotId) :
    recordsAt (after path g).current s = [] := rfl

variable {slot : Slot} {r : Record}

theorem mem_bound {x : Record} (h : x ∈ bound slot r rs) : x = r ∨ x ∈ rs := by
  by_cases happ : slot.appendable = true
  · rw [bound, if_pos happ] at h
    rcases List.mem_append.mp h with h | h
    · exact Or.inr (List.mem_of_mem_filter h)
    · exact Or.inl (List.mem_singleton.mp h)
  · rw [bound, if_neg happ] at h
    exact Or.inl (List.mem_singleton.mp h)

theorem mem_bound_self : r ∈ bound slot r rs := by
  by_cases happ : slot.appendable = true <;> simp [bound, happ]

theorem bound_single (h : (rs.map (·.producer)).Nodup) :
    ((bound slot r rs).map (·.producer)).Nodup := by
  by_cases happ : slot.appendable = true
  · rw [bound, if_pos happ, List.map_append]
    refine List.nodup_append.mpr ⟨h.sublist (List.filter_sublist.map _), by simp, ?_⟩
    rintro q hq q' hq' rfl
    obtain ⟨x, hx, rfl⟩ := List.mem_map.mp hq
    have heq : x.producer = r.producer := by simpa using hq'
    have hne : x.producer ≠ r.producer := by simpa using (List.mem_filter.mp hx).2
    exact hne heq
  · simp [bound, happ]

theorem bound_bound {r' : Record} (h : r'.producer = r.producer) :
    bound slot r' (bound slot r rs) = bound slot r' rs := by
  by_cases happ : slot.appendable = true
  · simp [bound, happ, List.filter_append, List.filter_filter, h]
  · simp [bound, happ]

theorem foldl_bound {q : Option TaskId} (hrs : ∀ x ∈ r :: rs, x.producer = q) (xs : List Record) :
    (r :: rs).foldl (fun xs x => bound slot x xs) xs = bound slot ((r :: rs).getLast (by simp)) xs := by
  induction rs generalizing r with
  | nil => rfl
  | cons r' rs ih =>
    have h := hrs r List.mem_cons_self
    have h' := hrs r' (by simp)
    rw [List.getLast_cons (by simp), ← ih fun x hx => hrs x (List.mem_cons_of_mem r hx)]
    simp only [List.foldl_cons]
    rw [bound_bound (h'.trans h.symm)]

end Ledger

variable {c : Catalog} {l l' : Ledger} {rs : List Record}

theorem bind_ok {r : Record} : bind c l r = .ok l' ↔ ∃ slot, c.find? r.slot = some slot ∧
    l' = l.withRecords r.slot (bound slot r (recordsAt l.current r.slot)) := by
  rw [bind, bind_eq_ok]
  simp only [Catalog.lookup_eq_ok]
  refine exists_congr fun slot => and_congr_right fun hf => ?_
  simp [Ledger.record, Catalog.id_of_find? hf, eq_comm]

theorem bindAll_previous (c : Catalog) (l : Ledger) (rs : List Record) :
    (bindAll c l rs).2.previous = l.previous := by
  induction rs generalizing l with
  | nil => rfl
  | cons r rs ih =>
    cases hb : bind c l r with
    | error e => rw [bindAll, hb]
    | ok l' =>
      obtain ⟨slot, -, rfl⟩ := bind_ok.mp hb
      rw [bindAll, hb]
      exact ih _

theorem bindAll_path (c : Catalog) (l : Ledger) (rs : List Record) : (bindAll c l rs).2.path = l.path := by
  induction rs generalizing l with
  | nil => rfl
  | cons r rs ih =>
    cases hb : bind c l r with
    | error e => rw [bindAll, hb]
    | ok l' =>
      obtain ⟨slot, -, rfl⟩ := bind_ok.mp hb
      rw [bindAll, hb]
      exact ih _

theorem bindAll_of_declared (h : ∀ r ∈ rs, ∃ slot, c.find? r.slot = some slot) (l : Ledger) :
    ∃ l', bindAll c l rs = (.ok (), l') := by
  induction rs generalizing l with
  | nil => exact ⟨l, rfl⟩
  | cons r rs ih =>
    obtain ⟨slot, hslot⟩ := h r List.mem_cons_self
    rw [bindAll, bind_ok.mpr ⟨slot, hslot, rfl⟩]
    exact ih (fun x hx => h x (List.mem_cons_of_mem r hx)) _

theorem declared_of_bindAll (h : bindAll c l rs = (.ok (), l')) :
    ∀ r ∈ rs, ∃ slot, c.find? r.slot = some slot := by
  induction rs generalizing l with
  | nil => simp
  | cons r rs ih =>
    cases hb : bind c l r with
    | error e => simp [bindAll, hb] at h
    | ok l₁ =>
      rw [bindAll, hb] at h
      obtain ⟨slot, hslot, -⟩ := bind_ok.mp hb
      exact List.forall_mem_cons.mpr ⟨⟨slot, hslot⟩, ih h⟩

theorem mem_bindAll {r : Record} {s : SlotId} (h : r ∈ recordsAt (bindAll c l rs).2.current s) :
    r ∈ recordsAt l.current s ∨ r ∈ rs ∧ r.slot = s := by
  induction rs generalizing l with
  | nil => exact Or.inl h
  | cons x rs ih =>
    cases hb : bind c l x with
    | error e =>
      rw [bindAll, hb] at h
      exact Or.inl h
    | ok l' =>
      rw [bindAll, hb] at h
      obtain ⟨slot, -, rfl⟩ := bind_ok.mp hb
      rcases ih h with h | ⟨hr, hs⟩
      · rw [Ledger.recordsAt_withRecords] at h
        by_cases hx : x.slot = s
        · rw [if_pos hx] at h
          rcases Ledger.mem_bound h with rfl | h
          · exact Or.inr ⟨List.mem_cons_self, hx⟩
          · exact Or.inl (hx ▸ h)
        · rw [if_neg hx] at h
          exact Or.inl h
      · exact Or.inr ⟨List.mem_cons_of_mem x hr, hs⟩

theorem bindAll_single (h : l.current.Single) (c : Catalog) (rs : List Record) :
    (bindAll c l rs).2.current.Single := by
  induction rs generalizing l with
  | nil => exact h
  | cons r rs ih =>
    cases hb : bind c l r with
    | error e =>
      rw [bindAll, hb]
      exact h
    | ok l' =>
      obtain ⟨slot, -, rfl⟩ := bind_ok.mp hb
      rw [bindAll, hb]
      refine ih fun s => ?_
      rw [Ledger.recordsAt_withRecords]
      by_cases hs : r.slot = s
      · rw [if_pos hs]
        exact Ledger.bound_single (h r.slot)
      · rw [if_neg hs]
        exact h s

theorem recordsAt_bindAll (h : bindAll c l rs = (.ok (), l')) {s : SlotId} {slot : Slot}
    (hs : c.find? s = some slot) : recordsAt l'.current s =
      (rs.filter fun r => r.slot = s).foldl (fun xs r => bound slot r xs) (recordsAt l.current s) := by
  induction rs generalizing l with
  | nil =>
    obtain rfl : l = l' := by simpa [bindAll] using h
    rfl
  | cons r rs ih =>
    cases hb : bind c l r with
    | error e => simp [bindAll, hb] at h
    | ok l₁ =>
      rw [bindAll, hb] at h
      obtain ⟨slot', hslot, rfl⟩ := bind_ok.mp hb
      rw [ih h, Ledger.recordsAt_withRecords]
      by_cases hr : r.slot = s
      · obtain rfl : slot' = slot := by simpa [hr, hs, eq_comm] using hslot
        simp [hr]
      · simp [hr]

theorem exists_bound_of_bindAll (h : bindAll c l rs = (.ok (), l')) {q : Option TaskId}
    (hq : ∀ r ∈ rs, r.producer = q) {s : SlotId} {slot : Slot} (hs : c.find? s = some slot)
    (hmem : ∃ r ∈ rs, r.slot = s) : ∃ r ∈ rs, r.slot = s ∧
      recordsAt l'.current s = bound slot r (recordsAt l.current s) := by
  cases hf : rs.filter fun r => r.slot = s with
  | nil =>
    obtain ⟨r, hr, hrs⟩ := hmem
    have := List.filter_eq_nil_iff.mp hf r hr
    simp [hrs] at this
  | cons x xs =>
    have hmem : ∀ r ∈ x :: xs, r ∈ rs ∧ r.slot = s := by
      intro r hr
      rw [← hf] at hr
      simpa using hr
    obtain ⟨hlast, hslot⟩ := hmem _ (List.getLast_mem (List.cons_ne_nil x xs))
    refine ⟨_, hlast, hslot, ?_⟩
    rw [recordsAt_bindAll h hs, hf, Ledger.foldl_bound fun r hr => hq r (hmem r hr).1]

theorem recordsAt_bindAll_of_notMem {s : SlotId} (hs : ∀ r ∈ rs, r.slot ≠ s) :
    recordsAt (bindAll c l rs).2.current s = recordsAt l.current s := by
  induction rs generalizing l with
  | nil => rfl
  | cons r rs ih =>
    cases hb : bind c l r with
    | error e => rw [bindAll, hb]
    | ok l' =>
      obtain ⟨slot, -, rfl⟩ := bind_ok.mp hb
      rw [bindAll, hb]
      simp only
      rw [ih fun x hx => hs x (List.mem_cons_of_mem r hx), Ledger.recordsAt_withRecords,
        if_neg (hs r List.mem_cons_self)]

theorem recordsAt_bindAll_of_undeclared {s : SlotId} (hs : c.find? s = none) :
    recordsAt (bindAll c l rs).2.current s = recordsAt l.current s := by
  induction rs generalizing l with
  | nil => rfl
  | cons r rs ih =>
    cases hb : bind c l r with
    | error e => rw [bindAll, hb]
    | ok l' =>
      obtain ⟨slot, hslot, rfl⟩ := bind_ok.mp hb
      have hne : r.slot ≠ s := fun heq => by simp [heq, hs] at hslot
      rw [bindAll, hb]
      simp only
      rw [ih, Ledger.recordsAt_withRecords, if_neg hne]

end SlotBuild
