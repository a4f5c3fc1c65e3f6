import SlotBuild.Proofs.Ledger.Writes

/-! What `carryForward` adds to a ledger: to each declared slot the first record that the producer
had there, where the slot has room for it, and nothing else. -/

namespace SlotBuild

open Ledger (recordsAt)

section listed

variable {g g' : Generation}

theorem Generation.Filled.get?_eq (h : g.Filled) (s : SlotId) :
    Keyed.get? s g.records = if recordsAt g s = [] then none else some (recordsAt g s) := by
  cases hs : Keyed.get? s g.records with
  | none => simp [recordsAt, hs]
  | some rs => simp [recordsAt, hs, h _ (Keyed.mem_of_get? hs)]

/-- Where no slot is listed without a record, what the slots hold is all that there is. -/
theorem Generation.Filled.ext (h : g.Filled) (h' : g'.Filled) (hnumber : g.number = g'.number)
    (hrecords : ∀ s, recordsAt g s = recordsAt g' s) : g = g' := by
  have hall : g.records = g'.records :=
    g.ordered.ext g'.ordered fun s => by rw [h.get?_eq, h'.get?_eq, hrecords]
  cases g
  cases g'
  simp_all

end listed

namespace Ledger

variable {c : Catalog} {q : TaskId} {l : Ledger} {slot : Slot} {s : SlotId} {old rs : List Record}

section counting

theorem count_withRecords (l : Ledger) (s : SlotId) (rs : List Record) :
    (l.withRecords s rs).current.count + (recordsAt l.current s).length =
      l.current.count + rs.length := by
  have h := l.current.ordered
  simp only [Generation.count, withRecords, Generation.put, recordsAt]
  generalize l.current.records = m at h
  induction m with
  | nil => simp [Keyed.put, Keyed.get?]
  | cons x m ih =>
    obtain ⟨hx, hm⟩ := List.pairwise_cons.mp h
    have ih := ih hm
    by_cases hlt : s < x.1
    · have hnone : Keyed.get? s (x :: m) = none := Keyed.get?_eq_none_of_lt fun y hy => by
        rcases List.mem_cons.mp hy with rfl | hy
        · exact hlt
        · exact lt_trans hlt (hx y hy)
      rw [Keyed.put, if_pos hlt, hnone]
      simp
      omega
    · by_cases heq : x.1 = s
      · simp [Keyed.put, Keyed.get?, heq]
        omega
      · simp only [Keyed.put, Keyed.get?, if_neg hlt, if_neg heq, List.flatMap_cons,
          List.length_append]
        omega

theorem count_swept (l : Ledger) : l.swept.current.count = l.current.count := by
  simp only [Generation.count, swept]
  induction l.current.records with
  | nil => rfl
  | cons x m ih =>
    by_cases hempty : x.2 = []
    · rw [List.filter_cons_of_neg (by simp [hempty]), ih, List.flatMap_cons, hempty, List.nil_append]
    · rw [List.filter_cons_of_pos (by simp [hempty]), List.flatMap_cons, List.flatMap_cons,
        List.length_append, List.length_append, ih]

theorem carrySlot_counted (c : Catalog) (q : TaskId) (x : Nat × Ledger) (old : SlotId × List Record) :
    (carrySlot c q x old).2.current.count + x.1 = x.2.current.count + (carrySlot c q x old).1 := by
  cases hslot : c.find? old.1 with
  | none => rw [carrySlot, hslot]
  | some slot =>
    have hcount := count_withRecords x.2 old.1 (inheritInto slot q old.2 (recordsAt x.2.current old.1))
    simp only [carrySlot, hslot, foldl_carryRecord]
    rw [inheritInto, List.length_append] at hcount
    rw [inheritInto]
    omega

theorem carryForward_counted (l : Ledger) (c : Catalog) (q : TaskId) :
    (l.carryForward c q).2.current.count = l.current.count + (l.carryForward c q).1 := by
  have hfold : ∀ (olds : Keyed (List Record)) (x : Nat × Ledger),
      (olds.foldl (carrySlot c q) x).2.current.count + x.1 =
        x.2.current.count + (olds.foldl (carrySlot c q) x).1 := by
    intro olds
    induction olds with
    | nil => exact fun x => rfl
    | cons old olds ih =>
      intro x
      have hstep := carrySlot_counted c q x old
      have hrest := ih (carrySlot c q x old)
      rw [List.foldl_cons]
      omega
  rw [carryForward, count_swept]
  exact hfold l.previous.records (0, l)

end counting

/-- Adds to a slot the record that it lacks, if it lacks one. -/
def inheritSlot (c : Catalog) (q : TaskId) (l : Ledger) (old : SlotId × List Record) : Ledger :=
  match (c.find? old.1).bind fun slot => lacking slot q old.2 (recordsAt l.current old.1) with
  | none => l
  | some r => l.withRecords old.1 (recordsAt l.current old.1 ++ [r])

/-- The ledger with what `q` had before, as far as there is room for it. -/
def inherit (l : Ledger) (c : Catalog) (q : TaskId) : Ledger :=
  l.previous.records.foldl (inheritSlot c q) l

theorem inheritSlot_filled (h : l.current.Filled) (c : Catalog) (q : TaskId)
    (old : SlotId × List Record) : (inheritSlot c q l old).current.Filled := by
  unfold inheritSlot
  cases (c.find? old.1).bind fun slot => lacking slot q old.2 (recordsAt l.current old.1) with
  | none => exact h
  | some r => exact withRecords_filled h (by simp)

theorem inherit_filled (h : l.current.Filled) (c : Catalog) (q : TaskId) :
    (l.inherit c q).current.Filled := by
  unfold inherit
  generalize l.previous.records = olds
  induction olds generalizing l with
  | nil => exact h
  | cons old olds ih => exact ih (inheritSlot_filled h c q old)

theorem inheritSlot_supplements (c : Catalog) (q : TaskId) (l : Ledger) (old : SlotId × List Record) :
    Supplements c q [old] l (inheritSlot c q l old) := by
  cases hslot : c.find? old.1 with
  | none =>
    rw [inheritSlot, hslot]
    exact supplements_none fun slot h => by simp [hslot] at h
  | some slot =>
    rw [inheritSlot, hslot, Option.bind_some]
    cases hlack : lacking slot q old.2 (recordsAt l.current old.1) with
    | none =>
      refine supplements_none fun slot' h => ?_
      obtain rfl : slot = slot' := Option.some.inj (hslot.symm.trans h)
      exact hlack
    | some r =>
      have hadd : recordsAt l.current old.1 ++ [r] =
          inheritInto slot q old.2 (recordsAt l.current old.1) := by
        rw [inheritInto, hlack, Option.toList_some]
      simp only [hadd]
      exact supplements_withRecords hslot

theorem Supplements.recordsAt_eq {olds : Keyed (List Record)} {l₁ l₂ : Ledger}
    (h₁ : Supplements c q olds l l₁) (h₂ : Supplements c q olds l l₂) (s : SlotId) :
    recordsAt l₁.current s = recordsAt l₂.current s := by
  cases hs : c.find? s with
  | none => rw [h₁.undeclared s hs, h₂.undeclared s hs]
  | some slot => rw [h₁.declared s slot hs, h₂.declared s slot hs]

theorem Supplements.unique {olds : Keyed (List Record)} {l₁ l₂ : Ledger}
    (h₁ : Supplements c q olds l l₁) (h₂ : Supplements c q olds l l₂) (hfilled₁ : l₁.current.Filled)
    (hfilled₂ : l₂.current.Filled) : l₁ = l₂ := by
  have hcurrent : l₁.current = l₂.current :=
    hfilled₁.ext hfilled₂ (h₁.number.trans h₂.number.symm) (h₁.recordsAt_eq h₂)
  have hpath : l₁.path = l₂.path := h₁.path.trans h₂.path.symm
  have hprevious : l₁.previous = l₂.previous := h₁.previous.trans h₂.previous.symm
  cases l₁
  cases l₂
  simp_all

/-- The count apart, taking a history over is `inherit` wherever no slot is listed without a record. -/
theorem carryForward_eq_inherit (hfilled : l.current.Filled) (c : Catalog) (q : TaskId) :
    (l.carryForward c q).2 = l.inherit c q :=
  (carryForward_supplements l c q).unique
    (foldl_supplements id (inheritSlot_supplements c q) l.previous.ordered l)
    (carryForward_filled l c q) (inherit_filled hfilled c q)

theorem inheritInto_inheritInto :
    inheritInto slot q old (inheritInto slot q old rs) = inheritInto slot q old rs := by
  cases hlack : lacking slot q old rs with
  | none => simp [inheritInto, hlack]
  | some r =>
    rw [inheritInto_of_taken]
    rw [inheritInto, hlack, Option.toList_some]
    exact isTaken_append_of_producer (of_lacking hlack).2

theorem carryForward_again (l : Ledger) (c : Catalog) (q : TaskId) :
    (l.carryForward c q).2.carryForward c q = (0, (l.carryForward c q).2) := by
  have hfirst := carryForward_supplements l c q
  have hprevious : (l.carryForward c q).2.previous = l.previous := hfirst.previous
  have hsame : Supplements c q (l.carryForward c q).2.previous.records (l.carryForward c q).2
      (l.carryForward c q).2 := by
    refine ⟨rfl, rfl, rfl, fun s slot hslot => ?_, fun _ _ => rfl⟩
    rw [hprevious, hfirst.declared s slot hslot, inheritInto_inheritInto]
  have hledger : ((l.carryForward c q).2.carryForward c q).2 = (l.carryForward c q).2 :=
    (carryForward_supplements _ c q).unique hsame (carryForward_filled _ c q)
      (carryForward_filled l c q)
  have hcount := carryForward_counted (l.carryForward c q).2 c q
  rw [hledger] at hcount
  exact Prod.ext (by omega) hledger

theorem recordsAt_carryForward (l : Ledger) (c : Catalog) (q : TaskId) (s : SlotId) :
    recordsAt (l.carryForward c q).2.current s = recordsAt l.current s ++
      ((c.find? s).bind fun slot =>
        lacking slot q (recordsAt l.previous s) (recordsAt l.current s)).toList := by
  have h := carryForward_supplements l c q
  cases hs : c.find? s with
  | none => simp [h.undeclared s hs]
  | some slot => exact h.declared s slot hs

variable {ps ps' : List TaskId}

/-- Where at most one producer had records in a slot that is not appendable, what one producer takes
over does not count for another one. -/
theorem lacking_inheritInto {p : TaskId}
    (hsole : slot.appendable = false → ∀ p p', some p ∈ old.map (·.producer) →
      some p' ∈ old.map (·.producer) → p = p') :
    lacking slot q old (inheritInto slot p old rs) =
      if q = p then none else lacking slot q old rs := by
  unfold inheritInto
  cases hp : lacking slot p old rs with
  | none =>
    by_cases heq : q = p
    · simpa [heq] using hp
    · simp [heq]
  | some x =>
    obtain ⟨hxold, hx⟩ := of_lacking hp
    by_cases heq : q = p
    · rw [if_pos heq, heq, Option.toList_some, lacking, if_pos (isTaken_append_of_producer hx)]
    · rw [if_neg heq]
      ext r
      simp only [Option.toList_some, lacking_eq_some, List.mem_append, List.mem_singleton]
      refine and_congr_right fun hr => ?_
      cases happ : slot.appendable with
      | true => simp [or_imp, forall_and, hx, Ne.symm heq]
      | false =>
        have hr : some q ∈ old.map (·.producer) :=
          List.mem_map.mpr ⟨r, List.mem_of_find?_eq_some hr, by simpa using List.find?_some hr⟩
        have hx : some p ∈ old.map (·.producer) :=
          List.mem_map.mpr ⟨x, hxold, hx⟩
        exact absurd (hsole happ q p hr hx) heq

theorem exists_takeOver_eq_append
    (hsole : slot.appendable = false → ∀ p p', some p ∈ old.map (·.producer) →
      some p' ∈ old.map (·.producer) → p = p') (ps : List TaskId) (rs : List Record) :
    ∃ extra, takeOver slot old ps rs = rs ++ extra ∧ extra.Nodup ∧
      ∀ r, r ∈ extra ↔ ∃ p ∈ ps, lacking slot p old rs = some r := by
  unfold takeOver
  induction ps generalizing rs with
  | nil => exact ⟨[], by simp, by simp, by simp⟩
  | cons p ps ih =>
    obtain ⟨extra, hextra, hnodup, hmem⟩ := ih (inheritInto slot p old rs)
    have hmem : ∀ r, r ∈ extra ↔ ∃ q ∈ ps, q ≠ p ∧ lacking slot q old rs = some r := fun r => by
      rw [hmem]
      refine exists_congr fun q => and_congr_right fun _ => ?_
      rw [lacking_inheritInto hsole]
      by_cases hq : q = p <;> simp [hq]
    refine ⟨(lacking slot p old rs).toList ++ extra, ?_, ?_, fun r => ?_⟩
    · rw [List.foldl_cons, hextra, inheritInto, List.append_assoc]
    · refine List.nodup_append.mpr ⟨by cases lacking slot p old rs <;> simp, hnodup, ?_⟩
      rintro r hr _ hx rfl
      obtain ⟨q, -, hne, hq⟩ := (hmem r).mp hx
      have heq := (of_lacking hq).2.symm.trans (of_lacking (Option.mem_toList.mp hr)).2
      exact hne (Option.some.inj heq)
    · rw [List.mem_append, Option.mem_toList, hmem, List.exists_mem_cons_iff]
      by_cases hr : lacking slot p old rs = some r
      · simp [hr]
      · refine or_congr Iff.rfl (exists_congr fun q => and_congr_right fun _ => and_iff_right_of_imp ?_)
        rintro hq rfl
        exact hr hq

theorem takeOver_perm (hsole : slot.appendable = false → ∀ p p', some p ∈ old.map (·.producer) →
      some p' ∈ old.map (·.producer) → p = p') (h : ∀ p, p ∈ ps ↔ p ∈ ps') (rs : List Record) :
    (takeOver slot old ps rs).Perm (takeOver slot old ps' rs) := by
  obtain ⟨extra, hextra, hnodup, hmem⟩ := exists_takeOver_eq_append hsole ps rs
  obtain ⟨extra', hextra', hnodup', hmem'⟩ := exists_takeOver_eq_append hsole ps' rs
  rw [hextra, hextra']
  refine (List.perm_append_left_iff rs).mpr ((List.perm_ext_iff_of_nodup hnodup hnodup').mpr fun r => ?_)
  simp only [hmem, hmem', h]

/-- Taking over the history of a producer leaves every record where it is and adds to a declared
slot at most the first record that the producer had there, which it does exactly if the slot has
room for it. Nothing else changes but that slots without a record are no longer listed. What is told
is how many records were added, and none is the second time. The order in which several producers
take over their histories matters only where two of them had records in a slot that keeps one. -/
theorem carryForward_adds_exactly_the_missing (l : Ledger) (c : Catalog) (q : TaskId) :
    (∀ s, ∃ added : Option Record,
      recordsAt (l.carryForward c q).2.current s = recordsAt l.current s ++ added.toList ∧
      ∀ r, added = some r ↔ ∃ slot, c.find? s = some slot ∧
        (recordsAt l.previous s).find? (fun x => x.producer = some q) = some r ∧
        (slot.appendable = true ∧ (∀ x ∈ recordsAt l.current s, x.producer ≠ some q) ∨
          slot.appendable = false ∧ recordsAt l.current s = [])) ∧
    (l.carryForward c q).2.path = l.path ∧ (l.carryForward c q).2.previous = l.previous ∧
    (l.carryForward c q).2.current.number = l.current.number ∧
    (∀ s, c.find? s = none → Keyed.get? s (l.carryForward c q).2.current.records =
      (Keyed.get? s l.current.records).filter fun rs => rs ≠ []) ∧
    (l.carryForward c q).2.current.records.Ordered ∧ (l.carryForward c q).2.current.Filled ∧
    (l.carryForward c q).2.current.count = l.current.count + (l.carryForward c q).1 ∧
    (l.carryForward c q).2.carryForward c q = (0, (l.carryForward c q).2) ∧
    (l.current.Filled → (l.carryForward c q).2 = l.inherit c q) ∧
    ((∀ s slot, c.find? s = some slot → slot.appendable = false →
        ∀ p p', some p ∈ (recordsAt l.previous s).map (·.producer) →
          some p' ∈ (recordsAt l.previous s).map (·.producer) → p = p') →
      ∀ ps ps' : List TaskId, (∀ p, p ∈ ps ↔ p ∈ ps') → ∀ s,
        (recordsAt (l.carryForwardAll c ps).current s).Perm
          (recordsAt (l.carryForwardAll c ps').current s)) := by
  have h := carryForward_supplements l c q
  have hrecords := recordsAt_carryForward l c q
  refine ⟨fun s => ⟨_, hrecords s, fun r => ?_⟩, h.path, h.previous, h.number, fun s hs => ?_,
    Generation.ordered _, carryForward_filled l c q, carryForward_counted l c q,
    carryForward_again l c q, fun hfilled => carryForward_eq_inherit hfilled c q,
    fun hsole ps ps' hps s => ?_⟩
  · simp only [Option.bind_eq_some_iff, lacking_eq_some]
  · rw [(carryForward_filled l c q).get?_eq, hrecords, hs]
    cases hget : Keyed.get? s l.current.records <;> simp [recordsAt, hget, Option.filter]
  · cases hs : c.find? s with
    | none =>
      rw [recordsAt_carryForwardAll_of_undeclared hs, recordsAt_carryForwardAll_of_undeclared hs]
    | some slot =>
      rw [recordsAt_carryForwardAll hs, recordsAt_carryForwardAll hs]
      exact takeOver_perm (hsole s slot hs) hps _

namespace Archive

def catalog : Catalog := ⟨[parts, app]⟩

/-- One of the two parts has been made anew. -/
def begun : Ledger := reopened.withRecords "parts" [note "parts" "right"]

theorem begun_takes_over_the_other_part :
    recordsAt (begun.carryForward catalog "left").2.current "parts" =
      [note "parts" "right", note "parts" "left"] ∧
    (begun.carryForward catalog "left").2.carryForward catalog "left" =
      (0, (begun.carryForward catalog "left").2) ∧
    (recordsAt (begun.carryForwardAll catalog ["left", "right", "whole"]).current "parts").Perm
      (recordsAt (begun.carryForwardAll catalog ["whole", "right", "left", "left"]).current "parts") := by
  obtain ⟨hadded, -, -, -, -, -, -, -, hagain, -, horder⟩ :=
    carryForward_adds_exactly_the_missing begun catalog "left"
  obtain ⟨added, hparts, hmissing⟩ := hadded "parts"
  have hleft : added = some (note "parts" "left") :=
    (hmissing _).mpr ⟨parts, rfl, by decide, .inl ⟨rfl, by decide⟩⟩
  have hsole : ∀ s slot, catalog.find? s = some slot → slot.appendable = false →
      ∀ p p', some p ∈ (recordsAt begun.previous s).map (·.producer) →
        some p' ∈ (recordsAt begun.previous s).map (·.producer) → p = p' := by
    intro s slot hslot happ p p' hp hp'
    have hmem : slot ∈ catalog.slots := List.mem_of_find?_eq_some hslot
    obtain rfl : s = slot.id := (Catalog.id_of_find? hslot).symm
    obtain rfl | rfl : slot = parts ∨ slot = app := by simpa [catalog] using hmem
    · exact absurd happ (by decide)
    · have happ : (recordsAt begun.previous app.id).map (·.producer) = [some "whole"] := by decide
      simp_all
  exact ⟨by rw [hparts, hleft]; rfl, hagain, horder hsole _ _ (by simp; grind) "parts"⟩

end Archive

end Ledger

end SlotBuild
