import SlotBuild.Proofs.Ledger.Upkeep

/-! What holds of the lists of a ledger, whatever is written to it and in whatever order. One slot
may be presented with another declaration each time, and what was loaded comes back where a history
is taken over. -/

namespace SlotBuild

open Ledger (recordsAt bound inheritInto)

/-- A call that writes to a ledger. -/
inductive Write where
  | record (slot : Slot) (r : Record)
  | carry (c : Catalog) (producer : TaskId)

/-- How a call declares a slot, if it does. -/
def Write.declares? (s : SlotId) : Write → Option Slot
  | record slot _ => if slot.id = s then some slot else none
  | carry c _ => c.find? s

namespace Ledger

/-- A call that fails leaves the ledger as it is. -/
def write (l : Ledger) : Write → Ledger
  | .record slot r =>
    match l.record slot r with
    | .error _ => l
    | .ok l' => l'
  | .carry c q => (l.carryForward c q).2

def writeAll (l : Ledger) (ws : List Write) : Ledger := ws.foldl write l

variable {l : Ledger}

theorem writeAll_append (l : Ledger) (ws more : List Write) :
    l.writeAll (ws ++ more) = (l.writeAll ws).writeAll more := List.foldl_append

theorem record_eq_error {slot : Slot} {r : Record} {fault : SlotError} :
    l.record slot r = .error fault ↔
      r.slot ≠ slot.id ∧ fault = .invalid slot.id (.foreignRecord r.slot) := by
  by_cases hslot : r.slot = slot.id
  · simp [record, hslot]
  · simp [record, hslot, eq_comm]

theorem Kept.write (h : l.Kept) (w : Write) : (l.write w).Kept := by
  cases w with
  | record slot r =>
    cases hl' : l.record slot r with
    | error fault =>
      rw [Ledger.write, hl']
      exact h
    | ok l' =>
      rw [Ledger.write, hl']
      exact .record h hl'
  | carry c q => exact .carry h c q

theorem Kept.writeAll (h : l.Kept) (ws : List Write) : (l.writeAll ws).Kept := by
  unfold Ledger.writeAll
  induction ws generalizing l with
  | nil => exact h
  | cons w ws ih => exact ih (h.write w)

end Ledger

namespace Ledger

variable {l : Ledger} {s : SlotId}

theorem withRecords_filled (h : l.current.Filled) {rs : List Record} (hrs : rs ≠ []) :
    (l.withRecords s rs).current.Filled := by
  intro x hx
  rcases Keyed.mem_put hx with rfl | hx
  · exact hrs
  · exact h x hx

theorem Kept.filled (h : l.Kept) : l.current.Filled ∧ l.previous.Filled := by
  have hafter : ∀ path {g}, Generation.Filled g →
      (after path g).current.Filled ∧ (after path g).previous.Filled :=
    fun path g hg => ⟨fun x hx => absurd hx List.not_mem_nil, hg⟩
  induction h with
  | empty path => exact hafter path fun x hx => absurd hx List.not_mem_nil
  | @load _ _ path l₀ _ _ saved loaded ih =>
    rw [eq_after_of_saved saved loaded]
    exact hafter path ih.1
  | record _ bound ih =>
    obtain ⟨-, rfl⟩ := record_ok bound
    exact ⟨withRecords_filled ih.1 (List.ne_nil_of_mem mem_bound_self), ih.2⟩
  | @carry l _ c q ih =>
    exact ⟨carryForward_filled l c q, (carryForward_extends l c q).previous ▸ ih.2⟩

/-- What a call does to the list of a slot: `old` is what the slot held in the generation before,
and `rs` what it holds. -/
inductive Rewrites (old rs : List Record) : Option Slot → List Record → Prop where
  | keep (declared : Option Slot) : Rewrites old rs declared rs
  | bind (slot : Slot) (r : Record) : Rewrites old rs (some slot) (bound slot r rs)
  | carry (slot : Slot) (q : TaskId) : Rewrites old rs (some slot) (inheritInto slot q old rs)

theorem write_rewrites (l : Ledger) (w : Write) (s : SlotId) :
    Rewrites (recordsAt l.previous s) (recordsAt l.current s) (w.declares? s)
      (recordsAt (l.write w).current s) := by
  cases w with
  | record slot r =>
    cases hl' : l.record slot r with
    | error fault =>
      rw [write, hl']
      exact .keep _
    | ok l' =>
      rw [write, hl']
      obtain ⟨-, rfl⟩ := record_ok hl'
      simp only [recordsAt_withRecords, Write.declares?]
      by_cases hs : slot.id = s
      · rw [if_pos hs, if_pos hs, hs]
        exact .bind slot r
      · rw [if_neg hs, if_neg hs]
        exact .keep none
  | carry c q =>
    have hcarried := carryForward_supplements l c q
    simp only [write, Write.declares?]
    cases hs : c.find? s with
    | none =>
      rw [hcarried.undeclared s hs]
      exact .keep none
    | some slot =>
      rw [hcarried.declared s slot hs]
      exact .carry slot q

namespace Rewrites

variable {old rs rs' : List Record} {declared : Option Slot}

theorem length_le (h : Rewrites old rs declared rs')
    (hexclusive : ∀ slot, declared = some slot → slot.appendable = false) (hrs : rs.length ≤ 1) :
    rs'.length ≤ 1 := by
  cases h with
  | keep _ => exact hrs
  | bind slot r => simp [bound, hexclusive slot rfl]
  | carry slot q => exact inheritInto_length_le (hexclusive slot rfl) hrs

theorem producers_subset (h : Rewrites old rs declared rs')
    (happendable : ∀ slot, declared = some slot → slot.appendable = true) :
    rs.map (·.producer) ⊆ rs'.map (·.producer) := by
  cases h with
  | keep _ => exact List.Subset.refl _
  | bind slot r =>
    intro q hq
    obtain ⟨x, hx, rfl⟩ := List.mem_map.mp hq
    by_cases hxr : x.producer = r.producer
    · exact hxr ▸ List.mem_map_of_mem mem_bound_self
    · refine List.mem_map_of_mem ?_
      simp [bound, happendable slot rfl, hx, hxr]
  | carry slot q => exact List.map_subset _ (List.subset_append_left rs _)

end Rewrites

theorem Kept.length_writeAll_le (h : l.Kept) {ws : List Write}
    (hexclusive : ∀ w ∈ ws, ∀ slot, w.declares? s = some slot → slot.appendable = false)
    (hone : (recordsAt l.current s).length ≤ 1) : (recordsAt (l.writeAll ws).current s).length ≤ 1 := by
  unfold Ledger.writeAll
  induction ws generalizing l with
  | nil => exact hone
  | cons w ws ih =>
    obtain ⟨hw, hws⟩ := List.forall_mem_cons.mp hexclusive
    have hstep := write_rewrites l w s
    exact ih (h.write w) hws (hstep.length_le hw hone)

theorem Kept.producers_writeAll_subset (h : l.Kept) {ws : List Write}
    (happendable : ∀ w ∈ ws, ∀ slot, w.declares? s = some slot → slot.appendable = true) :
    (recordsAt l.current s).map (·.producer) ⊆ (recordsAt (l.writeAll ws).current s).map (·.producer) := by
  unfold Ledger.writeAll
  induction ws generalizing l with
  | nil => exact List.Subset.refl _
  | cons w ws ih =>
    obtain ⟨hw, hws⟩ := List.forall_mem_cons.mp happendable
    have hstep := write_rewrites l w s
    exact List.Subset.trans (hstep.producers_subset hw) (ih (h.write w) hws)

/-- After any calls a ledger that was opened is tidy and lists no slot without a record, and it can
be saved and opened again. A slot that is never declared as appendable has room for one record, one
that always is loses no producer, and a call to record fails exactly where the record names another
slot, which changes nothing. -/
theorem writes_stay_tidy (h : l.Opened) (ws : List Write) :
    (l.writeAll ws).current.Tidy ∧ (l.writeAll ws).current.Filled ∧
    (∀ files cwd path l', FileTree.read files cwd path = .ok (l.writeAll ws).current.toBytes →
      Ledger.load files cwd path = .ok l' → l'.Opened) ∧
    (∀ s, (∀ w ∈ ws, ∀ slot, w.declares? s = some slot → slot.appendable = false) →
      (recordsAt (l.writeAll ws).current s).length ≤ 1) ∧
    (∀ s more, (∀ w ∈ more, ∀ slot, w.declares? s = some slot → slot.appendable = true) →
      (recordsAt (l.writeAll ws).current s).map (·.producer) ⊆
        (recordsAt (l.writeAll (ws ++ more)).current s).map (·.producer)) ∧
    ∀ slot r fault, ((l.writeAll ws).record slot r = .error fault ↔
        r.slot ≠ slot.id ∧ fault = .invalid slot.id (.foreignRecord r.slot)) ∧
      ((l.writeAll ws).record slot r = .error fault →
        l.writeAll (ws ++ [.record slot r]) = l.writeAll ws) := by
  have hkept := h.kept.writeAll ws
  have hfresh : ∀ s, recordsAt l.current s = [] := by
    obtain ⟨path, g, -, rfl⟩ := h.exists_after
    exact recordsAt_after path g
  refine ⟨hkept.tidy.1, hkept.filled.1, fun files cwd path l' hread hload => ?_, fun s hexclusive => ?_,
    fun s more happendable => ?_, fun slot r fault => ⟨record_eq_error, fun hfault => ?_⟩⟩
  · exact .inr ⟨files, cwd, path, _, hkept, hread, hload⟩
  · exact h.kept.length_writeAll_le hexclusive (by simp [hfresh])
  · rw [writeAll_append]
    exact hkept.producers_writeAll_subset happendable
  · rw [writeAll_append, writeAll, List.foldl_cons, write, hfault, List.foldl_nil]

namespace Archive

def parts : Slot := Slot.shared "parts" .file .intermediates

def app : Slot := Slot.single "app" .file .outputs

def note (slot : SlotId) (producer : TaskId) : Record := ⟨slot, [], "", none, some producer, 0⟩

/-- What an earlier session has left: two parts and what was made of them. -/
def earlier : Ledger := (empty ⟨"state"⟩).writeAll
  [.record parts (note "parts" "left"), .record parts (note "parts" "right"),
    .record app (note "app" "whole")]

def reopened : Ledger := after ⟨"state"⟩ earlier.current

/-- One part is taken over and the other made anew; what is made of them stands under the wrong
name, and then it is taken over twice. -/
def calls : List Write :=
  [.carry ⟨[parts, app]⟩ "left", .record parts (note "parts" "right"), .record app (note "parts" "whole"),
    .carry ⟨[app]⟩ "whole", .carry ⟨[app]⟩ "whole"]

theorem reopened_stays_tidy : reopened.Opened ∧ (reopened.writeAll calls).current.Tidy ∧
    (reopened.writeAll calls).current.Filled ∧
    (recordsAt (reopened.writeAll calls).current "app").length ≤ 1 ∧
    [some "left"] ⊆ (recordsAt (reopened.writeAll calls).current "parts").map (·.producer) ∧
    (reopened.writeAll calls).record app (note "parts" "whole") =
      .error (.invalid "app" (.foreignRecord "parts")) := by
  have hearlier : earlier.Kept := (Kept.empty ⟨"state"⟩).writeAll _
  have hread : FileTree.read ⟨[(["state"], .file earlier.current.toBytes)]⟩ [] ⟨"state"⟩ =
      .ok earlier.current.toBytes := rfl
  have hload := load_of_read hread
  have hopened : reopened.Opened := .inr ⟨_, _, _, earlier, hearlier, hread, hload⟩
  have happ : ∀ w ∈ calls, ∀ slot, w.declares? "app" = some slot → slot.appendable = false := by
    decide
  have hparts : ∀ w ∈ calls.tail, ∀ slot, w.declares? "parts" = some slot → slot.appendable = true := by
    decide
  obtain ⟨htidy, hfilled, -, hsingle, -, hfault⟩ := writes_stay_tidy hopened calls
  obtain ⟨-, -, -, -, hgrows, -⟩ := writes_stay_tidy hopened [.carry ⟨[parts, app]⟩ "left"]
  exact ⟨hopened, htidy, hfilled, hsingle "app" happ, hgrows "parts" calls.tail hparts,
    (hfault app (note "parts" "whole") _).1.mpr ⟨by decide, rfl⟩⟩

end Archive

end Ledger

end SlotBuild
