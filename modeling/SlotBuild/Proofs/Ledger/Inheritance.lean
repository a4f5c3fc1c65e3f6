import SlotBuild.Proofs.Ledger.Binding

/-! What a ledger takes over from the history of producers that were not attempted: in each slot the
first record that the producer had there, where the slot has room for it. -/

namespace SlotBuild

open Ledger (recordsAt)

/-- No slot is listed without a record. -/
def Generation.Filled (g : Generation) : Prop := ∀ x ∈ g.records, x.2 ≠ []

namespace Ledger

/-- The record that a slot lacks: the first one that `q` had there, if there is room for it. -/
def lacking (slot : Slot) (q : TaskId) (old rs : List Record) : Option Record :=
  if isTaken slot q rs then none else old.find? fun r => r.producer = some q

/-- What a slot holds once `q` has taken its record over. -/
def inheritInto (slot : Slot) (q : TaskId) (old rs : List Record) : List Record :=
  rs ++ (lacking slot q old rs).toList

/-- What a slot holds when each of some producers in turn has taken its record over. -/
def takeOver (slot : Slot) (old : List Record) (producers : List TaskId) (rs : List Record) :
    List Record :=
  producers.foldl (fun rs q => inheritInto slot q old rs) rs

section lists

variable {slot : Slot} {q : TaskId} {old rs : List Record} {r : Record} {ps : List TaskId}

theorem lacking_eq_some : lacking slot q old rs = some r ↔
    old.find? (fun x => x.producer = some q) = some r ∧
      (slot.appendable = true ∧ (∀ x ∈ rs, x.producer ≠ some q) ∨
        slot.appendable = false ∧ rs = []) := by
  cases happ : slot.appendable <;> simp [lacking, isTaken, happ, and_comm]

theorem of_lacking (h : lacking slot q old rs = some r) : r ∈ old ∧ r.producer = some q := by
  obtain ⟨hfind, -⟩ := lacking_eq_some.mp h
  exact ⟨List.mem_of_find?_eq_some hfind, by simpa using List.find?_some hfind⟩

theorem isTaken_append_of_producer (h : r.producer = some q) :
    isTaken slot q (rs ++ [r]) = true := by
  simp [isTaken, h]

theorem inheritInto_of_none (h : ∀ r ∈ old, r.producer ≠ some q) : inheritInto slot q old rs = rs := by
  have hnone : lacking slot q old rs = none := Option.eq_none_iff_forall_ne_some.mpr fun r hr =>
    h r (of_lacking hr).1 (of_lacking hr).2
  rw [inheritInto, hnone, Option.toList_none, List.append_nil]

theorem inheritInto_of_taken (h : isTaken slot q rs = true) : inheritInto slot q old rs = rs := by
  rw [inheritInto, lacking, if_pos h, Option.toList_none, List.append_nil]

theorem inheritInto_of_room (hold : (old.map (·.producer)).Nodup) (h : isTaken slot q rs = false) :
    inheritInto slot q old rs = rs ++ old.filter fun r => r.producer = some q := by
  rw [inheritInto, lacking, if_neg (by simp [h])]
  congr 1
  induction old with
  | nil => rfl
  | cons r old ih =>
    obtain ⟨hr, hold⟩ := List.nodup_cons.mp hold
    by_cases hq : r.producer = some q
    · have hrest : old.filter (fun x => x.producer = some q) = [] :=
        List.filter_eq_nil_iff.mpr fun x hx => by
          simpa using fun hxq => hr (List.mem_map.mpr ⟨x, hx, hxq.trans hq.symm⟩)
      rw [List.find?_cons_of_pos (by simpa using hq), List.filter_cons_of_pos (by simpa using hq),
        hrest, Option.toList_some]
    · rw [List.find?_cons_of_neg (by simpa using hq), List.filter_cons_of_neg (by simpa using hq),
        ih hold]

theorem inheritInto_single (h : (rs.map (·.producer)).Nodup) :
    ((inheritInto slot q old rs).map (·.producer)).Nodup := by
  cases hlack : lacking slot q old rs with
  | none => simpa [inheritInto, hlack] using h
  | some r =>
    rw [inheritInto, hlack, Option.toList_some, List.map_append]
    refine List.nodup_append.mpr ⟨h, by simp, ?_⟩
    rintro _ hx _ hr rfl
    obtain ⟨x, hx, hxr⟩ := List.mem_map.mp hx
    have hq : x.producer = some q := by simpa [hxr, (of_lacking hlack).2] using hr
    rcases (lacking_eq_some.mp hlack).2 with ⟨-, hnone⟩ | ⟨-, hempty⟩
    · exact hnone x hx hq
    · simp [hempty] at hx

theorem inheritInto_length_le (happ : slot.appendable = false) (h : rs.length ≤ 1) :
    (inheritInto slot q old rs).length ≤ 1 := by
  by_cases hrs : rs = []
  · rw [inheritInto, hrs, List.nil_append]
    exact Option.length_toList_le
  · rwa [inheritInto_of_taken (by simpa [isTaken, happ] using hrs)]

theorem takeOver_full (happ : slot.appendable = false) (hfull : rs ≠ []) :
    takeOver slot old ps rs = rs := by
  unfold takeOver
  induction ps with
  | nil => rfl
  | cons p ps ih =>
    rw [List.foldl_cons, inheritInto_of_taken (by simpa [isTaken, happ] using hfull), ih]

theorem filter_inheritInto_of_ne {p : TaskId} (hne : p ≠ q) :
    (inheritInto slot p old rs).filter (fun r => r.producer = some q) =
      rs.filter fun r => r.producer = some q := by
  have hnil : (lacking slot p old rs).toList.filter (fun r => r.producer = some q) = [] :=
    List.filter_eq_nil_iff.mpr fun r hr => by
      simpa [(of_lacking (Option.mem_toList.mp hr)).2] using hne
  rw [inheritInto, List.filter_append, hnil, List.append_nil]

theorem filter_takeOver_of_notMem (hq : q ∉ ps) :
    (takeOver slot old ps rs).filter (fun r => r.producer = some q) =
      rs.filter fun r => r.producer = some q := by
  unfold takeOver
  induction ps generalizing rs with
  | nil => rfl
  | cons p ps ih =>
    obtain ⟨hp, hq⟩ := not_or.mp (List.mem_cons.not.mp hq)
    rw [List.foldl_cons, ih hq, filter_inheritInto_of_ne (Ne.symm hp)]

theorem filter_takeOver_of_room (hold : (old.map (·.producer)).Nodup) (hps : ps.Pairwise (· < ·))
    (hq : q ∈ ps) (hnone : ∀ r ∈ rs, r.producer ≠ some q)
    (hroom : slot.appendable = false → rs = [] ∧ ∀ p ∈ ps, p < q → ∀ r ∈ old, r.producer ≠ some p) :
    (takeOver slot old ps rs).filter (fun r => r.producer = some q) =
      old.filter fun r => r.producer = some q := by
  induction ps generalizing rs with
  | nil => simp at hq
  | cons p ps ih =>
    obtain ⟨hp, hps⟩ := List.pairwise_cons.mp hps
    rw [takeOver, List.foldl_cons, ← takeOver]
    by_cases hpq : p = q
    · subst hpq
      have hopen : isTaken slot p rs = false := by
        by_cases happ : slot.appendable = true
        · rw [isTaken, if_pos happ]
          exact List.any_eq_false.mpr fun r hr => by simpa using hnone r hr
        · rw [isTaken, if_neg happ, (hroom (by simpa using happ)).1]
          rfl
      have hout : p ∉ ps := fun hm => lt_irrefl p (hp p hm)
      have hstart : rs.filter (fun r => r.producer = some p) = [] :=
        List.filter_eq_nil_iff.mpr fun r hr => by simpa using hnone r hr
      rw [filter_takeOver_of_notMem hout, inheritInto_of_room hold hopen, List.filter_append, hstart,
        List.nil_append, List.filter_filter]
      simp
    · have hq : q ∈ ps := (List.mem_cons.mp hq).resolve_left (Ne.symm hpq)
      refine ih hps hq (fun r hr => ?_) fun happ => ?_
      · rcases List.mem_append.mp hr with hr | hr
        · exact hnone r hr
        · simpa [(of_lacking (Option.mem_toList.mp hr)).2] using hpq
      · obtain ⟨hempty, hbefore⟩ := hroom happ
        refine ⟨?_, fun p' hp' => hbefore p' (List.mem_cons_of_mem p hp')⟩
        rw [inheritInto_of_none (hbefore p List.mem_cons_self (hp q hq)), hempty]

theorem filter_takeOver_of_taken (hold : (old.map (·.producer)).Nodup) (hps : ps.Pairwise (· < ·))
    (happ : slot.appendable = false) (hnone : ∀ r ∈ rs, r.producer ≠ some q)
    (htaken : rs ≠ [] ∨ ∃ p ∈ ps, p < q ∧ ∃ r ∈ old, r.producer = some p) :
    (takeOver slot old ps rs).filter (fun r => r.producer = some q) = [] := by
  have hfilter : ∀ {xs : List Record}, (∀ r ∈ xs, r.producer ≠ some q) →
      xs.filter (fun r => r.producer = some q) = [] := fun h =>
    List.filter_eq_nil_iff.mpr fun r hr => by simpa using h r hr
  by_cases hrs : rs = []
  · subst hrs
    obtain ⟨p, hp, hpq, r, hr, hrp⟩ := htaken.resolve_left (by simp)
    induction ps with
    | nil => simp at hp
    | cons p' ps ih =>
      obtain ⟨hp', hps⟩ := List.pairwise_cons.mp hps
      rw [takeOver, List.foldl_cons, ← takeOver, inheritInto_of_room hold (by simp [isTaken, happ]),
        List.nil_append]
      by_cases hfirst : old.filter (fun r => r.producer = some p') = []
      · have hp'p : p ≠ p' := by
          rintro rfl
          have := List.filter_eq_nil_iff.mp hfirst r hr
          simp [hrp] at this
        rw [hfirst]
        exact ih hps (Or.inr ⟨p, (List.mem_cons.mp hp).resolve_left hp'p, hpq, r, hr, hrp⟩)
          ((List.mem_cons.mp hp).resolve_left hp'p)
      · have hp'q : p' ≠ q := by
          rintro rfl
          rcases List.mem_cons.mp hp with rfl | hp
          · exact lt_irrefl p hpq
          · exact lt_asymm hpq (hp' p hp)
        rw [takeOver_full happ hfirst]
        refine hfilter fun x hx => ?_
        have hx : x.producer = some p' := by simpa using (List.mem_filter.mp hx).2
        simpa [hx] using hp'q
  · rw [takeOver_full happ hrs]
    exact hfilter hnone

theorem foldl_carryRecord (slot : Slot) (q : TaskId) (old rs : List Record) (n : Nat) :
    old.foldl (carryRecord slot q) (n, rs) =
      (n + (lacking slot q old rs).toList.length, inheritInto slot q old rs) := by
  have htaken : ∀ (old rs : List Record) (n : Nat), isTaken slot q rs = true →
      old.foldl (carryRecord slot q) (n, rs) = (n, rs) := by
    intro old rs n h
    induction old with
    | nil => rfl
    | cons r old ih => rwa [List.foldl_cons, carryRecord, if_neg (by simp [h])]
  unfold inheritInto
  cases hroom : isTaken slot q rs with
  | true => simp [lacking, hroom, htaken old rs n hroom]
  | false =>
    induction old with
    | nil => simp [lacking]
    | cons r old ih =>
      rw [List.foldl_cons, carryRecord]
      by_cases hr : r.producer = some q
      · rw [if_pos (by simp [hr, hroom]), htaken _ _ _ (isTaken_append_of_producer hr)]
        simp [lacking, hroom, hr]
      · rw [if_neg (by simp [hr]), ih]
        simp [lacking, hroom, hr]

end lists

variable {l l' l'' : Ledger} {c : Catalog} {q : TaskId} {s : SlotId}

theorem swept_filled (l : Ledger) : l.swept.current.Filled := fun x hx => by
  simpa using (List.mem_filter.mp hx).2

theorem recordsAt_swept (l : Ledger) (s : SlotId) :
    recordsAt l.swept.current s = recordsAt l.current s := by
  have h := l.current.ordered
  simp only [recordsAt, swept]
  generalize l.current.records = m at h
  induction m with
  | nil => rfl
  | cons x m ih =>
    obtain ⟨hx, hm⟩ := List.pairwise_cons.mp h
    have ih := ih hm
    by_cases hempty : x.2 = []
    · rw [List.filter_cons_of_neg (by simp [hempty]), ih]
      by_cases hs : x.1 = s
      · have hnone : Keyed.get? s m = none := Keyed.get?_eq_none_of_lt (hs ▸ hx)
        simp [Keyed.get?, hs, hempty, hnone]
      · simp [Keyed.get?, hs]
    · rw [List.filter_cons_of_pos (by simp [hempty])]
      by_cases hs : x.1 = s
      · simp [Keyed.get?, hs]
      · simpa [Keyed.get?, hs] using ih

/-- `l'` is `l` with what the slots lack of `olds`. -/
structure Supplements (c : Catalog) (q : TaskId) (olds : Keyed (List Record)) (l l' : Ledger) : Prop where
  path : l'.path = l.path
  previous : l'.previous = l.previous
  number : l'.current.number = l.current.number
  declared : ∀ s slot, c.find? s = some slot → recordsAt l'.current s =
    inheritInto slot q ((Keyed.get? s olds).getD []) (recordsAt l.current s)
  undeclared : ∀ s, c.find? s = none → recordsAt l'.current s = recordsAt l.current s

theorem supplements_none {old : SlotId × List Record}
    (h : ∀ slot, c.find? old.1 = some slot → lacking slot q old.2 (recordsAt l.current old.1) = none) :
    Supplements c q [old] l l := by
  refine ⟨rfl, rfl, rfl, fun s slot hslot => ?_, fun _ _ => rfl⟩
  by_cases hs : old.1 = s
  · subst hs
    simp [Keyed.get?, inheritInto, h slot hslot]
  · rw [inheritInto_of_none (by simp [Keyed.get?, hs])]

theorem supplements_withRecords {slot : Slot} {old : SlotId × List Record}
    (hslot : c.find? old.1 = some slot) : Supplements c q [old] l
      (l.withRecords old.1 (inheritInto slot q old.2 (recordsAt l.current old.1))) := by
  refine ⟨rfl, rfl, rfl, fun s slot' hslot' => ?_, fun s hs => ?_⟩
  · rw [recordsAt_withRecords]
    by_cases hs : old.1 = s
    · obtain rfl : slot = slot' := Option.some.inj (hslot.symm.trans (hs ▸ hslot'))
      simp [Keyed.get?, hs]
    · rw [if_neg hs, inheritInto_of_none (by simp [Keyed.get?, hs])]
  · have hne : old.1 ≠ s := by
      rintro rfl
      simp [hslot] at hs
    rw [recordsAt_withRecords, if_neg hne]

/-- Slots that are supplemented one after the other, where none is met twice. -/
theorem foldl_supplements {σ : Type} {f : σ → SlotId × List Record → σ} (ledger : σ → Ledger)
    (hf : ∀ x old, Supplements c q [old] (ledger x) (ledger (f x old))) {olds : Keyed (List Record)}
    (holds : olds.Ordered) (x : σ) : Supplements c q olds (ledger x) (ledger (olds.foldl f x)) := by
  induction olds generalizing x with
  | nil =>
    exact ⟨rfl, rfl, rfl, fun _ _ _ => (inheritInto_of_none (by simp [Keyed.get?])).symm,
      fun _ _ => rfl⟩
  | cons old olds ih =>
    obtain ⟨hold, holds⟩ := List.pairwise_cons.mp holds
    have hstep := hf x old
    have hrest := ih holds (f x old)
    refine ⟨hrest.path.trans hstep.path, hrest.previous.trans hstep.previous,
      hrest.number.trans hstep.number, fun s slot hslot => ?_,
      fun s hs => (hrest.undeclared s hs).trans (hstep.undeclared s hs)⟩
    rw [List.foldl_cons, hrest.declared s slot hslot, hstep.declared s slot hslot]
    by_cases hs : old.1 = s
    · have hnone : Keyed.get? s olds = none := Keyed.get?_eq_none_of_lt (hs ▸ hold)
      rw [inheritInto_of_none (by simp [hnone])]
      simp [Keyed.get?, hs]
    · have hskip : (Keyed.get? s [old]).getD [] = [] := by simp [Keyed.get?, hs]
      rw [hskip, inheritInto_of_none (fun _ h => absurd h List.not_mem_nil)]
      simp [Keyed.get?, hs]

theorem carrySlot_supplements (c : Catalog) (q : TaskId) (x : Nat × Ledger)
    (old : SlotId × List Record) : Supplements c q [old] x.2 (carrySlot c q x old).2 := by
  cases hslot : c.find? old.1 with
  | none =>
    rw [carrySlot, hslot]
    exact supplements_none fun slot h => by simp [hslot] at h
  | some slot =>
    simp only [carrySlot, hslot, foldl_carryRecord]
    exact supplements_withRecords hslot

theorem carryForward_supplements (l : Ledger) (c : Catalog) (q : TaskId) :
    Supplements c q l.previous.records l (l.carryForward c q).2 := by
  have h := foldl_supplements Prod.snd (carrySlot_supplements c q) l.previous.ordered (0, l)
  refine ⟨h.path, h.previous, h.number, fun s slot hslot => ?_, fun s hs => ?_⟩
  · rw [carryForward, recordsAt_swept]
    exact h.declared s slot hslot
  · rw [carryForward, recordsAt_swept]
    exact h.undeclared s hs

theorem carryForward_filled (l : Ledger) (c : Catalog) (q : TaskId) :
    (l.carryForward c q).2.current.Filled := swept_filled _

/-- `l'` holds what `l` holds and, behind that, records that the producers in `P` had before. -/
structure Extends (P : TaskId → Prop) (l l' : Ledger) : Prop where
  path : l'.path = l.path
  previous : l'.previous = l.previous
  single : l.current.Single → l'.current.Single
  records : ∀ s, ∃ extra, recordsAt l'.current s = recordsAt l.current s ++ extra ∧
    ∀ r ∈ extra, r ∈ recordsAt l.previous s ∧ ∃ q, P q ∧ r.producer = some q

variable {P : TaskId → Prop}

theorem Extends.refl (P : TaskId → Prop) (l : Ledger) : Extends P l l :=
  ⟨rfl, rfl, id, fun _ => ⟨[], by simp, by simp⟩⟩

theorem Extends.trans (h : Extends P l l') (h' : Extends P l' l'') : Extends P l l'' := by
  refine ⟨h'.path.trans h.path, h'.previous.trans h.previous, h'.single ∘ h.single, fun s => ?_⟩
  obtain ⟨extra, hx, hextra⟩ := h.records s
  obtain ⟨extra', hx', hextra'⟩ := h'.records s
  refine ⟨extra ++ extra', by rw [hx', hx, List.append_assoc], fun r hr => ?_⟩
  rcases List.mem_append.mp hr with hr | hr
  · exact hextra r hr
  · rw [← h.previous]
    exact hextra' r hr

theorem Extends.mono {Q : TaskId → Prop} (h : Extends P l l') (hPQ : ∀ q, P q → Q q) :
    Extends Q l l' := by
  refine ⟨h.path, h.previous, h.single, fun s => ?_⟩
  obtain ⟨extra, hx, hextra⟩ := h.records s
  refine ⟨extra, hx, fun r hr => ?_⟩
  obtain ⟨hold, q, hq, hrq⟩ := hextra r hr
  exact ⟨hold, q, hPQ q hq, hrq⟩

theorem carryForward_extends (l : Ledger) (c : Catalog) (q : TaskId) :
    Extends (· = q) l (l.carryForward c q).2 := by
  have h := carryForward_supplements l c q
  refine ⟨h.path, h.previous, fun hsingle s => ?_, fun s => ?_⟩
  · cases hs : c.find? s with
    | none =>
      rw [h.undeclared s hs]
      exact hsingle s
    | some slot =>
      rw [h.declared s slot hs]
      exact inheritInto_single (hsingle s)
  · cases hs : c.find? s with
    | none => exact ⟨[], by rw [h.undeclared s hs, List.append_nil], by simp⟩
    | some slot =>
      refine ⟨_, h.declared s slot hs, fun r hr => ?_⟩
      obtain ⟨hold, hrq⟩ := of_lacking (Option.mem_toList.mp hr)
      exact ⟨hold, q, rfl, hrq⟩

theorem carryForwardAll_extends (l : Ledger) (c : Catalog) (producers : List TaskId) :
    l.Extends (· ∈ producers) (l.carryForwardAll c producers) := by
  unfold carryForwardAll
  induction producers generalizing l with
  | nil => exact .refl _ l
  | cons q producers ih =>
    exact ((carryForward_extends l c q).mono fun x hx => hx ▸ List.mem_cons_self).trans
      ((ih _).mono fun x hx => List.mem_cons_of_mem q hx)

theorem recordsAt_carryForwardAll {slot : Slot} (hs : c.find? s = some slot) (l : Ledger)
    (producers : List TaskId) : recordsAt (l.carryForwardAll c producers).current s =
      takeOver slot (recordsAt l.previous s) producers (recordsAt l.current s) := by
  unfold carryForwardAll takeOver
  induction producers generalizing l with
  | nil => rfl
  | cons q producers ih =>
    have hstep := carryForward_supplements l c q
    have hprevious : (l.carryForward c q).2.previous = l.previous := hstep.previous
    rw [List.foldl_cons, List.foldl_cons, ih, hprevious, hstep.declared s slot hs, recordsAt]

theorem recordsAt_carryForwardAll_of_undeclared (hs : c.find? s = none) (l : Ledger)
    (producers : List TaskId) :
    recordsAt (l.carryForwardAll c producers).current s = recordsAt l.current s := by
  unfold carryForwardAll
  induction producers generalizing l with
  | nil => rfl
  | cons q producers ih =>
    rw [List.foldl_cons, ih, (carryForward_supplements l c q).undeclared s hs]

end Ledger

end SlotBuild
