import SlotBuild.Proofs.Session.Incremental
import SlotBuild.Proofs.Session.Legacy

/-! How many locations a record of a single slot has, over any number of sessions and whatever
happens to the catalog between them. What a task reports is counted when it is published; what is
supplied and what is taken over from an earlier session is not. -/

namespace SlotBuild

open Ledger (recordsAt)
open Coordinator

def Catalog.IsSingle (c : Catalog) (s : SlotId) : Prop :=
  ∃ slot, c.find? s = some slot ∧ slot.cardinality = .single

def Generation.Holds (g : Generation) (r : Record) : Prop := ∃ s, r ∈ recordsAt g s

theorem Generation.not_holds_of_empty {g : Generation} (h : g.records = []) (r : Record) : ¬ g.Holds r := by
  simp [Holds, recordsAt, h, Keyed.get?]

theorem outputRecord_counted {c : Catalog} {w : World} {t : Task} {fingerprint : String}
    {outputs : Keyed (List Path)} {s : SlotId} {r : Record}
    (h : outputRecord c w t fingerprint outputs s = .ok r) :
    ∃ slot, c.find? r.slot = some slot ∧ (slot.cardinality = .single → r.locations.length = 1) := by
  obtain ⟨locations, slot, digest, hlocations, hslot, -, rfl⟩ := outputRecord_ok h
  refine ⟨slot, hslot, fun hsingle => ?_⟩
  by_contra hne
  simp [outputRecord, hlocations, Catalog.lookup_eq_ok.mpr hslot, hsingle, hne] at h

namespace Session

variable {x : Session} {past : List Session} {r : Record} {e : Evaluation}

/-- The record is one of the supplies: all locations that are supplied for its slot. -/
def Supplies (x : Session) (r : Record) : Prop :=
  ∃ rs, supplyRecords x.site.world x.supplies = .ok rs ∧ r ∈ rs

/-- What a session binds: its supplies and, if it comes to run its graph, what the tasks publish or
take over. -/
def Binds (x : Session) (r : Record) : Prop :=
  x.Supplies r ∨ (∃ res, x.result.1 = .ok res) ∧ ∃ e ∈ x.evaluations, r ∈ e.published x.plan

theorem Supplies.merged (h : x.Supplies r) :
    r.producer = none ∧ (r.slot, r.locations) ∈ mergedSupplies x.supplies := by
  obtain ⟨rs, hrs, hr⟩ := h
  obtain ⟨m, hm, hone⟩ := exists_left_of_forall₂ (mapM_eq_ok.mp hrs) r hr
  obtain ⟨digest, -, rfl⟩ := supplyRecord_ok hone
  exact ⟨rfl, hm⟩

section ledgers

/-- The supplies are bound up to the first that has no slot. -/
theorem begun_eq (x : Session) : x.begun = x.site ∨ ∃ rs, supplyRecords x.site.world x.supplies = .ok rs ∧
    x.begun = { x.site with ledger := (bindAll x.plan.catalog x.site.ledger rs).2 } := by
  rw [begun, takeSupplies]
  cases hrs : supplyRecords x.site.world x.supplies with
  | error e => exact Or.inl rfl
  | ok rs =>
    refine Or.inr ⟨rs, rfl, ?_⟩
    rcases hbound : bindAll x.plan.catalog x.site.ledger rs with ⟨_ | _, l⟩ <;> simp only [hbound]

theorem begun_holds (h : x.begun.ledger.current.Holds r) : x.site.ledger.current.Holds r ∨ x.Supplies r := by
  rcases x.begun_eq with heq | ⟨rs, hrs, heq⟩
  · exact Or.inl (heq ▸ h)
  · rw [heq] at h
    obtain ⟨s, hs⟩ := h
    exact (mem_bindAll hs).imp (⟨s, ·⟩) fun hr => ⟨rs, hrs, hr.1⟩

theorem final_of_error (h : ¬ ∃ res, x.result.1 = .ok res) : x.final = x.begun.ledger := by
  unfold final begun result runGraph
  cases hsupplies : takeSupplies x.plan.catalog x.supplies x.site with
  | mk taken site =>
    cases taken with
    | ok _ => exact absurd (exists_result hsupplies) h
    | error e => rfl

/-- Whatever the ledger holds at some moment of a session was in it before or is bound by the
session. -/
theorem holds_during (hres : ∃ res, x.result.1 = .ok res) {earlier : List Move}
    (h : earlier <+: schedule x.plan x.begun x.moves)
    (hr : (run x.plan (start x.plan.graph x.begun) earlier).site.ledger.current.Holds r) :
    x.site.ledger.current.Holds r ∨ x.Binds r := by
  obtain ⟨later, hlater⟩ := h
  obtain ⟨s, hs⟩ := hr
  refine (run_passes x.plan x.begun earlier).forall_records
    (Q := fun r => x.site.ledger.current.Holds r ∨ x.Binds r) (fun s r hr => ?_) (fun e he r hr => ?_) s r hs
  · exact (begun_holds ⟨s, hr⟩).imp_right Or.inl
  · refine Or.inr (Or.inr ⟨hres, e, ?_, hr⟩)
    rw [evaluations, ← hlater, evaluations_append]
    exact List.mem_append_left _ he

theorem ended_holds (hres : ∃ res, x.result.1 = .ok res) (hr : x.ended.site.ledger.current.Holds r) :
    x.site.ledger.current.Holds r ∨ x.Binds r := by
  rw [ended_eq_run] at hr
  exact holds_during hres List.prefix_rfl hr

theorem final_holds (hr : x.final.current.Holds r) :
    x.site.ledger.current.Holds r ∨ x.Binds r ∨ x.site.ledger.previous.Holds r := by
  by_cases hres : ∃ res, x.result.1 = .ok res
  · obtain ⟨s, hs⟩ := hr
    obtain ⟨res, h⟩ := hres
    obtain ⟨extra, hx, hextra⟩ := (final_extends h).records s
    rw [hx] at hs
    rcases List.mem_append.mp hs with hs | hs
    · exact (ended_holds ⟨res, h⟩ ⟨s, hs⟩).imp_right Or.inl
    · exact Or.inr (Or.inr ⟨s, ended_previous h ▸ (hextra r hs).1⟩)
  · rw [final_of_error hres] at hr
    exact (begun_holds hr).imp_right fun hsupplied => Or.inl (Or.inl hsupplied)

theorem final_previous : x.final.previous = x.site.ledger.previous := by
  by_cases hres : ∃ res, x.result.1 = .ok res
  · obtain ⟨res, h⟩ := hres
    rw [(final_extends h).previous, ended_previous h]
  · rw [final_of_error hres]
    rcases x.begun_eq with heq | ⟨rs, -, heq⟩
    · rw [heq]
    · rw [heq]
      exact bindAll_previous _ _ _

end ledgers

theorem Executed.counted (h : x.Executed e) (hr : r ∈ e.published x.plan) :
    ∃ slot, x.plan.catalog.find? r.slot = some slot ∧
      (slot.cardinality = .single → r.locations.length = 1) := by
  obtain ⟨outputs, world, rs, -, hchecked, rfl⟩ := h.reported
  exact outputRecord_counted ((outputRecords_mem hchecked).1 r hr).2

/-- An execution in one of the sessions has published the record. -/
def Published (xs : List Session) (r : Record) : Prop :=
  ∃ y ∈ xs, ∃ d, y.Executed d ∧ r ∈ d.published y.plan

theorem Published.cons (h : Published past r) (x : Session) : Published (x :: past) r := by
  obtain ⟨y, hy, hd⟩ := h
  exact ⟨y, List.mem_cons_of_mem x hy, hd⟩

/-- A record that a task binds comes from an execution of this session or stood in the generation
before. -/
theorem published_cases (hres : ∃ res, x.result.1 = .ok res) (he : e ∈ x.evaluations)
    (hr : r ∈ e.published x.plan) : x.Executed e ∨ x.site.ledger.previous.Holds r ∧ r.producer ≠ none := by
  by_cases hran : ∃ reason, e.outcome x.plan = .executed reason e.fingerprint
  · exact Or.inl ⟨hres, he, hran⟩
  · obtain ⟨res, h⟩ := hres
    obtain ⟨s, -, hs, hq⟩ := (e.evaluated x.plan).published_old (fun reason ho => hran ⟨reason, ho⟩) hr
    rw [site_previous h he] at hs
    exact Or.inr ⟨⟨s, hs⟩, by simp [hq]⟩

end Session

/-- The sessions, the latest first, that have led to a ledger: it starts empty, a session is run on
it, or it is loaded from a file that such a ledger was flushed to. -/
inductive Lineage : List Session → Ledger → Prop where
  | empty (path : Path) : Lineage [] (.empty path)
  | load {past : List Session} {files : FileTree} {cwd : Key} {path : Path} {l l' : Ledger}
      (before : Lineage past l) (saved : files.read cwd path = .ok l.current.toBytes)
      (loaded : Ledger.load files cwd path = .ok l') : Lineage past l'
  | session {past : List Session} {x : Session} (before : Lineage past x.site.ledger) :
      Lineage (x :: past) x.final

namespace Lineage

open Session

variable {x : Session} {past : List Session} {l : Ledger} {r : Record}

/-- What is not a supply was published by an execution in one of the sessions. -/
theorem origin (h : Lineage past l) : ∀ r, l.current.Holds r ∨ l.previous.Holds r →
    r.producer = none ∨ Published past r := by
  induction h with
  | empty path =>
    rintro r (hr | hr)
    · exact absurd hr (Generation.not_holds_of_empty rfl r)
    · exact absurd hr (Generation.not_holds_of_empty rfl r)
  | load before saved loaded ih =>
    obtain rfl := Ledger.eq_after_of_saved saved loaded
    rintro r (hr | hr)
    · exact absurd hr (Generation.not_holds_of_empty rfl r)
    · exact ih r (Or.inl hr)
  | @session past x before ih =>
    have hold : ∀ r, x.site.ledger.current.Holds r ∨ x.site.ledger.previous.Holds r →
        r.producer = none ∨ Published (x :: past) r := fun r hr => (ih r hr).imp_right fun h => h.cons x
    rintro r (hr | hr)
    · rcases final_holds hr with hr | (hsupplied | ⟨hres, e, he, hpub⟩) | hr
      · exact hold r (Or.inl hr)
      · exact Or.inl hsupplied.merged.1
      · rcases published_cases hres he hpub with hexec | ⟨hprev, -⟩
        · exact Or.inr ⟨x, List.mem_cons_self, e, hexec, hpub⟩
        · exact hold r (Or.inr hprev)
      · exact hold r (Or.inr hr)
    · exact hold r (Or.inr (final_previous ▸ hr))

/-- A record that a session binds to a single slot has one location, or it is a supply with another
number of them, or an earlier session has published it to the slot when it was not single. -/
theorem one_location_or (h : Lineage past x.site.ledger) (hr : x.Binds r)
    (hsingle : x.plan.catalog.IsSingle r.slot) : r.locations.length = 1 ∨
      x.Supplies r ∨ ∃ y ∈ past, (∃ d, y.Executed d ∧ r ∈ d.published y.plan) ∧
        ∃ slot, y.plan.catalog.find? r.slot = some slot ∧ slot.cardinality ≠ .single := by
  rcases hr with hsupplied | ⟨hres, e, he, hpub⟩
  · exact Or.inr (Or.inl hsupplied)
  · rcases published_cases hres he hpub with hexec | ⟨hprev, hmade⟩
    · obtain ⟨slot, hslot, hcount⟩ := hexec.counted hpub
      obtain ⟨slot', hslot', hone⟩ := hsingle
      obtain rfl : slot' = slot := Option.some.inj (hslot'.symm.trans hslot)
      exact Or.inl (hcount hone)
    · obtain ⟨y, hy, d, hd, hdpub⟩ := (h.origin r (Or.inr hprev)).resolve_left hmade
      obtain ⟨slot, hslot, hcount⟩ := hd.counted hdpub
      by_cases hone : slot.cardinality = .single
      · exact Or.inl (hcount hone)
      · exact Or.inr (Or.inr ⟨y, hy, ⟨d, hd, hdpub⟩, slot, hslot, hone⟩)

end Lineage

/-- A session binds only records with one location to a single slot, as long as one location is
supplied for the slot and no earlier session had declared it otherwise. There is no other way to
another number of locations: what a task has published was counted. -/
theorem Lineage.single_slot_holds_one {x : Session} {past : List Session} (h : Lineage past x.site.ledger) :
    ((∀ m ∈ mergedSupplies x.supplies, x.plan.catalog.IsSingle m.1 → m.2.length = 1) →
      (∀ y ∈ past, ∀ s slot, x.plan.catalog.IsSingle s → y.plan.catalog.find? s = some slot →
        slot.cardinality = .single) →
      ∀ r, x.Binds r → x.plan.catalog.IsSingle r.slot → r.locations.length = 1) ∧
    (∀ r, x.Binds r → x.plan.catalog.IsSingle r.slot → r.locations.length ≠ 1 →
      (r.producer = none ∧ (r.slot, r.locations) ∈ mergedSupplies x.supplies) ∨
        ∃ y ∈ past, (∃ d, y.Executed d ∧ r ∈ d.published y.plan) ∧
          ∃ slot, y.plan.catalog.find? r.slot = some slot ∧ slot.cardinality ≠ .single) ∧
    ((∃ res, x.result.1 = .ok res) → ∀ earlier, earlier <+: schedule x.plan x.begun x.moves → ∀ r,
      (run x.plan (start x.plan.graph x.begun) earlier).site.ledger.current.Holds r →
        x.site.ledger.current.Holds r ∨ x.Binds r) := by
  refine ⟨fun hsupplied hsteady r hr hsingle => ?_, fun r hr hsingle hne => ?_,
    fun hres earlier hearlier r => Session.holds_during hres hearlier⟩
  · rcases h.one_location_or hr hsingle with hone | hsup | ⟨y, hy, -, slot, hslot, hne⟩
    · exact hone
    · exact hsupplied _ hsup.merged.2 hsingle
    · exact absurd (hsteady y hy r.slot slot hsingle hslot) hne
  · rcases (h.one_location_or hr hsingle).resolve_left hne with hsup | hearlier
    · exact Or.inl hsup.merged
    · exact Or.inr hearlier

namespace Drawer

def catalog : Catalog := ⟨[Slot.single "in" .file .sources]⟩

/-- A session over no tasks on the given ledger, with files supplied for a single slot. -/
def session (names : List String) (l : Ledger) : Session where
  plan := ⟨catalog, ⟨[], [], [], ["in"]⟩, ⟨1, false, false⟩⟩
  supplies := [⟨"in", names.map Path.mk⟩]
  moves := []
  site := ⟨l, ⟨⟨[(["a"], .file []), (["b"], .file [])]⟩, [], [], 0, false, .bare⟩⟩

def first : Session := session ["a"] (.empty ⟨"state"⟩)

theorem slot_eq {s : SlotId} {slot : Slot} (h : catalog.find? s = some slot) :
    s = "in" ∧ slot = Slot.single "in" .file .sources := by
  have hmem : slot ∈ catalog.slots := List.mem_of_find?_eq_some h
  obtain rfl := List.mem_singleton.mp hmem
  exact ⟨(Catalog.id_of_find? h).symm, rfl⟩

/-- The second of two sessions on one ledger binds its supply, with one location. -/
theorem second_holds_one : ∃ r, (session ["b"] first.final).Binds r ∧ r.slot = "in" ∧
    r.locations.length = 1 := by
  obtain ⟨r, hrs, hslot⟩ : ∃ r, supplyRecords (session ["b"] first.final).site.world
      (session ["b"] first.final).supplies = .ok [r] ∧ r.slot = "in" := ⟨_, rfl, rfl⟩
  have hbinds : (session ["b"] first.final).Binds r := Or.inl ⟨[r], hrs, List.mem_cons_self⟩
  have hmerged : mergedSupplies (session ["b"] first.final).supplies = [("in", [⟨"b"⟩])] := rfl
  refine ⟨r, hbinds, hslot, (Lineage.single_slot_holds_one (.session (.empty ⟨"state"⟩))).1 ?_ ?_ r hbinds
    ⟨_, by rw [hslot]; rfl, rfl⟩⟩
  · intro m hm _
    rw [hmerged] at hm
    rw [List.mem_singleton.mp hm]
    rfl
  · intro y hy s slot _ hslot
    rw [List.mem_singleton.mp hy] at hslot
    rw [(slot_eq hslot).2]
    rfl

/-- The task of `Pack` in a catalog where its output is single. -/
def redeclared : Session :=
  { Pack.second with plan := { Pack.second.plan with catalog := ⟨[Slot.single "out" .file .outputs]⟩ } }

theorem redeclared_lineage : Lineage [Pack.first] redeclared.site.ledger := by
  have hfirst : Lineage [Pack.first] Pack.first.final := .session (.empty ⟨"state"⟩)
  have hread : FileTree.read ⟨[(["state"], .file Pack.first.final.current.toBytes)]⟩ [] ⟨"state"⟩ =
      .ok Pack.first.final.current.toBytes := rfl
  exact .load hfirst hread (Ledger.load_of_read hread)

theorem redeclared_records : (recordsAt redeclared.ended.site.ledger.current "out").map
    (fun r => (r.slot, r.locations)) = [("out", [])] := by
  have hsite := (Pack.complete_eq redeclared.plan redeclared.begun rfl rfl rfl rfl).2
  rw [Session.ended, show redeclared.moves = [] from rfl, hsite,
    show evaluate redeclared.plan.catalog redeclared.plan.config Pack.task redeclared.begun = _ from
      Pack.evaluate_second rfl]
  rfl

def pair : Session := session ["a", "b"] (.empty ⟨"state"⟩)

/-- Two files are supplied for a single slot; a slot that no file was reported for becomes single. -/
theorem not_single_holds_one :
    (Graph.build pair.plan.catalog ["in"] [] = .ok pair.plan.graph ∧ Lineage [] pair.site.ledger ∧
      ∃ r, pair.Binds r ∧ pair.plan.catalog.IsSingle r.slot ∧ pair.final.current.Holds r ∧
        r.locations = [⟨"a"⟩, ⟨"b"⟩]) ∧
    Graph.build redeclared.plan.catalog [] [Pack.task] = .ok redeclared.plan.graph ∧
      Lineage [Pack.first] redeclared.site.ledger ∧
      ∃ r, redeclared.Binds r ∧ redeclared.plan.catalog.IsSingle r.slot ∧
        redeclared.ended.site.ledger.current.Holds r ∧ r.locations = [] := by
  refine ⟨⟨rfl, .empty _, ?_⟩, rfl, redeclared_lineage, ?_⟩
  · obtain ⟨r, hrs, hslot, hfinal, hlocations⟩ : ∃ r, supplyRecords pair.site.world pair.supplies = .ok [r] ∧
        r.slot = "in" ∧ recordsAt pair.final.current "in" = [r] ∧ r.locations = [⟨"a"⟩, ⟨"b"⟩] :=
      ⟨_, rfl, rfl, rfl, rfl⟩
    refine ⟨r, Or.inl ⟨[r], hrs, List.mem_cons_self⟩, ⟨Slot.single "in" .file .sources, ?_, rfl⟩,
      ⟨"in", by rw [hfinal]; exact List.mem_cons_self⟩, hlocations⟩
    rw [hslot]
    rfl
  · obtain ⟨r, hr, heq⟩ := List.map_eq_singleton_iff.mp redeclared_records
    have hholds : redeclared.ended.site.ledger.current.Holds r :=
      ⟨"out", by rw [hr]; exact List.mem_cons_self⟩
    have hbinds := (Session.ended_holds (Session.exists_result rfl) hholds).resolve_left
      (Generation.not_holds_of_empty rfl r)
    refine ⟨r, hbinds, ⟨Slot.single "out" .file .outputs, ?_, rfl⟩, hholds, (Prod.mk.inj heq).2⟩
    rw [(Prod.mk.inj heq).1]
    rfl

end Drawer

end SlotBuild
