import Mathlib.Data.List.Perm.Basic
import SlotBuild.Proofs.Coordinator.Evaluations
import SlotBuild.Proofs.Graph.Closure
import SlotBuild.Proofs.Ledger.Upkeep
import SlotBuild.Session

/-! What a task finds in its input slots: the supply, if there is one, and one record of each task
that fills the slot, bound in the same session. -/

namespace SlotBuild

open Ledger (recordsAt bound)
open Coordinator

section supplies

variable {supplies : List Supply}

theorem mergedSupplies_ordered (supplies : List Supply) : (mergedSupplies supplies).Ordered := by
  have h : ∀ m : Keyed (List Path), m.Ordered → (supplies.foldl (fun m s =>
      Keyed.put s.slot ((Keyed.get? s.slot m).getD [] ++ s.locations) m) m).Ordered := by
    induction supplies with
    | nil => exact fun m hm => hm
    | cons s supplies ih => exact fun m hm => ih _ hm.put
  exact h [] .nil

theorem get?_mergedSupplies_isSome {s : SlotId} :
    (Keyed.get? s (mergedSupplies supplies)).isSome ↔ s ∈ supplies.map (·.slot) := by
  have h : ∀ m : Keyed (List Path), (Keyed.get? s (supplies.foldl (fun m s =>
      Keyed.put s.slot ((Keyed.get? s.slot m).getD [] ++ s.locations) m) m)).isSome ↔
        s ∈ supplies.map (·.slot) ∨ (Keyed.get? s m).isSome := by
    induction supplies with
    | nil => simp
    | cons x supplies ih =>
      intro m
      rw [List.foldl_cons, ih, Keyed.get?_put, List.map_cons, List.mem_cons]
      by_cases hx : x.slot = s
      · simp [hx]
      · simp [hx, Ne.symm hx]
  rw [mergedSupplies, h]
  simp [Keyed.get?]

theorem length_mergedSupplies (supplies : List Supply) (s : SlotId) :
    (Keyed.get? s (mergedSupplies supplies)).toList.length = if s ∈ supplies.map (·.slot) then 1 else 0 := by
  simp only [← get?_mergedSupplies_isSome]
  cases Keyed.get? s (mergedSupplies supplies) <;> rfl

theorem takeSupplies_ok {c : Catalog} {site site' : Site}
    (h : takeSupplies c supplies site = (.ok (), site')) : ∃ rs l,
      List.Forall₂ (fun x r => supplyRecord site.world x = .ok r) (mergedSupplies supplies) rs ∧
        bindAll c site.ledger rs = (.ok (), l) ∧ site' = { site with ledger := l } := by
  rw [takeSupplies] at h
  cases hrs : supplyRecords site.world supplies with
  | error e => simp [hrs] at h
  | ok rs =>
    rcases hl : bindAll c site.ledger rs with ⟨_ | _, l⟩
    · simp [hrs, hl] at h
    · exact ⟨rs, l, mapM_eq_ok.mp hrs, hl, by simpa [hrs, hl, eq_comm] using h⟩

theorem supplyRecord_ok {w : World} {x : SlotId × List Path} {r : Record}
    (h : supplyRecord w x = .ok r) : ∃ digest, w.files.fingerprint w.cwd x.2 = .ok digest ∧
      r = ⟨x.1, x.2, digest, none, none, w.clock⟩ := by
  obtain ⟨digest, hd, h⟩ := bind_eq_ok.mp h
  exact ⟨digest, hd, (Except.ok.inj h).symm⟩

theorem filter_supplyRecords {w : World} {m : Keyed (List Path)} (hm : m.Ordered) {rs : List Record}
    (h : List.Forall₂ (fun x r => supplyRecord w x = .ok r) m rs) (s : SlotId) :
    List.Forall₂ (fun locations r => supplyRecord w (s, locations) = .ok r)
      (Keyed.get? s m).toList (rs.filter fun r => r.slot = s) := by
  induction h with
  | nil => exact .nil
  | @cons x r m rs hx hrest ih =>
    obtain ⟨hlt, hm⟩ := List.pairwise_cons.mp hm
    obtain ⟨digest, -, heq⟩ := supplyRecord_ok hx
    have hslot : r.slot = x.1 := by rw [heq]
    by_cases hs : x.1 = s
    · have hnone : rs.filter (fun r => r.slot = s) = [] := by
        apply List.filter_eq_nil_iff.mpr
        intro r' hr'
        obtain ⟨y, hy, hyr⟩ := exists_left_of_forall₂ hrest r' hr'
        obtain ⟨_, -, heq'⟩ := supplyRecord_ok hyr
        have hne : y.1 ≠ s := hs ▸ (hlt y hy).ne'
        simpa [heq'] using hne
      subst hs
      rw [List.filter_cons_of_pos (by simpa using hslot), hnone]
      simpa [Keyed.get?] using hx
    · rw [List.filter_cons_of_neg (by simpa [hslot] using hs)]
      simpa [Keyed.get?, hs] using ih hm

theorem recordsAt_takeSupplies {c : Catalog} {site site' : Site}
    (h : takeSupplies c supplies site = (.ok (), site')) {s : SlotId} {slot : Slot}
    (hs : c.find? s = some slot) (hempty : recordsAt site.ledger.current s = []) :
    List.Forall₂ (fun locations r => supplyRecord site.world (s, locations) = .ok r)
      (Keyed.get? s (mergedSupplies supplies)).toList (recordsAt site'.ledger.current s) := by
  obtain ⟨rs, l, hrs, hbound, rfl⟩ := takeSupplies_ok h
  have hone := filter_supplyRecords (mergedSupplies_ordered supplies) hrs s
  rw [recordsAt_bindAll hbound hs, hempty]
  generalize (rs.filter fun r => r.slot = s) = found at hone
  have hle : found.length ≤ 1 := by
    rw [← hone.length_eq]
    exact Option.length_toList_le
  match found, hle with
  | [], _ => exact hone
  | [r], _ => simpa [bound] using hone

end supplies

section gathering

variable {p : Plan} {l l' : Ledger} {log : List Evaluation}

/-- Whether an evaluation has put a record into `s`. -/
def Evaluation.fills (p : Plan) (s : SlotId) (e : Evaluation) : Bool :=
  (e.outcome p).isSuccess && e.task.outputs.contains s

theorem Evaluation.fills_iff {s : SlotId} {e : Evaluation} :
    e.fills p s = true ↔ (e.outcome p).isSuccess = true ∧ s ∈ e.task.outputs := by
  simp [Evaluation.fills]

/-- Two tasks that fill one slot are two producers of it, so the slot is appendable, and no record
of one takes the place of a record of the other. -/
theorem Graph.Valid.bound_perm {c : Catalog} {g : Graph} (hg : g.Valid c) {i : Nat} {t : Task}
    (hi : g.task? i = some t) {s : SlotId} (hs : s ∈ t.outputs) {slot : Slot}
    (hslot : c.find? s = some slot) {xs : List Record} {r : Record} (hr : r.producer = some t.id)
    (hxs : ∀ x ∈ xs, (x.producer = none ∧ s ∈ g.supplied) ∨ ∃ j u, g.task? j = some u ∧ j ≠ i ∧
      s ∈ u.outputs ∧ x.producer = some u.id) : bound slot r xs = xs ++ [r] := by
  have hmem := (hg.mem_producersOf s i).mpr ⟨t, hi, hs⟩
  unfold bound
  split_ifs with happ
  · congr 1
    apply List.filter_eq_self.mpr
    intro x hx
    rw [hr]
    rcases hxs x hx with ⟨hx, -⟩ | ⟨j, u, hj, hji, -, hx⟩
    · simp [hx]
    · have hne : u.id ≠ t.id := fun heq => hji (hg.index_unique hj hi heq)
      simp [hx, hne]
  · obtain ⟨hone, hsupplied⟩ := hg.exclusive s slot hslot (by simpa using happ)
    have hnil : xs = [] := by
      apply List.eq_nil_iff_forall_not_mem.mpr
      intro x hx
      rcases hxs x hx with ⟨-, hsup⟩ | ⟨j, u, hj, hji, hu, -⟩
      · simp [hsupplied hsup] at hmem
      · have hmem' := (hg.mem_producersOf s j).mpr ⟨u, hj, hu⟩
        match hp : g.producersOf s, hone with
        | [], _ => simp [hp] at hmem
        | [k], _ =>
          simp only [hp, List.mem_singleton] at hmem hmem'
          exact hji (hmem'.trans hmem.symm)
    simp [hnil]

/-- As the ledger passes through the evaluations, each success adds one record to each output of the
task and nothing takes one away. -/
theorem Coordinator.Passes.gathers (h : Passes p l log l') (hg : p.graph.Valid p.catalog)
    (hfiled : l.previous.Filed) (htask : ∀ e ∈ log, p.graph.task? e.index = some e.task)
    (hnodup : (log.map (·.index)).Nodup) {s : SlotId} {slot : Slot}
    (hslot : p.catalog.find? s = some slot)
    (hbase : ∀ r ∈ recordsAt l.current s, r.producer = none ∧ s ∈ p.graph.supplied) :
    ∃ made, recordsAt l'.current s = recordsAt l.current s ++ made ∧
      List.Forall₂ (fun e r => r ∈ e.published p ∧ r.slot = s) (log.filter (Evaluation.fills p s)) made := by
  induction h with
  | nil => exact ⟨[], by simp, .nil⟩
  | @snoc log e before ih =>
    rw [List.map_append, List.nodup_append] at hnodup
    obtain ⟨hnodup, -, hnew⟩ := hnodup
    obtain ⟨made, hrecords, hmade⟩ := ih (fun x hx => htask x (List.mem_append_left _ hx)) hnodup
    have hprev : e.site.ledger.previous.Filed := by rwa [before.previous]
    have htask' := htask e (by simp)
    have hmember := List.mem_of_getElem? htask'
    have hev := e.evaluated p
    rw [List.filter_append]
    by_cases hfills : e.fills p s = true
    · obtain ⟨hsucc, hs⟩ := Evaluation.fills_iff.mp hfills
      obtain ⟨r, hr, hrs, hbound⟩ := hev.fills hprev hsucc hs hslot
      have hperm : bound slot r (recordsAt e.site.ledger.current s) =
          recordsAt e.site.ledger.current s ++ [r] := hg.bound_perm htask' hs hslot (published_producer hr)
        (fun x hx => by
          rw [hrecords] at hx
          rcases List.mem_append.mp hx with hx | hx
          · exact Or.inl (hbase x hx)
          · obtain ⟨y, hy, hyx, -⟩ := exists_left_of_forall₂ hmade x hx
            obtain ⟨hy, hyf⟩ := List.mem_filter.mp hy
            refine Or.inr ⟨y.index, y.task, htask y (List.mem_append_left _ hy), ?_,
              (Evaluation.fills_iff.mp hyf).2, published_producer hyx⟩
            exact hnew y.index (List.mem_map_of_mem hy) e.index (by simp))
      refine ⟨made ++ [r], ?_, ?_⟩
      · rw [hbound, hperm, hrecords, List.append_assoc]
      · simpa [hfills] using List.rel_append hmade (.cons ⟨hr, hrs⟩ .nil)
    · refine ⟨made, ?_, by simpa [hfills] using hmade⟩
      rw [← hrecords]
      by_cases hs : s ∈ e.task.outputs
      · have hfail : (e.outcome p).isSuccess = false := by
          simpa [Evaluation.fills_iff, hs] using hfills
        rw [hev.ledger_of_not_success hprev
          (fun x hx => hg.declared e.task hmember x (List.mem_append_right _ hx)) hfail]
      · exact hev.keeps hprev hs

theorem Coordinator.Logged.fillers_perm {c : Coordinator} (h : Logged p log c)
    (hg : p.graph.Valid p.catalog) {s : SlotId} (hdone : ∀ j ∈ p.graph.producersOf s, ∃ o,
      c.outcome? j = some o ∧ o.isSuccess = true) :
    ((log.filter (Evaluation.fills p s)).map (·.index)).Perm (p.graph.producersOf s) := by
  refine (List.perm_ext_iff_of_nodup (h.nodup.sublist (List.filter_sublist.map _))
    (hg.increasing s).nodup).mpr fun j => ?_
  rw [List.mem_map]
  constructor
  · rintro ⟨e, he, rfl⟩
    obtain ⟨he, hfills⟩ := List.mem_filter.mp he
    exact (hg.mem_producersOf s _).mpr ⟨e.task, h.task e he, (Evaluation.fills_iff.mp hfills).2⟩
  · intro hj
    obtain ⟨o, ho, hsucc⟩ := hdone j hj
    obtain ⟨e, he, rfl, rfl⟩ := h.exists_of_success ho hsucc
    obtain ⟨t, ht, hs⟩ := (hg.mem_producersOf s _).mp hj
    obtain rfl : e.task = t := Option.some.inj ((h.task e he).symm.trans ht)
    exact ⟨e, List.mem_filter.mpr ⟨he, Evaluation.fills_iff.mpr ⟨hsucc, hs⟩⟩, rfl⟩

theorem Coordinator.Coherent.producers_done {c : Coordinator} (h : c.Coherent p [])
    (hg : p.graph.Valid p.catalog) {i : Nat} {t : Task} (hi : i ∈ c.running)
    (ht : p.graph.task? i = some t) {s : SlotId} (hs : s ∈ t.inputs) :
    ∀ j ∈ p.graph.producersOf s, ∃ o, c.outcome? j = some o ∧ o.isSuccess = true := fun j hj =>
  h.clear i (by simp [underway, hi]) j ⟨⟨j, i, s⟩, (hg.mem_edges _).mpr ⟨hj, t, ht, hs⟩, rfl, rfl⟩

/-- What a session has put into a slot: the record of its supply, if it has one, and of each
producer one record that an evaluation of it in this session bound. -/
structure Gathered (p : Plan) (supplies : List Supply) (world : World) (log : List Evaluation)
    (s : SlotId) (supplied made : List Record) : Prop where
  supply : List.Forall₂ (fun locations r => supplyRecord world (s, locations) = .ok r)
    (Keyed.get? s (mergedSupplies supplies)).toList supplied
  length_supply : supplied.length = if p.graph.isSupplied s then 1 else 0
  production : List.Forall₂ (fun j r => ∃ e ∈ log, e.index = j ∧ (e.outcome p).isSuccess = true ∧
    r ∈ e.published p ∧ r.slot = s) (p.graph.producersOf s) made

theorem Gathered.mono {supplies : List Supply} {world : World} {more : List Evaluation} {s : SlotId}
    {supplied made : List Record} (h : Gathered p supplies world log s supplied made) (hsub : log ⊆ more) :
    Gathered p supplies world more s supplied made := by
  refine ⟨h.supply, h.length_supply, h.production.imp fun j r hr => ?_⟩
  obtain ⟨e, he, hr⟩ := hr
  exact ⟨e, hsub he, hr⟩

theorem Graph.BuiltFrom.mem_supplied_iff {c : Catalog} {supplies : List Supply} {g : Graph}
    (hg : g.BuiltFrom c (supplies.map (·.slot))) {s : SlotId} :
    s ∈ g.supplied ↔ (Keyed.get? s (mergedSupplies supplies)).isSome := by
  rw [get?_mergedSupplies_isSome, hg.valid.1, mem_sortedSet]

theorem producer_of_supplies {supplies : List Supply} {site₀ site : Site}
    (hg : p.graph.BuiltFrom p.catalog (supplies.map (·.slot)))
    (hempty : ∀ s, recordsAt site₀.ledger.current s = [])
    (hsupplies : takeSupplies p.catalog supplies site₀ = (.ok (), site)) {s : SlotId} {slot : Slot}
    (hslot : p.catalog.find? s = some slot) :
    ∀ r ∈ recordsAt site.ledger.current s, r.producer = none ∧ s ∈ p.graph.supplied := by
  intro r hr
  obtain ⟨locations, hloc, hlr⟩ := exists_left_of_forall₂
    (recordsAt_takeSupplies hsupplies hslot (hempty s)) r hr
  obtain ⟨_, -, rfl⟩ := supplyRecord_ok hlr
  exact ⟨rfl, hg.mem_supplied_iff.mpr (Option.isSome_iff_exists.mpr ⟨locations, Option.mem_toList.mp hloc⟩)⟩

theorem exists_gathered {supplies : List Supply} {site₀ site : Site}
    (hg : p.graph.BuiltFrom p.catalog (supplies.map (·.slot)))
    (hfiled : site₀.ledger.previous.Filed) (hempty : ∀ s, recordsAt site₀.ledger.current s = [])
    (hsupplies : takeSupplies p.catalog supplies site₀ = (.ok (), site)) (moves : List Move)
    {s : SlotId} {slot : Slot} (hslot : p.catalog.find? s = some slot)
    (hdone : ∀ j ∈ p.graph.producersOf s, ∃ o,
      (run p (start p.graph site) moves).outcome? j = some o ∧ o.isSuccess = true) :
    ∃ supplied made,
      (recordsAt (run p (start p.graph site) moves).site.ledger.current s).Perm (supplied ++ made) ∧
        Gathered p supplies site₀.world (evaluations p (start p.graph site) moves) s supplied made := by
  have hvalid := hg.valid.2
  have hlog := run_logged p site moves
  have hbase := recordsAt_takeSupplies hsupplies hslot (hempty s)
  have hprev : site.ledger.previous.Filed := by
    obtain ⟨rs, l, -, hb, rfl⟩ := takeSupplies_ok hsupplies
    have := bindAll_previous p.catalog site₀.ledger rs
    rw [hb] at this
    rwa [← this] at hfiled
  obtain ⟨made, hrecords, hmade⟩ := (run_passes p site moves).gathers hvalid hprev hlog.task hlog.nodup
    hslot (producer_of_supplies hg hempty hsupplies hslot)
  have hmade' : List.Forall₂ (fun j r => ∃ e ∈ evaluations p (start p.graph site) moves, e.index = j ∧
      (e.outcome p).isSuccess = true ∧ r ∈ e.published p ∧ r.slot = s)
      (((evaluations p (start p.graph site) moves).filter (Evaluation.fills p s)).map (·.index)) made := by
    have hall := (List.forall₂_and_left _ _).mpr ⟨fun e he => List.mem_filter.mp he, hmade⟩
    refine List.forall₂_map_left_iff.mpr (hall.imp ?_)
    rintro e r ⟨⟨he, hfills⟩, hr⟩
    exact ⟨e, he, rfl, (Evaluation.fills_iff.mp hfills).1, hr⟩
  obtain ⟨made', hmade', hperm⟩ := List.perm_comp_forall₂ (hlog.fillers_perm hvalid hdone).symm hmade'
  refine ⟨_, made', ?_, hbase, ?_, hmade'⟩
  · rw [hrecords]
    exact hperm.symm.append_left _
  · rw [← hbase.length_eq, length_mergedSupplies]
    simp only [Graph.isSupplied, List.contains_iff_mem, hg.mem_supplied_iff, get?_mergedSupplies_isSome]

end gathering

/-- From the time that a task is admitted until it is evaluated, each of its inputs holds the record
of its supply, if it has one, and one record of each producer, bound in this session, and no other. -/
theorem inputs_of_running {c : Catalog} {supplies : List Supply} {g : Graph}
    (hg : g.BuiltFrom c (supplies.map (·.slot))) {files : FileTree} {cwd : Key} {path : Path} {l : Ledger}
    (hload : Ledger.load files cwd path = .ok l) (hfiled : l.previous.Filed) {world : World} {site : Site}
    (hsupplies : takeSupplies c supplies ⟨l, world⟩ = (.ok (), site)) (config : SessionConfig)
    (moves : List Move) {i : Nat} {t : Task} {s : SlotId}
    (hi : i ∈ (run ⟨c, g, config⟩ (start g site) moves).running) (ht : g.task? i = some t)
    (hs : s ∈ t.inputs) :
    ∃ supplied made, ((run ⟨c, g, config⟩ (start g site) moves).site.ledger.currentRecords s).Perm
        (supplied ++ made) ∧
      Gathered ⟨c, g, config⟩ supplies world (evaluations ⟨c, g, config⟩ (start g site) moves) s
        supplied made := by
  obtain ⟨prev, rfl⟩ := Ledger.load_eq_after hload
  have hvalid := hg.valid.2
  obtain ⟨slot, hslot⟩ := hvalid.declared t (List.mem_of_getElem? ht) s (List.mem_append_left _ hs)
  have hdone := (run_logged ⟨c, g, config⟩ site moves).coherent.producers_done hvalid hi ht hs
  obtain ⟨supplied, made, hperm, hgathered⟩ := exists_gathered (p := ⟨c, g, config⟩) hg hfiled
    (fun s => rfl) hsupplies moves hslot hdone
  exact ⟨supplied, made, (Generation.recordsIn_perm _ s).trans hperm, hgathered⟩

/-! Two tasks, the second of which reads what the first makes. -/

namespace Relay

def catalog : Catalog := ⟨[Slot.multiple "x" .file .intermediates, Slot.multiple "y" .file .intermediates]⟩

def head : Task := (Task.make "a" fun _ w => (.reported [("x", [])], w)).withOutput "x"

def tail : Task := (Task.make "b" fun _ w => (.reported [], w)).withInput "x"

def graph : Graph := ⟨[head, tail], [⟨0, 1, "x"⟩], [("x", [0])], []⟩

def plan : Plan := ⟨catalog, graph, ⟨1, false, false⟩⟩

def world : World := ⟨.empty, [], [], 0, false, .bare⟩

def moves : List Move := [.coordinate, .work 0, .coordinate, .coordinate]

def reached (l : Ledger) : Coordinator := run plan (start graph ⟨l, world⟩) moves

def log (l : Ledger) : List Evaluation := evaluations plan (start graph ⟨l, world⟩) moves

theorem graph_builtFrom : graph.BuiltFrom catalog [] :=
  .build (show Graph.build catalog [] [head, tail] = .ok graph from rfl)

theorem tail_running : 1 ∈ (reached (.empty ⟨"state"⟩)).running := by decide +kernel

theorem tail_finds_head : ∃ supplied made,
    ((reached (.empty ⟨"state"⟩)).site.ledger.currentRecords "x").Perm (supplied ++ made) ∧
      Gathered plan [] world (log (.empty ⟨"state"⟩)) "x" supplied made := by
  have hload : Ledger.load .empty [] ⟨"state"⟩ = .ok (.empty ⟨"state"⟩) := by decide
  have hfiled : (Ledger.empty ⟨"state"⟩).previous.Filed := by
    simp [Generation.Filed, Ledger.empty, Ledger.after]
  have hsupplies : takeSupplies catalog [] ⟨.empty ⟨"state"⟩, world⟩ =
      (.ok (), ⟨.empty ⟨"state"⟩, world⟩) := rfl
  have htask : graph.task? 1 = some tail := rfl
  exact inputs_of_running graph_builtFrom hload hfiled hsupplies ⟨1, false, false⟩ moves tail_running htask
    List.mem_cons_self

/-- A record of `a` that stands under `x` and names `y`, as no session leaves it. -/
def misfiled : Generation := ⟨1, [("x", [⟨"y", [],
  "e3b0c44298fc1c149afbf4c8996fb92427ae41e4649b934ca495991b7852b855",
  some "06548e50f874027bb2681a30b63f6b6460e2d8fa8339761f002002b6d49d5702", some "a", 0⟩])],
  List.pairwise_singleton _ _⟩

theorem tail_misses_head : 1 ∈ (reached (.after ⟨"state"⟩ misfiled)).running ∧
    (reached (.after ⟨"state"⟩ misfiled)).site.ledger.currentRecords "x" = [] := by
  decide +kernel

/-- A state file with a misfiled record lets a task run without the record of a producer. -/
theorem not_gathered_of_misfiled : graph.BuiltFrom catalog [] ∧
    (∃ files cwd, Ledger.load files cwd ⟨"state"⟩ = .ok (.after ⟨"state"⟩ misfiled)) ∧
    takeSupplies catalog [] ⟨.after ⟨"state"⟩ misfiled, world⟩ =
      (.ok (), ⟨.after ⟨"state"⟩ misfiled, world⟩) ∧
    1 ∈ (reached (.after ⟨"state"⟩ misfiled)).running ∧ graph.task? 1 = some tail ∧ "x" ∈ tail.inputs ∧
    ¬ ∃ supplied made,
      ((reached (.after ⟨"state"⟩ misfiled)).site.ledger.currentRecords "x").Perm (supplied ++ made) ∧
        Gathered plan [] world (log (.after ⟨"state"⟩ misfiled)) "x" supplied made := by
  have hread : FileTree.read ⟨[(["state"], .file misfiled.toBytes)]⟩ [] ⟨"state"⟩ =
      .ok misfiled.toBytes := rfl
  obtain ⟨hrunning, hnone⟩ := tail_misses_head
  refine ⟨graph_builtFrom, ⟨_, _, Ledger.load_of_read hread⟩, rfl, hrunning, rfl,
    List.mem_cons_self, ?_⟩
  rintro ⟨supplied, made, hperm, hgathered⟩
  rw [hnone] at hperm
  have hmade : made = [] := (List.append_eq_nil_iff.mp (List.nil_perm.mp hperm)).2
  have hproducers : plan.graph.producersOf "x" = [0] := rfl
  have hlen := hgathered.production.length_eq
  simp [hmade, hproducers] at hlen

end Relay

end SlotBuild
