import SlotBuild.Proofs.FileTree.Locations
import SlotBuild.Proofs.Record.Order
import SlotBuild.Proofs.Session.Incremental
import SlotBuild.Proofs.Session.Rerun

/-! What a task that is up to date would have been handed. Slot by slot it finds records of the same
producers in the same order as the execution that stands for it, and each of them has the same
locations, though not always in the same order. -/

namespace SlotBuild

open Ledger (recordsAt)
open Coordinator

namespace Evaluation

/-- The records that the task finds in an input; it finds none anywhere else. -/
def inputRecords (e : Evaluation) (s : SlotId) : List Record :=
  if s ∈ e.task.inputs then e.site.ledger.currentRecords s else []

/-- The paths that an action is handed for a slot. -/
def handed (e : Evaluation) (s : SlotId) : List Path := (Keyed.get? s (e.task.callAt e.site).inputs).getD []

theorem get?_inputs (e : Evaluation) (s : SlotId) : Keyed.get? s (e.task.callAt e.site).inputs =
    if s ∈ e.task.inputs then some ((e.inputRecords s).flatMap (·.locations)) else none := by
  rw [Task.callAt, Task.inputPaths, Keyed.get?_ofList_map]
  by_cases hs : s ∈ e.task.inputs
  · simp [hs, inputRecords]
  · simp [hs]

theorem handed_eq (e : Evaluation) (s : SlotId) : e.handed s = (e.inputRecords s).flatMap (·.locations) := by
  rw [handed, get?_inputs]
  by_cases hs : s ∈ e.task.inputs
  · simp [hs]
  · simp [hs, inputRecords]

theorem inputRecords_upTo (e : Evaluation) (hsingle : e.site.ledger.current.Single) (s : SlotId) :
    (e.inputRecords s).Pairwise fun a b => a.upTo b = true := by
  unfold inputRecords
  split
  · exact Generation.recordsIn_upTo hsingle s
  · exact .nil

theorem eq_of_producer (e : Evaluation) (hsingle : e.site.ledger.current.Single) {s : SlotId} {a b : Record}
    (ha : a ∈ e.inputRecords s) (hb : b ∈ e.inputRecords s) (h : a.producer = b.producer) : a = b := by
  by_cases hs : s ∈ e.task.inputs
  · rw [inputRecords, if_pos hs] at ha hb
    exact hsingle.eq_of_producer (Generation.mem_recordsIn.mp ha) (Generation.mem_recordsIn.mp hb) h
  · simp [inputRecords, hs] at ha

/-- What two actions are handed comes from the same producers in the same order, and from each of
them the same paths. -/
structure HandedAlike (d e : Evaluation) : Prop where
  paths : ∀ f ∈ [d, e], ∀ s, f.handed s = (f.inputRecords s).flatMap (·.locations)
  records : ∀ s, List.Forall₂ (fun r r' => r.producer = r'.producer ∧ r.locations.Perm r'.locations)
    (d.inputRecords s) (e.inputRecords s)

variable {d e : Evaluation}

theorem HandedAlike.handed_eq (h : d.HandedAlike e) {s : SlotId}
    (hone : ∀ r ∈ e.inputRecords s, r.locations.length ≤ 1) : d.handed s = e.handed s := by
  have hsame : (e.inputRecords s).map (·.locations) = (d.inputRecords s).map (·.locations) := by
    rw [← List.forall₂_eq_eq_eq, List.forall₂_map_left_iff, List.forall₂_map_right_iff]
    refine ((List.forall₂_and_left _ _).mpr ⟨hone, (h.records s).flip⟩).imp fun r r' hr => ?_
    obtain ⟨hlen, -, hperm⟩ := hr
    match hlocations : r.locations, hlen with
    | [], _ => exact (List.perm_nil.mp (hlocations ▸ hperm)).symm
    | [p], _ => exact (List.perm_singleton.mp (hlocations ▸ hperm)).symm
  rw [Evaluation.handed_eq, Evaluation.handed_eq, List.flatMap_def, List.flatMap_def, hsame]

theorem HandedAlike.inputs_eq (h : d.HandedAlike e) (hslots : ∀ s, s ∈ d.task.inputs ↔ s ∈ e.task.inputs)
    (hone : ∀ s, ∀ r ∈ e.inputRecords s, r.locations.length ≤ 1) :
    (d.task.callAt d.site).inputs = (e.task.callAt e.site).inputs := by
  refine Keyed.Ordered.ext (.ofList _) (.ofList _) fun s => ?_
  have hhanded := h.handed_eq (hone s)
  rw [Evaluation.handed_eq, Evaluation.handed_eq] at hhanded
  rw [get?_inputs, get?_inputs, hhanded]
  simp only [hslots s]

end Evaluation

namespace Session

/-- Every octet string that is hashed for the inputs of the tasks and for the locations that are
supplied or published, the contents that lie there apart. -/
def octets (x : Session) : Set Bytes :=
  {b | (∃ e ∈ x.evaluations, b ∈ e.hashed) ∨
    (∃ m ∈ mergedSupplies x.supplies, b ∈ x.site.world.files.hashed x.site.world.cwd m.2) ∨
    ∃ e ∈ x.evaluations, ∃ r ∈ e.published x.plan,
      b ∈ (e.after x.plan).world.files.hashed (e.after x.plan).world.cwd r.locations}

/-- The record was made in the session: it tells its producer by the fingerprint of the inputs, and
what it records has been hashed. -/
structure Vouches (x : Session) (r : Record) : Prop where
  maker : (r.producer = none ∧ r.inputFingerprint = none) ∨
    ∃ f ∈ x.evaluations, r.producer = some f.task.id ∧ r.inputFingerprint = some f.fingerprint
  content : ∃ files : FileTree, ∃ cwd, files.fingerprint cwd r.locations = .ok r.fingerprint ∧
    files.hashed cwd r.locations ⊆ x.octets

variable {x : Session} {res : SessionResult} {e : Evaluation}

theorem vouches (hfresh : x.Fresh) (hres : x.result.1 = .ok res) (he : e ∈ x.evaluations) {s : SlotId}
    {r : Record} (hr : r ∈ e.site.ledger.currentRecords s) : x.Vouches r := by
  have hr := Generation.mem_recordsIn.mp hr
  rcases site_sources hfresh hres he s r hr with ⟨m, hm, hsupply⟩ | ⟨f, hf, hpub⟩
  · obtain ⟨digest, hdigest, rfl⟩ := supplyRecord_ok hsupply
    exact ⟨Or.inl ⟨rfl, rfl⟩, _, _, hdigest, fun b hb => Or.inr (Or.inl ⟨m, hm, hb⟩)⟩
  · obtain ⟨hinputs, hcontent⟩ := (f.evaluated x.plan).recorded hpub
    exact ⟨Or.inr ⟨f, hf, published_producer hpub, hinputs⟩, _, _, hcontent,
      fun b hb => Or.inr (Or.inr ⟨f, hf, r, hpub, hb⟩)⟩

/-- In a session over its own graph there is something in each input. -/
theorem mem_inputs_iff (hg : x.plan.graph.BuiltFrom x.plan.catalog (x.supplies.map (·.slot)))
    (hfresh : x.Fresh) (hfiled : x.site.ledger.previous.Filed) (hres : x.result.1 = .ok res)
    (he : e ∈ x.evaluations) {s : SlotId} : s ∈ e.task.inputs ↔ e.inputRecords s ≠ [] := by
  by_cases hs : s ∈ e.task.inputs
  · obtain ⟨supplied, made, hperm, hgathered⟩ := gathered hg hfresh hfiled hres he hs
    have hlength := hperm.length_eq
    have hsupplied := hgathered.length_supply
    have hmade := hgathered.production.length_eq
    rw [List.length_append] at hlength
    have hsome : 0 < (e.site.ledger.currentRecords s).length := by
      rcases hg.valid.2.filled e.task (task_mem he) s hs with hne | hmem
      · have := List.length_pos_iff.mpr hne
        omega
      · simp only [Graph.isSupplied, List.contains_iff_mem.mpr hmem, if_true] at hsupplied
        omega
    simpa [Evaluation.inputRecords, hs] using List.length_pos_iff.mp hsome
  · simp [Evaluation.inputRecords, hs]

end Session

namespace History

variable {xs past : List Session} {x y : Session} {res res' : SessionResult} {e d : Evaluation}

/-- Nothing that is hashed in the sessions collides with anything else. -/
def Distinct (xs : List Session) : Prop := Digest.CollisionFree {b | ∃ x ∈ xs, b ∈ x.octets}

theorem Distinct.inputs (h : Distinct xs) :
    Digest.CollisionFree {b | ∃ x ∈ xs, ∃ e ∈ x.evaluations, b ∈ e.hashed} :=
  Set.InjOn.mono (fun _ hb => hb.imp fun _ hz => ⟨hz.1, Or.inl hz.2⟩) h

theorem filter_inputRecords (h : History (x :: past)) (hres : x.result.1 = .ok res) (he : e ∈ x.evaluations)
    (s : SlotId) : (e.task.boundRecords e.site.ledger.currentRecords).filter (fun r => r.slot = s) =
      e.inputRecords s :=
  Task.filter_boundRecords e.task (fun s r hr => (h.found hres he s r hr).1) s

theorem alike_of_fields (h : History xs)
    (hconfig : ∀ x ∈ xs, ∀ t ∈ x.plan.graph.tasks, Digest.IsDigest t.configDigest) (hfree : Distinct xs)
    (hx : x ∈ xs) (hy : y ∈ xs) (hres : x.result.1 = .ok res) (hres' : y.result.1 = .ok res') {r r' : Record}
    (hr : x.Vouches r) (hr' : y.Vouches r') (hfields : Fingerprint.fields r = Fingerprint.fields r') :
    r.producer = r'.producer ∧ r.locations.Perm r'.locations := by
  obtain ⟨hmaker, files, cwd, hcontent, hhashed⟩ := hr
  obtain ⟨hmaker', files', cwd', hcontent', hhashed'⟩ := hr'
  simp only [Fingerprint.fields, Prod.mk.injEq] at hfields
  obtain ⟨-, hfingerprint, hinputs⟩ := hfields
  constructor
  · -- only a supply has no input fingerprint, so both records are of supplies or both were made
    rcases hmaker with ⟨hnone, hsupplied⟩ | ⟨f, hf, hq, hmade⟩
    · rcases hmaker' with ⟨hnone', -⟩ | ⟨f', -, -, hmade'⟩
      · rw [hnone, hnone']
      · simp [← hinputs, hsupplied] at hmade'
    · rcases hmaker' with ⟨-, hsupplied'⟩ | ⟨f', hf', hq', hmade'⟩
      · simp [hinputs, hsupplied'] at hmade
      · have hsame : f.fingerprint = f'.fingerprint := by
          rw [hmade, hmade'] at hinputs
          exact Option.some.inj hinputs
        have hid := (h.fields_perm hfree.inputs hx hy hres hres' hf hf' (hconfig x hx _ (Session.task_mem hf))
          (hconfig y hy _ (Session.task_mem hf')) hsame).1
        rw [hq, hq', hid]
  · rw [← hfingerprint] at hcontent'
    exact FileTree.perm_of_fingerprint_eq hfree hcontent hcontent' (fun b hb => ⟨x, hx, hhashed hb⟩)
      fun b hb => ⟨y, hy, hhashed' hb⟩

theorem pairwise_upTo_of_producers {rs rs' : List Record}
    (hsame : List.Forall₂ (fun r r' => r.producer = r'.producer) rs rs')
    (hrs : rs.Pairwise fun a b => a.upTo b = true) : rs'.Pairwise fun a b => a.upTo b = true := by
  have hproducers : rs.map (·.producer) = rs'.map (·.producer) := by
    rwa [← List.forall₂_eq_eq_eq, List.forall₂_map_left_iff, List.forall₂_map_right_iff]
  have hsorted : (rs.map (·.producer)).Pairwise fun q q' => (Ord.compare q q').isLE = true :=
    List.pairwise_map.mpr hrs
  rw [hproducers] at hsorted
  exact List.pairwise_map.mp hsorted

/-- The records that a task counts are told apart by slot and producer, so that the order in which
they are listed follows from what they are. -/
theorem handedAlike (h : History xs)
    (hconfig : ∀ x ∈ xs, ∀ t ∈ x.plan.graph.tasks, Digest.IsDigest t.configDigest) (hfree : Distinct xs)
    (hx : x ∈ xs) (hy : y ∈ xs) (hres : x.result.1 = .ok res) (hres' : y.result.1 = .ok res')
    (he : e ∈ x.evaluations) (hd : d ∈ y.evaluations) (hall : e.task.filter = .all)
    (hall' : d.task.filter = .all) (hfp : e.fingerprint = d.fingerprint) : e.HandedAlike d := by
  obtain ⟨older, hold⟩ := h.exists_older hx
  obtain ⟨older', hold'⟩ := h.exists_older hy
  have hfresh := hold.previous_traced.1
  have hfresh' := hold'.previous_traced.1
  have hperm := (h.fields_perm hfree.inputs hx hy hres hres' he hd (hconfig x hx _ (Session.task_mem he))
    (hconfig y hy _ (Session.task_mem hd)) hfp).2.2
  rw [Fingerprint.counted_of_all hall, Fingerprint.counted_of_all hall'] at hperm
  obtain ⟨listed, hlisted, hperm⟩ := exists_forall₂_of_map_perm (R := fun r r' => r.slot = r'.slot ∧
    r.producer = r'.producer ∧ r.locations.Perm r'.locations) (fun r hr r' hr' hfields => by
      obtain ⟨s, -, hr⟩ := List.mem_flatMap.mp hr
      obtain ⟨s', -, hr'⟩ := List.mem_flatMap.mp hr'
      exact ⟨congrArg Prod.fst hfields, h.alike_of_fields hconfig hfree hx hy hres hres'
        (Session.vouches hfresh hres he hr) (Session.vouches hfresh' hres' hd hr') hfields⟩) hperm
  refine ⟨fun f _ s => f.handed_eq s, fun s => ?_⟩
  have hslot := hold.filter_inputRecords hres he s
  have hslot' := hold'.filter_inputRecords hres' hd s
  have hpart : List.Forall₂ (fun r r' => r.slot = r'.slot ∧ r.producer = r'.producer ∧
      r.locations.Perm r'.locations) (e.inputRecords s) (listed.filter fun r => r.slot = s) := by
    rw [← hslot]
    exact List.rel_filter (fun r r' hr => by simp [hr.1]) hlisted
  have hfound : (listed.filter fun r => r.slot = s).Perm (d.inputRecords s) := by
    rw [← hslot']
    exact hperm.filter _
  have hsorted := pairwise_upTo_of_producers (hpart.imp fun r r' hr => hr.2.1)
    (e.inputRecords_upTo (Session.site_tidy hfresh hres he).single s)
  have heq : listed.filter (fun r => r.slot = s) = d.inputRecords s := by
    refine List.Perm.eq_of_pairwise (fun a b ha hb hab hba => ?_) hsorted
      (d.inputRecords_upTo (Session.site_tidy hfresh' hres' hd).single s) hfound
    exact d.eq_of_producer (Session.site_tidy hfresh' hres' hd).single (hfound.mem_iff.mp ha) hb
      (Record.producer_eq_of_upTo hab hba)
  rw [← heq]
  exact hpart.imp fun r r' hr => hr.2

theorem mem_inputs_iff_of_handedAlike (hx : History (x :: past)) {older : List Session}
    (hy : History (y :: older))
    (hres : x.result.1 = .ok res) (hres' : y.result.1 = .ok res') (he : e ∈ x.evaluations)
    (hd : d ∈ y.evaluations) (h : d.HandedAlike e)
    (hg : x.plan.graph.BuiltFrom x.plan.catalog (x.supplies.map (·.slot)))
    (hg' : y.plan.graph.BuiltFrom y.plan.catalog (y.supplies.map (·.slot))) (s : SlotId) :
    s ∈ d.task.inputs ↔ s ∈ e.task.inputs := by
  obtain ⟨hfresh, htraced⟩ := hx.previous_traced
  obtain ⟨hfresh', htraced'⟩ := hy.previous_traced
  have hlength := (h.records s).length_eq
  rw [Session.mem_inputs_iff hg hfresh htraced.filed hres he,
    Session.mem_inputs_iff hg' hfresh' htraced'.filed hres' hd,
    ← List.length_pos_iff, ← List.length_pos_iff, hlength]

end History

/-- Where a session passes a task as up to date, an earlier execution of it stands for it and was
handed alike, unless two of the octet strings that were hashed collide. Where no record of a slot
has several locations, the slot holds the same list of paths. If each session has built its graph
for what it is supplied with, both actions are handed the same slots. -/
theorem History.upToDate_handedAlike {x : Session} {past : List Session} (h : History (x :: past))
    (hconfig : ∀ y ∈ x :: past, ∀ t ∈ y.plan.graph.tasks, Digest.IsDigest t.configDigest)
    {res : SessionResult} (hres : x.result.1 = .ok res) :
    ∀ report ∈ res.reports, report.outcome = .skipped .upToDate → ∃ e ∈ x.evaluations,
      e.task.id = report.task ∧ e.outcome x.plan = .skipped .upToDate ∧
      ∃ y ∈ past, ∃ d, y.Executed d ∧ d.task.id = e.task.id ∧
        (∀ r ∈ e.published x.plan, r ∈ d.published y.plan) ∧
        (d.task.filter = .all → e.task.filter = .all →
          (∃ a b, (∃ z ∈ x :: past, a ∈ z.octets) ∧ (∃ z ∈ x :: past, b ∈ z.octets) ∧ a ≠ b ∧
            Sha256.digest a = Sha256.digest b) ∨
          d.HandedAlike e ∧
            (∀ s, (∀ r ∈ e.inputRecords s, r.locations.length ≤ 1) → d.handed s = e.handed s) ∧
            (x.plan.graph.BuiltFrom x.plan.catalog (x.supplies.map (·.slot)) →
              y.plan.graph.BuiltFrom y.plan.catalog (y.supplies.map (·.slot)) →
              (∀ s, s ∈ d.task.inputs ↔ s ∈ e.task.inputs) ∧
                ((∀ s, ∀ r ∈ e.inputRecords s, r.locations.length ≤ 1) →
                  (d.task.callAt d.site).inputs = (e.task.callAt e.site).inputs))) := by
  intro report hreport hup
  obtain ⟨e, he, hid, ho⟩ := History.exists_reused hres hreport hup
  obtain ⟨-, -, y, hy, d, hd, hdid, hfp, hpub⟩ := h.reused_origin hres he ho
  refine ⟨e, he, hid, ho, y, hy, d, hd, hdid, hpub, fun hall' hall => ?_⟩
  have hmem : y ∈ x :: past := List.mem_cons_of_mem x hy
  obtain ⟨res', hres'⟩ := hd.completed
  obtain ⟨older, hold⟩ := h.exists_older hmem
  by_cases hfree : History.Distinct (x :: past)
  · have halike := h.handedAlike hconfig hfree hmem List.mem_cons_self hres' hres hd.mem he hall' hall hfp
    refine Or.inr ⟨halike, fun s hone => halike.handed_eq hone, fun hg hg' => ?_⟩
    have hslots := h.mem_inputs_iff_of_handedAlike hold hres hres' he hd.mem halike hg hg'
    exact ⟨hslots, halike.inputs_eq hslots⟩
  · obtain ⟨a, ha, b, hb, hne, hab⟩ := Digest.exists_collision hfree
    exact Or.inl ⟨a, b, ha, hb, hne, hab⟩

/-! A task with two sources, which are supplied in one order and then in the other. -/

namespace Basket

def catalog : Catalog := ⟨[Slot.multiple "in" .file .sources, Slot.multiple "out" .file .outputs]⟩

def task : Task :=
  ((Task.make "sort" fun _ w => (.reported [("out", [])], w)).withInput "in").withOutput "out"

def graph : Graph := ⟨[task], [], [("out", [0])], ["in"]⟩

def world : World := ⟨⟨[(["a"], .file []), (["b"], .file [])]⟩, [], [], 0, false, .bare⟩

def session (locations : List Path) (l : Ledger) : Session where
  plan := ⟨catalog, graph, ⟨1, false, false⟩⟩
  supplies := [⟨"in", locations⟩]
  moves := []
  site := ⟨l, world⟩

def first : Session := session [⟨"a"⟩, ⟨"b"⟩] (.empty ⟨"state"⟩)

def second : Session := session [⟨"b"⟩, ⟨"a"⟩] (.after ⟨"state"⟩ first.final.current)

theorem graph_builtFrom : graph.BuiltFrom catalog ["in"] :=
  .build (show Graph.build catalog ["in"] [task] = .ok graph from rfl)

theorem exists_fingerprint : ∃ digest, world.files.fingerprint world.cwd [⟨"a"⟩, ⟨"b"⟩] = .ok digest ∧
    world.files.fingerprint world.cwd [⟨"b"⟩, ⟨"a"⟩] = .ok digest := by
  have hone : ∃ digest, world.files.fingerprint world.cwd [⟨"a"⟩, ⟨"b"⟩] = .ok digest := ⟨_, rfl⟩
  obtain ⟨digest, hdigest⟩ := hone
  exact ⟨digest, hdigest, FileTree.fingerprint_perm (.swap _ _ _) hdigest⟩

section session

variable {locations : List Path} {digest : String}

theorem exists_result (hdigest : world.files.fingerprint world.cwd locations = .ok digest) (l : Ledger) :
    ∃ res, (session locations l).result.1 = .ok res := by
  have hrecord : supplyRecord world ("in", locations) = .ok ⟨"in", locations, digest, none, none, 0⟩ :=
    bind_eq_ok.mpr ⟨digest, hdigest, rfl⟩
  have hrecords : supplyRecords world [⟨"in", locations⟩] = .ok [⟨"in", locations, digest, none, none, 0⟩] :=
    mapM_eq_ok.mpr (.cons hrecord .nil)
  have hdeclared : ∀ r ∈ ([⟨"in", locations, digest, none, none, 0⟩] : List Record),
      ∃ slot, catalog.find? r.slot = some slot := by simpa using ⟨_, rfl⟩
  obtain ⟨l', hbound⟩ := bindAll_of_declared hdeclared l
  have htake : takeSupplies catalog [⟨"in", locations⟩] ⟨l, world⟩ = (.ok (), ⟨l', world⟩) := by
    rw [takeSupplies, hrecords]
    simp only [hbound]
  exact Session.exists_result (x := session locations l) htake

theorem live (hdigest : world.files.fingerprint world.cwd locations = .ok digest) (l : Ledger) :
    (session locations l).Live := by
  obtain ⟨res, hres⟩ := exists_result hdigest l
  refine Session.live_of_quiet hres (by simp [session]) rfl fun t ht call w hw => ?_
  rw [List.mem_singleton.mp ht]
  exact hw

theorem world_eq (hdigest : world.files.fingerprint world.cwd locations = .ok digest) {l : Ledger}
    {e : Evaluation}
    (he : e ∈ (session locations l).evaluations) : e.site.world = world ∧
      (e.after (session locations l).plan).world = world := by
  obtain ⟨res, hres⟩ := exists_result hdigest l
  refine (live hdigest l).world_eq hres (fun t ht call w => ?_) he
  rw [List.mem_singleton.mp ht]
  rfl

theorem task_eq {l : Ledger} {e : Evaluation} (he : e ∈ (session locations l).evaluations) : e.task = task :=
  List.mem_singleton.mp (Session.task_mem he)

theorem exists_evaluation (hdigest : world.files.fingerprint world.cwd locations = .ok digest) (l : Ledger) :
    ∃ e, e ∈ (session locations l).evaluations := by
  have hacyclic : (session locations l).plan.graph.IsAcyclic := graph_builtFrom.valid.2.acyclic
  have hsteady := (live hdigest l).steady fun e _ => rfl
  obtain ⟨o, ho⟩ := (session locations l).logged.coherent.all_settled hacyclic
    (session locations l).ended_isDone 0 Nat.zero_lt_one
  obtain ⟨e, he, -, -⟩ := hsteady.exists_evaluation ho fun j o' hj => by
    obtain ⟨edge, hedge, -⟩ := hj
    simp [session, graph] at hedge
  exact ⟨e, he⟩

theorem records_eq (hdigest : world.files.fingerprint world.cwd locations = .ok digest) {l : Ledger}
    (hl : l.Opened) {e : Evaluation} (he : e ∈ (session locations l).evaluations) :
    e.site.ledger.currentRecords "in" = [⟨"in", locations, digest, none, none, 0⟩] := by
  obtain ⟨res, hres⟩ := exists_result hdigest l
  have hproper : (session locations l).Proper res := ⟨graph_builtFrom, hl, hres⟩
  have hin : "in" ∈ e.task.inputs := by
    rw [task_eq he]
    exact List.mem_singleton_self _
  obtain ⟨supplied, made, hperm, hgathered⟩ :=
    Session.gathered hproper.graph hproper.fresh hproper.previous.filed hres he hin
  have hmade : made = [] := List.forall₂_nil_left_iff.mp hgathered.production
  have hsupply : List.Forall₂ (fun ps r => supplyRecord world ("in", ps) = .ok r) [locations] supplied :=
    hgathered.supply
  obtain ⟨r, _, hr, hnone, rfl⟩ := List.forall₂_cons_left_iff.mp hsupply
  obtain rfl := List.forall₂_nil_left_iff.mp hnone
  obtain ⟨digest', hdigest', rfl⟩ := supplyRecord_ok hr
  obtain rfl := Except.ok.inj (hdigest'.symm.trans hdigest)
  rw [hmade] at hperm
  exact List.perm_singleton.mp hperm

theorem boundRecords_eq (hdigest : world.files.fingerprint world.cwd locations = .ok digest) {l : Ledger}
    (hl : l.Opened) {e : Evaluation} (he : e ∈ (session locations l).evaluations) :
    e.task.boundRecords e.site.ledger.currentRecords = [⟨"in", locations, digest, none, none, 0⟩] := by
  have hinputs : e.task.inputs = ["in"] := by rw [task_eq he]; rfl
  rw [Task.boundRecords, hinputs, List.flatMap_singleton, records_eq hdigest hl he]

theorem fingerprint_eq (hdigest : world.files.fingerprint world.cwd locations = .ok digest) {l : Ledger}
    (hl : l.Opened) {e : Evaluation} (he : e ∈ (session locations l).evaluations) :
    e.fingerprint = Fingerprint.ofInputs task [⟨"in", locations, digest, none, none, 0⟩] := by
  rw [Evaluation.fingerprint, Task.fingerprintAt, boundRecords_eq hdigest hl he, task_eq he]

end session

theorem first_proper : ∃ res, first.Proper res := by
  obtain ⟨digest, hdigest, -⟩ := exists_fingerprint
  obtain ⟨res, hres⟩ := exists_result hdigest (.empty ⟨"state"⟩)
  exact ⟨res, graph_builtFrom, .inl ⟨⟨"state"⟩, rfl⟩, hres⟩

theorem second_loads : second.Loads [first] ∧ second.site.ledger.Opened := by
  obtain ⟨res, hfirst⟩ := first_proper
  have hread : FileTree.read ⟨[(["state"], .file first.final.current.toBytes)]⟩ [] ⟨"state"⟩ =
      .ok first.final.current.toBytes := rfl
  have hload := Ledger.load_of_read hread
  exact ⟨⟨_, _, _, hload, .inr ⟨first, List.mem_cons_self, ⟨res, hfirst.completed⟩, hread⟩⟩,
    .inr ⟨_, _, _, first.final, hfirst.kept, hread, hload⟩⟩

theorem second_proper : ∃ res, second.Proper res := by
  obtain ⟨digest, -, hdigest⟩ := exists_fingerprint
  obtain ⟨res, hres⟩ := exists_result hdigest (.after ⟨"state"⟩ first.final.current)
  exact ⟨res, graph_builtFrom, second_loads.2, hres⟩

theorem first_history : History [first] :=
  .cons .nil ⟨catalog, _, graph_builtFrom⟩ ⟨.empty, [], ⟨"state"⟩, by decide, .inl (by decide)⟩

theorem second_history : History [second, first] :=
  .cons first_history ⟨catalog, _, graph_builtFrom⟩ second_loads.1

theorem first_succeeds {d : Evaluation} (hd : d ∈ first.evaluations) :
    (d.outcome first.plan).isSuccess = true := by
  obtain ⟨res, hfirst⟩ := first_proper
  obtain ⟨digest, hdigest, -⟩ := exists_fingerprint
  have hrebuilds : first.Rebuilds first := ⟨rfl, rfl, rfl, fun _ _ => rfl, ⟨⟨"state"⟩, rfl⟩⟩
  obtain ⟨reason, hdue⟩ := hrebuilds.due hfirst.completed hd
  have hlive := (live hdigest (.empty ⟨"state"⟩)).site hd
  rw [Evaluation.outcome]
  rw [task_eq hd] at hdue ⊢
  have hchecked : ∀ fingerprint : String,
      outputRecords first.plan.catalog d.site.world task fingerprint [("out", [])] =
        .ok [⟨"out", [], Digest.ofUnordered [], some fingerprint, some "sort", d.site.world.clock⟩] :=
    fun _ => rfl
  rw [Evaluation.fingerprint, task_eq hd] at hdue
  rw [evaluate_of_ran hdue hlive rfl (hchecked _)]
  rfl

theorem second_outcome {e : Evaluation} (he : e ∈ second.evaluations) :
    e.outcome second.plan = .skipped .upToDate := by
  obtain ⟨res, hfirst⟩ := first_proper
  obtain ⟨res', hsecond⟩ := second_proper
  obtain ⟨digest, hdigest, hdigest'⟩ := exists_fingerprint
  obtain ⟨d, hd⟩ : ∃ d, d ∈ first.evaluations := exists_evaluation hdigest (.empty ⟨"state"⟩)
  have hfingerprint : e.fingerprint = d.fingerprint := by
    rw [fingerprint_eq hdigest' hsecond.ledger he, fingerprint_eq hdigest hfirst.ledger hd]
    rfl
  have htask : e.task = d.task := (task_eq he).trans (task_eq hd).symm
  have hne : d.task.outputs ≠ [] := by
    rw [task_eq hd]
    exact List.cons_ne_nil _ _
  refine (Session.Follows.Reuses.of_success hfirst hsecond.completed rfl rfl hd (first_succeeds hd)
    hne he htask
    hfingerprint fun r _ => ?_).outcome_eq hsecond he
  have hthen : (d.after first.plan).world = world := (world_eq hdigest hd).2
  rw [(world_eq hdigest' he).1, hthen]

theorem second_reports : ∃ res, second.result.1 = .ok res ∧
    (⟨"sort", .skipped .upToDate⟩ : Report) ∈ res.reports := by
  obtain ⟨res, hsecond⟩ := second_proper
  obtain ⟨digest, -, hdigest⟩ := exists_fingerprint
  obtain ⟨e, he⟩ : ∃ e, e ∈ second.evaluations :=
    exists_evaluation hdigest (.after ⟨"state"⟩ first.final.current)
  have hreport := hsecond.report_mem he
  rw [second_outcome he, task_eq he] at hreport
  exact ⟨res, hsecond.completed, hreport⟩

theorem configDigest_isDigest : ∀ y ∈ [second, first], ∀ t ∈ y.plan.graph.tasks,
    Digest.IsDigest t.configDigest := by
  intro y hy t ht
  have hgraph : y.plan.graph = graph := by
    simp only [List.mem_cons, List.not_mem_nil, or_false] at hy
    rcases hy with rfl | rfl <;> rfl
  rw [hgraph] at ht
  rw [List.mem_singleton.mp ht]
  exact ⟨_, rfl⟩

/-! The digests of all that is hashed, by which the order of the sources is lost though nothing
collides. -/

def contentDigest : String := "e3b0c44298fc1c149afbf4c8996fb92427ae41e4649b934ca495991b7852b855"

def sourceDigest : String := "18f2bff17c8d847e3ad37df8bd7e64a64fbaa0b452c47648ac0e68624834e45c"

def leftDigest : String := "dc6379e46953ba366175f48680da6a89f3b6e327b9d0ad8f16f79b0cff2e6a82"

def rightDigest : String := "79cbefbc87e252a25345cfd2d993944c4a363f19d8a70ed2e99310c4fd257232"

def pairDigest : String := "eb59c9e1bc9ed6d23e102d5a65d2449df0b3525be2fc3c6cd9203297fa2365ea"

def recordDigest : String := "4ec0a3c52451505e0a1c1b1e6e62b26fd0d3a0aae056b310afcb8c3a219ec38d"

def inputsDigest : String := "9fe1f7185f70be3e528db3ba8d9fca258c9890f3ad9e475a44d04c9e9784a108"

def taskDigest : String := "3e341b80183d0e9666dc99776c7bb21c1e5241e2fc266a47e719b4ee3f508359"

theorem digests_eq :
    (Digest.ofBytes [] = contentDigest ∧ Digest.ofParts ["file", contentDigest] = sourceDigest) ∧
    (Digest.ofParts ["a", sourceDigest] = leftDigest ∧ Digest.ofParts ["b", sourceDigest] = rightDigest ∧
      Digest.ofParts [rightDigest, leftDigest] = pairDigest) ∧
    Digest.ofParts ["in", pairDigest, ""] = recordDigest ∧ Digest.ofParts [recordDigest] = inputsDigest ∧
      Digest.ofParts ["kiln-inputs-v1", "sort", contentDigest, inputsDigest] = taskDigest := by
  -- each hash apart, so that the kernel holds the steps of one only
  refine ⟨⟨?_, ?_⟩, ⟨?_, ?_, ?_⟩, ?_, ?_, ?_⟩ <;> decide +kernel

/-- All that is hashed in the two sessions. -/
def hashed : List Bytes :=
  [[], Digest.encodeParts ["file", contentDigest], Digest.encodeParts ["a", sourceDigest],
    Digest.encodeParts ["b", sourceDigest], Digest.encodeParts [rightDigest, leftDigest],
    Digest.encodeParts ["in", pairDigest, ""], Digest.encodeParts [recordDigest],
    Digest.encodeParts ["kiln-inputs-v1", "sort", contentDigest, inputsDigest]]

theorem hashed_collisionFree : Digest.CollisionFree {b | b ∈ hashed} := by
  have hdigests : hashed.map Digest.ofBytes =
      [contentDigest, sourceDigest, leftDigest, rightDigest, pairDigest, recordDigest, inputsDigest,
        taskDigest] := by
    obtain ⟨⟨hcontent, hsource⟩, ⟨hleft, hright, hpair⟩, hrecord, hinputs, htask⟩ := digests_eq
    rw [← hcontent, ← hsource, ← hleft, ← hright, ← hpair, ← hrecord, ← hinputs, ← htask]
    rfl
  have hnodup : (hashed.map Digest.ofBytes).Nodup := by
    rw [hdigests]
    decide
  exact fun a ha b hb h => List.inj_on_of_nodup_map hnodup ha hb h

theorem digestLocation_eq {p : Path} (hp : p = ⟨"a"⟩ ∨ p = ⟨"b"⟩) :
    world.files.digestLocation world.cwd p = .ok sourceDigest := by
  have hone : world.files.digestLocation world.cwd p = .ok (Digest.ofParts ["file", Digest.ofBytes []]) := by
    rcases hp with rfl | rfl <;> rfl
  rw [hone, digests_eq.1.1, digests_eq.1.2]

theorem digestLocations_eq :
    world.files.digestLocations world.cwd [⟨"a"⟩, ⟨"b"⟩] = .ok [leftDigest, rightDigest] := by
  rw [← digests_eq.2.1.1, ← digests_eq.2.1.2.1]
  exact bind_eq_ok.mpr ⟨_, digestLocation_eq (Or.inl rfl), bind_eq_ok.mpr ⟨_, bind_eq_ok.mpr
    ⟨_, digestLocation_eq (Or.inr rfl), bind_eq_ok.mpr ⟨[], rfl, rfl⟩⟩, rfl⟩⟩

theorem sortedParts_eq : Digest.sortedParts [leftDigest, rightDigest] = [rightDigest, leftDigest] := by
  rw [Digest.sortedParts_congr (.swap _ _ _)]
  refine List.mergeSort_of_pairwise (List.pairwise_pair.mpr ?_)
  decide

theorem hashed_locations {locations : List Path} (h : [⟨"a"⟩, ⟨"b"⟩].Perm locations) :
    world.files.hashed world.cwd locations ⊆ {b | b ∈ hashed} := by
  rintro b (⟨p, hp, content, hcontent, rfl⟩ | ⟨digests, hdigests, rfl⟩)
  · have hp : p = ⟨"a"⟩ ∨ p = ⟨"b"⟩ := by simpa using h.mem_iff.mpr hp
    obtain rfl : sourceDigest = content := Except.ok.inj ((digestLocation_eq hp).symm.trans hcontent)
    rcases hp with rfl | rfl <;> simp [hashed]
  · obtain ⟨digests', hdigests', hperm⟩ := FileTree.digestLocations_perm h digestLocations_eq
    obtain rfl := Except.ok.inj (hdigests.symm.trans hdigests')
    rw [← Digest.sortedParts_congr hperm, sortedParts_eq]
    simp [hashed]

theorem pairDigest_fingerprint : world.files.fingerprint world.cwd [⟨"a"⟩, ⟨"b"⟩] = .ok pairDigest := by
  refine bind_eq_ok.mpr ⟨_, digestLocations_eq, ?_⟩
  rw [Digest.ofUnordered, sortedParts_eq, digests_eq.2.1.2.2]
  rfl

theorem hashed_inputs {locations : List Path} (h : [⟨"a"⟩, ⟨"b"⟩].Perm locations) {l : Ledger} (hl : l.Opened)
    {e : Evaluation} (he : e ∈ (session locations l).evaluations) : ∀ b ∈ e.hashed, b ∈ hashed := by
  have hdigest := FileTree.fingerprint_perm h pairDigest_fingerprint
  have hrecord : Fingerprint.ofRecord ⟨"in", locations, pairDigest, none, none, 0⟩ = recordDigest :=
    digests_eq.2.2.1
  have hsingle : Digest.sortedParts [recordDigest] = [recordDigest] := List.mergeSort_singleton _
  have hconfig : task.configDigest = contentDigest := digests_eq.1.1
  rw [Evaluation.hashed, boundRecords_eq hdigest hl he, task_eq he]
  intro b hb
  rw [Fingerprint.hashed, Fingerprint.counted_of_all rfl, List.map_singleton, List.map_singleton, hrecord,
    hsingle, Fingerprint.combinedBytes, hconfig, Digest.ofUnordered, hsingle, digests_eq.2.2.2.1] at hb
  simp only [List.mem_cons, List.not_mem_nil, or_false] at hb
  rcases hb with rfl | rfl | rfl <;>
    simp [hashed, task, Task.make, Task.withInput, Task.withOutput, Fingerprint.recordBytes]

theorem locations_of_executed {locations : List Path} {l : Ledger} {d : Evaluation}
    (hd : (session locations l).Executed d) {r : Record} (hr : r ∈ d.published (session locations l).plan) :
    r.locations = [] := by
  obtain ⟨outputs, made, rs, ran, checked, hpub⟩ := hd.reported
  rw [task_eq hd.mem] at ran
  obtain rfl : [("out", [])] = outputs := (ActionResult.reported.inj (Prod.mk.inj ran).1)
  obtain ⟨-, hrecord⟩ := (outputRecords_mem checked).1 r (hpub ▸ hr)
  obtain ⟨ps, _, _, hps, -, -, heq⟩ := outputRecord_ok hrecord
  have hout : r.slot = "out" ∧ ps = [] := by simpa using Keyed.mem_of_get? hps
  rw [heq, hout.2]

theorem locations_of_published {z : Session} (hz : z ∈ [second, first]) {e : Evaluation}
    (he : e ∈ z.evaluations)
    {r : Record} (hr : r ∈ e.published z.plan) : r.locations = [] := by
  have hold : ∀ {z}, z ∈ [second, first] → ∀ {d : Evaluation}, z.Executed d → r ∈ d.published z.plan →
      r.locations = [] := by
    intro z hz d hd hpub
    simp only [List.mem_cons, List.not_mem_nil, or_false] at hz
    rcases hz with rfl | rfl
    · exact locations_of_executed hd hpub
    · exact locations_of_executed hd hpub
  simp only [List.mem_cons, List.not_mem_nil, or_false] at hz
  rcases hz with rfl | rfl
  · obtain ⟨res, hsecond⟩ := second_proper
    obtain ⟨y, hy, d, hd, -, -, hpub⟩ :=
      second_history.exists_execution hsecond.completed he (by rw [second_outcome he]; rfl)
    exact hold hy hd (hpub r hr)
  · obtain ⟨res, hfirst⟩ := first_proper
    obtain ⟨y, hy, d, hd, -, -, hpub⟩ := first_history.exists_execution hfirst.completed he
      (first_succeeds he)
    exact hold (List.mem_cons_of_mem _ hy) hd (hpub r hr)

theorem octets_subset : ∀ z ∈ [second, first], z.octets ⊆ {b | b ∈ hashed} := by
  have hlists : ∀ z ∈ [second, first], ∃ locations l, z = session locations l ∧ l.Opened ∧
      [⟨"a"⟩, ⟨"b"⟩].Perm locations := by
    obtain ⟨res, hfirst⟩ := first_proper
    intro z hz
    simp only [List.mem_cons, List.not_mem_nil, or_false] at hz
    rcases hz with rfl | rfl
    · exact ⟨_, _, rfl, second_loads.2, .swap _ _ _⟩
    · exact ⟨_, _, rfl, hfirst.ledger, .refl _⟩
  intro z hz b hb
  obtain ⟨locations, l, rfl, hl, hperm⟩ := hlists z hz
  have hdigest := FileTree.fingerprint_perm hperm pairDigest_fingerprint
  rcases hb with ⟨e, he, hb⟩ | ⟨m, hm, hb⟩ | ⟨e, he, r, hr, hb⟩
  · exact hashed_inputs hperm hl he b hb
  · obtain rfl : m = ("in", locations) := List.mem_singleton.mp hm
    exact hashed_locations hperm hb
  · rw [locations_of_published hz he hr, (world_eq hdigest he).2] at hb
    rcases hb with ⟨p, hp, -⟩ | ⟨digests, hdigests, rfl⟩
    · simp at hp
    · obtain rfl : [] = digests := Except.ok.inj hdigests
      have hnone : Digest.sortedParts [] = [] := List.mergeSort_nil
      rw [hnone]
      exact List.mem_cons_self

theorem second_handedAlike : ∃ e ∈ second.evaluations, ∃ d, first.Executed d ∧ d.task.id = "sort" ∧
    d.HandedAlike e := by
  obtain ⟨res, hres, hreport⟩ := second_reports
  obtain ⟨e, he, hid, -, y, hy, d, hd, hdid, -, halike⟩ :=
    second_history.upToDate_handedAlike configDigest_isDigest hres _ hreport rfl
  obtain rfl := List.mem_singleton.mp hy
  have hall : d.task.filter = .all := by rw [task_eq hd.mem]; rfl
  have hall' : e.task.filter = .all := by rw [task_eq he]; rfl
  refine ⟨e, he, d, hd, hdid.trans hid, ((halike hall hall').resolve_left ?_).1⟩
  rintro ⟨a, b, ⟨z, hz, ha⟩, ⟨z', hz', hb⟩, hne, hab⟩
  exact hne (hashed_collisionFree (octets_subset z hz ha) (octets_subset z' hz' hb)
    (congrArg Bytes.toHex hab))

/-- The task is passed as up to date though the two sources have changed places. -/
theorem second_reordered : History [second, first] ∧
    Digest.CollisionFree {b | b = [] ∨ b = Digest.encodeParts ["file", Digest.ofBytes []] ∨
      ∃ z ∈ [second, first], b ∈ z.octets} ∧
    (∃ res, second.result.1 = .ok res ∧ (⟨"sort", .skipped .upToDate⟩ : Report) ∈ res.reports) ∧
    task.filter = .all ∧
    (∀ e ∈ second.evaluations, e.task = task ∧ e.handed "in" = [⟨"b"⟩, ⟨"a"⟩]) ∧
    ∀ d, first.Executed d → d.task = task ∧ d.handed "in" = [⟨"a"⟩, ⟨"b"⟩] := by
  obtain ⟨digest, hdigest, hdigest'⟩ := exists_fingerprint
  obtain ⟨res, hfirst⟩ := first_proper
  have hhanded : ∀ {locations l} {e : Evaluation}, l.Opened →
      world.files.fingerprint world.cwd locations = .ok digest →
        e ∈ (session locations l).evaluations → e.handed "in" = locations := by
    intro locations l e hl hdigest he
    have hin : "in" ∈ e.task.inputs := by
      rw [task_eq he]
      exact List.mem_singleton_self _
    rw [Evaluation.handed_eq, Evaluation.inputRecords, if_pos hin, records_eq hdigest hl he]
    simp
  have hcontents : {b | b = [] ∨ b = Digest.encodeParts ["file", Digest.ofBytes []] ∨
      ∃ z ∈ [second, first], b ∈ z.octets} ⊆ {b | b ∈ hashed} := by
    rintro b (rfl | rfl | ⟨z, hz, hb⟩)
    · exact List.mem_cons_self
    · rw [digests_eq.1.1]
      exact List.mem_cons_of_mem _ List.mem_cons_self
    · exact octets_subset z hz hb
  exact ⟨second_history, hashed_collisionFree.mono hcontents, second_reports, rfl,
    fun e he => ⟨task_eq he, hhanded second_loads.2 hdigest' he⟩,
    fun d hd => ⟨task_eq hd.mem, hhanded hfirst.ledger hdigest hd.mem⟩⟩

end Basket

end SlotBuild
