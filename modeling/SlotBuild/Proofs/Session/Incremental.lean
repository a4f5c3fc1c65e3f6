import Mathlib.Data.List.Infix
import SlotBuild.Proofs.Fingerprint
import SlotBuild.Proofs.Session.Rerun

/-! Incremental builds and clean builds. If the actions depend on nothing but the contents of their
inputs, then what the tasks of a graph have bound at the end of a session does not depend on the
sessions before it: it is what they bind when nothing was built before. -/

namespace SlotBuild

open Ledger (recordsAt)
open Coordinator

namespace Evaluation

def contents (e : Evaluation) : SlotId → Multiset String :=
  e.task.contents e.site.ledger.currentRecords

/-- The locations that the action reports slot by slot, and what lies there then; `none` if it does
not come to a report. -/
def yield? (e : Evaluation) : Option (SlotId → Option (List Path × Except AccessError String)) :=
  match e.task.action (e.task.callAt e.site) e.site.world with
  | (.reported outputs, world) => some fun s =>
    (Keyed.get? s outputs).map fun locations => (locations, world.files.fingerprint world.cwd locations)
  | _ => none

/-- If `e` calls the action of `d` on inputs of the same contents, the action does the same again. -/
def RepeatedBy (d e : Evaluation) : Prop :=
  d.task.id = e.task.id → d.task.outputs = e.task.outputs → d.task.action = e.task.action →
    d.contents = e.contents → d.yield? = e.yield?

def hashed (e : Evaluation) : List Bytes :=
  Fingerprint.hashed e.task (e.task.boundRecords e.site.ledger.currentRecords)

theorem hashed_perm {d e : Evaluation} (htask : d.task = e.task)
    (hinputs : ∀ s ∈ e.task.inputs, ((d.site.ledger.currentRecords s).map Record.undated).Perm
      ((e.site.ledger.currentRecords s).map Record.undated)) : d.hashed.Perm e.hashed := by
  have hhashed := Fingerprint.hashed_congr (t := e.task) (boundRecords_perm htask hinputs)
  rwa [← hashed, ← htask, ← hashed] at hhashed

theorem exists_of_yield? {e : Evaluation} {made : SlotId → Option (List Path × Except AccessError String)}
    (h : e.yield? = some made) : ∃ outputs world,
      e.task.action (e.task.callAt e.site) e.site.world = (.reported outputs, world) ∧
      (fun s => (Keyed.get? s outputs).map fun ps => (ps, world.files.fingerprint world.cwd ps)) = made := by
  unfold yield? at h
  split at h
  case h_1 outputs world ran => exact ⟨outputs, world, ran, Option.some.inj h⟩
  case h_2 => simp at h

end Evaluation

namespace Session

/-- Every octet string that is hashed for the configurations and the inputs of the tasks; `text` is
what the tasks are configured with. -/
def hashed (text : Task → String) (x : Session) : Set Bytes :=
  {b | (∃ t ∈ x.plan.graph.tasks, b = Bytes.ofString (text t)) ∨ ∃ e ∈ x.evaluations, b ∈ e.hashed}

/-- The graph and the supplies of `x` once more, with the same sources, where nothing was built. -/
structure Rebuilds (clean x : Session) : Prop where
  catalog : clean.plan.catalog = x.plan.catalog
  graph : clean.plan.graph = x.plan.graph
  supplies : clean.supplies = x.supplies
  sources : ∀ m ∈ mergedSupplies x.supplies, clean.site.world.files.fingerprint clean.site.world.cwd m.2 =
    x.site.world.files.fingerprint x.site.world.cwd m.2
  empty : ∃ path, clean.site.ledger = Ledger.empty path

/-- The session is not cancelled, the catalog has not changed, and where an action has been executed
before, it does the same again. -/
structure Undisturbed (clean : Session) (xs : List Session) : Prop where
  live : clean.Live
  catalog : ∀ y ∈ xs, y.plan.catalog = clean.plan.catalog
  repeats : ∀ y ∈ xs, ∀ b, y.Executed b → ∀ d ∈ clean.evaluations, b.RepeatedBy d

end Session

/-- What tasks have to keep to for their results to be reused: all inputs count, tasks that share id
and configuration share outputs and action, and from equal contents of their inputs an action makes
the same locations and contents, whenever it runs. -/
structure Reproducible (text : Task → String) (xs : List Session) : Prop where
  counts : ∀ x ∈ xs, ∀ t ∈ x.plan.graph.tasks, t.filter = .all
  configured : ∀ x ∈ xs, ∀ t ∈ x.plan.graph.tasks, t.configDigest = Digest.ofText (text t)
  alike : ∀ x ∈ xs, ∀ t ∈ x.plan.graph.tasks, ∀ y ∈ xs, ∀ u ∈ y.plan.graph.tasks, t.id = u.id →
    text t = text u → t.outputs = u.outputs ∧ t.action = u.action
  determined : ∀ x ∈ xs, ∀ d, x.Executed d → ∀ y ∈ xs, ∀ e, y.Executed e → d.RepeatedBy e

theorem FileTree.isDigest_of_fingerprint {files : FileTree} {cwd : Key} {locations : List Path}
    {digest : String} (h : files.fingerprint cwd locations = .ok digest) : Digest.IsDigest digest := by
  obtain ⟨digests, -, h⟩ := bind_eq_ok.mp h
  rw [← Except.ok.inj h]
  exact Digest.isDigest_ofParts _

theorem Record.digested_of_supply {w : World} {m : SlotId × List Path} {r : Record}
    (h : supplyRecord w m = .ok r) : r.Digested := by
  obtain ⟨digest, hd, rfl⟩ := supplyRecord_ok h
  exact ⟨FileTree.isDigest_of_fingerprint hd, by simp⟩

theorem Record.digested_of_output {c : Catalog} {w : World} {t : Task} {site : Site}
    {outputs : Keyed (List Path)} {s : SlotId} {r : Record}
    (h : outputRecord c w t (t.fingerprintAt site) outputs s = .ok r) : r.Digested := by
  obtain ⟨locations, slot, digest, -, -, hd, rfl⟩ := outputRecord_ok h
  refine ⟨FileTree.isDigest_of_fingerprint hd, fun f hf => ?_⟩
  obtain rfl : t.fingerprintAt site = f := by simpa using hf
  exact Digest.isDigest_ofParts _

namespace Session

variable {x : Session} {past : List Session} {res : SessionResult}

theorem Executed.reported {e : Evaluation} (h : x.Executed e) : ∃ outputs world rs,
    e.task.action (e.task.callAt e.site) e.site.world = (.reported outputs, world) ∧
      outputRecords x.plan.catalog world e.task e.fingerprint outputs = .ok rs ∧ e.published x.plan = rs := by
  obtain ⟨reason, ho⟩ := h.ran
  have hev := e.evaluated x.plan
  rw [ho] at hev
  obtain ⟨outputs, world, ran, -, checked, -⟩ := hev.reported
  exact ⟨outputs, world, _, ran, checked, rfl⟩

theorem Executed.published {e : Evaluation} (h : x.Executed e) {r : Record} (hr : r ∈ e.published x.plan) :
    r.slot ∈ e.task.outputs ∧ (∃ made, e.yield? = some made ∧
      made r.slot = some (r.locations, .ok r.fingerprint)) ∧ r.Digested := by
  obtain ⟨outputs, world, rs, ran, checked, rfl⟩ := h.reported
  obtain ⟨hs, hrec⟩ := (outputRecords_mem checked).1 r hr
  refine ⟨hs, ⟨_, by rw [Evaluation.yield?, ran], ?_⟩, Record.digested_of_output hrec⟩
  obtain ⟨locations, _, digest, hloc, -, hd, heq⟩ := outputRecord_ok hrec
  rw [heq]
  simp [hloc, hd]

end Session

theorem Coordinator.Passes.forall_records {p : Plan} {l l' : Ledger} {log : List Evaluation}
    (h : Passes p l log l') {Q : Record → Prop} (hl : ∀ s, ∀ r ∈ recordsAt l.current s, Q r)
    (hlog : ∀ e ∈ log, ∀ r ∈ e.published p, Q r) : ∀ s, ∀ r ∈ recordsAt l'.current s, Q r := by
  induction h with
  | nil => exact hl
  | @snoc log e _ ih =>
    intro s r hr
    rw [(e.evaluated p).ledger_eq] at hr
    rcases mem_bindAll hr with hr | ⟨hr, -⟩
    · exact ih (fun e' he' => hlog e' (List.mem_append_left _ he')) s r hr
    · exact hlog e (by simp) r hr

namespace Session

variable {x : Session} {res : SessionResult} {e : Evaluation}

theorem site_tidy (hfresh : x.Fresh) (hres : x.result.1 = .ok res) (he : e ∈ x.evaluations) :
    e.site.ledger.current.Tidy := by
  obtain ⟨before, -, hbefore⟩ := x.passes.exists_before he
  have hsourced := hbefore.sourced (begun_sourced hfresh hres)
  exact ⟨hsourced.filed, hsourced.single⟩

/-- What a task finds on record was supplied, or published in the same session. -/
theorem site_sources (hfresh : x.Fresh) (hres : x.result.1 = .ok res) (he : e ∈ x.evaluations) :
    ∀ s, ∀ r ∈ recordsAt e.site.ledger.current s,
      (∃ m ∈ mergedSupplies x.supplies, supplyRecord x.site.world m = .ok r) ∨
        ∃ f ∈ x.evaluations, r ∈ f.published x.plan := by
  obtain ⟨before, hsub, hbefore⟩ := x.passes.exists_before he
  have hbegun : ∀ s, ∀ r ∈ recordsAt x.begun.ledger.current s,
      ∃ m ∈ mergedSupplies x.supplies, supplyRecord x.site.world m = .ok r := by
    obtain ⟨rs, l, hrs, hbound, hbegun⟩ := takeSupplies_ok (begun_of_ok hres)
    intro s r hr
    have hl : l = (bindAll x.plan.catalog x.site.ledger rs).2 := by rw [hbound]
    rw [hbegun, hl] at hr
    rcases mem_bindAll hr with hr | ⟨hr, -⟩
    · simp [hfresh.recordsAt_eq_nil] at hr
    · exact exists_left_of_forall₂ hrs r hr
  exact hbefore.forall_records (fun s r hr => Or.inl (hbegun s r hr))
    fun f hf r hr => Or.inr ⟨f, hsub (List.mem_append_left _ hf), hr⟩

end Session

namespace History

variable {x : Session} {past xs : List Session} {res : SessionResult}

theorem exists_older (h : History xs) (hx : x ∈ xs) : ∃ older, History (x :: older) := by
  induction h with
  | nil => simp at hx
  | @cons y past before graph loads ih =>
    rcases List.mem_cons.mp hx with rfl | hx
    · exact ⟨past, .cons before graph loads⟩
    · exact ih hx

theorem published_digested (h : History (x :: past)) (hres : x.result.1 = .ok res) {e : Evaluation}
    (he : e ∈ x.evaluations) {r : Record} (hr : r ∈ e.published x.plan) : r.Digested := by
  rcases mem_published hr with ⟨s, -, hs, hq⟩ | ⟨world, outputs, -, hrec⟩
  · rw [Session.site_previous hres he] at hs
    obtain ⟨y, -, d, hd, -, hall⟩ := h.previous_traced.2.origin _ s r hs hq
    exact (hd.published (hall s r hs hq)).2.2
  · exact Record.digested_of_output hrec

theorem found (h : History (x :: past)) (hres : x.result.1 = .ok res) {e : Evaluation}
    (he : e ∈ x.evaluations) : ∀ s, ∀ r ∈ e.site.ledger.currentRecords s, r.slot = s ∧ r.Digested := by
  have hfresh := h.previous_traced.1
  intro s r hr
  have hr := Generation.mem_recordsIn.mp hr
  refine ⟨(Session.site_tidy hfresh hres he).filed s r hr, ?_⟩
  rcases Session.site_sources hfresh hres he s r hr with ⟨m, -, hm⟩ | ⟨f, hf, hpub⟩
  · exact Record.digested_of_supply hm
  · exact h.published_digested hres hf hpub

theorem exists_execution (h : History (x :: past)) (hres : x.result.1 = .ok res) {e : Evaluation}
    (he : e ∈ x.evaluations) (ho : (e.outcome x.plan).isSuccess = true) : ∃ y ∈ x :: past, ∃ d, y.Executed d ∧
      d.task.id = e.task.id ∧ d.fingerprint = e.fingerprint ∧
        ∀ r ∈ e.published x.plan, r ∈ d.published y.plan := by
  have hev := e.evaluated x.plan
  generalize hout : e.outcome x.plan = o at hev ho
  generalize e.after x.plan = site' at hev
  cases hev with
  | reused _ _ =>
    obtain ⟨-, -, y, hy, d, hd⟩ := h.reused_origin hres he hout
    exact ⟨y, List.mem_cons_of_mem x hy, d, hd⟩
  | unusable _ _ => simp [Outcome.isSuccess] at ho
  | @executed reason _ _ _ _ _ _ _ _ _ =>
    exact ⟨x, List.mem_cons_self, e, ⟨⟨res, hres⟩, he, reason, hout⟩, rfl, rfl, fun r hr => hr⟩
  | idle _ fruitless _ => simp [fruitless] at ho

/-- Two evaluations that find the same fingerprint are of one task, and what they count is the same. -/
theorem fields_perm (h : History xs)
    (hfree : Digest.CollisionFree {b | ∃ x ∈ xs, ∃ e ∈ x.evaluations, b ∈ e.hashed}) {x y : Session}
    (hx : x ∈ xs)
    (hy : y ∈ xs) {res res' : SessionResult} (hres : x.result.1 = .ok res) (hres' : y.result.1 = .ok res')
    {e d : Evaluation} (he : e ∈ x.evaluations) (hd : d ∈ y.evaluations)
    (hconfig : Digest.IsDigest e.task.configDigest) (hconfig' : Digest.IsDigest d.task.configDigest)
    (hfp : e.fingerprint = d.fingerprint) :
    e.task.id = d.task.id ∧ e.task.configDigest = d.task.configDigest ∧
      ((Fingerprint.counted e.task (e.task.boundRecords e.site.ledger.currentRecords)).map
        Fingerprint.fields).Perm
        ((Fingerprint.counted d.task (d.task.boundRecords d.site.ledger.currentRecords)).map
          Fingerprint.fields) := by
  have hdigested : ∀ {z : Session} {res : SessionResult} {f : Evaluation}, z ∈ xs → z.result.1 = .ok res →
      f ∈ z.evaluations → ∀ r ∈ f.task.boundRecords f.site.ledger.currentRecords, r.Digested := by
    intro z res f hz hres hf r hr
    obtain ⟨older, hold⟩ := h.exists_older hz
    obtain ⟨s, -, hs⟩ := List.mem_flatMap.mp hr
    exact (hold.found hres hf s r hs).2
  exact Fingerprint.ofInputs_inj hfree hconfig hconfig' (hdigested hx hres he) (hdigested hy hres' hd)
    (fun b hb => ⟨x, hx, e, he, hb⟩) (fun b hb => ⟨y, hy, d, hd, hb⟩) hfp

theorem contents_eq (h : History xs) {text : Task → String} (hrep : Reproducible text xs)
    (hfree : Digest.CollisionFree {b | ∃ x ∈ xs, b ∈ x.hashed text}) {x y : Session} (hx : x ∈ xs)
    (hy : y ∈ xs) {res res' : SessionResult} (hres : x.result.1 = .ok res) (hres' : y.result.1 = .ok res')
    {e d : Evaluation} (he : e ∈ x.evaluations) (hd : d ∈ y.evaluations)
    (hfp : e.fingerprint = d.fingerprint) : text e.task = text d.task ∧ e.contents = d.contents := by
  have htext : ∀ {z : Session} {f : Evaluation}, z ∈ xs → f ∈ z.evaluations →
      Bytes.ofString (text f.task) ∈ {b | ∃ x ∈ xs, b ∈ x.hashed text} :=
    fun hz hf => ⟨_, hz, Or.inl ⟨_, Session.task_mem hf, rfl⟩⟩
  have hinputs : Digest.CollisionFree {b | ∃ x ∈ xs, ∃ e ∈ x.evaluations, b ∈ e.hashed} :=
    Set.InjOn.mono (fun b hb => hb.imp fun z hz => ⟨hz.1, Or.inr hz.2⟩) hfree
  obtain ⟨older, hold⟩ := h.exists_older hx
  obtain ⟨older', hold'⟩ := h.exists_older hy
  have hconfig := hrep.configured x hx e.task (Session.task_mem he)
  have hconfig' := hrep.configured y hy d.task (Session.task_mem hd)
  obtain ⟨-, hsame, hperm⟩ := h.fields_perm hinputs hx hy hres hres' he hd ⟨_, hconfig⟩ ⟨_, hconfig'⟩ hfp
  rw [Fingerprint.counted_of_all (hrep.counts x hx e.task (Session.task_mem he)),
    Fingerprint.counted_of_all (hrep.counts y hy d.task (Session.task_mem hd))] at hperm
  rw [hconfig, hconfig'] at hsame
  refine ⟨Bytes.ofString_injective (hfree (htext hx he) (htext hy hd) hsame), ?_⟩
  exact Task.contents_eq_of_perm (fun s r hr => (hold.found hres he s r hr).1)
    (fun s r hr => (hold'.found hres' hd s r hr).1) hperm

/-- Behind every success stands an execution of the same action on inputs of the same contents. -/
theorem exists_alike (h : History (x :: past)) {text : Task → String}
    (hrep : Reproducible text (x :: past))
    (hfree : Digest.CollisionFree {b | ∃ y ∈ x :: past, b ∈ y.hashed text}) (hres : x.result.1 = .ok res)
    {e : Evaluation} (he : e ∈ x.evaluations) (ho : (e.outcome x.plan).isSuccess = true) :
    ∃ y ∈ x :: past, ∃ b, y.Executed b ∧ b.task.id = e.task.id ∧ b.task.outputs = e.task.outputs ∧
      b.task.action = e.task.action ∧ b.contents = e.contents ∧
        ∀ r ∈ e.published x.plan, r ∈ b.published y.plan := by
  obtain ⟨y, hy, b, hb, hid, hfp, hpub⟩ := h.exists_execution hres he ho
  obtain ⟨res', hres'⟩ := hb.completed
  obtain ⟨htext, hfound⟩ := h.contents_eq hrep hfree hy List.mem_cons_self hres' hres hb.mem he hfp
  obtain ⟨hout, hact⟩ := hrep.alike y hy b.task (Session.task_mem hb.mem) x List.mem_cons_self e.task
    (Session.task_mem he) hid htext
  exact ⟨y, hy, b, hb, hid, hout, hact, hfound, hpub⟩

end History

theorem Reproducible.mono {text : Task → String} {xs ys : List Session} (h : Reproducible text ys)
    (hsub : xs ⊆ ys) : Reproducible text xs :=
  ⟨fun x hx => h.counts x (hsub hx), fun x hx => h.configured x (hsub hx),
    fun x hx t ht y hy => h.alike x (hsub hx) t ht y (hsub hy),
    fun x hx d hd y hy => h.determined x (hsub hx) d hd y (hsub hy)⟩

/-- Who has made what is recorded, where it lies and its content. -/
def Record.made (r : Record) : Option TaskId × List Path × String := (r.producer, r.locations, r.fingerprint)

namespace Session

variable {clean x : Session} {past : List Session} {res resc : SessionResult}

/-- The successes of two sessions at one position of their graphs have bound the same. -/
def AgreesAt (clean x : Session) (i : Nat) : Prop :=
  ∀ d ∈ clean.evaluations, ∀ e ∈ x.evaluations, d.index = i → e.index = i →
    (d.outcome clean.plan).isSuccess = true → (e.outcome x.plan).isSuccess = true →
    ∀ r ∈ d.published clean.plan, ∀ r' ∈ e.published x.plan, r.slot = r'.slot → r.made = r'.made

namespace Rebuilds

theorem fresh (h : clean.Rebuilds x) : clean.Fresh := by
  obtain ⟨path, hempty⟩ := h.empty
  rw [Fresh, hempty]
  rfl

theorem previous_eq (h : clean.Rebuilds x) : clean.site.ledger.previous = .empty := by
  obtain ⟨path, hempty⟩ := h.empty
  rw [hempty]
  rfl

theorem filed (h : clean.Rebuilds x) : clean.site.ledger.previous.Filed := by
  rw [h.previous_eq]
  exact (Generation.empty_traced []).filed

theorem builtFrom (h : clean.Rebuilds x)
    (hg : x.plan.graph.BuiltFrom x.plan.catalog (x.supplies.map (·.slot))) :
    clean.plan.graph.BuiltFrom clean.plan.catalog (clean.supplies.map (·.slot)) := by
  rwa [h.graph, h.catalog, h.supplies]

theorem mirrors (h : clean.Rebuilds x) : clean.Mirrors x := ⟨h.catalog, h.graph, h.supplies, h.sources⟩

theorem due (h : clean.Rebuilds x) (hresc : clean.result.1 = .ok resc) {d : Evaluation}
    (hd : d ∈ clean.evaluations) :
    ∃ reason, verdict clean.plan.config d.task d.fingerprint d.site = .error reason := by
  cases hv : verdict clean.plan.config d.task d.fingerprint d.site with
  | error reason => exact ⟨reason, rfl⟩
  | ok rs =>
    obtain ⟨hne, hfull, -⟩ := history?_eq_some (verdict_ok hv).2.1
    obtain ⟨s, hs⟩ := List.exists_mem_of_ne_nil _ hne
    obtain ⟨r, hr, -⟩ := hfull s hs
    rw [site_previous hresc hd, h.previous_eq] at hr
    simp at hr

theorem executed (h : clean.Rebuilds x) (hresc : clean.result.1 = .ok resc) {d : Evaluation}
    (hd : d ∈ clean.evaluations) (ho : (d.outcome clean.plan).isSuccess = true) : clean.Executed d := by
  obtain ⟨reason, hdue⟩ := h.due hresc hd
  have hev := d.evaluated clean.plan
  generalize hout : d.outcome clean.plan = o at hev ho
  generalize d.after clean.plan = site' at hev
  cases hev with
  | reused saved _ => simp [saved, Evaluation.fingerprint] at hdue
  | unusable _ _ => simp [Outcome.isSuccess] at ho
  | @executed reason _ _ _ _ _ _ _ _ _ => exact ⟨⟨resc, hresc⟩, hd, reason, hout⟩
  | idle _ fruitless _ => simp [fruitless] at ho

theorem contents_eq (h : clean.Rebuilds x)
    (hg : x.plan.graph.BuiltFrom x.plan.catalog (x.supplies.map (·.slot))) (hfresh : x.Fresh)
    (hfiled : x.site.ledger.previous.Filed) (hres : x.result.1 = .ok res)
    (hresc : clean.result.1 = .ok resc) {d e : Evaluation} (hd : d ∈ clean.evaluations)
    (he : e ∈ x.evaluations) (hi : d.index = e.index)
    (hbefore : ∀ j, x.plan.graph.Precedes j e.index → clean.AgreesAt x j) : d.contents = e.contents := by
  have hvalid := hg.valid.2
  have htask := h.mirrors.task_eq hd he hi
  funext s
  unfold Evaluation.contents Task.contents
  rw [htask]
  split_ifs with hs
  · obtain ⟨supplied, made, hperm, hgathered⟩ := gathered (h.builtFrom hg) h.fresh h.filed hresc hd
      (htask ▸ hs)
    obtain ⟨supplied', made', hperm', hgathered'⟩ := gathered hg hfresh hfiled hres he hs
    have hsupply := hgathered.supply
    have hproduction := hgathered.production
    rw [h.supplies] at hsupply
    rw [h.graph] at hproduction
    have hsupplied : supplied.map (·.fingerprint) = supplied'.map (·.fingerprint) := by
      apply map_eq_of_forall₂ hsupply hgathered'.supply
      intro locations hloc r r' hr hr'
      obtain ⟨digest, hdigest, rfl⟩ := supplyRecord_ok hr
      obtain ⟨digest', hdigest', rfl⟩ := supplyRecord_ok hr'
      rw [h.sources _ (Keyed.mem_of_get? (Option.mem_toList.mp hloc)), hdigest'] at hdigest
      exact (Except.ok.inj hdigest).symm
    have hmade : made.map (·.fingerprint) = made'.map (·.fingerprint) := by
      refine map_eq_of_forall₂ hproduction hgathered'.production ?_
      rintro j hj r r' ⟨d', hd', rfl, hod, hr, hrs⟩ ⟨e', he', hje, hoe, hr', hrs'⟩
      have hprec : x.plan.graph.Precedes d'.index e.index :=
        ⟨⟨d'.index, e.index, s⟩, (hvalid.mem_edges _).mpr ⟨hj, e.task, x.logged.task e he, hs⟩, rfl, rfl⟩
      have hsame := hbefore _ hprec d' hd' e' he' rfl hje hod hoe r hr r' hr' (hrs.trans hrs'.symm)
      exact congrArg (fun m => m.2.2) hsame
    refine Multiset.coe_eq_coe.mpr ?_
    calc (d.site.ledger.currentRecords s).map (·.fingerprint)
      _ |>.Perm ((supplied ++ made).map (·.fingerprint)) := hperm.map _
      _ = (supplied' ++ made').map (·.fingerprint) := by
        rw [List.map_append, List.map_append, hsupplied, hmade]
      _ |>.Perm ((e.site.ledger.currentRecords s).map (·.fingerprint)) := (hperm'.map _).symm
  · rfl

end Rebuilds

/-- By induction along the graph: the contents of the inputs agree, behind the success of `x` stands
an execution that has found the same contents, and the action has made the same of them. -/
theorem agreesAt (h : History (x :: past)) {text : Task → String}
    (hrep : Reproducible text (clean :: x :: past))
    (hfree : Digest.CollisionFree {b | ∃ y ∈ x :: past, b ∈ y.hashed text})
    (hg : x.plan.graph.BuiltFrom x.plan.catalog (x.supplies.map (·.slot))) (hclean : clean.Rebuilds x)
    (hres : x.result.1 = .ok res) (hresc : clean.result.1 = .ok resc) :
    ∀ i < x.plan.graph.size, clean.AgreesAt x i := by
  obtain ⟨hfresh, htraced⟩ := h.previous_traced
  refine hg.valid.2.acyclic.induction fun i hi ih => ?_
  intro d hd e he hdi hei hod hoe r hr r' hr' hslot
  have htask := hclean.mirrors.task_eq hd he (hdi.trans hei.symm)
  have hcontents := hclean.contents_eq hg hfresh htraced.filed hres hresc hd he (hdi.trans hei.symm)
    fun j hj => ih j (hei ▸ hj)
  obtain ⟨y, hy, b, hb, hid, hout, hact, hfound, hpub⟩ :=
    h.exists_alike (hrep.mono (List.subset_cons_self _ _)) hfree hres he hoe
  have hexec := hclean.executed hresc hd hod
  rw [← htask] at hid hout hact
  obtain ⟨-, ⟨old, hold, hr'old⟩, -⟩ := hb.published (hpub r' hr')
  obtain ⟨-, ⟨new, hnew, hrnew⟩, -⟩ := hexec.published hr
  have hyield := hrep.determined y (List.mem_cons_of_mem clean hy) b hb clean List.mem_cons_self d hexec hid
    hout hact (hfound.trans hcontents.symm)
  rw [hold, hnew] at hyield
  rw [Option.some.inj hyield, ← hslot, hrnew] at hr'old
  simp only [Option.some.injEq, Prod.mk.injEq, Except.ok.injEq] at hr'old
  rw [Record.made, Record.made, published_producer hr, published_producer hr', htask, hr'old.1, hr'old.2]

namespace Rebuilds

theorem succeeds (h : clean.Rebuilds x) (hx : History (x :: past)) {text : Task → String}
    (hrep : Reproducible text (x :: past))
    (hfree : Digest.CollisionFree {b | ∃ y ∈ x :: past, b ∈ y.hashed text})
    (hg : x.plan.graph.BuiltFrom x.plan.catalog (x.supplies.map (·.slot)))
    (hres : x.result.1 = .ok res) (hall : ∀ report ∈ res.reports, report.outcome.isSuccess = true)
    (hresc : clean.result.1 = .ok resc) (hagrees : ∀ i < x.plan.graph.size, clean.AgreesAt x i)
    (hcalm : clean.Undisturbed (x :: past)) {d : Evaluation} (hd : d ∈ clean.evaluations) :
    (d.outcome clean.plan).isSuccess = true := by
  have hvalid := hg.valid.2
  obtain ⟨hfresh, htraced⟩ := hx.previous_traced
  have ht : x.plan.graph.task? d.index = some d.task := h.graph ▸ clean.logged.task d hd
  obtain ⟨e, he, hi, hsame, hsucc⟩ := exists_success hvalid hres hall ht
  have htask := hsame.symm
  have hcontents := h.contents_eq hg hfresh htraced.filed hres hresc hd he hi.symm
    fun j hj => hagrees j (hvalid.acyclic.lt_size hj).1
  obtain ⟨y, hy, b, hb, hid, hout, hact, hfound, -⟩ := hx.exists_alike hrep hfree hres he hsucc
  rw [← htask] at hid hout hact
  have hyield := hcalm.repeats y hy b hb d hd hid hout hact (hfound.trans hcontents.symm)
  obtain ⟨outputs, world, rs, ran, checked, -⟩ := hb.reported
  rw [hcalm.catalog y hy] at checked
  rw [Evaluation.yield?, ran] at hyield
  obtain ⟨outputs', world', ran', hsame⟩ := Evaluation.exists_of_yield? hyield.symm
  obtain ⟨rs', checked'⟩ := outputRecords_alike checked hout.symm fun s => congrFun hsame s
  obtain ⟨reason, hdue⟩ := h.due hresc hd
  rw [Evaluation.outcome, evaluate_of_ran hdue (hcalm.live.site hd) ran' checked']
  rfl

theorem exists_made (h : clean.Rebuilds x)
    (hg : x.plan.graph.BuiltFrom x.plan.catalog (x.supplies.map (·.slot))) (hresc : clean.result.1 = .ok resc)
    {s : SlotId} {r : Record} (hr : r ∈ clean.final.currentRecords s) (hmakes : x.plan.graph.makes r = true) :
    ∃ d ∈ clean.evaluations, x.plan.graph.task? d.index = some d.task ∧
      (d.outcome clean.plan).isSuccess = true ∧ r ∈ d.published clean.plan ∧ r.slot = s ∧
        s ∈ d.task.outputs := by
  have hnone : ∀ q ∈ unattempted clean.plan.graph clean.site.ledger.previous resc.reports,
      clean.plan.graph.indexOf? q = none := by
    simp [h.previous_eq, unattempted, Generation.empty, Generation.blank, sortedSet]
  rw [← h.graph] at hmakes
  obtain ⟨d, hd, hmade⟩ := Session.exists_made (h.builtFrom hg).valid.2 h.fresh hresc h.filed hnone
    hr hmakes
  exact ⟨d, hd, h.graph ▸ clean.logged.task d hd, hmade⟩

theorem covered (h : clean.Rebuilds x)
    (hg : x.plan.graph.BuiltFrom x.plan.catalog (x.supplies.map (·.slot))) (hfresh : x.Fresh)
    (hfiled : x.site.ledger.previous.Filed)
    (hres : x.result.1 = .ok res) (hall : ∀ report ∈ res.reports, report.outcome.isSuccess = true)
    (hresc : clean.result.1 = .ok resc) (hagrees : ∀ i < x.plan.graph.size, clean.AgreesAt x i) {s : SlotId}
    {r : Record} (hr : r ∈ clean.final.currentRecords s) (hmakes : x.plan.graph.makes r = true) :
    ∃ r' ∈ x.final.currentRecords s, x.plan.graph.makes r' = true ∧ r'.made = r.made := by
  have hvalid := hg.valid.2
  obtain ⟨d, hd, htask, hod, hpub, hrs, hs⟩ := h.exists_made hg hresc hr hmakes
  obtain ⟨slot, hslot⟩ := hvalid.declared d.task (List.mem_of_getElem? htask) s (List.mem_append_right _ hs)
  obtain ⟨made, hperm, hmade⟩ := final_made hg hfresh hfiled hres hall hslot
  obtain ⟨r', hr', e, he, hi, hoe, hpub', hrs'⟩ := exists_right_of_forall₂ hmade d.index
    ((hvalid.mem_producersOf s _).mpr ⟨d.task, htask, hs⟩)
  obtain ⟨hr', hmakes'⟩ := List.mem_filter.mp (hperm.mem_iff.mpr hr')
  have hsame := hagrees d.index (Graph.lt_size_of_task? htask) d hd e he rfl hi hod hoe r hpub r' hpub'
    (hrs.trans hrs'.symm)
  exact ⟨r', hr', hmakes', hsame.symm⟩

theorem made_perm (h : clean.Rebuilds x)
    (hg : x.plan.graph.BuiltFrom x.plan.catalog (x.supplies.map (·.slot))) (hfresh : x.Fresh)
    (hfiled : x.site.ledger.previous.Filed)
    (hres : x.result.1 = .ok res) (hall : ∀ report ∈ res.reports, report.outcome.isSuccess = true)
    (hresc : clean.result.1 = .ok resc) (hallc : ∀ report ∈ resc.reports, report.outcome.isSuccess = true)
    (hagrees : ∀ i < x.plan.graph.size, clean.AgreesAt x i) (s : SlotId) :
    (((clean.final.currentRecords s).filter x.plan.graph.makes).map Record.made).Perm
      (((x.final.currentRecords s).filter x.plan.graph.makes).map Record.made) := by
  have hvalid := hg.valid.2
  cases hslot : x.plan.catalog.find? s with
  | some slot =>
    obtain ⟨made, hperm, hmade⟩ := final_made hg hfresh hfiled hres hall hslot
    rw [← h.catalog] at hslot
    obtain ⟨made', hperm', hmade'⟩ := final_made (h.builtFrom hg) h.fresh h.filed hresc hallc hslot
    rw [h.graph] at hperm' hmade'
    have heq : made'.map Record.made = made.map Record.made := by
      refine map_eq_of_forall₂ hmade' hmade ?_
      rintro j hj r r' ⟨d, hd, hdj, hod, hr, hrs⟩ ⟨e, he, hej, hoe, hr', hrs'⟩
      obtain ⟨t, ht, -⟩ := (hvalid.mem_producersOf s j).mp hj
      exact hagrees j (Graph.lt_size_of_task? ht) d hd e he hdj hej hod hoe r hr r' hr' (hrs.trans hrs'.symm)
    calc ((clean.final.currentRecords s).filter x.plan.graph.makes).map Record.made
      _ |>.Perm (made'.map Record.made) := hperm'.map _
      _ = made.map Record.made := heq
      _ |>.Perm (((x.final.currentRecords s).filter x.plan.graph.makes).map Record.made) := (hperm.map _).symm
  | none =>
    have hundeclared : ∀ {t : Task}, t ∈ x.plan.graph.tasks → s ∉ t.outputs := by
      intro t ht hs
      obtain ⟨slot, hfind⟩ := hvalid.declared t ht s (List.mem_append_right _ hs)
      simp [hslot] at hfind
    have hnil : (x.final.currentRecords s).filter x.plan.graph.makes = [] := by
      apply List.filter_eq_nil_iff.mpr
      intro r hr hmakes
      obtain ⟨e, he, -, -, -, hs⟩ := Session.exists_made hvalid hfresh hres hfiled
        (fun q => indexOf?_of_mem_unattempted hall) hr hmakes
      exact hundeclared (task_mem he) hs
    have hnil' : (clean.final.currentRecords s).filter x.plan.graph.makes = [] := by
      apply List.filter_eq_nil_iff.mpr
      intro r hr hmakes
      obtain ⟨d, -, htask, -, -, -, hs⟩ := h.exists_made hg hresc hr hmakes
      exact hundeclared (List.mem_of_getElem? htask) hs
    rw [hnil, hnil']

end Rebuilds

end Session

/-- An incremental build comes to what a clean build comes to. Let all tasks succeed in a session
that has any sessions before it. A session over the same graph and supplies that starts from nothing
then binds nothing else for its tasks. If nothing disturbs it, all its tasks succeed, and where they
do, it binds in each slot the same locations and contents. -/
theorem History.incremental_eq_clean {clean x : Session} {past : List Session} (h : History (x :: past))
    {text : Task → String} (hrep : Reproducible text (clean :: x :: past))
    (hfree : Digest.CollisionFree {b | ∃ y ∈ x :: past, b ∈ y.hashed text})
    (hg : x.plan.graph.BuiltFrom x.plan.catalog (x.supplies.map (·.slot))) (hclean : clean.Rebuilds x)
    {res : SessionResult} (hres : x.result.1 = .ok res)
    (hall : ∀ report ∈ res.reports, report.outcome.isSuccess = true) :
    ∃ resc, clean.result.1 = .ok resc ∧
      (clean.Undisturbed (x :: past) → ∀ report ∈ resc.reports, report.outcome.isSuccess = true) ∧
      (∀ s, ∀ r ∈ clean.final.currentRecords s, x.plan.graph.makes r = true →
        ∃ r' ∈ x.final.currentRecords s, x.plan.graph.makes r' = true ∧ r'.made = r.made) ∧
      ((∀ report ∈ resc.reports, report.outcome.isSuccess = true) → ∀ s,
        (((clean.final.currentRecords s).filter x.plan.graph.makes).map Record.made).Perm
          (((x.final.currentRecords s).filter x.plan.graph.makes).map Record.made)) := by
  obtain ⟨hfresh, htraced⟩ := h.previous_traced
  obtain ⟨resc, hresc⟩ := hclean.mirrors.completes hres
  have hagrees := Session.agreesAt h hrep hfree hg hclean hres hresc
  refine ⟨resc, hresc, fun hcalm => ?_, fun s r hr hmakes => ?_, fun hallc s => ?_⟩
  · have hacyclic : clean.plan.graph.IsAcyclic := hclean.graph ▸ hg.valid.2.acyclic
    exact hcalm.live.reports_succeed hacyclic hresc fun d hd =>
      hclean.succeeds h (hrep.mono (List.subset_cons_self _ _)) hfree hg hres hall hresc hagrees hcalm hd
  · exact hclean.covered hg hfresh htraced.filed hres hall hresc hagrees hr hmakes
  · exact hclean.made_perm hg hfresh htraced.filed hres hall hresc hallc hagrees s

/-! Flour is ground from wheat and bread is baked from flour, all without files, twice over one
state file and once more from nothing. -/

namespace Bakery

def catalog : Catalog := ⟨[Slot.multiple "wheat" .file .sources, Slot.multiple "flour" .file .intermediates,
  Slot.multiple "bread" .file .outputs]⟩

def makes (target : SlotId) : Action := fun _ w => (.reported [(target, [])], w)

def grind : Task := ((Task.make "grind" (makes "flour")).withInput "wheat").withOutput "flour"

def bake : Task := ((Task.make "bake" (makes "bread")).withInput "flour").withOutput "bread"

def graph : Graph := ⟨[grind, bake], [⟨0, 1, "flour"⟩], [("bread", [1]), ("flour", [0])], ["wheat"]⟩

def session (l : Ledger) (clock : UInt64) : Session where
  plan := ⟨catalog, graph, ⟨1, false, false⟩⟩
  supplies := [⟨"wheat", []⟩]
  moves := []
  site := ⟨l, ⟨.empty, [], [], clock, false, .bare⟩⟩

def first : Session := session (.empty ⟨"state"⟩) 0

def second : Session := session (.after ⟨"state"⟩ first.final.current) 1

def clean : Session := session (.empty ⟨"state"⟩) 2

theorem graph_builtFrom : graph.BuiltFrom catalog ["wheat"] :=
  .build (show Graph.build catalog ["wheat"] [grind, bake] = .ok graph from rfl)

section session

variable {l : Ledger} {clock : UInt64} {e : Evaluation}

theorem exists_result (l : Ledger) (clock : UInt64) : ∃ res, (session l clock).result.1 = .ok res :=
  Session.exists_result rfl

theorem task_eq {t : Task} (ht : t ∈ graph.tasks) : t = grind ∨ t = bake := by
  simpa [graph] using ht

theorem action_idle {t : Task} (ht : t ∈ graph.tasks) (call : Call) (w : World) :
    (t.action call w).2 = w := by
  rcases task_eq ht with rfl | rfl <;> rfl

theorem live (l : Ledger) (clock : UInt64) : (session l clock).Live := by
  obtain ⟨res, hres⟩ := exists_result l clock
  refine Session.live_of_quiet hres (by simp [session]) rfl fun t ht call w hw => ?_
  rw [action_idle ht, hw]

theorem world_eq (he : e ∈ (session l clock).evaluations) : e.site.world = (session l clock).site.world ∧
    (e.after (session l clock).plan).world = (session l clock).site.world := by
  obtain ⟨res, hres⟩ := exists_result l clock
  exact (live l clock).world_eq hres (fun t ht call w => action_idle ht call w) he

end session

theorem first_proper : ∃ res, first.Proper res := by
  obtain ⟨res, hres⟩ := exists_result (.empty ⟨"state"⟩) 0
  exact ⟨res, graph_builtFrom, .inl ⟨⟨"state"⟩, rfl⟩, hres⟩

theorem first_succeeds {res : SessionResult} (hres : first.result.1 = .ok res) :
    ∀ report ∈ res.reports, report.outcome.isSuccess = true := by
  have hall : ∀ report ∈ first.ended.reports graph, report.outcome.isSuccess = true := by decide +kernel
  rw [(Session.result_of_ok hres).1]
  exact hall

theorem first_saved : ∃ files cwd path, FileTree.read files cwd path = .ok first.final.current.toBytes ∧
    Ledger.load files cwd path = .ok second.site.ledger := by
  have hread : FileTree.read ⟨[(["state"], .file first.final.current.toBytes)]⟩ [] ⟨"state"⟩ =
      .ok first.final.current.toBytes := rfl
  exact ⟨_, _, _, hread, Ledger.load_of_read hread⟩

theorem second_history : History [second, first] := by
  obtain ⟨res, hres⟩ := exists_result (.empty ⟨"state"⟩) 0
  obtain ⟨files, cwd, path, hread, hload⟩ := first_saved
  have hfirst : History [first] :=
    .cons .nil ⟨catalog, _, graph_builtFrom⟩ ⟨.empty, [], ⟨"state"⟩, by decide, .inl (by decide)⟩
  exact .cons hfirst ⟨catalog, _, graph_builtFrom⟩
    ⟨files, cwd, path, hload, .inr ⟨first, List.mem_cons_self, ⟨res, hres⟩, hread⟩⟩

theorem second_follows : second.Follows first where
  mirrors := ⟨rfl, rfl, rfl, fun _ _ => rfl⟩
  loads := first_saved
  outputs d hd _ r _ e he _ := by
    have hthen : (d.after first.plan).world = first.site.world := (world_eq hd).2
    rw [(world_eq he).1, hthen]
    rfl
  unforced := rfl
  patient := rfl
  live := live _ _

theorem clean_rebuilds : clean.Rebuilds second := ⟨rfl, rfl, rfl, fun _ _ => rfl, ⟨⟨"state"⟩, rfl⟩⟩

theorem exists_session {x : Session} (hx : x ∈ [clean, second, first]) : ∃ l clock, x = session l clock := by
  simp only [List.mem_cons, List.not_mem_nil, or_false] at hx
  rcases hx with rfl | rfl | rfl <;> exact ⟨_, _, rfl⟩

theorem mem_tasks {x : Session} (hx : x ∈ [clean, second, first]) {t : Task} (ht : t ∈ x.plan.graph.tasks) :
    t ∈ graph.tasks := by
  obtain ⟨l, clock, rfl⟩ := exists_session hx
  exact ht

theorem eq_of_id {t u : Task} (ht : t ∈ graph.tasks) (hu : u ∈ graph.tasks) (hid : t.id = u.id) : t = u := by
  rcases task_eq ht with rfl | rfl <;> rcases task_eq hu with rfl | rfl
  · rfl
  · exact absurd hid (by decide)
  · exact absurd hid (by decide)
  · rfl

theorem yield?_eq {target : SlotId} {e : Evaluation} (h : e.task.action = makes target) :
    e.yield? = some fun s => (Keyed.get? s [(target, [])]).map fun locations =>
      (locations, .ok (Digest.ofUnordered [])) := by
  rw [Evaluation.yield?, h]
  refine congrArg some (funext fun s => ?_)
  by_cases hs : target = s
  · simp only [Keyed.get?, hs, if_true, Option.map_some]
    rfl
  · simp [Keyed.get?, hs]

theorem repeated {d e : Evaluation} (he : e.task ∈ graph.tasks) : d.RepeatedBy e := by
  intro _ _ haction _
  have hmakes : ∃ target, e.task.action = makes target := by
    rcases task_eq he with htask | htask <;> exact ⟨_, congrArg Task.action htask⟩
  obtain ⟨target, he⟩ := hmakes
  rw [yield?_eq (haction.trans he), yield?_eq he]

theorem reproducible : Reproducible (fun _ => "") [clean, second, first] where
  counts x hx t ht := by rcases task_eq (mem_tasks hx ht) with rfl | rfl <;> rfl
  configured x hx t ht := by rcases task_eq (mem_tasks hx ht) with rfl | rfl <;> rfl
  alike x hx t ht y hy u hu hid _ := by
    rw [eq_of_id (mem_tasks hx ht) (mem_tasks hy hu) hid]
    exact ⟨rfl, rfl⟩
  determined _ _ _ _ _ hy _ he := repeated (mem_tasks hy (Session.task_mem he.mem))

theorem undisturbed : clean.Undisturbed [second, first] where
  live := live _ _
  catalog y hy := by
    obtain ⟨l, clock, rfl⟩ := exists_session (List.mem_cons_of_mem _ hy)
    rfl
  repeats _ _ _ _ _ hd := repeated (Session.task_mem hd)

/-! The digests of all that is hashed. -/

def emptyDigest : String := "e3b0c44298fc1c149afbf4c8996fb92427ae41e4649b934ca495991b7852b855"

def wheatDigest : String := "3e207c8549cebd70943d196aca54289c6dd379f04867e6bd53263f1c1b9e18ad"

def grindInputs : String := "eddf0dfd67533cca6bc521a3327b254b52e79177fec430ee2789ac2da2a89edc"

def grindDigest : String := "eb9fc21993fa8037a4c4a44f4e970525a09634a247099045bc1312a964ad31aa"

def flourDigest : String := "2e903355ab7c86d05d29974d526e8c4b758d4bbf574277422d22a292d2c72cf2"

def bakeInputs : String := "4a2ea6639d64a9d125acac7ec5f80d58d9078f84b6e8cb338eee5fd022fbbc84"

def bakeDigest : String := "51705230ea50d00c67de18c89face3adbbe46e033f28b6b03b9d8dcae10370b7"

theorem digests_eq : Digest.ofBytes [] = emptyDigest ∧
    (Digest.ofParts ["wheat", emptyDigest, ""] = wheatDigest ∧ Digest.ofParts [wheatDigest] = grindInputs ∧
      Digest.ofParts ["kiln-inputs-v1", "grind", emptyDigest, grindInputs] = grindDigest) ∧
    Digest.ofParts ["flour", emptyDigest, grindDigest] = flourDigest ∧
      Digest.ofParts [flourDigest] = bakeInputs ∧
        Digest.ofParts ["kiln-inputs-v1", "bake", emptyDigest, bakeInputs] = bakeDigest := by
  refine ⟨?_, ⟨?_, ?_, ?_⟩, ?_, ?_, ?_⟩ <;> decide +kernel

def wheat : Record := ⟨"wheat", [], Digest.ofUnordered [], none, none, 0⟩

def flour : Record :=
  ⟨"flour", [], Digest.ofUnordered [], some (Fingerprint.ofInputs grind [wheat]), some "grind", 0⟩

theorem first_hashed : first.evaluations.flatMap Evaluation.hashed =
    Fingerprint.hashed grind [wheat] ++ Fingerprint.hashed bake [flour] := by
  with_unfolding_all rfl

/-- All that is hashed in the two sessions. -/
def hashed : List Bytes :=
  [[], Digest.encodeParts ["wheat", emptyDigest, ""], Digest.encodeParts [wheatDigest],
    Digest.encodeParts ["kiln-inputs-v1", "grind", emptyDigest, grindInputs],
    Digest.encodeParts ["flour", emptyDigest, grindDigest], Digest.encodeParts [flourDigest],
    Digest.encodeParts ["kiln-inputs-v1", "bake", emptyDigest, bakeInputs]]

theorem hashed_collisionFree : Digest.CollisionFree {b | b ∈ hashed} := by
  have hdigests : hashed.map Digest.ofBytes =
      [emptyDigest, wheatDigest, grindInputs, grindDigest, flourDigest, bakeInputs, bakeDigest] := by
    obtain ⟨hempty, ⟨hwheat, hinputs, hgrind⟩, hflour, hinputs', hbake⟩ := digests_eq
    rw [← hempty, ← hwheat, ← hinputs, ← hgrind, ← hflour, ← hinputs', ← hbake]
    rfl
  have hnodup : (hashed.map Digest.ofBytes).Nodup := by
    rw [hdigests]
    decide
  exact fun a ha b hb h => List.inj_on_of_nodup_map hnodup ha hb h

section hashed_one

variable {t : Task} {r : Record} {digest inputs : String} (hall : t.filter = .all)
  (hconfig : t.configDigest = emptyDigest) (hrecord : Fingerprint.ofRecord r = digest)
  (hinputs : Digest.ofParts [digest] = inputs)

include hall hconfig hrecord hinputs

theorem hashed_one : Fingerprint.hashed t [r] =
    [Digest.encodeParts ["kiln-inputs-v1", t.id, emptyDigest, inputs], Digest.encodeParts [digest],
      Fingerprint.recordBytes r] := by
  have hsingle : Digest.sortedParts [digest] = [digest] := List.mergeSort_singleton _
  rw [Fingerprint.hashed, Fingerprint.counted_of_all hall, List.map_singleton, List.map_singleton, hrecord,
    hsingle, Fingerprint.combinedBytes, hconfig, Digest.ofUnordered, hsingle, hinputs]

theorem ofInputs_one : Fingerprint.ofInputs t [r] =
    Digest.ofParts ["kiln-inputs-v1", t.id, emptyDigest, inputs] := by
  have hsingle : Digest.sortedParts [digest] = [digest] := List.mergeSort_singleton _
  have hcounted : ([r].filter fun r => t.filter.includes r.slot) = [r] := Fingerprint.counted_of_all hall _
  rw [Fingerprint.ofInputs, hcounted, List.map_singleton, hrecord, Fingerprint.combine, hconfig,
    Digest.ofUnordered, hsingle, hinputs]

end hashed_one

theorem first_hashed_subset {e : Evaluation} (he : e ∈ first.evaluations) : ∀ b ∈ e.hashed, b ∈ hashed := by
  obtain ⟨hempty, ⟨hwheat, hinputs, hgrind⟩, hflour, hinputs', -⟩ := digests_eq
  have hnothing : Digest.ofUnordered [] = emptyDigest := by
    rw [Digest.ofUnordered, Digest.sortedParts, List.mergeSort_nil]
    exact hempty
  have hwheat : Fingerprint.ofRecord wheat = wheatDigest := by
    rw [Fingerprint.ofRecord, wheat, hnothing]
    exact hwheat
  have hground : Fingerprint.ofInputs grind [wheat] = grindDigest := by
    rw [← hgrind]
    exact ofInputs_one rfl hempty hwheat hinputs
  have hflour : Fingerprint.ofRecord flour = flourDigest := by
    rw [Fingerprint.ofRecord, flour, hnothing, hground]
    exact hflour
  have hgrind : Fingerprint.hashed grind [wheat] = _ := hashed_one rfl hempty hwheat hinputs
  have hbake : Fingerprint.hashed bake [flour] = _ := hashed_one rfl hempty hflour hinputs'
  intro b hb
  have hb : b ∈ first.evaluations.flatMap Evaluation.hashed := List.mem_flatMap.mpr ⟨e, he, hb⟩
  rw [first_hashed, hgrind, hbake, Fingerprint.recordBytes, Fingerprint.recordBytes, flour, hground, wheat,
    hnothing] at hb
  simp only [List.mem_append, List.mem_cons, List.not_mem_nil, or_false] at hb
  rcases hb with (rfl | rfl | rfl) | rfl | rfl | rfl <;>
    simp [hashed, grind, bake, Task.make, Task.withInput, Task.withOutput]

theorem collisionFree :
    Digest.CollisionFree {b | ∃ x ∈ [second, first], b ∈ Session.hashed (fun _ => "") x} := by
  obtain ⟨res, hfirst⟩ := first_proper
  obtain ⟨res', hsecond⟩ := second_follows.proper hfirst
  refine hashed_collisionFree.mono ?_
  rintro b ⟨x, hx, ⟨t, -, rfl⟩ | ⟨e, he, hb⟩⟩
  · exact List.mem_cons_self
  · simp only [List.mem_cons, List.not_mem_nil, or_false] at hx
    rcases hx with rfl | rfl
    · obtain ⟨d, hd, hindex, -⟩ := Session.exists_success hfirst.valid hfirst.completed
        (first_succeeds hfirst.completed) (second.logged.task e he)
      have hperm := Evaluation.hashed_perm (second_follows.mirrors.task_eq he hd hindex.symm) fun s hs =>
        second_follows.inputs_perm hfirst hsecond he hd hindex.symm hs
      exact first_hashed_subset hd b (hperm.mem_iff.mp hb)
    · exact first_hashed_subset he b hb

theorem clean_binds : ((clean.final.currentRecords "bread").filter graph.makes).map Record.made =
    [(some "bake", [], Digest.ofUnordered [])] := by
  with_unfolding_all rfl

theorem second_eq_clean : (∃ res, second.result.1 = .ok res ∧
      ∀ report ∈ res.reports, report.outcome = .skipped .upToDate) ∧
    (∀ s, (((clean.final.currentRecords s).filter graph.makes).map Record.made).Perm
      (((second.final.currentRecords s).filter graph.makes).map Record.made)) ∧
    ((second.final.currentRecords "bread").filter graph.makes).map Record.made =
      [(some "bake", [], Digest.ofUnordered [])] := by
  obtain ⟨res, hfirst⟩ := first_proper
  obtain ⟨res', hsecond⟩ := second_follows.proper hfirst
  have hmade : ∀ t ∈ graph.tasks, t.outputs ≠ [] := by
    intro t ht
    rcases task_eq ht with rfl | rfl <;> exact List.cons_ne_nil _ _
  have hreused :=
    second_follows.reports_upToDate hfirst hsecond (first_succeeds hfirst.completed) hmade
  obtain ⟨_, -, hsucceeds, -, hperm⟩ := second_history.incremental_eq_clean reproducible collisionFree
    graph_builtFrom clean_rebuilds hsecond.completed fun report hreport => by rw [hreused report hreport]; rfl
  have hsame : ∀ s, (((clean.final.currentRecords s).filter graph.makes).map Record.made).Perm
      (((second.final.currentRecords s).filter graph.makes).map Record.made) := hperm (hsucceeds undisturbed)
  have hbread := (hsame "bread").symm
  rw [clean_binds] at hbread
  exact ⟨⟨res', hsecond.completed, hreused⟩, hsame, List.perm_singleton.mp hbread⟩

end Bakery

end SlotBuild
