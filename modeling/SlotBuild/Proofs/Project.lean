import SlotBuild.Project
import SlotBuild.Proofs.Command
import SlotBuild.Proofs.Ledger.Atomicity
import SlotBuild.Proofs.Manifest.RoundTrip
import SlotBuild.Proofs.Session.Legacy
import SlotBuild.Shell.Launch

/-! What a session over a project has on record of the outputs that its manifest declares. Where
several entries of a task name one slot, the last one takes the place of the others. -/

namespace SlotBuild

open Ledger (recordsAt)

namespace Task

theorem withInputs_keeps (t : Task) (ss : List SlotId) : (t.withInputs ss).id = t.id ∧
    (t.withInputs ss).action = t.action ∧ (t.withInputs ss).outputs = t.outputs := by
  unfold withInputs
  induction ss generalizing t with
  | nil => exact ⟨rfl, rfl, rfl⟩
  | cons s ss ih => exact ih (t.withInput s)

theorem withOutputs_keeps (t : Task) (ss : List SlotId) : (t.withOutputs ss).id = t.id ∧
    (t.withOutputs ss).action = t.action := by
  unfold withOutputs
  induction ss generalizing t with
  | nil => exact ⟨rfl, rfl⟩
  | cons s ss ih => exact ih (t.withOutput s)

theorem mem_withOutputs {t : Task} {ss : List SlotId} {s : SlotId} :
    s ∈ (t.withOutputs ss).outputs ↔ s ∈ t.outputs ∨ s ∈ ss := by
  have hone : ∀ (x : SlotId) (xs : List SlotId), s ∈ addOnce x xs ↔ s ∈ xs ∨ s = x := by
    intro x xs
    unfold addOnce
    by_cases hx : x ∈ xs
    · rw [if_pos (by simpa using hx)]
      exact ⟨Or.inl, fun h => h.elim (fun hs => hs) fun heq => heq ▸ hx⟩
    · rw [if_neg (by simpa using hx), List.mem_append, List.mem_singleton]
  unfold withOutputs
  induction ss generalizing t with
  | nil => simp
  | cons x ss ih =>
    refine Iff.trans (ih (t := t.withOutput x)) ?_
    rw [withOutput, hone, List.mem_cons, or_assoc]

end Task

namespace Recipe

variable {root : Path} {t : Recipe} {s : SlotId}

/-- The paths that each entry among the outputs declares for a slot. -/
def placements (root : Path) (t : Recipe) (s : SlotId) : List (List Path) :=
  (t.outputs.filter fun o => o.slot = s).map fun o => o.paths.map fun q => root.join ⟨q⟩

theorem task_id (root : Path) (t : Recipe) : (t.task root).id = t.id :=
  (Task.withOutputs_keeps _ _).1.trans (Task.withInputs_keeps _ _).1

theorem task_action (root : Path) (t : Recipe) : (t.task root).action = Command.action
    ⟨root, t.command, t.env, t.outputs.map fun o => (o.slot, o.paths.map fun q => root.join ⟨q⟩)⟩ := by
  refine ((Task.withOutputs_keeps _ _).2.trans (Task.withInputs_keeps _ _).2.1).trans ?_
  simp [Task.withConfig, Task.make, Command.make, Function.comp_def]

theorem mem_task_outputs : s ∈ (t.task root).outputs ↔ s ∈ t.outputs.map (·.slot) := by
  refine Task.mem_withOutputs.trans ?_
  rw [(Task.withInputs_keeps _ _).2.2]
  simp [Task.withConfig, Task.make]

theorem get?_outputs (root : Path) (t : Recipe) (s : SlotId) :
    Keyed.get? s (Keyed.ofList (t.outputs.map fun o => (o.slot, o.paths.map fun q => root.join ⟨q⟩))) =
      (t.placements root s).getLast? := by
  rw [Keyed.get?_ofList, List.filter_map, placements, List.getLast?_map, List.getLast?_map, Option.map_map]
  rfl

/-- All paths are in the last entry exactly if there is no other. -/
theorem flatten_placements (hpaths : ∀ o ∈ t.outputs, o.paths ≠ []) {ps : List Path}
    (h : (t.placements root s).getLast? = some ps) :
    ps = (t.placements root s).flatten ↔ (t.placements root s).length = 1 := by
  obtain ⟨front, hfront⟩ := List.getLast?_eq_some_iff.mp h
  have hne : ∀ qs ∈ front, qs ≠ [] := by
    intro qs hqs
    have hmem : qs ∈ t.placements root s := hfront ▸ List.mem_append_left _ hqs
    obtain ⟨o, ho, rfl⟩ := List.mem_map.mp hmem
    simpa using hpaths o (List.mem_of_mem_filter ho)
  rw [hfront]
  cases front with
  | nil => simp
  | cons qs front =>
    have hpos := List.length_pos_of_ne_nil (hne qs List.mem_cons_self)
    constructor
    · intro heq
      have hlength := congrArg List.length heq
      simp only [List.flatten_append, List.flatten_cons, List.flatten_nil, List.length_append,
        List.length_nil] at hlength
      omega
    · simp

end Recipe

section evaluated

variable {c : Catalog} {config : SessionConfig} {root : Path} {t : Recipe} {site site' : Site}

theorem Evaluated.delivers {task : Task} {reason : RunReason} {fingerprint : String}
    (h : Evaluated c config task site (.executed reason fingerprint) site') :
    ∃ outputs world, task.action (task.callAt site) site.world = (.reported outputs, world) ∧
      fingerprint = task.fingerprintAt site ∧
      outputRecords c world task fingerprint outputs = .ok (published c config task site) ∧
      Delivers c task fingerprint site site' (published c config task site) := by
  obtain ⟨outputs, world, ran, rfl, checked, l, bound, rfl⟩ := h.reported
  exact ⟨outputs, world, ran, rfl, checked, delivers_of_bindAll checked bound⟩

/-- Where a task is up to date, nothing that was on record of it has changed. -/
theorem intact_of_upToDate {task : Task}
    (h : (evaluate c config task site).1 = .skipped .upToDate) {s : SlotId}
    (hs : s ∈ task.outputs) {r : Record} (hr : r ∈ recordsAt site.ledger.previous s)
    (hq : r.producer = some task.id) : r.isIntact site.world.files site.world.cwd = true := by
  have hcases := evaluate_evaluated c config task site
  rw [h] at hcases
  generalize ho : Outcome.skipped .upToDate = o, (evaluate c config task site).2 = after at hcases
  cases hcases with
  | reused saved _ =>
    obtain ⟨-, hhist, -, hintact⟩ := verdict_ok saved
    exact hintact r (((history?_eq_some hhist).2.2 r).mpr ⟨s, hs, hr, hq⟩)
  | unusable _ _ => simp at ho
  | executed _ _ _ _ _ => simp at ho
  | idle _ fruitless _ => simp [← ho, Outcome.isSuccess] at fruitless

/-- A recipe that was carried out has on record, for each of its slots, what its last entry
declares. -/
theorem Recipe.locations_of_published {reason : RunReason} {fingerprint : String}
    (h : Evaluated c config (t.task root) site (.executed reason fingerprint) site') :
    ∀ r ∈ published c config (t.task root) site, (t.placements root r.slot).getLast? = some r.locations := by
  obtain ⟨outputs, world, ran, -, checked, -⟩ := h.delivers
  intro r hr
  rw [t.task_action root] at ran
  obtain ⟨locations, _, _, hget, -, -, heq⟩ := outputRecord_ok ((outputRecords_mem checked).1 r hr).2
  rw [Command.action_reported ran, Recipe.get?_outputs] at hget
  rw [hget, heq]

end evaluated

namespace Project

section session

variable {root : Path} {m : Manifest} {p : Project} {g : Graph} {targets : List TaskId}

/-- What a build of a project runs, once its graph is made. -/
def session (p : Project) (g : Graph) (processors : Nat) (o : BuildOptions) (moves : List Move)
    (w : World) : Session :=
  ⟨⟨p.catalog, g, p.config processors o⟩, p.supplies, moves, ⟨p.history w, w⟩⟩

theorem build_eq_session (processors : Nat) (o : BuildOptions) (moves : List Move) (w : World)
    (hg : p.graph o.targets = .ok g) : p.build processors o none moves w =
      ((p.session g processors o moves w).result.1, (p.session g processors o moves w).result.2.world) := by
  simp only [build, hg]
  rfl

theorem result_of_build {processors : Nat} {o : BuildOptions} {threads : Option String}
    {moves : List Move} {w : World} {res : SessionResult} (hg : p.graph o.targets = .ok g)
    (h : (p.build processors o threads moves w).1 = .ok res) :
    (p.session g processors o moves w).result.1 = .ok res := by
  obtain rfl : threads = none := by
    rw [build, hg] at h
    exact threads_of_ok h
  rwa [build_eq_session processors o moves w hg] at h

theorem ofManifest_ok (h : ofManifest root m = .ok p) :
    p.supplies = m.sources.map (Placement.supply root) ∧ p.tasks = m.tasks.map (Recipe.task root) := by
  obtain ⟨catalog, -, hp⟩ := bind_eq_ok.mp h
  obtain rfl : _ = p := Except.ok.inj hp
  exact ⟨rfl, rfl⟩

theorem graph_ok (h : p.graph targets = .ok g) :
    g.BuiltFrom p.catalog (p.supplies.map (·.slot)) ∧ (p.tasks.map (·.id)).Nodup ∧
      ∀ t ∈ g.tasks, t ∈ p.tasks := by
  obtain ⟨whole, hwhole, h⟩ := bind_eq_ok.mp h
  obtain ⟨htasks, -, hvalid⟩ := Graph.build_valid hwhole
  have hbuilt : whole.BuiltFrom p.catalog (p.supplies.map (·.slot)) := .build hwhole
  have hids : (p.tasks.map (·.id)).Nodup := htasks ▸ hvalid.ids_nodup
  split at h
  · obtain rfl : whole = g := Except.ok.inj h
    exact ⟨hbuilt, hids, fun t ht => htasks ▸ ht⟩
  · exact ⟨.select hbuilt h, hids, fun t ht => htasks ▸ (Graph.select_valid hvalid h).1 t ht⟩

/-- What an executed task has published is what the session leaves of it. -/
theorem final_of_published {x : Session} {res : SessionResult} (h : x.Proper res) {e : Evaluation}
    (he : e ∈ x.evaluations) (ho : (e.outcome x.plan).isSuccess = true) {r : Record}
    (hr : r ∈ e.published x.plan) : x.final.current.recordsBy r.slot (some e.task.id) = [r] := by
  have hslot : r.slot ∈ e.task.outputs := published_slot (h.previous_at he).filed hr
  obtain ⟨r', hr', hsame, hfinal⟩ := h.final_of_success he ho hslot
  obtain rfl : r' = r := (e.evaluated x.plan).published_unique (h.previous_at he) hr' hr hsame
  exact hfinal

variable {o : BuildOptions} {processors : Nat} {threads : Option String} {moves : List Move}
    {w : World} {x : Session}
  {res : SessionResult} {t : Recipe} {reason : RunReason} {fingerprint : String}

/-- A session over a project is one over a graph that was built for it, and what is reported of the
task of a recipe is the outcome of its evaluation. -/
theorem exists_evaluation_of_recipe (hp : ofManifest root m = .ok p) (hg : p.graph o.targets = .ok g)
    (hx : p.session g processors o moves w = x) (hres : x.result.1 = .ok res) (ht : t ∈ m.tasks)
    (hrep : ⟨t.id, .executed reason fingerprint⟩ ∈ res.reports) :
    x.plan.graph.BuiltFrom x.plan.catalog (x.supplies.map (·.slot)) ∧
      ∃ e ∈ x.evaluations, e.task = t.task root ∧ e.outcome x.plan = .executed reason fingerprint := by
  obtain ⟨-, htasks⟩ := ofManifest_ok hp
  obtain ⟨hbuilt, hids, hsub⟩ := graph_ok hg
  subst hx
  obtain ⟨e, he, hid, ho⟩ := Session.exists_evaluation_of_report hbuilt.valid.2 hres hrep rfl
  have hmem : t.task root ∈ p.tasks := htasks ▸ List.mem_map_of_mem ht
  exact ⟨hbuilt, e, he, List.inj_on_of_nodup_map hids (hsub _ (Session.task_mem he)) hmem
    (hid.trans (t.task_id root).symm), ho⟩

/-- For each slot among the outputs of a task that was executed, one record was bound, and its
locations are the paths of the last entry that names the slot: all that are declared for it exactly
if there is no other entry. They are fingerprinted, and as long as the record is kept no later
session finds the task up to date after what lies there has changed. -/
theorem executed_outputs_on_record {origin text : String} (hparse : Manifest.parse origin text = .ok m)
    (hp : ofManifest root m = .ok p) (hg : p.graph o.targets = .ok g)
    (hx : p.session g processors o moves w = x) (hbuild : (p.build processors o threads moves w).1 = .ok res)
    (ht : t ∈ m.tasks) (hrep : ⟨t.id, .executed reason fingerprint⟩ ∈ res.reports) :
    ∃ e ∈ x.evaluations, e.task = t.task root ∧ ∃ rs,
      Delivers x.plan.catalog e.task fingerprint e.site (e.after x.plan) rs ∧
      (∀ s, s ∈ t.outputs.map (·.slot) ↔ ∃ r ∈ rs, r.slot = s) ∧
      ∀ r ∈ rs, (t.placements root r.slot).getLast? = some r.locations ∧
        (r.locations = (t.placements root r.slot).flatten ↔ (t.placements root r.slot).length = 1) ∧
        ((p.history w).Opened → x.final.current.recordsBy r.slot (some t.id) = [r] ∧
          ∀ c config task site, site.ledger.previous = x.final.current → task.id = t.id →
            r.slot ∈ task.outputs → (evaluate c config task site).1 = .skipped .upToDate →
            r.isIntact site.world.files site.world.cwd = true) := by
  have hres : x.result.1 = .ok res := hx ▸ result_of_build hg hbuild
  obtain ⟨hbuilt, e, he, htask, ho⟩ := exists_evaluation_of_recipe hp hg hx hres ht hrep
  obtain ⟨-, -, -, hfault⟩ := Manifest.parse_eq_ok.mp hparse
  have hevaluated := e.evaluated x.plan
  rw [ho, htask] at hevaluated
  obtain ⟨-, -, -, -, -, hdelivers⟩ := hevaluated.delivers
  have hlast := Recipe.locations_of_published hevaluated
  rw [← htask] at hdelivers hlast
  refine ⟨e, he, htask, _, hdelivers, fun s => ?_, fun r hr => ⟨hlast r hr, ?_, fun hopened => ?_⟩⟩
  · rw [← Recipe.mem_task_outputs, ← htask, ← hdelivers.one_each, List.mem_map]
  · exact Recipe.flatten_placements (Manifest.outputs_of_fault? hfault t ht).2 (hlast r hr)
  · have hproper : x.Proper res := ⟨hbuilt, hx ▸ hopened, hres⟩
    have hfinal := final_of_published hproper he (by rw [ho]; rfl) hr
    rw [htask, t.task_id] at hfinal
    refine ⟨hfinal, fun c config task site hprevious hname hs hupToDate => ?_⟩
    obtain ⟨hmem, hq⟩ := Generation.mem_recordsBy.mp (hfinal ▸ List.mem_singleton_self r)
    exact intact_of_upToDate hupToDate hs (hprevious ▸ hmem) (hname ▸ hq)

end session

namespace Print

def here : Path := ⟨"."⟩

def options : BuildOptions := ⟨[], none, false, false⟩

def world : World := ⟨⟨[(["a"], .file []), (["b"], .file [])]⟩, [], [], 0, false, .small⟩

def text (outputs : String) : List Char :=
  "[[task]]\nid = \"press\"\ncommand = [\"true\"]\noutputs = [".toList ++ outputs.toList ++ "]\n".toList

def together : List Char := text "\x7bslot = \"dex\", paths = [\"a\", \"b\"]\x7d"

def apart : List Char :=
  text "\x7bslot = \"dex\", paths = [\"a\"]\x7d, \x7bslot = \"dex\", paths = [\"b\"]\x7d"

/-- Whether a task with these outputs is executed for the first time, and the slot then holds
nothing but records of these locations. -/
def leaves (outputs : List Placement) (locations : List Path) (m : Manifest) : Bool :=
  match ofManifest here m with
  | .error _ => false
  | .ok p =>
    match p.graph options.targets with
    | .error _ => false
    | .ok g =>
      let x := p.session g 1 options [] world
      match x.result.1 with
      | .error _ => false
      | .ok res => !world.files.isThere world.cwd p.statePath &&
        (m.tasks.any fun t => t.outputs == outputs &&
          res.reports.any fun r => r.task == t.id && SessionResult.isExecuted r.outcome) &&
        (recordsAt x.final.current "dex").all fun r => r.locations == locations

theorem leaves_spec {outputs : List Placement} {locations : List Path} {m : Manifest}
    (h : leaves outputs locations m = true) : ∃ p g res t reason fingerprint, ofManifest here m = .ok p ∧
      p.graph options.targets = .ok g ∧ (p.build 1 options none [] world).1 = .ok res ∧ t ∈ m.tasks ∧
      ⟨t.id, .executed reason fingerprint⟩ ∈ res.reports ∧ t.outputs = outputs ∧ (p.history world).Opened ∧
      ∀ r ∈ recordsAt (p.session g 1 options [] world).final.current "dex", r.locations = locations := by
  rw [leaves] at h
  cases hp : ofManifest here m with
  | error e => simp [hp] at h
  | ok p =>
    cases hg : p.graph options.targets with
    | error e => simp [hp, hg] at h
    | ok g =>
      cases hres : (p.session g 1 options [] world).result.1 with
      | error e => simp [hp, hg, hres] at h
      | ok res =>
        simp only [hp, hg, hres, Bool.and_eq_true, List.any_eq_true, List.all_eq_true, beq_iff_eq,
          Bool.not_eq_true'] at h
        obtain ⟨⟨hthere, t, ht, houtputs, ⟨task, outcome⟩, hr, hid, hexecuted⟩, hlocations⟩ := h
        cases outcome with
        | executed reason fingerprint =>
          refine ⟨p, g, res, t, reason, fingerprint, rfl, hg, ?_, ht, hid ▸ hr, houtputs,
            .inl ⟨p.statePath, ?_⟩, hlocations⟩
          · rw [build_eq_session _ _ _ _ hg, hres]
          · simp [history, Ledger.loadOrEmpty, Ledger.load, hthere]
        | skipped reason => cases hexecuted
        | failed fault => cases hexecuted

theorem together_on_record : ∃ m p g res t reason fingerprint,
    Manifest.parse "kiln.toml" (String.ofList together) = .ok m ∧ ofManifest here m = .ok p ∧
    p.graph options.targets = .ok g ∧ (p.build 1 options none [] world).1 = .ok res ∧ t ∈ m.tasks ∧
    ⟨t.id, .executed reason fingerprint⟩ ∈ res.reports ∧ (p.history world).Opened ∧
    ∃ r, (p.session g 1 options [] world).final.current.recordsBy "dex" (some t.id) = [r] ∧
      r.locations = [⟨"./a"⟩, ⟨"./b"⟩] := by
  obtain ⟨m, hm, hleaves⟩ := Manifest.exists_parse_ofList together
    (leaves [⟨"dex", ["a", "b"]⟩] [⟨"./a"⟩, ⟨"./b"⟩]) (by decide) (by decide +kernel) "kiln.toml"
  obtain ⟨p, g, res, t, reason, fingerprint, hp, hg, hbuild, ht, hrep, houtputs, hopened, -⟩ :=
    leaves_spec hleaves
  obtain ⟨e, -, -, rs, -, hslots, hrecords⟩ := executed_outputs_on_record hm hp hg rfl hbuild ht hrep
  obtain ⟨r, hr, hslot⟩ := (hslots "dex").mp (by simp [houtputs])
  obtain ⟨-, hall, hfinal⟩ := hrecords r hr
  have hone : (t.placements here r.slot).length = 1 := by simp [Recipe.placements, houtputs, hslot]
  have hlocations : r.locations = [⟨"./a"⟩, ⟨"./b"⟩] := by
    rw [hall.mpr hone, Recipe.placements, houtputs, hslot]
    decide
  exact ⟨m, p, g, res, t, reason, fingerprint, hm, hp, hg, hbuild, ht, hrep, hopened, r,
    hslot ▸ (hfinal hopened).1, hlocations⟩

/-- In two entries the same paths are not all on record. -/
theorem apart_not_on_record : ¬∀ (origin text : String) (root : Path) (m : Manifest) (p : Project) (g : Graph)
    (o : BuildOptions) (processors : Nat) (threads : Option String) (moves : List Move) (w : World)
    (res : SessionResult) (t : Recipe) (reason : RunReason) (fingerprint : String),
    Manifest.parse origin text = .ok m →
    ofManifest root m = .ok p → p.graph o.targets = .ok g →
    (p.build processors o threads moves w).1 = .ok res → t ∈ m.tasks →
    ⟨t.id, .executed reason fingerprint⟩ ∈ res.reports → ∀ s ∈ t.outputs.map (·.slot),
      ∃ r ∈ recordsAt (p.session g processors o moves w).final.current s,
        r.locations = (t.placements root s).flatten := by
  intro hall
  obtain ⟨m, hm, hleaves⟩ := Manifest.exists_parse_ofList apart
    (leaves [⟨"dex", ["a"]⟩, ⟨"dex", ["b"]⟩] [⟨"./b"⟩]) (by decide) (by decide +kernel) "kiln.toml"
  obtain ⟨p, g, res, t, reason, fingerprint, hp, hg, hbuild, ht, hrep, houtputs, -, hlocations⟩ :=
    leaves_spec hleaves
  obtain ⟨r, hr, hlost⟩ := hall _ _ here m p g options 1 none [] world res t reason fingerprint hm
    hp hg hbuild ht hrep
    "dex" (by simp [houtputs])
  rw [hlocations r hr, Recipe.placements, houtputs] at hlost
  exact absurd hlost (by decide)

end Print

end Project

end SlotBuild
