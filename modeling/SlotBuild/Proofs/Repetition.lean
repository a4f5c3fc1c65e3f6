import SlotBuild.Proofs.Coordinator.Evaluations
import SlotBuild.Proofs.Fingerprint
import SlotBuild.Proofs.Record.Order

/-! What an evaluation comes to depends on nothing but what it finds: its inputs, the records of the
last run and what lies at the locations of both. -/

namespace SlotBuild

namespace Fingerprint

variable {t : Task} {rs ss : List Record}

theorem map_counted_perm {α : Type} {f : Record → α} (hf : ∀ r, f r.undated = f r)
    (h : (rs.map Record.undated).Perm (ss.map Record.undated)) :
    ((counted t rs).map f).Perm ((counted t ss).map f) := by
  have hcounted : ∀ xs : List Record, (counted t xs).map f = (counted t (xs.map Record.undated)).map f := by
    intro xs
    rw [counted, counted, List.filter_map, List.map_map, show f ∘ Record.undated = f from funext hf]
    rfl
  rw [hcounted rs, hcounted ss]
  exact (h.filter _).map f

theorem ofInputs_congr (h : (rs.map Record.undated).Perm (ss.map Record.undated)) :
    ofInputs t rs = ofInputs t ss :=
  combine_congr (map_counted_perm (fun _ => rfl) h) t.id t.configDigest

theorem hashed_congr (h : (rs.map Record.undated).Perm (ss.map Record.undated)) :
    (hashed t rs).Perm (hashed t ss) := by
  have hdigests : ((counted t rs).map ofRecord).Perm ((counted t ss).map ofRecord) :=
    map_counted_perm (fun _ => rfl) h
  rw [hashed, hashed, combinedBytes, combinedBytes, Digest.ofUnordered, Digest.ofUnordered,
    Digest.sortedParts_congr hdigests]
  exact ((map_counted_perm (fun _ => rfl) h).cons _).cons _

end Fingerprint

/-- A file, or the names and contents of all files below a directory. -/
inductive Content where
  | file (content : Bytes)
  | tree (files : List (String × Bytes))
deriving DecidableEq, Repr

def Content.digest : Content → String
  | file content => Digest.ofParts ["file", Digest.ofBytes content]
  | tree files => Digest.ofParts ["dir", Digest.ofBytes (FileTree.encodeFiles files)]

/-- What lies at a location. -/
def World.contentAt (w : World) (location : Path) : Except AccessError Content :=
  match w.files.stat? w.cwd location with
  | some .dir => (w.files.readAll w.cwd location (w.files.filesBelow w.cwd location)).map .tree
  | some (.file _) =>
    match w.files.read w.cwd location with
    | .ok content => .ok (.file content)
    | .error e => .error (.io location e)
  | _ => .error (.missing location)

theorem World.digestLocation_eq (w : World) (location : Path) :
    w.files.digestLocation w.cwd location = (w.contentAt location).map Content.digest := by
  unfold FileTree.digestLocation contentAt
  rcases w.files.stat? w.cwd location with _ | _ | _ | _
  · rfl
  · rw [FileTree.digestFile]
    cases w.files.read w.cwd location <;> rfl
  · rw [FileTree.digestTree]
    cases w.files.readAll w.cwd location (w.files.filesBelow w.cwd location) <;> rfl
  · rfl

theorem World.fingerprint_congr {w w' : World} {locations : List Path}
    (h : ∀ l ∈ locations, w.contentAt l = w'.contentAt l) :
    w.files.fingerprint w.cwd locations = w'.files.fingerprint w'.cwd locations := by
  have hdigests : w.files.digestLocations w.cwd locations = w'.files.digestLocations w'.cwd locations := by
    induction locations with
    | nil => rfl
    | cons l locations ih =>
      rw [FileTree.digestLocations, FileTree.digestLocations,
        World.digestLocation_eq, World.digestLocation_eq,
        h l List.mem_cons_self, ih fun x hx => h x (List.mem_cons_of_mem l hx)]
  rw [FileTree.fingerprint, FileTree.fingerprint, hdigests]

/-- One file, or nothing, lies at the location in both worlds. -/
def World.SameFile (w w' : World) (location : Path) : Prop :=
  w.files.stat? w.cwd location = w'.files.stat? w'.cwd location ∧
    w'.files.stat? w'.cwd location ≠ some .dir ∧
    w.files.read w.cwd location = w'.files.read w'.cwd location

instance (w w' : World) (location : Path) : Decidable (w.SameFile w' location) :=
  inferInstanceAs (Decidable (_ ∧ _ ∧ _))

theorem World.SameFile.contentAt_eq {w w' : World} {location : Path} (h : w.SameFile w' location) :
    w.contentAt location = w'.contentAt location := by
  obtain ⟨hstat, hfile, hread⟩ := h
  simp only [contentAt, hstat, hread]
  split
  case h_1 hdir => exact absurd hdir hfile
  case h_2 => rfl
  case h_3 => rfl

section outputs

variable {c : Catalog} {t : Task} {fingerprint : String} {outputs : Keyed (List Path)} {w w' : World}

theorem outputRecord_undated {s : SlotId}
    (h : ∀ locations, Keyed.get? s outputs = some locations →
      ∀ l ∈ locations, w.contentAt l = w'.contentAt l) :
    (outputRecord c w t fingerprint outputs s).map Record.undated =
      (outputRecord c w' t fingerprint outputs s).map Record.undated := by
  rw [outputRecord, outputRecord]
  cases hloc : Keyed.get? s outputs with
  | none => rfl
  | some locations =>
    dsimp only
    split
    · rfl
    · split
      · rfl
      · rw [World.fingerprint_congr (h locations hloc)]
        split <;> rfl

theorem outputRecords_undated (h : ∀ m ∈ outputs, ∀ l ∈ m.2, w.contentAt l = w'.contentAt l) :
    (outputRecords c w t fingerprint outputs).map (List.map Record.undated) =
      (outputRecords c w' t fingerprint outputs).map (List.map Record.undated) := by
  unfold outputRecords
  split
  · rfl
  · refine mapM_map_congr fun s _ => outputRecord_undated fun locations hloc => ?_
    exact h (s, locations) (Keyed.mem_of_get? hloc)

/-- What becomes of a task whose action has run, and what is published for it. -/
def concluded (c : Catalog) (t : Task) (reason : RunReason) (fingerprint : String) :
    ActionResult × World → Outcome × List Record
  | (.panicked, _) => (.failed .panicked, [])
  | (.failed message, _) => (.failed (.action message), [])
  | (.reported outputs, w) =>
    match outputRecords c w t fingerprint outputs with
    | .error fault => (.failed fault, [])
    | .ok rs => (.executed reason fingerprint, rs)

theorem concluded_congr {reason : RunReason} {ran ran' : ActionResult × World} (hresult : ran.1 = ran'.1)
    (hcontents : ∀ outputs, ran'.1 = .reported outputs → ∀ m ∈ outputs, ∀ l ∈ m.2,
      ran.2.contentAt l = ran'.2.contentAt l) :
    (concluded c t reason fingerprint ran).1 = (concluded c t reason fingerprint ran').1 ∧
      (concluded c t reason fingerprint ran).2.map Record.undated =
        (concluded c t reason fingerprint ran').2.map Record.undated := by
  obtain ⟨result, w⟩ := ran
  obtain ⟨result', w'⟩ := ran'
  obtain rfl : result = result' := hresult
  cases result with
  | panicked => exact ⟨rfl, rfl⟩
  | failed message => exact ⟨rfl, rfl⟩
  | reported outputs =>
    have hrecords : (outputRecords c w t fingerprint outputs).map (List.map Record.undated) =
        (outputRecords c w' t fingerprint outputs).map (List.map Record.undated) :=
      outputRecords_undated (hcontents outputs rfl)
    simp only [concluded]
    cases hw : outputRecords c w t fingerprint outputs <;>
      cases hw' : outputRecords c w' t fingerprint outputs <;>
      simp only [hw, hw', Except.map, reduceCtorEq] at hrecords
    · rw [Except.error.inj hrecords]
      exact ⟨rfl, rfl⟩
    · exact ⟨rfl, Except.ok.inj hrecords⟩

theorem mem_concluded {reason : RunReason} {ran : ActionResult × World} {r : Record}
    (hr : r ∈ (concluded c t reason fingerprint ran).2) :
    ∃ outputs, ran.1 = .reported outputs ∧ ∃ m ∈ outputs, m.2 = r.locations := by
  obtain ⟨result, w⟩ := ran
  cases result with
  | panicked => simp [concluded] at hr
  | failed message => simp [concluded] at hr
  | reported outputs =>
    refine ⟨outputs, rfl, ?_⟩
    cases hrs : outputRecords c w t fingerprint outputs with
    | error e => simp [concluded, hrs] at hr
    | ok rs =>
      simp only [concluded, hrs] at hr
      obtain ⟨locations, _, _, hloc, -, -, heq⟩ := outputRecord_ok ((outputRecords_mem hrs).1 r hr).2
      exact ⟨_, Keyed.mem_of_get? hloc, by rw [heq]⟩

theorem concluded_attempted {reason : RunReason} (ran : ActionResult × World) :
    (concluded c t reason fingerprint ran).1.isUnattempted = false := by
  obtain ⟨result, w⟩ := ran
  cases result with
  | panicked => rfl
  | failed message => rfl
  | reported outputs =>
    simp only [concluded]
    split <;> rfl

theorem evaluate_of_due {config : SessionConfig} {site : Site} {reason : RunReason}
    (due : verdict config t (t.fingerprintAt site) site = .error reason)
    (live : site.world.cancelled = false) :
    (evaluate c config t site).2.world = (t.action (t.callAt site) site.world).2 ∧
      ((t.action (t.callAt site) site.world).2.cancelled = false →
        ((evaluate c config t site).1, published c config t site) =
          concluded c t reason (t.fingerprintAt site) (t.action (t.callAt site) site.world)) := by
  have heval : evaluate c config t site =
      execute c t reason (t.fingerprintAt site) (t.inputPaths site.ledger.currentRecords) site := by
    rw [Task.fingerprintAt] at due
    simp [evaluate, due, live, Task.fingerprintAt]
  rw [heval, published, due]
  simp only [live, Bool.false_eq_true, if_false]
  rcases ran : t.action (t.callAt site) site.world with ⟨result, world⟩
  rw [Task.callAt] at ran
  rw [execute, ran]
  cases result with
  | panicked => exact ⟨rfl, fun _ => rfl⟩
  | failed message =>
    refine ⟨rfl, fun hstill => ?_⟩
    have hstill : world.cancelled = false := hstill
    simp [concluded, hstill]
  | reported outputs =>
    cases checked : outputRecords c world t (t.fingerprintAt site) outputs with
    | error fault =>
      have hpublish : publish c t (t.fingerprintAt site) outputs { site with world := world } =
          (.error fault, { site with world := world }) := by simp [publish, checked]
      simp only [hpublish, true_and]
      intro hstill
      simp [concluded, checked, hstill]
    | ok rs =>
      obtain ⟨l, -, hpublish⟩ := publish_ok checked site.ledger
      simp [hpublish, concluded, checked]

end outputs

section history

variable {l l' : Ledger} {t : Task}

theorem previousRecords_congr (h : l.previous = l'.previous) (s : SlotId) (q : Option TaskId) :
    l.previousRecords s q = l'.previousRecords s q := by
  rw [Ledger.previousRecords, Ledger.previousRecords, h]

theorem history?_congr (h : l.previous = l'.previous) : t.history? l = t.history? l' := by
  simp only [Task.history?, previousRecords_congr h]

theorem isIntact_congr {w w' : World} {r : Record} (h : ∀ l ∈ r.locations, w.contentAt l = w'.contentAt l) :
    r.isIntact w.files w.cwd = r.isIntact w'.files w'.cwd := by
  rw [Record.isIntact, Record.isIntact, World.fingerprint_congr h]

theorem verdict_congr {config config' : SessionConfig} {fingerprint : String} {site site' : Site}
    (hforce : config.forceRebuildAll = config'.forceRebuildAll)
    (hprevious : site.ledger.previous = site'.ledger.previous)
    (hthere : ∀ s, ∀ r ∈ site'.ledger.previousRecords s (some t.id), r.inputFingerprint = some fingerprint →
      ∀ l ∈ r.locations, site.world.contentAt l = site'.world.contentAt l) :
    verdict config t fingerprint site = verdict config' t fingerprint site' := by
  rw [verdict, verdict, hforce, reusable, reusable, history?_congr hprevious]
  cases hhist : t.history? site'.ledger with
  | none => rfl
  | some rs =>
    by_cases hchanged : rs.any (fun r => r.inputFingerprint ≠ some fingerprint) = true
    · simp only [hchanged, if_true]
    · have hintact : rs.all (Record.isIntact site.world.files site.world.cwd) =
          rs.all (Record.isIntact site'.world.files site'.world.cwd) := by
        have hone : ∀ r ∈ rs, r.isIntact site.world.files site.world.cwd =
            r.isIntact site'.world.files site'.world.cwd := by
          intro r hr
          obtain ⟨s, -, hs, hq⟩ := ((history?_eq_some hhist).2.2 r).mp hr
          refine isIntact_congr (hthere s r (mem_previousRecords.mpr ⟨hs, hq⟩) ?_)
          by_contra hne
          exact hchanged (List.any_eq_true.mpr ⟨r, hr, by simpa using hne⟩)
        rw [Bool.eq_iff_iff, List.all_eq_true, List.all_eq_true]
        exact forall₂_congr fun r hr => by rw [hone r hr]
      simp only [hintact]

end history

namespace Evaluation

theorem boundRecords_perm {d e : Evaluation} (htask : d.task = e.task)
    (hinputs : ∀ s ∈ e.task.inputs, ((d.site.ledger.currentRecords s).map Record.undated).Perm
      ((e.site.ledger.currentRecords s).map Record.undated)) :
    ((d.task.boundRecords d.site.ledger.currentRecords).map Record.undated).Perm
      ((e.task.boundRecords e.site.ledger.currentRecords).map Record.undated) := by
  rw [Task.boundRecords, Task.boundRecords, htask, List.map_flatMap, List.map_flatMap]
  exact List.Perm.flatMap_left _ hinputs

theorem fingerprint_eq {d e : Evaluation} (htask : d.task = e.task)
    (hinputs : ∀ s ∈ e.task.inputs, ((d.site.ledger.currentRecords s).map Record.undated).Perm
      ((e.site.ledger.currentRecords s).map Record.undated)) : d.fingerprint = e.fingerprint := by
  rw [fingerprint, fingerprint, Task.fingerprintAt, Task.fingerprintAt]
  refine (congrArg (Fingerprint.ofInputs · _) htask).trans (Fingerprint.ofInputs_congr ?_)
  exact boundRecords_perm htask hinputs

/-- What the action of the task comes to if it is called. -/
def ran (e : Evaluation) : ActionResult × World := e.task.action (e.task.callAt e.site) e.site.world

/-- From the same call on the same contents, the action comes to the same report with the same
contents, though anything else may be different. -/
def Repeats (d e : Evaluation) : Prop :=
  d.task.callAt d.site = e.task.callAt e.site →
  (∀ m ∈ (e.task.callAt e.site).inputs, ∀ l ∈ m.2, d.site.world.contentAt l = e.site.world.contentAt l) →
    d.ran.1 = e.ran.1 ∧ ∀ outputs, e.ran.1 = .reported outputs → ∀ m ∈ outputs, ∀ l ∈ m.2,
      d.ran.2.contentAt l = e.ran.2.contentAt l

theorem Repeats.symm {d e : Evaluation} (h : d.Repeats e) : e.Repeats d := by
  intro hcall hthere
  obtain ⟨hresult, hcontents⟩ := h hcall.symm fun m hm l hl => (hthere m (hcall ▸ hm) l hl).symm
  exact ⟨hresult.symm, fun outputs hreport m hm l hl =>
    (hcontents outputs (hresult ▸ hreport) m hm l hl).symm⟩

/-- The location belongs to what the last run has recorded for the inputs that the task has now. -/
def Recorded (e : Evaluation) (l : Path) : Prop :=
  ∃ s, ∃ r ∈ e.site.ledger.previousRecords s (some e.task.id), r.inputFingerprint = some e.fingerprint ∧
    l ∈ r.locations

/-- The same task finds the same. -/
structure Same (p q : Plan) (d e : Evaluation) : Prop where
  catalog : p.catalog = q.catalog
  forced : p.config.forceRebuildAll = q.config.forceRebuildAll
  task : d.task = e.task
  previous : d.site.ledger.previous = e.site.ledger.previous
  inputs : ∀ s ∈ e.task.inputs, (d.site.ledger.currentRecords s).map Record.undated =
    (e.site.ledger.currentRecords s).map Record.undated
  there : ∀ s ∈ e.task.inputs, ∀ r ∈ e.site.ledger.currentRecords s, ∀ l ∈ r.locations,
    d.site.world.contentAt l = e.site.world.contentAt l
  recorded : ∀ l, e.Recorded l → d.site.world.contentAt l = e.site.world.contentAt l

/-- The same has become of a task and the same is published for it, apart from the times. -/
structure Matches (p q : Plan) (d e : Evaluation) : Prop where
  outcome : d.outcome p = e.outcome q
  published : (d.published p).map Record.undated = (e.published q).map Record.undated
  contents : ∀ r ∈ e.published q, ∀ l ∈ r.locations,
    (d.after p).world.contentAt l = (e.after q).world.contentAt l

theorem Matches.exists_published {p q : Plan} {d e : Evaluation} (h : Matches p q d e) {r : Record}
    (hr : r ∈ e.published q) : ∃ r' ∈ d.published p, r'.undated = r.undated := by
  have hmem : r.undated ∈ (d.published p).map Record.undated := by
    rw [h.published]
    exact List.mem_map_of_mem hr
  exact List.mem_map.mp hmem

/-- Nobody has cancelled the session by the time that the task is done. -/
def Uncancelled (p : Plan) (e : Evaluation) : Prop :=
  e.site.world.cancelled = false ∧ (e.after p).world.cancelled = false

theorem concluded_of_due {p : Plan} {e : Evaluation} (h : e.Uncancelled p) {reason : RunReason}
    (due : verdict p.config e.task e.fingerprint e.site = .error reason) : (e.after p).world = e.ran.2 ∧
      e.outcome p = (concluded p.catalog e.task reason e.fingerprint e.ran).1 ∧
      e.published p = (concluded p.catalog e.task reason e.fingerprint e.ran).2 := by
  obtain ⟨hlive, hstill⟩ := h
  obtain ⟨hworld, hconcluded⟩ : (e.after p).world = e.ran.2 ∧ (e.ran.2.cancelled = false →
      (e.outcome p, e.published p) = concluded p.catalog e.task reason e.fingerprint e.ran) :=
    evaluate_of_due due hlive
  have heq := hconcluded (hworld ▸ hstill)
  exact ⟨hworld, congrArg Prod.fst heq, congrArg Prod.snd heq⟩

theorem Uncancelled.attempted {p : Plan} {e : Evaluation} (h : e.Uncancelled p) :
    (e.outcome p).isUnattempted = false := by
  cases hverdict : verdict p.config e.task e.fingerprint e.site with
  | error reason =>
    rw [(concluded_of_due h hverdict).2.1]
    exact concluded_attempted _
  | ok rs =>
    have hev := e.evaluated p
    generalize e.outcome p = o, e.after p = site at hev
    cases hev with
    | reused _ _ => rfl
    | unusable _ _ => rfl
    | executed _ _ _ _ _ => rfl
    | idle due _ _ =>
      rw [Evaluation.fingerprint, due] at hverdict
      simp at hverdict

theorem history?_of_reuse {p : Plan} (e : Evaluation) (h : e.outcome p = .skipped .upToDate) :
    e.task.history? e.site.ledger = some (e.published p) := by
  have hev := e.evaluated p
  rw [h] at hev
  generalize e.after p = site at hev
  cases hev with
  | reused saved _ =>
    rw [show e.published p = _ from published_of_saved saved]
    exact (verdict_ok saved).2.1
  | idle _ fruitless _ => simp [Outcome.isSuccess] at fruitless

namespace Same

variable {p q : Plan} {d e : Evaluation}

theorem fingerprint_eq (h : Same p q d e) : d.fingerprint = e.fingerprint :=
  Evaluation.fingerprint_eq h.task fun s hs => .of_eq (h.inputs s hs)

theorem callAt_eq (h : Same p q d e) : d.task.callAt d.site = e.task.callAt e.site := by
  have hlocations : ∀ rs : List Record,
      rs.flatMap (·.locations) = (rs.map Record.undated).flatMap (·.locations) :=
    fun rs => by rw [List.flatMap_map]; rfl
  have hpaths : e.task.inputs.map (fun s => (s, (d.site.ledger.currentRecords s).flatMap (·.locations))) =
      e.task.inputs.map fun s => (s, (e.site.ledger.currentRecords s).flatMap (·.locations)) := by
    refine List.map_congr_left fun s hs => ?_
    rw [hlocations, h.inputs s hs, ← hlocations]
  rw [Task.callAt, Task.callAt, h.task, Task.inputPaths, Task.inputPaths, hpaths]

theorem verdict_eq (h : Same p q d e) : verdict p.config d.task d.fingerprint d.site =
    verdict q.config e.task e.fingerprint e.site := by
  rw [h.task, h.fingerprint_eq]
  exact verdict_congr h.forced h.previous fun s r hr hsame l hl => h.recorded l ⟨s, r, hr, hsame, hl⟩

theorem ran_eq (h : Same p q d e) (hrepeats : d.Repeats e) : d.ran.1 = e.ran.1 ∧
    ∀ outputs, e.ran.1 = .reported outputs → ∀ m ∈ outputs, ∀ l ∈ m.2,
      d.ran.2.contentAt l = e.ran.2.contentAt l := by
  refine hrepeats h.callAt_eq fun m hm l hl => ?_
  obtain ⟨s, hs, rfl⟩ := List.mem_map.mp (Keyed.mem_ofList hm)
  obtain ⟨r, hr, hl⟩ := List.mem_flatMap.mp hl
  exact h.there s hs r hr l hl

theorem matches_of_saved (h : Same p q d e) {rs : List Record}
    (saved : verdict q.config e.task e.fingerprint e.site = .ok rs) (hfiled : e.site.ledger.previous.Filed)
    (hdeclared : ∀ s ∈ e.task.outputs, ∃ slot, q.catalog.find? s = some slot) : Matches p q d e := by
  have saved' := h.verdict_eq.trans saved
  obtain ⟨l, hl⟩ := evaluate_of_saved saved hfiled hdeclared e.task.action
  obtain ⟨l', hl'⟩ := evaluate_of_saved (c := p.catalog) saved' (h.previous ▸ hfiled)
    (by rwa [h.task, h.catalog]) d.task.action
  have hpublished : e.published q = rs := published_of_saved saved
  have hpublished' : d.published p = rs := published_of_saved saved'
  refine ⟨(congrArg Prod.fst hl').trans (congrArg Prod.fst hl).symm, by rw [hpublished, hpublished'], ?_⟩
  intro r hr location hlocation
  have hworld : (e.after q).world = e.site.world := congrArg (fun x => x.2.world) hl
  have hworld' : (d.after p).world = d.site.world := congrArg (fun x => x.2.world) hl'
  rw [hworld, hworld']
  rw [hpublished] at hr
  obtain ⟨-, hhist, hsame, -⟩ := verdict_ok saved
  obtain ⟨s, -, hs, hq⟩ := ((history?_eq_some hhist).2.2 r).mp hr
  exact h.recorded location ⟨s, r, mem_previousRecords.mpr ⟨hs, hq⟩, hsame r hr, hlocation⟩

theorem matches_of_due (h : Same p q d e) (hrepeats : d.Repeats e) (hd : d.Uncancelled p)
    (he : e.Uncancelled q) {reason : RunReason}
    (due : verdict q.config e.task e.fingerprint e.site = .error reason) : Matches p q d e := by
  obtain ⟨hresult, hcontents⟩ := h.ran_eq hrepeats
  obtain ⟨hworld, houtcome, hpublished⟩ := concluded_of_due he due
  obtain ⟨hworld', houtcome', hpublished'⟩ := concluded_of_due hd (h.verdict_eq.trans due)
  rw [h.catalog, h.task, h.fingerprint_eq] at houtcome' hpublished'
  obtain ⟨hsame, hrecords⟩ := concluded_congr hresult hcontents
  refine ⟨?_, ?_, fun r hr l hl => ?_⟩
  · rw [houtcome, houtcome']
    exact hsame
  · rw [hpublished, hpublished']
    exact hrecords
  · rw [hpublished] at hr
    obtain ⟨outputs, hreport, m, hm, hlocations⟩ := mem_concluded hr
    rw [hworld, hworld']
    exact hcontents outputs hreport m hm l (hlocations ▸ hl)

/-- What has become of a task depends on what it finds and on nothing else. -/
theorem matched (h : Same p q d e) (hrepeats : d.Repeats e) (hd : d.Uncancelled p) (he : e.Uncancelled q)
    (hfiled : e.site.ledger.previous.Filed)
    (hdeclared : ∀ s ∈ e.task.outputs, ∃ slot, q.catalog.find? s = some slot) : Matches p q d e := by
  cases hverdict : verdict q.config e.task e.fingerprint e.site with
  | ok rs => exact h.matches_of_saved hverdict hfiled hdeclared
  | error reason => exact h.matches_of_due hrepeats hd he hverdict

end Same

end Evaluation

end SlotBuild
