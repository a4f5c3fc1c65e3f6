import SlotBuild.Proofs.Ledger.Binding

/-! What an evaluation does: it takes over the records of an earlier run, or runs the action and
binds a record for each output, or leaves the ledger as it is. -/

namespace SlotBuild

open Ledger (recordsAt bound)

def Task.fingerprintAt (t : Task) (site : Site) : String :=
  Fingerprint.ofInputs t (t.boundRecords site.ledger.currentRecords)

def Task.callAt (t : Task) (site : Site) : Call :=
  ⟨t.id, t.inputPaths site.ledger.currentRecords, t.outputs⟩

/-- The records that an evaluation binds: those of an earlier run, or those of the outputs that the
action reported, if all of them are in order. -/
def published (c : Catalog) (config : SessionConfig) (t : Task) (site : Site) : List Record :=
  match verdict config t (t.fingerprintAt site) site with
  | .ok rs => rs
  | .error _ =>
    if site.world.cancelled then []
    else match t.action (t.callAt site) site.world with
      | (.reported outputs, world) =>
        match outputRecords c world t (t.fingerprintAt site) outputs with
        | .ok rs => rs
        | .error _ => []
      | _ => []

/-- Everything that an evaluation can come to. -/
inductive Evaluated (c : Catalog) (config : SessionConfig) (t : Task) (site : Site) :
    Outcome → Site → Prop where
  | reused {rs : List Record} {l : Ledger} (saved : verdict config t (t.fingerprintAt site) site = .ok rs)
      (bound : bindAll c site.ledger rs = (.ok (), l)) :
      Evaluated c config t site (.skipped .upToDate) { site with ledger := l }
  | unusable {rs : List Record} {e : SlotError} {l : Ledger}
      (saved : verdict config t (t.fingerprintAt site) site = .ok rs)
      (bound : bindAll c site.ledger rs = (.error e, l)) :
      Evaluated c config t site (.failed (.badSlot e)) { site with ledger := l }
  | executed {reason : RunReason} {outputs : Keyed (List Path)} {world : World} {rs : List Record}
      {l : Ledger} (due : verdict config t (t.fingerprintAt site) site = .error reason)
      (live : site.world.cancelled = false)
      (ran : t.action (t.callAt site) site.world = (.reported outputs, world))
      (checked : outputRecords c world t (t.fingerprintAt site) outputs = .ok rs)
      (bound : bindAll c site.ledger rs = (.ok (), l)) :
      Evaluated c config t site (.executed reason (t.fingerprintAt site)) ⟨l, world⟩
  | idle {reason : RunReason} {o : Outcome} {world : World}
      (due : verdict config t (t.fingerprintAt site) site = .error reason)
      (fruitless : o.isSuccess = false) (nothing : published c config t site = []) :
      Evaluated c config t site o ⟨site.ledger, world⟩

variable {c : Catalog} {config : SessionConfig} {t : Task} {site : Site}

theorem outputRecord_ok {w : World} {fingerprint : String} {outputs : Keyed (List Path)} {s : SlotId}
    {r : Record} (h : outputRecord c w t fingerprint outputs s = .ok r) :
    ∃ locations slot digest, Keyed.get? s outputs = some locations ∧ c.find? s = some slot ∧
      w.files.fingerprint w.cwd locations = .ok digest ∧
      r = ⟨s, locations, digest, some fingerprint, some t.id, w.clock⟩ := by
  unfold outputRecord at h
  cases hloc : Keyed.get? s outputs with
  | none => simp [hloc] at h
  | some locations =>
    cases hslot : c.lookup s with
    | error e => simp [hloc, hslot] at h
    | ok slot =>
      by_cases hcount : slot.cardinality = .single ∧ locations.length ≠ 1
      · simp [hloc, hslot, hcount] at h
      · cases hdigest : w.files.fingerprint w.cwd locations with
        | error e => simp [hloc, hslot, hcount, hdigest] at h
        | ok digest =>
          simp only [hloc, hslot, if_neg hcount, hdigest] at h
          exact ⟨locations, slot, digest, rfl, Catalog.lookup_eq_ok.mp hslot, hdigest,
            (Except.ok.inj h).symm⟩

theorem outputRecords_ok {w : World} {fingerprint : String} {outputs : Keyed (List Path)}
    {rs : List Record} (h : outputRecords c w t fingerprint outputs = .ok rs) :
    List.Forall₂ (fun s r => outputRecord c w t fingerprint outputs s = .ok r) t.outputs rs := by
  unfold outputRecords at h
  cases hstray : outputs.keys.find? fun s => !t.outputs.contains s with
  | some s => simp only [hstray, reduceCtorEq] at h
  | none =>
    simp only [hstray] at h
    exact mapM_eq_ok.mp h

theorem outputRecords_mem {w : World} {fingerprint : String} {outputs : Keyed (List Path)}
    {rs : List Record} (h : outputRecords c w t fingerprint outputs = .ok rs) :
    (∀ r ∈ rs, r.slot ∈ t.outputs ∧ outputRecord c w t fingerprint outputs r.slot = .ok r) ∧
      ∀ s ∈ t.outputs, ∃ r ∈ rs, r.slot = s := by
  have hall := outputRecords_ok h
  have hslot : ∀ {s r}, outputRecord c w t fingerprint outputs s = .ok r → r.slot = s := by
    intro s r hr
    obtain ⟨_, _, _, -, -, -, rfl⟩ := outputRecord_ok hr
    rfl
  constructor
  · intro r hr
    obtain ⟨s, hs, hsr⟩ := exists_left_of_forall₂ hall r hr
    obtain rfl := hslot hsr
    exact ⟨hs, hsr⟩
  · intro s hs
    obtain ⟨r, hr, hsr⟩ := exists_right_of_forall₂ hall s hs
    exact ⟨r, hr, hslot hsr⟩

/-- What counts for the records of reported outputs is which slots are reported, the locations in
each of them and what lies there. -/
theorem outputRecords_alike {w w' : World} {t' : Task} {fingerprint fingerprint' : String}
    {outputs outputs' : Keyed (List Path)} {rs : List Record}
    (h : outputRecords c w t fingerprint outputs = .ok rs) (hslots : t'.outputs = t.outputs)
    (hsame : ∀ s, (Keyed.get? s outputs').map (fun ps => (ps, w'.files.fingerprint w'.cwd ps)) =
      (Keyed.get? s outputs).map fun ps => (ps, w.files.fingerprint w.cwd ps)) :
    ∃ rs', outputRecords c w' t' fingerprint' outputs' = .ok rs' := by
  have hone : ∀ s ∈ t'.outputs, ∃ r', outputRecord c w' t' fingerprint' outputs' s = .ok r' := by
    intro s hs
    obtain ⟨r, -, hr⟩ := exists_right_of_forall₂ (outputRecords_ok h) s (hslots ▸ hs)
    obtain ⟨locations, slot, digest, hloc, hslot, hd, -⟩ := outputRecord_ok hr
    have hs' := hsame s
    rw [hloc, Option.map_some, hd] at hs'
    obtain ⟨ps, hps, heq⟩ := Option.map_eq_some_iff.mp hs'
    obtain ⟨rfl, hd'⟩ := Prod.mk.inj heq
    simp only [outputRecord, hloc, Catalog.lookup_eq_ok.mpr hslot, hd] at hr
    simp only [outputRecord, hps, Catalog.lookup_eq_ok.mpr hslot, hd']
    by_cases hcount : slot.cardinality = .single ∧ ps.length ≠ 1
    · rw [if_pos hcount] at hr
      cases hr
    · exact ⟨_, if_neg hcount⟩
  have hdeclared : outputs'.keys.find? (fun s => !t'.outputs.contains s) = none := by
    apply List.find?_eq_none.mpr
    intro s hs
    obtain ⟨ps, hps⟩ := Keyed.mem_keys.mp hs
    have hs' := hsame s
    rw [hps, Option.map_some] at hs'
    obtain ⟨ps', hps', -⟩ := Option.map_eq_some_iff.mp hs'.symm
    have hkey : s ∈ outputs.keys := Keyed.mem_keys.mpr ⟨ps', hps'⟩
    unfold outputRecords at h
    cases hall : outputs.keys.find? fun s => !t.outputs.contains s with
    | some s => simp only [hall, reduceCtorEq] at h
    | none =>
      rw [hslots]
      exact List.find?_eq_none.mp hall s hkey
  obtain ⟨rs', hrs'⟩ := exists_mapM_eq_ok hone
  exact ⟨rs', by rw [outputRecords, hdeclared]; exact hrs'⟩

theorem mem_previousRecords {l : Ledger} {s : SlotId} {q : Option TaskId} {r : Record} :
    r ∈ l.previousRecords s q ↔ r ∈ recordsAt l.previous s ∧ r.producer = q := by
  simp [Ledger.previousRecords, Generation.mem_recordsIn]

theorem history?_eq_some {l : Ledger} {rs : List Record} (h : t.history? l = some rs) :
    t.outputs ≠ [] ∧ (∀ s ∈ t.outputs, ∃ r ∈ recordsAt l.previous s, r.producer = some t.id) ∧
      ∀ r, r ∈ rs ↔ ∃ s ∈ t.outputs, r ∈ recordsAt l.previous s ∧ r.producer = some t.id := by
  unfold Task.history? at h
  by_cases hne : t.outputs = []
  · simp [hne] at h
  · rw [if_neg hne] at h
    obtain ⟨rss, hrss, rfl⟩ := Option.map_eq_some_iff.mp h
    have hall := mapM_eq_some.mp hrss
    have hone : ∀ {s xs}, (if l.previousRecords s (some t.id) = [] then none
        else some (l.previousRecords s (some t.id))) = some xs →
          xs ≠ [] ∧ ∀ r, r ∈ xs ↔ r ∈ recordsAt l.previous s ∧ r.producer = some t.id := by
      intro s xs hxs
      by_cases hnone : l.previousRecords s (some t.id) = []
      · simp [hnone] at hxs
      · rw [if_neg hnone] at hxs
        obtain rfl := Option.some.inj hxs
        exact ⟨hnone, fun r => mem_previousRecords⟩
    refine ⟨hne, fun s hs => ?_, fun r => ?_⟩
    · obtain ⟨xs, -, hxs⟩ := exists_right_of_forall₂ hall s hs
      obtain ⟨hsome, hmem⟩ := hone hxs
      obtain ⟨r, hr⟩ := List.exists_mem_of_ne_nil xs hsome
      exact ⟨r, ((hmem r).mp hr).1, ((hmem r).mp hr).2⟩
    · rw [List.mem_flatten]
      constructor
      · rintro ⟨xs, hxs, hr⟩
        obtain ⟨s, hs, hsx⟩ := exists_left_of_forall₂ hall xs hxs
        exact ⟨s, hs, ((hone hsx).2 r).mp hr⟩
      · rintro ⟨s, hs, hr⟩
        obtain ⟨xs, hxs, hsx⟩ := exists_right_of_forall₂ hall s hs
        exact ⟨xs, hxs, ((hone hsx).2 r).mpr hr⟩

theorem verdict_ok {fingerprint : String} {rs : List Record}
    (h : verdict config t fingerprint site = .ok rs) :
    config.forceRebuildAll = false ∧ t.history? site.ledger = some rs ∧
      (∀ r ∈ rs, r.inputFingerprint = some fingerprint) ∧
      ∀ r ∈ rs, r.isIntact site.world.files site.world.cwd = true := by
  unfold verdict reusable at h
  by_cases hforce : config.forceRebuildAll = true
  · simp [hforce] at h
  cases hhist : t.history? site.ledger with
  | none => simp [hforce, hhist] at h
  | some rs' =>
    simp only [hforce, hhist] at h
    by_cases hsame : rs'.any fun r => r.inputFingerprint ≠ some fingerprint
    · rw [if_pos hsame] at h
      cases h
    rw [if_neg hsame] at h
    by_cases hintact : rs'.all (Record.isIntact site.world.files site.world.cwd)
    · rw [if_pos hintact] at h
      obtain rfl := Except.ok.inj h
      exact ⟨by simpa using hforce, rfl, by simpa using hsame, by simpa using hintact⟩
    · rw [if_neg hintact] at h
      cases h

theorem exists_history {l : Ledger} (hne : t.outputs ≠ [])
    (h : ∀ s ∈ t.outputs, l.previousRecords s (some t.id) ≠ []) : ∃ rs, t.history? l = some rs := by
  have hall : t.outputs.mapM (fun s =>
      if l.previousRecords s (some t.id) = [] then none else some (l.previousRecords s (some t.id))) =
      some (t.outputs.map fun s => l.previousRecords s (some t.id)) := by
    refine mapM_eq_some.mpr (List.forall₂_map_right_iff.mpr (List.forall₂_same.mpr fun s hs => ?_))
    exact if_neg (h s hs)
  refine ⟨(t.outputs.map fun s => l.previousRecords s (some t.id)).flatten, ?_⟩
  rw [Task.history?, if_neg hne, hall, Option.map_some]

theorem verdict_of_history {fingerprint : String} {rs : List Record} (hforce : config.forceRebuildAll = false)
    (hhist : t.history? site.ledger = some rs) (hsame : ∀ r ∈ rs, r.inputFingerprint = some fingerprint)
    (hintact : ∀ r ∈ rs, r.isIntact site.world.files site.world.cwd = true) :
    verdict config t fingerprint site = .ok rs := by
  have hany : rs.any (fun r => r.inputFingerprint ≠ some fingerprint) = false :=
    List.any_eq_false.mpr fun r hr => by simpa using hsame r hr
  have hall : rs.all (Record.isIntact site.world.files site.world.cwd) = true := List.all_eq_true.mpr hintact
  rw [verdict, if_neg (by simp [hforce]), reusable, hhist]
  simp only [hany, hall, Bool.false_eq_true, if_false, if_true]

theorem published_of_saved {rs : List Record}
    (h : verdict config t (t.fingerprintAt site) site = .ok rs) : published c config t site = rs := by
  simp [published, h]

theorem published_of_ran {reason : RunReason} {outputs : Keyed (List Path)} {world : World}
    {rs : List Record} (due : verdict config t (t.fingerprintAt site) site = .error reason)
    (live : site.world.cancelled = false)
    (ran : t.action (t.callAt site) site.world = (.reported outputs, world))
    (checked : outputRecords c world t (t.fingerprintAt site) outputs = .ok rs) :
    published c config t site = rs := by
  simp [published, due, live, ran, checked]

theorem publish_ok {fingerprint : String} {outputs : Keyed (List Path)} {world : World} {rs : List Record}
    (checked : outputRecords c world t fingerprint outputs = .ok rs) (ledger : Ledger) :
    ∃ l, bindAll c ledger rs = (.ok (), l) ∧
      publish c t fingerprint outputs ⟨ledger, world⟩ = (.ok (), ⟨l, world⟩) := by
  have hdeclared : ∀ r ∈ rs, ∃ slot, c.find? r.slot = some slot := by
    intro r hr
    obtain ⟨_, slot, _, -, hslot, -, -⟩ := outputRecord_ok ((outputRecords_mem checked).1 r hr).2
    exact ⟨slot, hslot⟩
  obtain ⟨l, hbound⟩ := bindAll_of_declared hdeclared ledger
  exact ⟨l, hbound, by simp [publish, checked, hbound]⟩

theorem evaluate_of_ran {reason : RunReason} {outputs : Keyed (List Path)} {world : World}
    {rs : List Record} (due : verdict config t (t.fingerprintAt site) site = .error reason)
    (live : site.world.cancelled = false)
    (ran : t.action (t.callAt site) site.world = (.reported outputs, world))
    (checked : outputRecords c world t (t.fingerprintAt site) outputs = .ok rs) :
    (evaluate c config t site).1 = .executed reason (t.fingerprintAt site) := by
  obtain ⟨l, -, hpublish⟩ := publish_ok checked site.ledger
  rw [Task.fingerprintAt] at due hpublish
  rw [Task.callAt] at ran
  simp [evaluate, due, live, execute, ran, hpublish, Task.fingerprintAt]

theorem execute_evaluated {reason : RunReason}
    (due : verdict config t (t.fingerprintAt site) site = .error reason)
    (live : site.world.cancelled = false) {result : Outcome × Site}
    (h : execute c t reason (t.fingerprintAt site) (t.inputPaths site.ledger.currentRecords) site = result) :
    Evaluated c config t site result.1 result.2 := by
  subst h
  have hfailure : ∀ (fault : TaskFault) (w : World),
      (if w.cancelled then Outcome.skipped .cancelled else .failed fault).isSuccess = false := by
    intro fault w
    split <;> rfl
  rcases ran : t.action (t.callAt site) site.world with ⟨result, world⟩
  have ran' := ran
  unfold Task.callAt at ran'
  rw [execute, ran']
  cases result with
  | panicked => exact .idle due rfl (by simp [published, due, live, ran])
  | failed message => exact .idle due (hfailure _ world) (by simp [published, due, live, ran])
  | reported outputs =>
    cases checked : outputRecords c world t (t.fingerprintAt site) outputs with
    | error fault =>
      have hpublish : publish c t (t.fingerprintAt site) outputs { site with world := world } =
          (.error fault, { site with world := world }) := by simp [publish, checked]
      simp only [hpublish]
      exact .idle due (hfailure fault world) (by simp [published, due, live, ran, checked])
    | ok rs =>
      obtain ⟨l, bound, hpublish⟩ := publish_ok checked site.ledger
      simp only [hpublish]
      exact .executed due live ran checked bound

theorem evaluate_evaluated (c : Catalog) (config : SessionConfig) (t : Task) (site : Site) :
    Evaluated c config t site (evaluate c config t site).1 (evaluate c config t site).2 := by
  dsimp only [evaluate]
  rw [← Task.fingerprintAt]
  cases saved : verdict config t (t.fingerprintAt site) site with
  | ok rs =>
    dsimp only
    rcases bound : bindAll c site.ledger rs with ⟨_ | _, l⟩
    · exact .unusable saved bound
    · exact .reused saved bound
  | error reason =>
    cases live : site.world.cancelled with
    | true => exact .idle saved rfl (by simp [published, saved, live])
    | false => exact execute_evaluated saved live rfl

section effects

variable {o : Outcome} {site' : Site}

theorem Evaluated.previous (h : Evaluated c config t site o site') :
    site'.ledger.previous = site.ledger.previous := by
  cases h with
  | @reused rs l _ bound =>
    have hp := bindAll_previous c site.ledger rs
    rwa [bound] at hp
  | @unusable rs e l _ bound =>
    have hp := bindAll_previous c site.ledger rs
    rwa [bound] at hp
  | @executed _ _ _ rs l _ _ _ _ bound =>
    have hp := bindAll_previous c site.ledger rs
    rwa [bound] at hp
  | idle _ _ _ => rfl

theorem Evaluated.ledger_eq (h : Evaluated c config t site o site') :
    site'.ledger = (bindAll c site.ledger (published c config t site)).2 := by
  cases h with
  | reused saved bound => rw [published_of_saved saved, bound]
  | unusable saved bound => rw [published_of_saved saved, bound]
  | executed due live ran checked bound => rw [published_of_ran due live ran checked, bound]
  | idle due fruitless nothing => rw [nothing, bindAll]

theorem Evaluated.published_old (h : Evaluated c config t site o site')
    (hnot : ∀ reason, o ≠ .executed reason (t.fingerprintAt site)) {r : Record}
    (hr : r ∈ published c config t site) :
    ∃ s ∈ t.outputs, r ∈ recordsAt site.ledger.previous s ∧ r.producer = some t.id := by
  have hsaved : ∀ {rs}, verdict config t (t.fingerprintAt site) site = .ok rs →
      ∃ s ∈ t.outputs, r ∈ recordsAt site.ledger.previous s ∧ r.producer = some t.id := by
    intro rs saved
    rw [published_of_saved saved] at hr
    exact ((history?_eq_some (verdict_ok saved).2.1).2.2 r).mp hr
  cases h with
  | reused saved _ => exact hsaved saved
  | unusable saved _ => exact hsaved saved
  | executed _ _ _ _ _ => exact absurd rfl (hnot _)
  | idle _ _ nothing => simp [nothing] at hr

theorem mem_published {r : Record} (hr : r ∈ published c config t site) :
    (∃ s ∈ t.outputs, r ∈ recordsAt site.ledger.previous s ∧ r.producer = some t.id) ∨
      ∃ world outputs, r.slot ∈ t.outputs ∧
        outputRecord c world t (t.fingerprintAt site) outputs r.slot = .ok r := by
  have h := evaluate_evaluated c config t site
  generalize evaluate c config t site = result at h
  generalize result.1 = o, result.2 = site' at h
  by_cases hex : ∃ reason, o = .executed reason (t.fingerprintAt site)
  · obtain ⟨reason, rfl⟩ := hex
    cases h with
    | executed due live ran checked _ =>
      rw [published_of_ran due live ran checked] at hr
      exact Or.inr ⟨_, _, (outputRecords_mem checked).1 r hr⟩
    | idle _ fruitless _ => simp [Outcome.isSuccess] at fruitless
  · exact Or.inl (h.published_old (fun reason heq => hex ⟨reason, heq⟩) hr)

/-- What is behind a task that was executed. -/
theorem Evaluated.reported {reason : RunReason} {fingerprint : String}
    (h : Evaluated c config t site (.executed reason fingerprint) site') : ∃ outputs world,
      t.action (t.callAt site) site.world = (.reported outputs, world) ∧ fingerprint = t.fingerprintAt site ∧
        outputRecords c world t fingerprint outputs = .ok (published c config t site) ∧
          ∃ l, bindAll c site.ledger (published c config t site) = (.ok (), l) ∧ site' = ⟨l, world⟩ := by
  generalize ho : Outcome.executed reason fingerprint = o at h
  cases h with
  | executed due live ran checked bound =>
    obtain ⟨-, rfl⟩ := Outcome.executed.inj ho
    rw [published_of_ran due live ran checked]
    exact ⟨_, _, ran, rfl, checked, _, bound, rfl⟩
  | reused _ _ => simp at ho
  | unusable _ _ => simp at ho
  | idle _ fruitless _ => simp [← ho, Outcome.isSuccess] at fruitless

theorem Evaluated.published_new {reason : RunReason}
    (h : Evaluated c config t site (.executed reason (t.fingerprintAt site)) site') :
    (∀ r ∈ published c config t site, r.slot ∈ t.outputs ∧ r.producer = some t.id ∧
      r.inputFingerprint = some (t.fingerprintAt site)) ∧
      ∀ s ∈ t.outputs, ∃ r ∈ published c config t site, r.slot = s := by
  obtain ⟨_, _, -, -, checked, -⟩ := h.reported
  refine ⟨fun r hr => ?_, (outputRecords_mem checked).2⟩
  obtain ⟨hs, hout⟩ := (outputRecords_mem checked).1 r hr
  obtain ⟨_, _, _, -, -, -, heq⟩ := outputRecord_ok hout
  rw [heq] at hs ⊢
  exact ⟨hs, rfl, rfl⟩

theorem published_producer {r : Record} (hr : r ∈ published c config t site) :
    r.producer = some t.id := by
  rcases mem_published hr with ⟨s, -, -, hq⟩ | ⟨world, outputs, -, hout⟩
  · exact hq
  · obtain ⟨_, _, _, -, -, -, heq⟩ := outputRecord_ok hout
    rw [heq]

theorem published_slot (hfiled : site.ledger.previous.Filed) {r : Record}
    (hr : r ∈ published c config t site) : r.slot ∈ t.outputs := by
  rcases mem_published hr with ⟨s, hs, hrs, -⟩ | ⟨world, outputs, hs, -⟩
  · rwa [hfiled s r hrs]
  · exact hs

/-- What is published is on record: with the fingerprint of the inputs and of what lies at its
locations when the evaluation is over. -/
theorem Evaluated.recorded (h : Evaluated c config t site o site') {r : Record}
    (hr : r ∈ published c config t site) : r.inputFingerprint = some (t.fingerprintAt site) ∧
      site'.world.files.fingerprint site'.world.cwd r.locations = .ok r.fingerprint := by
  have hsaved : ∀ {rs}, verdict config t (t.fingerprintAt site) site = .ok rs →
      r.inputFingerprint = some (t.fingerprintAt site) ∧
        site.world.files.fingerprint site.world.cwd r.locations = .ok r.fingerprint := by
    intro rs saved
    rw [published_of_saved saved] at hr
    obtain ⟨-, -, hsame, hintact⟩ := verdict_ok saved
    refine ⟨hsame r hr, ?_⟩
    have hthere := hintact r hr
    unfold Record.isIntact at hthere
    cases hdigest : site.world.files.fingerprint site.world.cwd r.locations with
    | error e => simp [hdigest] at hthere
    | ok digest =>
      rw [hdigest] at hthere
      rw [beq_iff_eq.mp hthere]
  cases h with
  | reused saved _ => exact hsaved saved
  | unusable saved _ => exact hsaved saved
  | executed due live ran checked _ =>
    rw [published_of_ran due live ran checked] at hr
    obtain ⟨_, _, digest, -, -, hdigest, heq⟩ := outputRecord_ok ((outputRecords_mem checked).1 r hr).2
    rw [heq]
    exact ⟨rfl, hdigest⟩
  | idle _ _ nothing => simp [nothing] at hr

theorem bindAll_of_saved {rs : List Record} (saved : verdict config t (t.fingerprintAt site) site = .ok rs)
    (hfiled : site.ledger.previous.Filed) (hdeclared : ∀ s ∈ t.outputs, ∃ slot, c.find? s = some slot) :
    ∃ l, bindAll c site.ledger rs = (.ok (), l) := by
  refine bindAll_of_declared (fun r hr => hdeclared r.slot ?_) site.ledger
  have hpub : r ∈ published c config t site := by rwa [published_of_saved saved]
  exact published_slot hfiled hpub

theorem evaluate_of_verdict {rs : List Record} {l : Ledger}
    (saved : verdict config t (t.fingerprintAt site) site = .ok rs)
    (hbound : bindAll c site.ledger rs = (.ok (), l)) :
    evaluate c config t site = (.skipped .upToDate, { site with ledger := l }) := by
  rw [Task.fingerprintAt] at saved
  simp only [evaluate, saved, hbound]

/-- Where the records of an earlier run stand for a task, its action plays no part. -/
theorem evaluate_of_saved {rs : List Record} (saved : verdict config t (t.fingerprintAt site) site = .ok rs)
    (hfiled : site.ledger.previous.Filed) (hdeclared : ∀ s ∈ t.outputs, ∃ slot, c.find? s = some slot)
    (action : Action) : ∃ l, evaluate c config { t with action := action } site =
      (.skipped .upToDate, { site with ledger := l }) := by
  obtain ⟨l, hbound⟩ := bindAll_of_saved saved hfiled hdeclared
  have hverdict : verdict config { t with action := action }
      (({ t with action := action } : Task).fingerprintAt site) site = .ok rs := saved
  exact ⟨l, evaluate_of_verdict hverdict hbound⟩

theorem Evaluated.fills (h : Evaluated c config t site o site') (hfiled : site.ledger.previous.Filed)
    (ho : o.isSuccess = true) {s : SlotId} (hs : s ∈ t.outputs) {slot : Slot}
    (hslot : c.find? s = some slot) : ∃ r ∈ published c config t site, r.slot = s ∧
      recordsAt site'.ledger.current s = bound slot r (recordsAt site.ledger.current s) := by
  have hone : ∀ r ∈ published c config t site, r.producer = some t.id := fun r => published_producer
  cases h with
  | reused saved bound =>
    rw [published_of_saved saved] at hone ⊢
    obtain ⟨-, hhist, -⟩ := verdict_ok saved
    obtain ⟨-, hfull, hmem⟩ := history?_eq_some hhist
    obtain ⟨r, hr, hq⟩ := hfull s hs
    exact exists_bound_of_bindAll bound hone hslot ⟨r, (hmem r).mpr ⟨s, hs, hr, hq⟩, hfiled s r hr⟩
  | unusable _ _ => simp [Outcome.isSuccess] at ho
  | executed due live ran checked bound =>
    rw [published_of_ran due live ran checked] at hone ⊢
    exact exists_bound_of_bindAll bound hone hslot ((outputRecords_mem checked).2 s hs)
  | idle _ fruitless _ => simp [fruitless] at ho

theorem Evaluated.declared (h : Evaluated c config t site o site') (hfiled : site.ledger.previous.Filed)
    (ho : o.isSuccess = true) {s : SlotId} (hs : s ∈ t.outputs) : ∃ slot, c.find? s = some slot := by
  cases h with
  | reused saved bound =>
    obtain ⟨-, hfull, hmem⟩ := history?_eq_some (verdict_ok saved).2.1
    obtain ⟨r, hr, hq⟩ := hfull s hs
    rw [← hfiled s r hr]
    exact declared_of_bindAll bound r ((hmem r).mpr ⟨s, hs, hr, hq⟩)
  | unusable _ _ => simp [Outcome.isSuccess] at ho
  | executed _ _ _ checked bound =>
    obtain ⟨r, hr, rfl⟩ := (outputRecords_mem checked).2 s hs
    exact declared_of_bindAll bound r hr
  | idle _ fruitless _ => simp [fruitless] at ho

theorem Evaluated.keeps (h : Evaluated c config t site o site') (hfiled : site.ledger.previous.Filed)
    {s : SlotId} (hs : s ∉ t.outputs) :
    recordsAt site'.ledger.current s = recordsAt site.ledger.current s := by
  rw [h.ledger_eq]
  exact recordsAt_bindAll_of_notMem fun r hr heq => hs (heq ▸ published_slot hfiled hr)

theorem Evaluated.published_of_not_success (h : Evaluated c config t site o site')
    (hfiled : site.ledger.previous.Filed) (hdeclared : ∀ s ∈ t.outputs, ∃ slot, c.find? s = some slot)
    (ho : o.isSuccess = false) : published c config t site = [] := by
  cases h with
  | reused _ _ => simp [Outcome.isSuccess] at ho
  | @unusable rs e l saved bound =>
    obtain ⟨l', hbound⟩ := bindAll_of_saved saved hfiled hdeclared
    simp [bound] at hbound
  | executed _ _ _ _ _ => simp [Outcome.isSuccess] at ho
  | idle _ _ nothing => exact nothing

theorem Evaluated.ledger_of_not_success (h : Evaluated c config t site o site')
    (hfiled : site.ledger.previous.Filed) (hdeclared : ∀ s ∈ t.outputs, ∃ slot, c.find? s = some slot)
    (ho : o.isSuccess = false) : site'.ledger = site.ledger := by
  rw [h.ledger_eq, h.published_of_not_success hfiled hdeclared ho, bindAll]

end effects

end SlotBuild
