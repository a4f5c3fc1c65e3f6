import SlotBuild.Proofs.Evaluation

/-! What an evaluation leaves bound. One that runs the action binds a record for each output or
none. One that takes over earlier records binds them in turn, so it stops in the middle where the
slot of one of them is not in the catalog. -/

namespace SlotBuild

open Ledger (recordsAt)

section effects

variable {c : Catalog} {t : Task} {site : Site}

theorem bindAll_error {l l' : Ledger} {rs : List Record} {e : SlotError}
    (h : bindAll c l rs = (.error e, l')) :
    ∃ front x rest, rs = front ++ x :: rest ∧ (∀ r ∈ front, ∃ slot, c.find? r.slot = some slot) ∧
      c.find? x.slot = none ∧ e = .unknown x.slot ∧ bindAll c l front = (.ok (), l') := by
  induction rs generalizing l with
  | nil => simp [bindAll] at h
  | cons r rs ih =>
    simp only [bindAll] at h
    cases hr : c.find? r.slot with
    | none =>
      have hbind : bind c l r = .error (.unknown r.slot) := by
        rw [bind, Catalog.lookup, hr]
        rfl
      obtain ⟨he, rfl⟩ : SlotError.unknown r.slot = e ∧ l = l' := by simpa [hbind] using h
      exact ⟨[], r, rs, rfl, by simp, hr, he.symm, rfl⟩
    | some slot =>
      have hbind : bind c l r =
          .ok (l.withRecords r.slot (Ledger.bound slot r (recordsAt l.current r.slot))) :=
        bind_ok.mpr ⟨slot, hr, rfl⟩
      rw [hbind] at h
      obtain ⟨front, x, rest, rfl, hfront, hx, he, hbound⟩ := ih h
      refine ⟨r :: front, x, rest, rfl, List.forall_mem_cons.mpr ⟨⟨slot, hr⟩, hfront⟩, hx, he, ?_⟩
      rw [bindAll, hbind]
      exact hbound

theorem evaluate_of_unusable {config : SessionConfig} {rs : List Record} {e : SlotError} {l : Ledger}
    (saved : verdict config t (t.fingerprintAt site) site = .ok rs)
    (hbound : bindAll c site.ledger rs = (.error e, l)) :
    evaluate c config t site = (.failed (.badSlot e), { site with ledger := l }) := by
  rw [Task.fingerprintAt] at saved
  simp only [evaluate, saved, hbound]

theorem outputRecords_slots {w : World} {fingerprint : String} {outputs : Keyed (List Path)}
    {rs : List Record} (h : outputRecords c w t fingerprint outputs = .ok rs) :
    rs.map (·.slot) = t.outputs := by
  have hall : List.Forall₂ (fun s r => s = r.slot) t.outputs rs := by
    refine (outputRecords_ok h).imp fun s r hr => ?_
    obtain ⟨_, _, _, -, -, -, rfl⟩ := outputRecord_ok hr
    rfl
  exact (List.forall₂_eq_eq_eq ▸ List.forall₂_map_right_iff.mpr hall).symm

/-- One new record was bound for each output of a task, and nothing else. -/
structure Delivers (c : Catalog) (t : Task) (fingerprint : String) (site site' : Site) (rs : List Record) :
    Prop where
  one_each : rs.map (·.slot) = t.outputs
  made : ∀ r ∈ rs, r.producer = some t.id ∧ r.inputFingerprint = some fingerprint ∧
    r.createdAt = site'.world.clock ∧
    site'.world.files.fingerprint site'.world.cwd r.locations = .ok r.fingerprint
  bound : ∀ r ∈ rs, ∃ slot, c.find? r.slot = some slot ∧
    recordsAt site'.ledger.current r.slot = Ledger.bound slot r (recordsAt site.ledger.current r.slot)
  kept : ∀ s ∉ t.outputs, recordsAt site'.ledger.current s = recordsAt site.ledger.current s

theorem delivers_of_bindAll {fingerprint : String} {outputs : Keyed (List Path)} {world : World}
    {l : Ledger} {rs : List Record} (checked : outputRecords c world t fingerprint outputs = .ok rs)
    (hbound : bindAll c site.ledger rs = (.ok (), l)) : Delivers c t fingerprint site ⟨l, world⟩ rs := by
  have hslots := outputRecords_slots checked
  have hmade : ∀ r ∈ rs, r.producer = some t.id ∧ r.inputFingerprint = some fingerprint ∧
      r.createdAt = world.clock ∧ world.files.fingerprint world.cwd r.locations = .ok r.fingerprint := by
    intro r hr
    obtain ⟨_, _, _, -, -, hdigest, heq⟩ := outputRecord_ok ((outputRecords_mem checked).1 r hr).2
    rw [heq]
    exact ⟨rfl, rfl, rfl, hdigest⟩
  refine ⟨hslots, hmade, fun r hr => ?_, fun s hs => ?_⟩
  · obtain ⟨slot, hslot⟩ := declared_of_bindAll hbound r hr
    obtain ⟨r', hr', hsame, hrecords⟩ :=
      exists_bound_of_bindAll hbound (fun x hx => (hmade x hx).1) hslot ⟨r, hr, rfl⟩
    have hnodup : (rs.map (·.slot)).Nodup := hslots ▸ t.outputs_nodup
    obtain rfl : r' = r := List.inj_on_of_nodup_map hnodup hr' hr hsame
    exact ⟨slot, hslot, hrecords⟩
  · have hnone : ∀ r ∈ rs, r.slot ≠ s := by
      intro r hr hrs
      have hout : r.slot ∈ t.outputs := hslots ▸ List.mem_map_of_mem hr
      exact hs (hrs ▸ hout)
    have hkept := recordsAt_bindAll_of_notMem (c := c) (l := site.ledger) hnone
    rwa [hbound] at hkept

/-- A task that does not succeed binds nothing, unless it is saved by earlier records of which one
lies in a slot that the catalog lacks: then those before it are bound. A task that ran binds a new
record for each of its outputs. -/
theorem evaluate_atomic (c : Catalog) (config : SessionConfig) (t : Task) (site site' : Site) (o : Outcome)
    (h : evaluate c config t site = (o, site')) :
    (o.isSuccess = false →
      ((∀ rs, t.history? site.ledger = some rs → ∀ r ∈ rs, ∃ slot, c.find? r.slot = some slot) →
        site'.ledger = site.ledger) ∧
      (site'.ledger ≠ site.ledger → ∃ front x rest,
        verdict config t (t.fingerprintAt site) site = .ok (front ++ x :: rest) ∧
          (∀ r ∈ front, ∃ slot, c.find? r.slot = some slot) ∧ c.find? x.slot = none ∧
          o = .failed (.badSlot (.unknown x.slot)) ∧ bindAll c site.ledger front = (.ok (), site'.ledger))) ∧
      ∀ reason fingerprint, o = .executed reason fingerprint →
        ∃ rs, Delivers c t fingerprint site site' rs := by
  have hcases := evaluate_evaluated c config t site
  rw [h] at hcases
  generalize site' = after at hcases
  cases hcases with
  | reused saved hbound => simp [Outcome.isSuccess]
  | @unusable rs e l saved hbound =>
    obtain ⟨front, x, rest, rfl, hfront, hx, rfl, hcut⟩ := bindAll_error hbound
    refine ⟨fun _ => ⟨fun hknown => ?_, fun _ => ⟨front, x, rest, saved, hfront, hx, rfl, hcut⟩⟩, by simp⟩
    obtain ⟨-, hhist, -⟩ := verdict_ok saved
    obtain ⟨slot, hslot⟩ := hknown _ hhist x (by simp)
    simp [hx] at hslot
  | executed due live ran checked hbound =>
    refine ⟨by simp [Outcome.isSuccess], fun reason fingerprint heq => ?_⟩
    obtain ⟨-, rfl⟩ := Outcome.executed.inj heq
    exact ⟨_, delivers_of_bindAll checked hbound⟩
  | idle due fruitless nothing =>
    refine ⟨fun _ => ⟨fun _ => rfl, fun hne => absurd rfl hne⟩, ?_⟩
    rintro reason fingerprint rfl
    simp [Outcome.isSuccess] at fruitless

end effects

namespace Press

def catalog : Catalog := ⟨[Slot.multiple "left" .file .outputs, Slot.multiple "right" .file .outputs]⟩

def config : SessionConfig := ⟨1, false, false⟩

def task : Task :=
  ((Task.make "press" fun _ w =>
    (.reported [("left", []), ("right", [])], w)).withOutput "left").withOutput "right"

/-- Forgets its second output. -/
def forgetful : Task := { task with action := fun _ w => (.reported [("left", [])], w) }

def world : World := ⟨⟨[]⟩, [], [], 0, false, .bare⟩

def fresh : Site := ⟨.empty ⟨"state"⟩, world⟩

theorem fresh_verdict : verdict config task (task.fingerprintAt fresh) fresh = .error .noHistory := by
  have hnone : task.history? fresh.ledger = none := by decide +kernel
  simp [verdict, config, reusable, hnone]

theorem fresh_delivers : (∃ site, evaluate catalog config task fresh =
      (.executed .noHistory (task.fingerprintAt fresh), site) ∧
      ∃ rs, Delivers catalog task (task.fingerprintAt fresh) fresh site rs) ∧
    ∃ site, evaluate catalog config forgetful fresh =
      (.failed (.unreportedOutput "right"), site) ∧ site.ledger = fresh.ledger := by
  have hran : (evaluate catalog config task fresh).1 = .executed .noHistory (task.fingerprintAt fresh) :=
    evaluate_of_ran fresh_verdict rfl rfl rfl
  have hforgot : (evaluate catalog config forgetful fresh).1 =
      .failed (.unreportedOutput "right") := by decide +kernel
  have hnone : forgetful.history? fresh.ledger = none := by decide +kernel
  have hdelivered := (evaluate_atomic catalog config task fresh _ _ (Prod.ext hran rfl)).2 _ _ rfl
  have hunchanged := ((evaluate_atomic catalog config forgetful fresh _ _ (Prod.ext hforgot rfl)).1 rfl).1
    fun rs hrs => by simp [hnone] at hrs
  exact ⟨⟨_, Prod.ext hran rfl, hdelivered⟩, _, Prod.ext hforgot rfl, hunchanged⟩

def made (s : SlotId) : Record :=
  ⟨s, [], Digest.ofUnordered [], some (task.fingerprintAt fresh), some task.id, 0⟩

/-- In the session after that. -/
def again : Site := ⟨.after ⟨"state"⟩ (evaluate catalog config task fresh).2.ledger.current, world⟩

theorem again_previous : again.ledger.previous =
    ⟨1, [("left", [made "left"]), ("right", [made "right"])], by decide⟩ := by
  have hdue := fresh_verdict
  rw [Task.fingerprintAt] at hdue
  simp only [again, evaluate, hdue]
  rfl

/-- A catalog that knows the first output only. -/
def lacking : Catalog := ⟨[Slot.multiple "left" .file .outputs]⟩

theorem half_bound : Graph.build catalog [] [task] = .ok ⟨[task], [], [("left", [0]), ("right", [0])], []⟩ ∧
    (evaluate lacking config task again).1 = .failed (.badSlot (.unknown "right")) ∧
    (evaluate lacking config task again).2.ledger.current ≠ again.ledger.current := by
  have hhist : task.history? again.ledger = some [made "left", made "right"] := by
    simp [Task.history?, Ledger.previousRecords, again_previous, Generation.recordsIn, Keyed.get?, task,
      Task.make, Task.withOutput, Task.addOnce, made]
  have hintact : ∀ r ∈ [made "left", made "right"], r.isIntact again.world.files again.world.cwd = true := by
    simp [Record.isIntact, FileTree.fingerprint, FileTree.digestLocations, made]
  have hsame : ∀ r ∈ [made "left", made "right"], r.inputFingerprint = some (task.fingerprintAt again) := by
    have hprint : task.fingerprintAt fresh = task.fingerprintAt again := rfl
    simp [made, hprint]
  have hverdict : verdict config task (task.fingerprintAt again) again = .ok [made "left", made "right"] :=
    verdict_of_history rfl hhist hsame hintact
  have hbound : ∀ l, bindAll lacking l [made "left", made "right"] =
      (.error (.unknown "right"), l.withRecords "left" [made "left"]) := fun _ => rfl
  have heval : evaluate lacking config task again =
      (.failed (.badSlot (.unknown "right")), ⟨again.ledger.withRecords "left" [made "left"], again.world⟩) :=
    evaluate_of_unusable hverdict (hbound _)
  refine ⟨rfl, by rw [heval], ?_⟩
  rw [heval]
  intro h
  have hrecords := congrArg (recordsAt · "left") h
  simp [Ledger.recordsAt_withRecords, again] at hrecords

end Press

end SlotBuild
