import SlotBuild.FileTree.Digest
import SlotBuild.Ledger
import SlotBuild.Outcome

/-! Deciding whether a task has to run, and running it. Outputs are bound to their slots only if all
of them are in order. -/

namespace SlotBuild

structure SessionConfig where
  maxParallelism : Nat
  failFast : Bool
  forceRebuildAll : Bool
deriving DecidableEq, Repr

/-- What running tasks share. -/
structure Site where
  ledger : Ledger
  world : World

namespace Task

def boundRecords (t : Task) (recordsIn : SlotId → List Record) : List Record :=
  t.inputs.flatMap recordsIn

def inputPaths (t : Task) (recordsIn : SlotId → List Record) : Keyed (List Path) :=
  Keyed.ofList (t.inputs.map fun s => (s, (recordsIn s).flatMap (·.locations)))

/-- The records of the last run for each output; `none` if an output has none. -/
def history? (t : Task) (l : Ledger) : Option (List Record) :=
  if t.outputs = [] then none
  else (t.outputs.mapM fun s =>
    let rs := l.previousRecords s (some t.id)
    if rs = [] then none else some rs).map List.flatten

end Task

def Record.isIntact (files : FileTree) (cwd : Key) (r : Record) : Bool :=
  match files.fingerprint cwd r.locations with
  | .ok digest => digest == r.fingerprint
  | .error _ => false

/-- The records that can stand for a run with this fingerprint, or why there are none. -/
def reusable (files : FileTree) (cwd : Key) (l : Ledger) (t : Task) (fingerprint : String) :
    Except RunReason (List Record) :=
  match t.history? l with
  | none => .error .noHistory
  | some rs =>
    if rs.any fun r => r.inputFingerprint ≠ some fingerprint then .error .inputsChanged
    else if rs.all (Record.isIntact files cwd) then .ok rs
    else .error .outputsChanged

def bind (c : Catalog) (l : Ledger) (r : Record) : Except SlotError Ledger := do
  l.record (← c.lookup r.slot) r

/-- Binds one record after the other; those before a failure stay bound. -/
def bindAll (c : Catalog) (l : Ledger) : List Record → Except SlotError Unit × Ledger
  | [] => (.ok (), l)
  | r :: rs =>
    match bind c l r with
    | .error e => (.error e, l)
    | .ok l' => bindAll c l' rs

/-- The record of one reported output. -/
def outputRecord (c : Catalog) (w : World) (t : Task) (fingerprint : String)
    (outputs : Keyed (List Path)) (s : SlotId) : Except TaskFault Record :=
  match Keyed.get? s outputs with
  | none => .error (.unreportedOutput s)
  | some locations =>
    match c.lookup s with
    | .error e => .error (.badSlot e)
    | .ok slot =>
      if slot.cardinality = .single ∧ locations.length ≠ 1 then
        .error (.severalLocations s locations.length)
      else
        match w.files.fingerprint w.cwd locations with
        | .error e => .error (.badOutput s e)
        | .ok digest => .ok ⟨s, locations, digest, some fingerprint, some t.id, w.clock⟩

def outputRecords (c : Catalog) (w : World) (t : Task) (fingerprint : String)
    (outputs : Keyed (List Path)) : Except TaskFault (List Record) :=
  match outputs.keys.find? fun s => !t.outputs.contains s with
  | some s => .error (.undeclaredOutput s)
  | none => t.outputs.mapM (outputRecord c w t fingerprint outputs)

def publish (c : Catalog) (t : Task) (fingerprint : String) (outputs : Keyed (List Path))
    (site : Site) : Except TaskFault Unit × Site :=
  match outputRecords c site.world t fingerprint outputs with
  | .error fault => (.error fault, site)
  | .ok rs =>
    match bindAll c site.ledger rs with
    | (.error e, l) => (.error (.badSlot e), { site with ledger := l })
    | (.ok (), l) => (.ok (), { site with ledger := l })

/-- Runs the action of a task. A failure of an action that was cancelled counts as cancelled, a
panic never does. -/
def execute (c : Catalog) (t : Task) (reason : RunReason) (fingerprint : String)
    (inputs : Keyed (List Path)) (site : Site) : Outcome × Site :=
  let (result, world) := t.action ⟨t.id, inputs, t.outputs⟩ site.world
  let after : Site := { site with world := world }
  let failure (fault : TaskFault) (s : Site) : Outcome × Site :=
    (if s.world.cancelled then .skipped .cancelled else .failed fault, s)
  match result with
  | .panicked => (.failed .panicked, after)
  | .failed message => failure (.action message) after
  | .reported outputs =>
    match publish c t fingerprint outputs after with
    | (.ok (), s) => (.executed reason fingerprint, s)
    | (.error fault, s) => failure fault s

/-- Why a task has to run, or the records that save it. -/
def verdict (config : SessionConfig) (t : Task) (fingerprint : String) (site : Site) :
    Except RunReason (List Record) :=
  if config.forceRebuildAll then .error .forced
  else reusable site.world.files site.world.cwd site.ledger t fingerprint

def evaluate (c : Catalog) (config : SessionConfig) (t : Task) (site : Site) : Outcome × Site :=
  let fingerprint := Fingerprint.ofInputs t (t.boundRecords site.ledger.currentRecords)
  match verdict config t fingerprint site with
  | .ok rs =>
    match bindAll c site.ledger rs with
    | (.ok (), l) => (.skipped .upToDate, { site with ledger := l })
    | (.error e, l) => (.failed (.badSlot e), { site with ledger := l })
  | .error reason =>
    if site.world.cancelled then (.skipped .cancelled, site)
    else execute c t reason fingerprint (t.inputPaths site.ledger.currentRecords) site

end SlotBuild
