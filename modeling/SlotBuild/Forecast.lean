import SlotBuild.Session

/-! What a session would do. No action runs and nothing is written. -/

namespace SlotBuild

inductive Expectation where
  | upToDate
  | execute (reason : RunReason)
  | afterDependency
deriving DecidableEq, Repr

namespace Expectation

def willRun : Expectation → Bool
  | upToDate => false
  | _ => true

def text : Expectation → String
  | upToDate => "up to date"
  | execute reason => s!"run ({reason.text})"
  | afterDependency => "run (upstream changed)"

end Expectation

structure Forecast where
  task : TaskId
  expectation : Expectation
deriving DecidableEq, Repr

namespace Forecast

/-- A forecast in the making: the records that would be bound so far, and the tasks downstream of
one that would run. -/
structure Progress where
  bound : Generation
  unsettled : List Nat
  entries : List Forecast

def addRecord (g : Generation) (r : Record) : Generation :=
  g.put r.slot ((Keyed.get? r.slot g.records).getD [] ++ [r])

def expect (g : Graph) (w : World) (l : Ledger) (config : SessionConfig) (p : Progress) (i : Nat) :
    Progress :=
  match g.task? i with
  | none => p
  | some t =>
    let (expectation, bound) :=
      if p.unsettled.contains i then (Expectation.afterDependency, p.bound)
      else if config.forceRebuildAll then (.execute .forced, p.bound)
      else
        let fingerprint := Fingerprint.ofInputs t (t.boundRecords p.bound.recordsIn)
        match reusable w.files w.cwd l t fingerprint with
        | .ok rs => (.upToDate, rs.foldl addRecord p.bound)
        | .error reason => (.execute reason, p.bound)
    let unsettled := if expectation.willRun then g.downstream i ++ p.unsettled else p.unsettled
    ⟨bound, unsettled, p.entries ++ [⟨t.id, expectation⟩]⟩

def make (g : Graph) (supplies : List Supply) (w : World) (l : Ledger) (config : SessionConfig) :
    Except AccessError (List Forecast) := do
  let rs ← supplyRecords w supplies
  let start : Progress := ⟨rs.foldl addRecord .empty, [], []⟩
  return (g.order.foldl (expect g w l config) start).entries

end Forecast

end SlotBuild
