import SlotBuild.FileTree.Access
import SlotBuild.Task

/-! What can become of a task in a session, and the wording of it. -/

namespace SlotBuild

inductive RunReason where
  | forced
  | noHistory
  | inputsChanged
  | outputsChanged
deriving DecidableEq, Repr

def RunReason.text : RunReason → String
  | forced => "forced"
  | noHistory => "no previous run"
  | inputsChanged => "inputs changed"
  | outputsChanged => "outputs changed"

inductive SkipReason where
  | upToDate
  | blocked (failed : TaskId)
  | cancelled
deriving DecidableEq, Repr

def SkipReason.text : SkipReason → String
  | upToDate => "up to date"
  | blocked failed => s!"blocked by `{failed}`"
  | cancelled => "cancelled"

inductive TaskFault where
  | action (message : String)
  | panicked
  | undeclaredOutput (s : SlotId)
  | unreportedOutput (s : SlotId)
  | severalLocations (s : SlotId) (count : Nat)
  | badOutput (s : SlotId) (e : AccessError)
  | badSlot (e : SlotError)
deriving DecidableEq, Repr

def TaskFault.message : TaskFault → String
  | action message => message
  | panicked => "task action panicked"
  | undeclaredOutput s => s!"reported undeclared output slot `{s}`"
  | unreportedOutput s => s!"did not report output slot `{s}`"
  | severalLocations s count => s!"slot `{s}` holds one artifact but {count} locations were reported"
  | badOutput s e => s!"output `{s}`: {e.message}"
  | badSlot e => e.message

inductive Outcome where
  | executed (reason : RunReason) (fingerprint : String)
  | skipped (reason : SkipReason)
  | failed (fault : TaskFault)
deriving DecidableEq, Repr

namespace Outcome

def isSuccess : Outcome → Bool
  | executed .. => true
  | skipped .upToDate => true
  | _ => false

def isFailure : Outcome → Bool
  | failed _ => true
  | _ => false

/-- What the tasks that depend on `task` inherit. -/
def passedOn (task : TaskId) : Outcome → Option SkipReason
  | executed .. => none
  | skipped .upToDate => none
  | skipped reason => some reason
  | failed _ => some (.blocked task)

/-- Whether the task was left alone, so that its history still holds. -/
def isUnattempted : Outcome → Bool
  | skipped .cancelled => true
  | skipped (.blocked _) => true
  | _ => false

end Outcome

structure Report where
  task : TaskId
  outcome : Outcome
deriving DecidableEq, Repr

end SlotBuild
