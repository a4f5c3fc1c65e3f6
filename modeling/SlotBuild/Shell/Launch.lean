import SlotBuild.Machine
import SlotBuild.Shell.Run

/-! A machine with a small shell and a few programs. -/

namespace SlotBuild.Shell

/-- How deep scripts may go. -/
def depthLimit : Nat := 100000

def stdoutBuffer : Nat := 1

def stderrBuffer : Nat := 2

/-- The place a program starts in: nothing to read and two buffers to write to. -/
def State.start (files : FileTree) (cwd : Key) (environment : Keyed String) : State where
  files := files
  buffers := [⟨[], false⟩, ⟨[], false⟩, ⟨[], false⟩]
  cwd := cwd
  name := ""
  process := 1000
  parameters := []
  bindings := environment.map fun v => (v.1, ⟨v.2, true⟩)
  channels := [(0, .buffer 0), (1, .buffer stdoutBuffer), (2, .buffer stderrBuffer)]
  status := 0
  strict := false
  guarded := false
  ending := none

def State.exitOf (s : State) : Exit :=
  ⟨(s.bufferAt stdoutBuffer).content, (s.bufferAt stderrBuffer).content, s.finalStatus?⟩

def directory (files : FileTree) (cwd : Key) (p : Path) : Except OsError Key := do
  match ← files.entryAt cwd true p with
  | (k, .dir) => return k
  | _ => throw .notDirectory

/-- Where a program is to run, and which one its name leads to. -/
def prepare (l : Launch) : Except OsError (Key × Utility.Program) := do
  let place ← directory l.files l.cwd l.dir
  let searchPath := (Keyed.get? "PATH" l.environment).getD "/bin:/usr/bin"
  return (place, ← Utility.find l.files place searchPath l.program)

def execute (l : Launch) : Except OsError Exit × FileTree :=
  match prepare l with
  | .error e => (.error e, l.files)
  | .ok (place, found) =>
    let s := State.start l.files place l.environment
    let t := match found with
      | .tool f => s.absorb (f (s.invocation l.program l.arguments))
      | .shell => Runner.newShell (Shell.run depthLimit) l.program l.arguments s
    (.ok t.exitOf, t.files)

end SlotBuild.Shell

namespace SlotBuild

/-- A machine with a small shell, on which nothing goes wrong. -/
def Machine.small : Machine := ⟨Shell.execute, .none⟩

end SlotBuild
