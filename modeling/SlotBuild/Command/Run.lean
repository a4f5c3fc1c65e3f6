import SlotBuild.Task

/-! Running a program with its arguments and collecting what it writes. -/

namespace SlotBuild.Command

structure Output where
  stdout : String
  stderr : String
  exitCode : Option Nat
deriving DecidableEq, Repr

def Output.success (o : Output) : Bool := o.exitCode == some 0

def hasNul (s : String) : Bool := s.toList.contains '\x00'

/-- What came of a program that was started. -/
def collect (program : String) :
    Except OsError Exit × FileTree → Except AccessError Output × FileTree
  | (.error e, left) => (.error (.spawn program e), left)
  | (.ok x, left) =>
    (.ok ⟨Bytes.toStringLossy x.stdout, Bytes.toStringLossy x.stderr, x.code⟩, left)

/-- Runs `argv` in `dir` with `env` on top of the inherited environment. Of several values of a
variable the last one counts. An exit code other than zero is no error. -/
def run (w : World) (argv : List String) (dir : Path) (env : List (String × String)) :
    Except AccessError Output × FileTree :=
  match argv with
  | [] => (.error .emptyCommand, w.files)
  | program :: arguments =>
    if hasNul program || arguments.any hasNul || hasNul dir.text ||
        env.any (fun v => hasNul v.1 || hasNul v.2) then
      (.error (.spawn program .nulInCommand), w.files)
    else
      collect program (w.machine.run ⟨w.files, w.cwd, dir, program, arguments,
        Keyed.ofList (w.environment ++ env)⟩)

end SlotBuild.Command
