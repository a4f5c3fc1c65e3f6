import SlotBuild.FileTree.Access
import SlotBuild.Keyed

/-! What a machine does that no file tells: how programs run, and what goes wrong with files. -/

namespace SlotBuild

/-- What a program is started with. -/
structure Launch where
  files : FileTree
  cwd : Key
  dir : Path
  program : String
  arguments : List String
  environment : Keyed String
deriving DecidableEq, Repr

/-- What a program has written and how it ended; there is no code after a signal. -/
structure Exit where
  stdout : Bytes
  stderr : Bytes
  code : Option Nat
deriving DecidableEq, Repr

structure Machine where
  /-- What comes of a program, or why it cannot be started, and what it leaves. -/
  run : Launch → Except OsError Exit × FileTree
  faults : Faults

/-- A machine without programs, on which nothing goes wrong. -/
def Machine.bare : Machine := ⟨fun l => (.error .notFound, l.files), .none⟩

end SlotBuild
