import SlotBuild.CommandLine
import SlotBuild.Shell.Launch

/-! The program. What the working directory holds comes from standard input, one entry a line: a
directory as its path with a slash at the end, a file as its path, a tab and its content in
hexadecimal digits. -/

namespace SlotBuild.CommandLine

def homeKey : Key := ["project"]

def emptyWorld : World where
  files := FileTree.empty.put homeKey .dir
  cwd := homeKey
  environment := [("PATH", "/usr/bin:/bin")]
  clock := 0
  cancelled := false
  machine := .small

/-- Adds the entry of a line; a line that describes none changes nothing. -/
def addEntry (t : FileTree) (line : String) : FileTree :=
  match piecesOf '\t' line with
  | [path] => (t.ensureDir homeKey ⟨path⟩).2
  | [path, digits] =>
    let made := (t.ensureParent homeKey ⟨path⟩).2
    match Bytes.ofHexDigits? digits.toList with
    | none => t
    | some content =>
      match made.write homeKey ⟨path⟩ content with
      | .ok written => written
      | .error _ => t
  | _ => t

def worldOf (lines : List String) (bindings : List (String × String)) : World :=
  { emptyWorld with
    files := lines.foldl addEntry emptyWorld.files
    environment := emptyWorld.environment ++ bindings }

def Message.text : Message → String
  | line s => s
  | logged s => s

partial def readLines (input : IO.FS.Stream) (lines : List String) : IO (List String) := do
  let line ← input.getLine
  if line.isEmpty then return lines.reverse
  let text := if line.endsWith "\n" then (line.dropEnd 1).toString else line
  readLines input (text :: lines)

/-- Only what is carried out in a working directory needs to know it. -/
def needsWorld (args : List String) : Bool :=
  match Request.ofArguments? args with
  | some (.perform ..) => true
  | _ => false

def serve (args : List String) : IO UInt32 := do
  let lines ← if needsWorld args then readLines (← IO.getStdin) [] else pure []
  let filter ← IO.getEnv logVariable
  let bindings := (filter.map fun f => (logVariable, f)).toList
  let (r, _) := run 1 (fun _ => "0.00") args (worldOf lines bindings)
  for l in r.output do IO.println l
  for m in r.messages do IO.eprintln m.text
  return UInt32.ofNat r.code

end SlotBuild.CommandLine

def main (args : List String) : IO UInt32 := SlotBuild.CommandLine.serve args
