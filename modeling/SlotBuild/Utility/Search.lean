import SlotBuild.Text.Split
import SlotBuild.Utility.Condition
import SlotBuild.Utility.Files
import SlotBuild.Utility.Format
import SlotBuild.Utility.Octets

/-! Which program a name leads to. Programs live in two directories and nowhere else; a file of the
tree never is one. -/

namespace SlotBuild.Utility

inductive Program where
  | shell
  | tool (run : Invocation → Progress)

def named? (name : String) : Option Program :=
  match name with
  | "sh" => some .shell
  | "cat" => some (.tool cat)
  | "echo" => some (.tool (echo .program))
  | "false" => some (.tool fun v => { v.start with status := 1 })
  | "ls" => some (.tool ls)
  | "mkdir" => some (.tool mkdir)
  | "printf" => some (.tool (printf .program))
  | "pwd" => some (.tool pwd)
  | "rm" => some (.tool rm)
  | "test" => some (.tool test)
  | "[" => some (.tool bracket)
  | "touch" => some (.tool touch)
  | "tr" => some (.tool tr)
  | "true" => some (.tool Invocation.start)
  | "wc" => some (.tool wc)
  | _ => none

def programDirs : List String := ["/bin", "/usr/bin"]

def programAt? (path : String) : Option Program :=
  programDirs.findSome? fun d =>
    if path.startsWith (d ++ "/") then named? (path.drop (d.length + 1)).toString else none

def atPath (files : FileTree) (cwd : Key) (path : String) : Except OsError Program :=
  match programAt? path with
  | some p => .ok p
  | none =>
    match files.entryAt cwd true ⟨path⟩ with
    | .ok _ => .error .permissionDenied
    | .error e => .error e

/-- Looks into the directories of a search path one after the other. What is found but cannot be run
counts only if nothing else is found. -/
def inDirs (files : FileTree) (cwd : Key) (name : String) : List String → Except OsError Program
  | [] => .error .notFound
  | d :: rest =>
    match atPath files cwd (if d = "" then name else d ++ "/" ++ name) with
    | .ok p => .ok p
    | .error .permissionDenied =>
      match inDirs files cwd name rest with
      | .ok p => .ok p
      | .error _ => .error .permissionDenied
    | .error _ => inDirs files cwd name rest

def nameSizeLimit : Nat := 255

def find (files : FileTree) (cwd : Key) (searchPath name : String) : Except OsError Program :=
  if name = "" then .error .notFound
  else if name.toList.contains '/' then atPath files cwd name
  else if nameSizeLimit < name.utf8ByteSize then .error .nameTooLong
  else inDirs files cwd name (piecesOf ':' searchPath)

end SlotBuild.Utility
