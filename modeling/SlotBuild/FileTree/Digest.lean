import SlotBuild.Digest
import SlotBuild.FileTree.Access

/-! Digests of what lies at a path: a file by its content, a directory by the names and contents
of the files below it, and a location by either, told apart. -/

namespace SlotBuild.FileTree

def walkFrom (t : FileTree) (cwd : Key) (here : Path) : List String → Option Path
  | [] => some here
  | s :: rest =>
    let next := if here.text = "." then ⟨s⟩ else here.join ⟨s⟩
    let entered := if s = "." ∨ s = ".." then t.isDir cwd here else t.isThere cwd next
    if entered then walkFrom t cwd next rest else none

def walkStart? (t : FileTree) (cwd : Key) (dir : Path) : Option Path :=
  match dir.pieces with
  | "" :: [] => none
  | "" :: rest => t.walkFrom cwd ⟨"/"⟩ rest
  | ps => t.walkFrom cwd ⟨"."⟩ ps

def childPath (dir : Path) (name : String) : Path :=
  if dir.text = "." then ⟨name⟩ else dir.join ⟨name⟩

/-- Every path below `dir`, links to directories included, to the given depth. -/
def pathsBelow (t : FileTree) (cwd : Key) : Nat → Path → List Path
  | 0, _ => []
  | depth + 1, dir =>
    match t.entryAt cwd true dir with
    | .ok (k, .dir) =>
      (t.names k).flatMap fun name =>
        childPath dir name :: t.pathsBelow cwd depth (childPath dir name)
    | _ => []

/-- No path goes deeper without following more links than are allowed. -/
def walkDepth (t : FileTree) : Nat := (linkLimit + 1) * (t.entries.length + 1)

/-- The files below `dir`, in path order. -/
def filesBelow (t : FileTree) (cwd : Key) (dir : Path) : List Path :=
  match t.walkStart? cwd dir with
  | none => []
  | some start =>
    ((t.pathsBelow cwd t.walkDepth start).filter (t.isFile cwd)).mergeSort
      fun p q => p.compare q != .gt

def nameBelow (dir p : Path) : String := ((p.relativeTo? dir).getD p).text

/-- What a directory is hashed as: for each file its name, preceded by the length of the name,
and then its content. -/
def encodeFiles (files : List (String × Bytes)) : Bytes :=
  files.flatMap fun f => Digest.framed (Bytes.ofString f.1) ++ f.2

def readAll (t : FileTree) (cwd : Key) (dir : Path) : List Path → Except AccessError (List (String × Bytes))
  | [] => .ok []
  | p :: rest =>
    match t.read cwd p with
    | .error e => .error (.io p e)
    | .ok content => do return (nameBelow dir p, content) :: (← readAll t cwd dir rest)

def digestFile (t : FileTree) (cwd : Key) (p : Path) : Except AccessError String :=
  match t.read cwd p with
  | .ok content => .ok (Digest.ofBytes content)
  | .error e => .error (.io p e)

def digestTree (t : FileTree) (cwd : Key) (dir : Path) : Except AccessError String := do
  return Digest.ofBytes (encodeFiles (← t.readAll cwd dir (t.filesBelow cwd dir)))

def digestLocation (t : FileTree) (cwd : Key) (p : Path) : Except AccessError String :=
  match t.stat? cwd p with
  | some .dir => do return Digest.ofParts ["dir", ← t.digestTree cwd p]
  | some (.file _) => do return Digest.ofParts ["file", ← t.digestFile cwd p]
  | _ => .error (.missing p)

def digestLocations (t : FileTree) (cwd : Key) : List Path → Except AccessError (List String)
  | [] => .ok []
  | p :: rest => do
    let digest ← t.digestLocation cwd p
    return Digest.ofParts [p.text, digest] :: (← digestLocations t cwd rest)

/-- One digest for several locations in any order; each counts with its path and its content. -/
def fingerprint (t : FileTree) (cwd : Key) (locations : List Path) : Except AccessError String := do
  return Digest.ofUnordered (← t.digestLocations cwd locations)

end SlotBuild.FileTree
