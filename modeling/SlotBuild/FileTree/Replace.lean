import SlotBuild.FileTree.Access

/-! Operations that name the path they failed on: directories that may exist already, removal of
what may be absent, and replacing a file through a temporary sibling that is renamed over it. -/

namespace SlotBuild.FileTree

def ensureDir (t : FileTree) (cwd : Key) (p : Path) : Except AccessError Unit × FileTree :=
  match t.makeDirs cwd p with
  | (.ok (), made) => (.ok (), made)
  | (.error e, made) => (.error (.io p e), made)

def removeTreeIfPresent (t : FileTree) (cwd : Key) (p : Path) : Except AccessError Unit × FileTree :=
  match t.removeTree cwd p with
  | (.error .notFound, left) => (.ok (), left)
  | (.error e, left) => (.error (.io p e), left)
  | (.ok (), left) => (.ok (), left)

def temporaryFor (p : Path) : Path := p.withFileName (p.fileName?.getD "" ++ ".tmp")

def ensureParent (t : FileTree) (cwd : Key) (p : Path) : Except AccessError Unit × FileTree :=
  match p.parent? with
  | some up => t.ensureDir cwd up
  | none => (.ok (), t)

def commitTemporary (faults : Faults) (t : FileTree) (cwd : Key) (temporary p : Path) :
    Except AccessError Unit × FileTree :=
  match t.renameWith faults cwd temporary p with
  | .ok done => (.ok (), done)
  | .error e =>
    (.error (.io p e), match t.removeFile cwd temporary with
      | .ok cleaned => cleaned
      | .error _ => t)

/-- Parents are made, the content goes to the temporary sibling, and a rename puts it in place.
A rename that fails takes the temporary file with it, a write that is cut short does not. -/
def replaceFile (faults : Faults) (t : FileTree) (cwd : Key) (p : Path) (content : Bytes) :
    Except AccessError Unit × FileTree :=
  match t.ensureParent cwd p with
  | (.error e, made) => (.error e, made)
  | (.ok (), made) =>
    match made.writeWith faults cwd (temporaryFor p) content with
    | (.error e, left) => (.error (.io (temporaryFor p) e), left)
    | (.ok (), written) => written.commitTemporary faults cwd (temporaryFor p) p

end SlotBuild.FileTree
