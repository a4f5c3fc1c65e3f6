import SlotBuild.Project

/-! A first project to start from: a small text pipeline with one source file. -/

namespace SlotBuild

inductive ScaffoldError where
  | exists (manifest : Path)
  | access (e : AccessError)
  | unwritable (path : Path) (cause : OsError)
deriving DecidableEq, Repr

def ScaffoldError.message : ScaffoldError → String
  | .exists manifest => s!"kiln.toml already exists at {manifest.text}; refusing to overwrite it"
  | access e => e.message
  | unwritable path cause => s!"cannot access {path.text}: {cause.message}"

namespace Scaffold

def recipe (id input output path script : String) : Recipe where
  id := id
  inputs := [input]
  outputs := [⟨output, [path]⟩]
  command := ["sh", "-c", script]
  env := []
  config := []
  fingerprintInputs := none

def manifest : Manifest where
  build := .standard
  slots := [.single "text" .directory .sources, .single "shout" .file .intermediates,
    .shared "reports" .directory .outputs]
  sources := [⟨"text", ["src"]⟩]
  tasks := [
    recipe "shout" "text" "shout" "build/shout.txt"
      "cat src/*.txt | tr a-z A-Z > \"$KILN_OUTPUT_SHOUT\"",
    recipe "count" "shout" "reports" "build/reports/count" <|
      "mkdir -p build/reports/count && " ++
        "wc -c < \"$KILN_INPUT_SHOUT\" > build/reports/count/bytes.txt",
    recipe "list" "text" "reports" "build/reports/list"
      "mkdir -p build/reports/list && ls src > build/reports/list/files.txt"]

def texts (name : String) (dir : Path) : List (Path × String) :=
  [(dir.join ⟨Project.manifestFile⟩, manifest.toToml),
    ((dir.join ⟨"src"⟩).join ⟨"hello.txt"⟩, s!"hello from {name}\n"),
    (dir.join ⟨".gitignore"⟩, ".kiln/\nbuild/\n")]

def writeAll (faults : Faults) (cwd : Key) :
    List (Path × String) → FileTree → Except ScaffoldError Unit × FileTree
  | [], t => (.ok (), t)
  | (p, s) :: rest, t =>
    match t.writeWith faults cwd p (Bytes.ofString s) with
    | (.ok (), written) => writeAll faults cwd rest written
    | (.error e, left) => (.error (.unwritable p e), left)

def create (faults : Faults) (name : String) (dir : Path) (files : FileTree) (cwd : Key) :
    Except ScaffoldError Unit × FileTree :=
  let manifestPath := dir.join ⟨Project.manifestFile⟩
  if files.isThere cwd manifestPath then (.error (.exists manifestPath), files)
  else
    match files.ensureDir cwd (dir.join ⟨"src"⟩) with
    | (.error e, made) => (.error (.access e), made)
    | (.ok (), made) => writeAll faults cwd (texts name dir) made

end Scaffold

end SlotBuild
