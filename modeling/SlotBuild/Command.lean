import SlotBuild.Command.Run
import SlotBuild.FileTree.Replace
import SlotBuild.Task
import SlotBuild.Text.Split

/-! Actions that run a program. Where the inputs are and where the outputs go is passed in the
environment. -/

namespace SlotBuild

structure Command where
  cwd : Path
  argv : List String
  env : List (String × String)
  outputs : List (SlotId × List Path)
deriving DecidableEq, Repr

namespace Command

def make (cwd : Path) (argv : List String) (env : List (String × String))
    (outputs : List (SlotId × List Path)) : Command :=
  ⟨cwd, argv, env, outputs.map fun o => (o.1, o.2.map cwd.join)⟩

/-- A slot in the name of a variable: letters and digits of ASCII in upper case, all else as `_`. -/
def variableFor (start : String) (s : SlotId) : String :=
  start ++ String.ofList (s.toList.map fun c => if c.isAlphanum then c.toUpper else '_')

/-- Paths in one value; none of them can have the separator in it. -/
def joined (ps : List Path) : Except String String :=
  if ps.any fun p => p.text.toList.contains ':' then
    .error "cannot pass paths to command: path segment contains separator `:`"
  else .ok (":".intercalate (ps.map (·.text)))

def pathVariables (start : String) (slots : List (SlotId × List Path)) :
    Except String (List (String × String)) :=
  slots.mapM fun s => (joined s.2).map fun v => (variableFor start s.1, v)

def ensureParents (cwd : Key) : List Path → FileTree → Except AccessError Unit × FileTree
  | [], t => (.ok (), t)
  | p :: ps, t =>
    match t.ensureParent cwd p with
    | (.ok (), made) => ensureParents cwd ps made
    | (.error e, made) => (.error e, made)

def placeOutputs (cwd : Key) : List (SlotId × List Path) → FileTree →
    Except String (List (String × String)) × FileTree
  | [], t => (.ok [], t)
  | (s, ps) :: rest, t =>
    match joined ps with
    | .error message => (.error message, t)
    | .ok value =>
      match ensureParents cwd ps t with
      | (.error e, made) => (.error e.message, made)
      | (.ok (), made) =>
        match placeOutputs cwd rest made with
        | (.ok vs, done) => (.ok ((variableFor "KILN_OUTPUT_" s, value) :: vs), done)
        | (.error message, done) => (.error message, done)

def program (c : Command) : String := c.argv.head?.getD ""

def failureText (c : Command) (o : Output) : String :=
  let code := match o.exitCode with
    | some n => s!"code {Decimal.text n}"
    | none => "a signal"
  let stderr := trimBlanks o.stderr
  s!"`{c.program}` exited with {code}" ++ if stderr = "" then "" else s!": {stderr}"

def setUp (c : Command) (call : Call) (cwd : Key) (files : FileTree) :
    Except String (List (String × String)) × FileTree :=
  match pathVariables "KILN_INPUT_" call.inputs with
  | .error message => (.error message, files)
  | .ok inputs =>
    match placeOutputs cwd c.outputs files with
    | (.error message, made) => (.error message, made)
    | (.ok outputs, made) => (.ok (c.env ++ ("KILN_TASK", call.task) :: inputs ++ outputs), made)

/-- What an action reports of its program. -/
def conclude (c : Command) (w : World) :
    Except AccessError Output × FileTree → ActionResult × World
  | (.error e, left) => (.failed e.message, { w with files := left })
  | (.ok o, left) =>
    (if o.success then .reported (Keyed.ofList c.outputs) else .failed (c.failureText o),
      { w with files := left })

def action (c : Command) : Action := fun call w =>
  match c.setUp call w.cwd w.files with
  | (.error message, files) => (.failed message, { w with files := files })
  | (.ok env, files) =>
    let ready := { w with files := files }
    if w.cancelled then (.failed "cancelled before start", ready)
    else c.conclude ready (Command.run ready c.argv c.cwd env)

end Command

end SlotBuild
