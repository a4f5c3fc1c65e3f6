import SlotBuild.Shell.Builtin
import SlotBuild.Shell.Expansion
import SlotBuild.Shell.Grammar
import SlotBuild.Utility.Search

/-! Carrying out scripts. One step of a script is a function of what carries out its parts, so that
only the depth is bounded. -/

namespace SlotBuild.Shell

abbrev Runner := Script → State → State

namespace Runner

def apart (f : State → State) (s : State) : State := s.after (f s)

def asCondition (f : State → State) (s : State) : State :=
  { f { s with guarded := true } with guarded := s.guarded }

def capture (go : Runner) : Capture := fun script s =>
  let (i, t) := s.withBuffer ⟨[], false⟩
  let after := t.after (go (Script.ofText script) (t.connect 1 (.buffer i)))
  let text := Bytes.toStringLossy (after.bufferAt i).content
  (String.ofList (text.toList.reverse.dropWhile (· = '\n')).reverse, after)

def reasonText (missing : String) (e : OsError) : String :=
  match e with
  | .notFound | .notDirectory => missing
  | e => e.reason

def openForWriting (keep : Bool) (path : String) (s : State) : Except OsError (Channel × State) :=
  if path = "/dev/null" then .ok (.discard, s)
  else do
    let old ← if keep then
        match s.files.read s.cwd ⟨path⟩ with
        | .ok b => .ok b
        | .error .notFound => .ok []
        | .error e => .error e
      else .ok []
    let files ← s.files.write s.cwd ⟨path⟩ old
    let spot ← files.locate s.cwd true ⟨path⟩
    return (.file spot.key, { s with files := files })

def openForReading (path : String) (s : State) : Except OsError (Channel × State) :=
  if path = "/dev/null" then .ok (.discard, s)
  else
    match s.files.read s.cwd ⟨path⟩ with
    | .ok b =>
      let (i, s) := s.withBuffer ⟨b, true⟩
      .ok (.buffer i, s)
    | .error .isDirectory => .ok (.discard, s)
    | .error e => .error e

def duplicate (descriptor : Nat) (target : String) (s : State) : Except String State :=
  if target = "-" then .ok (s.close descriptor)
  else
    match natural? target with
    | none => .error "Syntax error: Bad fd number"
    | some n =>
      match s.channel? n with
      | some c => .ok (s.connect descriptor c)
      | none => .error s!"{target}: Bad file descriptor"

/-- One redirection; after an error the state has the complaint. -/
def redirectOne (go : Runner) (line : Nat) (s : State) (r : Redirection) : Except State State :=
  let (target, s) := expandText (capture go) s r.target
  let opened (verb missing : String) (x : Except OsError (Channel × State)) : Except State State :=
    match x with
    | .ok (c, s) => .ok (s.connect r.descriptor c)
    | .error e => .error (s.complain line s!"cannot {verb} {target}: {reasonText missing e}")
  match r.direction with
  | .read => opened "open" "No such file" (openForReading target s)
  | .replace => opened "create" "Directory nonexistent" (openForWriting false target s)
  | .append => opened "create" "Directory nonexistent" (openForWriting true target s)
  | .duplicate =>
    match duplicate r.descriptor target s with
    | .ok s => .ok s
    | .error message => .error (s.complain line message)

def redirect (go : Runner) (line : Nat) (rs : List Redirection) (s : State) : Except State State :=
  rs.foldlM (redirectOne go line) s

def restored (s after : State) : State := { after with channels := s.channels }

def redirected (go : Runner) (rs : List Redirection) (f : State → State) (s : State) : State :=
  match redirect go 1 rs s with
  | .ok t => restored s (f t)
  | .error t => restored s (t.withStatus 2)

/-- A failure ends a strict script unless it is a condition. -/
def settle (s : State) : State :=
  if s.strict && !s.guarded && s.status != 0 && s.ending.isNone then s.exit s.status else s

def assignAll (go : Runner) (exported : Bool) (as : List (String × Word)) (s : State) : State :=
  as.foldl (fun s a =>
    let (value, s) := expandText (capture go) s a.2
    if exported then s.assignExported a.1 value else s.assign a.1 value) s

def isOutput : Piece → Bool
  | .output .. => true
  | _ => false

/-- A command without a name: its assignments stay. -/
def nameless (go : Runner) (line : Nat) (as : List (String × Word)) (words : List Word)
    (rs : List Redirection) (s : State) : State :=
  match redirect go line rs s with
  | .error t => restored s (t.withStatus 2)
  | .ok t =>
    let captures := (as.map (·.2) ++ words).any fun w => w.any isOutput
    let t := assignAll go false as t
    restored s (if captures then t else t.withStatus 0)

def optionFlags (cs : List Char) : List Char := cs.filter fun c => c != 'c'

/-- What a shell is told to run: its name, its parameters and the script. -/
structure Startup where
  name : String
  parameters : List String
  strict : Bool
  script : List Char

def startupOf (s : State) (name : String) (strict : Bool) : List String → Except (Nat × String) Startup
  | [] => .ok ⟨name, [], strict, (Bytes.toStringLossy s.input.content).toList⟩
  | a :: rest =>
    match a.toList with
    | '-' :: c :: cs =>
      let flags := c :: cs
      match (optionFlags flags).find? fun x => !Builtin.knownFlags.contains x with
      | some bad => .error (2, s!"Illegal option -{String.singleton bad}")
      | none =>
        let strict := strict || flags.contains 'e'
        if !flags.contains 'c' then startupOf s name strict rest
        else
          match rest with
          | [] => .error (2, "-c requires an argument")
          | script :: [] => .ok ⟨name, [], strict, script.toList⟩
          | script :: zeroth :: parameters => .ok ⟨zeroth, parameters, strict, script.toList⟩
    | _ =>
      match s.files.read s.cwd ⟨a⟩ with
      | .ok b => .ok ⟨a, rest, strict, (Bytes.toStringLossy b).toList⟩
      | .error e => .error (2, s!"cannot open {a}: " ++ reasonText "No such file" e)

/-- A shell of its own with the environment of `s`. -/
def newShell (go : Runner) (name : String) (args : List String) (s : State) : State :=
  let exported := s.bindings.filter fun v => v.2.exported
  let base := { s with
    name := name
    process := s.process + 1
    parameters := []
    bindings := Keyed.put "PWD" ⟨Utility.pathText s.cwd, (s.value? "PWD").isSome⟩ exported
    status := 0
    strict := false
    guarded := false
    ending := none }
  match startupOf s name false args with
  | .error (status, message) => (base.complain 0 message).exit status
  | .ok t =>
    go (Script.ofText t.script)
      { base with name := t.name, parameters := t.parameters, strict := t.strict }

def signalText (n : Nat) : String :=
  match n with
  | 1 => "Hangup\n"
  | 3 => "Quit\n"
  | 6 => "Aborted\n"
  | 9 => "Killed\n"
  | 10 => "User defined signal 1\n"
  | 11 => "Segmentation fault\n"
  | 12 => "User defined signal 2\n"
  | 14 => "Alarm clock\n"
  | 15 => "Terminated\n"
  | _ => ""

/-- What a program that was called leaves behind. A signal that ended it is told. -/
def afterCall (s child : State) : State :=
  let t := { s with files := child.files, buffers := child.buffers }
  match child.ending with
  | some (.signal n) => (t.write 2 (Bytes.ofString (signalText n))).withStatus (128 + n)
  | _ => t.withStatus (child.finalStatus?.getD 0)

def call (go : Runner) (line : Nat) (name : String) (args : List String) (s : State) : State :=
  match Utility.find s.files s.cwd ((s.value? "PATH").getD "") name with
  | .ok (.tool run) => s.absorb (run (s.invocation name args))
  | .ok .shell => afterCall s (newShell go name args s)
  | .error e =>
    let reason := if name = "" then OsError.permissionDenied.reason else reasonText "not found" e
    (s.complain line s!"{name}: {reason}").withStatus
      (match e with
        | .permissionDenied | .isDirectory => 126
        | _ => 127)

/-- A command with a name. Its assignments last as long as the command, those of a special one
stay. -/
def named (go : Runner) (line : Nat) (as : List (String × Word)) (name : String)
    (args : List String) (rs : List Redirection) (s : State) : State :=
  let brief (t : State) (f : State → State) : State :=
    restored s { f (assignAll go true as t) with bindings := t.bindings }
  match redirect go line rs s, special? name with
  | .error t, some _ => restored s (t.exit 2)
  | .error t, none =>
    restored s (if name = "eval" ∨ name = "exec" then t.exit 2 else t.withStatus 2)
  | .ok t, some run => restored s (run line args (assignAll go false as t))
  | .ok t, none =>
    if name = "eval" then
      restored s (go (Script.ofText (" ".intercalate args).toList) (assignAll go false as t))
    else if name = "exec" then
      match args with
      | [] => (assignAll go false as t).withStatus 0
      | program :: rest =>
        let done := call go line program rest (assignAll go true as t)
        done.exit done.status
    else
      match ordinary? name with
      | some run =>
        let done := run line args (assignAll go false as t)
        restored s { done with bindings := if as = [] then done.bindings else t.bindings }
      | none => brief t (call go line name args)

def simple (go : Runner) (line : Nat) (as : List (String × Word)) (words : List Word)
    (rs : List Redirection) (s : State) : State :=
  match expandWords (capture go) s words with
  | ([], t) => settle (nameless go line as words rs t)
  | (name :: args, t) =>
    settle (named go line as name args rs t)

def pipe (go : Runner) (left right : Script) (s : State) : State :=
  let (i, s) := s.withBuffer ⟨[], false⟩
  let s := apart (fun t => go left (t.connect 1 (.buffer i))) s
  if s.ending.isSome then s
  else apart (fun t => go right (t.connect 0 (.buffer i))) s

def eachWord (go : Runner) (name : String) (body : Script) : List String → State → State
  | [], s => s
  | w :: ws, s =>
    let s := go body (s.assign name w)
    if s.ending.isSome then s else eachWord go name body ws s

/-- How often a loop may go round. -/
def roundLimit : Nat := 1000000

def loop (go : Runner) (onFailure : Bool) (condition body : Script) : Nat → State → State
  | 0, s => { s with ending := some (.signal 9) }
  | rounds + 1, s =>
    let t := asCondition (go condition) s
    if t.ending.isSome then t
    else if (t.status == 0) != onFailure then loop go onFailure condition body rounds (go body t)
    else t.withStatus s.status

def branch (go : Runner) (condition yes no : Script) (s : State) : State :=
  let t := asCondition (go condition) s
  if t.ending.isSome then t
  else if t.status = 0 then go yes t
  else match no with
    | .skip => t.withStatus 0
    | no => go no t

def step (go : Runner) : Runner := fun script s =>
  if s.ending.isSome then s
  else match script with
    | .skip => s
    | .simple line as words rs => simple go line as words rs s
    | .pipe left right => settle (pipe go left right s)
    | .both left right =>
      let t := asCondition (go left) s
      if t.status = 0 then go right t else t
    | .either left right =>
      let t := asCondition (go left) s
      if t.status = 0 then t else go right t
    | .sequence left right => go right (go left s)
    | .negate body =>
      let t := asCondition (go body) s
      t.withStatus (if t.status = 0 then 1 else 0)
    | .group body rs => redirected go rs (go body) s
    | .subshell body rs => settle (redirected go rs (apart (go body)) s)
    | .branch condition yes no rs => redirected go rs (branch go condition yes no) s
    | .loop onFailure condition body rs =>
      redirected go rs (fun s => loop go onFailure condition body roundLimit (s.withStatus 0)) s
    | .each name words body rs =>
      redirected go rs (fun s =>
        let (ws, s) := expandWords (capture go) s words
        eachWord go name body ws (s.withStatus 0)) s
    | .broken line message => (s.complain line message).exit 2

end Runner

/-- Runs a script; one that goes deeper than `fuel` is killed. -/
def run : Nat → Runner
  | 0 => fun _ s => { s with ending := some (.signal 9) }
  | fuel + 1 => Runner.step (run fuel)

end SlotBuild.Shell
