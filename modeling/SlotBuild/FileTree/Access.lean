import SlotBuild.FileTree

/-! How a path leads to an entry, and the operations of a file system on paths. Relative paths
start at a working directory. An operation can go wrong for reasons that no entry tells. -/

namespace SlotBuild

inductive AccessError where
  | io (path : Path) (cause : OsError)
  | missing (path : Path)
  | spawn (program : String) (cause : OsError)
  | emptyCommand
deriving DecidableEq, Repr

def AccessError.message : AccessError → String
  | io path cause => s!"cannot access {path.text}: {cause.message}"
  | missing path => s!"{path.text} does not exist"
  | spawn program cause => s!"cannot execute `{program}`: {cause.message}"
  | emptyCommand => "command is empty"

/-- How a write ends early: the file is not opened at all, or takes only so many octets. -/
inductive Stop where
  | refused (cause : OsError)
  | cut (written : Nat) (cause : OsError)
deriving DecidableEq, Repr

/-- What goes wrong outside of the tree, as on a device that is full. -/
structure Faults where
  write : Path → Bytes → Option Stop
  rename : Path → Path → Option OsError

def Faults.none : Faults := ⟨fun _ _ => .none, fun _ _ => .none⟩

namespace FileTree

def linkLimit : Nat := 40

def nameLimit : Nat := 255

/-- Goes down from a directory by the given pieces, up to a link, which it leaves to `follow`
together with the pieces that are left. A link at the very end is followed only if `through`. -/
def descendWith (t : FileTree) (through : Bool)
    (follow : Key → String → List String → Except OsError Key) (cur : Key) :
    List String → Except OsError Key
  | [] => .ok cur
  | p :: rest =>
    match t.lookup cur with
    | none => .error .notFound
    | some (.file _) => .error .notDirectory
    | some (.link _) => .error .notDirectory
    | some .dir =>
      if p = "" ∨ p = "." then descendWith t through follow cur rest
      else if p = ".." then descendWith t through follow cur.dropLast rest
      else if nameLimit < p.utf8ByteSize then .error .nameTooLong
      else
        match t.lookup (cur ++ [p]) with
        | some (.link target) =>
          if rest = [] ∧ !through then .ok (cur ++ [p]) else follow cur target rest
        | _ => descendWith t through follow (cur ++ [p]) rest

/-- Goes down by the given pieces and follows up to so many links. -/
def descend (t : FileTree) (through : Bool) : Nat → Key → List String → Except OsError Key
  | 0 => t.descendWith through fun _ _ _ => .error .tooManyLinks
  | links + 1 => t.descendWith through fun cur target rest =>
    if target = "" then .error .notFound
    else descend t through links (if (Path.mk target).isAbsolute then [] else cur)
      ((Path.mk target).pieces ++ rest)

/-- Where a path leads: `plain` if it ends in a name, `slash` if a separator follows. -/
structure Spot where
  key : Key
  plain : Bool
  slash : Bool
deriving DecidableEq, Repr

def locate (t : FileTree) (cwd : Key) (through : Bool) (p : Path) : Except OsError Spot := do
  if p.text.toList.contains '\x00' then throw .nulInPath
  if p.text = "" then throw .notFound
  let slash := p.text.toList.getLast? == some '/'
  let ps := p.pieces.filter (· ≠ "")
  let key ← t.descend (through || slash) linkLimit (if p.isAbsolute then [] else cwd) ps
  return ⟨key, ps ≠ [] && ps.getLast? ≠ some "." && ps.getLast? ≠ some "..", slash⟩

def entryAt (t : FileTree) (cwd : Key) (through : Bool) (p : Path) :
    Except OsError (Key × Entry) := do
  let spot ← t.locate cwd through p
  match t.lookup spot.key with
  | none => throw .notFound
  | some .dir => return (spot.key, .dir)
  | some e => if spot.slash then throw .notDirectory else return (spot.key, e)

/-- What a path leads to once links are followed. -/
def stat? (t : FileTree) (cwd : Key) (p : Path) : Option Entry :=
  match t.entryAt cwd true p with
  | .ok (_, e) => some e
  | .error _ => none

def isThere (t : FileTree) (cwd : Key) (p : Path) : Bool := (t.stat? cwd p).isSome

def isDir (t : FileTree) (cwd : Key) (p : Path) : Bool :=
  match t.stat? cwd p with
  | some .dir => true
  | _ => false

def isFile (t : FileTree) (cwd : Key) (p : Path) : Bool :=
  match t.stat? cwd p with
  | some (.file _) => true
  | _ => false

def read (t : FileTree) (cwd : Key) (p : Path) : Except OsError Bytes := do
  match ← t.entryAt cwd true p with
  | (_, .file b) => return b
  | (_, .dir) => throw .isDirectory
  | (_, .link _) => throw .tooManyLinks

/-- Which entry a write to a path makes or replaces. -/
def writable (t : FileTree) (cwd : Key) (p : Path) : Except OsError Key := do
  let spot ← t.locate cwd true p
  match t.lookup spot.key with
  | some .dir => throw .isDirectory
  | some (.link _) => throw .tooManyLinks
  | some (.file _) => if spot.slash then throw .notDirectory else return spot.key
  | none => if spot.slash then throw .isDirectory else return spot.key

def write (t : FileTree) (cwd : Key) (p : Path) (content : Bytes) : Except OsError FileTree := do
  return t.put (← t.writable cwd p) (.file content)

/-- Writes as far as nothing goes wrong. A part that was written stays. -/
def writeWith (faults : Faults) (t : FileTree) (cwd : Key) (p : Path) (content : Bytes) :
    Except OsError Unit × FileTree :=
  match t.writable cwd p with
  | .error e => (.error e, t)
  | .ok k =>
    match faults.write p content with
    | none => (.ok (), t.put k (.file content))
    | some (.refused cause) => (.error cause, t)
    | some (.cut n cause) => (.error cause, t.put k (.file (content.take n)))

def makeDir (t : FileTree) (cwd : Key) (p : Path) : Except OsError FileTree := do
  let spot ← t.locate cwd false p
  match t.lookup spot.key with
  | some _ => throw .exists
  | none => return t.put spot.key .dir

/-- Makes the first path after the others, each the parent of the one before. What was made stays
when a later step fails. -/
def makeChain (t : FileTree) (cwd : Key) : List Path → Except OsError Unit × FileTree
  | [] => (.ok (), t)
  | p :: up =>
    if p.text = "" then (.ok (), t)
    else match t.makeDir cwd p with
      | .ok made => (.ok (), made)
      | .error .notFound =>
        if up = [] then (.error .notFound, t)
        else match t.makeChain cwd up with
          | (.error e, above) => (.error e, above)
          | (.ok (), above) =>
            match above.makeDir cwd p with
            | .ok made => (.ok (), made)
            | .error e => if above.isDir cwd p then (.ok (), above) else (.error e, above)
      | .error e => if t.isDir cwd p then (.ok (), t) else (.error e, t)

/-- Makes a directory and its missing parents; it may exist already. -/
def makeDirs (t : FileTree) (cwd : Key) (p : Path) : Except OsError Unit × FileTree :=
  t.makeChain cwd p.ancestors

def removeFile (t : FileTree) (cwd : Key) (p : Path) : Except OsError FileTree := do
  match ← t.entryAt cwd false p with
  | (_, .dir) => throw .isDirectory
  | (k, _) => return t.erase k

/-- Goes up by the `.` and `..` in front, for which nothing is looked up: the working directory may
be gone. -/
def climb (cur : Key) : List String → Key × List String
  | [] => (cur, [])
  | p :: rest =>
    if p = "." then climb cur rest
    else if p = ".." then climb cur.dropLast rest
    else (cur, p :: rest)

/-- Where a path leads, up to a link at its end, when the working directory may be gone. -/
def locateGone (t : FileTree) (cwd : Key) (p : Path) : Except OsError Key :=
  match climb (if p.isAbsolute then [] else cwd) (p.pieces.filter (· ≠ "")) with
  | (start, []) => .ok start
  | (start, rest) => t.descend false linkLimit start rest

/-- Removes a directory that was just emptied. Its path may have led through what was in it. -/
def removeEmptied (t : FileTree) (cwd : Key) (p : Path) : Except OsError FileTree :=
  match (p.pieces.filter (· ≠ "")).getLast?, t.locateGone cwd p with
  | none, _ => .error .busy
  | some _, .error e => .error e
  | some last, .ok k =>
    if last = "." then .error .invalidArgument
    else if last = ".." then .error .notEmpty
    else match t.lookup k with
      | none => .error .notFound
      | some .dir => .ok (t.erase k)
      | some _ => .error .notDirectory

/-- Removes a directory with all it holds. A link is removed and not followed. A directory that
cannot be removed by its path is left empty. -/
def removeTree (t : FileTree) (cwd : Key) (p : Path) : Except OsError Unit × FileTree :=
  match t.entryAt cwd false p with
  | .ok (k, .dir) =>
    match (t.eraseBelow k).removeEmptied cwd p with
    | .ok left => (.ok (), left)
    | .error e => (.error e, t.eraseBelow k)
  | .ok (k, .link _) => (.ok (), t.erase k)
  | .ok (_, .file _) => (.error .notDirectory, t)
  | .error e => (.error e, t)

def rename (t : FileTree) (cwd : Key) (source target : Path) : Except OsError FileTree := do
  let a ← t.locate cwd false source
  let b ← t.locate cwd false target
  if !a.plain || !b.plain then throw .busy
  match t.lookup a.key with
  | none => throw .notFound
  | some .dir =>
    if isUnder a.key b.key && a.key ≠ b.key then throw .invalidArgument
    match t.lookup b.key with
    | some .dir =>
      if a.key = b.key then return t
      if t.names b.key ≠ [] then throw .notEmpty
    | some _ => throw .notDirectory
    | none => pure ()
    return t.move a.key b.key
  | some e =>
    if a.slash || b.slash then throw .notDirectory
    match t.lookup b.key with
    | some .dir => throw .isDirectory
    | _ => return (t.erase a.key).put b.key e

def renameWith (faults : Faults) (t : FileTree) (cwd : Key) (source target : Path) :
    Except OsError FileTree := do
  let done ← t.rename cwd source target
  match faults.rename source target with
  | some cause => throw cause
  | none => return done

end FileTree

end SlotBuild
