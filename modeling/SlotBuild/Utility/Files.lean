import SlotBuild.Utility

/-! Programs that read, count, list and make files. -/

namespace SlotBuild.Utility

def cannot (p : Progress) (name : String) (e : OsError) : Progress :=
  p.complain 1 s!"{quotedIfNeeded name}: {e.reason}"

def catOne (v : Invocation) (p : Progress) (name : String) : Progress :=
  if name = "-" then (p.printBytes p.rest).drained
  else match p.files.read v.cwd ⟨name⟩ with
    | .ok b => p.printBytes b
    | .error e => cannot p name e

def cat (v : Invocation) : Progress :=
  withOptions v ['u'] 1 fun o p =>
    (if o.operands = [] then ["-"] else o.operands).foldl (catOne v) p

structure Tally where
  lines : Nat
  words : Nat
  octets : Nat
deriving DecidableEq, Repr

namespace Tally

def isSpace (b : UInt8) : Bool := b == 32 || (9 ≤ b && b ≤ 13)

/-- Words start at an octet that is no space and follows a space or the start. -/
def wordsIn (inWord : Bool) : Bytes → Nat
  | [] => 0
  | b :: r =>
    if isSpace b then wordsIn false r
    else (if inWord then 0 else 1) + wordsIn true r

def ofBytes (b : Bytes) : Tally := ⟨b.count 10, wordsIn false b, b.length⟩

def add (a b : Tally) : Tally := ⟨a.lines + b.lines, a.words + b.words, a.octets + b.octets⟩

def counts (o : Options) (t : Tally) : List Nat :=
  let all := !o.has 'l' && !o.has 'w' && !o.has 'c' && !o.has 'm'
  (if all || o.has 'l' then [t.lines] else []) ++ (if all || o.has 'w' then [t.words] else []) ++
    (if o.has 'm' then [t.octets] else []) ++ (if all || o.has 'c' then [t.octets] else [])

end Tally

def columns (width : Nat) (ns : List Nat) : String :=
  " ".intercalate (ns.map fun n => String.ofList (List.leftpad width ' ' (Decimal.numeral n)))

/-- The width for all counts: the digits of the total size, at least seven if something is no
regular file, and no padding for a single count. -/
def countWidth (v : Invocation) (o : Options) (names : List String) : Nat :=
  let sizes := names.map fun n =>
    if n = "-" then (if v.input.regular then some v.input.content.length else none)
    else match v.files.stat? v.cwd ⟨n⟩ with
      | some (.file b) => some b.length
      | some _ => none
      | none => some 0
  let total := sizes.foldl (fun n s => n + s.getD 0) 0
  if names.length ≤ 1 && (Tally.counts o ⟨0, 0, 0⟩).length == 1 then 1
  else max (Decimal.numeral total).length (if sizes.contains none then 7 else 1)

structure Counting where
  progress : Progress
  total : Tally

def countOne (v : Invocation) (o : Options) (width : Nat) (c : Counting) (name : String) : Counting :=
  let row (p : Progress) (t : Tally) : Progress :=
    p.print s!"{columns width (t.counts o)} {name}\n"
  if name = "-" then
    let t := Tally.ofBytes c.progress.rest
    ⟨row c.progress.drained t, c.total.add t⟩
  else match v.files.read v.cwd ⟨name⟩ with
    | .ok b => ⟨row c.progress (Tally.ofBytes b), c.total.add (Tally.ofBytes b)⟩
    | .error .isDirectory => ⟨row (cannot c.progress name .isDirectory) ⟨0, 0, 0⟩, c.total⟩
    | .error e => ⟨cannot c.progress name e, c.total⟩

def wc (v : Invocation) : Progress :=
  withOptions v ['l', 'w', 'c', 'm'] 1 fun o p =>
    if o.operands = [] then
      let t := Tally.ofBytes p.rest
      p.drained.print (columns (countWidth v o ["-"]) (t.counts o) ++ "\n")
    else
      let width := countWidth v o o.operands
      let c := o.operands.foldl (countOne v o width) ⟨p, ⟨0, 0, 0⟩⟩
      if o.operands.length ≤ 1 then c.progress
      else c.progress.print s!"{columns width (c.total.counts o)} total\n"

def listed (v : Invocation) (o : Options) (name : String) : List String :=
  match v.files.locate v.cwd true ⟨name⟩ with
  | .error _ => []
  | .ok spot =>
    let names := v.files.names spot.key
    if o.has 'a' then (names ++ [".", ".."]).mergeSort fun a b => decide (a ≤ b)
    else if o.has 'A' then names
    else names.filter fun n => n.toList.head? != some '.'

def lines (names : List String) : String := String.join (names.map (· ++ "\n"))

def ls (v : Invocation) : Progress :=
  withOptions v ['1', 'a', 'A', 'd'] 2 fun o p =>
    let operands := (if o.operands = [] then ["."] else o.operands).mergeSort
      fun a b => decide (a ≤ b)
    let missing (n : String) : Option OsError :=
      match v.files.entryAt v.cwd false ⟨n⟩ with
      | .ok _ => none
      | .error e => some e
    let (here, gone) := operands.partition fun n => (missing n).isNone
    let p := gone.foldl (fun p n =>
      p.complain 2 s!"cannot access {quoted n}: {((missing n).getD .notFound).reason}") p
    let (dirs, others) := here.partition fun n => !o.has 'd' && v.files.isDir v.cwd ⟨n⟩
    let p := p.print (lines others)
    let headed := 1 < operands.length
    (dirs.foldl (fun (p, first) n =>
      let heading := if headed then (if first then "" else "\n") ++ n ++ ":\n" else ""
      (p.print (heading ++ lines (listed v o n)), false)) (p, others.isEmpty)).1

def isObstacle (v : Invocation) (files : FileTree) (q : Path) : Bool :=
  files.isThere v.cwd q && !files.isDir v.cwd q

def makeOne (v : Invocation) (parents : Bool) (p : Progress) (name : String) : Progress :=
  let refuse (p : Progress) (culprit : String) (e : OsError) : Progress :=
    p.complain 1 s!"cannot create directory {quoted culprit}: {e.reason}"
  if parents then
    match p.files.makeDirs v.cwd ⟨name⟩ with
    | (.ok (), made) => { p with files := made }
    | (.error e, made) =>
      let p := { p with files := made }
      match (Path.mk name).ancestors.reverse.find? (isObstacle v made) with
      | some q => refuse p q.text (if q.text = name then .exists else .notDirectory)
      | none => refuse p name e
  else match p.files.makeDir v.cwd ⟨name⟩ with
    | .ok made => { p with files := made }
    | .error e => refuse p name e

def mkdir (v : Invocation) : Progress :=
  withOptions v ['p'] 1 fun o p =>
    if o.operands = [] then p.misuse 1 "missing operand"
    else o.operands.foldl (makeOne v (o.has 'p')) p

def touchOne (v : Invocation) (p : Progress) (name : String) : Progress :=
  if p.files.isThere v.cwd ⟨name⟩ then p
  else match p.files.write v.cwd ⟨name⟩ [] with
    | .ok made => { p with files := made }
    | .error e => p.complain 1 s!"cannot touch {quoted name}: {e.reason}"

def touch (v : Invocation) : Progress :=
  withOptions v [] 1 fun o p =>
    if o.operands = [] then p.misuse 1 "missing file operand"
    else o.operands.foldl (touchOne v) p

def removeOne (v : Invocation) (o : Options) (p : Progress) (name : String) : Progress :=
  let refuse (e : OsError) : Progress := p.complain 1 s!"cannot remove {quoted name}: {e.reason}"
  match p.files.entryAt v.cwd false ⟨name⟩ with
  | .ok (k, .dir) =>
    if o.has 'r' || o.has 'R' then { p with files := p.files.eraseTree k } else refuse .isDirectory
  | .ok (k, _) => { p with files := p.files.erase k }
  | .error .notFound => if o.has 'f' then p else refuse .notFound
  | .error e => refuse e

def rm (v : Invocation) : Progress :=
  withOptions v ['r', 'R', 'f'] 1 fun o p =>
    if o.operands = [] && !o.has 'f' then p.misuse 1 "missing operand"
    else o.operands.foldl (removeOne v o) p

def pathText (k : Key) : String := "/" ++ "/".intercalate k

def pwd (v : Invocation) : Progress := v.start.print (pathText v.cwd ++ "\n")

end SlotBuild.Utility
