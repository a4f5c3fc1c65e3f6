import SlotBuild.Text.Decimal
import SlotBuild.Text.Split

/-! Which log records are shown. A filter is a list of directives: a level, or a target with a
level, perhaps narrowed to a span. -/

namespace SlotBuild

/-- A level as a number: 0 shows nothing, 1 errors, 2 warnings, and so on up to 5. -/
abbrev Level := Nat

namespace Level

def names : List (String × Level) :=
  [("off", 0), ("error", 1), ("warn", 2), ("info", 3), ("debug", 4), ("trace", 5)]

def warn : Level := 2

def trace : Level := 5

/-- A number, perhaps with a plus sign in front. -/
def ofDigits? (s : String) : Option Level :=
  let digits := match s.toList with
    | '+' :: r => r
    | r => r
  match Decimal.value? digits with
  | some n => if n ≤ trace then some n else none
  | none => none

def ofString? (s : String) : Option Level :=
  (ofDigits? s).or (names.lookup (String.ofList (s.toList.map Char.toLower)))

end Level

inductive FilterError where
  | directive
  | level
deriving DecidableEq, Repr

def FilterError.message : FilterError → String
  | directive => "invalid filter directive"
  | level =>
    "error parsing level filter: expected one of \"off\", \"error\", \"warn\", " ++
      "\"info\", \"debug\", \"trace\", or a number 0-5"

structure Directive where
  /-- Records whose target starts with this; all records without one. -/
  target : Option String
  /-- Whether the directive counts only inside of spans. -/
  spanned : Bool
  level : Level
deriving DecidableEq, Repr

namespace Directive

def isStart (c : Char) : Bool :=
  c.isAlphanum || c == '-' || c == ':' || c == '_' || 0x80 ≤ c.toNat

/-- The level behind an equals sign; all levels if nothing is there. -/
def levelOf (cs : List Char) : Except FilterError Level :=
  if cs = [] then .ok Level.trace
  else match Level.ofString? (String.ofList cs) with
    | some l => .ok l
    | none => .error .level

def afterSpan (target : Option String) : List Char → Except FilterError Directive
  | [] => .ok ⟨target, true, Level.trace⟩
  | '=' :: r => (levelOf r).map fun l => ⟨target, true, l⟩
  | _ => .error .directive

/-- The inside of a span: a name, perhaps with fields between braces. -/
def span (target : Option String) (cs : List Char) : Except FilterError Directive :=
  let name := cs.takeWhile fun c => c ≠ ']' ∧ c ≠ '{'
  match cs.drop name.length with
  | ']' :: r => afterSpan target r
  | '{' :: r =>
    let fields := r.takeWhile (· ≠ '}')
    match r.drop fields.length with
    | '}' :: ']' :: rest => if fields = [] then .error .directive else afterSpan target rest
    | _ => .error .directive
  | _ => .error .directive

def targetOrLevel (cs : List Char) : Directive :=
  match Level.ofString? (String.ofList cs) with
  | some l => ⟨none, false, l⟩
  | none => ⟨some (String.ofList cs), false, Level.trace⟩

def parse (text : String) : Except FilterError Directive :=
  match (trimBlanks text).toList with
  | [] => .error .directive
  | '[' :: r => span none r
  | c :: cs =>
    if !isStart c then .error .directive
    else
      let head := (c :: cs).takeWhile fun c => c ≠ '=' ∧ c ≠ '['
      match (c :: cs).drop head.length with
      | '=' :: r => (levelOf r).map fun l => ⟨some (String.ofList head), false, l⟩
      | '[' :: r => span (some (String.ofList head)) r
      | _ => .ok (targetOrLevel head)

def reach? (d : Directive) (target : String) : Option Nat :=
  if d.spanned then none
  else match d.target with
    | none => some 0
    | some t => if t.toList.isPrefixOf target.toList then some t.length else none

end Directive

abbrev LogFilter := List Directive

namespace LogFilter

def parse (text : String) : Except FilterError LogFilter :=
  ((piecesOf ',' text).filter (· ≠ "")).mapM Directive.parse

/-- The level for a target: the directive that reaches farthest decides, the later of two. -/
def levelFor (f : LogFilter) (target : String) : Level :=
  if f = [] then 1
  else (f.foldl (fun (best : Nat × Level) d =>
    match d.reach? target with
    | some n => if best.1 ≤ n + 1 then (n + 1, d.level) else best
    | none => best) (0, 0)).2

def shows (f : LogFilter) (target : String) (l : Level) : Bool := l ≤ f.levelFor target

end LogFilter

end SlotBuild
