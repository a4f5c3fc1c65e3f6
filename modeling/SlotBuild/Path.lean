import SlotBuild.Text.Split

/-! Paths as they are written. Nothing is looked up: `a/./b` and `a//b` are kept as they are, and
only comparison and the parts of a path see through the spelling. A path is a text, so names that
are not UTF-8 have none. -/

namespace SlotBuild

structure Path where
  text : String
deriving DecidableEq, Repr, Inhabited

inductive Component where
  | root
  | current
  | parent
  | name (s : String)
deriving DecidableEq, Repr

namespace Component

/-- A number and a text that order components: the root first, then `.`, `..` and names. -/
def key : Component → Nat × String
  | root => (0, "")
  | current => (1, "")
  | parent => (2, "")
  | name s => (3, s)

def compare (a b : Component) : Ordering :=
  (Ord.compare a.key.1 b.key.1).then (Ord.compare a.key.2 b.key.2)

end Component

namespace Path

def isAbsolute (p : Path) : Bool := p.text.toList.head? == some '/'

def pieces (p : Path) : List String := piecesOf '/' p.text

def componentOf? (s : String) : Option Component :=
  if s = "" ∨ s = "." then none else if s = ".." then some .parent else some (.name s)

def components (p : Path) : List Component :=
  if p.isAbsolute then .root :: p.pieces.filterMap componentOf?
  else match p.pieces with
    | "." :: r => .current :: r.filterMap componentOf?
    | ps => ps.filterMap componentOf?

def compareComponents : List Component → List Component → Ordering
  | [], [] => .eq
  | [], _ :: _ => .lt
  | _ :: _, [] => .gt
  | a :: r, b :: s => (a.compare b).then (compareComponents r s)

/-- Paths are ordered component by component, so `a/z` comes before `a-b`. -/
def compare (p q : Path) : Ordering := compareComponents p.components q.components

def sameAs (p q : Path) : Bool := p.components == q.components

def join (base p : Path) : Path :=
  if p.isAbsolute then p
  else if base.text = "" ∨ base.text.toList.getLast? = some '/' then ⟨base.text ++ p.text⟩
  else ⟨base.text ++ "/" ++ p.text⟩

/-- On the reversed text: separators and `.` pieces at the end are dropped, a lone root is kept. -/
def dropTrail : List Char → List Char
  | '/' :: [] => ['/']
  | '/' :: r => dropTrail r
  | '.' :: '/' :: [] => ['/']
  | '.' :: '/' :: r => dropTrail r
  | r => r

def trimmed (p : Path) : Path := ⟨String.ofList (dropTrail p.text.toList.reverse).reverse⟩

def parent? (p : Path) : Option Path :=
  let t := p.trimmed
  if t.text = "" ∨ t.text = "/" then none
  else
    let front := (t.text.toList.reverse.dropWhile (· ≠ '/')).reverse
    some (trimmed ⟨String.ofList front⟩)

def fileName? (p : Path) : Option String :=
  match p.components.getLast? with
  | some (.name s) => some s
  | _ => none

def withFileName (p : Path) (s : String) : Path :=
  match p.fileName? with
  | some _ => ((p.parent?).getD ⟨""⟩).join ⟨s⟩
  | none => p.join ⟨s⟩

def ancestorsFrom : Nat → Path → List Path
  | 0, _ => []
  | fuel + 1, p => p :: (p.parent?.map (ancestorsFrom fuel)).getD []

/-- The path, its parent, and so on up to the root or the empty path. -/
def ancestors (p : Path) : List Path := ancestorsFrom (p.text.length + 1) p

def dropComponents : List Component → List Component → Option (List Component)
  | [], cs => some cs
  | b :: bs, c :: cs => if b = c then dropComponents bs cs else none
  | _ :: _, [] => none

def componentText : Component → String
  | .root => "/"
  | .current => "."
  | .parent => ".."
  | .name s => s

/-- What is left of `p` after `base`, if `p` starts with the components of `base`. -/
def relativeTo? (p base : Path) : Option Path :=
  (dropComponents base.components p.components).map fun cs =>
    ⟨"/".intercalate (cs.map componentText)⟩

end Path

end SlotBuild
