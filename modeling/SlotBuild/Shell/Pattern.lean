import SlotBuild.FileTree.Access

/-! Matching names against patterns, and the paths that a pattern stands for. -/

namespace SlotBuild.Shell

/-- A character with the mark that it was quoted, so that it stands for itself. -/
abbrev Marked := List (Char × Bool)

namespace Marked

def text (m : Marked) : String := String.ofList (m.map (·.1))

def isWild (x : Char × Bool) : Bool := !x.2 && (x.1 == '*' || x.1 == '?' || x.1 == '[')

def hasWild (m : Marked) : Bool := m.any isWild

end Marked

inductive Atom where
  | exactly (c : Char)
  | anyOne
  | anyMany
  | oneOf (negated : Bool) (ranges : List (Char × Char))
deriving DecidableEq, Repr

def ranges : List Char → List (Char × Char)
  | a :: '-' :: b :: r => (a, b) :: ranges r
  | a :: r => (a, a) :: ranges r
  | [] => []

/-- What stands inside brackets; a bracket that comes first does not close. -/
def bracket? (cs : Marked) : Option (Atom × Nat) :=
  let (negated, inner) := match cs with
    | ('!', false) :: r => (true, r)
    | ('^', false) :: r => (true, r)
    | r => (false, r)
  let body := inner.take 1 ++ (inner.drop 1).takeWhile (· ≠ (']', false))
  if inner.drop body.length = [] || body = [] then none
  else some (.oneOf negated (ranges (body.map (·.1))),
    (if negated then 1 else 0) + body.length + 1)

def atoms : Nat → Marked → List Atom
  | 0, _ => []
  | _, [] => []
  | fuel + 1, ('*', false) :: r => .anyMany :: atoms fuel r
  | fuel + 1, ('?', false) :: r => .anyOne :: atoms fuel r
  | fuel + 1, ('[', false) :: r =>
    match bracket? r with
    | some (a, n) => a :: atoms fuel (r.drop n)
    | none => .exactly '[' :: atoms fuel r
  | fuel + 1, (c, _) :: r => .exactly c :: atoms fuel r

def Atom.accepts (a : Atom) (c : Char) : Bool :=
  match a with
  | .exactly d => c == d
  | .anyOne | .anyMany => true
  | .oneOf negated rs => (rs.any fun r => r.1 ≤ c && c ≤ r.2) != negated

def anySuffix (p : List Char → Bool) : List Char → Bool
  | [] => p []
  | c :: r => p (c :: r) || anySuffix p r

def accepts : List Atom → List Char → Bool
  | [], cs => cs.isEmpty
  | .anyMany :: as, cs => anySuffix (accepts as) cs
  | a :: as, c :: cs => a.accepts c && accepts as cs
  | _ :: _, [] => false

/-- A dot in front of a name has to be written out. -/
def matchesName (pattern : List Atom) (name : String) : Bool :=
  let cs := name.toList
  (cs.head? != some '.' || pattern.head? == some (.exactly '.')) && accepts pattern cs

/-- The pieces between separators. -/
def splitSlashes : Marked → List Marked
  | [] => [[]]
  | (c, q) :: r =>
    if c = '/' then [] :: splitSlashes r
    else match splitSlashes r with
      | p :: ps => ((c, q) :: p) :: ps
      | [] => [[(c, q)]]

/-- All paths that start with `done` and continue as the pieces say. -/
def matchesBelow (files : FileTree) (cwd : Key) (done : String) : List Marked → List String
  | [] => [done]
  | piece :: rest =>
    let last := rest.isEmpty
    let next (name : String) : List String :=
      if last then (if files.isThere cwd ⟨done ++ name⟩ then [done ++ name] else [])
      else matchesBelow files cwd (done ++ name ++ "/") rest
    if !Marked.hasWild piece then next (Marked.text piece)
    else
      let dir : Path := ⟨if done = "" then "." else done⟩
      match files.locate cwd true dir with
      | .error _ => []
      | .ok spot =>
        let pattern := atoms (piece.length + 1) piece
        ((files.names spot.key).filter (matchesName pattern)).flatMap fun name =>
          if last then [done ++ name]
          else if files.isDir cwd ⟨done ++ name⟩ then
            matchesBelow files cwd (done ++ name ++ "/") rest
          else []

/-- The paths for a word in increasing order; the word itself if there are none. -/
def pathsFor (files : FileTree) (cwd : Key) (word : Marked) : List String :=
  if !Marked.hasWild word then [Marked.text word]
  else
    let found := (matchesBelow files cwd "" (splitSlashes word)).mergeSort fun a b => decide (a ≤ b)
    if found = [] then [Marked.text word] else found

end SlotBuild.Shell
