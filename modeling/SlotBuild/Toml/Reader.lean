import SlotBuild.Toml.Table

/-! Reading a configuration file: first its text as lines, then the lines as one table. -/

namespace SlotBuild.Toml

/-- Skips blanks, line ends and comments. -/
def skipTrivia (comment : Bool) : List Char → List Char
  | [] => []
  | '\r' :: '\n' :: r => skipTrivia false r
  | c :: r =>
    if c = '\n' then skipTrivia false r
    else if comment then if isPlain c then skipTrivia true r else c :: r
    else if isSpace c then skipTrivia false r
    else if c = '#' then skipTrivia true r
    else c :: r

def lineEnd? (cs : List Char) : Option (List Char) :=
  let r := cs.dropWhile isSpace
  let r := if r.head? = some '#' then r.dropWhile isPlain else r
  match r with
  | [] => some []
  | '\n' :: r => some r
  | '\r' :: '\n' :: r => some r
  | _ => none

abbrev ReadValue := List Char → Option (Value × List Char)

/-- The elements of an array up to its bracket; a comma may follow the last. -/
def elements? (value : ReadValue) : Nat → List Char → Option (List Value × List Char)
  | 0, _ => none
  | fuel + 1, cs =>
    match skipTrivia false cs with
    | ']' :: r => some ([], r)
    | cs => do
      let (v, r) ← value cs
      match skipTrivia false r with
      | ',' :: r => do
        let (vs, r) ← elements? value fuel r
        some (v :: vs, r)
      | ']' :: r => some ([v], r)
      | _ => none

def pair? (value : ReadValue) (cs : List Char) : Option ((KeyPath × Value) × List Char) := do
  let (path, r) ← keyPath? cs
  let (v, r) ← value ((← expect? '=' r).dropWhile isSpace)
  return ((path, v), r.dropWhile isSpace)

def inline? (value : ReadValue) (cs : List Char) : Option (Value × List Char) :=
  match cs.dropWhile isSpace with
  | '}' :: r => some (.table [], r)
  | cs => do
    let (pairs, r) ← separated? (pair? value) ',' (cs.length + 1) cs
    return (← inlineTable? pairs, ← expect? '}' r)

def flat? (cs : List Char) : Option (Value × List Char) :=
  match cs with
  | '"' :: _ => (quoted? cs).map fun p => (.string (String.ofList p.1), p.2)
  | '\'' :: _ => (quoted? cs).map fun p => (.string (String.ofList p.1), p.2)
  | _ => word? cs

/-- A value with at most `depth` arrays and tables in one another. -/
def value? : Nat → ReadValue
  | 0, cs => flat? cs
  | depth + 1, cs =>
    match cs with
    | '[' :: r => (elements? (value? depth) (r.length + 1) r).map fun p => (.array p.1, p.2)
    | '{' :: r => inline? (value? depth) r
    | cs => flat? cs

inductive Line where
  | pair (p : KeyPath × Value)
  | header (path : KeyPath) (repeated : Bool)

def header? (cs : List Char) : Option (Line × List Char) :=
  match cs with
  | '[' :: r => do
    let (path, r) ← keyPath? r
    return (.header path true, ← lineEnd? (← expect? ']' (← expect? ']' r)))
  | r => do
    let (path, r) ← keyPath? r
    return (.header path false, ← lineEnd? (← expect? ']' r))

def pairLine? (cs : List Char) : Option (Line × List Char) := do
  let (p, r) ← pair? (value? (nestingLimit - 1)) cs
  return (.pair p, ← lineEnd? r)

def lines? : Nat → List Char → Option (List Line)
  | 0, _ => none
  | fuel + 1, cs =>
    match cs.dropWhile isSpace with
    | [] => some []
    | '[' :: r => do
      let (line, r) ← header? r
      return line :: (← lines? fuel r)
    | c :: r => do
      if c = '#' ∨ c = '\n' ∨ c = '\r' then lines? fuel (← lineEnd? (c :: r))
      else
        let (line, r) ← pairLine? (c :: r)
        return line :: (← lines? fuel r)

/-- The pairs before the first header and the sections after it. -/
def sections : List Line → List (KeyPath × Value) × List Section
  | [] => ([], [])
  | .pair p :: r =>
    let (pairs, rest) := sections r
    (p :: pairs, rest)
  | .header path repeated :: r =>
    let (pairs, rest) := sections r
    ([], ⟨path, repeated, pairs⟩ :: rest)

def tableOf? (lines : List Line) : Option Entries := do
  let (pairs, rest) := sections lines
  let root ← Nodes.addPairs [] pairs
  return entriesOf (← rest.foldlM Section.addTo root)

def dropMark : List Char → List Char
  | '\uFEFF' :: r => r
  | cs => cs

def read? (text : String) : Option Entries := do
  let cs := dropMark text.toList
  tableOf? (← lines? (cs.length + 1) cs)

end SlotBuild.Toml
