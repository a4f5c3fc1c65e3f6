import SlotBuild.Shell.Pattern
import SlotBuild.Shell.State
import SlotBuild.Shell.Token

/-! From words to the arguments they stand for: values are put in, what is not quoted is split at
blanks, and patterns are replaced by the paths that match. -/

namespace SlotBuild.Shell

namespace State

def parameter? (s : State) (name : String) : Option String :=
  match name with
  | "?" => some (Decimal.text s.status)
  | "$" => some (Decimal.text s.process)
  | "#" => some (Decimal.text s.parameters.length)
  | "@" | "*" => if s.parameters = [] then none else some (" ".intercalate s.parameters)
  | "0" => some s.name
  | "-" => some (if s.strict then "e" else "")
  | "!" => none
  | _ =>
    match Decimal.value? name.toList with
    | some n => s.parameters[n - 1]?
    | none => s.value? name

end State

abbrev Capture := List Char → State → String × State

def unquotedPiece : Piece → Piece
  | .text cs _ => .text cs false
  | .variable n _ => .variable n false
  | .fallback n e o _ => .fallback n e o false
  | .output cs _ => .output cs false

/-- The pieces of a text that stands in for a missing value. -/
def fallbackPieces (quoted : Bool) (other : List Char) : List Piece :=
  match pieces true (other.length + 2) (other ++ ['"']) with
  | .ok (ps, _) => if quoted then ps else ps.map unquotedPiece
  | .error _ => [.text other quoted]

/-- Decides for each value that may be missing which text counts. -/
def resolve (s : State) : Nat → List Piece → List Piece
  | 0, ps => ps
  | fuel + 1, ps => ps.flatMap fun p =>
    match p with
    | .fallback name orEmpty other quoted =>
      match s.parameter? name with
      | some v =>
        if orEmpty && v = "" then resolve s fuel (fallbackPieces quoted other)
        else [.variable name quoted]
      | none => resolve s fuel (fallbackPieces quoted other)
    | p => [p]

/-- Fields in the making; the last one may be open. -/
structure Fields where
  done : List Marked
  current : Option Marked

namespace Fields

def close (f : Fields) : Fields :=
  match f.current with
  | some m => ⟨f.done ++ [m], none⟩
  | none => f

def push (quoted : Bool) (cs : List Char) (f : Fields) : Fields :=
  if cs = [] && !quoted then f
  else { f with current := some (f.current.getD [] ++ cs.map fun c => (c, quoted)) }

def isSeparator (c : Char) : Bool := c == ' ' || c == '\t' || c == '\n'

def split (cs : List Char) (f : Fields) : Fields :=
  cs.foldl (fun f c => if isSeparator c then f.close else f.push false [c]) f

def addValue (quoted : Bool) (cs : List Char) (f : Fields) : Fields :=
  if quoted then f.push true cs else f.split cs

/-- Each parameter is a field of its own. -/
def addParameters (quoted : Bool) (ps : List String) (f : Fields) : Fields :=
  match ps with
  | [] => f
  | p :: rest => rest.foldl (fun f q => f.close.addValue quoted q.toList) (f.addValue quoted p.toList)

end Fields

def addPiece (capture : Capture) (x : Fields × State) (p : Piece) : Fields × State :=
  let (f, s) := x
  match p with
  | .text cs quoted => (f.push quoted cs, s)
  | .variable name quoted =>
    if name = "@" || (name = "*" && !quoted) then (f.addParameters quoted s.parameters, s)
    else (f.addValue quoted ((s.parameter? name).getD "").toList, s)
  | .fallback _ _ other quoted => (f.push quoted other, s)
  | .output script quoted =>
    let (text, s) := capture script s
    (f.addValue quoted text.toList, s)

/-- The empty text of an opening quote is nothing when only the parameters follow and there are
none. -/
def withoutEmptyQuote (s : State) (ps : List Piece) : List Piece :=
  match ps with
  | [.text [] true, .variable "@" true] => if s.parameters = [] then [] else ps
  | ps => ps

def fieldsOf (capture : Capture) (s : State) (w : Word) : List Marked × State :=
  let ps := withoutEmptyQuote s (resolve s 8 w)
  let (f, s) := ps.foldl (addPiece capture) (⟨[], none⟩, s)
  (f.close.done, s)

def expandWord (capture : Capture) (s : State) (w : Word) : List String × State :=
  let (fields, s) := fieldsOf capture s w
  (fields.flatMap (pathsFor s.files s.cwd), s)

def expandWords (capture : Capture) (s : State) (ws : List Word) : List String × State :=
  ws.foldl (fun (args, s) w =>
    let (more, s) := expandWord capture s w
    (args ++ more, s)) ([], s)

def expandText (capture : Capture) (s : State) (w : Word) : String × State :=
  let quotedAll := (resolve s 8 w).map fun p =>
    match p with
    | .text cs _ => Piece.text cs true
    | .variable "@" _ => .variable "*" true
    | .variable n _ => .variable n true
    | .output cs _ => .output cs true
    | p => p
  let (f, s) := quotedAll.foldl (addPiece capture) (⟨[], none⟩, s)
  (" ".intercalate (f.close.done.map Marked.text), s)

end SlotBuild.Shell
