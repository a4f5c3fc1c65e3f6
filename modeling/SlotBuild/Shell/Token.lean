import SlotBuild.Shell.Script
import SlotBuild.Text.Decimal

/-! Cutting a script into tokens. -/

namespace SlotBuild.Shell

inductive Symbol where
  | word (w : Word)
  | operator (s : String)
  | redirect (descriptor : Option Nat) (direction : Direction)
  | newline
  /-- Text that cannot be cut any further. -/
  | fault (message : String)
deriving DecidableEq, Repr

structure Token where
  line : Nat
  symbol : Symbol
deriving DecidableEq, Repr

def isBlank (c : Char) : Bool := c == ' ' || c == '\t'

def isOperatorChar (c : Char) : Bool :=
  c == ';' || c == '&' || c == '|' || c == '<' || c == '>' || c == '(' || c == ')'

def endsWord (c : Char) : Bool := isBlank c || c == '\n' || isOperatorChar c

def isNameStart (c : Char) : Bool := ('A' ≤ c && c ≤ 'Z') || ('a' ≤ c && c ≤ 'z') || c == '_'

def isNameChar (c : Char) : Bool := isNameStart c || Decimal.isDigit c

def isSpecialName (c : Char) : Bool :=
  Decimal.isDigit c || c == '?' || c == '$' || c == '#' || c == '@' || c == '*' || c == '!' || c == '-'

/-- Up to the bracket that closes, with quotes and inner brackets skipped. -/
def enclosed? (opening closing : Char) : Nat → List Char → Option (List Char × List Char)
  | _, [] => none
  | depth, '\\' :: c :: r => (enclosed? opening closing depth r).map fun p => ('\\' :: c :: p.1, p.2)
  | depth, c :: r =>
    if c = closing then
      match depth with
      | 0 => some ([], r)
      | d + 1 => (enclosed? opening closing d r).map fun p => (c :: p.1, p.2)
    else
      (enclosed? opening closing (if c = opening then depth + 1 else depth) r).map fun p =>
        (c :: p.1, p.2)

/-- What stands between braces: a name, perhaps with another text for the case that it has no
value. -/
def braced (quoted : Bool) (cs : List Char) : Piece :=
  let name := cs.takeWhile isNameChar
  let name := if name = [] then cs.take 1 else name
  match cs.drop name.length with
  | ':' :: '-' :: r => .fallback (String.ofList name) true r quoted
  | '-' :: r => .fallback (String.ofList name) false r quoted
  | _ => .variable (String.ofList name) quoted

def dollar (quoted : Bool) (cs : List Char) : Except String (Piece × List Char) :=
  match cs with
  | '{' :: r =>
    match enclosed? '{' '}' 0 r with
    | some (inner, r) => .ok (braced quoted inner, r)
    | none => .error "Missing '\x7d'"
  | '(' :: r =>
    match enclosed? '(' ')' 0 r with
    | some (inner, r) => .ok (.output inner quoted, r)
    | none => .error "end of file unexpected (expecting \")\")"
  | c :: r =>
    if isNameStart c then
      .ok (.variable (String.ofList (c :: r.takeWhile isNameChar)) quoted, r.dropWhile isNameChar)
    else if isSpecialName c then .ok (.variable (String.singleton c) quoted, r)
    else .ok (.text ['$'] quoted, c :: r)
  | [] => .ok (.text ['$'] quoted, [])

/-- A text in front of pieces, joined with a like text at their start. -/
def prepend (c : Char) (quoted : Bool) (ps : List Piece) : List Piece :=
  match ps with
  | .text cs q :: rest => if q = quoted then .text (c :: cs) q :: rest else .text [c] quoted :: ps
  | ps => .text [c] quoted :: ps

def unterminated : String := "Unterminated quoted string"

/-- The text up to a closing mark and the rest after it. -/
def upTo (mark : Char) (cs : List Char) : Except String (List Char × List Char) :=
  if cs.contains mark then
    let inner := cs.takeWhile (· ≠ mark)
    .ok (inner, cs.drop (inner.length + 1))
  else .error unterminated

def pieces (quoted : Bool) : Nat → List Char → Except String (List Piece × List Char)
  | 0, _ => .error unterminated
  | fuel + 1, cs =>
    match cs with
    | [] => if quoted then .error unterminated else .ok ([], [])
    | '"' :: r =>
      if quoted then .ok ([], r)
      else do
        let (inner, r) ← pieces true fuel r
        let (after, r) ← pieces false fuel r
        return (.text [] true :: inner ++ after, r)
    | '\\' :: '\n' :: r => pieces quoted fuel r
    | '\\' :: c :: r => do
      let (after, rest) ← pieces quoted fuel r
      if quoted && !(c == '$' || c == '"' || c == '\\' || c == '`') then
        return (prepend '\\' true (prepend c true after), rest)
      else return (prepend c true after, rest)
    | '$' :: r => do
      let (p, r) ← dollar quoted r
      let (after, r) ← pieces quoted fuel r
      return (p :: after, r)
    | '`' :: r => do
      let (inner, r) ← upTo '`' r
      let (after, r) ← pieces quoted fuel r
      return (.output inner quoted :: after, r)
    | c :: r =>
      if c = '\'' ∧ quoted = false then do
        let (inner, r) ← upTo '\'' r
        let (after, r) ← pieces false fuel r
        return (.text inner true :: after, r)
      else if !quoted && endsWord c then .ok ([], c :: r)
      else do
        let (after, r) ← pieces quoted fuel r
        return (prepend c quoted after, r)

def redirect? : List Char → Option (Direction × List Char)
  | '>' :: '>' :: r => some (.append, r)
  | '>' :: '&' :: r => some (.duplicate, r)
  | '>' :: '|' :: r => some (.replace, r)
  | '>' :: r => some (.replace, r)
  | '<' :: '&' :: r => some (.duplicate, r)
  | '<' :: r => some (.read, r)
  | _ => none

def operator? : List Char → Option (String × List Char)
  | '&' :: '&' :: r => some ("&&", r)
  | '|' :: '|' :: r => some ("||", r)
  | ';' :: ';' :: r => some (";;", r)
  | c :: r => if isOperatorChar c then some (String.singleton c, r) else none
  | [] => none

/-- A redirection with the number of its descriptor, if there is one. -/
def numberedRedirect? (cs : List Char) : Option (Symbol × List Char) := do
  let digits := cs.takeWhile Decimal.isDigit
  let (direction, r) ← redirect? (cs.drop digits.length)
  let descriptor := if digits = [] then none
    else some (Decimal.value digits)
  some (.redirect descriptor direction, r)

def newlinesIn (cs : List Char) : Nat := cs.count '\n'

/-- The tokens of a text; a fault comes last and counts for the line where the text ends. -/
def tokens : Nat → Nat → List Char → List Token
  | 0, line, _ => [⟨line, .fault unterminated⟩]
  | fuel + 1, line, cs =>
    match cs.dropWhile isBlank with
    | [] => []
    | '\n' :: r => ⟨line, .newline⟩ :: tokens fuel (line + 1) r
    | '\\' :: '\n' :: r => tokens fuel (line + 1) r
    | '#' :: r => tokens fuel line (r.dropWhile (· ≠ '\n'))
    | cs =>
      match numberedRedirect? cs with
      | some (symbol, r) => ⟨line, symbol⟩ :: tokens fuel line r
      | none =>
        match operator? cs with
        | some (s, r) => ⟨line, .operator s⟩ :: tokens fuel line r
        | none =>
          match pieces false (cs.length + 1) cs with
          | .error message => [⟨line + newlinesIn cs, .fault message⟩]
          | .ok (w, r) =>
            ⟨line, .word w⟩ ::
              tokens fuel (line + newlinesIn (cs.take (cs.length - r.length))) r

end SlotBuild.Shell
