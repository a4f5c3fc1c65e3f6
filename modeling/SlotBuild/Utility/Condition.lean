import SlotBuild.Utility

/-! Conditions on texts, numbers and files, as `test` reads them from its arguments. -/

namespace SlotBuild.Utility.Condition

def unaryOperators : List String :=
  ["-b", "-c", "-d", "-e", "-f", "-g", "-h", "-k", "-L", "-n", "-O", "-G", "-p", "-r", "-s", "-S",
    "-t", "-u", "-w", "-x", "-z"]

def binaryOperators : List String :=
  ["=", "==", "!=", "<", ">", "-eq", "-ne", "-lt", "-le", "-gt", "-ge", "-nt", "-ot", "-ef"]

/-- Whether a unary operator stands where an operand is meant: it is last, or a binary operator
with an operand follows it. -/
def isOperand (rest : List String) : Bool :=
  match rest with
  | [] => true
  | [_] => false
  | b :: _ :: _ => binaryOperators.contains b

def isUnaryAt (ws : List String) : Bool :=
  match ws with
  | w :: rest => unaryOperators.contains w && !isOperand rest
  | [] => false

structure Site where
  files : FileTree
  cwd : Key

def holdsUnary (site : Site) (op word : String) : Bool :=
  let p : Path := ⟨word⟩
  match op with
  | "-n" => word ≠ ""
  | "-z" => word = ""
  | "-e" | "-r" | "-w" | "-O" | "-G" => site.files.isThere site.cwd p
  | "-f" => site.files.isFile site.cwd p
  | "-d" | "-x" => site.files.isDir site.cwd p
  | "-s" =>
    match site.files.stat? site.cwd p with
    | some (.file b) => b ≠ []
    | some _ => true
    | none => false
  | "-h" | "-L" =>
    match site.files.entryAt site.cwd false p with
    | .ok (_, .link _) => true
    | _ => false
  | _ => false

def integer (word : String) : Except String Int :=
  let cs := (word.toList.dropWhile fun c => c == ' ' || c == '\t' || c == '\n')
  let (negative, digits) := match cs with
    | '-' :: r => (true, r)
    | '+' :: r => (false, r)
    | r => (false, r)
  let shown := digits.takeWhile Decimal.isDigit
  if shown = [] || !(digits.drop shown.length).all (fun c => c == ' ' || c == '\t' || c == '\n') then
    .error s!"Illegal number: {word}"
  else .ok (if negative then -(Decimal.value shown : Int) else Decimal.value shown)

def compareBy (op : String) (a b : Int) : Bool :=
  match op with
  | "-eq" => a == b
  | "-ne" => a != b
  | "-lt" => decide (a < b)
  | "-le" => decide (a ≤ b)
  | "-gt" => decide (b < a)
  | _ => decide (b ≤ a)

def holdsBinary (site : Site) (op a b : String) : Except String Bool :=
  match op with
  | "=" | "==" => .ok (a = b)
  | "!=" => .ok (a ≠ b)
  | "<" => .ok (decide (a < b))
  | ">" => .ok (decide (b < a))
  | "-nt" | "-ot" => .ok false
  | "-ef" =>
    match site.files.entryAt site.cwd true ⟨a⟩, site.files.entryAt site.cwd true ⟨b⟩ with
    | .ok x, .ok y => .ok (x.1 == y.1)
    | _, _ => .ok false
  | _ => do
    let m ← integer a
    let n ← integer b
    return compareBy op m n

mutual

def anyOf (site : Site) : Nat → List String → Except String (Bool × List String)
  | 0, ws => .ok (false, ws)
  | fuel + 1, ws => do
    let (a, r) ← allOf site fuel ws
    match r with
    | "-o" :: r =>
      let (b, r) ← anyOf site fuel r
      return (a || b, r)
    | r => return (a, r)
termination_by structural fuel => fuel

def allOf (site : Site) : Nat → List String → Except String (Bool × List String)
  | 0, ws => .ok (false, ws)
  | fuel + 1, ws => do
    let (a, r) ← negation site fuel ws
    match r with
    | "-a" :: r =>
      let (b, r) ← allOf site fuel r
      return (a && b, r)
    | r => return (a, r)
termination_by structural fuel => fuel

def negation (site : Site) : Nat → List String → Except String (Bool × List String)
  | 0, ws => .ok (false, ws)
  | fuel + 1, ws => do
    match ws with
    | "!" :: r =>
      let (b, r) ← negation site fuel r
      return (!b, r)
    | ws => primary site fuel ws
termination_by structural fuel => fuel

def primary (site : Site) : Nat → List String → Except String (Bool × List String)
  | 0, ws => .ok (false, ws)
  | fuel + 1, ws => do
    match ws with
    | [] => return (false, [])
    | "(" :: x :: r =>
      let (b, r) ← anyOf site fuel (x :: r)
      match r with
      | ")" :: r => return (b, r)
      | _ => throw "closing paren expected"
    | w :: r =>
      if isUnaryAt ws then
        match r with
        | x :: r => return (holdsUnary site w x, r)
        | [] => throw s!"{w}: argument expected"
      else
        match r with
        | op :: rest =>
          if binaryOperators.contains op then
            match rest with
            | b :: rest => return (← holdsBinary site op w b, rest)
            | [] => throw s!"{op}: argument expected"
          else return (w ≠ "", r)
        | [] => return (w ≠ "", [])
termination_by structural fuel => fuel

end

/-- All words have to belong to the condition; the last one that does is named otherwise. -/
def whole (site : Site) (ws : List String) : Except String Bool := do
  let (b, r) ← anyOf site (4 * ws.length + 4) ws
  match r with
  | [] => return b
  | w :: _ => throw s!"{(ws[ws.length - r.length - 1]?).getD w}: unexpected operator"

def three (site : Site) (a op b : String) : Except String Bool :=
  if binaryOperators.contains op then holdsBinary site op a b
  else if a = "(" ∧ b = ")" then .ok (op ≠ "")
  else whole site [a, op, b]

/-- Few words are read by their number. -/
def holds (site : Site) (ws : List String) : Except String Bool :=
  match ws with
  | [] => .ok false
  | [a] => .ok (a ≠ "")
  | ["!", a] => .ok (a = "")
  | [a, op, b] => three site a op b
  | ["!", a, op, b] => (three site a op b).map (!·)
  | ws => whole site ws

end Condition

/-- Status 0 if the condition holds, 1 if it does not, 2 if it cannot be read. -/
def test (v : Invocation) : Progress :=
  match Condition.holds ⟨v.files, v.cwd⟩ v.arguments with
  | .ok true => v.start
  | .ok false => { v.start with status := 1 }
  | .error message => v.start.complain 2 message

def bracket (v : Invocation) : Progress :=
  if v.arguments.getLast? = some "]" then test { v with arguments := v.arguments.dropLast }
  else v.start.complain 2 "missing ]"

end SlotBuild.Utility
