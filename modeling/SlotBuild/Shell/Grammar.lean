import SlotBuild.Shell.Token

/-! Building commands from tokens. Every line is a script of its own, so that what stands before a
faulty line is still carried out. -/

namespace SlotBuild.Shell

structure Misfit where
  line : Nat
  message : String
deriving DecidableEq, Repr

def plainText? : Symbol → Option String
  | .word [.text cs false] => some (String.ofList cs)
  | _ => none

def nameText? (s : Symbol) : Option String :=
  match plainText? s with
  | some w =>
    if w.toList.all isNameChar && w.toList.head?.any isNameStart then some w else none
  | none => none

def reservedWords : List String :=
  ["!", "\x7b", "\x7d", "if", "then", "elif", "else", "fi", "while", "until", "for", "do", "done", "in"]

/-- Words and operators that end a list of commands. -/
def closers : List String := ["\x7d", "then", "elif", "else", "fi", "do", "done"]

def Symbol.describe (s : Symbol) : String :=
  match s with
  | .newline => "newline"
  | .operator o => s!"\"{o}\""
  | .redirect .. => "redirection"
  | .fault message => message
  | .word _ =>
    match plainText? s with
    | some w => if reservedWords.contains w then s!"\"{w}\"" else "word"
    | none => "word"

/-- The complaint about the next token; `wanted` is what would have fitted. `last` is the line where
the text ends. -/
def misfit {α : Type} (last : Nat) (wanted : Option String) (ts : List Token) : Except Misfit α :=
  let expecting := match wanted with
    | some w => s!" (expecting \"{w}\")"
    | none => ""
  match ts with
  | [] => .error ⟨last, s!"Syntax error: end of file unexpected{expecting}"⟩
  | ⟨line, .fault message⟩ :: _ => .error ⟨line, s!"Syntax error: {message}"⟩
  | t :: _ => .error ⟨t.line, s!"Syntax error: {t.symbol.describe} unexpected{expecting}"⟩

def startsWith (w : String) (ts : List Token) : Bool :=
  match ts with
  | t :: _ => plainText? t.symbol == some w || t.symbol == .operator w
  | [] => false

def expect (last : Nat) (w : String) (ts : List Token) : Except Misfit (List Token) :=
  if startsWith w ts then .ok (ts.drop 1) else misfit last (some w) ts

def skipNewlines (ts : List Token) : List Token := ts.dropWhile fun t => t.symbol = .newline

def atCloser (ts : List Token) : Bool :=
  match ts with
  | [] => true
  | t :: _ => t.symbol == .operator ")" || (plainText? t.symbol).any closers.contains

def defaultDescriptor : Direction → Nat
  | .read => 0
  | _ => 1

def redirections (last : Nat) : Nat → List Token → Except Misfit (List Redirection × List Token)
  | 0, ts => .ok ([], ts)
  | fuel + 1, ts =>
    match ts with
    | ⟨_, .redirect n d⟩ :: ⟨_, .word w⟩ :: r => do
      let (rs, r) ← redirections last fuel r
      return (⟨n.getD (defaultDescriptor d), d, w⟩ :: rs, r)
    | ⟨_, .redirect _ _⟩ :: r => misfit last none r
    | ts => .ok ([], ts)

/-- A name, an equals sign and the word behind it. -/
def assignment? (w : Word) : Option (String × Word) :=
  match w with
  | .text cs false :: rest =>
    let name := cs.takeWhile isNameChar
    match cs.head?, cs.drop name.length with
    | some c, '=' :: value =>
      if isNameStart c then some (String.ofList name, .text value false :: rest) else none
    | _, _ => none
  | _ => none

structure Simple where
  assignments : List (String × Word)
  words : List Word
  redirections : List Redirection

def simple (last : Nat) : Nat → Simple → List Token → Except Misfit (Simple × List Token)
  | 0, s, ts => .ok (s, ts)
  | fuel + 1, s, ts =>
    match ts with
    | ⟨_, .redirect n d⟩ :: ⟨_, .word w⟩ :: r =>
      simple last fuel { s with redirections := s.redirections ++ [⟨n.getD (defaultDescriptor d), d, w⟩] } r
    | ⟨_, .redirect _ _⟩ :: r => misfit last none r
    | ⟨_, .word w⟩ :: r =>
      match s.words, assignment? w with
      | [], some a => simple last fuel { s with assignments := s.assignments ++ [a] } r
      | _, _ => simple last fuel { s with words := s.words ++ [w] } r
    | ts => .ok (s, ts)

/-- The words of a `for` up to the end of the list. -/
def listWords : List Token → List Word × List Token
  | ⟨_, .word w⟩ :: r =>
    let (ws, r) := listWords r
    (w :: ws, r)
  | ts => ([], ts)

def skipSeparators (ts : List Token) : List Token :=
  ts.dropWhile fun t => t.symbol = .newline ∨ t.symbol = .operator ";"

mutual

/-- Commands up to a closing token; `oneLine` stops at a line end. -/
def commands (oneLine : Bool) : Nat → Nat → List Token → Except Misfit (Script × List Token)
  | 0, last, ts => misfit last none ts
  | fuel + 1, last, ts => do
    let ts := if oneLine then ts else skipNewlines ts
    if atCloser ts then return (.skip, ts)
    let (s, r) ← andOr fuel last ts
    match r with
    | ⟨_, .operator o⟩ :: r' =>
      if o = ";" ∨ o = "&" then
        let (rest, r) ← commands oneLine fuel last r'
        return (.sequence s rest, r)
      else return (s, r)
    | ⟨_, .newline⟩ :: r' =>
      if oneLine then return (s, r)
      else
        let (rest, r) ← commands oneLine fuel last r'
        return (.sequence s rest, r)
    | r => return (s, r)
termination_by structural fuel => fuel

def andOr : Nat → Nat → List Token → Except Misfit (Script × List Token)
  | 0, last, ts => misfit last none ts
  | fuel + 1, last, ts => do
    let (s, r) ← pipeline fuel last ts
    andOrRest fuel last s r
termination_by structural fuel => fuel

def andOrRest : Nat → Nat → Script → List Token → Except Misfit (Script × List Token)
  | 0, _, s, ts => .ok (s, ts)
  | fuel + 1, last, s, ts => do
    if startsWith "&&" ts then
      let (t, r) ← pipeline fuel last (skipNewlines (ts.drop 1))
      andOrRest fuel last (.both s t) r
    else if startsWith "||" ts then
      let (t, r) ← pipeline fuel last (skipNewlines (ts.drop 1))
      andOrRest fuel last (.either s t) r
    else return (s, ts)
termination_by structural fuel => fuel

def pipeline : Nat → Nat → List Token → Except Misfit (Script × List Token)
  | 0, last, ts => misfit last none ts
  | fuel + 1, last, ts => do
    if startsWith "!" ts then
      let (s, r) ← pipeline fuel last (ts.drop 1)
      return (.negate s, r)
    else
      let (s, r) ← command fuel last ts
      if startsWith "|" r then
        let (t, r) ← pipeline fuel last (skipNewlines (r.drop 1))
        return (.pipe s t, r)
      else return (s, r)
termination_by structural fuel => fuel

def command : Nat → Nat → List Token → Except Misfit (Script × List Token)
  | 0, last, ts => misfit last none ts
  | fuel + 1, last, ts => do
    match ts with
    | [] => misfit last none []
    | t :: r =>
      match t.symbol with
      | .operator o =>
        if o = "(" then
          let (body, r) ← commands false fuel last r
          let r ← expect last ")" r
          let (rs, r) ← redirections last fuel r
          return (.subshell body rs, r)
        else misfit last none (t :: r)
      | .newline | .fault _ => misfit last none (t :: r)
      | .redirect .. =>
        let (s, r) ← simple last (t :: r).length ⟨[], [], []⟩ (t :: r)
        return (.simple t.line s.assignments s.words s.redirections, r)
      | .word _ =>
        match plainText? t.symbol with
        | some "\x7b" =>
          let (body, r) ← commands false fuel last r
          let r ← expect last "\x7d" r
          let (rs, r) ← redirections last fuel r
          return (.group body rs, r)
        | some "if" =>
          let (s, r) ← branch fuel last r
          return (s, r)
        | some "while" => loop fuel last false r
        | some "until" => loop fuel last true r
        | some "for" => each fuel last r
        | word =>
          if word.any fun w => closers.contains w then misfit last none (t :: r)
          else
            let (s, r) ← simple last (t :: r).length ⟨[], [], []⟩ (t :: r)
            return (.simple t.line s.assignments s.words s.redirections, r)
termination_by structural fuel => fuel

def branch : Nat → Nat → List Token → Except Misfit (Script × List Token)
  | 0, last, ts => misfit last none ts
  | fuel + 1, last, ts => do
    let (condition, r) ← commands false fuel last ts
    let r ← expect last "then" r
    let (yes, r) ← commands false fuel last r
    if startsWith "elif" r then
      let (no, r) ← branch fuel last (r.drop 1)
      return (.branch condition yes no [], r)
    else if startsWith "else" r then
      let (no, r) ← commands false fuel last (r.drop 1)
      let r ← expect last "fi" r
      let (rs, r) ← redirections last fuel r
      return (.branch condition yes no rs, r)
    else
      let r ← expect last "fi" r
      let (rs, r) ← redirections last fuel r
      return (.branch condition yes .skip rs, r)
termination_by structural fuel => fuel

def loop : Nat → Nat → Bool → List Token → Except Misfit (Script × List Token)
  | 0, last, _, ts => misfit last none ts
  | fuel + 1, last, onFailure, ts => do
    let (condition, r) ← commands false fuel last ts
    let r ← expect last "do" r
    let (body, r) ← commands false fuel last r
    let r ← expect last "done" r
    let (rs, r) ← redirections last fuel r
    return (.loop onFailure condition body rs, r)
termination_by structural fuel => fuel

def each : Nat → Nat → List Token → Except Misfit (Script × List Token)
  | 0, last, ts => misfit last none ts
  | fuel + 1, last, ts => do
    match ts with
    | t :: r =>
      match nameText? t.symbol with
      | none => .error ⟨t.line, "Syntax error: Bad for loop variable"⟩
      | some name =>
        let (words, r) := if startsWith "in" r then listWords (r.drop 1)
          else ([[Piece.variable "@" true]], r)
        let r ← expect last "do" (skipSeparators r)
        let (body, r) ← commands false fuel last r
        let r ← expect last "done" r
        let (rs, r) ← redirections last fuel r
        return (.each name words body rs, r)
    | [] => .error ⟨last, "Syntax error: Bad for loop variable"⟩
termination_by structural fuel => fuel

end

def linesOf (last : Nat) : Nat → List Token → Script
  | 0, _ => .skip
  | fuel + 1, ts =>
    match skipNewlines ts with
    | [] => .skip
    | ts =>
      match commands true (8 * ts.length + 8) last ts with
      | .error m => .broken m.line m.message
      | .ok (s, []) => s
      | .ok (s, t :: r) =>
        if t.symbol = .newline then .sequence s (linesOf last fuel r)
        else match (misfit last none (t :: r) : Except Misfit Unit) with
          | .error m => .broken m.line m.message
          | .ok () => s

def Script.ofText (text : List Char) : Script :=
  let ts := tokens (text.length + 1) 1 text
  linesOf (newlinesIn text + 1) (ts.length + 1) ts

end SlotBuild.Shell
