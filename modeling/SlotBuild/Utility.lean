import SlotBuild.FileTree.Access

/-! The programs that commands may name: how one is called, what it leaves behind, how its options
are read and how it quotes names in its complaints. -/

namespace SlotBuild.Utility

/-- What a program can read from. `regular` holds for a file. -/
structure Input where
  content : Bytes
  regular : Bool
deriving DecidableEq, Repr

structure Invocation where
  name : String
  arguments : List String
  input : Input
  files : FileTree
  cwd : Key

inductive Stream where
  | output
  | diagnostics
deriving DecidableEq, Repr

/-- What a program has written so far, in order, and what it will leave. -/
structure Progress where
  name : String
  writes : List (Stream × Bytes)
  status : Nat
  files : FileTree
  rest : Bytes

def Invocation.start (v : Invocation) : Progress := ⟨v.name, [], 0, v.files, v.input.content⟩

def apostrophes (s : String) : String := "'" ++ s ++ "'"

namespace Progress

def printBytes (p : Progress) (b : Bytes) : Progress :=
  if b = [] then p else { p with writes := p.writes ++ [(.output, b)] }

def print (p : Progress) (s : String) : Progress := p.printBytes (Bytes.ofString s)

/-- A line of diagnostics; the status becomes `status` unless it is higher already. -/
def complain (p : Progress) (status : Nat) (message : String) : Progress :=
  { p with
    writes := p.writes ++ [(.diagnostics, Bytes.ofString s!"{p.name}: {message}\n")]
    status := max p.status status }

def misuse (p : Progress) (status : Nat) (message : String) : Progress :=
  p.complain status (message ++ "\nTry " ++ apostrophes (p.name ++ " --help") ++ " for more information.")

def drained (p : Progress) : Progress := { p with rest := [] }

end Progress

structure Options where
  flags : List Char
  operands : List String
deriving DecidableEq, Repr

def Options.has (o : Options) (c : Char) : Bool := o.flags.contains c

/-- Two dashes end the options. They may stand among the operands if `mixed`. -/
def readOptions (mixed : Bool) (allowed : List Char) : List String → Except String Options
  | [] => .ok ⟨[], []⟩
  | a :: rest =>
    match a.toList with
    | ['-', '-'] => .ok ⟨[], rest⟩
    | '-' :: '-' :: _ => .error s!"unrecognized option {apostrophes a}"
    | '-' :: c :: cs =>
      match (c :: cs).find? fun x => !allowed.contains x with
      | some bad => .error ("invalid option -- " ++ apostrophes (String.singleton bad))
      | none => (readOptions mixed allowed rest).map fun o => { o with flags := c :: cs ++ o.flags }
    | _ =>
      if mixed then (readOptions mixed allowed rest).map fun o => { o with operands := a :: o.operands }
      else .ok ⟨[], a :: rest⟩

def withOptions (v : Invocation) (allowed : List Char) (status : Nat)
    (f : Options → Progress → Progress) : Progress :=
  match readOptions true allowed v.arguments with
  | .ok o => f o v.start
  | .error message => v.start.misuse status message

def isPlain (c : Char) : Bool :=
  ('0' ≤ c && c ≤ '9') || ('A' ≤ c && c ≤ 'Z') || ('a' ≤ c && c ≤ 'z') ||
    "%+,-./:@]_{}".toList.contains c

def isPrintable (c : Char) : Bool := ' ' ≤ c && c ≤ '~'

def octal (b : UInt8) : List Char :=
  ['\\', Nat.digitChar (b.toNat / 64), Nat.digitChar (b.toNat / 8 % 8), Nat.digitChar (b.toNat % 8)]

def controlEscape? (c : Char) : Option Char :=
  if c = '\x07' then some 'a' else if c = '\x08' then some 'b' else if c = '\x0c' then some 'f'
  else if c = '\n' then some 'n' else if c = '\r' then some 'r' else if c = '\t' then some 't'
  else if c = '\x0b' then some 'v' else none

/-- Inside quotes; a stretch that cannot be printed is written with escapes in quotes of its own,
and `inEscapes` says that one is open. -/
def quotedRest (inEscapes : Bool) : List Char → List Char
  | [] => ['\'']
  | c :: r =>
    let close := if inEscapes then ['\'', '\''] else []
    if c = '\'' then close ++ ['\'', '\\', '\'', '\''] ++ quotedRest false r
    else if isPrintable c then close ++ c :: quotedRest false r
    else
      let escapes := match controlEscape? c with
        | some e => ['\\', e]
        | none => (Bytes.ofString (String.singleton c)).flatMap octal
      (if inEscapes then [] else ['\'', '$', '\'']) ++ escapes ++ quotedRest true r

def quoted (name : String) : String :=
  let cs := name.toList
  if cs.contains '\'' && cs.all isPrintable && !cs.any (fun c => "\"$`\\!".toList.contains c) then
    s!"\"{name}\""
  else String.ofList ('\'' :: quotedRest false cs)

/-- A name in quotes if it would need them on a command line. -/
def quotedIfNeeded (name : String) : String :=
  if name ≠ "" ∧ name.toList.all isPlain then name else quoted name

end SlotBuild.Utility
