import SlotBuild.Project

/-! Reading the arguments of the command line: options in long and short form, clusters of short
ones, values attached or in the next argument, and two dashes that end the options. -/

namespace SlotBuild.CommandLine

inductive Verb where
  | init (name : Option String)
  | build (options : BuildOptions)
  | plan (options : BuildOptions)
  | graph
  | slots
  | clean
deriving DecidableEq, Repr

inductive Request where
  | version
  | help
  | perform (verbose : Bool) (verb : Verb)
deriving DecidableEq, Repr

structure Name where
  long : String
  short : Option Char
deriving DecidableEq, Repr

structure Grammar where
  switches : List Name
  /-- Options with a value, and which values they take. -/
  valued : List (Name × (String → Bool))
  takesWords : Bool

structure Found where
  switches : List String
  values : List (String × String)
  words : List String
deriving DecidableEq, Repr

namespace Found

def empty : Found := ⟨[], [], []⟩

def has (f : Found) (long : String) : Bool := f.switches.contains long

def value? (f : Found) (long : String) : Option String := f.values.lookup long

def addSwitch (f : Found) (long : String) : Option Found :=
  if f.has long then none else some { f with switches := long :: f.switches }

def addWord (f : Found) (w : String) : Found := { f with words := f.words ++ [w] }

/-- No value may be given twice, and it has to be one that the option takes. -/
def addValue (f : Found) (option : Name × (String → Bool)) (v : String) : Option Found :=
  if (f.value? option.1.long).isSome || !option.2 v then none
  else some { f with values := (option.1.long, v) :: f.values }

end Found

inductive Reading where
  | rejected
  | help
  | version
  | go (found : Found) (rest : List String)

def helpName : Name := ⟨"help", some 'h'⟩

def versionName : Name := ⟨"version", some 'V'⟩

namespace Reading

def ofFound (rest : List String) : Option Found → Reading
  | some f => go f rest
  | none => rejected

end Reading

def looksLikeOption (v : String) : Bool := v.toList.head? == some '-' && v ≠ "-"

def nextValue (f : Found) (option : Name × (String → Bool)) (rest : List String) : Reading :=
  match rest with
  | v :: rest => if looksLikeOption v then .rejected else .ofFound rest (f.addValue option v)
  | [] => .rejected

def readLong (g : Grammar) (f : Found) (cs : List Char) (rest : List String) : Reading :=
  let long := String.ofList (cs.takeWhile (· ≠ '='))
  let attached := match cs.dropWhile (· ≠ '=') with
    | [] => none
    | _ :: v => some (String.ofList v)
  match g.switches.find? fun n => n.long = long, g.valued.find? fun o => o.1.long = long with
  | some n, _ =>
    if attached.isSome then .rejected
    else if n = helpName then .help
    else if n = versionName then .version
    else .ofFound rest (f.addSwitch long)
  | none, some o =>
    match attached with
    | some v => .ofFound rest (f.addValue o v)
    | none => nextValue f o rest
  | none, none => .rejected

/-- Short options in a row. The first one with a value takes what is left. -/
def readShort (g : Grammar) (f : Found) (rest : List String) : List Char → Reading
  | [] => .go f rest
  | c :: cs =>
    match g.switches.find? fun n => n.short = some c,
        g.valued.find? fun o => o.1.short = some c with
    | some n, _ =>
      if n = helpName then .help
      else if n = versionName then .version
      else match f.addSwitch n.long with
        | some f => readShort g f rest cs
        | none => .rejected
    | none, some o =>
      match cs with
      | [] => nextValue f o rest
      | '=' :: v => .ofFound rest (f.addValue o (String.ofList v))
      | v => .ofFound rest (f.addValue o (String.ofList v))
    | none, none => .rejected

/-- Reads options up to the first word; words are gathered if the command takes them. -/
def read (g : Grammar) : Nat → Found → List String → Reading
  | 0, f, args => .go f args
  | _, f, [] => .go f []
  | fuel + 1, f, a :: rest =>
    match a.toList with
    | ['-', '-'] =>
      if g.takesWords then .go { f with words := f.words ++ rest } []
      else if rest = [] then .go f [] else .rejected
    | '-' :: '-' :: cs =>
      match readLong g f cs rest with
      | .go f rest => read g fuel f rest
      | other => other
    | '-' :: c :: cs =>
      match readShort g f rest (c :: cs) with
      | .go f rest => read g fuel f rest
      | other => other
    | _ => if g.takesWords then read g fuel (f.addWord a) rest else .go f (a :: rest)

def verbose : Name := ⟨"verbose", some 'v'⟩

def globalGrammar : Grammar := ⟨[verbose, helpName, versionName], [], false⟩

/-- A count that fits a machine word of 64 bits. -/
def jobs? (v : String) : Option Nat :=
  let digits := match v.toList with
    | '+' :: r => r
    | r => r
  match Decimal.value? digits with
  | some n => if n < UInt64.size then some n else none
  | none => none

def grammar? (verb : String) : Option Grammar :=
  let switch (long : String) : Name := ⟨long, none⟩
  match verb with
  | "init" => some ⟨[verbose, helpName], [(⟨"name", none⟩, fun _ => true)], false⟩
  | "build" => some ⟨[verbose, helpName, switch "fail-fast", switch "force"],
      [(⟨"jobs", some 'j'⟩, fun v => (jobs? v).isSome)], true⟩
  | "plan" => some ⟨[verbose, helpName, switch "force"], [], true⟩
  | "graph" | "slots" | "clean" => some ⟨[verbose, helpName], [], false⟩
  | _ => none

def verbOf (name : String) (f : Found) : Verb :=
  match name with
  | "init" => .init (f.value? "name")
  | "build" => .build ⟨f.words, (f.value? "jobs").bind jobs?, f.has "fail-fast", f.has "force"⟩
  | "plan" => .plan ⟨f.words, none, false, f.has "force"⟩
  | "graph" => .graph
  | "slots" => .slots
  | _ => .clean

def Request.ofArguments? (args : List String) : Option Request :=
  match read globalGrammar (args.length + 1) .empty args with
  | .rejected => none
  | .help => some .help
  | .version => some .version
  | .go _ [] => none
  | .go top (name :: rest) =>
    if name = "help" then some .help
    else match grammar? name with
      | none => none
      | some g =>
        match read g (rest.length + 1) .empty rest with
        | .go f [] => some (.perform (top.has "verbose" || f.has "verbose") (verbOf name f))
        | .help => some .help
        | _ => none

end SlotBuild.CommandLine
