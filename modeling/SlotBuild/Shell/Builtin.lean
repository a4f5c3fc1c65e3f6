import SlotBuild.Shell.State
import SlotBuild.Shell.Token
import SlotBuild.Utility.Condition
import SlotBuild.Utility.Format

/-! Commands that the shell carries out itself. An error in a special one ends the script. -/

namespace SlotBuild.Shell

abbrev Builtin := Nat → List String → State → State

def natural? (word : String) : Option Nat := Decimal.value? word.toList

def isName (s : String) : Bool := s.toList.head?.any isNameStart && s.toList.all isNameChar

namespace Builtin

def succeed : Builtin := fun _ _ s => s.withStatus 0

/-- A complaint that ends the script. -/
def fail (line : Nat) (message : String) (s : State) : State := (s.complain line message).exit 2

def exit : Builtin := fun line args s =>
  match args with
  | [] => s.exit s.status
  | a :: _ =>
    match natural? a with
    | some n => s.exit (n % 256)
    | none => fail line s!"exit: Illegal number: {a}" s

def nameAndValue (word : String) : String × Option String :=
  let name := word.toList.takeWhile (· ≠ '=')
  match word.toList.drop name.length with
  | [] => (word, none)
  | _ :: value => (String.ofList name, some (String.ofList value))

def exportNames (line : Nat) : List String → State → State
  | [], s => s.withStatus 0
  | "-p" :: _, s => s.withStatus 0
  | a :: rest, s =>
    let (name, value) := nameAndValue a
    if !isName name then fail line s!"export: {name}: bad variable name" s
    else match value.or (s.value? name) with
      | some v => exportNames line rest (s.assignExported name v)
      | none => exportNames line rest s

def unset (line : Nat) : List String → State → State
  | [], s => s.withStatus 0
  | a :: rest, s =>
    if a = "-v" ∨ a = "-f" then unset line rest s
    else if !isName a then fail line s!"unset: {a}: bad variable name" s
    else unset line rest { s with bindings := s.bindings.filter fun v => v.1 ≠ a }

def knownFlags : List Char := "aCefnuvxIimqVEb".toList

def setFlags (on : Bool) (flags : List Char) (s : State) : State :=
  if flags.contains 'e' then { s with strict := on } else s

def set (line : Nat) : List String → State → State
  | [], s => s.withStatus 0
  | a :: rest, s =>
    match a.toList with
    | ['-', '-'] => { s with parameters := rest }.withStatus 0
    | sign :: c :: cs =>
      if sign == '-' || sign == '+' then
        match (c :: cs).find? fun x => !knownFlags.contains x with
        | some bad => fail line s!"set: Illegal option {String.ofList [sign, bad]}" s
        | none => set line rest (setFlags (sign == '-') (c :: cs) s)
      else { s with parameters := a :: rest }.withStatus 0
    | _ => { s with parameters := a :: rest }.withStatus 0

def shift : Builtin := fun line args s =>
  let count := args.head?.getD "1"
  match natural? count with
  | none => fail line s!"shift: Illegal number: {count}" s
  | some n =>
    if s.parameters.length < n then fail line "shift: can't shift that many" s
    else { s with parameters := s.parameters.drop n }.withStatus 0

def cd : Builtin := fun line args s =>
  let target := (args.head?.or (s.value? "HOME")).getD ""
  if target = "" then s.withStatus 0
  else
    match s.files.entryAt s.cwd true ⟨target⟩ with
    | .ok (k, .dir) =>
      { s with cwd := k }.assign "PWD" (Utility.pathText k) |>.withStatus 0
    | _ => (s.complain line s!"cd: can't cd to {target}").withStatus 2

def signals : List (String × Nat) :=
  [("HUP", 1), ("INT", 2), ("QUIT", 3), ("ABRT", 6), ("KILL", 9), ("USR1", 10), ("SEGV", 11),
    ("USR2", 12), ("PIPE", 13), ("ALRM", 14), ("TERM", 15)]

def signal? (word : String) : Option Nat := (natural? word).or (signals.lookup word)

def killUsage : String :=
  "kill: Usage: kill [-s sigspec | -signum | -sigspec] [pid | job]... or\nkill -l [exitstatus]"

def killAll (line number : Nat) : List String → State → State
  | [], s => s
  | a :: rest, s =>
    match natural? a with
    | none => (s.complain line s!"kill: Illegal number: {a}").withStatus 2
    | some n =>
      if n ≠ s.process then
        killAll line number rest ((s.complain line "kill: No such process\n").withStatus 1)
      else if number = 0 then killAll line number rest s
      else { s with ending := some (.signal number) }

def kill : Builtin := fun line args s =>
  let (word, targets) := match args with
    | "-s" :: w :: rest => (w, rest)
    | a :: rest =>
      match a.toList with
      | '-' :: w => (String.ofList w, rest)
      | _ => ("TERM", args)
    | [] => ("TERM", [])
  match signal? word, targets with
  | none, _ =>
    (s.complain line s!"kill: invalid signal number or name: {word}").withStatus 2
  | _, [] => (s.complain line killUsage).withStatus 2
  | some n, targets => killAll line n targets (s.withStatus 0)

/-- A program that is part of the shell; its complaints name the line. -/
def inner (name : String) (f : Utility.Invocation → Utility.Progress) : Builtin := fun line args s =>
  s.absorb (f (s.invocation s!"{s.name}: {Decimal.text line}: {name}" args))

end Builtin

open Builtin in
def special? (name : String) : Option Builtin :=
  match name with
  | ":" | "trap" | "times" | "readonly" => some succeed
  | "exit" | "return" => some exit
  | "export" => some exportNames
  | "set" => some set
  | "shift" => some shift
  | "unset" => some unset
  | _ => none

open Builtin in
def ordinary? (name : String) : Option Builtin :=
  match name with
  | "true" | "wait" | "umask" => some succeed
  | "false" => some fun _ _ s => s.withStatus 1
  | "echo" => some (inner name (Utility.echo .shell))
  | "printf" => some (inner name (Utility.printf .shell))
  | "test" => some (inner name Utility.test)
  | "[" => some (inner name Utility.bracket)
  | "cd" => some cd
  | "pwd" => some (inner name Utility.pwd)
  | "kill" => some kill
  | _ => none

end SlotBuild.Shell
