import SlotBuild.Keyed
import SlotBuild.Utility.Files

/-! What a running script can see and change. -/

namespace SlotBuild.Shell

inductive Channel where
  | buffer (i : Nat)
  | file (k : Key)
  | discard
deriving DecidableEq, Repr

structure Variable where
  value : String
  exported : Bool
deriving DecidableEq, Repr

inductive Ending where
  | exit (status : Nat)
  | signal (number : Nat)
deriving DecidableEq, Repr

structure State where
  files : FileTree
  /-- Bytes on their way: pipes, captured output and opened input. -/
  buffers : List Utility.Input
  cwd : Key
  name : String
  process : Nat
  parameters : List String
  bindings : Keyed Variable
  channels : List (Nat × Channel)
  status : Nat
  /-- Whether a failed command ends the script. -/
  strict : Bool
  guarded : Bool
  ending : Option Ending

namespace State

def channel? (s : State) (descriptor : Nat) : Option Channel :=
  (s.channels.find? fun c => c.1 = descriptor).map (·.2)

def close (s : State) (descriptor : Nat) : State :=
  { s with channels := s.channels.filter fun c => c.1 ≠ descriptor }

def connect (s : State) (descriptor : Nat) (c : Channel) : State :=
  { s with channels := (descriptor, c) :: (s.close descriptor).channels }

def withBuffer (s : State) (b : Utility.Input) : Nat × State :=
  (s.buffers.length, { s with buffers := s.buffers ++ [b] })

def bufferAt (s : State) (i : Nat) : Utility.Input := (s.buffers[i]?).getD ⟨[], false⟩

def write (s : State) (descriptor : Nat) (b : Bytes) : State :=
  match s.channel? descriptor with
  | some (.buffer i) =>
    { s with buffers := s.buffers.set i { s.bufferAt i with content := (s.bufferAt i).content ++ b } }
  | some (.file k) =>
    match s.files.lookup k with
    | some (.file old) => { s with files := s.files.put k (.file (old ++ b)) }
    | _ => s
  | some .discard | none => s

def complain (s : State) (line : Nat) (message : String) : State :=
  s.write 2 (Bytes.ofString s!"{s.name}: {Decimal.text line}: {message}\n")

def input (s : State) : Utility.Input :=
  match s.channel? 0 with
  | some (.buffer i) => s.bufferAt i
  | _ => ⟨[], false⟩

def leave (s : State) (rest : Bytes) : State :=
  match s.channel? 0 with
  | some (.buffer i) => { s with buffers := s.buffers.set i { s.bufferAt i with content := rest } }
  | _ => s

def value? (s : State) (name : String) : Option String := (Keyed.get? name s.bindings).map (·.value)

def assign (s : State) (name value : String) : State :=
  let exported := ((Keyed.get? name s.bindings).map (·.exported)).getD false
  { s with bindings := Keyed.put name ⟨value, exported⟩ s.bindings }

def assignExported (s : State) (name value : String) : State :=
  { s with bindings := Keyed.put name ⟨value, true⟩ s.bindings }

def withStatus (s : State) (n : Nat) : State := { s with status := n }

def exit (s : State) (n : Nat) : State := { s with status := n, ending := some (.exit n) }

/-- The status once the script is over; `none` after a signal. -/
def finalStatus? (s : State) : Option Nat :=
  match s.ending with
  | some (.exit n) => some (n % 256)
  | some (.signal _) => none
  | none => some s.status

/-- What a copy of this shell leaves behind: files and buffers, and its end if by a signal. -/
def after (s child : State) : State :=
  { s with
    files := child.files
    buffers := child.buffers
    status := child.finalStatus?.getD s.status
    ending := match child.ending with
      | some (.signal n) => some (.signal n)
      | _ => s.ending }

/-- Carries out what a program wrote and left. -/
def absorb (s : State) (p : Utility.Progress) : State :=
  let s := { s with files := p.files, status := p.status }.leave p.rest
  p.writes.foldl (fun s w => s.write (if w.1 = .output then 1 else 2) w.2) s

def invocation (s : State) (name : String) (arguments : List String) : Utility.Invocation :=
  ⟨name, arguments, s.input, s.files, s.cwd⟩

end State

end SlotBuild.Shell
