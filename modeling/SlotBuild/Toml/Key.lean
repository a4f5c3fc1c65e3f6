import SlotBuild.Toml.Quoted

/-! Keys: bare words or quoted text, and paths of keys with dots between them. -/

namespace SlotBuild.Toml

def isBareChar (c : Char) : Bool :=
  ('A' ≤ c && c ≤ 'Z') || ('a' ≤ c && c ≤ 'z') || Decimal.isDigit c || c == '-' || c == '_'

structure KeyPath where
  parents : List String
  key : String
deriving DecidableEq, Repr

def bareKey? (cs : List Char) : Read :=
  let key := cs.takeWhile isBareChar
  if key = [] then none else some (key, cs.dropWhile isBareChar)

def key? : List Char → Read
  | '"' :: r => basicText? r
  | '\'' :: r => literalText? r
  | cs => bareKey? cs

/-- One or more of what `item` reads, with `sep` between them. -/
def separated? {α : Type} (item : List Char → Option (α × List Char)) (sep : Char) :
    Nat → List Char → Option (List α × List Char)
  | 0, _ => none
  | fuel + 1, cs => do
    let (x, r) ← item cs
    match r with
    | [] => some ([x], r)
    | c :: r' =>
      if c = sep then
        let (xs, r) ← separated? item sep fuel r'
        some (x :: xs, r)
      else some ([x], r)

def spacedKey? (cs : List Char) : Option (String × List Char) := do
  let (k, r) ← key? (cs.dropWhile isSpace)
  return (String.ofList k, r.dropWhile isSpace)

/-- A path may not be as long as this. -/
def nestingLimit : Nat := 80

def keyPath? (cs : List Char) : Option (KeyPath × List Char) := do
  let (keys, r) ← separated? spacedKey? '.' (cs.length + 1) cs
  if nestingLimit ≤ keys.length then none
  match keys.getLast? with
  | none => none
  | some k => some (⟨keys.dropLast, k⟩, r)

/-- Bare if it can be, else basic text unless that needs escapes and literal text does not. -/
def writeKey (s : String) : List Char :=
  let cs := s.toList
  let control := cs.any fun c => needsEscape c || c == '\n'
  if cs ≠ [] ∧ cs.all isBareChar then cs
  else if !control && !cs.contains '\\' && !cs.contains '"' then writeQuoted .basic cs
  else if !control && !cs.contains '\'' then writeQuoted .literal cs
  else writeQuoted .basic cs

def writePath (ks : List String) : List Char := ['.'].intercalate (ks.map writeKey)

end SlotBuild.Toml
