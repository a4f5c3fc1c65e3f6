import SlotBuild.Text.Split
import SlotBuild.Toml.Value

/-! Numbers and the other values that are written as a single word. -/

namespace SlotBuild.Toml

/-- Digits with single underscores between them. -/
def digitGroups? (ok : Char → Bool) (cs : List Char) : Option (List Char) :=
  let groups := splitAtChar '_' cs
  if groups.all fun g => g ≠ [] && g.all ok then some groups.flatten else none

def splitSign : List Char → Bool × List Char
  | '-' :: r => (true, r)
  | '+' :: r => (false, r)
  | cs => (false, cs)

/-- Decimal digits; a zero in front stands alone. -/
def plainDigits? (cs : List Char) : Option (List Char) := do
  let ds ← digitGroups? Decimal.isDigit cs
  if ds.head? = some '0' ∧ ds ≠ ['0'] then none else some ds

def isHexDigit (c : Char) : Bool :=
  Decimal.isDigit c || ('a' ≤ c && c ≤ 'f') || ('A' ≤ c && c ≤ 'F')

def hexValue (c : Char) : Nat :=
  if Decimal.isDigit c then Decimal.digitValue c
  else if 'a' ≤ c then c.toNat - 'a'.toNat + 10 else c.toNat - 'A'.toNat + 10

def valueInBase (base : Nat) (cs : List Char) : Nat := cs.foldl (fun n c => base * n + hexValue c) 0

def isOctalDigit (c : Char) : Bool := '0' ≤ c && c ≤ '7'

def isBinaryDigit (c : Char) : Bool := c == '0' || c == '1'

def wholeNumber? : List Char → Option Int
  | '0' :: 'x' :: r => (digitGroups? isHexDigit r).map fun ds => (valueInBase 16 ds : Int)
  | '0' :: 'o' :: r => (digitGroups? isOctalDigit r).map fun ds => (valueInBase 8 ds : Int)
  | '0' :: 'b' :: r => (digitGroups? isBinaryDigit r).map fun ds => (valueInBase 2 ds : Int)
  | cs => do
    let (negative, r) := splitSign cs
    let n : Int := Decimal.value (← plainDigits? r)
    return if negative then -n else n

def integer? (cs : List Char) : Option Int := do
  let i ← wholeNumber? cs
  if fitsInteger i then some i else none

def isExponentMark (c : Char) : Bool := c == 'e' || c == 'E'

def exponent? : List Char → Option Int
  | [] => some 0
  | c :: r => do
    if !isExponentMark c then none
    let (negative, r) := splitSign r
    let n : Int := Decimal.value (← digitGroups? Decimal.isDigit r)
    return if negative then -n else n

/-- A number with a point, an exponent or both. Too large a number is refused, a negative one is
taken as infinite. -/
def decimalFloat? (cs : List Char) : Option Binary64 := do
  let (negative, r) := splitSign cs
  let whole ← plainDigits? (r.takeWhile fun c => c ≠ '.' ∧ !isExponentMark c)
  let tail := r.dropWhile fun c => c ≠ '.' ∧ !isExponentMark c
  let (places, tail) ← match tail with
    | [] => none
    | '.' :: t => do
      let places ← digitGroups? Decimal.isDigit (t.takeWhile fun c => !isExponentMark c)
      some (places, t.dropWhile fun c => !isExponentMark c)
    | t => some ([], t)
  let power ← exponent? tail
  let x := Binary64.ofDecimal negative (Decimal.value (whole ++ places)) (power - places.length)
  if x = .infinite false then none else some x

def specialFloat? (cs : List Char) : Option Binary64 :=
  match splitSign cs with
  | (negative, ['i', 'n', 'f']) => some (.infinite negative)
  | (_, ['n', 'a', 'n']) => some .nan
  | _ => none

def isWordChar (c : Char) : Bool :=
  Decimal.isDigit c || ('a' ≤ c && c ≤ 'z') || ('A' ≤ c && c ≤ 'Z')
    || c == '_' || c == '+' || c == '-' || c == '.' || c == ':'

def wordValue? (cs : List Char) : Option Value :=
  if cs = "true".toList then some (.boolean true)
  else if cs = "false".toList then some (.boolean false)
  else match specialFloat? cs with
    | some x => some (.float x)
    | none =>
      match Datetime.ofChars? cs with
      | some d => some (.datetime d)
      | none =>
        match decimalFloat? cs with
        | some x => some (.float x)
        | none => (integer? cs).map .integer

/-- Whether a word is a day and a time of day follows after one space. -/
def continuesWithTime (word rest : List Char) : Bool :=
  match Date.ofChars? word, rest with
  | some (_, []), ' ' :: c :: _ => Decimal.isDigit c
  | _, _ => false

def word? (cs : List Char) : Option (Value × List Char) :=
  let word := cs.takeWhile isWordChar
  let rest := cs.dropWhile isWordChar
  if continuesWithTime word rest then
    let more := rest.drop 1
    (wordValue? (word ++ ' ' :: more.takeWhile isWordChar)).map fun v =>
      (v, more.dropWhile isWordChar)
  else (wordValue? word).map fun v => (v, rest)

end SlotBuild.Toml
