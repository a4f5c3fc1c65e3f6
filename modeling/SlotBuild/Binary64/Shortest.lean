import SlotBuild.Binary64

/-! The decimal with the fewest digits that reads back as a given number, and of those the nearest
one. It is written without an exponent. -/

namespace SlotBuild.Binary64

structure Digits where
  digits : Nat
  power : Int
deriving DecidableEq, Repr

def ratio (significand : Nat) (exponent : Int) : Nat × Nat :=
  if 0 ≤ exponent then (significand <<< exponent.toNat, 1)
  else (significand, 1 <<< (-exponent).toNat)

/-- How many digits a positive quotient has in front of the point; negative for zeros behind it. -/
def pointPlace (num den : Nat) : Int :=
  if den ≤ num then (Decimal.numeral (num / den)).length
  else 1 - (Decimal.numeral ((den + num - 1) / num - 1)).length

def readsBack (significand : Nat) (exponent : Int) (d : Digits) : Bool :=
  ofDecimal false d.digits d.power == .finite false significand exponent

/-- The decimals next to the quotient on the grid of `10 ^ power`, and whether the upper one is
nearer. -/
def neighbours (num den : Nat) (power : Int) : Digits × Digits × Bool :=
  let s := if 0 ≤ power then (num, den * Nat.pow 10 power.toNat) else (num * Nat.pow 10 (-power).toNat, den)
  let below := s.1 / s.2
  (⟨below, power⟩, ⟨below + 1, power⟩, decide (s.2 ≤ 2 * (s.1 % s.2)))

/-- The better of the neighbours that read back. -/
def onGrid? (significand : Nat) (exponent : Int) (power : Int) : Option Digits :=
  let r := ratio significand exponent
  let (low, high, up) := neighbours r.1 r.2 power
  let ok := readsBack significand exponent
  if up then
    if ok high then some high else if ok low then some low else none
  else if ok low then some low else if ok high then some high else none

def firstGrid? (significand : Nat) (exponent place : Int) : Nat → Nat → Option Digits
  | 0, _ => none
  | fuel + 1, k =>
    match onGrid? significand exponent (place - k) with
    | some d => some d
    | none => firstGrid? significand exponent place fuel (k + 1)

def exactDigits (significand : Nat) (exponent : Int) : Digits :=
  if 0 ≤ exponent then ⟨significand <<< exponent.toNat, 0⟩
  else ⟨significand * Nat.pow 5 (-exponent).toNat, exponent⟩

/-- Seventeen digits are always enough. -/
def shortest (significand : Nat) (exponent : Int) : Digits :=
  let r := ratio significand exponent
  (firstGrid? significand exponent (pointPlace r.1 r.2) 17 1).getD (exactDigits significand exponent)

def dropZeros : Nat → Digits → Digits
  | 0, d => d
  | fuel + 1, d =>
    if d.digits ≠ 0 ∧ d.digits % 10 = 0 ∧ d.power < 0 then dropZeros fuel ⟨d.digits / 10, d.power + 1⟩
    else d

/-- Digits on both sides of a point. -/
def positional (d : Digits) : List Char :=
  let cs := Decimal.numeral d.digits
  if 0 ≤ d.power then cs ++ List.replicate d.power.toNat '0' ++ ['.', '0']
  else
    let behind := (-d.power).toNat
    let all := List.replicate (behind + 1 - cs.length) '0' ++ cs
    all.take (all.length - behind) ++ '.' :: all.drop (all.length - behind)

def signed (negative : Bool) (cs : List Char) : List Char := if negative then '-' :: cs else cs

def chars : Binary64 → List Char
  | nan => ['n', 'a', 'n']
  | infinite negative => signed negative ['i', 'n', 'f']
  | finite negative significand exponent =>
    signed negative (if significand = 0 then ['0', '.', '0']
      else positional (dropZeros 20 (shortest significand exponent)))

def text (x : Binary64) : String := String.ofList x.chars

end SlotBuild.Binary64
