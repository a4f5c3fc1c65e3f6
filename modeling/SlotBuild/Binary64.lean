import SlotBuild.Text.Decimal

/-! Floating-point numbers of 64 bits as exact values. A decimal is read by rounding the exact
quotient to the nearest such number, a half to the even neighbour. -/

namespace SlotBuild

/-- A finite number is `significand · 2 ^ exponent`. The significand has at most 53 bits, and it
has fewer only with the least exponent. -/
inductive Binary64 where
  | nan
  | infinite (negative : Bool)
  | finite (negative : Bool) (significand : Nat) (exponent : Int)
deriving DecidableEq, Repr

namespace Binary64

def precision : Nat := 53

def leastExponent : Int := -1074

def greatestExponent : Int := 971

def zero (negative : Bool) : Binary64 := .finite negative 0 leastExponent

/-- The integer nearest to a quotient, the even one of two. -/
def roundDiv (num den : Nat) : Nat :=
  let q := num / den
  let r := num % den
  if 2 * r < den then q else if den < 2 * r then q + 1 else if q % 2 = 0 then q else q + 1

/-- The quotient of the two numbers divided by `2 ^ e`, again as two numbers. -/
def scaled (num den : Nat) (e : Int) : Nat × Nat :=
  if 0 ≤ e then (num, den <<< e.toNat) else (num <<< (-e).toNat, den)

/-- The greatest power of two that is not above a positive quotient. -/
def floorLog (num den : Nat) : Int :=
  let guess : Int := (num.log2 : Int) - (den.log2 : Int)
  let s := scaled num den guess
  if s.2 ≤ s.1 then guess else guess - 1

def exponentFor (num den : Nat) : Int := max (floorLog num den - 52) leastExponent

def ofRounded (negative : Bool) (q : Nat) (e : Int) : Binary64 :=
  let carried := q = 1 <<< precision
  let q' := if carried then 1 <<< 52 else q
  let e' := if carried then e + 1 else e
  if greatestExponent < e' then .infinite negative else .finite negative q' e'

def ofRatio (negative : Bool) (num den : Nat) : Binary64 :=
  if num = 0 then zero negative
  else
    let e := exponentFor num den
    let s := scaled num den e
    ofRounded negative (roundDiv s.1 s.2) e

/-- A decimal `digits · 10 ^ power`. Far outside the range nothing is multiplied out. -/
def ofDecimal (negative : Bool) (digits : Nat) (power : Int) : Binary64 :=
  if digits = 0 then zero negative
  else if 400 ≤ power then .infinite negative
  else if power < -(400 + (digits.log2 : Int)) then zero negative
  else if 0 ≤ power then ofRatio negative (digits * Nat.pow 10 power.toNat) 1
  else ofRatio negative digits (Nat.pow 10 (-power).toNat)

/-- Equality of numbers: not a number equals nothing, and the zeros are equal. -/
def equals : Binary64 → Binary64 → Bool
  | nan, _ => false
  | _, nan => false
  | finite _ 0 _, finite _ 0 _ => true
  | x, y => x == y

end Binary64

end SlotBuild
