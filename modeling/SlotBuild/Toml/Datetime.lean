import SlotBuild.Text.Decimal

/-! Dates and times as configuration files write them: a day, a time of day, or both with an
optional offset. Seconds may have up to nine places, more are cut off. -/

namespace SlotBuild.Toml

structure Date where
  year : Nat
  month : Nat
  day : Nat
deriving DecidableEq, Repr

structure Time where
  hour : Nat
  minute : Nat
  second : Nat
  nanosecond : Nat
deriving DecidableEq, Repr

inductive Offset where
  | utc
  | minutes (m : Int)
deriving DecidableEq, Repr

inductive Datetime where
  | date (d : Date)
  | time (t : Time)
  | moment (d : Date) (t : Time) (offset : Option Offset)
deriving DecidableEq, Repr

def isLeap (year : Nat) : Bool := year % 4 == 0 && (year % 100 != 0 || year % 400 == 0)

def daysIn (year month : Nat) : Nat :=
  if month = 2 then if isLeap year then 29 else 28
  else if month = 4 ∨ month = 6 ∨ month = 9 ∨ month = 11 then 30 else 31

def fixedDigits? (n : Nat) (cs : List Char) : Option (Nat × List Char) :=
  if (cs.take n).length = n then (Decimal.value? (cs.take n)).map fun v => (v, cs.drop n) else none

def expect? (c : Char) : List Char → Option (List Char)
  | [] => none
  | x :: r => if x = c then some r else none

namespace Date

def ofChars? (cs : List Char) : Option (Date × List Char) := do
  let (year, cs) ← fixedDigits? 4 cs
  let (month, cs) ← fixedDigits? 2 (← expect? '-' cs)
  let (day, cs) ← fixedDigits? 2 (← expect? '-' cs)
  if 1 ≤ month ∧ month ≤ 12 ∧ 1 ≤ day ∧ day ≤ daysIn year month then some (⟨year, month, day⟩, cs)
  else none

def chars (d : Date) : List Char :=
  Decimal.padded 4 d.year ++ '-' :: Decimal.padded 2 d.month ++ '-' :: Decimal.padded 2 d.day

end Date

namespace Time

def fraction (cs : List Char) : Nat :=
  let kept := cs.take 9
  Decimal.value kept * Nat.pow 10 (9 - kept.length)

def ofChars? (cs : List Char) : Option (Time × List Char) := do
  let (hour, cs) ← fixedDigits? 2 cs
  let (minute, cs) ← fixedDigits? 2 (← expect? ':' cs)
  let (second, cs) ← fixedDigits? 2 (← expect? ':' cs)
  if ¬(hour ≤ 23 ∧ minute ≤ 59 ∧ second ≤ 60) then none
  match cs with
  | '.' :: r =>
    let places := r.takeWhile Decimal.isDigit
    if places = [] then none
    else some (⟨hour, minute, second, fraction places⟩, r.dropWhile Decimal.isDigit)
  | cs => some (⟨hour, minute, second, 0⟩, cs)

def places (nanosecond : Nat) : List Char :=
  ((Decimal.padded 9 nanosecond).reverse.dropWhile (· = '0')).reverse

def chars (t : Time) : List Char :=
  Decimal.padded 2 t.hour ++ ':' :: Decimal.padded 2 t.minute ++ ':' :: Decimal.padded 2 t.second
    ++ if t.nanosecond = 0 then [] else '.' :: places t.nanosecond

end Time

namespace Offset

def hoursAndMinutes? (cs : List Char) : Option (Nat × List Char) := do
  let (hour, cs) ← fixedDigits? 2 cs
  let (minute, cs) ← fixedDigits? 2 (← expect? ':' cs)
  if hour ≤ 23 ∧ minute ≤ 59 then some (60 * hour + minute, cs) else none

def ofChars? : List Char → Option (Offset × List Char)
  | 'Z' :: r => some (.utc, r)
  | 'z' :: r => some (.utc, r)
  | '+' :: r => (hoursAndMinutes? r).map fun x => (.minutes x.1, x.2)
  | '-' :: r => (hoursAndMinutes? r).map fun x => (.minutes (-(x.1 : Int)), x.2)
  | _ => none

def chars : Offset → List Char
  | utc => ['Z']
  | minutes m =>
    (if m < 0 then '-' else '+') :: Decimal.padded 2 (m.natAbs / 60)
      ++ ':' :: Decimal.padded 2 (m.natAbs % 60)

end Offset

namespace Datetime

def isSeparator (c : Char) : Bool := c == 'T' || c == 't' || c == ' '

def ofChars? (cs : List Char) : Option Datetime :=
  match Date.ofChars? cs with
  | some (d, []) => some (.date d)
  | some (d, c :: r) => do
    if !isSeparator c then none
    let (t, r) ← Time.ofChars? r
    match r with
    | [] => some (.moment d t none)
    | r =>
      match Offset.ofChars? r with
      | some (o, []) => some (.moment d t (some o))
      | _ => none
  | none =>
    match Time.ofChars? cs with
    | some (t, []) => some (.time t)
    | _ => none

def chars : Datetime → List Char
  | date d => d.chars
  | time t => t.chars
  | moment d t offset => d.chars ++ 'T' :: t.chars ++ (offset.map Offset.chars).getD []

def text (d : Datetime) : String := String.ofList d.chars

end Datetime

end SlotBuild.Toml
