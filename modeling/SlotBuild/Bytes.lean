/-! Byte strings as lists of octets: text as UTF-8, hexadecimal digits, the reading of
ill-formed UTF-8 that puts one replacement character for each maximal bad piece. -/

namespace SlotBuild

abbrev Bytes := List UInt8

namespace Bytes

def ofString (s : String) : Bytes := s.toUTF8.data.toList

def toString? (b : Bytes) : Option String := String.fromUTF8? ⟨b.toArray⟩

theorem ofString_injective {s t : String} (h : ofString s = ofString t) : s = t := by
  apply String.toByteArray_inj.mp
  have : s.toUTF8.data = t.toUTF8.data := Array.toList_inj.mp h
  exact ByteArray.ext this

/-- A 64-bit count, least significant octet first. -/
def le64 (n : Nat) : Bytes := (List.range 8).map fun i => UInt8.ofNat (n >>> (8 * i))

@[simp] theorem length_le64 (n : Nat) : (le64 n).length = 8 := by simp [le64]

def hexDigit (n : Nat) : Char := (Nat.digitChar n)

def toHex (b : Bytes) : String :=
  String.ofList (b.flatMap fun x => [hexDigit (x.toNat / 16), hexDigit (x.toNat % 16)])

def hexValue? (c : Char) : Option Nat :=
  if '0' ≤ c ∧ c ≤ '9' then some (c.toNat - '0'.toNat)
  else if 'a' ≤ c ∧ c ≤ 'f' then some (c.toNat - 'a'.toNat + 10)
  else if 'A' ≤ c ∧ c ≤ 'F' then some (c.toNat - 'A'.toNat + 10)
  else none

def ofHexDigits? : List Char → Option Bytes
  | [] => some []
  | a :: b :: r => do
    let hi ← hexValue? a
    let lo ← hexValue? b
    return UInt8.ofNat (16 * hi + lo) :: (← ofHexDigits? r)
  | [_] => none

def isTail (b : UInt8) : Bool := 0x80 ≤ b && b ≤ 0xBF

/-- The octets that may follow the first octet `a` of a sequence of several. -/
def secondRange (a : UInt8) : UInt8 × UInt8 :=
  if a == 0xE0 then (0xA0, 0xBF) else if a == 0xED then (0x80, 0x9F)
  else if a == 0xF0 then (0x90, 0xBF) else if a == 0xF4 then (0x80, 0x8F) else (0x80, 0xBF)

def sequenceLength (a : UInt8) : Nat :=
  if a < 0x80 then 1 else if 0xC2 ≤ a && a ≤ 0xDF then 2 else if 0xE0 ≤ a && a ≤ 0xEF then 3
  else if 0xF0 ≤ a && a ≤ 0xF4 then 4 else 0

def replacement : Char := '\uFFFD'

def codePoint (lead : Nat) (tails : Bytes) : Char :=
  Char.ofNat (tails.foldl (fun n b => 64 * n + b.toNat % 64) lead)

/-- The first character of `a :: r` and how many octets it takes; a piece that starts no
character stands for the replacement character. -/
def firstChar (a : UInt8) (r : Bytes) : Char × Nat :=
  let second := r.head?.any fun b => (secondRange a).1 ≤ b && b ≤ (secondRange a).2
  let good := if second then 1 + ((r.drop 1).takeWhile isTail).length else 0
  match sequenceLength a with
  | 0 => (replacement, 1)
  | 1 => (Char.ofNat a.toNat, 1)
  | n + 2 =>
    if n + 1 ≤ good then
      (codePoint (a.toNat % (if n = 0 then 32 else if n = 1 then 16 else 8)) (r.take (n + 1)), n + 2)
    else (replacement, 1 + good)

def lossyFrom : Nat → Bytes → List Char
  | 0, _ => []
  | _, [] => []
  | fuel + 1, a :: r =>
    let (c, n) := firstChar a r
    c :: lossyFrom fuel (r.drop (n - 1))

/-- The text of `b`, with each ill-formed piece replaced. -/
def toStringLossy (b : Bytes) : String :=
  match toString? b with
  | some s => s
  | none => String.ofList (lossyFrom b.length b)

end Bytes

end SlotBuild
