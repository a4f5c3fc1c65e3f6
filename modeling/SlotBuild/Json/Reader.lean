import SlotBuild.Json

/-! Reading JSON from bytes. -/

namespace SlotBuild.JsonValue

def isBlank (b : UInt8) : Bool := b == 0x20 || b == 0x09 || b == 0x0A || b == 0x0D

def skipBlanks (b : Bytes) : Bytes := b.dropWhile isBlank

/-- The bytes of a string and whether all its escapes denote characters. -/
structure Raw where
  bytes : Bytes
  sound : Bool

abbrev ReadRaw := Option (Raw × Bytes)

def Raw.prepend (bs : Bytes) (x : ReadRaw) : ReadRaw :=
  x.map fun p => (⟨bs ++ p.1.bytes, p.1.sound⟩, p.2)

def Raw.spoil (x : ReadRaw) : ReadRaw := x.map fun p => (⟨p.1.bytes, false⟩, p.2)

def hexOctet? (b : UInt8) : Option Nat := Bytes.hexValue? (Char.ofNat b.toNat)

def codeUnit? (a b c d : UInt8) : Option Nat := do
  return 4096 * (← hexOctet? a) + 256 * (← hexOctet? b) + 16 * (← hexOctet? c) + (← hexOctet? d)

def escaped? (b : UInt8) : Option UInt8 :=
  if b = 0x22 ∨ b = 0x5C ∨ b = 0x2F then some b
  else if b = 0x62 then some 0x08
  else if b = 0x66 then some 0x0C
  else if b = 0x6E then some 0x0A
  else if b = 0x72 then some 0x0D
  else if b = 0x74 then some 0x09
  else none

def utf8 (n : Nat) : Bytes := Bytes.ofString (String.singleton (Char.ofNat n))

def isHighUnit (n : Nat) : Bool := 0xD800 ≤ n && n < 0xDC00

def isLowUnit (n : Nat) : Bool := 0xDC00 ≤ n && n < 0xE000

def rawString? : Bytes → ReadRaw
  | [] => none
  | 0x22 :: r => some (⟨[], true⟩, r)
  | 0x5C :: 0x75 :: a :: b :: c :: d :: 0x5C :: 0x75 :: e :: f :: g :: h :: r => do
    let high ← codeUnit? a b c d
    if isHighUnit high then
      let low ← codeUnit? e f g h
      if isLowUnit low then
        Raw.prepend (utf8 (0x10000 + 0x400 * (high - 0xD800) + (low - 0xDC00))) (rawString? r)
      else Raw.spoil (rawString? (0x5C :: 0x75 :: e :: f :: g :: h :: r))
    else if isLowUnit high then Raw.spoil (rawString? (0x5C :: 0x75 :: e :: f :: g :: h :: r))
    else Raw.prepend (utf8 high) (rawString? (0x5C :: 0x75 :: e :: f :: g :: h :: r))
  | 0x5C :: 0x75 :: a :: b :: c :: d :: r => do
    let unit ← codeUnit? a b c d
    if isHighUnit unit || isLowUnit unit then Raw.spoil (rawString? r)
    else Raw.prepend (utf8 unit) (rawString? r)
  | 0x5C :: b :: r => do
    let x ← escaped? b
    Raw.prepend [x] (rawString? r)
  | b :: r => if b = 0x5C ∨ b < 0x20 then none else Raw.prepend [b] (rawString? r)

def Raw.text? (raw : Raw) : Option String := if raw.sound then Bytes.toString? raw.bytes else none

def digits? (b : Bytes) : Option (Bytes × Bytes) :=
  let ds := b.takeWhile isDigit
  if ds = [] then none else some (ds, b.dropWhile isDigit)

/-- The whole part of a number; a zero in front stands alone. -/
def wholePart? (b : Bytes) : Option (Bytes × Bytes) := do
  let (ds, r) ← digits? b
  if ds.head? = some 0x30 ∧ ds.length ≠ 1 then none else some (ds, r)

def fractionPart? : Bytes → Option (Bytes × Bytes)
  | 0x2E :: r => (digits? r).map fun p => (0x2E :: p.1, p.2)
  | b => some ([], b)

def exponentPart? : Bytes → Option (Bytes × Bytes)
  | [] => some ([], [])
  | e :: r =>
    if e = 0x65 ∨ e = 0x45 then
      match r with
      | [] => none
      | s :: t =>
        if s = 0x2B ∨ s = 0x2D then (digits? t).map fun p => (e :: s :: p.1, p.2)
        else (digits? (s :: t)).map fun p => (e :: p.1, p.2)
    else some ([], e :: r)

def number? (b : Bytes) : Option (JsonValue × Bytes) := do
  let sign := if b.head? = some 0x2D then [0x2D] else []
  let (whole, r) ← wholePart? (b.drop sign.length)
  let (fraction, r) ← fractionPart? r
  let (exponent, r) ← exponentPart? r
  return (.number (sign ++ whole ++ fraction ++ exponent), r)

def word (w : String) (v : JsonValue) (b : Bytes) : Option (JsonValue × Bytes) :=
  let w := Bytes.ofString w
  if w.isPrefixOf b then some (v, b.drop w.length) else none

abbrev ReadValue := Bytes → Option (JsonValue × Bytes)

def elements? (value : ReadValue) : Nat → Bytes → Option (List JsonValue × Bytes)
  | 0, _ => none
  | fuel + 1, b => do
    let (v, r) ← value b
    match skipBlanks r with
    | 0x2C :: r => do
      let (vs, r) ← elements? value fuel r
      some (v :: vs, r)
    | 0x5D :: r => some ([v], r)
    | _ => none

def entry? (value : ReadValue) (b : Bytes) : Option ((Option String × JsonValue) × Bytes) := do
  match skipBlanks b with
  | 0x22 :: r => do
    let (raw, r) ← rawString? r
    match skipBlanks r with
    | 0x3A :: r => do
      let (v, r) ← value r
      some ((raw.text?, v), r)
    | _ => none
  | _ => none

def entries? (value : ReadValue) :
    Nat → Bytes → Option (List (Option String × JsonValue) × Bytes)
  | 0, _ => none
  | fuel + 1, b => do
    let (e, r) ← entry? value b
    match skipBlanks r with
    | 0x2C :: r => do
      let (es, r) ← entries? value fuel r
      some (e :: es, r)
    | 0x7D :: r => some ([e], r)
    | _ => none

def value? : Nat → ReadValue
  | 0, _ => none
  | depth + 1, b =>
    match skipBlanks b with
    | [] => none
    | 0x22 :: r => do
      let (raw, r) ← rawString? r
      return (match raw.text? with
        | some s => .string s
        | none => .garbled, r)
    | 0x5B :: r =>
      match skipBlanks r with
      | 0x5D :: r => some (.array [], r)
      | r => (elements? (value? depth) (r.length + 1) r).map fun p => (.array p.1, p.2)
    | 0x7B :: r =>
      match skipBlanks r with
      | 0x7D :: r => some (.object [], r)
      | r => (entries? (value? depth) (r.length + 1) r).map fun p => (.object p.1, p.2)
    | c :: r =>
      if c = 0x6E then word "null" .null (c :: r)
      else if c = 0x74 then word "true" (.boolean true) (c :: r)
      else if c = 0x66 then word "false" (.boolean false) (c :: r)
      else number? (c :: r)

def read? (b : Bytes) : Option JsonValue :=
  match value? (b.length + 1) b with
  | some (v, r) => if skipBlanks r = [] then some v else none
  | none => none

end SlotBuild.JsonValue
