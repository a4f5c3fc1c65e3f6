import SlotBuild.Bytes
import SlotBuild.Text.Decimal

/-! JSON values as they are written. A number is kept as its text; a string whose bytes or escapes
do not make text is garbled, which matters only where the text is wanted. -/

namespace SlotBuild

inductive JsonValue where
  | null
  | boolean (b : Bool)
  | number (text : Bytes)
  | string (s : String)
  | garbled
  | array (elements : List JsonValue)
  | object (entries : List (Option String × JsonValue))
deriving Repr

namespace JsonValue

def isDigit (b : UInt8) : Bool := 0x30 ≤ b && b ≤ 0x39

def natural (n : Nat) : JsonValue := .number (Bytes.ofString (Decimal.text n))

def word? : JsonValue → Option UInt64
  | number b =>
    if b.all isDigit then
      let n := b.foldl (fun n d => 10 * n + (d.toNat - 0x30)) 0
      if n < UInt64.size then some (UInt64.ofNat n) else none
    else none
  | _ => none

def string? : JsonValue → Option String
  | string s => some s
  | _ => none

def strings? : JsonValue → Option (List String)
  | array xs => xs.mapM string?
  | _ => none

def optional? : JsonValue → Option (Option String)
  | null => some none
  | string s => some (some s)
  | _ => none

end JsonValue

end SlotBuild
