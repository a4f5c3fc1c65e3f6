import SlotBuild.Json

/-! Writing JSON with an entry or element on each line, two blanks deeper than what it is in. -/

namespace SlotBuild.JsonValue

def writeChar (c : Char) : List Char :=
  if c = '"' then ['\\', '"']
  else if c = '\\' then ['\\', '\\']
  else if c = '\x08' then ['\\', 'b']
  else if c = '\x0C' then ['\\', 'f']
  else if c = '\n' then ['\\', 'n']
  else if c = '\r' then ['\\', 'r']
  else if c = '\t' then ['\\', 't']
  else if c.toNat < 0x20 then
    ['\\', 'u', '0', '0', Nat.digitChar (c.toNat / 16), Nat.digitChar (c.toNat % 16)]
  else [c]

def writeString (s : String) : List Char := '"' :: s.toList.flatMap writeChar ++ ['"']

def newLine (depth : Nat) : List Char := '\n' :: List.replicate (2 * depth) ' '

/-- Parts between brackets, each on a line of its own; nothing stands between empty ones. -/
def bracketed (opening closing : Char) (depth : Nat) (parts : List (List Char)) : List Char :=
  if parts = [] then [opening, closing]
  else opening :: [','].intercalate (parts.map fun p => newLine (depth + 1) ++ p)
    ++ newLine depth ++ [closing]

mutual

def write (depth : Nat) : JsonValue → List Char
  | null => "null".toList
  | boolean b => if b then "true".toList else "false".toList
  | number text => text.map fun b => Char.ofNat b.toNat
  | string s => writeString s
  | garbled => writeString ""
  | array xs => bracketed '[' ']' depth (writeElements (depth + 1) xs)
  | object es => bracketed '{' '}' depth (writeEntries (depth + 1) es)

def writeElements (depth : Nat) : List JsonValue → List (List Char)
  | [] => []
  | x :: xs => write depth x :: writeElements depth xs

def writeEntries (depth : Nat) : List (Option String × JsonValue) → List (List Char)
  | [] => []
  | (k, x) :: es => (writeString (k.getD "") ++ [':', ' '] ++ write depth x) :: writeEntries depth es

end

def pretty (v : JsonValue) : String := String.ofList (write 0 v)

end SlotBuild.JsonValue
