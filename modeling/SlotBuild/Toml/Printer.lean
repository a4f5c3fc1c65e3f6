import SlotBuild.Binary64.Shortest
import SlotBuild.Toml.Key

/-! Writing a table as a configuration file. Tables and arrays of tables get headers, all else is
written behind its key; tables inside other arrays are written in braces. -/

namespace SlotBuild.Toml

def commaJoined (parts : List (List Char)) : List Char := [',', ' '].intercalate parts

/-- The elements of an array; if `spread`, two or more of them have a line each. -/
def writeElements (spread : Bool) (parts : List (List Char)) : List Char :=
  if spread && 2 ≤ parts.length then
    '[' :: parts.flatMap (fun p => "\n    ".toList ++ p ++ [',']) ++ "\n]".toList
  else '[' :: commaJoined parts ++ [']']

def writeBraces (pairs : List (List Char)) : List Char :=
  if pairs = [] then ['{', '}'] else ['{', ' '] ++ commaJoined pairs ++ [' ', '}']

def writePair (path value : List Char) : List Char := path ++ [' ', '=', ' '] ++ value

mutual

def writeValue (spread : Bool) : Value → List Char
  | .string s => quote s
  | .integer i => Decimal.intChars i
  | .float x => x.chars
  | .boolean b => if b then "true".toList else "false".toList
  | .datetime d => d.chars
  | .array xs => writeElements spread (writeEach spread xs)
  | .table es => writeBraces (writePairs spread es)

def writeEach (spread : Bool) : List Value → List (List Char)
  | [] => []
  | x :: xs => writeValue spread x :: writeEach spread xs

def writePairs (spread : Bool) : List (String × Value) → List (List Char)
  | [] => []
  | (k, x) :: es => writePair (writeKey k) (writeValue spread x) :: writePairs spread es

end

def hasHeader : Value → Bool
  | .table _ => true
  | .array xs => xs ≠ [] && xs.all Value.isTable
  | _ => false

def bodyOf (es : Entries) : Entries := es.filter fun e => !hasHeader e.2

def headerLine (repeated : Bool) (path : List String) : List Char :=
  if repeated then ['[', '['] ++ writePath path ++ [']', ']', '\n']
  else '[' :: writePath path ++ [']', '\n']

/-- The lines of a table: its header and the pairs that have none. A table that holds only tables
has no lines. -/
def ownLines (spread repeated : Bool) (path : List String) (es : Entries) : List Char :=
  let body := (writePairs spread (bodyOf es)).flatMap fun p => p ++ ['\n']
  if path = [] then body
  else if repeated || es.isEmpty || body ≠ [] then headerLine repeated path ++ body
  else []

mutual

def blocks (spread repeated : Bool) (path : List String) : Value → List (List Char)
  | .table es => ownLines spread repeated path es :: entryBlocks spread path es
  | .array xs => elementBlocks spread path xs
  | _ => []

def elementBlocks (spread : Bool) (path : List String) : List Value → List (List Char)
  | [] => []
  | x :: xs => blocks spread true path x ++ elementBlocks spread path xs

def entryBlocks (spread : Bool) (path : List String) : List (String × Value) → List (List Char)
  | [] => []
  | (k, x) :: es =>
    (if hasHeader x then blocks spread false (path ++ [k]) x else []) ++ entryBlocks spread path es

end

/-- A blank line stands before every header but a first one. -/
def write (spread : Bool) (es : Entries) : String :=
  String.ofList (['\n'].intercalate ((blocks spread false [] (.table es)).filter (· ≠ [])))

end SlotBuild.Toml
