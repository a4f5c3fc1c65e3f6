import SlotBuild.Binary64
import SlotBuild.Keyed
import SlotBuild.Toml.Datetime

/-! Values of a configuration file. A table lists its entries in the order in which they are
written. -/

namespace SlotBuild.Toml

inductive Value where
  | string (s : String)
  | integer (i : Int)
  | float (x : Binary64)
  | boolean (b : Bool)
  | datetime (d : Datetime)
  | array (elements : List Value)
  | table (entries : List (String × Value))
deriving Repr

abbrev Entries := List (String × Value)

def fitsInteger (i : Int) : Bool := Int64.minValue.toInt ≤ i && i ≤ Int64.maxValue.toInt

namespace Value

mutual

/-- Equality of content: floats as numbers, tables entry by entry. -/
def equals : Value → Value → Bool
  | string s, string t => s == t
  | integer i, integer j => i == j
  | float x, float y => x.equals y
  | boolean a, boolean b => a == b
  | datetime d, datetime e => d == e
  | array xs, array ys => elementsEqual xs ys
  | table es, table fs => entriesEqual es fs
  | _, _ => false

def elementsEqual : List Value → List Value → Bool
  | [], [] => true
  | x :: xs, y :: ys => x.equals y && elementsEqual xs ys
  | _, _ => false

def entriesEqual : List (String × Value) → List (String × Value) → Bool
  | [], [] => true
  | (j, x) :: es, (k, y) :: fs => j == k && x.equals y && entriesEqual es fs
  | _, _ => false

end

mutual

/-- The same value with the entries of every table in the order of their keys. -/
def sorted : Value → Value
  | array xs => .array (sortedElements xs)
  | table es => .table (Keyed.ofList (sortedEntries es))
  | v => v

def sortedElements : List Value → List Value
  | [] => []
  | x :: xs => x.sorted :: sortedElements xs

def sortedEntries : List (String × Value) → List (String × Value)
  | [] => []
  | (k, x) :: es => (k, x.sorted) :: sortedEntries es

end

def isTable : Value → Bool
  | table _ => true
  | _ => false

end Value

end SlotBuild.Toml
