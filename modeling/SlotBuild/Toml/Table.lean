import SlotBuild.Toml.Key

/-! Tables that grow while a file is read. A table remembers how it came about, which decides
whether a later header or dotted key may still add to it. -/

namespace SlotBuild.Toml

inductive Origin where
  /-- Opened by a header of its own. -/
  | explicit
  /-- Named only on the way to a deeper header. -/
  | implied
  /-- Named only on the way of a dotted key. -/
  | dotted
deriving DecidableEq, Repr

/-- A value that is complete, or a table or array of tables that may grow. -/
inductive Node where
  | value (v : Value)
  | table (origin : Origin) (entries : List (String × Node))
  | tables (earlier : List Value) (last : List (String × Node))

abbrev Nodes := List (String × Node)

mutual

def Node.toValue : Node → Value
  | .value v => v
  | .table _ es => .table (entriesOf es)
  | .tables earlier last => .array (earlier ++ [.table (entriesOf last)])

def entriesOf : List (String × Node) → List (String × Value)
  | [] => []
  | (k, n) :: es => (k, n.toValue) :: entriesOf es

end

namespace Nodes

def get? (k : String) : Nodes → Option Node
  | [] => none
  | x :: r => if x.1 = k then some x.2 else get? k r

def replace (k : String) (n : Node) : Nodes → Nodes
  | [] => []
  | x :: r => if x.1 = k then (k, n) :: r else x :: replace k n r

def remove (k : String) (es : Nodes) : Nodes := es.filter fun e => e.1 ≠ k

/-- Changes the table that a path leads to and makes the missing tables on the way. An array of
tables is entered at its last element. A dotted key must not enter a table with a header. -/
def edit (dotted : Bool) (f : Origin → Nodes → Option Nodes) :
    List String → Origin → Nodes → Option Nodes
  | [], origin, es => f origin es
  | k :: path, _, es =>
    match get? k es with
    | none => do
      let made := if dotted then Origin.dotted else .implied
      let inner ← edit dotted f path made []
      return es ++ [(k, .table made inner)]
    | some (.value _) => none
    | some (.table origin inner) => do
      if dotted ∧ origin = .explicit then none
      let inner ← edit dotted f path origin inner
      return replace k (.table origin inner) es
    | some (.tables earlier last) => do
      let last ← edit dotted f path .explicit last
      return replace k (.tables earlier last) es

/-- A new entry; behind a dotted key only in a table that dotted keys made. -/
def addNew (behindDots : Bool) (k : String) (v : Value) (origin : Origin) (es : Nodes) :
    Option Nodes :=
  if behindDots ∧ origin ≠ .dotted then none
  else if (get? k es).isSome then none
  else some (es ++ [(k, .value v)])

def addPair (es : Nodes) (pair : KeyPath × Value) : Option Nodes :=
  edit true (addNew (!pair.1.parents.isEmpty) pair.1.key pair.2) pair.1.parents .explicit es

def addPairs (es : Nodes) (pairs : List (KeyPath × Value)) : Option Nodes := pairs.foldlM addPair es

/-- A header opens a new table, or one that is implied so far and moves to the end. -/
def openTable (k : String) (pairs : List (KeyPath × Value)) (es : Nodes) : Option Nodes :=
  match get? k es with
  | none => do return es ++ [(k, .table .explicit (← addPairs [] pairs))]
  | some (.table .implied inner) => do
    return remove k es ++ [(k, .table .explicit (← addPairs inner pairs))]
  | some _ => none

def appendTable (k : String) (pairs : List (KeyPath × Value)) (es : Nodes) : Option Nodes := do
  let body ← addPairs [] pairs
  match get? k es with
  | none => some (es ++ [(k, .tables [] body)])
  | some (.tables earlier last) =>
    some (replace k (.tables (earlier ++ [.table (entriesOf last)]) body) es)
  | some _ => none

end Nodes

def inlineTable? (pairs : List (KeyPath × Value)) : Option Value := do
  return .table (entriesOf (← Nodes.addPairs [] pairs))

structure Section where
  path : KeyPath
  repeated : Bool
  pairs : List (KeyPath × Value)

def Section.addTo (es : Nodes) (s : Section) : Option Nodes :=
  Nodes.edit false (fun _ => (if s.repeated then Nodes.appendTable else Nodes.openTable) s.path.key s.pairs)
    s.path.parents .explicit es

end SlotBuild.Toml
