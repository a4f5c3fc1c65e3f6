import SlotBuild.Binary64.Shortest
import SlotBuild.Text.Visible
import SlotBuild.Toml.Value

/-! Reading typed data out of a table. A record may be written as a table, whose entries are read
in the order of the file, or as an array of its fields. The first problem is reported; missing
fields come after all others. -/

namespace SlotBuild

inductive Found where
  | string (s : String)
  | integer (i : Int)
  | float (x : Binary64)
  | boolean (b : Bool)
  | sequence
  | map
deriving DecidableEq, Repr

def floatName : Binary64 → String
  | .nan => "NaN"
  | x => x.text

def Found.name : Found → String
  | string s => s!"string {Visible.quote s}"
  | integer i => s!"integer `{Decimal.intText i}`"
  | float x => s!"floating point `{floatName x}`"
  | boolean b => s!"boolean `{b}`"
  | sequence => "sequence"
  | map => "map"

inductive ShapeError where
  | wrongType (found : Found) (expected : String)
  | wrongValue (found : Found) (expected : String)
  | missingField (name : String)
  | unknownVariant (name : String) (choices : List String)
  | tooShort (length : Nat) (record : String) (fields : Nat)
  | notAVariant
  | noElements
  | severalElements
  | expectedEmptyArray
  | expectedEmptyTable
  | expectedTable (found : String)
deriving DecidableEq, Repr

def choiceText (choices : List String) : String :=
  match choices.map fun c => s!"`{c}`" with
  | [a, b] => s!"expected {a} or {b}"
  | cs => "expected one of " ++ ", ".intercalate cs

def ShapeError.message : ShapeError → String
  | wrongType found expected => s!"invalid type: {found.name}, expected {expected}"
  | wrongValue found expected => s!"invalid value: {found.name}, expected {expected}"
  | missingField name => s!"missing field `{name}`"
  | unknownVariant name choices => s!"unknown variant `{name}`, {choiceText choices}"
  | tooShort length record fields =>
    s!"invalid length {length}, expected struct {record} with {fields} elements"
  | notAVariant => "wanted string or table"
  | noElements => "wanted exactly 1 element, found 0 elements"
  | severalElements => "wanted exactly 1 element, more than 1 element"
  | expectedEmptyArray => "expected empty array"
  | expectedEmptyTable => "expected empty table"
  | expectedTable found => s!"expected table, found {found}"

namespace Shape

abbrev Result (α : Type) := Except ShapeError α

/-- The key under which a date stands when it is read as a table. -/
def datetimeKey : String := "$__toml_private_datetime"

def found : Toml.Value → Found
  | .string s => .string s
  | .integer i => .integer i
  | .float x => .float x
  | .boolean b => .boolean b
  | .datetime _ => .map
  | .array _ => .sequence
  | .table _ => .map

def mismatch {α : Type} (expected : String) (v : Toml.Value) : Result α :=
  .error (.wrongType (found v) expected)

def string : Toml.Value → Result String
  | .string s => .ok s
  | v => mismatch "a string" v

def boolean : Toml.Value → Result Bool
  | .boolean b => .ok b
  | v => mismatch "a boolean" v

def count : Toml.Value → Result Nat
  | .integer i => if i < 0 then .error (.wrongValue (.integer i) "usize") else .ok i.toNat
  | v => mismatch "usize" v

def entries? : Toml.Value → Option Toml.Entries
  | .table es => some es
  | .datetime d => some [(datetimeKey, .string d.text)]
  | _ => none

def list {α : Type} (item : Toml.Value → Result α) : Toml.Value → Result (List α)
  | .array xs => xs.mapM item
  | v => mismatch "a sequence" v

def map {α : Type} (item : Toml.Value → Result α) (v : Toml.Value) : Result (Keyed α) :=
  match entries? v with
  | some es => do return Keyed.ofList (← es.mapM fun e => do return (e.1, ← item e.2))
  | none => mismatch "a map" v

def typeName : Toml.Value → String
  | .string _ => "string"
  | .integer _ => "integer"
  | .float _ => "float"
  | .boolean _ => "boolean"
  | .datetime _ => "datetime"
  | .array _ => "array"
  | .table _ => "inline table"

/-- What may stand beside the name of a variant that holds nothing. -/
def nothing : Toml.Value → Result Unit
  | .array xs => if xs.isEmpty then .ok () else .error .expectedEmptyArray
  | .table es => if es.isEmpty then .ok () else .error .expectedEmptyTable
  | v => .error (.expectedTable (typeName v))

def named {α : Type} (choices : List (String × α)) (s : String) : Result α :=
  match choices.find? fun c => c.1 = s with
  | some c => .ok c.2
  | none => .error (.unknownVariant s (choices.map (·.1)))

/-- One of several names, alone or as the only key of a table. -/
def variant {α : Type} (choices : List (String × α)) : Toml.Value → Result α
  | .string s => named choices s
  | .table [] => .error .noElements
  | .table [(k, v)] => do
    let x ← named choices k
    nothing v
    return x
  | .table _ => .error .severalElements
  | _ => .error .notAVariant

structure RecordField (α : Type) where
  name : String
  required : Bool
  read : Toml.Value → α → Result α

def RecordField.of {α β : Type} (name : String) (required : Bool) (item : Toml.Value → Result β)
    (set : β → α → α) : RecordField α :=
  ⟨name, required, fun v x => do return set (← item v) x⟩

def readEntry {α : Type} (fields : List (RecordField α)) (x : α) (e : String × Toml.Value) : Result α :=
  match fields.find? fun f => f.name = e.1 with
  | some f => f.read e.2 x
  | none => .ok x

def recordOfEntries {α : Type} (fields : List (RecordField α)) (start : α) (es : Toml.Entries) :
    Result α := do
  let x ← es.foldlM (readEntry fields) start
  match fields.find? fun f => f.required && !es.any fun e => e.1 = f.name with
  | some f => .error (.missingField f.name)
  | none => .ok x

/-- Elements that are left over do not matter. -/
def recordOfElements {α : Type} (record : String) (size : Nat) :
    List (RecordField α) → List Toml.Value → α → Result α
  | [], _, x => .ok x
  | f :: fs, v :: vs, x => do recordOfElements record size fs vs (← f.read v x)
  | f :: fs, [], x =>
    if f.required then .error (.tooShort (size - (f :: fs).length) record size)
    else recordOfElements record size fs [] x

def record {α : Type} (name : String) (fields : List (RecordField α)) (start : α) (v : Toml.Value) :
    Result α :=
  match v with
  | .array xs => recordOfElements name fields.length fields xs start
  | v =>
    match entries? v with
    | some es => recordOfEntries fields start es
    | none => mismatch s!"struct {name}" v

end Shape

end SlotBuild
