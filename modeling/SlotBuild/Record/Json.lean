import SlotBuild.Json.Reader
import SlotBuild.Json.Printer
import SlotBuild.Record

/-! Generations as JSON. A structure may be an object, in which fields that are not known are
skipped, or an array of exactly its fields. -/

namespace SlotBuild

namespace JsonValue

/-- The fields of a structure by name. No known name may occur twice; an absent field is `none`. -/
def fields? (names : List String) : JsonValue → Option (List (Option JsonValue))
  | array xs => if xs.length = names.length then some (xs.map some) else none
  | object es =>
    if es.any fun e => e.1.isNone then none
    else if names.any fun n => 1 < (es.filter fun e => e.1 = some n).length then none
    else some (names.map fun n => (es.find? fun e => e.1 = some n).map (·.2))
  | _ => none

def optionalField? : Option JsonValue → Option (Option String)
  | none => some none
  | some v => v.optional?

end JsonValue

namespace Record

open JsonValue

def fieldNames : List String :=
  ["slot", "locations", "fingerprint", "input_fingerprint", "producer", "created_at"]

def ofJson? (v : JsonValue) : Option Record := do
  match ← fields? fieldNames v with
  | [some slot, some locations, some fingerprint, input, producer, some created] => do
    return ⟨← slot.string?, (← locations.strings?).map Path.mk, ← fingerprint.string?,
      ← optionalField? input, ← optionalField? producer, ← created.word?⟩
  | _ => none

def optionalJson (s : Option String) : JsonValue :=
  match s with
  | some s => .string s
  | none => .null

def toJson (r : Record) : JsonValue :=
  .object [(some "slot", .string r.slot),
    (some "locations", .array (r.locations.map fun p => .string p.text)),
    (some "fingerprint", .string r.fingerprint),
    (some "input_fingerprint", optionalJson r.inputFingerprint),
    (some "producer", optionalJson r.producer), (some "created_at", .natural r.createdAt.toNat)]

end Record

namespace Generation

open JsonValue

def recordList? : JsonValue → Option (List Record)
  | .array xs => xs.mapM Record.ofJson?
  | _ => none

def slotsOf? : JsonValue → Option (List (SlotId × List Record))
  | .object es => es.mapM fun e => do return (← e.1, ← recordList? e.2)
  | _ => none

/-- Of two lists for one slot the later counts. -/
def ofSlots (number : UInt64) (slots : List (SlotId × List Record)) : Generation :=
  ⟨number, Keyed.ofList slots, .ofList slots⟩

def ofJson? (v : JsonValue) : Option Generation := do
  match ← fields? ["number", "records"] v with
  | [some number, some records] => return ofSlots (← number.word?) (← slotsOf? records)
  | _ => none

def toJson (g : Generation) : JsonValue :=
  .object [(some "number", .natural g.number.toNat),
    (some "records", .object (g.records.map fun e => (some e.1, .array (e.2.map Record.toJson))))]

def ofBytes? (b : Bytes) : Option Generation := do ofJson? (← JsonValue.read? b)

def toBytes (g : Generation) : Bytes := Bytes.ofString g.toJson.pretty

end Generation

end SlotBuild
