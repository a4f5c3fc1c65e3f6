import SlotBuild.Proofs.Failure
import SlotBuild.Proofs.Json.RoundTrip
import SlotBuild.Proofs.Keyed
import SlotBuild.Record.Json

/-! The state file: a generation is read back as it was written. -/

namespace SlotBuild

open JsonValue

theorem mapM_map_some {α β : Type} {f : α → β} {g : β → Option α} (h : ∀ x, g (f x) = some x) (xs : List α) :
    (xs.map f).mapM g = some xs := by
  refine mapM_eq_some.mpr (List.forall₂_map_left_iff.mpr ?_)
  exact List.forall₂_same.mpr fun x _ => h x

namespace Record

theorem reads_toJson (r : Record) : Reads 3 r.toJson := by
  have hoptional : ∀ s, Reads 2 (optionalJson s) := by
    intro s
    cases s with
    | none => exact Reads.null.mono (by omega)
    | some s => exact (Reads.string s).mono (by omega)
  have hlocations : Reads 2 (.array (r.locations.map fun p => .string p.text)) :=
    Reads.array fun v hv => by
      obtain ⟨p, -, rfl⟩ := List.mem_map.mp hv
      exact .string p.text
  apply Reads.object
  intro e he
  simp only [List.mem_cons, List.not_mem_nil, or_false] at he
  rcases he with rfl | rfl | rfl | rfl | rfl | rfl
  · exact ⟨rfl, (Reads.string r.slot).mono (by omega)⟩
  · exact ⟨rfl, hlocations⟩
  · exact ⟨rfl, (Reads.string r.fingerprint).mono (by omega)⟩
  · exact ⟨rfl, hoptional _⟩
  · exact ⟨rfl, hoptional _⟩
  · exact ⟨rfl, (Reads.natural _).mono (by omega)⟩

theorem ofJson?_toJson (r : Record) : ofJson? r.toJson = some r := by
  have hfields : fields? fieldNames r.toJson = some [some (.string r.slot),
      some (.array (r.locations.map fun p => .string p.text)), some (.string r.fingerprint),
      some (optionalJson r.inputFingerprint), some (optionalJson r.producer),
      some (natural r.createdAt.toNat)] := by
    simp [fields?, fieldNames, toJson]
  have hoptional : ∀ s, (optionalJson s).optional? = some s := by
    intro s
    cases s <;> rfl
  have hlocations : (JsonValue.array (r.locations.map fun p => .string p.text)).strings? =
      some (r.locations.map Path.text) := by
    have htexts : (r.locations.map fun p => JsonValue.string p.text) =
        (r.locations.map Path.text).map JsonValue.string := by
      rw [List.map_map]
      rfl
    have hone : ∀ s, (JsonValue.string s).string? = some s := fun s => rfl
    rw [strings?, htexts]
    exact mapM_map_some hone _
  have hpaths : r.locations.map (Path.mk ∘ Path.text) = r.locations := List.map_id r.locations
  simp [ofJson?, hfields, optionalField?, hoptional, hlocations, word?_natural, string?, hpaths]

end Record

namespace Generation

theorem reads_toJson (g : Generation) : Reads 6 g.toJson := by
  apply Reads.object
  intro e he
  simp only [List.mem_cons, List.not_mem_nil, or_false] at he
  rcases he with rfl | rfl
  · exact ⟨rfl, (Reads.natural _).mono (by omega)⟩
  · refine ⟨rfl, Reads.object fun e he => ?_⟩
    obtain ⟨x, -, rfl⟩ := List.mem_map.mp he
    refine ⟨rfl, Reads.array fun v hv => ?_⟩
    obtain ⟨r, -, rfl⟩ := List.mem_map.mp hv
    exact r.reads_toJson

theorem ofJson?_toJson (g : Generation) : ofJson? g.toJson = some g := by
  have hfields : fields? ["number", "records"] g.toJson = some [some (natural g.number.toNat),
      some (.object (g.records.map fun e => (some e.1, .array (e.2.map Record.toJson))))] := by
    simp [fields?, toJson]
  have hlist : ∀ rs : List Record, recordList? (.array (rs.map Record.toJson)) = some rs :=
    fun rs => mapM_map_some Record.ofJson?_toJson rs
  have hslots : slotsOf? (.object (g.records.map fun e => (some e.1, .array (e.2.map Record.toJson)))) =
      some g.records := by
    have hentries := mapM_map_some
      (f := fun e : String × List Record => (some e.1, JsonValue.array (e.2.map Record.toJson)))
      (g := fun e => do return (← e.1, ← recordList? e.2)) (fun e => by simp [hlist]) g.records
    rw [slotsOf?, hentries]
  simp [ofJson?, hfields, word?_natural, hslots, ofSlots, g.ordered.ofList_eq]

/-- Whatever is written is read back. -/
theorem ofBytes?_toBytes (g : Generation) : ofBytes? g.toBytes = some g := by
  have hread := g.reads_toJson.read?_pretty (by
    rw [toJson, write, writeEntries_eq_map, List.map_cons, encode_bracketed]
    have hline : (Bytes.encode (newLine (0 + 1))).length = 3 := rfl
    have hend : (Bytes.encode (newLine 0)).length = 1 := rfl
    have hopening : (String.utf8EncodeChar '{').length = 1 := rfl
    simp only [List.length_append, hline, hend, hopening]
    omega)
  simp [ofBytes?, toBytes, hread, ofJson?_toJson]

end Generation

end SlotBuild
