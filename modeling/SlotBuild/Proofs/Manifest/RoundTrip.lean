import SlotBuild.Manifest.Write
import SlotBuild.Proofs.Manifest.Acceptance
import SlotBuild.Proofs.Toml.Limits

/-! A manifest is read back from the text that it is written as. -/

namespace SlotBuild

open Shape
open Toml (Value Entries)

section soundness

theorem sound_strings (ss : List String) : (Value.array (ss.map .string)).Sound := by
  rw [Value.Sound, Value.elementsSound_iff, List.forall_mem_map]
  exact fun _ _ => trivial

theorem sound_array {α : Type} {write : α → Value} {xs : List α} (h : ∀ x ∈ xs, (write x).Sound) :
    (Value.array (xs.map write)).Sound := by
  rwa [Value.Sound, Value.elementsSound_iff, List.forall_mem_map]

theorem sound_table {es : Entries} (hkeys : (es.map (·.1)).Nodup) (h : ∀ e ∈ es, e.2.Sound) :
    (Value.table es).Sound :=
  ⟨hkeys, Value.entriesSound_iff.mpr h⟩

theorem Placement.sound_toValue (p : Placement) : p.toValue.Sound := by
  refine sound_table (by simp) ?_
  simp only [List.forall_mem_cons]
  exact ⟨trivial, sound_strings p.paths, by simp⟩

theorem Slot.sound_toValue (s : Slot) : s.toValue.Sound :=
  sound_table (by simp) (by simp [Value.Sound])

theorem BuildSettings.sound_toValue {b : BuildSettings}
    (h : ∀ n : Nat, b.maxParallelism = some n → Toml.fitsInteger n = true) : b.toValue.Sound := by
  rw [BuildSettings.toValue]
  cases hn : b.maxParallelism with
  | none => exact sound_table (by simp) (by simp [Value.Sound])
  | some n => exact sound_table (by simp) (by simpa [Value.Sound] using h n hn)

theorem mem_entryUnless {empty : Bool} {k : String} {v : Value} {e : String × Value}
    (h : e ∈ entryUnless empty k v) :
    e = (k, v) := by
  rw [entryUnless] at h
  split at h
  · cases h
  · exact List.mem_singleton.mp h

theorem keys_entryUnless (empty : Bool) (k : String) (v : Value) :
    ((entryUnless empty k v).map (·.1)).Sublist [k] := by
  rw [entryUnless]
  split
  · exact List.nil_sublist _
  · exact List.Sublist.refl _

namespace Recipe

variable {t : Recipe}

theorem Tidy.sound_config (h : t.Tidy) : (Value.table t.config).Sound :=
  sound_table h.config.nodup fun e he => (h.settings e he).1

theorem Tidy.sound_env (h : t.Tidy) : t.envValue.Sound := by
  refine sound_table ?_ (List.forall_mem_map.mpr fun e _ => trivial)
  rw [List.map_map]
  exact h.env.nodup

def fingerprintEntries (t : Recipe) : Entries :=
  (t.fingerprintInputs.map fun ss => ("fingerprint_inputs", Value.array (ss.map .string))).toList

theorem sound_fingerprintEntries (t : Recipe) : ∀ e ∈ t.fingerprintEntries, e.2.Sound := by
  rw [fingerprintEntries]
  cases t.fingerprintInputs with
  | none => simp
  | some ss => simpa using sound_strings ss

theorem keys_fingerprintEntries (t : Recipe) :
    (t.fingerprintEntries.map (·.1)).Sublist ["fingerprint_inputs"] := by
  rw [fingerprintEntries]
  cases t.fingerprintInputs with
  | none => exact List.nil_sublist _
  | some ss => exact List.Sublist.refl _

theorem Tidy.sound_toValue (h : t.Tidy) : t.toValue.Sound := by
  rw [toValue, ← fingerprintEntries]
  refine sound_table ?_ ?_
  · have hkeys : ["id", "inputs", "outputs", "command", "env", "config",
        "fingerprint_inputs"].Nodup := by decide
    refine hkeys.sublist ?_
    simp only [List.map_append]
    exact (((List.Sublist.refl _).append (keys_entryUnless _ _ _)).append
      (keys_entryUnless _ _ _)).append t.keys_fingerprintEntries
  · simp only [List.forall_mem_append, List.forall_mem_cons]
    refine ⟨⟨⟨⟨trivial, sound_strings _, sound_array fun p _ => p.sound_toValue,
      sound_strings _, by simp⟩, ?_⟩, ?_⟩, t.sound_fingerprintEntries⟩
    · intro e he
      rw [mem_entryUnless he]
      exact h.sound_env
    · intro e he
      rw [mem_entryUnless he]
      exact h.sound_config

end Recipe

theorem Manifest.Tidy.sound_toEntries {m : Manifest} (h : m.Tidy) :
    (Value.table m.toEntries).Sound := by
  refine sound_table ?_ ?_
  · have hkeys : ["build", "slot", "source", "task"].Nodup := by decide
    refine hkeys.sublist ?_
    simp only [Manifest.toEntries, List.cons_append, List.map_cons, List.map_append]
    exact (((keys_entryUnless _ _ _).append (keys_entryUnless _ _ _)).append
      (keys_entryUnless _ _ _)).cons_cons "build"
  · simp only [Manifest.toEntries, List.cons_append, List.forall_mem_cons, List.forall_mem_append]
    refine ⟨BuildSettings.sound_toValue h.parallelism, ⟨?_, ?_⟩, ?_⟩
    · intro e he
      rw [mem_entryUnless he]
      exact sound_array fun s _ => s.sound_toValue
    · intro e he
      rw [mem_entryUnless he]
      exact sound_array fun p _ => p.sound_toValue
    · intro e he
      rw [mem_entryUnless he]
      exact sound_array fun t ht => (h.tasks t ht).sound_toValue

end soundness

section arranging

theorem hasHeader_strings (ss : List String) :
    Toml.hasHeader (.array (ss.map .string)) = false := by
  cases ss <;> simp [Toml.hasHeader, Value.isTable]

theorem hasHeader_tables {α : Type} {write : α → Value} {xs : List α} (hne : xs ≠ [])
    (h : ∀ x, (write x).isTable = true) : Toml.hasHeader (.array (xs.map write)) = true := by
  simp [Toml.hasHeader, hne, h]

/-- A table without tables in it is read back as it is. -/
theorem arranged_plain {es : Entries} (h : ∀ e ∈ es, Toml.hasHeader e.2 = false) :
    Toml.arranged (.table es) = .table es := by
  have hbody : Toml.bodyOf es = es := List.filter_eq_self.mpr (by simpa using h)
  have htables : Toml.arrangedTables es = [] := by
    rw [Toml.arrangedTables_eq_map, List.filter_eq_nil_iff.mpr (by simpa using h), List.map_nil]
  rw [Toml.arranged, hbody, htables, List.append_nil]

theorem arranged_placement (p : Placement) : Toml.arranged p.toValue = p.toValue := by
  refine arranged_plain ?_
  simp only [List.forall_mem_cons]
  exact ⟨rfl, hasHeader_strings p.paths, by simp⟩

theorem arranged_slot (s : Slot) : Toml.arranged s.toValue = s.toValue :=
  arranged_plain (by simp [Toml.hasHeader])

theorem arranged_settings (b : BuildSettings) : Toml.arranged b.toValue = b.toValue := by
  refine arranged_plain ?_
  cases b.maxParallelism <;> simp [Toml.hasHeader]

theorem arranged_env (t : Recipe) : Toml.arranged t.envValue = t.envValue :=
  arranged_plain (List.forall_mem_map.mpr fun _ _ => rfl)

theorem arranged_array {α : Type} {write : α → Value} (h : ∀ x, Toml.arranged (write x) = write x)
    (xs : List α) :
    Toml.arranged (.array (xs.map write)) = .array (xs.map write) := by
  rw [Toml.arranged, Toml.arrangedElements_eq_map, List.map_map]
  exact congrArg _ (List.map_congr_left fun x _ => h x)

/-- Entries all of which have headers, or none. -/
theorem bodyOf_entryUnless {empty : Bool} {k : String} {v : Value}
    (h : empty = false → Toml.hasHeader v = true) :
    Toml.bodyOf (entryUnless empty k v) = [] := by
  cases empty with
  | true => rfl
  | false => simp [entryUnless, Toml.bodyOf, h rfl]

theorem arrangedTables_entryUnless {empty : Bool} {k : String} {v : Value}
    (h : empty = false → Toml.hasHeader v = true) :
    Toml.arrangedTables (entryUnless empty k v) = entryUnless empty k (Toml.arranged v) := by
  cases empty with
  | true => rfl
  | false => simp [entryUnless, Toml.arrangedTables, h rfl]

theorem bodyOf_append (es fs : Entries) :
    Toml.bodyOf (es ++ fs) = Toml.bodyOf es ++ Toml.bodyOf fs := List.filter_append ..

theorem arrangedTables_append (es fs : Entries) :
    Toml.arrangedTables (es ++ fs) = Toml.arrangedTables es ++ Toml.arrangedTables fs := by
  simp [Toml.arrangedTables_eq_map]

/-- The entries of a recipe as they are read back: its outputs come late, and its environment and
settings last. -/
theorem arranged_recipe {t : Recipe} (houtputs : t.outputs ≠ []) : Toml.arranged t.toValue =
    .table (([("id", .string t.id), ("inputs", .array (t.inputs.map .string)),
        ("command", t.commandValue)] ++ t.fingerprintEntries) ++
      (("outputs", t.outputsValue) :: entryUnless t.env.isEmpty "env" t.envValue ++
        entryUnless t.config.isEmpty "config" (Toml.arranged (.table t.config)))) := by
  have htables : ∀ es : Entries, Toml.hasHeader (.table es) = true := fun _ => rfl
  have hfirst : Toml.bodyOf [("id", .string t.id), ("inputs", .array (t.inputs.map .string)),
        ("outputs", t.outputsValue), ("command", t.commandValue)] =
      [("id", .string t.id), ("inputs", .array (t.inputs.map .string)),
        ("command", t.commandValue)] ∧
      Toml.arrangedTables [("id", .string t.id), ("inputs", .array (t.inputs.map .string)),
        ("outputs", t.outputsValue), ("command", t.commandValue)] =
      [("outputs", t.outputsValue)] := by
    have houtputs' : Toml.hasHeader t.outputsValue = true := hasHeader_tables houtputs fun _ => rfl
    have hcommand : Toml.hasHeader t.commandValue = false := hasHeader_strings _
    have hid : Toml.hasHeader (.string t.id) = false := rfl
    have hsame : Toml.arranged t.outputsValue = t.outputsValue :=
      arranged_array arranged_placement _
    simp [Toml.bodyOf, Toml.arrangedTables, houtputs', hcommand, hid, hasHeader_strings, hsame]
  have hlast : Toml.bodyOf t.fingerprintEntries = t.fingerprintEntries ∧
      Toml.arrangedTables t.fingerprintEntries = [] := by
    rw [Recipe.fingerprintEntries]
    cases t.fingerprintInputs with
    | none => exact ⟨rfl, rfl⟩
    | some ss => simp [Toml.bodyOf, Toml.arrangedTables, hasHeader_strings]
  rw [Recipe.toValue, Toml.arranged, ← Recipe.fingerprintEntries]
  simp only [bodyOf_append, arrangedTables_append, hfirst, hlast,
    bodyOf_entryUnless fun _ => htables _, arrangedTables_entryUnless fun _ => htables _,
    List.append_nil]
  have henv : Toml.bodyOf (entryUnless t.env.isEmpty "env" t.envValue) = [] ∧
      Toml.arrangedTables (entryUnless t.env.isEmpty "env" t.envValue) =
      entryUnless t.env.isEmpty "env" t.envValue := by
    refine ⟨bodyOf_entryUnless fun _ => rfl, ?_⟩
    rw [arrangedTables_entryUnless fun _ => rfl, arranged_env]
  rw [henv.1, henv.2]
  simp

end arranging

section reading

variable {α : Type} {fields : List (RecordField α)} {x y : α}

/-- An entry that is left out where it says nothing new. -/
theorem foldlM_entryUnless {f : RecordField α} {empty : Bool} {k : String} {v : Value}
    (hfield : fields.find? (fun f => f.name = k) = some f)
    (hread : empty = false → f.read v x = .ok y) (hempty : empty = true → x = y) :
    (entryUnless empty k v).foldlM (readEntry fields) x = .ok y := by
  cases empty with
  | true =>
    rw [hempty rfl]
    rfl
  | false => simp [entryUnless, readEntry_field hfield, hread rfl]

theorem foldlM_cons_eq_ok {f : RecordField α} {k : String} {v : Value} {es : Entries} {z : α}
    (hfield : fields.find? (fun f => f.name = k) = some f) (hread : f.read v x = .ok y)
    (h : es.foldlM (readEntry fields) y = .ok z) :
    ((k, v) :: es).foldlM (readEntry fields) x = .ok z := by
  rw [List.foldlM_cons, readEntry_field hfield, hread]
  exact h

theorem foldlM_append_eq_ok {es fs : Entries} {z : α} (h : es.foldlM (readEntry fields) x = .ok y)
    (h' : fs.foldlM (readEntry fields) y = .ok z) :
    (es ++ fs).foldlM (readEntry fields) x = .ok z := by
  rw [List.foldlM_append, h]
  exact h'

theorem read_of {β : Type} {item : Value → Result β} {v : Value} {b : β} (h : item v = .ok b)
    (name : String) (required : Bool) (set : β → α → α) (x : α) :
    (RecordField.of name required item set).read v x = .ok (set b x) := by
  simp only [RecordField.of, h]
  rfl

theorem string_string (s : String) : string (.string s) = .ok s := rfl

theorem boolean_boolean (b : Bool) : boolean (.boolean b) = .ok b := rfl

namespace Manifest

theorem outputOf_toValue (p : Placement) : outputOf p.toValue = .ok p := by
  refine recordOfEntries_eq_ok ?_ (by simp [placementFields, RecordField.of])
  refine foldlM_cons_eq_ok rfl (read_of (string_string p.slot) ..) ?_
  exact foldlM_cons_eq_ok rfl (read_of (list_strings p.paths) ..) rfl

theorem sourceOf_toValue (p : Placement) : sourceOf p.toValue = .ok p := by
  refine recordOfEntries_eq_ok ?_ (by simp [placementFields, RecordField.of])
  refine foldlM_cons_eq_ok rfl (read_of (string_string p.slot) ..) ?_
  exact foldlM_cons_eq_ok rfl (read_of (list_strings p.paths) ..) rfl

theorem kind_name (k : Kind) :
    variant kinds (.string k.name) = .ok k := by cases k <;> exact named_name rfl

theorem cardinality_name (c : Cardinality) : variant cardinalities (.string c.name) = .ok c := by
  cases c <;> exact named_name rfl

theorem category_name (c : Category) :
    variant categories (.string c.name) = .ok c := by cases c <;> exact named_name rfl

theorem slotOf_toValue (s : Slot) : slotOf s.toValue = .ok s := by
  refine recordOfEntries_eq_ok ?_ (by simp [slotFields, RecordField.of])
  refine foldlM_cons_eq_ok rfl (read_of (string_string s.id) ..) ?_
  refine foldlM_cons_eq_ok rfl (read_of (kind_name s.kind) ..) ?_
  refine foldlM_cons_eq_ok rfl (read_of (cardinality_name s.cardinality) ..) ?_
  refine foldlM_cons_eq_ok rfl (read_of (category_name s.category) ..) ?_
  exact foldlM_cons_eq_ok rfl (read_of (boolean_boolean s.appendable) ..) rfl

theorem count_natCast (n : Nat) : count (.integer n) = .ok n := by
  rw [count, if_neg (Int.not_lt.mpr (Int.natCast_nonneg n)), Int.toNat_natCast]

theorem settings_toValue (b : BuildSettings) :
    record "BuildSettings" settingsFields .standard b.toValue = .ok b := by
  have hrest : ∀ n : Option Nat,
      [("fail_fast", .boolean b.failFast), ("force_rebuild_all", .boolean b.forceRebuildAll),
        ("state_dir", Value.string b.stateDir)].foldlM
        (readEntry settingsFields) ⟨n, false, false, ".kiln"⟩ =
      .ok ⟨n, b.failFast, b.forceRebuildAll, b.stateDir⟩ := by
    intro n
    refine foldlM_cons_eq_ok rfl (read_of (boolean_boolean b.failFast) ..) ?_
    refine foldlM_cons_eq_ok rfl (read_of (boolean_boolean b.forceRebuildAll) ..) ?_
    exact foldlM_cons_eq_ok rfl (read_of (string_string b.stateDir) ..) rfl
  refine recordOfEntries_eq_ok ?_ (by simp [settingsFields, RecordField.of])
  obtain ⟨n, failFast, forceRebuildAll, stateDir⟩ := b
  cases n with
  | none => exact hrest none
  | some n => exact foldlM_cons_eq_ok rfl (read_of (count_natCast n) ..) (hrest (some n))

theorem env_envValue {t : Recipe} (h : Keyed.Ordered t.env) :
    map string t.envValue = .ok t.env := by
  have hread : map string t.envValue = .ok (Keyed.ofList t.env) :=
    map_table (List.forall₂_map_left_iff.mpr (List.forall₂_same.mpr fun _ _ => ⟨rfl, rfl⟩))
  rw [hread, h.ofList_eq]

theorem config_arranged {t : Recipe} (h : t.Tidy) :
    map setting (Toml.arranged (.table t.config)) = .ok t.config := by
  have horder : ∀ e ∈ t.config, e.2.InOrder := fun e he => (h.settings e he).2
  have hsorted := Toml.ofList_arranged h.config horder fun e he => (horder e he).sorted_arranged
  rw [Toml.arranged, map_table, hsorted]
  exact List.forall₂_map_right_iff.mpr (List.forall₂_same.mpr fun _ _ => ⟨rfl, rfl⟩)

theorem recipeOf_arranged {t : Recipe} (h : t.Tidy) (houtputs : t.outputs ≠ []) :
    recipeOf (Toml.arranged t.toValue) = .ok t := by
  rw [arranged_recipe houtputs]
  refine recordOfEntries_eq_ok ?_ (by simp [recipeFields, RecordField.of])
  have hinputs : t.fingerprintEntries.foldlM (readEntry recipeFields)
      ⟨t.id, t.inputs, [], t.command, [], [], none⟩ =
      .ok ⟨t.id, t.inputs, [], t.command, [], [], t.fingerprintInputs⟩ := by
    rw [Recipe.fingerprintEntries]
    cases t.fingerprintInputs with
    | none => rfl
    | some ss => exact foldlM_cons_eq_ok rfl (read_of (list_strings ss) ..) rfl
  have houts : (("outputs", t.outputsValue) :: entryUnless t.env.isEmpty "env" t.envValue).foldlM
      (readEntry recipeFields) ⟨t.id, t.inputs, [], t.command, [], [], t.fingerprintInputs⟩ =
      .ok { t with config := [] } := by
    refine foldlM_cons_eq_ok rfl (read_of (list_map fun p _ => outputOf_toValue p) ..) ?_
    refine foldlM_entryUnless rfl (fun _ => read_of (env_envValue h.env) ..) fun hempty => ?_
    rw [List.isEmpty_iff.mp hempty]
  refine foldlM_append_eq_ok (foldlM_append_eq_ok ?_ hinputs) (foldlM_append_eq_ok houts ?_)
  · refine foldlM_cons_eq_ok rfl (read_of (string_string t.id) ..) ?_
    refine foldlM_cons_eq_ok rfl (read_of (list_strings t.inputs) ..) ?_
    exact foldlM_cons_eq_ok rfl (read_of (list_strings t.command) ..) rfl
  · refine foldlM_entryUnless rfl (fun _ => read_of (config_arranged h) ..) fun hempty => ?_
    rw [← List.isEmpty_iff.mp hempty]

variable {origin text : String} {m : Manifest}

/-- All of a manifest is in tables, so they are read back in their order. -/
theorem arranged_toEntries (m : Manifest) :
    Toml.bodyOf m.toEntries = [] ∧ Toml.arrangedTables m.toEntries =
      (("build", m.build.toValue) ::
        entryUnless m.slots.isEmpty "slot" (.array (m.slots.map Slot.toValue))) ++
      entryUnless m.sources.isEmpty "source" (.array (m.sources.map Placement.toValue)) ++
      entryUnless m.tasks.isEmpty "task"
        (.array (m.tasks.map fun t => Toml.arranged t.toValue)) := by
  have hslots : m.slots.isEmpty = false →
      Toml.hasHeader (.array (m.slots.map Slot.toValue)) = true := fun h =>
    hasHeader_tables (List.isEmpty_eq_false_iff.mp h) fun _ => rfl
  have hsources : m.sources.isEmpty = false →
      Toml.hasHeader (.array (m.sources.map Placement.toValue)) = true := fun h =>
    hasHeader_tables (List.isEmpty_eq_false_iff.mp h) fun _ => rfl
  have htasks : m.tasks.isEmpty = false →
      Toml.hasHeader (.array (m.tasks.map Recipe.toValue)) = true := fun h =>
    hasHeader_tables (List.isEmpty_eq_false_iff.mp h) fun _ => rfl
  have hbuild : Toml.hasHeader m.build.toValue = true := rfl
  have hfirst : Toml.bodyOf [("build", m.build.toValue)] = [] ∧
      Toml.arrangedTables [("build", m.build.toValue)] = [("build", m.build.toValue)] := by
    simp [Toml.bodyOf, Toml.arrangedTables, hbuild, arranged_settings]
  have hrecipes : Toml.arranged (.array (m.tasks.map Recipe.toValue)) =
      .array (m.tasks.map fun t => Toml.arranged t.toValue) := by
    rw [Toml.arranged, Toml.arrangedElements_eq_map, List.map_map]
    rfl
  have hentries : m.toEntries = [("build", m.build.toValue)] ++
      entryUnless m.slots.isEmpty "slot" (.array (m.slots.map Slot.toValue)) ++
      entryUnless m.sources.isEmpty "source" (.array (m.sources.map Placement.toValue)) ++
      entryUnless m.tasks.isEmpty "task" (.array (m.tasks.map Recipe.toValue)) := rfl
  rw [hentries]
  simp only [bodyOf_append, arrangedTables_append, hfirst, bodyOf_entryUnless hslots,
    bodyOf_entryUnless hsources, bodyOf_entryUnless htasks, arrangedTables_entryUnless hslots,
    arrangedTables_entryUnless hsources, arrangedTables_entryUnless htasks,
    arranged_array arranged_slot, arranged_array arranged_placement, hrecipes]
  simp

theorem ofEntries_arranged (h : m.Tidy) (houtputs : ∀ t ∈ m.tasks, t.outputs ≠ []) :
    ofEntries (Toml.bodyOf m.toEntries ++ Toml.arrangedTables m.toEntries) = .ok m := by
  have hrecipes : list recipeOf (.array (m.tasks.map fun t => Toml.arranged t.toValue)) =
      .ok m.tasks :=
    list_map fun t ht => recipeOf_arranged (h.tasks t ht) (houtputs t ht)
  rw [(arranged_toEntries m).1, (arranged_toEntries m).2, List.nil_append]
  refine recordOfEntries_eq_ok ?_ (by simp [fields, RecordField.of])
  have hslots : (("build", m.build.toValue) ::
      entryUnless m.slots.isEmpty "slot" (.array (m.slots.map Slot.toValue))).foldlM
      (readEntry fields) ⟨.standard, [], [], []⟩ = .ok ⟨m.build, m.slots, [], []⟩ := by
    refine foldlM_cons_eq_ok rfl (read_of (settings_toValue m.build) ..) ?_
    refine foldlM_entryUnless rfl (fun _ => read_of (list_map fun s _ => slotOf_toValue s) ..)
      fun hempty => ?_
    rw [List.isEmpty_iff.mp hempty]
  have hsources :
      (entryUnless m.sources.isEmpty "source" (.array (m.sources.map Placement.toValue))).foldlM
      (readEntry fields) ⟨m.build, m.slots, [], []⟩ = .ok ⟨m.build, m.slots, m.sources, []⟩ := by
    refine foldlM_entryUnless rfl (fun _ => read_of (list_map fun p _ => sourceOf_toValue p) ..)
      fun hempty => ?_
    rw [List.isEmpty_iff.mp hempty]
  refine foldlM_append_eq_ok (foldlM_append_eq_ok hslots hsources) ?_
  refine foldlM_entryUnless rfl (fun _ => read_of hrecipes ..) fun hempty => ?_
  rw [← List.isEmpty_iff.mp hempty]

theorem Tidy.toToml?_eq (h : m.Tidy) : m.toToml? = some m.toToml := by
  have hall : (m.build.maxParallelism.all fun n : Nat => Toml.fitsInteger n) = true :=
    (Option.all_eq_true _ _).mpr h.parallelism
  rw [toToml?, if_pos hall]

/-- A manifest that was read is read back from its own text, under any name. -/
theorem parse_toToml_eq (h : parse origin text = .ok m)
    (hfit : Toml.entriesFit 0 m.toEntries = true) (origin' : String) :
    parse origin' m.toToml = .ok m := by
  obtain ⟨_, _, _, hfault⟩ := parse_eq_ok.mp h
  have htidy := tidy_of_parse h
  exact parse_eq_ok.mpr ⟨_, Toml.read?_write htidy.sound_toEntries hfit true,
    ofEntries_arranged htidy (fun t ht => (outputs_of_fault? hfault t ht).1), hfault⟩

/-- Beyond the limits of the reader, a manifest is written as a text that is not read at all. -/
theorem parse_toToml_eq_error (h : parse origin text = .ok m)
    (hfit : Toml.entriesFit 0 m.toEntries = false) (origin' : String) :
    parse origin' m.toToml = .error (.malformed origin') := by
  have hunread : Toml.read? m.toToml = none :=
    Toml.read?_write_eq_none (tidy_of_parse h).sound_toEntries hfit true
  rw [parse, hunread]

theorem recipe_equals_self {t : Recipe} (h : Toml.entriesHoldNan t.config = false) :
    t.equals t = true := by
  have hconfig : Value.entriesEqual t.config t.config = true :=
    Value.entriesEqual_self fun e he => Value.equals_self (Toml.entriesHoldNan_iff.mp h e he)
  simp [Recipe.equals, hconfig]

theorem equals_self (h : ∀ t ∈ m.tasks, Toml.entriesHoldNan t.config = false) :
    m.equals m = true := by
  have htasks : ∀ ts : List Recipe, (∀ t ∈ ts, Toml.entriesHoldNan t.config = false) →
      recipesEqual ts ts = true := by
    intro ts hts
    induction ts with
    | nil => rfl
    | cons t ts ih =>
      obtain ⟨ht, hts⟩ := List.forall_mem_cons.mp hts
      rw [recipesEqual, recipe_equals_self ht, ih hts, Bool.and_true]
  simp [equals, htasks m.tasks h]

/-- A manifest that was read has a text. If it holds only numbers, it is equal to what the text is
read as, exactly if the text keeps within the limits of the reader. -/
theorem parse_toToml (h : parse origin text = .ok m)
    (hnumbers : ∀ t ∈ m.tasks, Toml.entriesHoldNan t.config = false) (origin' : String) :
    ∃ out, m.toToml? = some out ∧
      ((∃ n, parse origin' out = .ok n ∧ m.equals n = true) ↔
        Toml.entriesFit 0 m.toEntries = true) := by
  refine ⟨m.toToml, (tidy_of_parse h).toToml?_eq, ?_⟩
  constructor
  · rintro ⟨n, hn, -⟩
    by_contra hfit
    rw [parse_toToml_eq_error h (Bool.eq_false_iff.mpr hfit)] at hn
    cases hn
  · intro hfit
    have hread : parse origin' m.toToml = .ok m := parse_toToml_eq h hfit origin'
    exact ⟨m, hread, equals_self hnumbers⟩

/-- What a text is read as, if it passes the test, can be found by computation. -/
theorem exists_parse_ofList (cs : List Char) (test : Manifest → Bool)
    (hmark : cs.head? ≠ some '\uFEFF')
    (h : (((Toml.lines? (cs.length + 1) cs).bind Toml.tableOf?).any fun es =>
      match ofEntries es with
      | .ok m => m.fault?.isNone && test m
      | .error _ => false) = true)
    (origin : String) :
    ∃ m, parse origin (String.ofList cs) = .ok m ∧ test m = true := by
  cases hes : (Toml.lines? (cs.length + 1) cs).bind Toml.tableOf? with
  | none => simp [hes] at h
  | some es =>
    cases hm : ofEntries es with
    | error e => simp [hes, hm] at h
    | ok m =>
      obtain ⟨hfault, htest⟩ : m.fault? = none ∧ test m = true := by simpa [hes, hm] using h
      exact ⟨m, parse_eq_ok.mpr ⟨es, (Toml.read?_ofList hmark).trans hes, hm, hfault⟩, htest⟩

/-- A recipe with a setting behind a key of `n + 1` words. -/
def nestedText (n : Nat) : List Char :=
  "[[task]]\nid = \"a\"\ncommand = [\"x\"]\n".toList
    ++ "outputs = [\x7bslot = \"s\", paths = [\"p\"]\x7d]\n".toList
    ++ "[task.config]\nat = 07:30:00\n".toList ++ "list = [0.5, \x7b'odd key' = \"\"\x7d]\n".toList
    ++ (List.replicate n ['k', '.']).flatten ++ "k = 1\n".toList

/-- The longest key whose table can still be named in a header. -/
theorem parse_toToml_nested : ∃ m out n,
    parse "kiln.toml" (String.ofList (nestedText 77)) = .ok m ∧ m.toToml? = some out ∧
    parse "kiln.toml" out = .ok n ∧ m.equals n = true := by
  obtain ⟨m, hm, htest⟩ := exists_parse_ofList (nestedText 77)
    (fun m => Toml.entriesFit 0 m.toEntries && m.tasks.all fun t => !Toml.entriesHoldNan t.config)
    (by decide) (by decide +kernel) "kiln.toml"
  simp only [Bool.and_eq_true, List.all_eq_true, Bool.not_eq_true'] at htest
  obtain ⟨out, hout, hiff⟩ := parse_toToml hm htest.2 "kiln.toml"
  obtain ⟨n, hn, heq⟩ := hiff.mpr htest.1
  exact ⟨m, out, n, hm, hout, hn, heq⟩

/-- One word more, and the text that is written cannot be read. -/
theorem parse_toToml_too_deep :
    ¬∀ (origin text : String) (m : Manifest), parse origin text = .ok m →
    (∀ t ∈ m.tasks, Toml.entriesHoldNan t.config = false) →
    ∃ out n, m.toToml? = some out ∧ parse origin out = .ok n ∧ m.equals n = true := by
  intro hall
  obtain ⟨m, hm, htest⟩ := exists_parse_ofList (nestedText 78)
    (fun m => (!Toml.entriesFit 0 m.toEntries) && m.tasks.all fun t => !Toml.entriesHoldNan t.config)
    (by decide) (by decide +kernel) "kiln.toml"
  simp only [Bool.and_eq_true, List.all_eq_true, Bool.not_eq_true'] at htest
  obtain ⟨out, n, hout, hn, -⟩ := hall _ _ m hm htest.2
  rw [(tidy_of_parse hm).toToml?_eq] at hout
  rw [← Option.some.inj hout, parse_toToml_eq_error hm htest.1] at hn
  cases hn

end Manifest

end reading

end SlotBuild
