import SlotBuild.Proofs.Manifest.RoundTrip
import SlotBuild.Proofs.Toml.Spelling

/-! The text that a task's outputs depend on changes with every edit of the command, the
environment, the outputs and the settings of the task, and with no other edit. -/

namespace SlotBuild

open Toml (Value Entries)

theorem Placement.toValue_injective : Function.Injective Placement.toValue := by
  intro p q h
  have hstrings : Function.Injective Value.string := fun _ _ => Value.string.inj
  simp only [toValue, Value.table.injEq, List.cons.injEq, Prod.mk.injEq, Value.string.injEq,
    Value.array.injEq, true_and, and_true] at h
  obtain ⟨hslot, hpaths⟩ := h
  cases p
  cases q
  simp_all [hstrings.list_map.eq_iff]

namespace Recipe

variable {t u : Recipe}

/-- The table whose text the outputs of the task depend on. -/
def configEntries (t : Recipe) : Entries :=
  [("command", t.commandValue), ("env", t.envValue), ("outputs", t.outputsValue),
    ("config", .table t.config)]

theorem configText_eq (t : Recipe) : t.configText = Toml.write false t.configEntries := rfl

theorem commandValue_inj (h : t.commandValue = u.commandValue) : t.command = u.command := by
  have hstrings : Function.Injective Value.string := fun _ _ => Value.string.inj
  exact hstrings.list_map (Value.array.inj h)

theorem envValue_inj (h : t.envValue = u.envValue) : t.env = u.env := by
  have hentries : Function.Injective fun e : String × String => (e.1, Value.string e.2) := by
    rintro ⟨k, s⟩ ⟨j, r⟩ heq
    simpa using heq
  exact hentries.list_map (Value.table.inj h)

theorem outputsValue_inj (h : t.outputsValue = u.outputsValue) : t.outputs = u.outputs :=
  Placement.toValue_injective.list_map (Value.array.inj h)

theorem Tidy.sound_configEntries (h : t.Tidy) : (Value.table t.configEntries).Sound := by
  refine sound_table (by simp [configEntries]) ?_
  simp only [configEntries, List.forall_mem_cons]
  exact ⟨sound_strings _, h.sound_env, sound_array fun p _ => p.sound_toValue, h.sound_config,
    by simp⟩

theorem Tidy.config_inOrder (h : t.Tidy) : (Value.table t.config).InOrder :=
  ⟨h.config, Value.entriesInOrder_iff.mpr fun e he => (h.settings e he).2⟩

/-- Only the settings are arranged anew, behind the command. -/
theorem arranged_configEntries (houtputs : t.outputs ≠ []) :
    Toml.arranged (.table t.configEntries) = .table [("command", t.commandValue),
      ("env", t.envValue), ("outputs", t.outputsValue),
      ("config", Toml.arranged (.table t.config))] := by
  have hcommand : Toml.hasHeader t.commandValue = false := hasHeader_strings _
  have henv : Toml.hasHeader t.envValue = true := rfl
  have houtputs' : Toml.hasHeader t.outputsValue = true := hasHeader_tables houtputs fun _ => rfl
  have hconfig : Toml.hasHeader (.table t.config) = true := rfl
  have hsame : Toml.arranged t.outputsValue = t.outputsValue := arranged_array arranged_placement _
  rw [Toml.arranged, configEntries, Toml.arrangedTables_eq_map]
  simp [Toml.bodyOf, hcommand, henv, houtputs', hconfig, hsame, arranged_env]

theorem Tidy.configText_inj (ht : t.Tidy) (hu : u.Tidy) (htouts : t.outputs ≠ [])
    (huouts : u.outputs ≠ []) (h : t.configText = u.configText) :
    t.command = u.command ∧ t.env = u.env ∧ t.outputs = u.outputs ∧ t.config = u.config := by
  rw [configText_eq, configText_eq] at h
  have harranged := Toml.arranged_eq_of_write_eq ht.sound_configEntries hu.sound_configEntries h
  rw [arranged_configEntries htouts, arranged_configEntries huouts] at harranged
  simp only [Value.table.injEq, List.cons.injEq, Prod.mk.injEq, true_and, and_true] at harranged
  obtain ⟨hcommand, henv, houtputs, hconfig⟩ := harranged
  have hsorted := congrArg Value.sorted hconfig
  rw [ht.config_inOrder.sorted_arranged, hu.config_inOrder.sorted_arranged] at hsorted
  exact ⟨commandValue_inj hcommand, envValue_inj henv, outputsValue_inj houtputs,
    Value.table.inj hsorted⟩

end Recipe

namespace Manifest

variable {origin origin' text text' : String} {m n : Manifest} {t u : Recipe}

/-- All that such a text is about can be written, and two texts are equal exactly if they are about
the same command, environment, outputs and settings. -/
theorem configText_eq_iff (hm : parse origin text = .ok m) (ht : t ∈ m.tasks)
    (hn : parse origin' text' = .ok n) (hu : u ∈ n.tasks) :
    (Value.table t.configEntries).Sound ∧
    (t.configText = u.configText ↔
      t.command = u.command ∧ t.env = u.env ∧ t.outputs = u.outputs ∧ t.config = u.config) := by
  obtain ⟨_, _, _, hfaultm⟩ := parse_eq_ok.mp hm
  obtain ⟨_, _, _, hfaultn⟩ := parse_eq_ok.mp hn
  have htidy := (tidy_of_parse hm).tasks t ht
  have hutidy := (tidy_of_parse hn).tasks u hu
  refine ⟨htidy.sound_configEntries, ?_, ?_⟩
  · exact htidy.configText_inj hutidy (outputs_of_fault? hfaultm t ht).1
      (outputs_of_fault? hfaultn u hu).1
  · rintro ⟨hcommand, henv, houtputs, hconfig⟩
    simp only [Recipe.configText, Recipe.commandValue, Recipe.envValue, Recipe.outputsValue,
      hcommand, henv, houtputs, hconfig]

def levelText (header level limit : List Char) : List Char :=
  "[[task]]\n".toList ++ header ++ "command = [\"x\"]\n".toList
    ++ "outputs = [\x7bslot = \"s\", paths = [\"p\"]\x7d]\n".toList
    ++ "config = \x7blevel = ".toList ++ level ++ ", limit = ".toList ++ limit ++ "\x7d\n".toList

/-- The second recipe has another zero than the first, the third has other inputs. -/
def editedText : List Char :=
  levelText "id = \"a\"\n".toList "0.0".toList "nan".toList
    ++ levelText "id = \"b\"\n".toList "-0.0".toList "nan".toList
    ++ levelText "id = \"c\"\ninputs = [\"t\"]\nfingerprint_inputs = []\n".toList
      "0.0".toList "-nan".toList

def levelSettings (negative : Bool) : Entries :=
  [("level", .float (.zero negative)), ("limit", .float .nan)]

def isLevel (negative : Bool) : Entries → Bool
  | [("level", .float (.finite sign 0 (-1074))), ("limit", .float .nan)] => sign == negative
  | _ => false

theorem eq_of_isLevel {negative : Bool} {es : Entries} (h : isLevel negative es = true) :
    es = levelSettings negative := by
  unfold isLevel at h
  split at h
  · rw [← beq_iff_eq.mp h]
    rfl
  · cases h

def areEdited : List Recipe → Bool
  | [a, b, c] => isLevel false a.config && isLevel true b.config && isLevel false c.config &&
    a.command = c.command && a.env = c.env && a.outputs = c.outputs && a.inputs ≠ c.inputs
  | _ => false

theorem of_areEdited {ts : List Recipe} (h : areEdited ts = true) : ∃ a b c, ts = [a, b, c] ∧
    a.config = levelSettings false ∧ b.config = levelSettings true ∧
    c.config = levelSettings false ∧ a.command = c.command ∧ a.env = c.env ∧
    a.outputs = c.outputs ∧ a.inputs ≠ c.inputs := by
  unfold areEdited at h
  split at h
  case h_1 a b c =>
    simp only [Bool.and_eq_true, decide_eq_true_eq] at h
    obtain ⟨⟨⟨⟨⟨⟨ha, hb⟩, hc⟩, hcommand⟩, henv⟩, houtputs⟩, hinputs⟩ := h
    exact ⟨a, b, c, rfl, eq_of_isLevel ha, eq_of_isLevel hb, eq_of_isLevel hc, hcommand, henv,
      houtputs, hinputs⟩
  case h_2 => cases h

/-- The other zero changes the text; another name, other inputs and another NaN do not. -/
theorem configText_of_edited : ∃ m a b c,
    parse "kiln.toml" (String.ofList editedText) = .ok m ∧ m.tasks = [a, b, c] ∧
      a.inputs ≠ c.inputs ∧ a.configText = c.configText ∧ a.configText ≠ b.configText := by
  obtain ⟨m, hm, htest⟩ := exists_parse_ofList editedText (fun m => areEdited m.tasks) (by decide)
    (by decide +kernel) "kiln.toml"
  obtain ⟨a, b, c, htasks, ha, hb, hc, hcommand, henv, houtputs, hinputs⟩ := of_areEdited htest
  have hac := configText_eq_iff (t := a) (u := c) hm (by simp [htasks]) hm (by simp [htasks])
  have hab := configText_eq_iff (t := a) (u := b) hm (by simp [htasks]) hm (by simp [htasks])
  refine ⟨m, a, b, c, hm, htasks, hinputs, hac.2.mpr ?_, fun htext => ?_⟩
  · exact ⟨hcommand, henv, houtputs, ha.trans hc.symm⟩
  · obtain ⟨-, -, -, hconfig⟩ := hab.2.mp htext
    rw [ha, hb] at hconfig
    simp [levelSettings, Binary64.zero] at hconfig

end Manifest

end SlotBuild
