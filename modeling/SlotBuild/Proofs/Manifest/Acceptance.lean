import SlotBuild.Manifest.Read
import SlotBuild.Proofs.Manifest.Shape
import SlotBuild.Proofs.Toml.Acceptance
import SlotBuild.Proofs.Toml.Order

/-! What a manifest that was read is like: its numbers fit into the file format, its environments
and free settings are in the order of their keys, and each of its tasks has outputs. -/

namespace SlotBuild

open Shape

/-- A recipe with its maps as they are kept: by key, in every table of the settings. -/
structure Recipe.Tidy (t : Recipe) : Prop where
  env : Keyed.Ordered t.env
  config : Keyed.Ordered t.config
  settings : ∀ e ∈ t.config, e.2.Sound ∧ e.2.InOrder

structure Manifest.Tidy (m : Manifest) : Prop where
  parallelism : ∀ n : Nat, m.build.maxParallelism = some n → Toml.fitsInteger n = true
  tasks : ∀ t ∈ m.tasks, t.Tidy

namespace Manifest

theorem yields_count : Yields (fun n : Nat => Toml.fitsInteger n = true) count := by
  intro v n hv h
  cases v with
  | integer i =>
    simp only [count] at h
    split_ifs at h with hi
    obtain rfl := Except.ok.inj h
    rwa [Int.toNat_of_nonneg (Int.not_lt.mp hi)]
  | _ => cases h

theorem yields_setting : Yields (fun v => v.Sound ∧ v.InOrder) setting := by
  intro v w hv h
  obtain rfl := Except.ok.inj h
  exact ⟨hv.sorted, v.sorted_inOrder⟩

/-- Nothing is known about what is read. -/
theorem yields_any {α : Type} (item : Toml.Value → Result α) : Yields (fun _ => True) item :=
  fun _ _ _ _ => trivial

theorem yields_settings : Yields
    (fun b : BuildSettings => ∀ n : Nat, b.maxParallelism = some n → Toml.fitsInteger n = true)
    (record "BuildSettings" settingsFields .standard) := by
  refine yields_record ?_ (by simp [BuildSettings.standard]) _
  simp only [settingsFields, List.forall_mem_cons]
  refine ⟨RecordField.keeps_of yields_count ?_,
    RecordField.keeps_of (yields_any _) fun _ _ _ hb => hb,
    RecordField.keeps_of (yields_any _) fun _ _ _ hb => hb,
    RecordField.keeps_of (yields_any _) fun _ _ _ hb => hb, by simp⟩
  intro k b hk _ n hn
  rwa [← Option.some.inj hn]

theorem yields_recipe : Yields Recipe.Tidy recipeOf := by
  refine yields_record ?_ ⟨.nil, .nil, by simp⟩ _
  simp only [recipeFields, List.forall_mem_cons]
  refine ⟨RecordField.keeps_of (yields_any _) fun _ _ _ ht => ⟨ht.env, ht.config, ht.settings⟩,
    RecordField.keeps_of (yields_any _) fun _ _ _ ht => ⟨ht.env, ht.config, ht.settings⟩,
    RecordField.keeps_of (yields_any _) fun _ _ _ ht => ⟨ht.env, ht.config, ht.settings⟩,
    RecordField.keeps_of (yields_any _) fun _ _ _ ht => ⟨ht.env, ht.config, ht.settings⟩,
    RecordField.keeps_of (yields_map (yields_any _)) fun _ _ he ht =>
    ⟨he.1, ht.config, ht.settings⟩,
      RecordField.keeps_of (yields_map yields_setting) fun _ _ hc ht => ⟨ht.env, hc.1, hc.2⟩,
    RecordField.keeps_of (yields_any _) fun _ _ _ ht => ⟨ht.env, ht.config, ht.settings⟩, by simp⟩

theorem tidy_of_ofEntries {es : Toml.Entries} (hes : ∀ e ∈ es, e.2.Sound) {m : Manifest}
    (h : ofEntries es = .ok m) :
    m.Tidy := by
  refine recordOfEntries_keeps ?_ ⟨by simp [BuildSettings.standard], by simp⟩ hes h
  simp only [fields, List.forall_mem_cons]
  exact ⟨RecordField.keeps_of yields_settings fun _ _ hb hm => ⟨hb, hm.tasks⟩,
    RecordField.keeps_of (yields_any _) fun _ _ _ hm => ⟨hm.parallelism, hm.tasks⟩,
    RecordField.keeps_of (yields_any _) fun _ _ _ hm => ⟨hm.parallelism, hm.tasks⟩,
    RecordField.keeps_of (yields_list yields_recipe) fun _ _ ht hm => ⟨hm.parallelism, ht⟩, by simp⟩

variable {origin text : String} {m : Manifest}

theorem parse_eq_ok : parse origin text = .ok m ↔
    ∃ es, Toml.read? text = some es ∧ ofEntries es = .ok m ∧ m.fault? = none := by
  constructor
  · intro h
    rw [parse] at h
    cases hes : Toml.read? text with
    | none => simp [hes] at h
    | some es =>
      cases hn : ofEntries es with
      | error e => simp [hes, hn] at h
      | ok n =>
        cases hfault : n.fault? with
        | some fault => simp [hes, hn, hfault] at h
        | none =>
          obtain rfl : n = m := by simpa [hes, hn, hfault] using h
          exact ⟨es, rfl, hn, hfault⟩
  · rintro ⟨es, hes, hm, hfault⟩
    simp only [parse, hes, hm, hfault]

theorem exists_recipeFault?_eq_none {seen : List String} {ts : List Recipe}
    (h : recipesFault? seen ts = none) : ∀ t ∈ ts, ∃ seen', recipeFault? seen' t = none := by
  induction ts generalizing seen with
  | nil => simp
  | cons t ts ih =>
    rw [recipesFault?] at h
    split at h
    · cases h
    · exact List.forall_mem_cons.mpr ⟨⟨seen, ‹_›⟩, ih h⟩

theorem outputs_of_fault? (h : m.fault? = none) :
    ∀ t ∈ m.tasks, t.outputs ≠ [] ∧ ∀ o ∈ t.outputs, o.paths ≠ [] := by
  rw [fault?] at h
  split_ifs at h
  split at h
  case h_1 => cases h
  case h_2 hrecipes =>
    intro t ht
    obtain ⟨seen, hnone⟩ := exists_recipeFault?_eq_none hrecipes t ht
    rw [recipeFault?] at hnone
    split_ifs at hnone with _ _ _ hempty
    exact ⟨hempty, by simpa using hnone⟩

theorem tidy_of_parse (h : parse origin text = .ok m) : m.Tidy := by
  obtain ⟨es, hes, hm, -⟩ := parse_eq_ok.mp h
  exact tidy_of_ofEntries (Toml.Value.entriesSound_iff.mp (Toml.sound_of_read? hes).2) hm

end Manifest

end SlotBuild
