import SlotBuild.Proofs.Bytes
import SlotBuild.Proofs.FileTree.Removal
import SlotBuild.Proofs.Manifest.RoundTrip
import SlotBuild.Proofs.Path.Ancestors
import SlotBuild.Project

/-! Cleaning a project removes what its state directory is by its text, whatever else lies there. A
state directory of names only is below the project, and contains what is written with these names
first. -/

namespace SlotBuild

open FileTree

namespace Path

/-- A relative path that never goes up. -/
structure Descends (q : Path) : Prop where
  relative : q.isAbsolute = false
  no_parent : ".." ∉ q.steps

def names (q : Path) : List String := q.steps.filter (· ≠ ".")

theorem empty_notMem_steps (q : Path) : "" ∉ q.steps := by simp [steps]

end Path

namespace FileTree

variable {t left : FileTree} {cwd k : Key} {p q : Path}

/-- The path leads neither to `k` nor to anything below it, nor through that. -/
def Avoids (cwd : Key) (q : Path) (k : Key) : Prop := ∀ j ∈ passed cwd q, ¬ k <+: j

theorem foldl_resolveStep {ps : List String} (hup : ".." ∉ ps) (hempty : "" ∉ ps) (k : Key) :
    ps.foldl resolveStep k = k ++ ps.filter (· ≠ ".") := by
  induction ps generalizing k with
  | nil => simp
  | cons s ps ih =>
    obtain ⟨hs, hps⟩ := not_or.mp (List.mem_cons.not.mp hup)
    obtain ⟨hs', hps'⟩ := not_or.mp (List.mem_cons.not.mp hempty)
    rw [List.foldl_cons, ih hps hps', resolveStep]
    by_cases hdot : s = "."
    · simp [hdot]
    · simp [hdot, Ne.symm hs, Ne.symm hs']

theorem lexical_join (hq : q.Descends) : lexical cwd (p.join q) = lexical cwd p ++ q.names := by
  obtain ⟨hsteps, habsolute⟩ := Path.join_relative p hq.relative
  rw [lexical, lexical, hsteps, List.foldl_append, origin, origin, habsolute, Path.names]
  exact foldl_resolveStep hq.no_parent q.empty_notMem_steps _

theorem foldl_mem_scanl (ps : List String) (k : Key) : ps.foldl resolveStep k ∈ ps.scanl resolveStep k := by
  induction ps generalizing k with
  | nil => simp
  | cons s ps ih =>
    rw [List.scanl_cons]
    exact List.mem_cons_of_mem _ (ih _)

theorem mem_passed_of_locate {through : Bool} {spot : Spot} (h : t.locate cwd through q = .ok spot)
    (hq : Plain t cwd q) : spot.key ∈ passed cwd q := by
  rw [(locate_of_plain h hq fun _ _ => rfl).1]
  exact foldl_mem_scanl _ _

theorem mem_scanl_append {ps qs : List String} {k j : Key} (h : j ∈ (ps ++ qs).scanl resolveStep k) :
    j ∈ ps.scanl resolveStep k ∨ j ∈ qs.scanl resolveStep (ps.foldl resolveStep k) := by
  induction ps generalizing k with
  | nil => exact Or.inr h
  | cons s ps ih =>
    rw [List.cons_append, List.scanl_cons] at h
    rw [List.scanl_cons, List.foldl_cons]
    rcases List.mem_cons.mp h with rfl | h
    · exact Or.inl List.mem_cons_self
    · exact (ih h).imp_left (List.mem_cons_of_mem _)

theorem prefix_of_mem_scanl {ps : List String} (hup : ".." ∉ ps) (hempty : "" ∉ ps) {k j : Key}
    (h : j ∈ ps.scanl resolveStep k) : j <+: ps.foldl resolveStep k := by
  induction ps generalizing k with
  | nil =>
    obtain rfl : j = k := by simpa using h
    exact List.prefix_rfl
  | cons s ps ih =>
    rw [List.scanl_cons] at h
    rcases List.mem_cons.mp h with rfl | h
    · rw [foldl_resolveStep hup hempty]
      exact List.prefix_append _ _
    · exact ih (fun hmem => hup (List.mem_cons_of_mem _ hmem))
        (fun hmem => hempty (List.mem_cons_of_mem _ hmem)) h

theorem mem_passed_join (hq : q.Descends) {j : Key} (hj : j ∈ passed cwd (p.join q)) :
    j ∈ passed cwd p ∨ j <+: lexical cwd (p.join q) := by
  obtain ⟨hsteps, habsolute⟩ := Path.join_relative p hq.relative
  rw [passed, hsteps, origin, habsolute] at hj
  rw [lexical, hsteps, List.foldl_append, origin, habsolute]
  exact (mem_scanl_append hj).imp_right (prefix_of_mem_scanl hq.no_parent q.empty_notMem_steps)

theorem avoids_join (hq : q.Descends) (hp : Avoids cwd p k) (hend : ¬ k <+: lexical cwd (p.join q)) :
    Avoids cwd (p.join q) k := by
  intro j hj hk
  rcases mem_passed_join hq hj with hj | hj
  · exact hp j hj hk
  · exact hend (hk.trans hj)

end FileTree

namespace Project

variable {t : FileTree} {cwd : Key} {root : Path} {p : Project}

theorem clean_snd (p : Project) (t : FileTree) (cwd : Key) :
    (p.clean t cwd).2 = (t.removeTree cwd p.stateDir).2 := by
  have hpresent : (t.removeTreeIfPresent cwd p.stateDir).2 = (t.removeTree cwd p.stateDir).2 := by
    rw [removeTreeIfPresent]
    split <;> simp only [*]
  rw [clean, ← hpresent]

theorem clean_congr {p' : Project} (h : p.stateDir = p'.stateDir) : p.clean t cwd = p'.clean t cwd := by
  rw [clean, clean, h]

theorem root_of_load (h : load t cwd root = .ok p) : p.root = root := by
  unfold load at h
  split at h
  · cases h
  · split at h
    case h_1 => cases h
    case h_2 hmake =>
      obtain ⟨catalog, -, hp⟩ := bind_eq_ok.mp hmake
      rw [← Except.ok.inj h, ← Except.ok.inj hp]

/-- A project is loaded from its manifest alone. -/
theorem load_congr {left : FileTree}
    (h : left.read cwd (root.join ⟨manifestFile⟩) = t.read cwd (root.join ⟨manifestFile⟩)) :
    load left cwd root = load t cwd root := by
  rw [load, load, readManifest, readManifest, h]

theorem exists_read_of_load (h : load t cwd root = .ok p) :
    ∃ content, t.read cwd (root.join ⟨manifestFile⟩) = .ok content := by
  cases hread : t.read cwd (root.join ⟨manifestFile⟩) with
  | ok content => exact ⟨content, rfl⟩
  | error e =>
    rw [load, readManifest, hread] at h
    cases h

/-- Cleaning a project removes what is below the directory that its state directory is by its text,
and at most that directory itself. Any path that avoids it leads where it has led, and the project
can be loaded as before. Which paths avoid a state directory of names only shows from their own
names. -/
theorem clean_keeps (hload : load t cwd root = .ok p) (hplain : Plain t cwd p.stateDir) :
    Removed t (p.clean t cwd).2 (lexical cwd p.stateDir) ∧
    (∀ k, t.entryAt cwd false p.stateDir = .ok (k, .dir) → k = lexical cwd p.stateDir ∧
      ∀ j, k <+: j → j ≠ k → (p.clean t cwd).2.lookup j = none) ∧
    (∀ q, Plain t cwd q → Avoids cwd q (lexical cwd p.stateDir) → ∀ through spot,
      (p.clean t cwd).2.locate cwd through q = .ok spot ↔ t.locate cwd through q = .ok spot) ∧
    (Plain t cwd (root.join ⟨manifestFile⟩) → Avoids cwd (root.join ⟨manifestFile⟩) (lexical cwd p.stateDir) →
      load (p.clean t cwd).2 cwd root = .ok p) ∧
    (Path.Descends ⟨p.manifest.build.stateDir⟩ → ∀ q : Path, q.Descends →
      (lexical cwd p.stateDir <+: lexical cwd (root.join q) ↔
        Path.names ⟨p.manifest.build.stateDir⟩ <+: q.names) ∧
      (Avoids cwd root (lexical cwd p.stateDir) → ¬ Path.names ⟨p.manifest.build.stateDir⟩ <+: q.names →
        Avoids cwd (root.join q) (lexical cwd p.stateDir))) := by
  have hremoved : Removed t (p.clean t cwd).2 (lexical cwd p.stateDir) := by
    rw [clean_snd]
    exact removed_removeTree hplain
  have hlocate : ∀ q, Plain t cwd q → Avoids cwd q (lexical cwd p.stateDir) → ∀ through spot,
      (p.clean t cwd).2.locate cwd through q = .ok spot ↔ t.locate cwd through q = .ok spot := by
    intro q hq havoids through spot
    have hsame : ∀ j ∈ passed cwd q, (p.clean t cwd).2.lookup j = t.lookup j :=
      fun j hj => hremoved.kept j (havoids j hj)
    exact ⟨fun h => (locate_of_plain h (hremoved.plain hq) fun j hj => (hsame j hj).symm).2,
      fun h => (locate_of_plain h hq hsame).2⟩
  refine ⟨hremoved, fun k hk => ⟨?_, fun j hj hne => ?_⟩, hlocate,
    fun hq havoids => ?_, fun hstate q hq => ?_⟩
  · obtain ⟨spot, hspot, rfl, -⟩ := entryAt_eq_ok.mp hk
    exact (locate_of_plain hspot hplain fun _ _ => rfl).1
  · rw [clean_snd]
    exact removeTree_empties hk hj hne
  · obtain ⟨content, hread⟩ := exists_read_of_load hload
    obtain ⟨spot, hspot, hfile, hslash⟩ := read_eq_ok.mp hread
    have hkept := hremoved.kept spot.key (havoids _ (mem_passed_of_locate hspot hq))
    have hread' := read_eq_ok.mpr ⟨spot, (hlocate _ hq havoids _ _).mpr hspot, hkept.trans hfile, hslash⟩
    rw [load_congr (hread'.trans hread.symm), hload]
  · have hdir : lexical cwd p.stateDir = lexical cwd root ++ Path.names ⟨p.manifest.build.stateDir⟩ := by
      rw [stateDir, root_of_load hload, lexical_join hstate]
    have hiff : lexical cwd p.stateDir <+: lexical cwd (root.join q) ↔
        Path.names ⟨p.manifest.build.stateDir⟩ <+: q.names := by
      rw [hdir, lexical_join hq, List.prefix_append_right_inj]
    exact ⟨hiff, fun hroot hnames => avoids_join hq hroot (hiff.not.mpr hnames)⟩

theorem load_of_parse {cs : List Char} {m : Manifest}
    (hread : t.read cwd (root.join ⟨manifestFile⟩) = .ok (Bytes.encode cs))
    (hparse : Manifest.parse (root.join ⟨manifestFile⟩).text (String.ofList cs) = .ok m)
    (hmake : ofManifest root m = .ok p) : load t cwd root = .ok p := by
  rw [load, readManifest, hread]
  simp only [Bytes.toString?_encode, hparse, hmake]

namespace Attic

def here : Path := ⟨"."⟩

def text (stateDir : String) : List Char :=
  "build=\x7bstate_dir=\"".toList ++ stateDir.toList ++
    "\"\x7d\nsource=[\x7bslot=\"dex\",paths=[\"src\"]\x7d]".toList

/-- A source in a directory of its own, and what is left of an earlier build in another. -/
def files (stateDir : String) : FileTree :=
  ⟨[(["kiln.toml"], .file (Bytes.encode (text stateDir))), (["src"], .dir), (["src", "a"], .file []),
    ([".kiln"], .dir), ([".kiln", "state.json"], .file [])]⟩

def declares (stateDir : String) (m : Manifest) : Bool :=
  m.build.stateDir == stateDir && m.sources == [⟨"dex", ["src"]⟩] && (ofManifest here m).toBool

theorem parse_default : ∃ m, Manifest.parse "./kiln.toml" (String.ofList (text ".kiln")) = .ok m ∧
    declares ".kiln" m = true :=
  Manifest.exists_parse_ofList (text ".kiln") (declares ".kiln") (by decide) (by decide +kernel) "./kiln.toml"

theorem parse_shared : ∃ m, Manifest.parse "./kiln.toml" (String.ofList (text "src")) = .ok m ∧
    declares "src" m = true :=
  Manifest.exists_parse_ofList (text "src") (declares "src") (by decide) (by decide +kernel) "./kiln.toml"

theorem exists_load {name : String}
    (h : ∃ m, Manifest.parse "./kiln.toml" (String.ofList (text name)) = .ok m ∧
    declares name m = true) : ∃ p, load (files name) [] here = .ok p ∧
      p.stateDir = here.join ⟨name⟩ ∧ p.supplies = [⟨"dex", [⟨"./src"⟩]⟩] := by
  obtain ⟨m, hparse, hdeclares⟩ := h
  simp only [declares, Bool.and_eq_true, beq_iff_eq] at hdeclares
  obtain ⟨⟨hstate, hsources⟩, hmake⟩ := hdeclares
  cases hp : ofManifest here m with
  | error e => simp [hp, Except.toBool] at hmake
  | ok p =>
    have hload : load (files name) [] here = .ok p := load_of_parse rfl hparse hp
    obtain ⟨catalog, -, hmade⟩ := bind_eq_ok.mp hp
    obtain rfl := Except.ok.inj hmade
    refine ⟨_, hload, by rw [stateDir, hstate], ?_⟩
    simp [hsources, Placement.supply]
    decide

/-- A project of which only the state directory is known. -/
def bare (stateDir : String) : Project :=
  ⟨here, ⟨⟨none, false, false, stateDir⟩, [], [], []⟩, Catalog.wellKnown, [], []⟩

theorem plain_files (name : String) (q : Path) : Plain (files name) [] q := by
  intro j _ target hlink
  by_cases hroot : j = []
  · simp [hroot] at hlink
  · rw [lookup, if_neg hroot] at hlink
    obtain ⟨e, he, hentry⟩ := Option.map_eq_some_iff.mp hlink
    have hmem := List.mem_of_find?_eq_some he
    simp only [files, List.mem_cons, List.not_mem_nil, or_false] at hmem
    rcases hmem with rfl | rfl | rfl | rfl | rfl <;> simp at hentry

theorem state_cleaned : ∃ p, load (files ".kiln") [] here = .ok p ∧ Plain (files ".kiln") [] p.stateDir ∧
    load (p.clean (files ".kiln") []).2 [] here = .ok p ∧
      (p.clean (files ".kiln") []).2.lookup ["src", "a"] = some (.file []) ∧
        (p.clean (files ".kiln") []).2.lookup [".kiln", "state.json"] = none := by
  obtain ⟨p, hload, hdir, -⟩ := exists_load parse_default
  have hplain := plain_files ".kiln" p.stateDir
  obtain ⟨hremoved, hempties, -, hloads, -⟩ := clean_keeps hload hplain
  have hlexical : lexical [] p.stateDir = [".kiln"] := by
    rw [hdir]
    decide
  have hentry : (files ".kiln").entryAt [] false p.stateDir = .ok ([".kiln"], .dir) := by
    rw [hdir]
    decide
  refine ⟨p, hload, hplain, hloads (plain_files _ _) ?_, ?_, ?_⟩
  · rw [hlexical]
    exact show ∀ j ∈ passed [] (here.join ⟨manifestFile⟩), ¬ [".kiln"] <+: j by decide
  · have hapart : ¬ lexical [] p.stateDir <+: ["src", "a"] := by
      rw [hlexical]
      decide
    exact (hremoved.kept ["src", "a"] hapart).trans (by decide)
  · exact (hempties _ hentry).2 _ (by decide) (by decide)

/-- A manifest may declare its source directory as its state directory. -/
theorem source_cleaned : ∃ p, load (files "src") [] here = .ok p ∧ p.supplies = [⟨"dex", [⟨"./src"⟩]⟩] ∧
    (files "src").lookup ["src", "a"] = some (.file []) ∧ (p.clean (files "src") []).1 = .ok true ∧
      (p.clean (files "src") []).2.lookup ["src", "a"] = none := by
  obtain ⟨p, hload, hdir, hsupplies⟩ := exists_load parse_shared
  refine ⟨p, hload, hsupplies, by decide, ?_, ?_⟩
  · rw [clean_congr (show p.stateDir = (bare "src").stateDir from hdir)]
    decide
  · rw [clean_congr (show p.stateDir = (bare "src").stateDir from hdir)]
    decide

end Attic

end Project

end SlotBuild
