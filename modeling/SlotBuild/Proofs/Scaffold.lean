import SlotBuild.Proofs.FileTree.Making
import SlotBuild.Scaffold

/-! A first project among the files that are there. It is not begun over a manifest, but its source
file and its ignore file are written whatever they replace. -/

namespace SlotBuild.Scaffold

open FileTree

variable {faults : Faults} {t s s' : FileTree} {cwd k : Key} {p dir : Path} {e : Entry} {name : String}

def manifestPath (dir : Path) : Path := dir.join ⟨Project.manifestFile⟩

def sourcePath (dir : Path) : Path := (dir.join ⟨"src"⟩).join ⟨"hello.txt"⟩

def ignorePath (dir : Path) : Path := dir.join ⟨".gitignore"⟩

/-- The directories that a first project needs are there. -/
def prepared (dir : Path) (t : FileTree) (cwd : Key) : FileTree := (t.ensureDir cwd (dir.join ⟨"src"⟩)).2

/-- What a write leaves of a text: all of it, or the part after which it was cut. -/
def Leaves (faults : Faults) (p : Path) (text : String) (b : Bytes) : Prop :=
  b = Bytes.ofString text ∨ ∃ n cause,
    faults.write p (Bytes.ofString text) = some (.cut n cause) ∧ b = (Bytes.ofString text).take n

/-- One of the texts has replaced a file that its path leads to. -/
def Replaced (faults : Faults) (s s' : FileTree) (cwd : Key) (texts : List (Path × String)) (k : Key) :
    Prop :=
  ∃ b p text spot, s.lookup k = some (.file b) ∧ (p, text) ∈ texts ∧ s.locate cwd true p = .ok spot ∧
    spot.key = k ∧ ∃ left, Leaves faults p text left ∧ s'.lookup k = some (.file left)

theorem writeWith_aside {text : String} {result : Except OsError Unit}
    (h : s.writeWith faults cwd p (Bytes.ofString text) = (result, s')) : s' = s ∨
      ∃ spot b, Leaves faults p text b ∧ s.locate cwd true p = .ok spot ∧
        (s.lookup spot.key = none ∨ ∃ old, s.lookup spot.key = some (.file old)) ∧
        s'.lookup spot.key = some (.file b) ∧ Aside s' s spot.key := by
  cases result with
  | ok _ =>
    obtain ⟨spot, hspot, hwritten⟩ := write_aside (writeWith_eq_ok h)
    exact Or.inr ⟨spot, _, Or.inl rfl, hspot, hwritten⟩
  | error e =>
    refine (writeWith_eq_error h).imp_right ?_
    rintro ⟨n, cause, hcut, hpart⟩
    obtain ⟨spot, hspot, hwritten⟩ := write_aside hpart
    exact ⟨spot, _, Or.inr ⟨n, cause, hcut, rfl⟩, hspot, hwritten⟩

theorem Replaced.cons {f : Path × String} {todo : List (Path × String)}
    (h : Replaced faults s s' cwd todo k) : Replaced faults s s' cwd (f :: todo) k := by
  obtain ⟨b, p, text, spot, hb, hmem, hrest⟩ := h
  exact ⟨b, p, text, spot, hb, List.mem_cons_of_mem f hmem, hrest⟩

/-- What was there before a write and is replaced after it had been replaced by that time. -/
theorem Replaced.of_aside {s'' : FileTree} {todo : List (Path × String)} {c : Key}
    (h : Replaced faults s' s'' cwd todo k) (haside : Aside s' s c)
    (hk : ∀ b, s'.lookup k = some (.file b) → ∃ old, s.lookup k = some (.file old)) :
    Replaced faults s s'' cwd todo k := by
  obtain ⟨b, p, text, spot, hb, hmem, hspot, hrest⟩ := h
  obtain ⟨old, hold⟩ := hk b hb
  exact ⟨old, p, text, spot, hold, hmem, haside.locate hspot, hrest⟩

theorem lookup_writeAll {todo : List (Path × String)} {result : Except ScaffoldError Unit}
    (h : writeAll faults cwd todo s = (result, s')) (hk : s.lookup k = some e) :
    s'.lookup k = some e ∨ Replaced faults s s' cwd todo k := by
  induction todo generalizing s e with
  | nil =>
    obtain rfl : s = s' := (Prod.mk.inj h).2
    exact Or.inl hk
  | cons f rest ih =>
    obtain ⟨p, text⟩ := f
    rw [writeAll] at h
    cases hwrite : s.writeWith faults cwd p (Bytes.ofString text) with
    | mk written left =>
      rw [hwrite] at h
      have hrest : ∀ x, left.lookup k = some x →
          s'.lookup k = some x ∨ Replaced faults left s' cwd rest k := by
        intro x hx
        cases written with
        | ok _ => exact ih h hx
        | error cause =>
          obtain rfl : left = s' := (Prod.mk.inj h).2
          exact Or.inl hx
      obtain rfl | ⟨spot, b, hleaves, hspot, hfree, hnew, haside⟩ := writeWith_aside hwrite
      · exact (hrest e hk).imp_right .cons
      · by_cases hhere : k = spot.key
        · subst hhere
          obtain ⟨old, hold⟩ := hfree.resolve_left (by simp [hk])
          right
          rcases hrest (.file b) hnew with hkept | hreplaced
          · exact ⟨old, p, text, spot, hold, List.mem_cons_self, hspot, rfl, b, hleaves, hkept⟩
          · exact (hreplaced.of_aside haside fun _ _ => ⟨old, hold⟩).cons
        · have hsame := haside.lookup_eq k hhere
          refine (hrest e (hsame.trans hk)).imp_right fun hreplaced => ?_
          exact (hreplaced.of_aside haside fun b hb => ⟨b, hsame.symm.trans hb⟩).cons

theorem prepared_grows (dir : Path) (t : FileTree) (cwd : Key) : Grows t (prepared dir t cwd) := by
  rw [prepared, ensureDir_snd]
  exact makeChain_grows t cwd _

theorem create_of_isThere (h : t.isThere cwd (manifestPath dir) = true) :
    create faults name dir t cwd = (.error (.exists (manifestPath dir)), t) := if_pos h

theorem create_of_not_isThere (h : ¬t.isThere cwd (manifestPath dir) = true) :
    create faults name dir t cwd =
      match t.ensureDir cwd (dir.join ⟨"src"⟩) with
      | (.error e, made) => (.error (.access e), made)
      | (.ok (), made) => writeAll faults cwd (texts name dir) made := if_neg h

theorem lookup_create (faults : Faults) (name : String) (dir : Path) (hk : t.lookup k = some e) :
    (create faults name dir t cwd).2.lookup k = some e ∨
      Replaced faults (prepared dir t cwd) (create faults name dir t cwd).2 cwd (texts name dir) k := by
  by_cases hthere : t.isThere cwd (manifestPath dir) = true
  · rw [create_of_isThere hthere]
    exact Or.inl hk
  · have hprepared := (prepared_grows dir t cwd).keeps hk
    rw [create_of_not_isThere hthere]
    cases hmade : t.ensureDir cwd (dir.join ⟨"src"⟩) with
    | mk result made =>
      rw [prepared, hmade] at hprepared ⊢
      cases result with
      | error _ => exact Or.inl hprepared
      | ok _ => exact lookup_writeAll rfl hprepared

/-- Every `..` on the way to the project leads back, and its manifest and its ignore file are no
links. -/
structure Sound (t : FileTree) (cwd : Key) (dir : Path) : Prop where
  rooted : Rooted t
  retraces : Retraces t cwd dir
  manifest : Unlinked t cwd (manifestPath dir)
  ignored : Unlinked t cwd (ignorePath dir)

namespace Sound

variable (h : Sound t cwd dir)
include h

theorem faithful_manifest : Faithful t (prepared dir t cwd) cwd (manifestPath dir) :=
  faithful_beside h.rooted h.retraces (by decide) (by decide) (by decide) h.manifest (ensureDir_mem t cwd _)

theorem faithful_ignore : Faithful t (prepared dir t cwd) cwd (ignorePath dir) :=
  faithful_beside h.rooted h.retraces (by decide) (by decide) (by decide) h.ignored (ensureDir_mem t cwd _)

theorem faithful_source : Faithful t (prepared dir t cwd) cwd (sourcePath dir) :=
  faithful_below h.rooted (h.retraces.join (by decide)) (Or.inl (Path.slashed_join (by decide) (by decide)))
    (by decide) (ensureDir_mem t cwd _)

end Sound

theorem entryAt_of_faithful {b : Bytes} {x : String} {spot : Spot} {d : Path}
    (h : Faithful t s cwd (d.join ⟨x⟩))
    (hx : Path.IsName x) (hspot : s.locate cwd true (d.join ⟨x⟩) = .ok spot)
    (hfile : s.lookup spot.key = some (.file b)) :
    t.entryAt cwd true (d.join ⟨x⟩) = .ok (spot.key, .file b) := by
  obtain ⟨hbefore, hsame⟩ := h _ _ _ hspot hfile (by simp)
  obtain ⟨-, -, -, hslash⟩ := locate_eq_ok.mp hspot
  exact entryAt_eq_ok.mpr ⟨spot, hbefore, rfl, hsame,
    Or.inr (hslash.trans (Path.slashed_join hx.no_slash hx.nonempty))⟩

/-- A first project leaves everything as it is where there is a manifest. Anywhere else it keeps
whatever is there, apart from files that the paths of its own files lead to: its manifest to none,
its source file and its ignore file to those that they have led to before. -/
theorem create_keeps (faults : Faults) (name : String) (dir : Path) (t : FileTree) (cwd : Key) :
    (t.isThere cwd (manifestPath dir) = true →
      create faults name dir t cwd = (.error (.exists (manifestPath dir)), t)) ∧
    (∀ k e, t.lookup k = some e → (create faults name dir t cwd).2.lookup k = some e ∨
      Replaced faults (prepared dir t cwd) (create faults name dir t cwd).2 cwd (texts name dir) k) ∧
    (Sound t cwd dir → ∀ k b, t.lookup k = some (.file b) →
      (create faults name dir t cwd).2.lookup k = some (.file b) ∨
        ∃ p ∈ [sourcePath dir, ignorePath dir], t.entryAt cwd true p = .ok (k, .file b)) := by
  refine ⟨create_of_isThere, fun k e hk => lookup_create faults name dir hk, fun hsound k b hk => ?_⟩
  by_cases hthere : t.isThere cwd (manifestPath dir) = true
  · rw [create_of_isThere hthere]
    exact Or.inl hk
  · refine (lookup_create faults name dir hk).imp_right ?_
    rintro ⟨old, p, text, spot, hold, hmem, hspot, rfl, -⟩
    rw [(prepared_grows dir t cwd).keeps hk] at hold
    have hpath : p ∈ [manifestPath dir, sourcePath dir, ignorePath dir] :=
      List.mem_map_of_mem (f := Prod.fst) hmem
    have hfile := (prepared_grows dir t cwd).keeps hk
    rcases List.mem_cons.mp hpath with rfl | hpath
    · have hmanifest := entryAt_of_faithful hsound.faithful_manifest (by decide) hspot hfile
      exact absurd (isThere_of_entryAt hmanifest) hthere
    · refine ⟨p, hpath, ?_⟩
      rcases List.mem_cons.mp hpath with rfl | hpath
      · exact entryAt_of_faithful hsound.faithful_source (by decide) hspot hfile
      · obtain rfl := List.mem_singleton.mp hpath
        exact entryAt_of_faithful hsound.faithful_ignore (by decide) hspot hfile

namespace Notes

/-- A directory with a file of its own. -/
def notes : FileTree := ⟨[(["notes"], .file (Bytes.ofString "mine"))]⟩

def begun : FileTree := ⟨[(["kiln.toml"], .file (Bytes.ofString "mine"))]⟩

theorem sound_notes : Sound notes [] ⟨"."⟩ where
  rooted := rooted_of_entries (by decide)
  retraces := retraces_of_notMem (by decide)
  manifest := unlinked_of_locate (show notes.locate [] false
    (manifestPath ⟨"."⟩) = .ok ⟨["kiln.toml"], true, false⟩ by decide) (by
    simp [show notes.lookup ["kiln.toml"] = none by decide])
  ignored := unlinked_of_locate (show notes.locate [] false
    (ignorePath ⟨"."⟩) = .ok ⟨[".gitignore"], true, false⟩ by decide) (by
    simp [show notes.lookup [".gitignore"] = none by decide])

theorem kept_notes : (begun.isThere [] (manifestPath ⟨"."⟩) = true ∧
      create .none "demo" ⟨"."⟩ begun [] = (.error (.exists (manifestPath ⟨"."⟩)), begun)) ∧
    Sound notes [] ⟨"."⟩ ∧ notes.isThere [] (manifestPath ⟨"."⟩) = false ∧
    (create .none "demo" ⟨"."⟩ notes []).2.lookup ["notes"] = some (.file (Bytes.ofString "mine")) := by
  have hbegun : begun.isThere [] (manifestPath ⟨"."⟩) = true := by decide
  refine ⟨⟨hbegun, (create_keeps .none "demo" ⟨"."⟩ begun []).1 hbegun⟩, sound_notes, by decide, ?_⟩
  rcases (create_keeps .none "demo" ⟨"."⟩ notes []).2.2 sound_notes ["notes"]
    (Bytes.ofString "mine") (by decide) with
    hkept | ⟨p, hp, hentry⟩
  · exact hkept
  · rcases List.mem_cons.mp hp with rfl | hp
    · rw [show notes.entryAt [] true (sourcePath ⟨"."⟩) = .error .notFound by decide] at hentry
      simp at hentry
    · obtain rfl := List.mem_singleton.mp hp
      rw [show notes.entryAt [] true (ignorePath ⟨"."⟩) = .error .notFound by decide] at hentry
      simp at hentry

def ignoring : FileTree := ⟨[([".gitignore"], .file (Bytes.ofString "mine"))]⟩

/-- An ignore file is replaced although nothing else of a project is there. -/
theorem ignore_replaced : ignoring.isThere [] (manifestPath ⟨"."⟩) = false ∧
    (create .none "demo" ⟨"."⟩ ignoring []).1 = .ok () ∧
      ignoring.lookup [".gitignore"] = some (.file (Bytes.ofString "mine")) ∧
        (create .none "demo" ⟨"."⟩ ignoring []).2.lookup [".gitignore"] = some (.file (Bytes.ofString ".kiln/
build/
")) := by
  refine ⟨by decide, by decide, by decide, by decide⟩

end Notes

end SlotBuild.Scaffold
