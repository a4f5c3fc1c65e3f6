import SlotBuild.Proofs.Digest
import SlotBuild.Proofs.FileTree.Walk

/-! What the octets that a directory is hashed as tell of its files. A name stands behind its
length, a content does not, so a content can be taken for the start of a longer one. -/

namespace SlotBuild

open SlotBuild.Path (IsName)

namespace Path

variable {names : List String}

/-- The names that lead from a directory to something below it. -/
structure Relative where
  names : List String
  nonempty : names ≠ []
  named : ∀ s ∈ names, IsName s

def Relative.text (rel : Relative) : String := "/".intercalate rel.names

theorem Relative.text_injective : Function.Injective Relative.text := by
  intro a b h
  have hpieces := congrArg (fun s => (Path.mk s).pieces) h
  obtain ⟨a, ha, hnamed⟩ := a
  obtain ⟨b, hb, hnamed'⟩ := b
  obtain rfl : a = b := by
    simpa only [Relative.text, pieces_intercalate ha hnamed, pieces_intercalate hb hnamed'] using hpieces
  rfl

theorem dropComponents_append (base cs : List Component) : dropComponents base (base ++ cs) = some cs := by
  induction base with
  | nil => rfl
  | cons b base ih => simpa [dropComponents] using ih

theorem componentTexts (h : ∀ s ∈ names, IsName s) :
    (names.filterMap componentOf?).map componentText = names := by
  induction names with
  | nil => rfl
  | cons s names ih =>
    obtain ⟨hs, hnames⟩ := List.forall_mem_cons.mp h
    simp [hs.componentOf?, componentText, ih hnames]

end Path

namespace FileTree

open SlotBuild.Path (Relative)

variable {t t' : FileTree} {cwd cwd' : Key} {dir dir' start : Path} {names : List String}

section names

theorem childPath_of_slashed (hne : start.text ≠ "") (hdot : start.text ≠ ".")
    (hslashed : start.slashed = false)
    {name : String} (hname : IsName name) : (childPath start name).text = start.text ++ "/" ++ name := by
  have hlast : start.text.toList.getLast? ≠ some '/' := by simpa [Path.slashed] using hslashed
  simp [childPath, hdot, Path.join, Path.isAbsolute_mk hname.no_slash, hne, hlast]

theorem text_entered (hne : start.text ≠ "") (hdot : start.text ≠ ".") (hslashed : start.slashed = false)
    (hnames : ∀ s ∈ names, IsName s) :
    (entered start names).text = "/".intercalate (start.text :: names) := by
  induction names generalizing start with
  | nil => simp [entered]
  | cons s names ih =>
    obtain ⟨hs, hnames⟩ := List.forall_mem_cons.mp hnames
    have hchild := childPath_of_slashed hne hdot hslashed hs
    have hrest : entered start (s :: names) = entered (childPath start s) names := rfl
    rw [hrest, ih (by simp [hchild]) (childPath_text hs) (slashed_childPath hs) hnames, hchild,
      String.intercalate_cons_cons]
    cases names with
    | nil => simp
    | cons r names => simp only [String.intercalate_cons_cons, String.append_assoc]

/-- On the path under which a walk comes to a file, the names stand behind what the directory is
written with. -/
theorem components_entered (hspelled : dir.text = "." ∨ dir.pieces.head? ≠ some ".") (hdirne : dir.text ≠ "")
    (hstart : IsStart dir start) (hne : names ≠ []) (hnames : ∀ s ∈ names, IsName s) :
    (entered start names).components =
      (if dir.text = "." then [] else dir.components) ++ names.filterMap Path.componentOf? := by
  obtain ⟨hsteps, habsolute, -⟩ := entered_spec start hne hnames
  rcases hstart.spelled with ⟨hdir, hdot⟩ | ⟨hdir, hdot, hsame⟩
  · obtain ⟨s, rest, rfl⟩ := List.exists_cons_of_ne_nil hne
    have hs := (List.forall_mem_cons.mp hnames).1
    have hhead : (entered start (s :: rest)).steps.head? ≠ some "." := by
      simpa [hsteps, reach, hdot] using hs.not_current
    rw [Path.components_eq_steps (Or.inr hhead), habsolute, hstart.absolute, hsteps]
    simp [Path.isAbsolute, hdir, reach, hdot]
  · rw [reach, if_neg hdot, hsame] at hsteps
    rw [hstart.absolute] at habsolute
    have hhead : dir.isAbsolute = true ∨ dir.steps.head? ≠ some "." := by
      refine or_iff_not_imp_left.mpr fun hrelative => ?_
      rw [Path.head?_steps hdirne (by simpa using hrelative)]
      exact hspelled.resolve_left hdir
    have hheads : (entered start names).isAbsolute = true ∨ (entered start names).steps.head? ≠ some "." := by
      rw [habsolute, hsteps]
      refine or_iff_not_imp_left.mpr fun hrelative => ?_
      have hdirsteps : dir.steps ≠ [] := fun hnil => hrelative (Path.steps_eq_nil hdirne hnil)
      rw [List.head?_append_of_ne_nil _ hdirsteps]
      exact hhead.resolve_left hrelative
    rw [if_neg hdir, Path.components_eq_steps hheads, Path.components_eq_steps hhead, habsolute, hsteps,
      List.filterMap_append, List.append_assoc]

/-- Whatever path a walk takes to a file, the file is hashed with its relative path. -/
theorem nameBelow_entered (hspelled : dir.text = "." ∨ dir.pieces.head? ≠ some ".") (hdirne : dir.text ≠ "")
    (hstart : IsStart dir start) (rel : Relative) : nameBelow dir (entered start rel.names) = rel.text := by
  obtain ⟨names, hne, hnames⟩ := rel
  have hcomponents := components_entered hspelled hdirne hstart hne hnames
  rcases hstart.spelled with ⟨hdir, hdot⟩ | ⟨hdir, -, -⟩
  · obtain ⟨s, rest, rfl⟩ := List.exists_cons_of_ne_nil hne
    obtain ⟨hs, hrest⟩ := List.forall_mem_cons.mp hnames
    have htext : (entered start (s :: rest)).text = "/".intercalate (s :: rest) := by
      have hfirst : entered start (s :: rest) = entered ⟨s⟩ rest := by simp [entered, childPath, hdot]
      rw [hfirst, text_entered hs.nonempty hs.not_current (Path.slashed_mk hs.no_slash) hrest]
    have hbase : dir.components = [.current] := by
      rw [Path.components, Path.isAbsolute, Path.pieces, hdir]
      decide
    have hnone : Path.dropComponents dir.components (entered start (s :: rest)).components = none := by
      rw [hcomponents, if_pos hdir, hbase]
      simp [hs.componentOf?, Path.dropComponents]
    rw [nameBelow, Path.relativeTo?, hnone]
    exact htext
  · rw [if_neg hdir] at hcomponents
    rw [nameBelow, Path.relativeTo?, hcomponents, Path.dropComponents_append,
      Option.map_some, Option.getD_some,
      Path.componentTexts hnames]
    rfl

end names

section files

variable {content : Bytes}

/-- What a directory holds, by the relative paths of its files. -/
def contents (t : FileTree) (cwd : Key) (dir : Path) (rel : Relative) : Option Bytes :=
  (t.read cwd (dir.below rel.names)).toOption

/-- The names and contents that a directory is hashed with. -/
def files (t : FileTree) (cwd : Key) (dir : Path) : Except AccessError (List (String × Bytes)) :=
  t.readAll cwd dir (t.filesBelow cwd dir)

def treeBytes (t : FileTree) (cwd : Key) (dir : Path) : Except AccessError Bytes :=
  (t.files cwd dir).map encodeFiles

theorem digestTree_eq_treeBytes : t.digestTree cwd dir = (t.treeBytes cwd dir).map Digest.ofBytes := by
  unfold digestTree treeBytes files
  cases t.readAll cwd dir (t.filesBelow cwd dir) <;> rfl

/-- Written with a separator behind it, the current directory is hashed as an empty one, whatever it
holds. -/
theorem treeBytes_current_slash (t : FileTree) (cwd : Key) : t.treeBytes cwd ⟨"./"⟩ = .ok [] := by
  rw [treeBytes, files, filesBelow_current_slash]
  rfl

/-- A directory as a file system has it, written without a `.` in front, which the walk leaves out
of the paths it comes to. -/
structure Walkable (t : FileTree) (cwd : Key) (dir : Path) : Prop where
  is_dir : t.isDir cwd dir = true
  spelled : dir.text = "." ∨ dir.pieces.head? ≠ some "."
  named : ∀ e ∈ t.entries, ∀ s ∈ e.1, IsName s
  fits : ∀ p ∈ t.filesBelow cwd dir, Digest.Fits (nameBelow dir p)

theorem contents_eq_some {rel : Relative} :
    t.contents cwd dir rel = some content ↔ t.read cwd (dir.below rel.names) = .ok content := by
  unfold contents
  cases t.read cwd (dir.below rel.names) <;> simp [Except.toOption]

theorem exists_readAll (dir : Path) {ps : List Path} (h : ∀ p ∈ ps, ∃ content, t.read cwd p = .ok content) :
    ∃ files, t.readAll cwd dir ps = .ok files ∧
      ∀ f, f ∈ files ↔ ∃ p ∈ ps, f.1 = nameBelow dir p ∧ t.read cwd p = .ok f.2 := by
  induction ps with
  | nil => exact ⟨[], rfl, by simp⟩
  | cons p ps ih =>
    obtain ⟨⟨content, hread⟩, hps⟩ := List.forall_mem_cons.mp h
    obtain ⟨files, hfiles, hmem⟩ := ih hps
    refine ⟨(nameBelow dir p, content) :: files, ?_, fun f => ?_⟩
    · rw [readAll, hread, hfiles]
      rfl
    · rw [List.mem_cons, hmem, List.exists_mem_cons_iff, hread, Prod.ext_iff, Except.ok.injEq,
        eq_comm (a := content)]

/-- The walk comes to every file once it has a start, and reads there what the directory holds. -/
theorem exists_entered (hdir : t.isDir cwd dir = true)
    (hspelled : dir.text = "." ∨ dir.pieces.head? ≠ some ".")
    (hnames : ∀ e ∈ t.entries, ∀ s ∈ e.1, IsName s) :
    ∃ start, t.walkStart? cwd dir = some start ∧ IsStart dir start ∧
      (∀ p, p ∈ t.filesBelow cwd dir ↔
        ∃ rel : Relative, p = entered start rel.names ∧ ∃ content, t.contents cwd dir rel = some content) ∧
      ∀ (rel : Relative) content, t.read cwd (entered start rel.names) = .ok content ↔
        t.contents cwd dir rel = some content := by
  obtain ⟨start, hwalk, hstart, hbelow⟩ := mem_filesBelow hdir hspelled hnames
  have hread : ∀ (rel : Relative) content, t.read cwd (entered start rel.names) = .ok content ↔
      t.contents cwd dir rel = some content :=
    fun rel content => (read_entered hstart rel.nonempty rel.named).trans contents_eq_some.symm
  refine ⟨start, hwalk, hstart, fun p => ?_, hread⟩
  rw [hbelow]
  constructor
  · rintro ⟨names, hne, hnamed, rfl, content, hcontent⟩
    exact ⟨⟨names, hne, hnamed⟩, rfl, content, (hread ⟨names, hne, hnamed⟩ content).mp hcontent⟩
  · rintro ⟨rel, rfl, content, hcontent⟩
    exact ⟨rel.names, rel.nonempty, rel.named, rfl, content, (hread rel content).mpr hcontent⟩

/-- Every file is hashed, with its relative path and with what it holds. -/
theorem Walkable.exists_files (h : Walkable t cwd dir) : ∃ files, t.files cwd dir = .ok files ∧
    (∀ f ∈ files, Digest.Fits f.1) ∧
      ∀ f, f ∈ files ↔ ∃ rel : Relative, f.1 = rel.text ∧ t.contents cwd dir rel = some f.2 := by
  have hne := (isDir_iff.mp h.is_dir).1.nonempty
  obtain ⟨start, -, hstart, hbelow, hread⟩ := exists_entered h.is_dir h.spelled h.named
  have hreadable : ∀ p ∈ t.filesBelow cwd dir, ∃ content, t.read cwd p = .ok content := by
    intro p hp
    obtain ⟨rel, rfl, content, hcontent⟩ := (hbelow p).mp hp
    exact ⟨content, (hread rel content).mpr hcontent⟩
  obtain ⟨files, hfiles, hmem⟩ := exists_readAll dir hreadable
  refine ⟨files, hfiles, fun f hf => ?_, fun f => ?_⟩
  · obtain ⟨p, hp, hname, -⟩ := (hmem f).mp hf
    rw [hname]
    exact h.fits p hp
  · rw [hmem]
    constructor
    · rintro ⟨p, hp, hname, hcontent⟩
      obtain ⟨rel, rfl, -⟩ := (hbelow p).mp hp
      exact ⟨rel, hname.trans (nameBelow_entered h.spelled hne hstart rel), (hread rel f.2).mp hcontent⟩
    · rintro ⟨rel, hname, hcontent⟩
      exact ⟨entered start rel.names, (hbelow _).mpr ⟨rel, rfl, f.2, hcontent⟩,
        hname.trans (nameBelow_entered h.spelled hne hstart rel).symm, (hread rel f.2).mpr hcontent⟩

end files

section encoding

/-- The first file in which the two lists differ goes on, in the second, with octets that in the
first stand for later files. -/
def Absorbs (xs ys : List (String × Bytes)) : Prop :=
  ∃ front name content more later later', xs = front ++ (name, content) :: later ∧
    ys = front ++ (name, content ++ more) :: later' ∧ more ≠ [] ∧
      encodeFiles later = more ++ encodeFiles later'

theorem Absorbs.cons {xs ys : List (String × Bytes)} (h : Absorbs xs ys) (f : String × Bytes) :
    Absorbs (f :: xs) (f :: ys) := by
  obtain ⟨front, name, content, more, later, later', rfl, rfl, hmore, hlater⟩ := h
  exact ⟨f :: front, name, content, more, later, later', rfl, rfl, hmore, hlater⟩

theorem encodeFiles_cons (f : String × Bytes) (files : List (String × Bytes)) :
    encodeFiles (f :: files) = Digest.framed (Bytes.ofString f.1) ++ (f.2 ++ encodeFiles files) := by
  simp [encodeFiles]

theorem eq_or_absorbs_of_encodeFiles_eq {xs ys : List (String × Bytes)} (hx : ∀ f ∈ xs, Digest.Fits f.1)
    (hy : ∀ f ∈ ys, Digest.Fits f.1) (h : encodeFiles xs = encodeFiles ys) :
    xs = ys ∨ Absorbs xs ys ∨ Absorbs ys xs := by
  induction xs generalizing ys with
  | nil =>
    cases ys with
    | nil => exact Or.inl rfl
    | cons g ys =>
      rw [encodeFiles_cons] at h
      exact absurd h.symm (Digest.framed_append_ne_nil _ _)
  | cons f xs ih =>
    cases ys with
    | nil =>
      rw [encodeFiles_cons] at h
      exact absurd h (Digest.framed_append_ne_nil _ _)
    | cons g ys =>
      obtain ⟨hf, hxs⟩ := List.forall_mem_cons.mp hx
      obtain ⟨hg, hys⟩ := List.forall_mem_cons.mp hy
      obtain ⟨name, content⟩ := f
      obtain ⟨name', content'⟩ := g
      rw [encodeFiles_cons, encodeFiles_cons] at h
      obtain ⟨hname, hrest⟩ := hf.eq_of_framed_eq hg h
      simp only at hname hrest
      subst hname
      by_cases hcontent : content = content'
      · subst hcontent
        rcases ih hxs hys (List.append_cancel_left hrest) with rfl | hfirst | hsecond
        · exact Or.inl rfl
        · exact Or.inr (Or.inl (hfirst.cons _))
        · exact Or.inr (Or.inr (hsecond.cons _))
      -- no length says where a content ends, so the longer one has taken up the start of what follows
      · have hmore : ∀ {a b more : Bytes}, a ≠ b → b = a ++ more → more ≠ [] := by
          rintro a b more hne rfl rfl
          simp at hne
        rcases List.append_eq_append_iff.mp hrest with ⟨more, hlonger, hlater⟩ | ⟨more, hlonger, hlater⟩
        · rw [hlonger]
          exact Or.inr (Or.inl ⟨[], name, content, more, xs, ys, rfl, rfl, hmore hcontent hlonger, hlater⟩)
        · rw [hlonger]
          exact Or.inr (Or.inr ⟨[], name, content', more, ys, xs, rfl, rfl, hmore (Ne.symm hcontent)
            hlonger, hlater⟩)

end encoding

theorem contents_of_files_eq (h : Walkable t cwd dir) (h' : Walkable t' cwd' dir')
    (hfiles : t.files cwd dir = t'.files cwd' dir') : t.contents cwd dir = t'.contents cwd' dir' := by
  obtain ⟨files, hok, -, hmem⟩ := h.exists_files
  obtain ⟨files', hok', -, hmem'⟩ := h'.exists_files
  obtain rfl : files = files' := by rw [hok, hok'] at hfiles; exact Except.ok.inj hfiles
  have hlisted : ∀ {t : FileTree} {cwd : Key} {dir : Path} {rel : Relative} {content : Bytes},
      (∀ f, f ∈ files ↔ ∃ rel : Relative, f.1 = rel.text ∧ t.contents cwd dir rel = some f.2) →
        (t.contents cwd dir rel = some content ↔ (rel.text, content) ∈ files) := by
    intro t cwd dir rel content hmem
    rw [hmem]
    constructor
    · exact fun hcontent => ⟨rel, rfl, hcontent⟩
    · rintro ⟨rel', htext, hcontent⟩
      rwa [Relative.text_injective htext]
  funext rel
  exact Option.ext fun content => (hlisted hmem).trans (hlisted hmem').symm

/-- Directories that are hashed as the same octets hold the same files, unless a file of one holds
what stands for later files of the other, which nothing in the octets tells from these. -/
theorem contents_of_treeBytes_eq (h : Walkable t cwd dir) (h' : Walkable t' cwd' dir')
    (hbytes : t.treeBytes cwd dir = t'.treeBytes cwd' dir') : t.contents cwd dir = t'.contents cwd' dir' ∨
      ∃ files files', t.files cwd dir = .ok files ∧ t'.files cwd' dir' = .ok files' ∧
        (Absorbs files files' ∨ Absorbs files' files) := by
  obtain ⟨files, hok, hfits, -⟩ := h.exists_files
  obtain ⟨files', hok', hfits', -⟩ := h'.exists_files
  rw [treeBytes, treeBytes, hok, hok'] at hbytes
  rcases eq_or_absorbs_of_encodeFiles_eq hfits hfits' (Except.ok.inj hbytes) with rfl | habsorbs
  · exact Or.inl (contents_of_files_eq h h' (hok.trans hok'.symm))
  · exact Or.inr ⟨files, files', hok, hok', habsorbs⟩

namespace Folder

def apart : FileTree := ⟨[(["d"], .dir), (["d", "a"], .file []), (["d", "b"], .file [])]⟩

def together : FileTree := ⟨[(["d"], .dir), (["d", "a"], .file (Bytes.le64 1 ++ Bytes.ofString "b"))]⟩

theorem names_apart : apart.names ["d"] = ["a", "b"] := by
  have hfound : apart.names ["d"] = ["a", "b"].mergeSort fun a b => decide (a ≤ b) := by
    unfold names
    congr 1
  rw [hfound]
  exact List.mergeSort_of_pairwise (by decide)

theorem names_together : together.names ["d"] = ["a"] := by
  have hfound : together.names ["d"] = ["a"].mergeSort fun a b => decide (a ≤ b) := by
    unfold names
    congr 1
  rw [hfound, List.mergeSort_singleton]

theorem filesBelow_apart : apart.filesBelow [] ⟨"d"⟩ = [⟨"d/a"⟩, ⟨"d/b"⟩] :=
  filesBelow_flat ⟨"d"⟩ (by decide) (by decide) names_apart (by decide) (by decide)

theorem filesBelow_slashed : apart.filesBelow [] ⟨"d/"⟩ = [⟨"d/a"⟩, ⟨"d/b"⟩] :=
  filesBelow_flat ⟨"d/"⟩ (by decide) (by decide) names_apart (by decide) (by decide)

theorem filesBelow_together : together.filesBelow [] ⟨"d"⟩ = [⟨"d/a"⟩] :=
  filesBelow_flat ⟨"d"⟩ (by decide) (by decide) names_together (by decide) (by decide)

theorem walkable_apart : Walkable apart [] ⟨"d"⟩ where
  is_dir := by decide
  spelled := Or.inr (by decide)
  named := by decide
  fits := by
    rw [filesBelow_apart]
    decide

theorem walkable_slashed : Walkable apart [] ⟨"d/"⟩ where
  is_dir := by decide
  spelled := Or.inr (by decide)
  named := by decide
  fits := by
    rw [filesBelow_slashed]
    decide

theorem walkable_together : Walkable together [] ⟨"d"⟩ where
  is_dir := by decide
  spelled := Or.inr (by decide)
  named := by decide
  fits := by
    rw [filesBelow_together]
    decide

theorem spelled_treeBytes : apart.treeBytes [] ⟨"d"⟩ = apart.treeBytes [] ⟨"d/"⟩ := by
  rw [treeBytes, treeBytes, files, files, filesBelow_apart, filesBelow_slashed]
  decide

theorem spelled_contents : Walkable apart [] ⟨"d"⟩ ∧ Walkable apart [] ⟨"d/"⟩ ∧
    apart.treeBytes [] ⟨"d"⟩ = apart.treeBytes [] ⟨"d/"⟩ ∧
      (apart.contents [] ⟨"d"⟩ = apart.contents [] ⟨"d/"⟩ ∨
        ∃ files files', apart.files [] ⟨"d"⟩ = .ok files ∧ apart.files [] ⟨"d/"⟩ = .ok files' ∧
          (Absorbs files files' ∨ Absorbs files' files)) :=
  ⟨walkable_apart, walkable_slashed, spelled_treeBytes,
    contents_of_treeBytes_eq walkable_apart walkable_slashed spelled_treeBytes⟩

/-- Two directories are hashed alike because a file of one goes on with what stands for a file of
the other, and any two because they are the current directory, written with a separator behind it. -/
theorem together_absorbs : (Walkable apart [] ⟨"d"⟩ ∧ Walkable together [] ⟨"d"⟩ ∧
    apart.treeBytes [] ⟨"d"⟩ = together.treeBytes [] ⟨"d"⟩ ∧
      apart.digestTree [] ⟨"d"⟩ = together.digestTree [] ⟨"d"⟩ ∧
        apart.contents [] ⟨"d"⟩ ≠ together.contents [] ⟨"d"⟩) ∧
    apart.treeBytes ["d"] ⟨"./"⟩ = together.treeBytes ["d"] ⟨"./"⟩ ∧
      apart.contents ["d"] ⟨"./"⟩ ≠ together.contents ["d"] ⟨"./"⟩ := by
  have hbytes : apart.treeBytes [] ⟨"d"⟩ = together.treeBytes [] ⟨"d"⟩ := by
    rw [treeBytes, treeBytes, files, files, filesBelow_apart, filesBelow_together]
    decide
  refine ⟨⟨walkable_apart, walkable_together, hbytes, ?_, fun hsame => ?_⟩, ?_, fun hsame => ?_⟩
  · rw [digestTree_eq_treeBytes, digestTree_eq_treeBytes, hbytes]
  · have hfile := congrFun hsame ⟨["b"], by decide, by decide⟩
    exact absurd hfile (by decide)
  · rw [treeBytes_current_slash, treeBytes_current_slash]
  · have hfile := congrFun hsame ⟨["b"], by decide, by decide⟩
    exact absurd hfile (by decide)

end Folder

end FileTree

end SlotBuild
