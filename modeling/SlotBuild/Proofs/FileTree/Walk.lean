import SlotBuild.FileTree.Digest
import SlotBuild.Proofs.FileTree.Resolution

/-! The walk through a directory: it comes to every file below, on the path that the names make, and
to nothing else. -/

namespace SlotBuild.FileTree

open SlotBuild.Path (IsName)

variable {t : FileTree} {cwd : Key} {dir : Path} {rel : List String}

section depth

variable {links : Nat} {cur k : Key}

theorem exists_entry (hk : k ≠ []) (h : t.lookup k ≠ none) : ∃ e ∈ t.entries, e.1 = k := by
  rw [lookup, if_neg hk, Ne, Option.map_eq_none_iff, List.find?_eq_none] at h
  push Not at h
  simpa using h

theorem mem_names {n : String} : n ∈ t.names k ↔ ∃ e ∈ t.entries, e.1 = k ++ [n] := by
  rw [names, (List.mergeSort_perm _ _).mem_iff, List.mem_filterMap]
  refine exists_congr fun ⟨key, e⟩ => and_congr_right fun _ => ?_
  rcases List.eq_nil_or_concat key with rfl | ⟨front, m, rfl⟩
  · simp
  · simp [and_comm, eq_comm]

/-- How many entries lie below a key. -/
def within (t : FileTree) (k : Key) : Nat := (t.entries.filter fun e => isUnder k e.1 && e.1 ≠ k).length

theorem within_le (t : FileTree) (k : Key) : t.within k ≤ t.entries.length := List.length_filter_le _ _

theorem within_lt {p : String} (h : t.lookup (cur ++ [p]) ≠ none) : t.within (cur ++ [p]) < t.within cur := by
  obtain ⟨e, he, hkey⟩ := exists_entry (by simp) h
  have hinner : (t.entries.filter fun e => isUnder (cur ++ [p]) e.1 && e.1 ≠ cur ++ [p]) =
      (t.entries.filter fun e => isUnder cur e.1 && e.1 ≠ cur).filter
        fun e => isUnder (cur ++ [p]) e.1 && e.1 ≠ cur ++ [p] := by
    rw [List.filter_filter]
    refine List.filter_congr fun e _ => Bool.eq_iff_iff.mpr ?_
    have hmore : isUnder (cur ++ [p]) e.1 = true → isUnder cur e.1 = true ∧ e.1 ≠ cur := by
      intro hunder
      have hprefix := List.isPrefixOf_iff_prefix.mp hunder
      refine ⟨List.isPrefixOf_iff_prefix.mpr ((List.prefix_append cur [p]).trans hprefix), fun heq => ?_⟩
      have hlength := hprefix.length_le
      rw [heq, List.length_append, List.length_singleton] at hlength
      omega
    simp only [Bool.and_eq_true, decide_eq_true_eq, iff_self_and]
    exact fun hinside => hmore hinside.1
  rw [within, within, hinner]
  refine List.length_filter_lt_length_iff_exists.mpr ⟨e, List.mem_filter.mpr ⟨he, ?_⟩, by simp [hkey]⟩
  simp [hkey, isUnder]

/-- At most so many names stand in a row at the end of a path. -/
def EndsWithin (n : Nat) (ps : List String) : Prop :=
  ∀ rel, rel <:+ ps → (∀ s ∈ rel, IsName s) → rel.length ≤ n

namespace EndsWithin

variable {n m : Nat} {p : String} {ps rest : List String}

theorem cons (h : EndsWithin n rest) (hall : (∀ s ∈ p :: rest, IsName s) → (p :: rest).length ≤ n) :
    EndsWithin n (p :: rest) := by
  intro rel hrel hnames
  rcases List.suffix_cons_iff.mp hrel with rfl | hrel
  · exact hall hnames
  · exact h rel hrel hnames

theorem of_append (h : EndsWithin n (ps ++ rest)) : EndsWithin n rest :=
  fun rel hrel => h rel (hrel.trans (List.suffix_append ps rest))

theorem mono (h : EndsWithin n ps) (hle : n ≤ m) : EndsWithin m ps :=
  fun rel hrel hnames => Nat.le_trans (h rel hrel hnames) hle

end EndsWithin

/-- From where so many links may still be followed, names lead no deeper than there are entries to
pass before each of them and behind the last. -/
theorem endsWithin_of_ways {ps : List String} (h : Ways t true links cur ps k) (hk : t.lookup k ≠ none) :
    EndsWithin (links * (t.entries.length + 1) + t.entries.length) ps ∧
      ((∀ s ∈ ps, IsName s) → ps.length ≤ links * (t.entries.length + 1) + t.within cur) := by
  generalize hthrough : true = through at h
  induction h with
  | here => exact ⟨fun rel hrel _ => by simp [List.suffix_nil.mp hrel], by simp⟩
  | @stay links cur k p rest dir current more ih =>
    have hnone : ¬ ∀ s ∈ p :: rest, IsName s := fun hnames => by
      have hp := hnames p List.mem_cons_self
      simp [hp.nonempty, hp.not_current] at current
    exact ⟨(ih hk).1.cons fun hnames => absurd hnames hnone, fun hnames => absurd hnames hnone⟩
  | @up links cur k rest dir more ih =>
    have hnone : ¬ ∀ s ∈ ".." :: rest, IsName s := fun hnames =>
      (hnames ".." List.mem_cons_self).not_parent rfl
    exact ⟨(ih hk).1.cons fun hnames => absurd hnames hnone, fun hnames => absurd hnames hnone⟩
  | @down links cur k p rest dir names unlinked more ih =>
    have hnext : t.lookup (cur ++ [p]) ≠ none := by
      cases rest with
      | nil =>
        cases more
        exact hk
      | cons q rest => simp [more.dir_of_cons]
    have hall : (∀ s ∈ p :: rest, IsName s) →
        (p :: rest).length ≤ links * (t.entries.length + 1) + t.within cur := fun hnames => by
      have hrest := (ih hk).2 (List.forall_mem_cons.mp hnames).2
      have hless := within_lt hnext
      rw [List.length_cons]
      omega
    have hcount := t.within_le cur
    exact ⟨(ih hk).1.cons fun hnames => Nat.le_trans (hall hnames) (by omega), hall⟩
  | stop _ _ _ last => simp [← hthrough] at last
  | @follow links cur k p target rest dir names link onward target_ne more ih =>
    have hsucc : (links + 1) * (t.entries.length + 1) =
        links * (t.entries.length + 1) + t.entries.length + 1 := by
      rw [Nat.add_mul, Nat.one_mul, Nat.add_assoc]
    -- the link may lead back up, but one link fewer may be followed from there
    have hrest := (ih hk).1.of_append
    have hall : (∀ s ∈ p :: rest, IsName s) → (p :: rest).length ≤ (links + 1) * (t.entries.length + 1) :=
      fun hnames => by
        have hle := hrest rest List.suffix_rfl (List.forall_mem_cons.mp hnames).2
        rw [List.length_cons, hsucc]
        omega
    exact ⟨(hrest.mono (by omega)).cons fun hnames => Nat.le_add_right_of_le (hall hnames),
      fun hnames => Nat.le_add_right_of_le (hall hnames)⟩

end depth

section paths

variable {start : Path} {name : String}

theorem steps_current {p : Path} (h : p.text = ".") : p.steps = ["."] := by
  rw [Path.steps, Path.pieces, h]
  decide

/-- The steps that a walk from `start` has behind it. -/
def reach (start : Path) : List String := if start.text = "." then [] else start.steps

/-- The path under which a walk from `start` comes to what the names lead to. -/
def entered (start : Path) (rel : List String) : Path := rel.foldl childPath start

theorem childPath_text (h : IsName name) : (childPath start name).text ≠ "." := by
  unfold childPath
  split
  · exact h.not_current
  · by_cases hempty : start.text = ""
    · have hjoin := (Path.join_text start h.no_slash).resolve_right fun ⟨_, _, hne, _⟩ => hne hempty
      rw [hjoin.2]
      exact h.not_current
    · intro hdot
      have hslash := Path.slash_mem_join hempty h.no_slash
      rw [hdot] at hslash
      exact absurd hslash (by decide)

theorem steps_childPath (h : IsName name) : (childPath start name).steps = reach start ++ [name] := by
  unfold childPath reach
  split
  · rw [Path.steps_mk h.no_slash]
    simp [h.nonempty]
  · exact Path.steps_join start h.no_slash h.nonempty

theorem reach_childPath (h : IsName name) : reach (childPath start name) = reach start ++ [name] := by
  rw [reach, if_neg (childPath_text h), steps_childPath h]

theorem isAbsolute_childPath (h : IsName name) : (childPath start name).isAbsolute = start.isAbsolute := by
  unfold childPath
  split_ifs with hdot
  · rw [Path.isAbsolute_mk h.no_slash, Path.isAbsolute, hdot]
    decide
  · exact Path.isAbsolute_join h.no_slash

theorem slashed_childPath (h : IsName name) : (childPath start name).slashed = false := by
  unfold childPath
  split
  · exact Path.slashed_mk h.no_slash
  · exact Path.slashed_join h.no_slash h.nonempty

theorem entered_spec (start : Path) (hne : rel ≠ []) (h : ∀ s ∈ rel, IsName s) :
    (entered start rel).steps = reach start ++ rel ∧ (entered start rel).isAbsolute = start.isAbsolute ∧
      (entered start rel).slashed = false := by
  induction rel generalizing start with
  | nil => exact absurd rfl hne
  | cons s rel ih =>
    obtain ⟨hs, hrel⟩ := List.forall_mem_cons.mp h
    cases rel with
    | nil => exact ⟨steps_childPath hs, isAbsolute_childPath hs, slashed_childPath hs⟩
    | cons r rel =>
      obtain ⟨hsteps, habsolute, hslashed⟩ := ih (childPath start s) (List.cons_ne_nil _ _) hrel
      rw [reach_childPath hs, List.append_assoc] at hsteps
      exact ⟨hsteps, habsolute.trans (isAbsolute_childPath hs), hslashed⟩

/-- Along names all that is passed is a directory that lists the next name. -/
theorem lists_of_ways {links : Nat} {cur k : Key} {rest : List String} (hname : IsName name)
    (h : Ways t true links cur (name :: rest) k) (hk : t.lookup k ≠ none) : name ∈ t.names cur := by
  refine mem_names.mpr (exists_entry (by simp) ?_)
  generalize hthrough : true = through at h
  cases h with
  | stay _ current => exact absurd current (by simp [hname.nonempty, hname.not_current])
  | up => exact absurd rfl hname.not_parent
  | down _ _ _ more =>
    cases rest with
    | nil =>
      cases more
      exact hk
    | cons q rest => simp [more.dir_of_cons]
  | stop _ _ link => simp [link]
  | follow _ _ link => simp [link]

theorem isFile_iff {p : Path} : t.isFile cwd p = true ↔ ∃ content, t.read cwd p = .ok content := by
  unfold isFile stat? read
  cases hentry : t.entryAt cwd true p with
  | error e => simp [bind, Except.bind]
  | ok found =>
    obtain ⟨k, e⟩ := found
    cases e <;> simp [bind, Except.bind, pure, Except.pure, throw, throwThe, MonadExceptOf.throw]

theorem speaks_iff_steps {p : Path} : Speaks p ↔ p.text ≠ "" ∧ ∀ s ∈ p.steps, '\x00' ∉ s.toList := by
  have hnul : '\x00' ∈ p.text.toList ↔ ∃ s ∈ p.steps, '\x00' ∈ s.toList := Path.mem_text_iff (by decide)
  constructor
  · rintro ⟨hne, hno⟩
    exact ⟨hne, fun s hs hin => hno (hnul.mpr ⟨s, hs, hin⟩)⟩
  · rintro ⟨hne, hno⟩
    refine ⟨hne, fun hin => ?_⟩
    obtain ⟨s, hs, hin⟩ := hnul.mp hin
    exact hno s hs hin

theorem text_ne_of_steps {p : Path} (h : p.steps ≠ []) : p.text ≠ "" := by
  intro hempty
  refine h ?_
  simp [Path.steps, Path.pieces, hempty, piecesOf, splitAtChar]

theorem speaks_of_reach {p : Path} (hne : p.text ≠ "") (h : ∀ s ∈ reach p, '\x00' ∉ s.toList) : Speaks p := by
  refine speaks_iff_steps.mpr ⟨hne, ?_⟩
  unfold reach at h
  split_ifs at h with hdot
  · rw [steps_current hdot]
    decide
  · exact h

theorem entryAt_of_reach {p : Path} {d : Key} (hp : Speaks p)
    (h : Ways t true linkLimit (origin cwd p) (reach p) d) (hd : t.lookup d = some .dir) :
    t.entryAt cwd true p = .ok (d, .dir) := by
  refine entryAt_eq_ok.mpr ⟨⟨d, p.endsInName, p.slashed⟩, locate_eq_ok.mpr ⟨hp, ?_, rfl, rfl⟩, rfl,
    hd, Or.inl rfl⟩
  unfold reach at h
  split_ifs at h with hdot
  · cases h
    rw [steps_current hdot]
    exact .stay hd (Or.inr rfl) .here
  · exact h

end paths

section walk

variable {start : Path} {depth : Nat}

theorem mem_pathsBelow (hstart : start.text ≠ "") (hdepth : rel.length ≤ depth) (hne : rel ≠ [])
    (hrel : ∀ s ∈ rel, IsName s) (hfile : t.isFile cwd (entered start rel) = true) :
    entered start rel ∈ t.pathsBelow cwd depth start := by
  induction rel generalizing start depth with
  | nil => exact absurd rfl hne
  | cons name rest ih =>
    obtain ⟨hname, hrest⟩ := List.forall_mem_cons.mp hrel
    obtain ⟨hsteps, habsolute, hslashed⟩ := entered_spec start hne hrel
    obtain ⟨content, hread⟩ := isFile_iff.mp hfile
    obtain ⟨spot, hspot, hentry, -⟩ := read_eq_ok.mp hread
    obtain ⟨hspeaks, hways, -, -⟩ := locate_eq_ok.mp hspot
    have horigin : origin cwd (entered start (name :: rest)) = origin cwd start := by
      rw [origin, origin, habsolute]
    rw [hslashed, Bool.or_false, horigin, hsteps] at hways
    obtain ⟨links, d, hd, hdir, hlast⟩ := hways.exists_split
    have hlists : name ∈ t.names d := lists_of_ways hname hlast (by simp [hentry])
    have hnul := (speaks_iff_steps.mp hspeaks).2
    rw [hsteps] at hnul
    have hspeaks := speaks_of_reach hstart fun s hs => hnul s (List.mem_append_left _ hs)
    obtain ⟨depth, rfl⟩ := Nat.exists_eq_add_one_of_ne_zero (by simp at hdepth; omega : depth ≠ 0)
    rw [pathsBelow, entryAt_of_reach hspeaks hd hdir]
    refine List.mem_flatMap.mpr ⟨name, hlists, ?_⟩
    cases rest with
    | nil => exact List.mem_cons_self
    | cons next rest =>
      have hchild : (childPath start name).text ≠ "" := text_ne_of_steps (by simp [steps_childPath hname])
      exact List.mem_cons_of_mem _ (ih hchild (by simpa using hdepth) (List.cons_ne_nil _ _) hrest hfile)

theorem exists_of_mem_pathsBelow (hnames : ∀ e ∈ t.entries, ∀ s ∈ e.1, IsName s) {p : Path}
    (h : p ∈ t.pathsBelow cwd depth start) :
    ∃ rel, rel ≠ [] ∧ (∀ s ∈ rel, IsName s) ∧ p = entered start rel := by
  induction depth generalizing start with
  | zero => simp [pathsBelow] at h
  | succ depth ih =>
    rw [pathsBelow] at h
    split at h
    case h_1 k _ =>
      obtain ⟨name, hname, h⟩ := List.mem_flatMap.mp h
      obtain ⟨e, he, hkey⟩ := mem_names.mp hname
      have hname : IsName name := hnames e he name (by simp [hkey])
      rcases List.mem_cons.mp h with rfl | h
      · exact ⟨[name], by simp, by simpa using hname, rfl⟩
      · obtain ⟨rel, -, hrel, rfl⟩ := ih h
        exact ⟨name :: rel, List.cons_ne_nil _ _, List.forall_mem_cons.mpr ⟨hname, hrel⟩, rfl⟩
    case h_2 => simp at h

end walk

section start

theorem isDir_iff {p : Path} : t.isDir cwd p = true ↔ Speaks p ∧
    ∃ k, Ways t true linkLimit (origin cwd p) p.steps k ∧ t.lookup k = some .dir := by
  have hentry : t.isDir cwd p = true ↔ ∃ k, t.entryAt cwd true p = .ok (k, .dir) := by
    unfold isDir stat?
    cases t.entryAt cwd true p with
    | error e => simp
    | ok found =>
      obtain ⟨k, e⟩ := found
      cases e <;> simp
  rw [hentry]
  constructor
  · rintro ⟨k, hk⟩
    obtain ⟨spot, hspot, rfl, hdir, -⟩ := entryAt_eq_ok.mp hk
    obtain ⟨hspeaks, hways, -⟩ := locate_eq_ok.mp hspot
    exact ⟨hspeaks, spot.key, hways, hdir⟩
  · rintro ⟨hspeaks, k, hways, hdir⟩
    exact ⟨k, entryAt_eq_ok.mpr ⟨⟨k, p.endsInName, p.slashed⟩, locate_eq_ok.mpr ⟨hspeaks, hways, rfl, rfl⟩,
      rfl, hdir, Or.inl rfl⟩⟩

theorem isThere_of_isDir {p : Path} (h : t.isDir cwd p = true) : t.isThere cwd p = true := by
  unfold isDir at h
  unfold isThere
  split at h
  case h_1 hdir =>
    rw [hdir]
    rfl
  case h_2 => simp at h

/-- All that is passed on the way to a directory is a directory. -/
theorem isDir_of_steps {p : Path} (h : t.isDir cwd dir = true) (hne : p.text ≠ "")
    (habsolute : p.isAbsolute = dir.isAbsolute) (hsteps : p.steps <+: dir.steps) : t.isDir cwd p = true := by
  obtain ⟨hspeaks, k, hways, hdir⟩ := isDir_iff.mp h
  obtain ⟨more, hmore⟩ := hsteps
  have hnul := (speaks_iff_steps.mp hspeaks).2
  rw [← hmore] at hways hnul
  rw [origin, ← habsolute] at hways
  refine isDir_iff.mpr ⟨speaks_iff_steps.mpr ⟨hne, fun s hs => hnul s (List.mem_append_left _ hs)⟩, ?_⟩
  cases more with
  | nil => exact ⟨k, by rwa [List.append_nil] at hways, hdir⟩
  | cons x xs =>
    obtain ⟨_, d, hd, hd', -⟩ := hways.exists_split
    exact ⟨d, hd, hd'⟩

/-- Where the walk through a directory starts. -/
structure IsStart (dir start : Path) : Prop where
  nonempty : start.text ≠ ""
  absolute : start.isAbsolute = dir.isAbsolute
  spelled : dir.text = "." ∧ start.text = "." ∨ dir.text ≠ "." ∧ start.text ≠ "." ∧ start.steps = dir.steps

theorem exists_walkFrom (here : Path) {rest : List String} (hdirdot : dir.text ≠ ".") (hne : here.text ≠ "")
    (hdot : here.text ≠ ".") (hpieces : ∀ s ∈ rest, '/' ∉ s.toList) (hdir : t.isDir cwd dir = true)
    (habsolute : here.isAbsolute = dir.isAbsolute) (hsteps : here.steps ++ rest.filter (· ≠ "") = dir.steps) :
    ∃ start, t.walkFrom cwd here rest = some start ∧ IsStart dir start := by
  induction rest generalizing here with
  | nil => exact ⟨here, rfl, hne, habsolute, Or.inr ⟨hdirdot, hdot, by simpa using hsteps⟩⟩
  | cons s rest ih =>
    obtain ⟨hs, hrest⟩ := List.forall_mem_cons.mp hpieces
    have hslash := Path.slash_mem_join hne hs
    have hnext : (here.join ⟨s⟩).text ≠ "" := fun hempty => by simp [hempty] at hslash
    have hnextdot : (here.join ⟨s⟩).text ≠ "." := fun hdot => by
      rw [hdot] at hslash
      exact absurd hslash (by decide)
    have hnextabsolute : (here.join ⟨s⟩).isAbsolute = dir.isAbsolute :=
      (Path.isAbsolute_join hs).trans habsolute
    have hnextsteps : (here.join ⟨s⟩).steps ++ rest.filter (· ≠ "") = dir.steps := by
      rw [Path.steps_join_mk here hs, Path.steps_mk hs, List.append_assoc, ← List.filter_append]
      exact hsteps
    have hhere := isDir_of_steps hdir hne habsolute ⟨_, hsteps⟩
    have hthere := isThere_of_isDir (isDir_of_steps hdir hnext hnextabsolute ⟨_, hnextsteps⟩)
    have henter :
        (if s = "." ∨ s = ".." then t.isDir cwd here else t.isThere cwd (here.join ⟨s⟩)) = true := by
      split
      · exact hhere
      · exact hthere
    have hwalk : t.walkFrom cwd here (s :: rest) = t.walkFrom cwd (here.join ⟨s⟩) rest := by
      simp only [walkFrom, if_neg hdot, henter, if_true]
    rw [hwalk]
    exact ih (here.join ⟨s⟩) hnext hnextdot hrest hnextabsolute hnextsteps

theorem exists_walkStart_absolute (hdir : t.isDir cwd dir = true) {pieces : List String} (hne : pieces ≠ [])
    (habsolute : dir.isAbsolute = true) (hpieces : dir.pieces = "" :: pieces) :
    ∃ start, t.walkStart? cwd dir = some start ∧ IsStart dir start := by
  have hroot : (Path.mk "/").isAbsolute = dir.isAbsolute := by
    rw [habsolute]
    decide
  have hdot : dir.text ≠ "." := fun hdot => by
    rw [Path.isAbsolute, hdot] at habsolute
    exact absurd habsolute (by decide)
  have hsteps : (Path.mk "/").steps ++ pieces.filter (· ≠ "") = dir.steps := by
    have hnil : (Path.mk "/").steps = [] := by decide
    rw [hnil, Path.steps, hpieces]
    rfl
  have hslash : ∀ s ∈ pieces, '/' ∉ s.toList := fun s hs =>
    Path.slash_notMem_of_mem_pieces (p := dir) (by simp [hpieces, hs])
  have hstart : t.walkStart? cwd dir = t.walkFrom cwd ⟨"/"⟩ pieces := by
    rw [walkStart?, hpieces]
    cases pieces with
    | nil => exact absurd rfl hne
    | cons s rest => rfl
  rw [hstart]
  exact exists_walkFrom ⟨"/"⟩ hdot (by decide) (by decide) hslash hdir hroot hsteps

theorem isDir_current (h : t.isDir cwd dir = true) (hrelative : dir.isAbsolute = false) :
    t.isDir cwd ⟨"."⟩ = true := by
  obtain ⟨hspeaks, k, hways, hdir⟩ := isDir_iff.mp h
  have horigin : origin cwd dir = cwd := by simp [origin, hrelative]
  rw [horigin] at hways
  obtain ⟨s, rest, hsteps⟩ := List.exists_cons_of_ne_nil fun hnil =>
    absurd (Path.steps_eq_nil hspeaks.nonempty hnil) (by simp [hrelative])
  rw [hsteps] at hways
  have hcwd := hways.dir_of_cons
  exact isDir_iff.mpr ⟨⟨by decide, by decide⟩, cwd, .stay hcwd (Or.inr rfl) .here, hcwd⟩

theorem exists_walkStart_relative (hdir : t.isDir cwd dir = true) {s : String} {rest : List String}
    (hs : s ≠ "")
    (hsdot : s ≠ ".") (hrelative : dir.isAbsolute = false) (hpieces : dir.pieces = s :: rest) :
    ∃ start, t.walkStart? cwd dir = some start ∧ IsStart dir start := by
  have hslash : ∀ p ∈ s :: rest, '/' ∉ p.toList := fun p hp =>
    Path.slash_notMem_of_mem_pieces (p := dir) (by rwa [hpieces])
  obtain ⟨hsname, hrest⟩ := List.forall_mem_cons.mp hslash
  have hdot : dir.text ≠ "." := fun hdot => by
    rw [Path.pieces, hdot] at hpieces
    exact hsdot (List.cons.inj (hpieces.symm.trans (by decide : _ = ["."]))).1
  have hsteps : (Path.mk s).steps ++ rest.filter (· ≠ "") = dir.steps := by
    rw [Path.steps_mk hsname, Path.steps, hpieces, ← List.filter_append]
    rfl
  have habs : (Path.mk s).isAbsolute = dir.isAbsolute := (Path.isAbsolute_mk hsname).trans hrelative.symm
  have hcurrent := isDir_current hdir hrelative
  have hthere := isThere_of_isDir (isDir_of_steps (p := ⟨s⟩) hdir hs habs ⟨_, hsteps⟩)
  have hwalk : t.walkStart? cwd dir = t.walkFrom cwd ⟨s⟩ rest := by
    rw [walkStart?, hpieces]
    simp [walkFrom, hs, hcurrent, hthere]
  rw [hwalk]
  exact exists_walkFrom ⟨s⟩ hdot hs hsdot hrest hdir habs hsteps

theorem exists_walkStart (hdir : t.isDir cwd dir = true)
    (hspelled : dir.text = "." ∨ dir.pieces.head? ≠ some ".") :
    ∃ start, t.walkStart? cwd dir = some start ∧ IsStart dir start := by
  rcases Path.pieces_cases (isDir_iff.mp hdir).1.nonempty with
    ⟨habsolute, s, rest, hpieces⟩ | ⟨hrelative, s, rest, hs, hpieces⟩
  · exact exists_walkStart_absolute hdir (List.cons_ne_nil s rest) habsolute hpieces
  · by_cases hdot : dir.text = "."
    · have hcurrent : (Path.mk ".").pieces = ["."] := by decide
      obtain rfl : dir = ⟨"."⟩ := congrArg Path.mk hdot
      refine ⟨⟨"."⟩, ?_, by decide, rfl, Or.inl ⟨rfl, rfl⟩⟩
      rw [walkStart?, hcurrent]
      simp [walkFrom, hdir]
    · have hsdot : s ≠ "." := by simpa [hpieces] using hspelled.resolve_left hdot
      exact exists_walkStart_relative hdir hs hsdot hrelative hpieces

end start

section files

variable {start : Path} {content : Bytes}

theorem read_eq_ok_iff_ways {p : Path} : t.read cwd p = .ok content ↔ Speaks p ∧ p.slashed = false ∧
    ∃ k, Ways t true linkLimit (origin cwd p) p.steps k ∧ t.lookup k = some (.file content) := by
  rw [read_eq_ok]
  constructor
  · rintro ⟨spot, hspot, hfile, hslash⟩
    obtain ⟨hspeaks, hways, -, hslashed⟩ := locate_eq_ok.mp hspot
    exact ⟨hspeaks, hslashed.symm.trans hslash, spot.key, hways, hfile⟩
  · rintro ⟨hspeaks, hslashed, k, hways, hfile⟩
    exact ⟨⟨k, p.endsInName, p.slashed⟩, locate_eq_ok.mpr ⟨hspeaks, hways, rfl, rfl⟩, hfile, hslashed⟩

/-- A walk comes to a file on another path than the one the directory and the names make, but both
lead there. -/
theorem read_entered (hstart : IsStart dir start) (hne : rel ≠ []) (hrel : ∀ s ∈ rel, IsName s) :
    t.read cwd (entered start rel) = .ok content ↔ t.read cwd (dir.below rel) = .ok content := by
  obtain ⟨hsteps, habsolute, hslashed⟩ := entered_spec start hne hrel
  have hbelow := Path.steps_below dir hrel
  have hnames : dir.steps ++ rel ≠ [] := by simp [hne]
  have horigin : origin cwd (dir.below rel) = origin cwd (entered start rel) := by
    rw [origin, origin, Path.isAbsolute_below hrel, habsolute, hstart.absolute]
  have hspeaks : Speaks (dir.below rel) ↔ Speaks (entered start rel) := by
    rw [speaks_iff_steps, speaks_iff_steps, hsteps, hbelow]
    refine and_congr (iff_of_true (text_ne_of_steps (by rwa [hbelow]))
      (text_ne_of_steps (by simp [hsteps, hne]))) ?_
    rcases hstart.spelled with ⟨hdir, hdot⟩ | ⟨-, hdot, hsame⟩
    · rw [reach, if_pos hdot, steps_current hdir, List.forall_mem_append]
      simp
    · rw [reach, if_neg hdot, hsame]
  have hways : ∀ k, Ways t true linkLimit (origin cwd (entered start rel)) (dir.steps ++ rel) k ↔
      Ways t true linkLimit (origin cwd (entered start rel)) (reach start ++ rel) k := by
    intro k
    rcases hstart.spelled with ⟨hdir, hdot⟩ | ⟨-, hdot, hsame⟩
    · obtain ⟨s, rest, rfl⟩ := List.exists_cons_of_ne_nil hne
      rw [reach, if_pos hdot, steps_current hdir]
      exact ⟨fun h => h.of_current.2, fun h => .stay h.dir_of_cons (Or.inr rfl) h⟩
    · rw [reach, if_neg hdot, hsame]
  rw [read_eq_ok_iff_ways, read_eq_ok_iff_ways, Path.slashed_below hne hrel, hslashed, hsteps,
    hbelow, hspeaks, horigin]
  simp only [hways]

theorem length_le_walkDepth (hne : rel ≠ []) (hrel : ∀ s ∈ rel, IsName s)
    (h : t.read cwd (entered start rel) = .ok content) : rel.length ≤ t.walkDepth := by
  obtain ⟨-, -, k, hways, hfile⟩ := read_eq_ok_iff_ways.mp h
  have hends := (endsWithin_of_ways hways (by simp [hfile])).1
  rw [(entered_spec start hne hrel).1] at hends
  have hlength := hends rel (List.suffix_append _ _) hrel
  have hdepth : t.walkDepth = linkLimit * (t.entries.length + 1) + (t.entries.length + 1) := by
    rw [walkDepth, Nat.add_mul, Nat.one_mul]
  omega

/-- The walk finds every file below a directory, and each on the path its names make. -/
theorem mem_filesBelow (hdir : t.isDir cwd dir = true)
    (hspelled : dir.text = "." ∨ dir.pieces.head? ≠ some ".")
    (hnames : ∀ e ∈ t.entries, ∀ s ∈ e.1, IsName s) :
    ∃ start, t.walkStart? cwd dir = some start ∧ IsStart dir start ∧
      ∀ p, p ∈ t.filesBelow cwd dir ↔
        ∃ rel, rel ≠ [] ∧ (∀ s ∈ rel, IsName s) ∧ p = entered start rel ∧
          ∃ content, t.read cwd p = .ok content := by
  obtain ⟨start, hwalk, hstart⟩ := exists_walkStart hdir hspelled
  refine ⟨start, hwalk, hstart, fun p => ?_⟩
  rw [filesBelow, hwalk, (List.mergeSort_perm _ _).mem_iff, List.mem_filter]
  constructor
  · rintro ⟨hbelow, hfile⟩
    obtain ⟨rel, hrelne, hrel, rfl⟩ := exists_of_mem_pathsBelow hnames hbelow
    exact ⟨rel, hrelne, hrel, rfl, isFile_iff.mp hfile⟩
  · rintro ⟨rel, hrelne, hrel, rfl, content, hread⟩
    have hfile := isFile_iff.mpr ⟨content, hread⟩
    exact ⟨mem_pathsBelow hstart.nonempty (length_le_walkDepth hrelne hrel hread) hrelne hrel hfile, hfile⟩

/-- In a directory that holds files only, the walk comes to these. -/
theorem filesBelow_flat (start : Path) {k : Key} {names : List String}
    (hstart : t.walkStart? cwd dir = some start)
    (hk : t.entryAt cwd true start = .ok (k, .dir)) (hnames : t.names k = names)
    (hfiles : ∀ p ∈ names.map (childPath start), t.isFile cwd p = true)
    (hsorted : (names.map (childPath start)).Pairwise fun p q => (p.compare q != .gt) = true) :
    t.filesBelow cwd dir = names.map (childPath start) := by
  have hleaf : ∀ depth, ∀ name ∈ names, t.pathsBelow cwd depth (childPath start name) = [] := by
    intro depth name hname
    obtain ⟨content, hread⟩ := isFile_iff.mp (hfiles _ (List.mem_map_of_mem hname))
    obtain ⟨spot, hspot, hfile, hslash⟩ := read_eq_ok.mp hread
    have hentry := entryAt_eq_ok.mpr ⟨spot, hspot, rfl, hfile, Or.inr hslash⟩
    cases depth with
    | zero => rfl
    | succ depth => rw [pathsBelow, hentry]
  have hbelow : t.pathsBelow cwd t.walkDepth start = names.map (childPath start) := by
    have hdepth : t.walkDepth = t.walkDepth - 1 + 1 := by
      rw [walkDepth, linkLimit]
      omega
    rw [hdepth, pathsBelow, hk]
    simp only [hnames]
    rw [List.map_eq_flatMap]
    exact List.flatMap_congr fun name hname => by rw [hleaf _ name hname]
  rw [filesBelow, hstart]
  simp only [hbelow, List.filter_eq_self.mpr hfiles]
  exact List.mergeSort_of_pairwise hsorted

/-- A separator behind a lone `.` stops the walk before it starts. -/
theorem filesBelow_current_slash (t : FileTree) (cwd : Key) : t.filesBelow cwd ⟨"./"⟩ = [] := by
  have hpieces : (Path.mk "./").pieces = [".", ""] := by decide
  have hempty : t.isThere cwd ⟨""⟩ = false := rfl
  have hwalk : t.walkStart? cwd ⟨"./"⟩ = none := by
    rw [walkStart?, hpieces]
    simp [walkFrom, hempty]
  rw [filesBelow, hwalk]

end files

end SlotBuild.FileTree
