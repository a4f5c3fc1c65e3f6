import Mathlib.Data.List.Nodup
import Mathlib.Data.Set.List
import SlotBuild.Proofs.FileTree.Contents

/-! What a directory is hashed as depends on the files in it only: not on where it is, not on how it
is written, and not on the order in which a walk comes to the files. -/

namespace SlotBuild

namespace Path

theorem compareComponents_eq (a b : List Component) :
    compareComponents a b = List.compareLex Component.compare a b := by
  induction a generalizing b with
  | nil => cases b <;> rfl
  | cons x a ih =>
    cases b with
    | nil => rfl
    | cons y b => rw [compareComponents, ih, List.compareLex_cons_cons]

instance : Std.TransCmp Component.compare :=
  inferInstanceAs (Std.TransCmp (compareLex (compareOn fun c : Component => c.key.1)
    (compareOn fun c => c.key.2)))

theorem compareComponents_append_left (base a b : List Component) :
    compareComponents (base ++ a) (base ++ b) = compareComponents a b := by
  induction base with
  | nil => rfl
  | cons c base ih => simp [compareComponents, ih, Std.ReflCmp.compare_self]

theorem compareComponents_names (a b : List String) :
    compareComponents (a.map .name) (b.map .name) = Ord.compare a b := by
  rw [compareComponents_eq]
  induction a generalizing b with
  | nil => cases b <;> rfl
  | cons x a ih =>
    cases b with
    | nil => rfl
    | cons y b =>
      have hname : Component.compare (.name x) (.name y) = Ord.compare x y := rfl
      rw [List.map_cons, List.map_cons, List.compareLex_cons_cons, ih, hname]
      exact (List.compareLex_cons_cons).symm

theorem Relative.eq_of_names {a b : Relative} (h : a.names = b.names) : a = b := by
  cases a
  cases b
  obtain rfl : _ = _ := h
  rfl

theorem Relative.eq_of_compare {a b : Relative} (hab : (Ord.compare a.names b.names != .gt) = true)
    (hba : (Ord.compare b.names a.names != .gt) = true) : a = b := by
  have hle : ∀ {o : Ordering}, (o != .gt) = true → o.isLE = true := by
    rintro (_ | _ | _) ho
    · rfl
    · rfl
    · simp at ho
  exact eq_of_names (Std.LawfulEqCmp.eq_of_compare (Std.OrientedCmp.isLE_antisymm (hle hab) (hle hba)))

/-- The order in which the paths of a directory are hashed. -/
def before (p q : Path) : Bool := p.compare q != .gt

theorem before_iff {p q : Path} :
    before p q = true ↔ (List.compareLex Component.compare p.components q.components).isLE = true := by
  rw [before, compare, compareComponents_eq]
  cases List.compareLex Component.compare p.components q.components <;> decide

theorem pairwise_mergeSort (ps : List Path) :
    (ps.mergeSort before).Pairwise fun p q => before p q = true := by
  refine List.pairwise_mergeSort (fun p q r hpq hqr => ?_) (fun p q => ?_) ps
  · rw [before_iff] at hpq hqr ⊢
    exact Std.TransCmp.isLE_trans hpq hqr
  · have hswap : List.compareLex Component.compare p.components q.components =
        (List.compareLex Component.compare q.components p.components).swap := Std.OrientedCmp.eq_swap
    rw [Bool.or_eq_true, before_iff, before_iff, hswap]
    cases List.compareLex Component.compare q.components p.components <;> decide

end Path

namespace FileTree

open SlotBuild.Path (IsName Relative before)

variable {t t' : FileTree} {cwd cwd' : Key} {dir dir' start : Path}

/-- A directory of a file system in which no name is there twice, written without a `.` in front. -/
structure Listed (t : FileTree) (cwd : Key) (dir : Path) : Prop where
  is_dir : t.isDir cwd dir = true
  spelled : dir.text = "." ∨ dir.pieces.head? ≠ some "."
  named : ∀ e ∈ t.entries, ∀ s ∈ e.1, IsName s
  distinct : (t.entries.map (·.1)).Nodup

section walk

theorem nodup_names (h : (t.entries.map (·.1)).Nodup) (k : Key) : (t.names k).Nodup := by
  rw [names, (List.mergeSort_perm _ _).nodup_iff, List.Nodup, List.pairwise_filterMap]
  refine (List.pairwise_map.mp h).imp fun {e e'} hne n hn n' hn' hsame => hne ?_
  obtain ⟨key, e⟩ := e
  obtain ⟨key', e'⟩ := e'
  rcases List.eq_nil_or_concat' key with rfl | ⟨front, last, rfl⟩
  · simp at hn
  · rcases List.eq_nil_or_concat' key' with rfl | ⟨front', last', rfl⟩
    · simp at hn'
    · simp only [List.getLast?_concat, List.dropLast_concat, Option.ite_none_right_eq_some,
        Option.some.injEq] at hn hn'
      obtain ⟨rfl, rfl⟩ := hn
      obtain ⟨rfl, rfl⟩ := hn'
      rw [hsame]

theorem steps_of_listed (hnames : ∀ e ∈ t.entries, ∀ s ∈ e.1, IsName s) {depth : Nat} {name : String}
    (hname : IsName name) {p : Path}
    (h : p ∈ childPath start name :: t.pathsBelow cwd depth (childPath start name)) :
    ∃ more, p.steps = reach start ++ name :: more := by
  rcases List.mem_cons.mp h with rfl | h
  · exact ⟨[], steps_childPath hname⟩
  · obtain ⟨rel, hne, hrel, rfl⟩ := exists_of_mem_pathsBelow hnames h
    refine ⟨rel, ?_⟩
    rw [(entered_spec _ hne hrel).1, reach_childPath hname, List.append_assoc]
    rfl

/-- A walk comes to nothing twice on the same path. -/
theorem nodup_pathsBelow (hnames : ∀ e ∈ t.entries, ∀ s ∈ e.1, IsName s)
    (hdistinct : (t.entries.map (·.1)).Nodup)
    (depth : Nat) (start : Path) : (t.pathsBelow cwd depth start).Nodup := by
  induction depth generalizing start with
  | zero => exact List.nodup_nil
  | succ depth ih =>
    rw [pathsBelow]
    split
    case h_1 k _ =>
      have hname : ∀ name ∈ t.names k, IsName name := by
        intro name hmem
        obtain ⟨e, he, hkey⟩ := mem_names.mp hmem
        exact hnames e he name (by simp [hkey])
      refine List.nodup_flatMap.mpr ⟨fun name hmem => List.nodup_cons.mpr ⟨fun hself => ?_, ih _⟩, ?_⟩
      · obtain ⟨rel, hne, hrel, hsame⟩ := exists_of_mem_pathsBelow hnames hself
        have hsteps := congrArg Path.steps hsame
        rw [(entered_spec _ hne hrel).1, reach_childPath (hname name hmem),
          steps_childPath (hname name hmem)] at hsteps
        exact hne (by simpa using hsteps)
      · refine ((nodup_names hdistinct k).imp_of_mem fun {a b} ha hb hab => ?_)
        rintro p hpa hpb
        obtain ⟨more, hmore⟩ := steps_of_listed hnames (hname a ha) hpa
        obtain ⟨more', hmore'⟩ := steps_of_listed hnames (hname b hb) hpb
        rw [hmore] at hmore'
        exact hab (List.cons.inj (List.append_cancel_left hmore')).1
    case h_2 => exact List.nodup_nil

end walk

section files

theorem filesBelow_eq (h : t.walkStart? cwd dir = some start) : t.filesBelow cwd dir =
    ((t.pathsBelow cwd t.walkDepth start).filter (t.isFile cwd)).mergeSort before := by
  rw [filesBelow, h]
  rfl

/-- Of two files that are hashed one after the other, the names come one after the other. -/
theorem before_entered (h : Listed t cwd dir) (hstart : IsStart dir start) (a b : Relative) :
    before (entered start a.names) (entered start b.names) = (Ord.compare a.names b.names != .gt) := by
  have hne := (isDir_iff.mp h.is_dir).1.nonempty
  have hnames : ∀ rel : Relative, rel.names.filterMap Path.componentOf? = rel.names.map .name := fun rel => by
    rw [← List.filterMap_eq_map]
    exact List.filterMap_congr fun s hs => (rel.named s hs).componentOf?
  rw [before, Path.compare, components_entered h.spelled hne hstart a.nonempty a.named,
    components_entered h.spelled hne hstart b.nonempty b.named,
    Path.compareComponents_append_left, hnames, hnames,
    Path.compareComponents_names]

theorem entered_injective (start : Path) {a b : Relative}
    (h : entered start a.names = entered start b.names) :
    a = b := by
  have hsteps := congrArg Path.steps h
  rw [(entered_spec start a.nonempty a.named).1, (entered_spec start b.nonempty b.named).1] at hsteps
  exact Path.Relative.eq_of_names (List.append_cancel_left hsteps)

/-- The files that are hashed, by their names, in the order of the names. -/
theorem Listed.exists_relatives (h : Listed t cwd dir) : ∃ start, t.walkStart? cwd dir = some start ∧
    IsStart dir start ∧ ∃ rels : List Relative,
      t.filesBelow cwd dir = rels.map (fun rel => entered start rel.names) ∧
      rels.Nodup ∧ rels.Pairwise (fun a b => (Ord.compare a.names b.names != .gt) = true) ∧
        (∀ rel, rel ∈ rels ↔ ∃ content, t.contents cwd dir rel = some content) ∧
          ∀ rel content, t.read cwd (entered start rel.names) = .ok content ↔
            t.contents cwd dir rel = some content := by
  obtain ⟨start, hwalk, hstart, hbelow, hread⟩ := exists_entered h.is_dir h.spelled h.named
  have hrange : t.filesBelow cwd dir ∈
      Set.range (List.map fun rel : Relative => entered start rel.names) := by
    rw [Set.range_list_map]
    intro p hp
    obtain ⟨rel, rfl, -⟩ := (hbelow p).mp hp
    exact ⟨rel, rfl⟩
  obtain ⟨rels, hrels⟩ := hrange
  have hsorted := Path.pairwise_mergeSort ((t.pathsBelow cwd t.walkDepth start).filter (t.isFile cwd))
  have hnodup : (t.filesBelow cwd dir).Nodup := by
    rw [filesBelow_eq hwalk, (List.mergeSort_perm _ _).nodup_iff]
    exact (nodup_pathsBelow h.named h.distinct _ _).filter _
  rw [← filesBelow_eq hwalk, ← hrels, List.pairwise_map] at hsorted
  rw [← hrels] at hnodup
  refine ⟨start, hwalk, hstart, rels, hrels.symm, hnodup.of_map, ?_, fun rel => ?_, hread⟩
  · exact hsorted.imp fun {a b} hab => by rwa [before_entered h hstart] at hab
  · constructor
    · intro hmem
      have hfile := List.mem_map_of_mem (f := fun rel : Relative => entered start rel.names) hmem
      obtain ⟨rel', hsame, content, hcontent⟩ := (hbelow _).mp (hrels ▸ hfile)
      exact ⟨content, (hread rel content).mp (hsame ▸ (hread rel' content).mpr hcontent)⟩
    · rintro ⟨content, hcontent⟩
      have hfile := (hbelow _).mpr ⟨rel, rfl, content, hcontent⟩
      rw [← hrels] at hfile
      obtain ⟨rel', hmem, hsame⟩ := List.mem_map.mp hfile
      rwa [← entered_injective start hsame]

theorem readAll_entered (h : Listed t cwd dir) (hstart : IsStart dir start)
    (hread : ∀ (rel : Relative) content, t.read cwd (entered start rel.names) = .ok content ↔
      t.contents cwd dir rel = some content) {rels : List Relative}
    (hrels : ∀ rel ∈ rels, ∃ content, t.contents cwd dir rel = some content) :
    t.readAll cwd dir (rels.map fun rel => entered start rel.names) =
      .ok (rels.map fun rel => (rel.text, (t.contents cwd dir rel).getD [])) := by
  have hne := (isDir_iff.mp h.is_dir).1.nonempty
  induction rels with
  | nil => rfl
  | cons rel rels ih =>
    obtain ⟨⟨content, hcontent⟩, hrest⟩ := List.forall_mem_cons.mp hrels
    rw [List.map_cons, readAll, (hread rel content).mpr hcontent, ih hrest,
      nameBelow_entered h.spelled hne hstart rel, List.map_cons, hcontent]
    rfl

theorem files_of_contents_eq (h : Listed t cwd dir) (h' : Listed t' cwd' dir')
    (hsame : t.contents cwd dir = t'.contents cwd' dir') :
    ∃ files, t.files cwd dir = .ok files ∧ t'.files cwd' dir' = .ok files := by
  obtain ⟨start, -, hstart, rels, hrels, hnodup, hsorted, hmem, hread⟩ := h.exists_relatives
  obtain ⟨start', -, hstart', rels', hrels', hnodup', hsorted', hmem', hread'⟩ := h'.exists_relatives
  have hperm : rels.Perm rels' := by
    refine (List.perm_ext_iff_of_nodup hnodup hnodup').mpr fun rel => ?_
    rw [hmem, hmem', hsame]
  obtain rfl : rels = rels' :=
    List.Perm.eq_of_pairwise (fun a b _ _ => Path.Relative.eq_of_compare) hsorted hsorted' hperm
  refine ⟨_, by rw [files, hrels, readAll_entered h hstart hread fun rel => (hmem rel).mp], ?_⟩
  rw [files, hrels', readAll_entered h' hstart' hread' fun rel => (hmem' rel).mp, hsame]

/-- Directories that hold the same files have the same digest, wherever they are and however they
are written and whatever else lies beside them, and it makes no difference in which order a walk
comes to the files. -/
theorem digestTree_of_contents_eq (h : Listed t cwd dir) (h' : Listed t' cwd' dir')
    (hsame : t.contents cwd dir = t'.contents cwd' dir') :
    (∃ digest, t.digestTree cwd dir = .ok digest ∧ t'.digestTree cwd' dir' = .ok digest) ∧
      ∃ start, t.walkStart? cwd dir = some start ∧
        ∀ ps : List Path, ps.Perm ((t.pathsBelow cwd t.walkDepth start).filter (t.isFile cwd)) →
          ps.mergeSort before = t.filesBelow cwd dir := by
  constructor
  · obtain ⟨files, hfiles, hfiles'⟩ := files_of_contents_eq h h' hsame
    refine ⟨Digest.ofBytes (encodeFiles files), ?_, ?_⟩
    · rw [digestTree_eq_treeBytes, treeBytes, hfiles]
      rfl
    · rw [digestTree_eq_treeBytes, treeBytes, hfiles']
      rfl
  · obtain ⟨start, hwalk, hstart, rels, hrels, -⟩ := h.exists_relatives
    refine ⟨start, hwalk, fun ps hperm => ?_⟩
    have hsort : (ps.mergeSort before).Perm (t.filesBelow cwd dir) := by
      rw [filesBelow_eq hwalk]
      exact ((List.mergeSort_perm _ _).trans hperm).trans (List.mergeSort_perm _ _).symm
    have hsorted := Path.pairwise_mergeSort ((t.pathsBelow cwd t.walkDepth start).filter (t.isFile cwd))
    rw [← filesBelow_eq hwalk] at hsorted
    refine List.Perm.eq_of_pairwise (fun p q hp hq hpq hqp => ?_) (Path.pairwise_mergeSort ps) hsorted hsort
    rw [hrels] at hq
    obtain ⟨b, -, rfl⟩ := List.mem_map.mp hq
    obtain ⟨a, -, rfl⟩ := List.mem_map.mp (hrels ▸ hsort.mem_iff.mp hp)
    rw [before_entered h hstart] at hpq hqp
    rw [Path.Relative.eq_of_compare hpq hqp]

/-- A `.` in front makes no difference to what is read. -/
theorem contents_of_current (habsolute : dir'.isAbsolute = dir.isAbsolute)
    (hsteps : dir'.steps = "." :: dir.steps) :
    t.contents cwd dir' = t.contents cwd dir := by
  funext rel
  refine Option.ext fun content => ?_
  have hnamed := rel.named
  have hbelow := Path.steps_below dir hnamed
  have hbelow' := Path.steps_below dir' hnamed
  rw [hsteps, List.cons_append, ← hbelow] at hbelow'
  have horigin : origin cwd (dir'.below rel.names) = origin cwd (dir.below rel.names) := by
    rw [origin, origin, Path.isAbsolute_below hnamed, Path.isAbsolute_below hnamed, habsolute]
  obtain ⟨s, rest, hcons⟩ := List.exists_cons_of_ne_nil (show (dir.below rel.names).steps ≠ [] by
    simp [hbelow, rel.nonempty])
  have hspeaks : Speaks (dir'.below rel.names) ↔ Speaks (dir.below rel.names) := by
    rw [speaks_iff_steps, speaks_iff_steps, hbelow']
    refine and_congr (iff_of_true (text_ne_of_steps (by simp [hbelow']))
      (text_ne_of_steps (by simp [hcons]))) ?_
    simp
  rw [contents_eq_some, contents_eq_some, read_eq_ok_iff_ways, read_eq_ok_iff_ways,
    Path.slashed_below rel.nonempty hnamed, Path.slashed_below rel.nonempty hnamed, hspeaks,
    hbelow', horigin, hcons]
  refine and_congr_right fun _ => and_congr_right fun _ => exists_congr fun k => and_congr_left fun _ => ?_
  exact ⟨fun h => h.of_current.2, fun h => .stay h.dir_of_cons (Or.inr rfl) h⟩

end files

namespace Folder

/-- The files of `apart` in another place. -/
def moved : FileTree :=
  ⟨[(["e", "x", "a"], .file []), (["e"], .dir), (["e", "x", "b"], .file []), (["e", "x"], .dir)]⟩

theorem names_moved : moved.names ["e", "x"] = ["a", "b"] := by
  have hfound : moved.names ["e", "x"] = ["a", "b"].mergeSort fun a b => decide (a ≤ b) := by
    unfold names
    congr 1
  rw [hfound]
  exact List.mergeSort_of_pairwise (by decide)

theorem filesBelow_moved : moved.filesBelow ["e"] ⟨"/e/./x/"⟩ = [⟨"/e/./x/a"⟩, ⟨"/e/./x/b"⟩] :=
  filesBelow_flat ⟨"/e/./x/"⟩ (by decide +kernel) (by decide +kernel) names_moved
    (by decide +kernel) (by decide +kernel)

theorem walkable_moved : Walkable moved ["e"] ⟨"/e/./x/"⟩ where
  is_dir := by decide
  spelled := Or.inr (by decide)
  named := by decide
  fits := by
    rw [filesBelow_moved]
    decide

theorem listed_apart : Listed apart [] ⟨"d"⟩ where
  is_dir := by decide
  spelled := Or.inr (by decide)
  named := by decide
  distinct := by decide

theorem listed_moved : Listed moved ["e"] ⟨"/e/./x/"⟩ where
  is_dir := walkable_moved.is_dir
  spelled := walkable_moved.spelled
  named := walkable_moved.named
  distinct := by decide

theorem contents_moved : apart.contents [] ⟨"d"⟩ = moved.contents ["e"] ⟨"/e/./x/"⟩ := by
  refine contents_of_files_eq walkable_apart walkable_moved ?_
  rw [files, files, filesBelow_apart, filesBelow_moved]
  decide

theorem moved_digest : Listed apart [] ⟨"d"⟩ ∧ Listed moved ["e"] ⟨"/e/./x/"⟩ ∧
    apart.contents [] ⟨"d"⟩ = moved.contents ["e"] ⟨"/e/./x/"⟩ ∧
      (∃ digest, apart.digestTree [] ⟨"d"⟩ = .ok digest ∧ moved.digestTree ["e"] ⟨"/e/./x/"⟩ = .ok digest) ∧
        ∃ start, apart.walkStart? [] ⟨"d"⟩ = some start ∧
          ∀ ps : List Path, ps.Perm ((apart.pathsBelow [] apart.walkDepth start).filter (apart.isFile [])) →
            ps.mergeSort before = apart.filesBelow [] ⟨"d"⟩ :=
  ⟨listed_apart, listed_moved, contents_moved, digestTree_of_contents_eq listed_apart listed_moved
    contents_moved⟩

theorem filesBelow_dotted : apart.filesBelow [] ⟨"./d"⟩ = [⟨"d/a"⟩, ⟨"d/b"⟩] :=
  filesBelow_flat ⟨"d"⟩ (by decide) (by decide) names_apart (by decide) (by decide)

/-- Written with a `.` in front, a directory is hashed with other names than without. -/
theorem dotted_digest : apart.isDir [] ⟨"./d"⟩ = true ∧ apart.contents [] ⟨"./d"⟩ = apart.contents [] ⟨"d"⟩ ∧
    ∃ digest digest', apart.digestTree [] ⟨"d"⟩ = .ok digest ∧ apart.digestTree [] ⟨"./d"⟩ = .ok digest' ∧
      digest ≠ digest' := by
  have hplain : apart.treeBytes [] ⟨"d"⟩ = .ok (encodeFiles [("a", []), ("b", [])]) := by
    rw [treeBytes, files, filesBelow_apart]
    decide
  have hdotted : apart.treeBytes [] ⟨"./d"⟩ = .ok (encodeFiles [("d/a", []), ("d/b", [])]) := by
    rw [treeBytes, files, filesBelow_dotted]
    decide
  exact ⟨by decide, contents_of_current (by decide) (by decide), _, _,
    digestTree_eq_treeBytes.trans (congrArg _ hplain), digestTree_eq_treeBytes.trans (congrArg _ hdotted),
    by decide +kernel⟩

end Folder

end FileTree

end SlotBuild
