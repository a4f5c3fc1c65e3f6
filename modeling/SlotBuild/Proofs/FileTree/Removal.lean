import SlotBuild.FileTree.Replace
import SlotBuild.Proofs.FileTree.Resolution

/-! Removing a directory with all it holds. Where no link is on the way of a path, its steps alone
say what is removed, and which other paths still lead where they have led. -/

namespace SlotBuild.FileTree

variable {t t' left : FileTree} {cwd cur j k : Key} {p q : Path} {ps : List String} {through : Bool}
    {links : Nat}

/-- Where a step leads by its text. -/
def resolveStep (k : Key) (s : String) : Key :=
  if s = "" ∨ s = "." then k else if s = ".." then k.dropLast else k ++ [s]

/-- Where a path leads by its text. -/
def lexical (cwd : Key) (p : Path) : Key := p.steps.foldl resolveStep (origin cwd p)

/-- What a path leads through by its text, from where it starts to where it ends. -/
def passed (cwd : Key) (p : Path) : List Key := p.steps.scanl resolveStep (origin cwd p)

/-- There is no link on the way of the path. -/
def Plain (t : FileTree) (cwd : Key) (p : Path) : Prop :=
  ∀ j ∈ passed cwd p, ∀ target, t.lookup j ≠ some (.link target)

section lexical

theorem resolveStep_of_names {s : String} (h : Names s) : resolveStep k s = k ++ [s] := by
  simp [resolveStep, h.nonempty, h.not_current, h.not_parent]

theorem mem_scanl_self (ps : List String) (cur : Key) : cur ∈ ps.scanl resolveStep cur := by
  cases ps <;> simp

/-- Along steps that lead through no link a way is what their text says, and it is the same way for
every file system that has the same entries on it. -/
theorem Ways.of_lookup_eq (h : Ways t through links cur ps k)
    (hplain : ∀ j ∈ ps.scanl resolveStep cur, ∀ target, t.lookup j ≠ some (.link target))
    (hsame : ∀ j ∈ ps.scanl resolveStep cur, t'.lookup j = t.lookup j) :
    k = ps.foldl resolveStep cur ∧ Ways t' through links cur ps k := by
  induction h with
  | here => exact ⟨rfl, .here⟩
  | @stay links cur k p rest dir current _ ih =>
    have hstep : resolveStep cur p = cur := by rw [resolveStep, if_pos current]
    rw [List.scanl_cons, hstep, List.forall_mem_cons] at hplain hsame
    obtain ⟨hk, hmore⟩ := ih hplain.2 hsame.2
    exact ⟨by rw [List.foldl_cons, hstep, hk], .stay (hsame.1.trans dir) current hmore⟩
  | @up links cur k rest dir _ ih =>
    have hstep : resolveStep cur ".." = cur.dropLast := by simp [resolveStep]
    rw [List.scanl_cons, hstep, List.forall_mem_cons] at hplain hsame
    obtain ⟨hk, hmore⟩ := ih hplain.2 hsame.2
    exact ⟨by rw [List.foldl_cons, hstep, hk], .up (hsame.1.trans dir) hmore⟩
  | @down links cur k p rest dir names unlinked _ ih =>
    rw [List.scanl_cons, resolveStep_of_names names, List.forall_mem_cons] at hplain hsame
    obtain ⟨hk, hmore⟩ := ih hplain.2 hsame.2
    have hchild := hsame.2 _ (mem_scanl_self rest (cur ++ [p]))
    refine ⟨by rw [List.foldl_cons, resolveStep_of_names names, hk], ?_⟩
    exact .down (hsame.1.trans dir) names (by simpa [hchild] using unlinked) hmore
  | stop _ names link =>
    rw [List.scanl_cons, resolveStep_of_names names] at hplain
    exact absurd link (hplain _ (List.mem_cons_of_mem _ (mem_scanl_self _ _)) _)
  | follow _ names link =>
    rw [List.scanl_cons, resolveStep_of_names names] at hplain
    exact absurd link (hplain _ (List.mem_cons_of_mem _ (mem_scanl_self _ _)) _)

theorem locate_of_plain {spot : Spot} (h : t.locate cwd through p = .ok spot) (hplain : Plain t cwd p)
    (hsame : ∀ j ∈ passed cwd p, t'.lookup j = t.lookup j) :
    spot.key = lexical cwd p ∧ t'.locate cwd through p = .ok spot := by
  obtain ⟨hspeaks, hways, hends, hslash⟩ := locate_eq_ok.mp h
  obtain ⟨hkey, hways'⟩ := hways.of_lookup_eq hplain hsame
  exact ⟨hkey, locate_eq_ok.mpr ⟨hspeaks, hways', hends, hslash⟩⟩

end lexical

/-- Nothing is left in `left` that was not there before, and everything is that is neither `k` nor
below it. -/
structure Removed (t left : FileTree) (k : Key) : Prop where
  kept : ∀ j, ¬ k <+: j → left.lookup j = t.lookup j
  nothing_new : ∀ j e, left.lookup j = some e → t.lookup j = some e

namespace Removed

theorem refl (t : FileTree) (k : Key) : Removed t t k := ⟨fun _ _ => rfl, fun _ _ h => h⟩

theorem trans {t'' : FileTree} (h : Removed t t' k) (h' : Removed t' t'' k) : Removed t t'' k :=
  ⟨fun j hj => (h'.kept j hj).trans (h.kept j hj), fun j e he => h.nothing_new j e (h'.nothing_new j e he)⟩

theorem plain (h : Removed t left k) (hp : Plain t cwd p) : Plain left cwd p :=
  fun j hj target hlink => hp j hj target (h.nothing_new j _ hlink)

end Removed

section erase

theorem removed_erase (t : FileTree) (k : Key) : Removed t (t.erase k) k where
  kept j hj := lookup_erase_ne t (by rintro rfl; exact hj List.prefix_rfl)
  nothing_new j e he := by
    by_cases hkj : k = j
    · subst hkj
      by_cases hroot : k = []
      · subst hroot
        exact he
      · simp [lookup_erase_self t hroot] at he
    · rwa [lookup_erase_ne t hkj] at he

theorem lookup_filter (t : FileTree) (f : Key → Bool) (hj : j ≠ []) :
    (FileTree.mk (t.entries.filter fun e => f e.1)).lookup j = if f j then t.lookup j else none := by
  have hfind : ∀ e : Key × Entry,
      decide (f e.1 = true ∧ decide (e.1 = j) = true) = (f j && decide (e.1 = j)) := by
    intro e
    by_cases he : e.1 = j
    · simp [he]
    · simp [he]
  simp only [lookup, if_neg hj, List.find?_filter, hfind]
  cases f j <;> simp

theorem lookup_eraseBelow (t : FileTree) (k j : Key) :
    (t.eraseBelow k).lookup j = if k <+: j ∧ j ≠ k then none else t.lookup j := by
  by_cases hroot : j = []
  · subst hroot
    rw [if_neg fun h => h.2 (List.prefix_nil.mp h.1).symm]
    rfl
  · have hkept : (!(isUnder k j && j ≠ k)) = true ↔ ¬ (k <+: j ∧ j ≠ k) := by
      rw [Bool.not_eq_true', Bool.and_eq_false_iff, isUnder,
        decide_eq_false_iff_not, Bool.eq_false_iff, ne_eq,
        List.isPrefixOf_iff_prefix, ← not_and_or]
    rw [eraseBelow, lookup_filter t (fun j => !(isUnder k j && j ≠ k)) hroot]
    by_cases h : k <+: j ∧ j ≠ k
    · rw [if_pos h, if_neg fun hkeep => hkept.mp hkeep h]
    · rw [if_neg h, if_pos (hkept.mpr h)]

theorem removed_eraseBelow (t : FileTree) (k : Key) : Removed t (t.eraseBelow k) k where
  kept j hj := by rw [lookup_eraseBelow, if_neg fun h => hj h.1]
  nothing_new j e he := by
    rw [lookup_eraseBelow] at he
    split at he
    · cases he
    · exact he

end erase

section removeTree

theorem climb_spec (cur : Key) (ps : List String) : (climb cur ps).2.foldl resolveStep (climb cur ps).1 =
    ps.foldl resolveStep cur ∧ ∀ j ∈ (climb cur ps).2.scanl resolveStep (climb cur ps).1,
      j ∈ ps.scanl resolveStep cur := by
  induction ps generalizing cur with
  | nil => simp [climb]
  | cons p rest ih =>
    rw [climb]
    by_cases hdot : p = "."
    · rw [if_pos hdot]
      have hstep : resolveStep cur p = cur := by rw [resolveStep, if_pos (Or.inr hdot)]
      rw [List.foldl_cons, List.scanl_cons, hstep]
      exact ⟨(ih cur).1, fun j hj => List.mem_cons_of_mem _ ((ih cur).2 j hj)⟩
    · rw [if_neg hdot]
      by_cases hup : p = ".."
      · rw [if_pos hup]
        have hstep : resolveStep cur p = cur.dropLast := by simp [resolveStep, hup]
        rw [List.foldl_cons, List.scanl_cons, hstep]
        exact ⟨(ih _).1, fun j hj => List.mem_cons_of_mem _ ((ih _).2 j hj)⟩
      · rw [if_neg hup]
        exact ⟨rfl, fun _ hj => hj⟩

theorem locateGone_eq_ok (hplain : Plain t cwd p) (h : t.locateGone cwd p = .ok k) : k = lexical cwd p := by
  obtain ⟨hfold, hscan⟩ := climb_spec (origin cwd p) p.steps
  rw [locateGone, ← origin, ← Path.steps] at h
  rcases hclimb : climb (origin cwd p) p.steps with ⟨start, _ | ⟨next, rest⟩⟩
  · rw [hclimb] at h hfold
    exact (Except.ok.inj h).symm.trans hfold
  · rw [hclimb] at h hfold hscan
    have hkey := ((ways_of_descend h).of_lookup_eq (fun j hj => hplain j (hscan j hj)) fun _ _ => rfl).1
    exact hkey.trans hfold

theorem removeEmptied_eq_ok (h : t.removeEmptied cwd p = .ok left) :
    ∃ k, t.locateGone cwd p = .ok k ∧ left = t.erase k := by
  rw [removeEmptied, ← Path.steps] at h
  cases hlast : p.steps.getLast? with
  | none => simp only [hlast, reduceCtorEq] at h
  | some last =>
    cases hlocate : t.locateGone cwd p with
    | error e => simp only [hlast, hlocate, reduceCtorEq] at h
    | ok k =>
      simp only [hlast, hlocate] at h
      split_ifs at h
      cases hentry : t.lookup k with
      | none => simp [hentry] at h
      | some e =>
        cases e with
        | dir =>
          simp only [hentry, Except.ok.injEq] at h
          exact ⟨k, rfl, h.symm⟩
        | file b => simp [hentry] at h
        | link target => simp [hentry] at h

theorem removed_removeTree (hplain : Plain t cwd p) : Removed t (t.removeTree cwd p).2 (lexical cwd p) := by
  have hlexical : ∀ {k e}, t.entryAt cwd false p = .ok (k, e) → k = lexical cwd p := by
    intro k e hentry
    obtain ⟨spot, hspot, rfl, -⟩ := entryAt_eq_ok.mp hentry
    exact (locate_of_plain hspot hplain fun _ _ => rfl).1
  rw [removeTree]
  match hentry : t.entryAt cwd false p with
  | .ok (k, .dir) =>
    obtain rfl := hlexical hentry
    have hempty := removed_eraseBelow t (lexical cwd p)
    dsimp only
    cases hleft : (t.eraseBelow (lexical cwd p)).removeEmptied cwd p with
    | ok left =>
      obtain ⟨k, hk, rfl⟩ := removeEmptied_eq_ok hleft
      obtain rfl := locateGone_eq_ok (hempty.plain hplain) hk
      exact hempty.trans (removed_erase _ _)
    | error e => exact hempty
  | .ok (k, .link target) =>
    obtain rfl := hlexical hentry
    exact removed_erase t _
  | .ok (_, .file _) => exact .refl t _
  | .error e => exact .refl t _

/-- Nothing is left below a directory that is removed, even where the directory itself is. -/
theorem removeTree_empties (h : t.entryAt cwd false p = .ok (k, .dir)) (hj : k <+: j) (hne : j ≠ k) :
    (t.removeTree cwd p).2.lookup j = none := by
  have hempty : (t.eraseBelow k).lookup j = none := by rw [lookup_eraseBelow, if_pos ⟨hj, hne⟩]
  rw [removeTree, h]
  dsimp only
  cases hleft : (t.eraseBelow k).removeEmptied cwd p with
  | error e => exact hempty
  | ok left =>
    obtain ⟨key, -, rfl⟩ := removeEmptied_eq_ok hleft
    by_contra hthere
    obtain ⟨e, he⟩ := Option.ne_none_iff_exists'.mp hthere
    simp [(removed_erase (t.eraseBelow k) key).nothing_new j e he] at hempty

end removeTree

end SlotBuild.FileTree
