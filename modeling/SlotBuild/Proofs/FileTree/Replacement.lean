import SlotBuild.FileTree.Replace
import SlotBuild.Proofs.FileTree.Resolution

/-! Replacing a file. Either the path reads as the new content, or it reads as before, and all that
is left of the attempt are directories that were made on the way and a part of the content in the
temporary. -/

namespace SlotBuild

/-- Writing a temporary is not cut short, and it is renamed wherever the tree allows it. -/
structure Faults.Spares (faults : Faults) (temporary p : Path) : Prop where
  write : ∀ content n cause, faults.write temporary content ≠ some (.cut n cause)
  rename : faults.rename temporary p = .none

namespace FileTree

variable {faults : Faults} {t t' made written : FileTree} {cwd : Key} {p : Path} {content part : Bytes}

/-- What the path ends in is no link. -/
def Unlinked (t : FileTree) (cwd : Key) (p : Path) : Prop :=
  ∀ spot target, t.locate cwd false p = .ok spot → t.lookup spot.key ≠ some (.link target)

/-- The path does not lead through its own end. -/
def Direct (t : FileTree) (cwd : Key) (p : Path) : Prop :=
  ∀ spot, t.locate cwd false p = .ok spot → (t.erase spot.key).locate cwd false p = .ok spot

/-- The path does not lead to where its content is written first. -/
def Apart (t : FileTree) (cwd : Key) (p : Path) : Prop :=
  ∀ spot c, t.locate cwd true p = .ok spot → t.locate cwd true (temporaryFor p) = .ok c →
    spot.key ≠ c.key

/-- The directory that the path names its end in is there. -/
def HasParent (t : FileTree) (cwd : Key) (p : Path) : Prop :=
  ∀ up, p.parent? = some up → up.text = "" ∨ t.isDir cwd up = true

section located

variable {spot c : Spot}

theorem unlinked_of_locate (h : t.locate cwd false p = .ok spot)
    (hplain : ∀ target, t.lookup spot.key ≠ some (.link target)) : Unlinked t cwd p := by
  intro spot' target hspot'
  obtain rfl := Except.ok.inj (h.symm.trans hspot')
  exact hplain target

theorem direct_of_locate (h : t.locate cwd false p = .ok spot)
    (herased : (t.erase spot.key).locate cwd false p = .ok spot) : Direct t cwd p := by
  intro spot' hspot'
  obtain rfl := Except.ok.inj (h.symm.trans hspot')
  exact herased

theorem apart_of_locate (h : t.locate cwd true p = .ok spot)
    (htemporary : t.locate cwd true (temporaryFor p) = .ok c) (hne : spot.key ≠ c.key) :
    Apart t cwd p := by
  intro spot' c' hspot' hc'
  obtain rfl := Except.ok.inj (h.symm.trans hspot')
  obtain rfl := Except.ok.inj (htemporary.symm.trans hc')
  exact hne

end located

/-- There may be more directories, and nothing else has changed. -/
def Grows (t t' : FileTree) : Prop :=
  ∀ k, t'.lookup k = t.lookup k ∨ t.lookup k = none ∧ t'.lookup k = some .dir

namespace Grows

theorem refl (t : FileTree) : Grows t t := fun _ => Or.inl rfl

theorem trans {t'' : FileTree} (h : Grows t t') (h' : Grows t' t'') : Grows t t'' := by
  intro k
  rcases h k with hk | ⟨hnone, hdir⟩ <;> rcases h' k with hk' | ⟨hnone', hdir'⟩
  · exact Or.inl (hk'.trans hk)
  · exact Or.inr ⟨hk ▸ hnone', hdir'⟩
  · exact Or.inr ⟨hnone, hk'.trans hdir⟩
  · simp [hdir] at hnone'

theorem keeps (h : Grows t t') {k : Key} {e : Entry} (hk : t.lookup k = some e) : t'.lookup k = some e := by
  rcases h k with hsame | ⟨hnone, -⟩
  · exact hsame.trans hk
  · simp [hnone] at hk

theorem leads (h : Grows t t') : Leads t t' := fun _ _ hk _ => h.keeps hk

end Grows

theorem ne_nil_of_lookup {k : Key} (h : t.lookup k ≠ some .dir) : k ≠ [] := by
  rintro rfl
  exact h rfl

section directories

theorem makeDir_grows (h : t.makeDir cwd p = .ok made) : Grows t made := by
  obtain ⟨spot, -, h⟩ := bind_eq_ok.mp h
  cases hnone : t.lookup spot.key with
  | some e =>
    rw [hnone] at h
    cases h
  | none =>
    rw [hnone] at h
    obtain rfl := Except.ok.inj h
    intro k
    by_cases hk : spot.key = k
    · subst hk
      exact Or.inr ⟨hnone, lookup_put_self t (ne_nil_of_lookup (t := t) (by simp [hnone])) .dir⟩
    · exact Or.inl (lookup_put_ne t hk .dir)

theorem makeChain_grows (t : FileTree) (cwd : Key) (ps : List Path) :
    Grows t (t.makeChain cwd ps).2 := by
  induction ps generalizing t with
  | nil => exact .refl t
  | cons p up ih =>
    rw [makeChain]
    by_cases hempty : p.text = ""
    · rw [if_pos hempty]
      exact .refl t
    · rw [if_neg hempty]
      cases hmake : t.makeDir cwd p with
      | ok made => exact makeDir_grows hmake
      | error e =>
        by_cases habsent : e = .notFound
        · subst habsent
          by_cases hup : up = []
          · rw [if_pos hup]
            exact .refl t
          · rw [if_neg hup]
            have habove := ih t
            cases hchain : t.makeChain cwd up with
            | mk result above =>
              rw [hchain] at habove
              cases result with
              | error e => exact habove
              | ok _ =>
                cases hmake' : above.makeDir cwd p with
                | ok made => simpa only [hmake'] using habove.trans (makeDir_grows hmake')
                | error e =>
                  simp only [hmake']
                  split <;> exact habove
        · cases e <;> first | exact absurd rfl habsent | (dsimp only; split <;> exact .refl t)

theorem ensureDir_snd (t : FileTree) (cwd : Key) (p : Path) :
    (t.ensureDir cwd p).2 = (t.makeChain cwd p.ancestors).2 := by
  unfold ensureDir makeDirs
  cases t.makeChain cwd p.ancestors with
  | mk result made => cases result <;> rfl

theorem ensureParent_grows (t : FileTree) (cwd : Key) (p : Path) : Grows t (t.ensureParent cwd p).2 := by
  unfold ensureParent
  cases p.parent? with
  | none => exact .refl t
  | some up =>
    rw [ensureDir_snd]
    exact makeChain_grows t cwd _

/-- At the end of a path there is what it leads to, or a link. -/
theorem exists_entry_unfollowed {spot : Spot} {x : Entry} (h : t.locate cwd true p = .ok spot)
    (hx : t.lookup spot.key = some x) : ∃ unfollowed e, t.locate cwd false p = .ok unfollowed ∧
      t.lookup unfollowed.key = some e ∧ (e = x ∨ ∃ target, e = .link target) := by
  obtain ⟨unfollowed, hlocate, rfl | hlinks⟩ := exists_locate_unfollowed h
  · exact ⟨unfollowed, x, hlocate, hx, Or.inl rfl⟩
  · obtain ⟨target, hlink⟩ := hlinks.link
    exact ⟨unfollowed, .link target, hlocate, hlink, Or.inr ⟨target, rfl⟩⟩

theorem makeDir_of_isDir (h : t.isDir cwd p = true) : t.makeDir cwd p = .error .exists := by
  obtain ⟨k, hk⟩ : ∃ k, t.entryAt cwd true p = .ok (k, .dir) := by
    unfold isDir stat? at h
    cases hentry : t.entryAt cwd true p with
    | error e => simp [hentry] at h
    | ok x =>
      obtain ⟨k, e⟩ := x
      cases e with
      | dir => exact ⟨k, rfl⟩
      | file _ | link _ => simp [hentry] at h
  obtain ⟨spot, hspot, rfl, hdir, -⟩ := entryAt_eq_ok.mp hk
  obtain ⟨unfollowed, e, hlocate, he, -⟩ := exists_entry_unfollowed hspot hdir
  unfold makeDir
  rw [hlocate]
  simp only [bind, Except.bind, he]
  rfl

theorem ensureParent_of_hasParent (h : t.HasParent cwd p) : t.ensureParent cwd p = (.ok (), t) := by
  unfold ensureParent
  cases hup : p.parent? with
  | none => rfl
  | some up =>
    have hchain : t.makeDirs cwd up = (.ok (), t) := by
      rw [makeDirs, Path.ancestors, Path.ancestorsFrom, makeChain]
      rcases h up hup with hempty | hdir
      · rw [if_pos hempty]
      · split
        · rfl
        · rw [makeDir_of_isDir hdir]
    dsimp only
    rw [ensureDir, hchain]

end directories

section temporary

open SlotBuild.Path

/-- The temporary sibling of a file is a name in some directory, in the path itself if that does not
end in a name. -/
theorem exists_temporaryFor (p : Path) : ∃ dir name, temporaryFor p = Path.join dir ⟨name⟩ ∧
    '/' ∉ name.toList ∧ 4 ≤ name.length ∧ (p.fileName? = none → dir = p) := by
  rw [temporaryFor, withFileName]
  cases hname : p.fileName? with
  | none => exact ⟨p, ".tmp", rfl, by decide, by decide, fun _ => rfl⟩
  | some s =>
    refine ⟨_, s ++ ".tmp", rfl, ?_, ?_, by simp⟩
    · have hs := slash_notMem_of_fileName? hname
      simp [hs]
    · rw [String.length_append]
      exact Nat.le_add_left 4 s.length

theorem endsInName_temporaryFor (p : Path) : (temporaryFor p).endsInName = true := by
  obtain ⟨dir, name, htemp, hslash, hlength, -⟩ := exists_temporaryFor p
  have hne : ∀ s : String, s.length < 4 → name ≠ s := fun s hs h => absurd hlength (by rw [h]; omega)
  have hsteps := steps_join dir hslash (hne "" (by decide))
  simp [endsInName, htemp, hsteps, hne "." (by decide), hne ".." (by decide)]

theorem slashed_temporaryFor (p : Path) : (temporaryFor p).slashed = false := by
  obtain ⟨dir, name, htemp, hslash, hlength, -⟩ := exists_temporaryFor p
  rw [htemp]
  refine slashed_join hslash ?_
  rintro rfl
  exact absurd hlength (by decide)

/-- A path that does not end in a name leads to a directory if its temporary sibling leads anywhere. -/
theorem endsInName_of_file {through : Bool} {spot temporary : Spot}
    (hspot : t.locate cwd true p = .ok spot) (hfile : t.lookup spot.key ≠ some .dir)
    (htemporary : t.locate cwd through (temporaryFor p) = .ok temporary) : p.endsInName = true := by
  obtain ⟨hp, hways, -, -⟩ := locate_eq_ok.mp hspot
  by_contra hends
  rcases List.eq_nil_or_concat' p.steps with hnil | ⟨front, last, hlast⟩
  · rw [hnil, origin, steps_eq_nil hp.nonempty hnil, if_pos rfl] at hways
    generalize hkey : spot.key = k at hways
    cases hways
    exact hfile (by rw [hkey]; rfl)
  · rw [hlast] at hways
    have hspecial : last = "." ∨ last = ".." := by
      by_contra hno
      obtain ⟨hdot, hup⟩ := not_or.mp hno
      exact hends (by simp [endsInName, hlast, hdot, hup])
    rcases hspecial with rfl | rfl
    · exact hfile hways.dir_of_current
    · -- the temporary sibling is then looked up in the directory that the path leads to
      obtain ⟨dir, name, htemp, hslash, hlength, hdir⟩ := exists_temporaryFor p
      obtain rfl := hdir (fileName?_eq_none hlast)
      have hne : name ≠ "" := by
        rintro rfl
        exact absurd hlength (by decide)
      obtain ⟨-, hbelow, -, -⟩ := locate_eq_ok.mp htemporary
      rw [htemp, steps_join _ hslash hne, origin, isAbsolute_join hslash] at hbelow
      obtain ⟨_, d, hd, hisdir, -⟩ := hbelow.exists_split
      rw [← hlast] at hways
      exact hfile (hd.unique hways ▸ hisdir)

end temporary

section rename

variable {source target : Path} {a : Spot}

theorem writable_eq_ok {k : Key} (h : t.writable cwd p = .ok k) :
    ∃ spot, t.locate cwd true p = .ok spot ∧ spot.key = k ∧
      (t.lookup k = none ∨ ∃ old, t.lookup k = some (.file old)) := by
  obtain ⟨spot, hspot, h⟩ := bind_eq_ok.mp h
  cases hentry : t.lookup spot.key with
  | none =>
    rw [hentry] at h
    cases hslash : spot.slash with
    | true => simp [hslash] at h
    | false =>
      obtain rfl : spot.key = k := by simpa [hslash, pure, Except.pure] using h
      exact ⟨spot, hspot, rfl, Or.inl hentry⟩
  | some e =>
    rw [hentry] at h
    cases e with
    | dir | link _ => cases h
    | file old =>
      cases hslash : spot.slash with
      | true => simp [hslash] at h
      | false =>
        obtain rfl : spot.key = k := by simpa [hslash, pure, Except.pure] using h
        exact ⟨spot, hspot, rfl, Or.inr ⟨old, hentry⟩⟩

theorem write_eq_ok (h : t.write cwd p content = .ok written) :
    ∃ spot, t.locate cwd true p = .ok spot ∧
      (t.lookup spot.key = none ∨ ∃ old, t.lookup spot.key = some (.file old)) ∧
        written = t.put spot.key (.file content) := by
  obtain ⟨k, hk, h⟩ := bind_eq_ok.mp h
  obtain ⟨spot, hspot, rfl, hfree⟩ := writable_eq_ok hk
  exact ⟨spot, hspot, hfree, (Except.ok.inj h).symm⟩

theorem writeWith_eq_ok (h : t.writeWith faults cwd p content = (.ok (), written)) :
    t.write cwd p content = .ok written := by
  unfold writeWith at h
  cases hk : t.writable cwd p with
  | error e => simp [hk] at h
  | ok k =>
    rw [hk] at h
    cases hstop : faults.write p content with
    | some stop => cases stop <;> simp [hstop] at h
    | none =>
      obtain rfl : t.put k (.file content) = written := by simpa [hstop] using h
      rw [write, hk]
      rfl

/-- A write that goes wrong has done nothing, or it was cut short. -/
theorem writeWith_eq_error {e : OsError} (h : t.writeWith faults cwd p content = (.error e, written)) :
    written = t ∨ ∃ n cause, faults.write p content = some (.cut n cause) ∧
      t.write cwd p (content.take n) = .ok written := by
  unfold writeWith at h
  cases hk : t.writable cwd p with
  | error e =>
    rw [hk] at h
    exact Or.inl (Prod.mk.inj h).2.symm
  | ok k =>
    rw [hk] at h
    cases hstop : faults.write p content with
    | none => simp [hstop] at h
    | some stop =>
      rw [hstop] at h
      cases stop with
      | refused cause => exact Or.inl (Prod.mk.inj h).2.symm
      | cut n cause =>
        refine Or.inr ⟨n, cause, rfl, ?_⟩
        rw [write, hk, ← (Prod.mk.inj h).2]
        rfl

/-- Writing puts a file where the path leads, and nothing else leads anywhere else by that. -/
theorem write_aside (h : t.write cwd p content = .ok written) : ∃ spot, t.locate cwd true p = .ok spot ∧
    (t.lookup spot.key = none ∨ ∃ old, t.lookup spot.key = some (.file old)) ∧
      written.lookup spot.key = some (.file content) ∧ Aside written t spot.key := by
  obtain ⟨spot, hspot, hfree, rfl⟩ := write_eq_ok h
  have hnotdir : t.lookup spot.key ≠ some .dir := by
    rcases hfree with hnone | ⟨old, hold⟩
    · simp [hnone]
    · simp [hold]
  have hself := lookup_put_self t (ne_nil_of_lookup hnotdir) (.file content)
  refine ⟨spot, hspot, hfree, hself, fun k hk => lookup_put_ne t (Ne.symm hk) _, fun e he => ?_⟩
  rcases he with he | he
  · exact ⟨content, Option.some.inj (he.symm.trans hself)⟩
  · rcases hfree with hnone | ⟨old, hold⟩
    · simp [hnone] at he
    · exact ⟨old, Option.some.inj (he.symm.trans hold)⟩

/-- When a file or a link can be renamed, and what is left then. -/
theorem rename_eq_ok {e : Entry} (ha : t.locate cwd false source = .ok a)
    (hentry : t.lookup a.key = some e) (he : e ≠ .dir) :
    t.rename cwd source target = .ok t' ↔ ∃ b, t.locate cwd false target = .ok b ∧
      (a.plain = true ∧ b.plain = true) ∧ (a.slash = false ∧ b.slash = false) ∧
        t.lookup b.key ≠ some .dir ∧ t' = (t.erase a.key).put b.key e := by
  unfold rename
  rw [ha, show ∀ f : Spot → Except OsError FileTree, (Except.ok a >>= f) = f a from fun _ => rfl, bind_eq_ok]
  refine exists_congr fun b => and_congr_right fun _ => ?_
  by_cases hplain : a.plain = true ∧ b.plain = true
  · rw [if_neg (by simp [hplain]), hentry]
    cases e with
    | dir => exact absurd rfl he
    | file _ | link _ =>
      by_cases hslash : a.slash = false ∧ b.slash = false
      · simp only [hslash, Bool.or_self, Bool.false_eq_true, if_false]
        cases hb : t.lookup b.key with
        | none => simp [hplain, pure, Except.pure, eq_comm]
        | some x => cases x <;> simp [hplain, pure, Except.pure, eq_comm]
      · have hsome : (a.slash || b.slash) = true := by
          by_contra hno
          exact hslash (by simpa using hno)
        simp only [hsome, if_true]
        exact iff_of_false (fun h => by cases h) fun h => hslash h.2.1
  · have hsome : (!a.plain || !b.plain) = true := by
      by_contra hno
      exact hplain (by simpa using hno)
    rw [if_pos hsome]
    exact iff_of_false (fun h => by cases h) fun h => hplain h.1

/-- A file can take the place of the file that it is the temporary sibling of. -/
theorem exists_rename_of_read {old : Bytes} (hread : t.read cwd p = .ok old)
    (hsibling : t.read cwd (temporaryFor p) = .ok content) :
    ∃ done, t.rename cwd (temporaryFor p) p = .ok done := by
  obtain ⟨spot, hspot, hold, hslash⟩ := read_eq_ok.mp hread
  obtain ⟨c, hc, hsource, -⟩ := read_eq_ok.mp hsibling
  obtain ⟨-, -, -, hslashed⟩ := locate_eq_ok.mp hspot
  have hends := endsInName_of_file hspot (by simp [hold]) hc
  obtain ⟨a, e, ha, hentry, he⟩ := exists_entry_unfollowed hc hsource
  obtain ⟨b, x, hb, hx, hkind⟩ := exists_entry_unfollowed hspot hold
  obtain ⟨-, -, hplaina, hslasha⟩ := locate_eq_ok.mp ha
  obtain ⟨-, -, hplainb, hslashb⟩ := locate_eq_ok.mp hb
  have hnotdir : ∀ {x : Entry} {y : Bytes}, (x = .file y ∨ ∃ target, x = .link target) → x ≠ .dir := by
    rintro x y (rfl | ⟨target, rfl⟩) <;> simp
  refine ⟨_, (rename_eq_ok ha hentry (hnotdir he)).mpr ⟨b, hb, ⟨?_, ?_⟩, ⟨?_, ?_⟩, ?_, rfl⟩⟩
  · rw [hplaina, endsInName_temporaryFor]
  · rw [hplainb, hends]
  · rw [hslasha, slashed_temporaryFor]
  · rw [hslashb, ← hslashed, hslash]
  · simpa [hx] using hnotdir hkind

theorem renameWith_eq_ok (h : t.renameWith faults cwd source target = .ok t') :
    t.rename cwd source target = .ok t' := by
  obtain ⟨done, hdone, h⟩ := bind_eq_ok.mp h
  cases hstop : faults.rename source target with
  | some cause => simp [hstop] at h
  | none =>
    rw [hstop] at h
    rwa [← Except.ok.inj h]

end rename

section remove

variable {left : FileTree}

theorem removeFile_eq_ok (h : t.removeFile cwd p = .ok left) : ∃ a e, t.locate cwd false p = .ok a ∧
    t.lookup a.key = some e ∧ e ≠ .dir ∧ left = t.erase a.key := by
  obtain ⟨⟨k, e⟩, hentry, herase⟩ := bind_eq_ok.mp h
  obtain ⟨a, ha, rfl, he, -⟩ := entryAt_eq_ok.mp hentry
  cases e with
  | dir => cases herase
  | file _ | link _ => exact ⟨a, _, ha, he, by simp, (Except.ok.inj herase).symm⟩

/-- What is left once a file is removed was there before. -/
theorem lookup_of_removed (h : t.removeFile cwd p = .ok left) (k : Key) (x : Entry)
    (hk : left.lookup k = some x) : t.lookup k = some x := by
  obtain ⟨a, e, -, he, hdir, rfl⟩ := removeFile_eq_ok h
  have hroot : a.key ≠ [] := ne_nil_of_lookup (t := t) (by simp [he, hdir])
  have hne : a.key ≠ k := by
    rintro rfl
    simp [lookup_erase_self t hroot] at hk
  rwa [lookup_erase_ne t hne] at hk

end remove

section temporary

/-- Where the content is written first: nothing is there, or a file. -/
structure Temporary (made : FileTree) (cwd : Key) (p : Path) (c : Spot) : Prop where
  located : made.locate cwd true (temporaryFor p) = .ok c
  free : made.lookup c.key = none ∨ ∃ old, made.lookup c.key = some (.file old)

theorem exists_temporary (h : made.write cwd (temporaryFor p) content = .ok written) :
    ∃ c, Temporary made cwd p c ∧ written = made.put c.key (.file content) := by
  obtain ⟨c, hlocate, hfree, hwritten⟩ := write_eq_ok h
  exact ⟨c, ⟨hlocate, hfree⟩, hwritten⟩

namespace Temporary

variable {c : Spot} (h : Temporary made cwd p c)
include h

theorem ne_nil : c.key ≠ [] := by
  refine ne_nil_of_lookup (t := made) ?_
  rcases h.free with hnone | ⟨old, hold⟩
  · simp [hnone]
  · simp [hold]

theorem lookup_self (content : Bytes) :
    (made.put c.key (.file content)).lookup c.key = some (.file content) :=
  lookup_put_self made h.ne_nil _

/-- There is no directory and no link where the temporary is. -/
theorem ne_key {k : Key} {e : Entry} (hk : made.lookup k = some e) (he : ∀ content, e ≠ .file content) :
    c.key ≠ k := by
  rintro rfl
  rcases h.free with hnone | ⟨old, hold⟩
  · simp [hnone] at hk
  · exact he old (Option.some.inj (hk.symm.trans hold))

theorem leads (content : Bytes) : Leads made (made.put c.key (.file content)) :=
  fun _ _ hk he => (lookup_put_ne made (h.ne_key hk he) _).trans hk

theorem lookup_eq {k : Key} {e : Entry} (hk : (made.put c.key (.file content)).lookup k = some e)
    (he : ∀ content, e ≠ .file content) : made.lookup k = some e := by
  have hne : c.key ≠ k := by
    rintro rfl
    exact he content (Option.some.inj (hk.symm.trans (h.lookup_self content)))
  rwa [lookup_put_ne made hne] at hk

theorem locate {through : Bool} {q : Path} {spot : Spot} (hspot : made.locate cwd through q = .ok spot)
    (content : Bytes) : (made.put c.key (.file content)).locate cwd through q = .ok spot :=
  locate_of_leads hspot (h.leads content) (fun _ hlink => h.lookup_eq hlink (by simp)) (Or.inl rfl)

theorem slash : c.slash = false := by
  obtain ⟨-, -, -, hslash⟩ := locate_eq_ok.mp h.located
  rw [hslash, slashed_temporaryFor]

theorem unfollowed (hplain : Unlinked made cwd (temporaryFor p)) :
    made.locate cwd false (temporaryFor p) = .ok c := by
  obtain ⟨spot, hspot, rfl | hlinks⟩ := exists_locate_unfollowed h.located
  · exact hspot
  · obtain ⟨target, hlink⟩ := hlinks.link
    exact absurd hlink (hplain spot target hspot)

theorem removeFile (hplain : Unlinked made cwd (temporaryFor p)) (content : Bytes) :
    (made.put c.key (.file content)).removeFile cwd (temporaryFor p) =
      .ok ((made.put c.key (.file content)).erase c.key) := by
  have hentry := entryAt_eq_ok.mpr
    ⟨c, h.locate (h.unfollowed hplain) content, rfl, h.lookup_self content, Or.inr h.slash⟩
  rw [FileTree.removeFile, hentry]
  rfl

theorem read_self (content : Bytes) :
    (made.put c.key (.file content)).read cwd (temporaryFor p) = .ok content :=
  read_eq_ok.mpr ⟨c, h.locate h.located content, h.lookup_self content, h.slash⟩

/-- A path that read as something still does when the temporary is there. -/
theorem exists_read {old : Bytes} (hread : made.read cwd p = .ok old) (content : Bytes) :
    ∃ now, (made.put c.key (.file content)).read cwd p = .ok now := by
  obtain ⟨spot, hspot, hold, hslash⟩ := read_eq_ok.mp hread
  have hwritten := h.locate hspot content
  by_cases hk : c.key = spot.key
  · exact ⟨content, read_eq_ok.mpr ⟨spot, hwritten, hk ▸ h.lookup_self content, hslash⟩⟩
  · exact ⟨old, read_eq_ok.mpr ⟨spot, hwritten, (lookup_put_ne made hk _).trans hold, hslash⟩⟩

/-- A path reads as nothing if the temporary could not take its place. -/
theorem read_ne_ok
    (hno : ∀ done, (made.put c.key (.file content)).rename cwd (temporaryFor p) p ≠ .ok done)
    (now : Bytes) : (made.put c.key (.file content)).read cwd p ≠ .ok now := by
  intro hread
  obtain ⟨done, hdone⟩ := exists_rename_of_read hread (h.read_self content)
  exact hno done hdone

theorem aside (content : Bytes) : Aside (made.put c.key (.file content)) made c.key where
  lookup_eq k hk := lookup_put_ne made (Ne.symm hk) _
  file e he := by
    rcases he with he | he
    · exact ⟨content, Option.some.inj (he.symm.trans (h.lookup_self content))⟩
    · rcases h.free with hnone | ⟨old, hold⟩
      · simp [hnone] at he
      · exact ⟨old, Option.some.inj (he.symm.trans hold)⟩

theorem aside_erased (content : Bytes) :
    Aside ((made.put c.key (.file content)).erase c.key) made c.key where
  lookup_eq k hk := by rw [lookup_erase_ne _ (Ne.symm hk), lookup_put_ne made (Ne.symm hk)]
  file e he := by
    rcases he with he | he
    · simp [lookup_erase_self _ h.ne_nil] at he
    · exact (h.aside content).file e (Or.inr he)

/-- A path apart from the temporary reads as before. -/
theorem read_iff_of_apart (hapart : Apart made cwd p) (b : Bytes) :
    (made.put c.key (.file content)).read cwd p = .ok b ↔ made.read cwd p = .ok b :=
  (h.aside content).read_iff (fun spot hspot => hapart spot c hspot h.located) b

/-- It does so too once what the temporary ends in is removed, be it the file or a link to it. -/
theorem read_of_removed {left : FileTree} {b : Bytes} (hapart : Apart made cwd p)
    (hleft : (made.put c.key (.file content)).removeFile cwd (temporaryFor p) = .ok left)
    (hread : made.read cwd p = .ok b) : left.read cwd p = .ok b := by
  obtain ⟨a, e, ha, he, -, rfl⟩ := removeFile_eq_ok hleft
  obtain ⟨u, hu, hend⟩ := exists_locate_unfollowed (h.locate h.located content)
  obtain rfl : u = a := Except.ok.inj (hu.symm.trans ha)
  obtain rfl | hlinks := hend
  · exact (h.aside_erased content).symm.read (fun spot hspot => hapart spot u
      ((h.aside_erased content).locate hspot) h.located) hread
  · obtain ⟨target, hlink⟩ := hlinks.link
    obtain ⟨spot, hspot, hfile, hslash⟩ :=
      read_eq_ok.mp ((h.read_iff_of_apart hapart b : (made.put c.key (.file content)).read cwd p =
        .ok b ↔ made.read cwd p = .ok b).mpr hread)
    have hspot' := (h.aside content).locate hspot
    have hne : spot.key ≠ u.key := by
      intro hsame
      simp [hsame, hlink] at hfile
    have hc : (made.put c.key (.file content)).lookup c.key ≠ some .dir := by
      simp [h.lookup_self content]
    exact read_eq_ok.mpr ⟨spot,
      locate_erase_link hspot hlinks hc hne (hapart spot c hspot' h.located),
      (lookup_erase_ne _ hne.symm).trans hfile, hslash⟩

/-- Once the temporary is renamed to the path, the path reads as what was written. No path leads on
through a file, so the temporary has not changed where this one ends. -/
theorem read_of_renamed
    (hrename : (made.put c.key (.file content)).rename cwd (temporaryFor p) p = .ok t')
    (hplain : made.Unlinked cwd (temporaryFor p))
    (hdirect : ∀ b, made.locate cwd false p = .ok b → made.lookup b.key ≠ some .dir →
      (made.erase b.key).locate cwd false p = .ok b) : t'.read cwd p = .ok content := by
  have hsource := h.locate (h.unfollowed hplain) content
  obtain ⟨b, hb, -, ⟨-, hslash⟩, hnotdir, rfl⟩ :=
    (rename_eq_ok hsource (h.lookup_self content) (by simp)).mp hrename
  have hbne : b.key ≠ [] := ne_nil_of_lookup hnotdir
  have hbdir : made.lookup b.key ≠ some .dir :=
    fun hdir => hnotdir (h.leads content _ _ hdir (by simp))
  have hfile : (((made.put c.key (.file content)).erase c.key).put b.key (.file content)).lookup
      b.key = some (.file content) := lookup_put_self _ hbne _
  have hbefore : made.locate cwd false p = .ok b := by
    refine locate_of_leads hb (fun k e hk he => h.lookup_eq hk he) (fun target hlink => ?_)
      (Or.inl rfl)
    exact h.leads content _ _ hlink (by simp)
  refine read_eq_ok.mpr ⟨b, locate_of_leads (hdirect b hbefore hbdir) (fun k e hk he => ?_) ?_
    (Or.inr ⟨rfl, ?_⟩), hfile, hslash⟩
  · have hkb : b.key ≠ k := by
      rintro rfl
      simp [lookup_erase_self made hbne] at hk
    rw [lookup_erase_ne made hkb] at hk
    have hkc := h.ne_key hk he
    rw [lookup_put_ne _ hkb, lookup_erase_ne _ hkc, lookup_put_ne _ hkc, hk]
  · simp [hfile]
  · simp [hfile]

end Temporary

end temporary

section replaceFile

theorem replaceFile_steps (h : t.replaceFile faults cwd p content = (.ok (), t')) : ∃ made written,
    t.ensureParent cwd p = (.ok (), made) ∧ made.write cwd (temporaryFor p) content = .ok written ∧
      written.rename cwd (temporaryFor p) p = .ok t' := by
  unfold replaceFile at h
  cases hmade : t.ensureParent cwd p with
  | mk result made =>
    rw [hmade] at h
    cases result with
    | error e => simp at h
    | ok _ =>
      dsimp only at h
      cases hwrite : made.writeWith faults cwd (temporaryFor p) content with
      | mk result written =>
        rw [hwrite] at h
        cases result with
        | error e => simp at h
        | ok _ =>
          dsimp only [commitTemporary] at h
          cases hrename : written.renameWith faults cwd (temporaryFor p) p with
          | error e => simp [hrename] at h
          | ok done =>
            obtain rfl : done = t' := by simpa [hrename] using h
            exact ⟨made, written, rfl, writeWith_eq_ok hwrite, renameWith_eq_ok hrename⟩

theorem replaceFile_eq_ok (h : t.replaceFile faults cwd p content = (.ok (), t')) : ∃ c,
    Temporary (t.ensureParent cwd p).2 cwd p c ∧
      ((t.ensureParent cwd p).2.put c.key (.file content)).rename cwd (temporaryFor p) p = .ok t' := by
  obtain ⟨made, written, hmade, hwritten, hdone⟩ := replaceFile_steps h
  obtain ⟨c, hc, rfl⟩ := exists_temporary hwritten
  rw [hmade]
  exact ⟨c, hc, hdone⟩

/-- What is left when a file was not replaced: the directories on its way and then nothing more, or
part of the content where the temporary is, or what the removal of the temporary has left. Where
`faults` spare the file the whole content was there and could not be renamed. -/
theorem replaceFile_eq_error {e : AccessError} (h : t.replaceFile faults cwd p content = (.error e, t')) :
    t' = (t.ensureParent cwd p).2 ∨ ∃ c part, Temporary (t.ensureParent cwd p).2 cwd p c ∧
      (t' = (t.ensureParent cwd p).2.put c.key (.file part) ∨
        ((t.ensureParent cwd p).2.put c.key (.file part)).removeFile cwd (temporaryFor p) = .ok t') ∧
      (faults.Spares (temporaryFor p) p → ∀ done,
        ((t.ensureParent cwd p).2.put c.key (.file part)).rename cwd (temporaryFor p) p ≠ .ok done) := by
  unfold replaceFile at h
  cases hmade : t.ensureParent cwd p with
  | mk result made =>
    rw [hmade] at h
    cases result with
    | error e => exact Or.inl (Prod.mk.inj h).2.symm
    | ok _ =>
      dsimp only at h ⊢
      cases hwrite : made.writeWith faults cwd (temporaryFor p) content with
      | mk result written =>
        rw [hwrite] at h
        cases result with
        | error e =>
          obtain rfl := (Prod.mk.inj h).2
          refine (writeWith_eq_error hwrite).imp_right ?_
          rintro ⟨n, cause, hcut, hpart⟩
          obtain ⟨c, hc, rfl⟩ := exists_temporary hpart
          exact ⟨c, _, hc, Or.inl rfl, fun hspare => absurd hcut (hspare.write _ _ _)⟩
        | ok _ =>
          obtain ⟨c, hc, rfl⟩ := exists_temporary (writeWith_eq_ok hwrite)
          refine Or.inr ⟨c, content, hc, ?_, fun hspare done hdone => ?_⟩
          · dsimp only [commitTemporary] at h
            cases hrename : (made.put c.key (.file content)).renameWith faults cwd (temporaryFor p) p with
            | ok done => simp [hrename] at h
            | error cause =>
              rw [hrename] at h
              have hleft := (Prod.mk.inj h).2
              cases hremove : (made.put c.key (.file content)).removeFile cwd (temporaryFor p) with
              | error _ => exact Or.inl (by rw [← hleft, hremove])
              | ok cleaned => exact Or.inr (by rw [← hleft, hremove])
          · have hdone' : (made.put c.key (.file content)).renameWith faults cwd (temporaryFor p) p =
                .ok done := by
              rw [renameWith, hdone, hspare.rename]
              rfl
            simp [commitTemporary, hdone'] at h

/-- A file that was replaced reads as the new content. -/
theorem read_of_replaced (h : t.replaceFile faults cwd p content = (.ok (), t'))
    (hplain : (t.ensureParent cwd p).2.Unlinked cwd (temporaryFor p))
    (hdirect : ∀ b, (t.ensureParent cwd p).2.locate cwd false p = .ok b →
      (t.ensureParent cwd p).2.lookup b.key ≠ some .dir →
        ((t.ensureParent cwd p).2.erase b.key).locate cwd false p = .ok b) :
    t'.read cwd p = .ok content := by
  obtain ⟨c, hc, hrename⟩ := replaceFile_eq_ok h
  exact hc.read_of_renamed hrename hplain hdirect

variable {e : AccessError}

/-- A file that could not be replaced reads as before, unless it is where its own temporary is. -/
theorem read_of_not_replaced (h : t.replaceFile faults cwd p content = (.error e, t'))
    (hapart : Apart (t.ensureParent cwd p).2 cwd p ∨ faults.Spares (temporaryFor p) p) {old : Bytes}
    (hread : t.read cwd p = .ok old) : t'.read cwd p = .ok old := by
  have hgrows := ensureParent_grows t cwd p
  have hmade : (t.ensureParent cwd p).2.read cwd p = .ok old :=
    read_of_leads hread hgrows.leads fun k hk => hgrows.keeps hk
  rcases replaceFile_eq_error h with rfl | ⟨c, part, hc, hleft, hspared⟩
  · exact hmade
  · rcases hapart with hapart | hspare
    · rcases hleft with rfl | hleft
      · exact (hc.read_iff_of_apart hapart old).mpr hmade
      · exact hc.read_of_removed hapart hleft hmade
    · obtain ⟨now, hnow⟩ := hc.exists_read hmade part
      exact absurd hnow (hc.read_ne_ok (hspared hspare) now)

/-- An attempt to replace a file does not make the path readable if its directory was there. -/
theorem read_before_not_replaced (h : t.replaceFile faults cwd p content = (.error e, t'))
    (hapart : Apart (t.ensureParent cwd p).2 cwd p ∨ faults.Spares (temporaryFor p) p)
    (hparent : t.HasParent cwd p) {old : Bytes} (hread : t'.read cwd p = .ok old) :
    t.read cwd p = .ok old := by
  have hmade : (t.ensureParent cwd p).2 = t := by rw [ensureParent_of_hasParent hparent]
  rcases replaceFile_eq_error h with rfl | ⟨c, part, hc, hleft, hspared⟩
  · rwa [hmade] at hread
  · have hwritten : ((t.ensureParent cwd p).2.put c.key (.file part)).read cwd p = .ok old := by
      rcases hleft with rfl | hleft
      · exact hread
      · have hkeeps := lookup_of_removed hleft
        exact read_of_leads hread (fun k x hk _ => hkeeps k x hk) fun k => hkeeps k _
    rcases hapart with hapart | hspare
    · rw [← hmade]
      exact (hc.read_iff_of_apart hapart old).mp hwritten
    · exact absurd hwritten (hc.read_ne_ok (hspared hspare) old)

end replaceFile

end FileTree

end SlotBuild
