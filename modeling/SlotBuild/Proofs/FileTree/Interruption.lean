import SlotBuild.Proofs.FileTree.Making

/-! Replacing a file when it may stop at any moment: while directories are made, in the middle of
writing the temporary, before or after the renaming. The path reads as before or as the new content
at each of these. -/

namespace SlotBuild.FileTree

open SlotBuild.Path (Begins)

variable {faults : Faults} {t s made written : FileTree} {cwd : Key} {p : Path} {content part : Bytes}

/-- What there may be whenever replacing a file stops, for an error or with everything else. -/
inductive Moment (t : FileTree) (cwd : Key) (p : Path) (content : Bytes) : FileTree → Prop where
  | begun : Moment t cwd p content t
  | making {up : Path} {s : FileTree} (parent : p.parent? = some up)
      (mem : s ∈ t.chainMoments cwd up.ancestors) :
      Moment t cwd p content s
  | writing {made s : FileTree} {part : Bytes} (ready : t.ensureParent cwd p = (.ok (), made))
      (part_of : part <+: content) (write : made.write cwd (temporaryFor p) part = .ok s) :
      Moment t cwd p content s
  | renamed {made written s : FileTree} (ready : t.ensureParent cwd p = (.ok (), made))
      (write : made.write cwd (temporaryFor p) content = .ok written)
      (rename : written.rename cwd (temporaryFor p) p = .ok s) : Moment t cwd p content s
  | cleaned {made written s : FileTree} (ready : t.ensureParent cwd p = (.ok (), made))
      (write : made.write cwd (temporaryFor p) content = .ok written)
      (remove : written.removeFile cwd (temporaryFor p) = .ok s) : Moment t cwd p content s

/-- The path leads to nothing, not even to a link. -/
def Vacant (t : FileTree) (cwd : Key) (p : Path) : Prop := ∀ k e, t.entryAt cwd false p ≠ .ok (k, e)

/-- What has to be there, or not, so that a file is replaced as a whole. -/
structure Replaceable (t : FileTree) (cwd : Key) (p : Path) : Prop where
  rooted : Rooted t
  retraces : Retraces t cwd p
  unlinked : Unlinked t cwd (temporaryFor p)
  direct : Direct t cwd p
  apart : Apart t cwd p

theorem ensureParent_mem (t : FileTree) (cwd : Key) (p : Path) : (t.ensureParent cwd p).2 = t ∨
    ∃ up, p.parent? = some up ∧ (t.ensureParent cwd p).2 ∈ t.chainMoments cwd up.ancestors := by
  unfold ensureParent
  cases p.parent? with
  | none => exact Or.inl rfl
  | some up => exact Or.inr ⟨up, rfl, ensureDir_mem t cwd up⟩

theorem moment_replaceFile (faults : Faults) (t : FileTree) (cwd : Key) (p : Path) (content : Bytes) :
    Moment t cwd p content (t.replaceFile faults cwd p content).2 := by
  have hmade : Moment t cwd p content (t.ensureParent cwd p).2 := by
    rcases ensureParent_mem t cwd p with hsame | ⟨up, hup, hmem⟩
    · rw [hsame]
      exact .begun
    · exact .making hup hmem
  unfold replaceFile
  cases hready : t.ensureParent cwd p with
  | mk result made =>
    rw [hready] at hmade
    cases result with
    | error e => exact hmade
    | ok _ =>
      dsimp only
      cases hwrite : made.writeWith faults cwd (temporaryFor p) content with
      | mk result left =>
        cases result with
        | error e =>
          obtain rfl | ⟨n, cause, -, hpart⟩ := writeWith_eq_error hwrite
          · exact hmade
          · exact .writing hready (List.take_prefix n content) hpart
        | ok _ =>
          have hwritten := writeWith_eq_ok hwrite
          dsimp only [commitTemporary]
          cases hrename : left.renameWith faults cwd (temporaryFor p) p with
          | ok done => exact .renamed hready hwritten (renameWith_eq_ok hrename)
          | error cause =>
            cases hremove : left.removeFile cwd (temporaryFor p) with
            | ok cleaned => simpa only [hremove] using .cleaned hready hwritten hremove
            | error _ => simpa only [hremove] using .writing hready List.prefix_rfl hwritten

section temporary

open SlotBuild.Path

/-- The last step to the temporary sibling is a name longer than the last step of the path, and the
steps before it are steps of the path. -/
theorem steps_temporaryFor (p : Path) :
    ∃ front name, (temporaryFor p).steps = front ++ [name] ∧ 4 ≤ name.length ∧
    (∀ s, p.fileName? = some s → name = s ++ ".tmp") ∧
      (front = [] ∨ (temporaryFor p).isAbsolute = p.isAbsolute ∧ front <+: p.steps) := by
  rw [temporaryFor, withFileName]
  cases hname : p.fileName? with
  | none =>
    refine ⟨p.steps, ".tmp", steps_join p (by decide) (by decide), by decide, by simp,
      Or.inr ⟨?_, List.prefix_rfl⟩⟩
    exact isAbsolute_join (by decide)
  | some s =>
    have hslash : '/' ∉ (s ++ ".tmp").toList := by simp [slash_notMem_of_fileName? hname]
    have hlength : 4 ≤ (s ++ ".tmp").length := by rw [String.length_append]; exact Nat.le_add_left 4 s.length
    have hne : s ++ ".tmp" ≠ "" := fun h => absurd hlength (by rw [h]; decide)
    refine ⟨_, s ++ ".tmp", steps_join _ hslash hne, hlength, by simp, ?_⟩
    cases hup : p.parent? with
    | none => exact Or.inl (by decide)
    | some up =>
      rcases (parent?_spec hup).2.1 with hempty | hbegins
      · obtain rfl : up = ⟨""⟩ := congrArg Path.mk hempty
        exact Or.inl (by decide)
      · exact Or.inr ⟨(isAbsolute_join hslash).trans hbegins.absolute, hbegins.steps⟩

theorem begins_temporaryFor {up q : Path} (hup : p.parent? = some up) (hq : q ∈ up.ancestors) :
    q.text = "" ∨ Begins q p ∧ Begins q (temporaryFor p) := by
  obtain ⟨-, hbegins, -⟩ := parent?_spec hup
  by_cases hempty : q.text = ""
  · exact Or.inl hempty
  · have hmore : Begins q up := by
      rcases mem_ancestors hq with rfl | habove
      · exact .refl q
      · exact habove.begins.resolve_left hempty
    have hupne : up.text ≠ "" := by
      intro hnone
      obtain rfl : up = ⟨""⟩ := congrArg Path.mk hnone
      have hsteps : q.steps = [] := List.prefix_nil.mp hmore.steps
      have habsolute := steps_eq_nil hempty hsteps
      rw [hmore.absolute] at habsolute
      exact absurd habsolute (by decide)
    have hbegins := hbegins.resolve_left hupne
    refine Or.inr ⟨hmore.trans hbegins, ?_⟩
    rw [temporaryFor, withFileName]
    cases hname : p.fileName? with
    | none => exact (hmore.trans hbegins).trans (begins_join (by decide))
    | some s =>
      rw [hup]
      exact hmore.trans (begins_join (by simp [slash_notMem_of_fileName? hname]))

theorem Retraces.temporaryFor (h : Retraces t cwd p) : Retraces t cwd (temporaryFor p) := by
  intro front back hsteps
  obtain ⟨dir, name, htemp, hlength, -, hdir⟩ := steps_temporaryFor p
  rcases List.eq_nil_or_concat' back with rfl | ⟨back', last, rfl⟩
  · obtain ⟨-, hlast⟩ := List.append_inj' (htemp.symm.trans hsteps) rfl
    rw [(List.cons.inj hlast).1] at hlength
    exact absurd hlength (by decide)
  · have hsplit : dir ++ [name] = (front ++ ".." :: back') ++ [last] := by rw [← htemp, hsteps]; simp
    obtain ⟨rfl, -⟩ := List.append_inj' hsplit rfl
    obtain ⟨habsolute, more, hmore⟩ := hdir.resolve_left (by simp)
    rw [origin, habsolute]
    exact h front (back' ++ more) (by rw [← hmore]; simp)

/-- A path and its temporary sibling end in different names. -/
theorem ends_apart {k k' d d' : Key} {x x' : String} (hname : p.fileName? = some x)
    (htemp : (temporaryFor p).steps.getLast? = some x') (hk : k = d ++ [x])
    (hk' : k' = d' ++ [x']) : k ≠ k' := by
  rintro rfl
  obtain ⟨dir, name, hsteps, -, hlonger, -⟩ := steps_temporaryFor p
  rw [hsteps, List.getLast?_concat] at htemp
  obtain rfl := Option.some.inj htemp
  obtain ⟨-, hsame⟩ := List.append_inj' (hk.symm.trans hk') rfl
  have hlength := congrArg String.length ((List.cons.inj hsame).1.trans (hlonger x hname))
  rw [String.length_append] at hlength
  exact absurd hlength (by simp)

theorem key_ne_temporary {b c : Spot} (hb : made.locate cwd false p = .ok b) (hplain : b.plain = true)
    (hslash : b.slash = false) (hc : s.locate cwd false (temporaryFor p) = .ok c) : b.key ≠ c.key := by
  obtain ⟨-, hways, hends, hslashed⟩ := locate_eq_ok.mp hb
  obtain ⟨front, x, hsteps, hname, hempty, hdot, hup⟩ := exists_fileName? (hends.symm.trans hplain)
  rw [← hslashed, hslash, hsteps] at hways
  obtain ⟨d, hd⟩ := Ways.ends hways hempty hdot hup
  obtain ⟨-, hways', -, -⟩ := locate_eq_ok.mp hc
  obtain ⟨front', x', hsteps', -, hempty', hdot', hup'⟩ := exists_fileName? (endsInName_temporaryFor p)
  rw [slashed_temporaryFor, hsteps'] at hways'
  obtain ⟨d', hd'⟩ := Ways.ends hways' hempty' hdot' hup'
  exact ends_apart hname (by rw [hsteps', List.getLast?_concat]) hd hd'

end temporary

/-- What was made on the way of a replaceable file leaves it replaceable, and reading as before. -/
structure Prepared (t made : FileTree) (cwd : Key) (p : Path) : Prop where
  read_iff : ∀ b, made.read cwd p = .ok b ↔ t.read cwd p = .ok b
  unlinked : Unlinked made cwd (temporaryFor p)
  direct : ∀ b, made.locate cwd false p = .ok b → made.lookup b.key ≠ some .dir →
    (made.erase b.key).locate cwd false p = .ok b
  apart : ∀ c, Temporary made cwd p c → ∀ spot, made.locate cwd true p = .ok spot → spot.key ≠ c.key

theorem Stranded.prepared (hp : Stranded s cwd p) (htemp : Stranded s cwd (temporaryFor p))
    (hgrows : Grows t s) :
    Prepared t s cwd p where
  read_iff b := by
    refine ⟨fun hread => ?_, fun hread => read_of_leads hread hgrows.leads fun k hk => hgrows.keeps hk⟩
    obtain ⟨spot, hspot, hfile, -⟩ := read_eq_ok.mp hread
    rcases hp.located hspot with hdir | ⟨hnone, -⟩
    · simp [hdir] at hfile
    · simp [hnone] at hfile
  unlinked spot target hspot hlink := by
    rcases htemp.located hspot with hdir | ⟨hnone, -⟩
    · simp [hdir] at hlink
    · simp [hnone] at hlink
  direct b hb hnotdir := by
    obtain ⟨hnone, -⟩ := (hp.located hb).resolve_left hnotdir
    have hsame : ∀ k, (s.erase b.key).lookup k = s.lookup k := by
      intro k
      by_cases hk : b.key = k
      · subst hk
        rw [lookup_erase_self s (ne_nil_of_lookup hnotdir), hnone]
      · exact lookup_erase_ne s hk
    exact locate_of_leads hb (fun k e hk _ => (hsame k).trans hk) (fun _ hlink => (hsame _).symm.trans hlink)
      (Or.inl rfl)
  apart c hc spot hspot hsame := by
    have hnotdir : s.lookup c.key ≠ some .dir := fun hdir => hc.ne_key hdir (by simp) rfl
    obtain ⟨-, d, x, hspotd, hx, hnames⟩ := (hp.located hspot).resolve_left (hsame ▸ hnotdir)
    obtain ⟨-, d', x', hcd, hx', -⟩ := (htemp.located hc.located).resolve_left hnotdir
    obtain ⟨front, hfront⟩ := List.getLast?_eq_some_iff.mp hx
    have hname := Path.fileName?_of_steps hfront hnames.nonempty hnames.not_current hnames.not_parent
    exact ends_apart hname hx' hspotd hcd hsame

namespace Replaceable

variable (h : Replaceable t cwd p)
include h

theorem prepared_self : Prepared t t cwd p :=
  ⟨fun _ => Iff.rfl, h.unlinked, fun b hb _ => h.direct b hb,
    fun c hc spot hspot => h.apart spot c hspot hc.located⟩

theorem prepared {up : Path} (hup : p.parent? = some up) (hs : s ∈ t.chainMoments cwd up.ancestors) :
    Prepared t s cwd p := by
  have hbegins := fun q (hq : q ∈ up.ancestors) => begins_temporaryFor hup hq
  obtain ⟨hgrows, -, rfl | hstranded⟩ := stranded_of_mem_chainMoments h.rooted
    (fun q hq => Path.trim_of_mem_ancestors (Path.parent?_spec hup).1 hq) hs
  · exact h.prepared_self
  · exact Stranded.prepared (hstranded p h.retraces fun q hq => (hbegins q hq).imp_right And.left)
      (hstranded _ h.retraces.temporaryFor fun q hq => (hbegins q hq).imp_right And.right) hgrows

theorem prepared_parent (hready : t.ensureParent cwd p = (.ok (), made)) : Prepared t made cwd p := by
  obtain rfl : (t.ensureParent cwd p).2 = made := by rw [hready]
  rcases ensureParent_mem t cwd p with hsame | ⟨up, hup, hmem⟩
  · rw [hsame]
    exact h.prepared_self
  · exact h.prepared hup hmem

end Replaceable

namespace Prepared

variable (h : Prepared t made cwd p)
include h

theorem read_of_write (hwrite : made.write cwd (temporaryFor p) part = .ok s) (b : Bytes) :
    s.read cwd p = .ok b ↔ t.read cwd p = .ok b := by
  obtain ⟨c, hc, rfl⟩ := exists_temporary hwrite
  exact ((hc.aside part).read_iff (h.apart c hc) b).trans (h.read_iff b)

theorem removeFile (hwrite : made.write cwd (temporaryFor p) content = .ok written) : ∃ s,
    written.removeFile cwd (temporaryFor p) = .ok s ∧ (∀ b, s.read cwd p = .ok b ↔ t.read cwd p = .ok b) ∧
      Vacant s cwd (temporaryFor p) := by
  obtain ⟨c, hc, rfl⟩ := exists_temporary hwrite
  have haside := hc.aside_erased content
  refine ⟨_, hc.removeFile h.unlinked content,
    fun b => (haside.read_iff (h.apart c hc) b).trans (h.read_iff b), ?_⟩
  intro k e hentry
  obtain ⟨spot, hspot, rfl, hthere, -⟩ := entryAt_eq_ok.mp hentry
  obtain rfl := Except.ok.inj ((haside.locate hspot).symm.trans (hc.unfollowed h.unlinked))
  simp [lookup_erase_self _ hc.ne_nil] at hthere

/-- Once it is renamed the temporary is nowhere else. -/
theorem vacant_of_rename (hwrite : made.write cwd (temporaryFor p) content = .ok written)
    (hrename : written.rename cwd (temporaryFor p) p = .ok s) : Vacant s cwd (temporaryFor p) := by
  obtain ⟨c, hc, rfl⟩ := exists_temporary hwrite
  have hunfollowed := hc.unfollowed h.unlinked
  obtain ⟨b, hb, ⟨-, hplain⟩, ⟨-, hslash⟩, hnotdir, rfl⟩ :=
    (rename_eq_ok (hc.locate hunfollowed content) (hc.lookup_self content) (by simp)).mp hrename
  have haside := hc.aside_erased content
  intro k e hentry
  obtain ⟨spot, hspot, rfl, hthere, -⟩ := entryAt_eq_ok.mp hentry
  have hbspot : b.key ≠ spot.key := key_ne_temporary hb hplain hslash hspot
  rw [lookup_put_ne _ hbspot] at hthere
  have hmade : made.locate cwd false (temporaryFor p) = .ok spot := by
    refine locate_of_leads hspot (fun k e hk he => ?_) (fun target hlink => ?_) (Or.inl rfl)
    · have hbk : b.key ≠ k := by
        rintro rfl
        rw [lookup_put_self _ (ne_nil_of_lookup hnotdir)] at hk
        exact he content (Option.some.inj hk).symm
      rw [lookup_put_ne _ hbk] at hk
      exact haside.lookup_of_lookup hk he
    · rw [lookup_put_ne _ hbspot]
      exact haside.symm.lookup_of_lookup hlink (by simp)
  obtain rfl := Except.ok.inj (hunfollowed.symm.trans hmade)
  simp [lookup_erase_self _ hc.ne_nil] at hthere

end Prepared

theorem Replaceable.read_of_rename (h : Replaceable t cwd p)
    (hready : t.ensureParent cwd p = (.ok (), made))
    (hwrite : made.write cwd (temporaryFor p) content = .ok written)
    (hrename : written.rename cwd (temporaryFor p) p = .ok s) :
    s.read cwd p = .ok content ∧ Vacant s cwd (temporaryFor p) := by
  have hprepared := h.prepared_parent hready
  have hvacant := hprepared.vacant_of_rename hwrite hrename
  obtain ⟨c, hc, rfl⟩ := exists_temporary hwrite
  exact ⟨hc.read_of_renamed hrename hprepared.unlinked hprepared.direct, hvacant⟩

theorem replaceFile_of_not_renamed {cause : OsError} (hready : t.ensureParent cwd p = (.ok (), made))
    (hwrite : made.writeWith faults cwd (temporaryFor p) content = (.ok (), written))
    (hrename : written.renameWith faults cwd (temporaryFor p) p = .error cause)
    (hremove : written.removeFile cwd (temporaryFor p) = .ok s) :
    t.replaceFile faults cwd p content = (.error (.io p cause), s) := by
  rw [replaceFile, hready]
  simp only [hwrite, commitTemporary, hrename, hremove]

namespace Draft

def old : Bytes := Bytes.ofString "old"

def new : Bytes := Bytes.ofString "new"

/-- A file, and what an earlier attempt to replace it has left behind. -/
def stale : FileTree := ⟨[(["a"], .dir), (["a", "f"], .file old), (["a", "f.tmp"], .file [])]⟩

def fresh : FileTree := ⟨[(["a"], .dir), (["a", "f"], .file new)]⟩

theorem locate_stale (through : Bool) : stale.locate [] through ⟨"a/f"⟩ = .ok ⟨["a", "f"], true, false⟩ ∧
    stale.locate [] through (temporaryFor ⟨"a/f"⟩) = .ok ⟨["a", "f.tmp"], true, false⟩ := by
  cases through <;> decide

theorem replaceable_stale : Replaceable stale [] ⟨"a/f"⟩ where
  rooted := rooted_of_entries (by decide)
  retraces := retraces_of_notMem (by decide)
  unlinked := unlinked_of_locate (locate_stale false).2
    (by simp [show stale.lookup ["a", "f.tmp"] = some (.file []) by decide])
  direct := direct_of_locate (locate_stale false).1 (by decide)
  apart := apart_of_locate (locate_stale true).1 (locate_stale true).2 (by decide)

/-- A file that the path leads to only once the directory that it turns back from is there. -/
def roundabout : FileTree := ⟨[(["a"], .dir), (["a", "f"], .file old), (["a", "f.tmp"], .dir)]⟩

/-- A path through the link that it ends in. -/
def looped : FileTree := ⟨[(["d"], .dir), (["l"], .link "d")]⟩

/-- A link to where its replacement is written first. -/
def leading : FileTree := ⟨[(["f"], .link "f.tmp"), (["f.tmp"], .file old)]⟩

def half : Bytes := Bytes.ofString "ne"

def halved : FileTree := ⟨[(["f"], .link "f.tmp"), (["f.tmp"], .file half)]⟩

end Draft

end SlotBuild.FileTree
