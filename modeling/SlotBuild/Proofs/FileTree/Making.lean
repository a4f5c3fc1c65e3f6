import Mathlib.Data.List.Chain
import SlotBuild.Proofs.FileTree.Replacement
import SlotBuild.Proofs.Path.Ancestors

/-! Directories that are made on the way of a path. A directory that was just made is empty, so a
path through it leads nowhere but to it or to a free name in it, as long as no `..` leads out of it
again. -/

namespace SlotBuild.FileTree

open SlotBuild.Path (Begins Trim)

variable {t s s' made : FileTree} {cwd d k : Key} {p q r : Path} {rest : List String}
    {through : Bool} {links : Nat}

/-- Whatever is there lies in a directory. -/
def Rooted (t : FileTree) : Prop := ∀ k s, t.lookup (k ++ [s]) ≠ none → t.lookup k = some .dir

theorem rooted_of_entries (h : ∀ e ∈ t.entries, t.lookup e.1.dropLast = some .dir) : Rooted t := by
  intro k s hk
  rw [lookup, if_neg (by simp)] at hk
  cases hfound : t.entries.find? fun e => e.1 = k ++ [s] with
  | none => simp [hfound] at hk
  | some e =>
    have hkey : e.1 = k ++ [s] := by simpa using List.find?_some hfound
    have hdir := h e (List.mem_of_find?_eq_some hfound)
    rwa [hkey, List.dropLast_concat] at hdir

/-- Every `..` of the path leads back out of a directory that is there. -/
def Retraces (t : FileTree) (cwd : Key) (p : Path) : Prop :=
  ∀ front back, p.steps = front ++ ".." :: back →
    ∃ k, Ways t true linkLimit (origin cwd p) front k ∧ t.lookup k = some .dir

theorem retraces_of_notMem (h : ".." ∉ p.steps) : Retraces t cwd p :=
  fun front back hsteps => absurd (by simp [hsteps]) h

/-- A directory with nothing in it. -/
structure Bare (t : FileTree) (k : Key) : Prop where
  dir : t.lookup k = some .dir
  free : ∀ s, t.lookup (k ++ [s]) = none

/-- The path leads to no entry but a directory, and otherwise to the free place of its last step. -/
def Stranded (t : FileTree) (cwd : Key) (p : Path) : Prop :=
  ∀ through k, Ways t through linkLimit (origin cwd p) p.steps k → t.lookup k = some .dir ∨
    t.lookup k = none ∧ ∃ d s, k = d ++ [s] ∧ p.steps.getLast? = some s ∧ Names s

/-- A name at the end of a path is where it leads to, if a link there is not followed. -/
theorem Ways.ends {ps : List String} {name : String} (h : Ways t false links d (ps ++ [name]) k)
    (hempty : name ≠ "") (hdot : name ≠ ".") (hup : name ≠ "..") : ∃ front, k = front ++ [name] := by
  obtain ⟨_, d, -, -, hlast⟩ := h.exists_split
  cases hlast with
  | stay _ current => exact absurd current (by simp [hempty, hdot])
  | up => exact absurd rfl hup
  | down _ _ _ more =>
    cases more
    exact ⟨d, rfl⟩
  | stop => exact ⟨d, rfl⟩
  | follow _ _ _ onward => simp at onward

/-- A way to a directory goes on to a name in it, where a link stays unfollowed. -/
theorem Ways.concat {ps : List String} {name : String} (h : Ways t true links cwd ps d)
    (hdir : t.lookup d = some .dir) (hname : Names name)
    (hend : through = false ∨ ∀ target, t.lookup (d ++ [name]) ≠ some (.link target)) :
    Ways t through links cwd (ps ++ [name]) (d ++ [name]) := by
  generalize hfollows : true = follows at h
  induction h with
  | @here _ cur =>
    rcases hend with rfl | hunlinked
    · cases hlookup : t.lookup (cur ++ [name]) with
      | none => exact .down hdir hname (by simp [hlookup]) .here
      | some e =>
        cases e with
        | link target => exact .stop hdir hname hlookup rfl
        | dir => exact .down hdir hname (by simp [hlookup]) .here
        | file => exact .down hdir hname (by simp [hlookup]) .here
    · exact .down hdir hname hunlinked .here
  | stay dir current _ ih => exact .stay dir current (ih hdir hend)
  | up dir _ ih => exact .up dir (ih hdir hend)
  | down dir names unlinked _ ih => exact .down dir names unlinked (ih hdir hend)
  | stop _ _ _ last => simp [← hfollows] at last
  | follow dir names link _ target_ne _ ih =>
    have hmore := ih hdir hend
    rw [List.append_assoc] at hmore
    exact .follow dir names link (Or.inl (by simp)) target_ne hmore

/-- From a name that is no link the way goes on in what has that name, or ends there. -/
theorem Ways.of_name {name : String} (h : Ways t through links d (name :: rest) k) (hname : Names name)
    (hunlinked : ∀ target, t.lookup (d ++ [name]) ≠ some (.link target)) :
    Ways t through links (d ++ [name]) rest k := by
  cases h with
  | stay _ current => exact absurd current (by simp [hname.nonempty, hname.not_current])
  | up => exact absurd rfl hname.not_parent
  | down _ _ _ more => exact more
  | stop _ _ link => exact absurd link (hunlinked _)
  | follow _ _ link => exact absurd link (hunlinked _)

theorem Ways.eq_nil_of_free (h : Ways t through links d rest k) (hfree : t.lookup d = none) :
    rest = [] ∧ k = d := by
  cases rest with
  | nil =>
    cases h
    exact ⟨rfl, rfl⟩
  | cons p rest =>
    have hdir := h.dir_of_cons
    simp [hfree] at hdir

theorem ways_of_bare (hd : Bare t d) (hno : ".." ∉ rest) (h : Ways t through links d rest k) :
    k = d ∨ ∃ front s, rest = front ++ [s] ∧ Names s ∧ k = d ++ [s] := by
  induction rest with
  | nil =>
    cases h
    exact Or.inl rfl
  | cons p rest ih =>
    obtain ⟨hp, hrest⟩ := not_or.mp (List.mem_cons.not.mp hno)
    cases h with
    | stay _ _ more =>
      rcases ih hrest more with hsame | ⟨front, s, rfl, hs, hk⟩
      · exact Or.inl hsame
      · exact Or.inr ⟨p :: front, s, rfl, hs, hk⟩
    | up => exact absurd rfl hp
    | down _ names _ more =>
      obtain ⟨rfl, rfl⟩ := more.eq_nil_of_free (hd.free p)
      exact Or.inr ⟨[], p, rfl, names, rfl⟩
    | stop _ _ link => simp [hd.free] at link
    | follow _ _ link => simp [hd.free] at link

theorem Retraces.mono (h : Retraces s cwd p) (hleads : Leads s s') : Retraces s' cwd p := by
  intro front back hsteps
  obtain ⟨k, hk, hdir⟩ := h front back hsteps
  have hdir' := hleads.dir hdir
  exact ⟨k, hk.mono hleads (by simp [hdir']) (Or.inl rfl), hdir'⟩

section makeDir

theorem Rooted.put_dir (h : Rooted s) {x : String} (hd : s.lookup d = some .dir)
    (hfree : s.lookup (d ++ [x]) = none) (e : Entry) : Rooted (s.put (d ++ [x]) e) := by
  intro k y hk
  have hdne : d ++ [x] ≠ d := by simp
  by_cases hsame : d ++ [x] = k ++ [y]
  · obtain ⟨rfl, -⟩ := List.append_inj' hsame rfl
    rwa [lookup_put_ne s hdne]
  · rw [lookup_put_ne s hsame] at hk
    have hdir := h k y hk
    have hne : d ++ [x] ≠ k := by
      rintro rfl
      simp [hfree] at hdir
    rwa [lookup_put_ne s hne]

theorem Rooted.bare_put (h : Rooted s) (hk : k ≠ []) (hfree : s.lookup k = none) : Bare (s.put k .dir) k := by
  refine ⟨lookup_put_self s hk .dir, fun y => ?_⟩
  rw [lookup_put_ne s (by simp)]
  by_contra hthere
  simp [h k y hthere] at hfree

/-- Where a directory is made. -/
theorem makeDir_spec (hrooted : Rooted s) (hq : q.Trim) (h : s.makeDir cwd q = .ok s') :
    ∃ front x d, q.steps = front ++ [x] ∧ Names x ∧ Ways s true linkLimit (origin cwd q) front d ∧
      s.lookup d = some .dir ∧ s.lookup (d ++ [x]) = none ∧ s' = s.put (d ++ [x]) .dir := by
  obtain ⟨spot, hspot, h⟩ := bind_eq_ok.mp h
  split at h
  case h_1 => cases h
  case h_2 hnone =>
    obtain rfl := Except.ok.inj h
    obtain ⟨hspeaks, hways, -, -⟩ := locate_eq_ok.mp hspot
    rcases List.eq_nil_or_concat' q.steps with hnil | ⟨front, x, hsteps⟩
    · have habsolute := Path.steps_eq_nil hspeaks.nonempty hnil
      rw [hnil, origin, if_pos habsolute] at hways
      generalize hkey : spot.key = k at hways hnone
      cases hways
      simp at hnone
    · have hslashed := hq.slashed (by simp [hsteps])
      rw [hslashed, Bool.or_false, hsteps] at hways
      obtain ⟨_, d, hfront, hdir, hlast⟩ := hways.exists_split
      generalize spot.key = k at hlast hnone
      cases hlast with
      | stay _ _ more =>
        cases more
        simp [hdir] at hnone
      | up _ more =>
        cases more
        rcases List.eq_nil_or_concat' d with rfl | ⟨above, y, rfl⟩
        · simp at hnone
        · rw [List.dropLast_concat, hrooted above y (by simp [hdir])] at hnone
          simp at hnone
      | down _ names _ more =>
        cases more
        exact ⟨front, x, d, hsteps, names, hfront, hdir, hnone, rfl⟩
      | stop _ _ link => simp [link] at hnone
      | follow _ _ _ onward => simp at onward

/-- Behind a directory that was just made there is nothing. -/
theorem stranded_of_makeDir (hrooted : Rooted s) (hretraces : Retraces s cwd r) (hq : q.Trim)
    (hbegins : Begins q r)
    (h : s.makeDir cwd q = .ok s') : Stranded s' cwd r := by
  obtain ⟨front, x, d, hsteps, hx, hfront, hdir, hnone, hmade⟩ := makeDir_spec hrooted hq h
  have hgrows := makeDir_grows h
  have hbare : Bare s' (d ++ [x]) := hmade ▸ hrooted.bare_put (by simp) hnone
  have horigin : origin cwd q = origin cwd r := by rw [origin, origin, hbegins.absolute]
  obtain ⟨rest, hrest⟩ := hbegins.steps
  rw [hsteps, List.append_assoc, List.singleton_append] at hrest
  rw [horigin] at hfront
  have hno : ".." ∉ rest := by
    intro hup
    obtain ⟨mid, back, rfl⟩ := List.append_of_mem hup
    obtain ⟨k, hk, hkdir⟩ := hretraces (front ++ x :: mid) back (by rw [← hrest]; simp)
    obtain ⟨_, d', hd', -, hlast⟩ := hk.exists_split
    obtain rfl := hd'.unique hfront
    obtain ⟨-, rfl⟩ := (hlast.of_name hx (by simp [hnone])).eq_nil_of_free hnone
    simp [hnone] at hkdir
  intro through k hways
  rw [← hrest] at hways
  obtain ⟨_, d', hd', -, hlast⟩ := hways.exists_split
  obtain rfl := hd'.unique (hfront.mono hgrows.leads (by simp [hgrows.keeps hdir]) (Or.inl rfl))
  rcases ways_of_bare hbare hno (hlast.of_name hx (by simp [hbare.dir])) with rfl | ⟨mid, y, rfl, hy, rfl⟩
  · exact Or.inl hbare.dir
  · refine Or.inr ⟨hbare.free y, _, y, rfl, ?_, hy⟩
    rw [← hrest, ← List.cons_append, ← List.append_assoc, List.getLast?_concat]

end makeDir

section chain

variable {ps : List Path}

/-- The file systems that making a chain of directories goes through, the first before and the last
after. -/
def chainMoments (t : FileTree) (cwd : Key) : List Path → List FileTree
  | [] => [t]
  | p :: up =>
    if p.text = "" then [t]
    else match t.makeDir cwd p with
      | .ok made => [t, made]
      | .error .notFound =>
        if up = [] then [t]
        else match t.makeChain cwd up with
          | (.error _, _) => t.chainMoments cwd up
          | (.ok (), above) => t.chainMoments cwd up ++ (above.makeDir cwd p).toOption.toList
      | .error _ => [t]

theorem getLast?_chainMoments (t : FileTree) (cwd : Key) (ps : List Path) :
    (t.chainMoments cwd ps).getLast? = some (t.makeChain cwd ps).2 := by
  induction ps with
  | nil => rfl
  | cons p up ih =>
    rw [chainMoments, makeChain]
    by_cases hempty : p.text = ""
    · rw [if_pos hempty, if_pos hempty]
      rfl
    · rw [if_neg hempty, if_neg hempty]
      cases hp : t.makeDir cwd p with
      | ok made => rfl
      | error e =>
        cases e with
        | notFound =>
          by_cases hup : up = []
          · simp [hup]
          · rcases habove : t.makeChain cwd up with ⟨result, above⟩
            rw [habove] at ih
            cases result with
            | error e => simpa [hup] using ih
            | ok =>
              cases hmade : above.makeDir cwd p with
              | ok made => simp [hup, hmade, Except.toOption]
              | error e =>
                simp only [hup, hmade, if_false, Except.toOption, Option.toList_none, List.append_nil, ih]
                split <;> rfl
        | _ =>
          dsimp only
          split <;> rfl

theorem ensureDir_mem (t : FileTree) (cwd : Key) (p : Path) :
    (t.ensureDir cwd p).2 ∈ t.chainMoments cwd p.ancestors := by
  rw [ensureDir_snd]
  exact List.mem_of_getLast? (getLast?_chainMoments t cwd p.ancestors)

theorem isChain_chainMoments (t : FileTree) (cwd : Key) (ps : List Path) :
    (∃ more, t.chainMoments cwd ps = t :: more) ∧
      (t.chainMoments cwd ps).IsChain fun a b => ∃ p ∈ ps, a.makeDir cwd p = .ok b := by
  induction ps with
  | nil => exact ⟨⟨[], rfl⟩, .singleton t⟩
  | cons p up ih =>
    obtain ⟨⟨more, hmore⟩, hchain⟩ := ih
    have hup : (t.chainMoments cwd up).IsChain fun a b => ∃ q ∈ p :: up, a.makeDir cwd q = .ok b :=
      hchain.imp fun a b ⟨q, hq, hmade⟩ => ⟨q, List.mem_cons_of_mem p hq, hmade⟩
    rw [chainMoments]
    split
    · exact ⟨⟨[], rfl⟩, .singleton t⟩
    · split
      case h_1 made hmade =>
        exact ⟨⟨[made], rfl⟩, List.isChain_pair.mpr ⟨p, List.mem_cons_self, hmade⟩⟩
      case h_2 =>
        split
        · exact ⟨⟨[], rfl⟩, .singleton t⟩
        · split
          case h_1 => exact ⟨⟨more, hmore⟩, hup⟩
          case h_2 above habove =>
            refine ⟨⟨_, by rw [hmore, List.cons_append]⟩, hup.append ?_ fun a ha b hb => ?_⟩
            · cases above.makeDir cwd p <;> simp [Except.toOption]
            · rw [getLast?_chainMoments, habove] at ha
              obtain rfl : above = a := by simpa using ha
              cases hmade : above.makeDir cwd p with
              | ok made =>
                obtain rfl : made = b := by simpa [hmade, Except.toOption] using hb
                exact ⟨p, List.mem_cons_self, hmade⟩
              | error e => simp [hmade, Except.toOption] at hb
      case h_3 => exact ⟨⟨[], rfl⟩, .singleton t⟩

/-- What holds at first and is kept whenever one of the directories is made holds at every moment. -/
theorem chainMoments_induction {P : FileTree → Prop} (hfirst : P t)
    (hstep : ∀ a b p, p ∈ ps → a.makeDir cwd p = .ok b → P a → P b) : ∀ s ∈ t.chainMoments cwd ps, P s := by
  obtain ⟨⟨more, hmore⟩, hchain⟩ := isChain_chainMoments t cwd ps
  refine hchain.induction P _ (fun a b ⟨p, hp, hmade⟩ ha => hstep a b p hp hmade ha) fun hne => ?_
  simpa [hmore] using hfirst

/-- While directories are made nothing else changes. -/
theorem rooted_induction {P : FileTree → Prop} (hrooted : Rooted t) (hps : ∀ q ∈ ps, q.Trim) (hfirst : P t)
    (hstep : ∀ a b q, q ∈ ps → Grows t a → Rooted a → a.makeDir cwd q = .ok b → P a → P b) :
    ∀ s ∈ t.chainMoments cwd ps, Grows t s ∧ Rooted s ∧ P s := by
  refine chainMoments_induction ⟨.refl t, hrooted, hfirst⟩ ?_
  rintro a b q hq hmade ⟨hgrows, ha, hP⟩
  obtain ⟨front, x, d, -, -, -, hdir, hnone, rfl⟩ := makeDir_spec ha (hps q hq) hmade
  exact ⟨hgrows.trans (makeDir_grows hmade), ha.put_dir hdir hnone .dir, hstep _ _ q hq hgrows ha hmade hP⟩

/-- As soon as a directory is made every path that all of them are on leads to no more than
directories. -/
theorem stranded_of_mem_chainMoments (hrooted : Rooted t) (hps : ∀ q ∈ ps, q.Trim)
    (hs : s ∈ t.chainMoments cwd ps) : Grows t s ∧ Rooted s ∧
      (s = t ∨ ∀ r, Retraces t cwd r → (∀ q ∈ ps, q.text = "" ∨ Begins q r) → Stranded s cwd r) := by
  refine rooted_induction (P := fun s => s = t ∨ ∀ r, Retraces t cwd r →
    (∀ q ∈ ps, q.text = "" ∨ Begins q r) →
    Stranded s cwd r) hrooted hps (Or.inl rfl) ?_ s hs
  refine fun a b q hq hgrows ha hmade _ => Or.inr fun r hr hbegins => ?_
  obtain ⟨spot, hspot, -⟩ := bind_eq_ok.mp hmade
  exact stranded_of_makeDir ha (hr.mono hgrows.leads) (hps q hq)
    ((hbegins q hq).resolve_left (speaks_of_locate hspot).nonempty) hmade

end chain

section join

variable {x y : String} {spot : Spot} {e : Entry}

theorem Retraces.join (h : Retraces t cwd p) (hx : Path.IsName x) : Retraces t cwd (p.join ⟨x⟩) := by
  intro front back hsteps
  rw [Path.steps_join p hx.no_slash hx.nonempty] at hsteps
  rw [origin, Path.isAbsolute_join hx.no_slash]
  rcases List.eq_nil_or_concat' back with rfl | ⟨back', last, rfl⟩
  · obtain ⟨-, hlast⟩ := List.append_inj' hsteps rfl
    exact absurd (List.cons.inj hlast).1 hx.not_parent
  · rw [← List.cons_append, ← List.append_assoc] at hsteps
    obtain ⟨hfront, -⟩ := List.append_inj' hsteps rfl
    exact h front back' hfront

/-- What the path leads to in `s`, directories apart, it has led to before. -/
def Faithful (t s : FileTree) (cwd : Key) (p : Path) : Prop :=
  ∀ through spot e, s.locate cwd through p = .ok spot → s.lookup spot.key = some e → e ≠ .dir →
    t.locate cwd through p = .ok spot ∧ t.lookup spot.key = some e

theorem Stranded.located (h : Stranded s cwd p) (hspot : s.locate cwd through p = .ok spot) :
    s.lookup spot.key = some .dir ∨ s.lookup spot.key = none ∧
      ∃ d x, spot.key = d ++ [x] ∧ p.steps.getLast? = some x ∧ Names x :=
  h _ _ (locate_eq_ok.mp hspot).2.1

theorem Stranded.faithful (h : Stranded s cwd p) (t : FileTree) : Faithful t s cwd p := by
  intro through spot e hspot he hne
  rcases h.located hspot with hdir | ⟨hnone, -⟩
  · exact absurd (Option.some.inj (he.symm.trans hdir)) hne
  · simp [hnone] at he

theorem Faithful.unlinked (h : Faithful t s cwd p) (ht : Unlinked t cwd p) : Unlinked s cwd p := by
  intro spot target hspot hlink
  obtain ⟨hspot, hlink⟩ := h _ _ _ hspot hlink (by simp)
  exact ht spot target hspot hlink

/-- A directory that is made beside what a path ends in is not on the way of that path, unless by a
link there. -/
theorem locate_beside (hrooted : Rooted s) (hx : Path.IsName x) (hy : Path.IsName y) (hxy : x ≠ y)
    (hmade : s.makeDir cwd (p.join ⟨x⟩) = .ok s') (hunlinked : Unlinked s cwd (p.join ⟨y⟩))
    (h : s'.locate cwd through (p.join ⟨y⟩) = .ok spot) :
    s.locate cwd through (p.join ⟨y⟩) = .ok spot ∧ s'.lookup spot.key = s.lookup spot.key := by
  have hgrows := makeDir_grows hmade
  obtain ⟨front, z, d, hsteps, -, hfront, hdir, -, hput⟩ :=
    makeDir_spec hrooted (Or.inl (Path.slashed_join hx.no_slash hx.nonempty)) hmade
  rw [Path.steps_join p hx.no_slash hx.nonempty] at hsteps
  obtain ⟨rfl, hz⟩ := List.append_inj' hsteps rfl
  obtain rfl := (List.cons.inj hz).1
  obtain ⟨key, plain, slash⟩ := spot
  obtain ⟨hspeaks, hways, hplain, hslash⟩ := locate_eq_ok.mp h
  rw [Path.slashed_join hy.no_slash hy.nonempty, Bool.or_false,
    Path.steps_join p hy.no_slash hy.nonempty, origin,
    Path.isAbsolute_join hy.no_slash] at hways
  rw [origin, Path.isAbsolute_join hx.no_slash] at hfront
  obtain ⟨_, d', hd', -, hlast⟩ := hways.exists_split
  obtain rfl := hd'.unique (hfront.mono hgrows.leads (by simp [hgrows.keeps hdir]) (Or.inl rfl))
  have hsame : s'.lookup (d' ++ [y]) = s.lookup (d' ++ [y]) := by
    rw [hput, lookup_put_ne s (by simpa using hxy)]
  have hnames : Names y := by
    cases hlast with
    | stay _ current => exact absurd current (by simp [hy.nonempty, hy.not_current])
    | up => exact absurd rfl hy.not_parent
    | down _ names => exact names
    | stop _ names => exact names
    | follow _ names => exact names
  have hlocate : ∀ {through : Bool},
      (through = false ∨ ∀ target, s.lookup (d' ++ [y]) ≠ some (.link target)) →
      s.locate cwd through (p.join ⟨y⟩) = .ok ⟨d' ++ [y], plain, slash⟩ := by
    intro through hend
    refine locate_eq_ok.mpr ⟨hspeaks, ?_, hplain, hslash⟩
    rw [Path.slashed_join hy.no_slash hy.nonempty, Bool.or_false,
      Path.steps_join p hy.no_slash hy.nonempty, origin,
      Path.isAbsolute_join hy.no_slash]
    exact hfront.concat hdir hnames hend
  have hno : ∀ target, s.lookup (d' ++ [y]) ≠ some (.link target) :=
    fun target hlink => hunlinked _ target (hlocate (Or.inl rfl)) hlink
  obtain rfl : key = d' ++ [y] := by
    have hhere := hlast.of_name hnames (by simpa [hsame] using hno)
    cases hhere
    rfl
  exact ⟨hlocate (Or.inr hno), hsame⟩

/-- Making a directory, with those it lies in, changes nothing about a path to another name beside
it. -/
theorem faithful_beside (hrooted : Rooted t) (hretraces : Retraces t cwd p) (hx : Path.IsName x)
    (hy : Path.IsName y) (hxy : x ≠ y) (hunlinked : Unlinked t cwd (p.join ⟨y⟩))
    (hs : s ∈ t.chainMoments cwd (p.join ⟨x⟩).ancestors) : Faithful t s cwd (p.join ⟨y⟩) := by
  have htrim : (p.join ⟨x⟩).Trim := Or.inl (Path.slashed_join hx.no_slash hx.nonempty)
  refine (rooted_induction (P := fun s => Faithful t s cwd (p.join ⟨y⟩)) hrooted
    (fun q hq => Path.trim_of_mem_ancestors htrim hq) (fun _ _ _ hspot he _ => ⟨hspot, he⟩) ?_ s hs).2.2
  intro a b q hq hgrows ha hmade hfaithful
  rcases Path.mem_ancestors hq with rfl | habove
  · intro through spot e hspot he hne
    obtain ⟨hspot', hsame⟩ := locate_beside ha hx hy hxy hmade (hfaithful.unlinked hunlinked) hspot
    exact hfaithful through spot e hspot' (hsame.symm.trans he) hne
  · obtain ⟨spot, hspot, -⟩ := bind_eq_ok.mp hmade
    have hbegins := (habove.of_join hx.no_slash hx.nonempty).resolve_left (speaks_of_locate hspot).nonempty
    exact (stranded_of_makeDir ha ((hretraces.join hy).mono hgrows.leads) habove.trim
      (hbegins.trans (Path.begins_join hy.no_slash)) hmade).faithful t

/-- Making a directory, with those it lies in, puts nothing below it. -/
theorem faithful_below (hrooted : Rooted t) (hretraces : Retraces t cwd p) (hp : p.Trim) (hy : Path.IsName y)
    (hs : s ∈ t.chainMoments cwd p.ancestors) : Faithful t s cwd (p.join ⟨y⟩) := by
  obtain ⟨-, -, rfl | hstranded⟩ :=
    stranded_of_mem_chainMoments hrooted (fun q hq => Path.trim_of_mem_ancestors hp hq) hs
  · exact fun _ _ _ hspot he _ => ⟨hspot, he⟩
  · refine (hstranded _ (hretraces.join hy) fun q hq => ?_).faithful t
    rcases Path.mem_ancestors hq with rfl | habove
    · exact Or.inr (Path.begins_join hy.no_slash)
    · exact habove.begins.imp_right fun hbegins => hbegins.trans (Path.begins_join hy.no_slash)

end join

end SlotBuild.FileTree
