import SlotBuild.FileTree.Access
import SlotBuild.Proofs.Failure
import SlotBuild.Proofs.Path

/-! Where a path leads, as a relation, and after a file system has changed. Only directories and
links lead on, so a path that has led somewhere still leads there as long as these are kept. -/

namespace SlotBuild.FileTree

@[simp] theorem lookup_nil (t : FileTree) : t.lookup [] = some .dir := rfl

theorem lookup_erase_self (t : FileTree) {k : Key} (hk : k ≠ []) : (t.erase k).lookup k = none := by
  simp [lookup, erase, hk]

theorem lookup_erase_ne (t : FileTree) {k j : Key} (h : k ≠ j) : (t.erase k).lookup j = t.lookup j := by
  have hsame : ∀ e : Key × Entry,
      decide (decide (e.1 ≠ k) = true ∧ decide (e.1 = j) = true) = decide (e.1 = j) := by
    intro e
    by_cases he : e.1 = j
    · simp [he, Ne.symm h]
    · simp [he]
  simp only [lookup, erase, List.find?_filter, hsame]

/-- A piece of a path that names an entry of the directory it is looked up in. -/
structure Names (p : String) : Prop where
  nonempty : p ≠ ""
  not_current : p ≠ "."
  not_parent : p ≠ ".."
  fits : p.utf8ByteSize ≤ nameLimit

/-- The pieces lead from a directory to a key, with so many links followed at the most. A link at
the very end is followed only if `through`. -/
inductive Ways (t : FileTree) (through : Bool) : Nat → Key → List String → Key → Prop where
  | here {links : Nat} {cur : Key} : Ways t through links cur [] cur
  | stay {links : Nat} {cur k : Key} {p : String} {rest : List String} (dir : t.lookup cur = some .dir)
      (current : p = "" ∨ p = ".") (more : Ways t through links cur rest k) :
      Ways t through links cur (p :: rest) k
  | up {links : Nat} {cur k : Key} {rest : List String} (dir : t.lookup cur = some .dir)
      (more : Ways t through links cur.dropLast rest k) : Ways t through links cur (".." :: rest) k
  | down {links : Nat} {cur k : Key} {p : String} {rest : List String} (dir : t.lookup cur = some .dir)
      (names : Names p) (unlinked : ∀ target, t.lookup (cur ++ [p]) ≠ some (.link target))
      (more : Ways t through links (cur ++ [p]) rest k) : Ways t through links cur (p :: rest) k
  | stop {links : Nat} {cur : Key} {p target : String} (dir : t.lookup cur = some .dir) (names : Names p)
      (link : t.lookup (cur ++ [p]) = some (.link target)) (last : through = false) :
      Ways t through links cur [p] (cur ++ [p])
  | follow {links : Nat} {cur k : Key} {p target : String} {rest : List String}
      (dir : t.lookup cur = some .dir) (names : Names p)
      (link : t.lookup (cur ++ [p]) = some (.link target)) (onward : rest ≠ [] ∨ through = true)
      (target_ne : target ≠ "")
      (more : Ways t through links (if (Path.mk target).isAbsolute then [] else cur)
        ((Path.mk target).pieces ++ rest) k) : Ways t through (links + 1) cur (p :: rest) k

variable {t t' : FileTree} {through : Bool} {links : Nat} {cur k : Key}

theorem descendWith_cons {follow : Key → String → List String → Except OsError Key} {p : String}
    (hp : Names p) (hcur : t.lookup cur = some .dir) (rest : List String) :
    t.descendWith through follow cur (p :: rest) =
      match t.lookup (cur ++ [p]) with
      | some (.link target) =>
        if rest = [] ∧ !through then .ok (cur ++ [p]) else follow cur target rest
      | _ => t.descendWith through follow (cur ++ [p]) rest := by
  have hfits := Nat.not_lt.mpr hp.fits
  cases hlookup : t.lookup (cur ++ [p]) with
  | none =>
    simp only [descendWith, hcur, hlookup, hp.nonempty, hp.not_current, hp.not_parent, hfits,
      or_self, if_false]
  | some e =>
    cases e <;>
      simp only [descendWith, hcur, hlookup, hp.nonempty, hp.not_current, hp.not_parent, hfits,
        or_self, if_false]

theorem ways_of_descendWith {follow : Key → String → List String → Except OsError Key}
    (hfollow : ∀ {cur : Key} {p target : String} {rest : List String}, t.lookup cur = some .dir → Names p →
      t.lookup (cur ++ [p]) = some (.link target) → rest ≠ [] ∨ through = true →
      follow cur target rest = .ok k → Ways t through links cur (p :: rest) k)
    {ps : List String} (h : t.descendWith through follow cur ps = .ok k) : Ways t through links cur ps k := by
  induction ps generalizing cur with
  | nil =>
    obtain rfl : cur = k := by simpa [descendWith] using h
    exact .here
  | cons p rest ih =>
    have hcur : t.lookup cur = some .dir := by
      simp only [descendWith] at h
      split at h <;> simp_all
    by_cases hcurrent : p = "" ∨ p = "."
    · refine .stay hcur hcurrent (ih ?_)
      simpa only [descendWith, hcur, if_pos hcurrent] using h
    · by_cases hup : p = ".."
      · subst hup
        refine .up hcur (ih ?_)
        simpa [descendWith, hcur] using h
      · obtain ⟨hempty, hdot⟩ := not_or.mp hcurrent
        have hfits : p.utf8ByteSize ≤ nameLimit := by
          by_contra hlong
          simp [descendWith, hcur, hempty, hdot, hup, Nat.lt_of_not_le hlong] at h
        have hp : Names p := ⟨hempty, hdot, hup, hfits⟩
        rw [descendWith_cons hp hcur] at h
        split at h
        case h_1 target hl =>
          split_ifs at h with hstop
          · obtain ⟨rfl, hlast⟩ := hstop
            obtain rfl : cur ++ [p] = k := by simpa using h
            exact .stop hcur hp hl (by simpa using hlast)
          · refine hfollow hcur hp hl ?_ h
            by_contra hcon
            obtain ⟨hrest, hlast⟩ := not_or.mp hcon
            exact hstop ⟨not_not.mp hrest, by simpa using hlast⟩
        case h_2 hno => exact .down hcur hp (fun target hl => hno target hl) (ih h)

theorem ways_of_descend {ps : List String} (h : t.descend through links cur ps = .ok k) :
    Ways t through links cur ps k := by
  induction links generalizing cur ps with
  | zero => exact ways_of_descendWith (by simp) h
  | succ links ih =>
    refine ways_of_descendWith (fun {_ _ target _} hcur hp hl honward hf => ?_) h
    by_cases hempty : target = ""
    · simp only [if_pos hempty, reduceCtorEq] at hf
    · rw [if_neg hempty] at hf
      exact .follow hcur hp hl honward hempty (ih hf)

/-- What is done at a link when so many may still be followed. -/
def onward (t : FileTree) (through : Bool) : Nat → Key → String → List String → Except OsError Key
  | 0 => fun _ _ _ => .error .tooManyLinks
  | links + 1 => fun cur target rest =>
    if target = "" then .error .notFound
    else t.descend through links (if (Path.mk target).isAbsolute then [] else cur)
      ((Path.mk target).pieces ++ rest)

theorem descend_eq_descendWith :
    t.descend through links = t.descendWith through (onward t through links) := by
  cases links <;> rfl

theorem descend_of_ways {ps : List String} (h : Ways t through links cur ps k) :
    t.descend through links cur ps = .ok k := by
  induction h with
  | here => rw [descend_eq_descendWith, descendWith]
  | stay dir current _ ih =>
    rw [descend_eq_descendWith] at ih ⊢
    simpa only [descendWith, dir, if_pos current] using ih
  | up dir _ ih =>
    rw [descend_eq_descendWith] at ih ⊢
    simpa [descendWith, dir] using ih
  | @down links cur k p rest dir names unlinked _ ih =>
    rw [descend_eq_descendWith] at ih ⊢
    rw [descendWith_cons names dir]
    split
    case h_1 target hl => exact absurd hl (unlinked target)
    case h_2 => exact ih
  | stop dir names link last =>
    rw [descend_eq_descendWith, descendWith_cons names dir, link]
    simp [last]
  | follow dir names link onward target_ne _ ih =>
    rw [descend_eq_descendWith, descendWith_cons names dir, link]
    have hgo : ¬ (_ = [] ∧ (!through) = true) := fun hstop =>
      onward.elim (fun hne => hne hstop.1) fun hthrough => by simp [hthrough] at hstop
    simp only [if_neg hgo, FileTree.onward, if_neg target_ne]
    exact ih

theorem Ways.unique {ps : List String} {k' : Key} (h : Ways t through links cur ps k)
    (h' : Ways t through links cur ps k') : k = k' := by
  have hsame := descend_of_ways h
  rw [descend_of_ways h'] at hsame
  exact (Except.ok.inj hsame).symm

/-- The directories and links of `t` are in `t'` as they are. -/
def Leads (t t' : FileTree) : Prop :=
  ∀ k e, t.lookup k = some e → (∀ content, e ≠ .file content) → t'.lookup k = some e

namespace Leads

theorem dir (h : Leads t t') {k : Key} (hk : t.lookup k = some .dir) : t'.lookup k = some .dir :=
  h k .dir hk fun _ => by simp

theorem link (h : Leads t t') {k : Key} {target : String} (hk : t.lookup k = some (.link target)) :
    t'.lookup k = some (.link target) := h k (.link target) hk fun _ => by simp

end Leads

/-- There is a link at `k` that leads to `c`. -/
def LinksTo (t : FileTree) (k c : Key) : Prop :=
  ∃ d x target links, k = d ++ [x] ∧ t.lookup k = some (.link target) ∧
    Ways t true links (if (Path.mk target).isAbsolute then [] else d) (Path.mk target).pieces c

theorem LinksTo.link {c : Key} (h : LinksTo t k c) : ∃ target, t.lookup k = some (.link target) := by
  obtain ⟨-, -, target, -, -, hlink, -⟩ := h
  exact ⟨target, hlink⟩

namespace Ways

theorem dir_of_cons {p : String} {rest : List String} (h : Ways t through links cur (p :: rest) k) :
    t.lookup cur = some .dir := by
  cases h <;> assumption

/-- Without a link at the end it does not matter whether one there would be followed. -/
theorem mono {through' : Bool} {ps : List String} (h : Ways t through links cur ps k) (hleads : Leads t t')
    (hend : ∀ target, t'.lookup k = some (.link target) → t.lookup k = some (.link target))
    (hthrough : through' = through ∨ (through' = true ∧ ∀ target, t'.lookup k ≠ some (.link target))) :
    Ways t' through' links cur ps k := by
  induction h with
  | here => exact .here
  | stay dir current _ ih => exact .stay (hleads.dir dir) current (ih hend hthrough)
  | up dir _ ih => exact .up (hleads.dir dir) (ih hend hthrough)
  | @down links cur k p rest dir names unlinked more ih =>
    refine .down (hleads.dir dir) names (fun target hl => ?_) (ih hend hthrough)
    cases rest with
    | nil =>
      cases more
      exact unlinked target (hend target hl)
    | cons q rest =>
      have hdir := hleads.dir more.dir_of_cons
      simp [hl] at hdir
  | stop dir names link last =>
    rcases hthrough with rfl | ⟨-, hno⟩
    · exact .stop (hleads.dir dir) names (hleads.link link) last
    · exact absurd (hleads.link link) (hno _)
  | follow dir names link onward target_ne _ ih =>
    refine .follow (hleads.dir dir) names (hleads.link link) (onward.imp_right ?_) target_ne
      (ih hend hthrough)
    rintro rfl
    exact hthrough.elim id And.left

/-- Where more links may be followed the way is the same. -/
theorem weaken {links' : Nat} {ps : List String} (h : Ways t through links cur ps k)
    (hle : links ≤ links') : Ways t through links' cur ps k := by
  induction h generalizing links' with
  | here => exact .here
  | stay dir current _ ih => exact .stay dir current (ih hle)
  | up dir _ ih => exact .up dir (ih hle)
  | down dir names unlinked _ ih => exact .down dir names unlinked (ih hle)
  | stop dir names link last => exact .stop dir names link last
  | follow dir names link onward target_ne _ ih =>
    obtain ⟨more, rfl⟩ : ∃ more, links' = more + 1 := ⟨links' - 1, by omega⟩
    exact .follow dir names link onward target_ne (ih (by omega))

theorem eq_of_ways {links' : Nat} {ps : List String} {k' : Key} (h : Ways t through links cur ps k)
    (h' : Ways t through links' cur ps k') : k = k' :=
  (h.weaken (Nat.le_max_left links links')).unique (h'.weaken (Nat.le_max_right links links'))

theorem exists_unfollowed {ps : List String} (h : Ways t true links cur ps k) :
    ∃ k', Ways t false links cur ps k' ∧ (k' = k ∨ LinksTo t k' k) := by
  generalize hthrough : true = through at h
  induction h with
  | here => exact ⟨_, .here, Or.inl rfl⟩
  | stay dir current _ ih =>
    obtain ⟨k', hk', hend⟩ := ih
    exact ⟨k', .stay dir current hk', hend⟩
  | up dir _ ih =>
    obtain ⟨k', hk', hend⟩ := ih
    exact ⟨k', .up dir hk', hend⟩
  | down dir names unlinked _ ih =>
    obtain ⟨k', hk', hend⟩ := ih
    exact ⟨k', .down dir names unlinked hk', hend⟩
  | stop _ _ _ last => simp [← hthrough] at last
  | @follow links cur k p target rest dir names link onward target_ne more ih =>
    by_cases hrest : rest = []
    · subst hrest
      rw [List.append_nil, ← hthrough] at more
      exact ⟨_, .stop dir names link rfl, Or.inr ⟨cur, p, target, links, rfl, link, more⟩⟩
    · obtain ⟨k', hk', hend⟩ := ih
      exact ⟨k', .follow dir names link (Or.inl hrest) target_ne hk', hend⟩

/-- The pieces before a given one lead to a directory, from where the others lead on. -/
theorem exists_split {ps : List String} {x : String} {xs : List String}
    (h : Ways t through links cur (ps ++ x :: xs) k) :
    ∃ links' d, Ways t true links cur ps d ∧ t.lookup d = some .dir ∧
      Ways t through links' d (x :: xs) k := by
  generalize hqs : ps ++ x :: xs = qs at h
  induction h generalizing ps with
  | here => simp at hqs
  | stay dir current more ih =>
    rcases ps with _ | ⟨p, ps⟩
    · obtain ⟨rfl, rfl⟩ := List.cons.inj hqs
      exact ⟨_, _, .here, dir, .stay dir current more⟩
    · obtain ⟨rfl, rfl⟩ := List.cons.inj hqs
      obtain ⟨links', d, hd, hdir, hlast⟩ := ih rfl
      exact ⟨links', d, .stay dir current hd, hdir, hlast⟩
  | up dir more ih =>
    rcases ps with _ | ⟨p, ps⟩
    · obtain ⟨rfl, rfl⟩ := List.cons.inj hqs
      exact ⟨_, _, .here, dir, .up dir more⟩
    · obtain ⟨rfl, rfl⟩ := List.cons.inj hqs
      obtain ⟨links', d, hd, hdir, hlast⟩ := ih rfl
      exact ⟨links', d, .up dir hd, hdir, hlast⟩
  | down dir names unlinked more ih =>
    rcases ps with _ | ⟨p, ps⟩
    · obtain ⟨rfl, rfl⟩ := List.cons.inj hqs
      exact ⟨_, _, .here, dir, .down dir names unlinked more⟩
    · obtain ⟨rfl, rfl⟩ := List.cons.inj hqs
      obtain ⟨links', d, hd, hdir, hlast⟩ := ih rfl
      exact ⟨links', d, .down dir names unlinked hd, hdir, hlast⟩
  | @stop links cur p target dir names link last =>
    rcases ps with _ | ⟨q, ps⟩
    · obtain ⟨rfl, rfl⟩ := List.cons.inj hqs
      exact ⟨links, _, .here, dir, .stop dir names link last⟩
    · simp at hqs
  | @follow links cur k p target rest dir names link onward target_ne more ih =>
    rcases ps with _ | ⟨p, ps⟩
    · obtain ⟨rfl, rfl⟩ := List.cons.inj hqs
      exact ⟨_, _, .here, dir, .follow dir names link onward target_ne more⟩
    · obtain ⟨rfl, rfl⟩ := List.cons.inj hqs
      obtain ⟨links', d, hd, hdir, hlast⟩ := ih (List.append_assoc (Path.mk target).pieces ps (x :: xs))
      exact ⟨links', d, .follow dir names link (Or.inr rfl) target_ne hd, hdir, hlast⟩

/-- Without a link to what is no directory, a way that has not come to the end of the link goes on. -/
theorem erase_link {ps : List String} {j c : Key} (h : Ways t through links cur ps j)
    (hlink : LinksTo t k c) (hc : t.lookup c ≠ some .dir) :
    j = k ∨ j = c ∨ Ways (t.erase k) through links cur ps j := by
  obtain ⟨d, x, target, links', rfl, hk, hleads⟩ := hlink
  have hne : ∀ cur, t.lookup cur = some .dir → d ++ [x] ≠ cur := by
    rintro _ hdir rfl
    simp [hk] at hdir
  have hdirs : ∀ cur, t.lookup cur = some .dir → (t.erase (d ++ [x])).lookup cur = some .dir :=
    fun cur hdir => (lookup_erase_ne t (hne cur hdir)).trans hdir
  induction h with
  | here => exact Or.inr (Or.inr .here)
  | stay dir current _ ih => exact ih.imp_right (Or.imp_right (.stay (hdirs _ dir) current))
  | up dir _ ih => exact ih.imp_right (Or.imp_right (.up (hdirs _ dir)))
  | @down _ cur _ p _ dir names unlinked _ ih =>
    have hp : d ++ [x] ≠ cur ++ [p] := fun hsame => unlinked target (hsame ▸ hk)
    exact ih.imp_right (Or.imp_right (.down (hdirs _ dir) names
      (by rwa [lookup_erase_ne t hp])))
  | @stop _ cur p _ dir names link last =>
    by_cases hp : d ++ [x] = cur ++ [p]
    · exact Or.inl hp.symm
    · exact Or.inr (Or.inr (.stop (hdirs _ dir) names ((lookup_erase_ne t hp).trans link) last))
  | @follow _ cur j p target' rest dir names link onward target_ne more ih =>
    by_cases hp : d ++ [x] = cur ++ [p]
    · obtain ⟨rfl, -⟩ := List.append_inj' hp rfl
      obtain rfl : target = target' := by
        rw [← hp, hk] at link
        exact Entry.link.inj (Option.some.inj link)
      cases rest with
      | nil =>
        obtain rfl := onward.resolve_left (by simp)
        rw [List.append_nil] at more
        exact Or.inr (Or.inl (more.eq_of_ways hleads))
      | cons y rest =>
        obtain ⟨_, e, he, hdir, -⟩ := more.exists_split
        exact absurd (he.eq_of_ways hleads ▸ hdir) hc
    · exact ih.imp_right (Or.imp_right
        (.follow (hdirs _ dir) names ((lookup_erase_ne t hp).trans link) onward target_ne))

theorem of_current {ps : List String} (h : Ways t through links cur ("." :: ps) k) :
    t.lookup cur = some .dir ∧ Ways t through links cur ps k := by
  generalize hx : "." = x at h
  cases h with
  | stay dir _ more => exact ⟨dir, more⟩
  | up => simp at hx
  | down _ names => exact absurd hx.symm names.not_current
  | stop _ names => exact absurd hx.symm names.not_current
  | follow _ names => exact absurd hx.symm names.not_current

theorem dir_of_current {ps : List String} (h : Ways t through links cur (ps ++ ["."]) k) :
    t.lookup k = some .dir := by
  obtain ⟨links', d, -, -, hlast⟩ := h.exists_split
  obtain ⟨hdir, hmore⟩ := hlast.of_current
  cases hmore
  exact hdir

end Ways

section locate

variable {cwd : Key} {p : Path} {spot : Spot} {content : Bytes}

/-- A text that can name something at all. -/
structure Speaks (p : Path) : Prop where
  nonempty : p.text ≠ ""
  no_nul : '\x00' ∉ p.text.toList

/-- Where the first step of a path is taken. -/
def origin (cwd : Key) (p : Path) : Key := if p.isAbsolute then [] else cwd

theorem speaks_of_locate (h : t.locate cwd through p = .ok spot) : Speaks p := by
  unfold locate at h
  refine ⟨fun hempty => ?_, fun hnul => ?_⟩
  · rw [if_neg (by simp [hempty]), if_pos hempty] at h
    obtain ⟨_, hthrow, -⟩ := bind_eq_ok.mp h
    cases hthrow
  · rw [if_pos (by simpa using hnul)] at h
    obtain ⟨_, hthrow, -⟩ := bind_eq_ok.mp h
    cases hthrow

theorem locate_of_speaks (hp : Speaks p) : t.locate cwd through p =
    (t.descend (through || p.slashed) linkLimit (origin cwd p) p.steps).bind fun key =>
      .ok ⟨key, p.endsInName, p.slashed⟩ := by
  unfold locate
  rw [if_neg (by simpa using hp.no_nul), if_neg hp.nonempty]
  rfl

theorem locate_eq_ok : t.locate cwd through p = .ok spot ↔ Speaks p ∧
    Ways t (through || p.slashed) linkLimit (origin cwd p) p.steps spot.key ∧
      spot.plain = p.endsInName ∧ spot.slash = p.slashed := by
  constructor
  · intro h
    have hp := speaks_of_locate h
    rw [locate_of_speaks hp] at h
    obtain ⟨key, hkey, h⟩ := bind_eq_ok.mp h
    obtain rfl := Except.ok.inj h
    exact ⟨hp, ways_of_descend hkey, rfl, rfl⟩
  · rintro ⟨hp, hways, hplain, hslash⟩
    rw [locate_of_speaks hp, descend_of_ways hways, ← hplain, ← hslash]
    rfl

theorem entryAt_eq_ok {e : Entry} : t.entryAt cwd through p = .ok (k, e) ↔
    ∃ spot, t.locate cwd through p = .ok spot ∧ spot.key = k ∧ t.lookup k = some e ∧
      (e = .dir ∨ spot.slash = false) := by
  unfold entryAt
  rw [bind_eq_ok]
  refine exists_congr fun spot => and_congr_right fun _ => ?_
  split
  case h_1 hnone =>
    refine iff_of_false (fun h => by cases h) ?_
    rintro ⟨rfl, hsome, -⟩
    simp [hnone] at hsome
  case h_2 hdir =>
    constructor
    · intro h
      obtain ⟨rfl, rfl⟩ := Prod.mk.inj (Except.ok.inj h)
      exact ⟨rfl, hdir, Or.inl rfl⟩
    · rintro ⟨rfl, hsome, -⟩
      rw [hdir] at hsome
      rw [← Option.some.inj hsome]
      rfl
  case h_3 x hnotdir hx =>
    cases hslash : spot.slash
    · constructor
      · intro h
        obtain ⟨rfl, rfl⟩ := Prod.mk.inj (Except.ok.inj h)
        exact ⟨rfl, hx, Or.inr rfl⟩
      · rintro ⟨rfl, hsome, -⟩
        rw [hx] at hsome
        rw [← Option.some.inj hsome]
        rfl
    · refine iff_of_false (fun h => by cases h) ?_
      rintro ⟨rfl, hsome, rfl | hno⟩
      · exact hnotdir (by rw [hx] at hsome; exact Option.some.inj hsome)
      · cases hno

theorem isThere_of_entryAt {e : Entry} (h : t.entryAt cwd true p = .ok (k, e)) : t.isThere cwd p = true := by
  rw [isThere, stat?, h]
  rfl

theorem read_eq_ok : t.read cwd p = .ok content ↔ ∃ spot, t.locate cwd true p = .ok spot ∧
    t.lookup spot.key = some (.file content) ∧ spot.slash = false := by
  have hentry : t.read cwd p = .ok content ↔ ∃ k, t.entryAt cwd true p = .ok (k, .file content) := by
    unfold read
    rw [bind_eq_ok]
    constructor
    · rintro ⟨⟨k, e⟩, hk, h⟩
      cases e with
      | file old =>
        obtain rfl := Except.ok.inj h
        exact ⟨k, hk⟩
      | dir => cases h
      | link target => cases h
    · rintro ⟨k, hk⟩
      exact ⟨_, hk, rfl⟩
  rw [hentry]
  constructor
  · rintro ⟨k, hk⟩
    obtain ⟨spot, hspot, rfl, hfile, hslash⟩ := entryAt_eq_ok.mp hk
    exact ⟨spot, hspot, hfile, hslash.resolve_left (by simp)⟩
  · rintro ⟨spot, hspot, hfile, hslash⟩
    exact ⟨spot.key, entryAt_eq_ok.mpr ⟨spot, hspot, rfl, hfile, Or.inr hslash⟩⟩

/-- A path leads to the same entry as long as the directories and links on its way are there. -/
theorem locate_of_leads {through' : Bool} (h : t.locate cwd through p = .ok spot) (hleads : Leads t t')
    (hend : ∀ target, t'.lookup spot.key = some (.link target) → t.lookup spot.key = some (.link target))
    (hthrough : through' = through ∨ (through' = true ∧ ∀ target, t'.lookup spot.key ≠ some (.link target))) :
    t'.locate cwd through' p = .ok spot := by
  obtain ⟨hp, hways, hplain, hslash⟩ := locate_eq_ok.mp h
  refine locate_eq_ok.mpr ⟨hp, hways.mono hleads hend ?_, hplain, hslash⟩
  rcases hthrough with rfl | ⟨rfl, hno⟩
  · exact Or.inl rfl
  · exact Or.inr ⟨rfl, hno⟩

theorem exists_locate_unfollowed (h : t.locate cwd true p = .ok spot) : ∃ unfollowed,
    t.locate cwd false p = .ok unfollowed ∧
      (unfollowed = spot ∨ LinksTo t unfollowed.key spot.key) := by
  obtain ⟨hp, hways, hplain, hslash⟩ := locate_eq_ok.mp h
  cases hslashed : p.slashed
  · obtain ⟨k, hk, hend⟩ := hways.exists_unfollowed
    refine ⟨⟨k, spot.plain, spot.slash⟩, locate_eq_ok.mpr ⟨hp, ?_, hplain, hslash⟩, ?_⟩
    · rwa [hslashed]
    · rcases hend with rfl | hlink
      · exact Or.inl rfl
      · exact Or.inr hlink
  · refine ⟨spot, locate_eq_ok.mpr ⟨hp, ?_, hplain, hslash⟩, Or.inl rfl⟩
    rwa [hslashed]

theorem locate_erase_link {c : Key} (h : t.locate cwd through p = .ok spot) (hlink : LinksTo t k c)
    (hc : t.lookup c ≠ some .dir) (hk : spot.key ≠ k) (hne : spot.key ≠ c) :
    (t.erase k).locate cwd through p = .ok spot := by
  obtain ⟨hp, hways, hplain, hslash⟩ := locate_eq_ok.mp h
  have hmore := ((hways.erase_link hlink hc).resolve_left hk).resolve_left hne
  exact locate_eq_ok.mpr ⟨hp, hmore, hplain, hslash⟩

/-- What a path reads as is the same once its directories, links and its file are there. -/
theorem read_of_leads (h : t.read cwd p = .ok content) (hleads : Leads t t')
    (hfile : ∀ k, t.lookup k = some (.file content) → t'.lookup k = some (.file content)) :
    t'.read cwd p = .ok content := by
  obtain ⟨spot, hspot, hold, hslash⟩ := read_eq_ok.mp h
  have hnew := hfile spot.key hold
  exact read_eq_ok.mpr ⟨spot, locate_of_leads hspot hleads (by simp [hnew]) (Or.inl rfl), hnew, hslash⟩

end locate

section aside

variable {s made : FileTree} {cwd c : Key} {p : Path}

/-- Two file systems differ at most in a place where neither has a directory or a link. -/
structure Aside (s made : FileTree) (c : Key) : Prop where
  lookup_eq : ∀ k, k ≠ c → s.lookup k = made.lookup k
  file : ∀ e, s.lookup c = some e ∨ made.lookup c = some e → ∃ b, e = .file b

theorem Aside.symm (h : Aside s made c) : Aside made s c :=
  ⟨fun k hk => (h.lookup_eq k hk).symm, fun e he => h.file e he.symm⟩

theorem Aside.lookup_of_lookup (h : Aside s made c) {k : Key} {e : Entry} (hk : s.lookup k = some e)
    (he : ∀ b, e ≠ .file b) : made.lookup k = some e := by
  by_cases hkc : k = c
  · subst hkc
    obtain ⟨b, rfl⟩ := h.file e (Or.inl hk)
    exact absurd rfl (he b)
  · rw [← h.lookup_eq k hkc, hk]

theorem Aside.locate (h : Aside s made c) {through : Bool} {spot : Spot} {q : Path}
    (hspot : s.locate cwd through q = .ok spot) : made.locate cwd through q = .ok spot :=
  locate_of_leads hspot (fun _ _ hk he => h.lookup_of_lookup hk he)
    (fun _ hlink => h.symm.lookup_of_lookup hlink (by simp)) (Or.inl rfl)

theorem Aside.read (h : Aside s made c) {b : Bytes}
    (hc : ∀ spot, made.locate cwd true p = .ok spot → spot.key ≠ c)
    (hread : s.read cwd p = .ok b) : made.read cwd p = .ok b := by
  obtain ⟨spot, hspot, hfile, hslash⟩ := read_eq_ok.mp hread
  have hmade := h.locate hspot
  exact read_eq_ok.mpr ⟨spot, hmade, by rw [← h.lookup_eq _ (hc spot hmade), hfile], hslash⟩

theorem Aside.read_iff (h : Aside s made c) (hc : ∀ spot, made.locate cwd true p = .ok spot → spot.key ≠ c)
    (b : Bytes) : s.read cwd p = .ok b ↔ made.read cwd p = .ok b :=
  ⟨h.read hc, h.symm.read fun spot hspot => hc spot (h.locate hspot)⟩

end aside

end SlotBuild.FileTree
