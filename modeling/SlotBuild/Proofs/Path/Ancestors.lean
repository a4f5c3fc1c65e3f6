import Mathlib.Data.List.TakeWhile
import SlotBuild.Proofs.Path

/-! The parent of a path and the parents of that: each is written with the first steps of the path. -/

namespace SlotBuild.Path

variable {p q up : Path}

/-- Every step of `q` is a step of `p`, from the same start on. -/
structure Begins (q p : Path) : Prop where
  absolute : q.isAbsolute = p.isAbsolute
  steps : q.steps <+: p.steps

theorem Begins.refl (p : Path) : Begins p p := ⟨rfl, List.prefix_rfl⟩

theorem Begins.trans {r : Path} (h : Begins q p) (h' : Begins p r) : Begins q r :=
  ⟨h.absolute.trans h'.absolute, h.steps.trans h'.steps⟩

theorem begins_join {name : String} (hname : '/' ∉ name.toList) : Begins p (p.join ⟨name⟩) :=
  ⟨(isAbsolute_join hname).symm, by rw [steps_join_mk p hname]; exact List.prefix_append _ _⟩

theorem steps_append_slash (a b : String) :
    (Path.mk (a ++ "/" ++ b)).steps = (Path.mk a).steps ++ (Path.mk b).steps := by
  rw [steps, pieces_append_slash, List.filter_append]
  rfl

theorem steps_slash (a : String) : (Path.mk (a ++ "/")).steps = (Path.mk a).steps := by
  have hslash := steps_append_slash a ""
  rw [String.append_empty] at hslash
  rw [hslash, show (Path.mk "").steps = [] by decide, List.append_nil]

/-- A relative path is taken from the end of another. -/
theorem join_relative (p : Path) (hq : q.isAbsolute = false) :
    (p.join q).steps = p.steps ++ q.steps ∧ (p.join q).isAbsolute = p.isAbsolute := by
  have hnone : (Path.mk "").steps = [] := by decide
  rw [join, if_neg (by simp [hq])]
  by_cases hempty : p.text = ""
  · obtain rfl : p = ⟨""⟩ := congrArg Path.mk hempty
    rw [if_pos (Or.inl rfl), hnone, String.empty_append]
    exact ⟨rfl, hq⟩
  · have hchars : p.text.toList ≠ [] := by simpa using hempty
    obtain ⟨c, cs, hcs⟩ := List.exists_cons_of_ne_nil hchars
    by_cases hslash : p.text.toList.getLast? = some '/'
    · obtain ⟨front, hfront⟩ := List.getLast?_eq_some_iff.mp hslash
      have htext : p.text = String.ofList front ++ "/" := by
        rw [← String.toList_inj, hfront]
        simp
      rw [if_pos (Or.inr hslash)]
      refine ⟨?_, by simp [isAbsolute, hcs]⟩
      rw [show p.steps = (Path.mk p.text).steps from rfl, htext, steps_append_slash, steps_slash]
    · rw [if_neg (not_or.mpr ⟨hempty, hslash⟩)]
      exact ⟨steps_append_slash p.text q.text, by simp [isAbsolute, hcs]⟩

/-- What is before a separator, with the separator. -/
theorem begins_of_slash {a b : String} (h : p.text = a ++ "/" ++ b) : Begins ⟨a ++ "/"⟩ p := by
  obtain rfl : p = ⟨a ++ "/" ++ b⟩ := congrArg Path.mk h
  refine ⟨?_, ?_⟩
  · cases hchars : a.toList <;> simp [isAbsolute, hchars]
  · rw [steps_slash, steps_append_slash]
    exact List.prefix_append _ _

theorem begins_slash {a : String} (ha : a ≠ "") : Begins ⟨a⟩ ⟨a ++ "/"⟩ := by
  have hchars : a.toList ≠ [] := by simpa using ha
  obtain ⟨c, cs, hcs⟩ := List.exists_cons_of_ne_nil hchars
  refine ⟨by simp [isAbsolute, hcs], ?_⟩
  have hsteps : (Path.mk (a ++ "/")).steps = (Path.mk a).steps := steps_slash a
  exact hsteps.symm ▸ List.prefix_rfl

theorem dropTrail_cases (r : List Char) : (dropTrail r = ['/'] ∧ r.getLast? = some '/') ∨
    ((dropTrail r).head? ≠ some '/' ∧ (dropTrail r = [] → r = []) ∧
      (dropTrail r = r ∨ ∃ front, r = front ++ '/' :: dropTrail r)) := by
  fun_induction dropTrail r with
  | case1 => exact Or.inl ⟨rfl, rfl⟩
  | case2 r hr ih =>
    have hne : r ≠ [] := fun h => hr h
    rcases ih with ⟨hroot, hlast⟩ | ⟨hhead, hnil, hsame | ⟨front, hfront⟩⟩
    · exact Or.inl ⟨hroot, by rw [List.getLast?_cons_of_ne_nil hne, hlast]⟩
    · exact Or.inr ⟨hhead, fun h => absurd (hnil h) hne, Or.inr ⟨[], by rw [hsame]; rfl⟩⟩
    · exact Or.inr ⟨hhead, fun h => absurd (hnil h) hne, Or.inr ⟨'/' :: front, congrArg _ hfront⟩⟩
  | case3 => exact Or.inl ⟨rfl, rfl⟩
  | case4 r hr ih =>
    have hne : r ≠ [] := fun h => hr h
    rcases ih with ⟨hroot, hlast⟩ | ⟨hhead, hnil, hsame | ⟨front, hfront⟩⟩
    · refine Or.inl ⟨hroot, ?_⟩
      rw [List.getLast?_cons_cons, List.getLast?_cons_of_ne_nil hne, hlast]
    · exact Or.inr ⟨hhead, fun h => absurd (hnil h) hne, Or.inr ⟨['.'], by rw [hsame]; rfl⟩⟩
    · exact Or.inr ⟨hhead, fun h => absurd (hnil h) hne,
        Or.inr ⟨'.' :: '/' :: front, congrArg _ (congrArg _ hfront)⟩⟩
  | case5 r hslash hslashes hdot hdots =>
    refine Or.inr ⟨fun hhead => ?_, id, Or.inl rfl⟩
    obtain ⟨rest, rfl⟩ := List.head?_eq_some_iff.mp hhead
    exact hslashes rest rfl

theorem trimmed_cases (p : Path) : (p.trimmed.text = "/" ∧ p.isAbsolute = true) ∨
    (p.trimmed.slashed = false ∧ (p.trimmed.text = "" → p.text = "") ∧
      (p.trimmed.text = p.text ∨ ∃ b, p.text = p.trimmed.text ++ "/" ++ b)) := by
  have htext : p.trimmed.text.toList = (dropTrail p.text.toList.reverse).reverse := by simp [trimmed]
  rcases dropTrail_cases p.text.toList.reverse with ⟨hroot, hlast⟩ | ⟨hhead, hnil, hkept⟩
  · refine Or.inl ⟨?_, ?_⟩
    · rw [← String.toList_inj, htext, hroot]
      rfl
    · simpa [isAbsolute] using hlast
  · refine Or.inr ⟨?_, fun hempty => ?_, ?_⟩
    · rw [slashed, htext, List.getLast?_reverse]
      simpa using hhead
    · have hempty : dropTrail p.text.toList.reverse = [] := by
        rw [hempty] at htext
        simpa using htext.symm
      simpa using hnil hempty
    · rcases hkept with hsame | ⟨front, hfront⟩
      · left
        rw [← String.toList_inj, htext, hsame, List.reverse_reverse]
      · right
        refine ⟨String.ofList front.reverse, ?_⟩
        have hwhole := congrArg List.reverse hfront
        rw [List.reverse_reverse, List.reverse_append, List.reverse_cons, List.append_assoc] at hwhole
        rw [← String.toList_inj, hwhole]
        simp [htext]

theorem steps_root : (Path.mk "/").steps = [] := by decide

theorem begins_trimmed (p : Path) : Begins p.trimmed p := by
  rcases p.trimmed_cases with ⟨hroot, habsolute⟩ | ⟨-, hempty, hsame | ⟨b, hb⟩⟩
  · obtain htrimmed : p.trimmed = ⟨"/"⟩ := congrArg Path.mk hroot
    rw [htrimmed]
    exact ⟨habsolute.symm ▸ by decide, by rw [steps_root]; exact List.nil_prefix⟩
  · obtain htrimmed : p.trimmed = p := congrArg Path.mk hsame
    rw [htrimmed]
    exact .refl p
  · by_cases hne : p.trimmed.text = ""
    · rw [hempty hne] at hb
      simp at hb
    · exact (begins_slash hne).trans (begins_of_slash hb)

/-- A path with nothing behind its last step, apart from the root. -/
def Trim (p : Path) : Prop := p.slashed = false ∨ p.text = "/"

theorem trim_trimmed (p : Path) : p.trimmed.Trim := by
  rcases p.trimmed_cases with ⟨hroot, -⟩ | ⟨hslashed, -⟩
  · exact Or.inr hroot
  · exact Or.inl hslashed

theorem Trim.slashed (h : p.Trim) (hne : p.steps ≠ []) : p.slashed = false := by
  rcases h with hslashed | hroot
  · exact hslashed
  · obtain rfl : p = ⟨"/"⟩ := congrArg Path.mk hroot
    exact absurd steps_root hne

theorem split_of_dropWhile (cs : List Char) {rest : List Char} (h : cs.dropWhile (· ≠ '/') = rest) :
    (rest = [] ∧ '/' ∉ cs) ∨ ∃ front name, rest = '/' :: front ∧ cs = name ++ '/' :: front ∧ '/' ∉ name := by
  have hsplit := List.takeWhile_append_dropWhile (p := (· ≠ '/')) (l := cs)
  have hhead := List.head?_dropWhile_not (· ≠ '/') cs
  have hname : '/' ∉ cs.takeWhile (· ≠ '/') := fun hmem => by simpa using List.mem_takeWhile_imp hmem
  rw [h] at hsplit hhead
  cases rest with
  | nil => exact Or.inl ⟨rfl, by rwa [← hsplit, List.append_nil]⟩
  | cons c front =>
    obtain rfl : c = '/' := by simpa using hhead
    exact Or.inr ⟨front, _, rfl, hsplit.symm, hname⟩

/-- The parent is written with the first steps of the path, and not with all of them. -/
theorem parent?_spec (h : p.parent? = some up) :
    up.Trim ∧ (up.text = "" ∨ Begins up p) ∧ up.steps.length < p.steps.length := by
  simp only [parent?] at h
  split_ifs at h with hproper
  obtain ⟨hne, hroot⟩ := not_or.mp hproper
  have hslashed := (trim_trimmed p).resolve_right hroot
  have hle := (begins_trimmed p).steps.length_le
  have hup := Option.some.inj h
  refine ⟨hup ▸ trim_trimmed _, ?_⟩
  rcases split_of_dropWhile p.trimmed.text.toList.reverse rfl with
    ⟨hnone, hslash⟩ | ⟨front, name, hdrop, hwhole, hname⟩
  · have hsteps : p.trimmed.steps ≠ [] := fun hnil => by
      have habsolute := steps_eq_nil hne hnil
      exact hslash (by simpa using List.mem_of_mem_head? (by simpa [isAbsolute] using habsolute))
    rw [hnone] at hup
    subst hup
    exact ⟨Or.inl rfl, Nat.lt_of_lt_of_le (List.length_pos_iff.mpr hsteps) hle⟩
  · have htext : p.trimmed.text = String.ofList front.reverse ++ "/" ++ String.ofList name.reverse := by
      rw [← String.toList_inj, ← List.reverse_inj, hwhole]
      simp
    have hfront : String.ofList ('/' :: front).reverse = String.ofList front.reverse ++ "/" := by
      rw [← String.toList_inj]
      simp
    rw [hdrop, hfront] at hup
    subst hup
    refine ⟨Or.inr (((begins_trimmed _).trans (begins_of_slash htext)).trans (begins_trimmed p)), ?_⟩
    have hname' : '/' ∉ (String.ofList name.reverse).toList := by simpa using hname
    have hnonempty : String.ofList name.reverse ≠ "" := by
      intro hempty
      simp [slashed, htext, hempty] at hslashed
    have hsteps : p.trimmed.steps =
        (Path.mk (String.ofList front.reverse)).steps ++ [String.ofList name.reverse] := by
      rw [show p.trimmed = ⟨p.trimmed.text⟩ from rfl, htext, steps_append_slash, steps_mk hname']
      simp [hnonempty]
    have hshort := (begins_trimmed ⟨String.ofList front.reverse ++ "/"⟩).steps.length_le
    rw [steps_slash] at hshort
    rw [hsteps, List.length_append, List.length_singleton] at hle
    omega

/-- What is among the ancestors of a path, apart from the path itself. -/
structure Above (q p : Path) : Prop where
  trim : q.Trim
  begins : q.text = "" ∨ Begins q p
  shorter : q.steps.length < p.steps.length

theorem ancestorsFrom_spec {n : Nat} (h : q ∈ ancestorsFrom n p) : q = p ∨ Above q p := by
  induction n generalizing p with
  | zero => simp [ancestorsFrom] at h
  | succ n ih =>
    rw [ancestorsFrom] at h
    rcases List.mem_cons.mp h with rfl | h
    · exact Or.inl rfl
    · cases hup : p.parent? with
      | none => simp [hup] at h
      | some up =>
        obtain ⟨htrim, hbegins, hshorter⟩ := parent?_spec hup
        right
        rcases ih (by simpa [hup] using h) with rfl | ⟨hq, hmore, hless⟩
        · exact ⟨htrim, hbegins, hshorter⟩
        · refine ⟨hq, ?_, Nat.lt_trans hless hshorter⟩
          rcases hbegins with hempty | hbegins
          · obtain rfl : up = ⟨""⟩ := congrArg Path.mk hempty
            exact absurd hless (by simp [show (Path.mk "").steps = [] by decide])
          · exact hmore.imp_right fun hmore => hmore.trans hbegins

theorem mem_ancestors (h : q ∈ p.ancestors) : q = p ∨ Above q p := ancestorsFrom_spec h

theorem trim_of_mem_ancestors (hp : p.Trim) (h : q ∈ p.ancestors) : q.Trim := by
  rcases mem_ancestors h with rfl | habove
  · exact hp
  · exact habove.trim

/-- Above a name in a directory are the directory and what is above that. -/
theorem Above.of_join {name : String} (h : Above q (p.join ⟨name⟩)) (hname : '/' ∉ name.toList)
    (hne : name ≠ "") :
    q.text = "" ∨ Begins q p := by
  refine h.begins.imp_right fun hbegins => ⟨hbegins.absolute.trans (isAbsolute_join hname), ?_⟩
  have hsteps := hbegins.steps
  rw [steps_join p hname hne] at hsteps
  rcases List.prefix_concat_iff.mp hsteps with hwhole | hfront
  · have hshorter := h.shorter
    rw [hwhole, steps_join p hname hne] at hshorter
    exact absurd hshorter (Nat.lt_irrefl _)
  · exact hfront

/-- A path that ends in a name has it for its file name. -/
theorem fileName?_of_steps {front : List String} {s : String} (h : p.steps = front ++ [s]) (hempty : s ≠ "")
    (hdot : s ≠ ".") (hup : s ≠ "..") : p.fileName? = some s := by
  obtain ⟨head, hhead⟩ := p.components_eq
  have hlast : p.components.getLast? = some (.name s) := by
    rw [hhead, filterMap_steps, h, List.filterMap_append]
    simp [componentOf?, hempty, hdot, hup]
  rw [fileName?, hlast]

theorem exists_fileName? (h : p.endsInName = true) :
    ∃ front s, p.steps = front ++ [s] ∧ p.fileName? = some s ∧
    s ≠ "" ∧ s ≠ "." ∧ s ≠ ".." := by
  rcases List.eq_nil_or_concat' p.steps with hnil | ⟨front, s, hsteps⟩
  · simp [endsInName, hnil] at h
  · obtain ⟨hdot, hup⟩ : s ≠ "." ∧ s ≠ ".." := by simpa [endsInName, hsteps] using h
    have hempty : s ≠ "" := by
      rintro rfl
      have hmem : "" ∈ p.steps := by simp [hsteps]
      simp [steps] at hmem
    exact ⟨front, s, hsteps, fileName?_of_steps hsteps hempty hdot hup, hempty, hdot, hup⟩

end SlotBuild.Path
