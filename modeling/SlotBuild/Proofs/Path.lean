import Mathlib.Data.List.Basic
import SlotBuild.Path

/-! The names in a path, and how a path is put together from a directory and a name. -/

namespace SlotBuild

theorem splitAtChar_append_cons (sep : Char) (a b : List Char) :
    splitAtChar sep (a ++ sep :: b) = splitAtChar sep a ++ splitAtChar sep b := by
  induction a with
  | nil => simp [splitAtChar]
  | cons c a ih =>
    obtain ⟨q, qs, hq⟩ := List.exists_cons_of_ne_nil (splitAtChar_ne_nil sep a)
    by_cases hc : c = sep
    · simp [splitAtChar, hc, ih]
    · simp [splitAtChar, hc, ih, hq]

theorem splitAtChar_of_notMem {sep : Char} {a : List Char} (h : sep ∉ a) : splitAtChar sep a = [a] := by
  induction a with
  | nil => rfl
  | cons c a ih =>
    obtain ⟨hc, ha⟩ := not_or.mp (List.mem_cons.not.mp h)
    simp [splitAtChar, Ne.symm hc, ih ha]

theorem notMem_of_mem_splitAtChar {sep : Char} {s a : List Char} (h : a ∈ splitAtChar sep s) : sep ∉ a := by
  induction s generalizing a with
  | nil =>
    obtain rfl : a = [] := by simpa [splitAtChar] using h
    exact List.not_mem_nil
  | cons c s ih =>
    obtain ⟨q, qs, hq⟩ := List.exists_cons_of_ne_nil (splitAtChar_ne_nil sep s)
    rw [hq] at ih
    by_cases hc : c = sep
    · rcases (by simpa [splitAtChar, hc, hq] using h : a = [] ∨ a = q ∨ a ∈ qs) with rfl | ha
      · exact List.not_mem_nil
      · exact ih (List.mem_cons.mpr ha)
    · rcases (by simpa [splitAtChar, hc, hq] using h : a = c :: q ∨ a ∈ qs) with rfl | ha
      · exact List.mem_cons.not.mpr (not_or.mpr ⟨Ne.symm hc, ih List.mem_cons_self⟩)
      · exact ih (List.mem_cons_of_mem _ ha)

theorem mem_iff_mem_splitAtChar {sep c : Char} (hc : c ≠ sep) (s : List Char) :
    c ∈ s ↔ ∃ a ∈ splitAtChar sep s, c ∈ a := by
  induction s with
  | nil => simp [splitAtChar]
  | cons x s ih =>
    obtain ⟨q, qs, hq⟩ := List.exists_cons_of_ne_nil (splitAtChar_ne_nil sep s)
    by_cases hx : x = sep
    · simp [splitAtChar, hx, hc, ih]
    · rw [List.mem_cons, ih, hq, splitAtChar, if_neg hx, hq]
      simp [or_assoc]

namespace Path

variable {p dir : Path} {name : String}

/-- The pieces of a path that are looked up. -/
def steps (p : Path) : List String := p.pieces.filter (· ≠ "")

def slashed (p : Path) : Bool := p.text.toList.getLast? == some '/'

def endsInName (p : Path) : Bool :=
  p.steps ≠ [] && p.steps.getLast? ≠ some "." && p.steps.getLast? ≠ some ".."

theorem pieces_append_slash (a b : String) :
    (Path.mk (a ++ "/" ++ b)).pieces = (Path.mk a).pieces ++ (Path.mk b).pieces := by
  simp [pieces, piecesOf, splitAtChar_append_cons]

theorem pieces_of_notMem (h : '/' ∉ name.toList) : (Path.mk name).pieces = [name] := by
  simp [pieces, piecesOf, splitAtChar_of_notMem h]

theorem isAbsolute_mk (h : '/' ∉ name.toList) : (Path.mk name).isAbsolute = false := by
  rw [isAbsolute, beq_eq_false_iff_ne]
  exact fun hhead => h (List.mem_of_mem_head? hhead)

theorem slashed_mk (h : '/' ∉ name.toList) : (Path.mk name).slashed = false := by
  rw [slashed, beq_eq_false_iff_ne]
  exact fun hlast => h (List.mem_of_getLast? hlast)

/-- The pieces of a path show whether it starts at the root. -/
theorem pieces_cases (h : p.text ≠ "") : (p.isAbsolute = true ∧ ∃ s r, p.pieces = "" :: s :: r) ∨
    (p.isAbsolute = false ∧ ∃ s r, s ≠ "" ∧ p.pieces = s :: r) := by
  have hchars : p.text.toList ≠ [] := by simpa using h
  obtain ⟨c, cs, hcs⟩ := List.exists_cons_of_ne_nil hchars
  obtain ⟨q, qs, hq⟩ := List.exists_cons_of_ne_nil (splitAtChar_ne_nil '/' cs)
  by_cases hc : c = '/'
  · exact Or.inl ⟨by simp [isAbsolute, hcs, hc], by simp [pieces, piecesOf, hcs, splitAtChar, hc, hq]⟩
  · exact Or.inr ⟨by simp [isAbsolute, hcs, hc], by simp [pieces, piecesOf, hcs, splitAtChar, hc, hq]⟩

theorem steps_eq_nil (h : p.text ≠ "") (hsteps : p.steps = []) : p.isAbsolute = true := by
  rcases pieces_cases h with ⟨habsolute, -⟩ | ⟨-, s, r, hs, hpieces⟩
  · exact habsolute
  · simp [steps, hpieces, hs] at hsteps

/-- What `join` puts between a directory and a name. -/
theorem join_text (dir : Path) (hname : '/' ∉ name.toList) : (dir.text = "" ∧ dir.join ⟨name⟩ = ⟨name⟩) ∨
    ∃ front, (dir.text = front ∨ dir.text = front ++ "/") ∧ dir.text ≠ "" ∧
      dir.join ⟨name⟩ = ⟨front ++ "/" ++ name⟩ := by
  have hrelative := isAbsolute_mk hname
  by_cases hempty : dir.text = ""
  · exact Or.inl ⟨hempty, by simp [join, hrelative, hempty]⟩
  · right
    by_cases hslash : dir.text.toList.getLast? = some '/'
    · obtain ⟨front, hfront⟩ := List.getLast?_eq_some_iff.mp hslash
      have htext : dir.text = String.ofList front ++ "/" := by
        rw [← String.toList_inj, hfront]
        simp
      exact ⟨String.ofList front, Or.inr htext, hempty, by simp [join, hrelative, htext]⟩
    · exact ⟨dir.text, Or.inl rfl, hempty, by simp [join, hrelative, hslash, hempty]⟩

theorem steps_join_mk (dir : Path) (hname : '/' ∉ name.toList) :
    (dir.join ⟨name⟩).steps = dir.steps ++ (Path.mk name).steps := by
  rcases join_text dir hname with ⟨hempty, hjoin⟩ | ⟨front, hdir, -, hjoin⟩
  · have hdir : dir.steps = [] := by simp [steps, pieces, hempty, piecesOf, splitAtChar]
    rw [hjoin, hdir, List.nil_append]
  · have hsteps : dir.steps = (Path.mk front).steps := by
      rcases hdir with hdir | hdir
      · rw [steps, pieces, hdir]
        rfl
      · rw [steps, steps, pieces, hdir]
        have hpieces := pieces_append_slash front ""
        rw [String.append_empty] at hpieces
        rw [← pieces, hpieces, List.filter_append]
        simp [pieces, piecesOf, splitAtChar]
    rw [hjoin, steps, pieces_append_slash, List.filter_append, hsteps]
    rfl

theorem steps_mk (hname : '/' ∉ name.toList) : (Path.mk name).steps = [name].filter (· ≠ "") := by
  rw [steps, pieces_of_notMem hname]

theorem steps_join (dir : Path) (hname : '/' ∉ name.toList) (hne : name ≠ "") :
    (dir.join ⟨name⟩).steps = dir.steps ++ [name] := by
  rw [steps_join_mk dir hname, steps_mk hname]
  simp [hne]

theorem slash_mem_join (hdir : dir.text ≠ "") (hname : '/' ∉ name.toList) :
    '/' ∈ (dir.join ⟨name⟩).text.toList := by
  rcases join_text dir hname with ⟨hempty, -⟩ | ⟨front, -, -, hjoin⟩
  · exact absurd hempty hdir
  · simp [hjoin]

theorem isAbsolute_join (hname : '/' ∉ name.toList) : (dir.join ⟨name⟩).isAbsolute = dir.isAbsolute := by
  rcases join_text dir hname with ⟨hempty, hjoin⟩ | ⟨front, hdir, hne, hjoin⟩
  · rw [hjoin, isAbsolute_mk hname, isAbsolute, hempty]
    decide
  · rw [hjoin, isAbsolute, isAbsolute]
    rcases hdir with hdir | hdir
    · have hchars : front.toList ≠ [] := by simpa [hdir] using hne
      obtain ⟨c, cs, hcs⟩ := List.exists_cons_of_ne_nil hchars
      simp [hdir, hcs]
    · cases hfront : front.toList <;> simp [hdir, hfront]

theorem slashed_join (hname : '/' ∉ name.toList) (hne : name ≠ "") : (dir.join ⟨name⟩).slashed = false := by
  have hchars : name.toList ≠ [] := by simpa using hne
  have hlast : name.toList.getLast? ≠ some '/' := fun hlast => hname (List.mem_of_getLast? hlast)
  rw [slashed, beq_eq_false_iff_ne]
  rcases join_text dir hname with ⟨-, hjoin⟩ | ⟨front, -, -, hjoin⟩
  · rwa [hjoin]
  · rw [hjoin]
    simpa [List.getLast?_append, List.getLast?_cons, List.getLast?_eq_some_getLast hchars] using hlast

theorem components_eq (p : Path) : ∃ head, p.components = head ++ p.pieces.filterMap componentOf? := by
  unfold components
  split
  · exact ⟨[.root], rfl⟩
  · split
    case h_1 r hr => exact ⟨[.current], by simp [hr, componentOf?]⟩
    case h_2 => exact ⟨[], rfl⟩

theorem filterMap_steps (p : Path) : p.pieces.filterMap componentOf? = p.steps.filterMap componentOf? := by
  rw [steps, List.filterMap_filter]
  congr 1
  funext s
  by_cases hs : s = "" <;> simp [hs, componentOf?]

theorem slash_notMem_of_mem_pieces {s : String} (h : s ∈ p.pieces) : '/' ∉ s.toList := by
  obtain ⟨cs, hcs, rfl⟩ := List.mem_map.mp h
  simpa using notMem_of_mem_splitAtChar hcs

theorem slash_notMem_of_fileName? (h : p.fileName? = some name) : '/' ∉ name.toList := by
  have hmem : Component.name name ∈ p.components := by
    unfold fileName? at h
    split at h
    case h_1 s hs =>
      rw [← Option.some.inj h]
      exact List.mem_of_getLast? hs
    case h_2 => simp at h
  have hfound : ∃ s ∈ p.pieces, componentOf? s = some (.name name) := by
    unfold components at hmem
    split at hmem
    · simpa using hmem
    · split at hmem
      case h_1 hr => simpa [hr, componentOf?] using hmem
      case h_2 => simpa using hmem
  obtain ⟨s, hs, hcomponent⟩ := hfound
  obtain rfl : s = name := by
    unfold componentOf? at hcomponent
    split at hcomponent
    · simp at hcomponent
    · split at hcomponent
      · simp at hcomponent
      · simpa using hcomponent
  exact slash_notMem_of_mem_pieces hs

theorem fileName?_eq_none {front : List String} (h : p.steps = front ++ [".."]) : p.fileName? = none := by
  obtain ⟨head, hhead⟩ := p.components_eq
  have hlast : p.components.getLast? = some .parent := by
    rw [hhead, filterMap_steps, h, List.filterMap_append]
    simp [componentOf?]
  rw [fileName?, hlast]

theorem head?_steps (h : p.text ≠ "") (hrelative : p.isAbsolute = false) :
    p.steps.head? = p.pieces.head? := by
  rcases pieces_cases h with ⟨habsolute, -⟩ | ⟨-, s, r, hs, hpieces⟩
  · simp [hrelative] at habsolute
  · simp [steps, hpieces, hs]

/-- A path is made of its steps and of separators. -/
theorem mem_text_iff {c : Char} (hc : c ≠ '/') : c ∈ p.text.toList ↔ ∃ s ∈ p.steps, c ∈ s.toList := by
  have hpieces : c ∈ p.text.toList ↔ ∃ s ∈ p.pieces, c ∈ s.toList := by
    rw [mem_iff_mem_splitAtChar hc]
    simp [pieces, piecesOf]
  rw [hpieces]
  refine exists_congr fun s => and_congr_left fun hs => ?_
  have hne : s ≠ "" := by
    rintro rfl
    simp at hs
  simp [steps, hne]

/-- Apart from a `.` in front, the components of a path are its steps. -/
theorem components_eq_steps (h : p.isAbsolute = true ∨ p.steps.head? ≠ some ".") : p.components =
    (if p.isAbsolute then [.root] else []) ++ p.steps.filterMap componentOf? := by
  unfold components
  by_cases habs : p.isAbsolute = true
  · rw [if_pos habs, if_pos habs, filterMap_steps]
    rfl
  · rw [if_neg habs, if_neg habs]
    split
    case h_1 r hr =>
      have hhead : p.steps.head? = some "." := by simp [steps, hr]
      exact absurd hhead (h.resolve_left habs)
    case h_2 =>
      rw [filterMap_steps]
      rfl

/-- A text that can name a file. -/
structure IsName (s : String) : Prop where
  nonempty : s ≠ ""
  not_current : s ≠ "."
  not_parent : s ≠ ".."
  no_slash : '/' ∉ s.toList

instance (s : String) : Decidable (IsName s) :=
  decidable_of_iff (s ≠ "" ∧ s ≠ "." ∧ s ≠ ".." ∧ '/' ∉ s.toList)
    ⟨fun h => ⟨h.1, h.2.1, h.2.2.1, h.2.2.2⟩, fun h => ⟨h.1, h.2, h.3, h.4⟩⟩

theorem IsName.componentOf? {s : String} (h : IsName s) : Path.componentOf? s = some (.name s) := by
  simp [Path.componentOf?, h.nonempty, h.not_current, h.not_parent]

/-- The path of what lies below a directory, by the names that lead to it. -/
def below (dir : Path) (names : List String) : Path := names.foldl (fun p s => p.join ⟨s⟩) dir

section below

variable {names : List String}

theorem steps_below (dir : Path) (h : ∀ s ∈ names, IsName s) :
    (dir.below names).steps = dir.steps ++ names := by
  induction names generalizing dir with
  | nil => simp [below]
  | cons s names ih =>
    obtain ⟨hs, hnames⟩ := List.forall_mem_cons.mp h
    have hrest : dir.below (s :: names) = (dir.join ⟨s⟩).below names := rfl
    rw [hrest, ih _ hnames, steps_join dir hs.no_slash hs.nonempty, List.append_assoc]
    rfl

theorem isAbsolute_below (h : ∀ s ∈ names, IsName s) : (dir.below names).isAbsolute = dir.isAbsolute := by
  induction names generalizing dir with
  | nil => rfl
  | cons s names ih =>
    obtain ⟨hs, hnames⟩ := List.forall_mem_cons.mp h
    have hrest : dir.below (s :: names) = (dir.join ⟨s⟩).below names := rfl
    rw [hrest, ih hnames, isAbsolute_join hs.no_slash]

theorem slashed_below (hne : names ≠ []) (h : ∀ s ∈ names, IsName s) : (dir.below names).slashed = false := by
  obtain ⟨front, s, rfl⟩ := List.eq_nil_or_concat names |>.resolve_left hne
  have hs := h s (by simp)
  have hrest : dir.below (front.concat s) = (dir.below front).join ⟨s⟩ := by simp [below]
  rw [hrest, slashed_join hs.no_slash hs.nonempty]

/-- Different names are different as a text, as there is no separator in a name. -/
theorem pieces_intercalate (hne : names ≠ []) (h : ∀ s ∈ names, IsName s) :
    (Path.mk ("/".intercalate names)).pieces = names := by
  induction names with
  | nil => exact absurd rfl hne
  | cons s names ih =>
    obtain ⟨hs, hnames⟩ := List.forall_mem_cons.mp h
    cases names with
    | nil => simpa using pieces_of_notMem hs.no_slash
    | cons r names =>
      rw [String.intercalate_cons_cons, pieces_append_slash, pieces_of_notMem hs.no_slash,
        ih (List.cons_ne_nil _ _) hnames]
      rfl

end below

end Path

end SlotBuild
