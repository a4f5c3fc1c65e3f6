import SlotBuild.Proofs.Toml.Lines

/-! The text of a configuration file determines its table, also beyond the limits of the reader: a
line of it is never the start of another line. -/

namespace SlotBuild.Toml

section lines

variable {j k : String} {js ks : List String} {v w : Value} {r s : List Char}

/-- Two pairs are read alike where values may be as deep as the deeper one. -/
theorem pairText_append_inj (spread : Bool) (hv : v.Sound) (hw : w.Sound)
    (h : pairText spread (⟨[], k⟩, v) ++ '\n' :: r = pairText spread (⟨[], j⟩, w) ++ '\n' :: s) :
    k = j ∧ v = w ∧ r = s := by
  have hreadv := hv.reads spread (Nat.le_max_left v.nesting w.nesting)
  have hreadw := hw.reads spread (Nat.le_max_right v.nesting w.nesting)
  have hpairv := readsSpaced_pair? (k := k) hreadv [] _ (by simp) (delimits_lineEnd r)
  have hpairw := readsSpaced_pair? (k := j) hreadw [] _ (by simp) (delimits_lineEnd s)
  have hdrop : ∀ cs : List Char, ('\n' :: cs).dropWhile isSpace = '\n' :: cs := fun _ => rfl
  simp only [pairText] at h
  rw [List.nil_append, h, hdrop] at hpairv
  rw [List.nil_append, hpairv, hdrop] at hpairw
  simpa [and_assoc] using hpairw

theorem writePath_append_inj
    (h : writePath (ks ++ [k]) ++ ']' :: r = writePath (js ++ [j]) ++ ']' :: s) :
    ks ++ [k] = js ++ [j] ∧ r = s := by
  have hdrop : ∀ cs : List Char, (']' :: cs).dropWhile isSpace = ']' :: cs := fun _ => rfl
  have hends : ∀ cs : List Char, ((']' :: cs).dropWhile isSpace).head? ≠ some '.' := by
    simp [hdrop]
  have hkeys := separated?_writePath ks k (by simp : ∀ c ∈ [], isSpace c = true)
    (endsKey_bracket r) (hends r)
  have hkeys' := separated?_writePath js j (by simp : ∀ c ∈ [], isSpace c = true)
    (endsKey_bracket s) (hends s)
  rw [List.nil_append, h, hdrop] at hkeys
  rw [List.nil_append, hkeys, hdrop] at hkeys'
  simpa using hkeys'

theorem headerLine_append_inj {repeated repeated' : Bool}
    (h : headerLine repeated (ks ++ [k]) ++ r = headerLine repeated' (js ++ [j]) ++ s) :
    repeated = repeated' ∧ ks ++ [k] = js ++ [j] ∧ r = s := by
  cases repeated <;> cases repeated' <;>
    simp only [headerLine, if_true, if_false, Bool.false_eq_true, List.append_assoc,
      List.cons_append, List.nil_append, List.cons.injEq, true_and] at h
  · obtain ⟨hpath, hrest⟩ := writePath_append_inj h
    exact ⟨rfl, hpath, (List.cons.inj hrest).2⟩
  · exact absurd h (writePath_ne_bracket ks k _ _)
  · exact absurd h.symm (writePath_ne_bracket js j _ _)
  · obtain ⟨hpath, hrest⟩ := writePath_append_inj h
    simp only [List.cons.injEq, true_and] at hrest
    exact ⟨rfl, hpath, hrest⟩

end lines

section spelling

variable {spread : Bool} {k : String} {parents : List String} {v : Value} {es : Entries}
  {text text' : List Char} {ls ls' : List Line}

/-- The text consists of these lines, with blank lines anywhere between them. -/
inductive Spells (spread : Bool) : List Char → List Line → Prop
  | nil : Spells spread [] []
  | blank {text : List Char} {ls : List Line} (h : Spells spread text ls) :
    Spells spread ('\n' :: text) ls
  | pair {text : List Char} {ls : List Line} (k : String) {v : Value} (hv : v.Sound)
    (h : Spells spread text ls) :
    Spells spread (pairText spread (⟨[], k⟩, v) ++ '\n' :: text) (.pair (⟨[], k⟩, v) :: ls)
  | header {text : List Char} {ls : List Line} (repeated : Bool) (parents : List String)
    (k : String) (h : Spells spread text ls) :
    Spells spread (headerLine repeated (parents ++ [k]) ++ text)
      (.header ⟨parents, k⟩ repeated :: ls)

theorem headerLine_append (repeated : Bool) (path : List String) (text : List Char) :
    ∃ r, headerLine repeated path ++ text = '[' :: r := by
  cases repeated <;> exact ⟨_, rfl⟩

/-- A pair starts as its key does, so it is neither a blank line nor a header. -/
theorem exists_pairText_append (spread : Bool) (k : String) (v : Value) (text : List Char) :
    ∃ c r, pairText spread (⟨[], k⟩, v) ++ text = c :: r ∧ c ≠ '\n' ∧ c ≠ '[' := by
  obtain ⟨c, r, hkey, hc⟩ := exists_writeKey_eq_cons k
  refine ⟨c, _, by rw [pairText_append, hkey, List.cons_append], ?_, ?_⟩
  · rintro rfl
    exact absurd hc (by decide)
  · rintro rfl
    exact absurd hc (by decide)

namespace Spells

theorem of_nil (h : Spells spread [] ls) : ls = [] := by
  generalize htext : [] = text at h
  cases h with
  | nil => rfl
  | blank _ => simp at htext
  | pair _ _ _ => simp at htext
  | header repeated parents k _ =>
    obtain ⟨r, hr⟩ := headerLine_append repeated (parents ++ [k]) _
    rw [hr] at htext
    simp at htext

theorem of_blank (h : Spells spread ('\n' :: text) ls) : Spells spread text ls := by
  generalize htext : '\n' :: text = text' at h
  cases h with
  | nil => cases htext
  | blank h => exact (List.cons.inj htext).2 ▸ h
  | @pair rest _ k v _ _ =>
    obtain ⟨c, r, hr, hblank, -⟩ := exists_pairText_append spread k v ('\n' :: rest)
    rw [hr] at htext
    exact absurd (List.cons.inj htext).1.symm hblank
  | @header rest _ repeated parents k _ =>
    obtain ⟨r, hr⟩ := headerLine_append repeated (parents ++ [k]) rest
    rw [hr] at htext
    cases htext

theorem of_pair (hv : v.Sound)
    (h : Spells spread (pairText spread (⟨[], k⟩, v) ++ '\n' :: text) ls) :
    ∃ more, ls = .pair (⟨[], k⟩, v) :: more ∧ Spells spread text more := by
  obtain ⟨c, r, hr, hblank, hbracket⟩ := exists_pairText_append spread k v ('\n' :: text)
  generalize htext : pairText spread (⟨[], k⟩, v) ++ '\n' :: text = text' at h
  cases h with
  | nil => simp at htext
  | blank _ =>
    rw [hr] at htext
    exact absurd (List.cons.inj htext).1 hblank
  | pair j hw h =>
    obtain ⟨rfl, rfl, rfl⟩ := pairText_append_inj spread hv hw htext
    exact ⟨_, rfl, h⟩
  | @header rest _ repeated parents j _ =>
    obtain ⟨r', hr'⟩ := headerLine_append repeated (parents ++ [j]) rest
    rw [hr, hr'] at htext
    exact absurd (List.cons.inj htext).1 hbracket

theorem of_header {repeated : Bool}
    (h : Spells spread (headerLine repeated (parents ++ [k]) ++ text) ls) :
    ∃ more, ls = .header ⟨parents, k⟩ repeated :: more ∧ Spells spread text more := by
  obtain ⟨r, hr⟩ := headerLine_append repeated (parents ++ [k]) text
  generalize htext : headerLine repeated (parents ++ [k]) ++ text = text' at h
  cases h with
  | nil =>
    rw [hr] at htext
    cases htext
  | blank _ =>
    rw [hr] at htext
    cases htext
  | @pair rest _ j v _ _ =>
    obtain ⟨c, r', hr', -, hbracket⟩ := exists_pairText_append spread j v ('\n' :: rest)
    rw [hr, hr'] at htext
    exact absurd (List.cons.inj htext).1.symm hbracket
  | header repeated' parents' j h =>
    obtain ⟨rfl, hpath, rfl⟩ := headerLine_append_inj htext
    obtain ⟨rfl, hkey⟩ := List.append_inj' hpath rfl
    obtain rfl := (List.cons.inj hkey).1
    exact ⟨_, rfl, h⟩

/-- No text can be taken apart into lines in two ways. -/
theorem unique (h : Spells spread text ls) (h' : Spells spread text ls') : ls = ls' := by
  induction h generalizing ls' with
  | nil => exact h'.of_nil.symm
  | blank _ ih => exact ih h'.of_blank
  | pair k hv _ ih =>
    obtain ⟨more, rfl, hmore⟩ := h'.of_pair hv
    rw [ih hmore]
  | header repeated parents k _ ih =>
    obtain ⟨more, rfl, hmore⟩ := h'.of_header
    rw [ih hmore]

theorem append (h : Spells spread text ls) (h' : Spells spread text' ls') :
    Spells spread (text ++ text') (ls ++ ls') := by
  induction h with
  | nil => exact h'
  | blank _ ih => exact ih.blank
  | pair k hv _ ih =>
    rw [List.append_assoc]
    exact ih.pair k hv
  | header repeated parents k _ ih =>
    rw [List.append_assoc]
    exact ih.header repeated parents k

end Spells

theorem spells_bodyText (spread : Bool) (h : ∀ e ∈ es, e.2.Sound) :
    Spells spread (bodyText spread es) ((plainPairs es).map .pair) := by
  induction es with
  | nil => exact .nil
  | cons e es ih =>
    obtain ⟨he, hes⟩ := List.forall_mem_cons.mp h
    have htext : bodyText spread (e :: es) =
        pairText spread (⟨[], e.1⟩, e.2) ++ '\n' :: bodyText spread es := by
      simp [bodyText, writePairs, pairText]
    rw [htext]
    exact (ih hes).pair e.1 he

theorem spells_ownLines (spread repeated : Bool) (parents : List String) (k : String)
    (h : ∀ e ∈ bodyOf es, e.2.Sound) :
    Spells spread (ownLines spread repeated (parents ++ [k]) es)
      ((ownSections repeated parents k es).flatMap sectionLines) := by
  rcases ownLines_eq spread repeated parents k es with ⟨htext, hlines⟩ | ⟨-, htext, hlines⟩
  · rw [htext, hlines]
    exact (spells_bodyText spread h).header repeated parents k
  · rw [htext, hlines]
    exact .nil

/-- The blocks of a text that are not empty, with a blank line between each two of them. -/
def joined (bs : List (List Char)) : List Char := ['\n'].intercalate (bs.filter (· ≠ []))

theorem intercalate_append (bs bs' : List (List Char)) : ∃ gap, (gap = [] ∨ gap = ['\n']) ∧
    ['\n'].intercalate (bs ++ bs') = ['\n'].intercalate bs ++ (gap ++ ['\n'].intercalate bs') := by
  induction bs with
  | nil => exact ⟨[], .inl rfl, rfl⟩
  | cons b bs ih =>
    cases bs with
    | nil =>
      cases bs' with
      | nil => exact ⟨[], .inl rfl, by simp [List.intercalate]⟩
      | cons b' bs' => exact ⟨['\n'], .inr rfl, by simp [List.intercalate]⟩
    | cons c bs =>
      obtain ⟨gap, hgap, htext⟩ := ih
      refine ⟨gap, hgap, ?_⟩
      simp only [List.intercalate, List.cons_append] at htext
      simp [List.intercalate, htext]

namespace Spells

variable {bs bs' : List (List Char)}

theorem joined_append (h : Spells spread (joined bs) ls) (h' : Spells spread (joined bs') ls') :
    Spells spread (joined (bs ++ bs')) (ls ++ ls') := by
  obtain ⟨gap, hgap, htext⟩ := intercalate_append (bs.filter (· ≠ [])) (bs'.filter (· ≠ []))
  rw [joined, List.filter_append, htext]
  refine h.append ?_
  rcases hgap with rfl | rfl
  · exact h'
  · exact h'.blank

theorem joined_cons {b : List Char} (h : Spells spread b ls) (h' : Spells spread (joined bs) ls') :
    Spells spread (joined (b :: bs)) (ls ++ ls') := by
  have hone : joined [b] = b := by
    by_cases hempty : b = []
    · simp [joined, hempty]
    · simp [joined, hempty, List.intercalate]
  exact joined_append (hone.symm ▸ h : Spells spread (joined [b]) ls) h'

end Spells

theorem spells_entryBlocks
    (h : ∀ e ∈ es, Spells spread (joined (blocks spread false (parents ++ [e.1]) e.2))
      ((sectionsOf false parents e.1 e.2).flatMap sectionLines)) :
    Spells spread (joined (entryBlocks spread parents es))
      ((entrySections parents es).flatMap sectionLines) := by
  induction es with
  | nil => exact .nil
  | cons e es ih =>
    obtain ⟨he, hes⟩ := List.forall_mem_cons.mp h
    rw [entryBlocks, entrySections, List.flatMap_append]
    by_cases hheader : hasHeader e.2 = true
    · rw [if_pos hheader, if_pos hheader]
      exact he.joined_append (ih hes)
    · rw [if_neg hheader, if_neg hheader]
      exact ih hes

theorem Value.Sound.spells_blocks (h : v.Sound) (spread repeated : Bool) (parents : List String)
    (k : String) :
    Spells spread (joined (blocks spread repeated (parents ++ [k]) v))
      ((sectionsOf repeated parents k v).flatMap sectionLines) := by
  induction v using Value.induct generalizing repeated parents k with
  | array xs ih =>
    rw [Sound, elementsSound_iff] at h
    rw [blocks, sectionsOf]
    induction xs with
    | nil => exact .nil
    | cons x xs ihxs =>
      obtain ⟨hx, hxs⟩ := List.forall_mem_cons.mp h
      obtain ⟨ihx, ihrest⟩ := List.forall_mem_cons.mp ih
      rw [elementBlocks, elementSections, List.flatMap_append]
      exact (ihx hx true parents k).joined_append (ihxs ihrest hxs)
  | table es ih =>
    rw [Sound, entriesSound_iff] at h
    have hbody : ∀ e ∈ bodyOf es, e.2.Sound := fun e he => h.2 e (List.mem_filter.mp he).1
    rw [blocks, sectionsOf, List.flatMap_append]
    refine (spells_ownLines spread repeated parents k hbody).joined_cons (spells_entryBlocks ?_)
    exact fun e he => ih e he (h.2 e he) false (parents ++ [k]) e.1
  | _ => exact .nil

theorem spells_write (h : (Value.table es).Sound) (spread : Bool) :
    Spells spread (write spread es).toList
      ((plainPairs (bodyOf es)).map .pair ++ (entrySections [] es).flatMap sectionLines) := by
  have hentries := Value.entriesSound_iff.mp h.2
  have hbody : ∀ e ∈ bodyOf es, e.2.Sound := fun e he => hentries e (List.mem_filter.mp he).1
  rw [write_eq, String.toList_ofList, ← joined]
  refine (spells_bodyText spread hbody).joined_cons (spells_entryBlocks fun e he => ?_)
  exact (hentries e he).spells_blocks spread false [] e.1

end spelling

/-- Two tables that are written alike are the same, but for the place of their tables. -/
theorem arranged_eq_of_write_eq {es fs : Entries} (hes : (Value.table es).Sound)
    (hfs : (Value.table fs).Sound) {spread : Bool} (h : write spread es = write spread fs) :
    arranged (.table es) = arranged (.table fs) := by
  have hspells := spells_write hes spread
  rw [h] at hspells
  have hlines := congrArg tableOf? (hspells.unique (spells_write hfs spread))
  rw [tableOf?_lines hes, tableOf?_lines hfs] at hlines
  rw [arranged, arranged, Option.some.inj hlines]

end SlotBuild.Toml
