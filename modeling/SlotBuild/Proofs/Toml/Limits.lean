import SlotBuild.Proofs.Toml.Lines

/-! The limits of the reader are exact: a text in which a header has too long a path, or a value
without a header is nested too deeply, is refused as a whole. -/

namespace SlotBuild.Toml

/-- The text of `v` starts as values do and is refused, where values may be `depth` deep. -/
structure Refuses (spread : Bool) (depth : Nat) (v : Value) : Prop where
  starts : ∃ c r, writeValue spread v = c :: r ∧ StartsValue c
  value : ∀ rest, value? depth (writeValue spread v ++ rest) = none

section arrays

variable {spread : Bool} {depth : Nat} {v : Value} {xs : List Value}

theorem Refuses.not_reads (h : Refuses spread depth v) : ¬Reads spread depth v := by
  intro hread
  have hend : Delimits [] := ⟨by simp, by simp, by simp⟩
  have hvalue := hread.value [] hend
  rw [h.value] at hvalue
  cases hvalue

theorem elements?_refused (h : Refuses spread depth v) {pre : List Char}
    (hpre : ∀ c ∈ pre, c = ' ' ∨ c = '\n') (fuel : Nat) (r : List Char) :
    elements? (value? depth) fuel (pre ++ (writeValue spread v ++ r)) = none := by
  cases fuel with
  | zero => rfl
  | succ fuel =>
    obtain ⟨c, t, htext, hspace, htrivia, hbracket⟩ := h.starts
    have hvalue := h.value r
    rw [htext, List.cons_append] at hvalue ⊢
    rw [elements?, skipTrivia_append hpre, skipTrivia_cons hspace htrivia]
    split
    case h_1 heq => exact absurd (List.cons.inj heq).1 hbracket
    case h_2 =>
      rw [hvalue]
      rfl

theorem elements?_elementLines_refused (h : ∀ x ∈ xs, Reads spread depth x ∨ Refuses spread depth x)
    (hbad : ¬∀ x ∈ xs, Reads spread depth x) (fuel : Nat) (rest : List Char) :
    elements? (value? depth) fuel (elementLines spread xs ++ rest) = none := by
  induction xs generalizing fuel with
  | nil => simp at hbad
  | cons x xs ih =>
    obtain ⟨hx, hxs⟩ := List.forall_mem_cons.mp h
    have hpre : ∀ c ∈ "\n    ".toList, c = ' ' ∨ c = '\n' := by simp
    rw [elementLines_cons]
    rcases hx with hx | hx
    · have hrest := ih hxs fun hall => hbad (List.forall_mem_cons.mpr ⟨hx, hall⟩)
      cases fuel with
      | zero => rfl
      | succ fuel => rw [(elements?_element hx hpre fuel _).1, hrest, Option.map_none]
    · exact elements?_refused hx hpre fuel _

theorem elements?_commaJoined_refused {x : Value}
    (h : ∀ y ∈ x :: xs, Reads spread depth y ∨ Refuses spread depth y)
    (hbad : ¬∀ y ∈ x :: xs, Reads spread depth y) (fuel : Nat) {pre : List Char}
    (hpre : ∀ c ∈ pre, c = ' ' ∨ c = '\n') (rest : List Char) :
    elements? (value? depth) fuel
    (pre ++ (commaJoined ((x :: xs).map (writeValue spread)) ++ rest)) = none := by
  induction xs generalizing x pre fuel with
  | nil =>
    have hx : Refuses spread depth x :=
      (h x List.mem_cons_self).resolve_left fun hread => hbad (by simpa using hread)
    have htext : commaJoined ([x].map (writeValue spread)) = writeValue spread x := by
      simp [commaJoined, List.intercalate]
    rw [htext]
    exact elements?_refused hx hpre fuel rest
  | cons y ys ih =>
    obtain ⟨hx, hys⟩ := List.forall_mem_cons.mp h
    have htext : commaJoined ((x :: y :: ys).map (writeValue spread)) ++ rest =
        writeValue spread x ++ ',' ::
        ([' '] ++ (commaJoined ((y :: ys).map (writeValue spread)) ++ rest)) := by
      simp [commaJoined, List.intercalate]
    rw [htext]
    rcases hx with hx | hx
    · have hrest := fun fuel => ih hys (fun hall => hbad (List.forall_mem_cons.mpr ⟨hx, hall⟩)) fuel
        (List.forall_mem_singleton.mpr (Or.inl rfl))
      cases fuel with
      | zero => rfl
      | succ fuel => rw [(elements?_element hx hpre fuel _).1, hrest, Option.map_none]
    · exact elements?_refused hx hpre fuel _

theorem Refuses.array (h : ∀ x ∈ xs, Reads spread depth x ∨ Refuses spread depth x)
    (hbad : ¬∀ x ∈ xs, Reads spread depth x) : Refuses spread (depth + 1) (.array xs) := by
  rcases writeValue_array spread xs with htext | htext
  · refine ⟨⟨'[', _, htext, startsValue_bracket⟩, fun rest => ?_⟩
    rw [htext, List.cons_append, value?, elements?_elementLines_refused h hbad, Option.map_none]
  · refine ⟨⟨'[', _, htext, startsValue_bracket⟩, fun rest => ?_⟩
    cases xs with
    | nil => simp at hbad
    | cons x xs =>
      have hread := fun fuel => elements?_commaJoined_refused h hbad fuel
          (by simp : ∀ c ∈ [], c = ' ' ∨ c = '\n') (']' :: rest)
      rw [htext, List.cons_append, value?, List.append_assoc, List.singleton_append]
      simp only [List.nil_append] at hread
      rw [hread, Option.map_none]

end arrays

section braces

variable {α : Type} {item : List Char → Option (α × List Char)} {sep : Char} {gap : List Char}
  {stops : List Char → Prop} {write : α → List Char}

/-- No item is read from the text, with blanks in front. -/
def RefusesSpaced (item : List Char → Option (α × List Char)) (text : List Char) : Prop :=
  ∀ pre rest, (∀ c ∈ pre, isSpace c = true) → item (pre ++ (text ++ rest)) = none

theorem separated?_intercalate_refused {x : α} {xs : List α}
    (h : ∀ y ∈ x :: xs, ReadsSpaced item stops y (write y) ∨ RefusesSpaced item (write y))
    (hbad : ¬∀ y ∈ x :: xs, ReadsSpaced item stops y (write y)) (hsep : isSpace sep = false)
    (hgap : ∀ c ∈ gap, isSpace c = true) (hstops : ∀ r, stops (sep :: r)) (fuel : Nat)
    {pre : List Char} (hpre : ∀ c ∈ pre, isSpace c = true) (rest : List Char) :
    separated? item sep fuel (pre ++ ((sep :: gap).intercalate ((x :: xs).map write) ++ rest)) =
    none := by
  induction xs generalizing x pre fuel with
  | nil =>
    cases fuel with
    | zero => rfl
    | succ fuel =>
      have hx : RefusesSpaced item (write x) :=
        (h x List.mem_cons_self).resolve_left fun hread => hbad (by simpa using hread)
      have htext : (sep :: gap).intercalate ([x].map write) = write x := by simp [List.intercalate]
      rw [separated?, htext, hx pre rest hpre]
      rfl
  | cons y ys ih =>
    cases fuel with
    | zero => rfl
    | succ fuel =>
      obtain ⟨hx, hys⟩ := List.forall_mem_cons.mp h
      have htext : (sep :: gap).intercalate ((x :: y :: ys).map write) ++ rest =
          write x ++
          (sep :: (gap ++ ((sep :: gap).intercalate ((y :: ys).map write) ++ rest))) := by
        simp [List.intercalate]
      rw [separated?, htext]
      rcases hx with hx | hx
      · have hrest := ih hys (fun hall => hbad (List.forall_mem_cons.mpr ⟨hx, hall⟩)) fuel hgap
        have hitem :=
          hx pre _ hpre (hstops (gap ++ ((sep :: gap).intercalate ((y :: ys).map write) ++ rest)))
        rw [List.dropWhile_cons_of_neg (by simp [hsep])] at hitem
        rw [hitem]
        simp only [Option.bind_eq_bind, Option.bind_some, if_true, hrest, Option.bind_none]
      · rw [hx pre _ hpre]
        rfl

variable {spread : Bool} {depth : Nat} {es : Entries}

theorem refusesSpaced_pair? {k : String} {v : Value} (h : Refuses spread depth v) :
    RefusesSpaced (pair? (value? depth)) (writePair (writeKey k) (writeValue spread v)) := by
  intro pre rest hpre
  obtain ⟨c, r, htext, hspace, -, -⟩ := h.starts
  have hunspaced : Unspaced (writeValue spread v ++ rest) := by simpa [Unspaced, htext] using hspace
  rw [pair?_writePair hpre hunspaced, h.value, Option.map_none]

theorem Refuses.table (h : ∀ e ∈ es, Reads spread depth e.2 ∨ Refuses spread depth e.2)
    (hbad : ¬∀ e ∈ es, Reads spread depth e.2) : Refuses spread (depth + 1) (.table es) := by
  cases es with
  | nil => simp at hbad
  | cons e es =>
    have htext := writeValue_table spread e es
    refine ⟨⟨'{', _, htext, startsValue_brace⟩, fun rest => ?_⟩
    have hpairs : ∀ p ∈ plainPairs (e :: es),
        ReadsSpaced (pair? (value? depth)) Delimits p (pairText spread p) ∨
        RefusesSpaced (pair? (value? depth)) (pairText spread p) := by
      intro p hp
      obtain ⟨f, hf, rfl⟩ := List.mem_map.mp hp
      exact (h f hf).imp readsSpaced_pair? refusesSpaced_pair?
    have hpairsbad : ¬∀ p ∈ plainPairs (e :: es),
        ReadsSpaced (pair? (value? depth)) Delimits p (pairText spread p) := by
      intro hall
      refine hbad fun f hf => (h f hf).resolve_right fun hrefuse => ?_
      have hend : Delimits [] := ⟨by simp, by simp, by simp⟩
      have hread := hall _ (List.mem_map_of_mem hf) [] [] (by simp) hend
      rw [pairText, refusesSpaced_pair? hrefuse [] [] (by simp)] at hread
      cases hread
    have hrefused := fun fuel => separated?_intercalate_refused hpairs hpairsbad (by decide)
      (by simp [isSpace] : ∀ c ∈ [' '], isSpace c = true) delimits_comma fuel
      (by simp : ∀ c ∈ [], isSpace c = true) (' ' :: '}' :: rest)
    simp only [List.nil_append] at hrefused
    rw [htext, List.cons_append, value?, List.cons_append, List.append_assoc]
    have hinline := inline?_pairs spread e es rest (value? depth)
    simp only [commaJoined, plainPairs, List.map_cons] at hinline hrefused
    rw [hrefused] at hinline
    exact hinline

end braces

theorem value?_zero {c : Char} (hc : c = '[' ∨ c = '{') (r : List Char) :
    value? 0 (c :: r) = none := by
  rcases hc with rfl | rfl <;> rfl

namespace Value

theorem exists_deep_element {n : Nat} {xs : List Value} (h : n < elementsNesting xs) :
    ∃ x ∈ xs, n < x.nesting := by
  induction xs with
  | nil => simp [elementsNesting] at h
  | cons x xs ih =>
    rw [elementsNesting, lt_max_iff] at h
    rcases h with h | h
    · exact ⟨x, List.mem_cons_self, h⟩
    · obtain ⟨y, hy, hdeep⟩ := ih h
      exact ⟨y, List.mem_cons_of_mem x hy, hdeep⟩

theorem exists_deep_entry {n : Nat} {es : Entries} (h : n < entriesNesting es) :
    ∃ e ∈ es, n < e.2.nesting := by
  induction es with
  | nil => simp [entriesNesting] at h
  | cons e es ih =>
    rw [entriesNesting, lt_max_iff] at h
    rcases h with h | h
    · exact ⟨e, List.mem_cons_self, h⟩
    · obtain ⟨f, hf, hdeep⟩ := ih h
      exact ⟨f, List.mem_cons_of_mem e hf, hdeep⟩

theorem startsValue_table (spread : Bool) (es : Entries) :
    ∃ r, writeValue spread (.table es) = '{' :: r := by
  cases es with
  | nil => exact ⟨_, rfl⟩
  | cons e es => exact ⟨_, writeValue_table spread e es⟩

theorem startsValue_array (spread : Bool) (xs : List Value) :
    ∃ r, writeValue spread (.array xs) = '[' :: r := by
  rcases writeValue_array spread xs with htext | htext
  · exact ⟨_, htext⟩
  · exact ⟨_, htext⟩

/-- A value that is nested more deeply than values may be is refused. -/
theorem Sound.refuses {v : Value} (h : v.Sound) (spread : Bool) {depth : Nat}
    (hdepth : depth < v.nesting) :
    Refuses spread depth v := by
  induction v using Value.induct generalizing depth with
  | array xs ih =>
    obtain ⟨r, htext⟩ := startsValue_array spread xs
    rw [Sound, elementsSound_iff] at h
    rw [nesting] at hdepth
    cases depth with
    | zero => exact ⟨⟨'[', r, htext, startsValue_bracket⟩,
      fun rest => by rw [htext]; exact value?_zero (Or.inl rfl) _⟩
    | succ depth =>
      obtain ⟨x, hx, hdeep⟩ := exists_deep_element (Nat.lt_of_succ_lt_succ hdepth)
      refine Refuses.array (fun y hy => ?_) fun hall =>
        (ih x hx (h x hx) hdeep).not_reads (hall x hx)
      by_cases hy' : y.nesting ≤ depth
      · exact Or.inl ((h y hy).reads spread hy')
      · exact Or.inr (ih y hy (h y hy) (Nat.not_le.mp hy'))
  | table es ih =>
    obtain ⟨r, htext⟩ := startsValue_table spread es
    rw [Sound, entriesSound_iff] at h
    rw [nesting] at hdepth
    cases depth with
    | zero => exact ⟨⟨'{', r, htext, startsValue_brace⟩,
      fun rest => by rw [htext]; exact value?_zero (Or.inr rfl) _⟩
    | succ depth =>
      obtain ⟨e, he, hdeep⟩ := exists_deep_entry (Nat.lt_of_succ_lt_succ hdepth)
      refine Refuses.table (fun f hf => ?_) fun hall =>
        (ih e he (h.2 e he) hdeep).not_reads (hall e he)
      by_cases hf' : f.2.nesting ≤ depth
      · exact Or.inl ((h.2 f hf).reads spread hf')
      · exact Or.inr (ih f hf (h.2 f hf) (Nat.not_le.mp hf'))
  | _ => simp [nesting] at hdepth

end Value

/-- A text is refused wherever it stands, whatever follows it. -/
structure RefusesLines (text : List Char) : Prop where
  unmarked : text.head? ≠ some '\uFEFF'
  refused : ∀ fuel rest, text.length < fuel → lines? fuel (text ++ rest) = none

namespace RefusesLines

variable {text text' : List Char} {ls : List Line}

theorem ne_nil (h : RefusesLines text) : text ≠ [] := by
  rintro rfl
  have hnothing := h.refused 1 [] (by simp)
  cases hnothing

theorem append (h : RefusesLines text) (text' : List Char) : RefusesLines (text ++ text') where
  unmarked := by
    obtain ⟨c, r, rfl⟩ := List.exists_cons_of_ne_nil h.ne_nil
    simpa using h.unmarked
  refused fuel rest hfuel := by
    rw [List.length_append] at hfuel
    rw [List.append_assoc]
    exact h.refused fuel _ (by omega)

theorem after (h : ReadsLines text ls) (h' : RefusesLines text') :
    RefusesLines (text ++ text') where
  unmarked := by
    cases text with
    | nil => exact h'.unmarked
    | cons c text => simpa using h.unmarked
  refused fuel rest hfuel := by
    obtain ⟨n, hn, hread⟩ := h.read
    rw [List.length_append] at hfuel
    obtain ⟨more, rfl⟩ := Nat.exists_eq_add_of_le' (show n ≤ fuel by omega)
    rw [List.append_assoc, hread, h'.refused more rest (by omega), Option.map_none]

theorem of_step (hmark : text.head? ≠ some '\uFEFF')
    (h : ∀ fuel rest, lines? (fuel + 1) (text ++ rest) = none) :
    RefusesLines text where
  unmarked := hmark
  refused fuel rest hfuel := by
    obtain ⟨fuel, rfl⟩ := Nat.exists_eq_succ_of_ne_zero (Nat.ne_zero_of_lt hfuel)
    exact h fuel rest

end RefusesLines

section blocks

variable {k : String} {n : Nat} {parents : List String} {es : Entries} {v : Value}

theorem refusesLines_pair (spread : Bool) (hv : v.Sound) (hdepth : nestingLimit ≤ v.nesting) :
    RefusesLines (pairText spread (⟨[], k⟩, v) ++ ['\n']) := by
  have hdeep : nestingLimit - 1 < v.nesting := Nat.lt_of_lt_of_le (by decide) hdepth
  refine RefusesLines.of_step ?_ fun fuel rest => ?_
  · rw [pairText_append]
    exact (lines?_key 0 k _).1
  · have hpair := refusesSpaced_pair? (k := k) (hv.refuses spread hdeep) [] ('\n' :: rest) (by simp)
    have hline : pairLine? (pairText spread (⟨[], k⟩, v) ++ '\n' :: rest) = none := by
      rw [List.nil_append] at hpair
      simp only [pairLine?, pairText, hpair]
      rfl
    rw [List.append_assoc, List.singleton_append, pairText_append, (lines?_key fuel k _).2,
      ← pairText_append, hline]
    rfl

theorem refusesLines_header (hlen : nestingLimit ≤ parents.length + 1) (repeated : Bool) :
    RefusesLines (headerLine repeated (parents ++ [k])) := by
  have hpath : ∀ r, keyPath? (writePath (parents ++ [k]) ++ ']' :: r) = none := fun r =>
    keyPath?_too_long hlen (endsKey_bracket r) (by simp [isSpace])
  cases repeated with
  | true =>
    refine RefusesLines.of_step (by simp [headerLine]) fun fuel rest => ?_
    have htext : headerLine true (parents ++ [k]) ++ rest =
        '[' :: '[' :: (writePath (parents ++ [k]) ++ ']' :: ']' :: '\n' :: rest) := by
      simp [headerLine]
    rw [htext, lines?_header, header?, hpath]
    rfl
  | false =>
    refine RefusesLines.of_step (by simp [headerLine]) fun fuel rest => ?_
    have htext : headerLine false (parents ++ [k]) ++ rest =
        '[' :: (writePath (parents ++ [k]) ++ ']' :: '\n' :: rest) := by
      simp [headerLine]
    rw [htext, lines?_header, header?, hpath]
    · rfl
    · exact writePath_ne_bracket parents k _

theorem refusesLines_bodyText (spread : Bool) (hsound : ∀ e ∈ es, e.2.Sound)
    (h : ¬PlainEntries es) :
    RefusesLines (bodyText spread es) := by
  induction es with
  | nil => exact absurd (by simp [PlainEntries]) h
  | cons e es ih =>
    obtain ⟨he, hes⟩ := List.forall_mem_cons.mp hsound
    by_cases hdepth : e.2.nesting < nestingLimit
    · have hrest := ih hes fun hall => h (List.forall_mem_cons.mpr ⟨⟨he, hdepth⟩, hall⟩)
      exact hrest.after (readsLines_pair (k := e.1) spread he hdepth)
    · exact (refusesLines_pair (k := e.1) spread he (Nat.not_lt.mp hdepth)).append _

/-- The first block that is not read is refused. -/
inductive RefusesBlocks : List (List Char) → Prop
  | here {b : List Char} (h : RefusesLines b) (bs : List (List Char)) : RefusesBlocks (b :: bs)
  | there {b : List Char} {l : List Line} {bs : List (List Char)} (h : ReadsLines b l)
    (h' : RefusesBlocks bs) :
      RefusesBlocks (b :: bs)

namespace RefusesBlocks

variable {bs bs' : List (List Char)}

theorem append (h : RefusesBlocks bs) (bs' : List (List Char)) : RefusesBlocks (bs ++ bs') := by
  induction h with
  | here h bs => exact .here h _
  | there h _ ih => exact .there h ih

theorem after {ls : List Line} (h : ReadsBlocks bs ls) (h' : RefusesBlocks bs') :
    RefusesBlocks (bs ++ bs') := by
  obtain ⟨parts, hparts, -⟩ := h
  induction hparts with
  | nil => exact h'
  | cons hb _ ih => exact .there hb ih

theorem joined (h : RefusesBlocks bs) : RefusesLines (['\n'].intercalate (bs.filter (· ≠ []))) := by
  induction h with
  | @here b hb bs =>
    rw [List.filter_cons_of_pos (by simpa using hb.ne_nil)]
    cases bs.filter (· ≠ []) with
    | nil => simpa [List.intercalate] using hb
    | cons c cs => simpa [List.intercalate] using hb.append _
  | @there b l bs hb _ ih =>
    by_cases hempty : b = []
    · subst hempty
      simpa using ih
    · rw [List.filter_cons_of_pos (by simpa using hempty)]
      have hne : bs.filter (· ≠ []) ≠ [] := fun hnil => by
        rw [hnil] at ih
        exact ih.ne_nil rfl
      obtain ⟨c, cs, hcs⟩ := List.exists_cons_of_ne_nil hne
      rw [hcs] at ih ⊢
      have hjoined := (ih.after ReadsLines.blank).after hb
      simpa [List.intercalate] using hjoined

end RefusesBlocks

theorem fitsReader_of_long (hheader : hasHeader v = true) (hlen : nestingLimit ≤ n) :
    fitsReader n v = false := by
  have htable : ∀ es, fitsReader n (.table es) = false := fun es => by
    rw [fitsReader, decide_eq_false (Nat.not_lt.mpr hlen), Bool.false_and]
  cases v with
  | table es => exact htable es
  | array xs =>
    simp only [hasHeader, Bool.and_eq_true, decide_eq_true_eq, List.all_eq_true] at hheader
    obtain ⟨x, xs, rfl⟩ := List.exists_cons_of_ne_nil hheader.1
    obtain ⟨es, rfl⟩ := isTable_iff.mp (hheader.2 x List.mem_cons_self)
    rw [fitsReader, elementsFit, htable, Bool.false_and]
  | _ => cases hheader

/-- Where the pairs of a table are all read, it is one of its tables that goes beyond the limits. -/
theorem refusesBlocks_entryBlocks (spread : Bool) (hsound : ∀ e ∈ es, e.2.Sound)
    (hplain : PlainEntries (bodyOf es)) (hfit : entriesFit parents.length es = false)
    (h : ∀ e ∈ es, hasHeader e.2 = true → fitsReader (parents.length + 1) e.2 = false →
      RefusesBlocks (blocks spread false (parents ++ [e.1]) e.2)) :
      RefusesBlocks (entryBlocks spread parents es) := by
  induction es with
  | nil => cases hfit
  | cons e es ih =>
    obtain ⟨hsounde, hsoundes⟩ := List.forall_mem_cons.mp hsound
    obtain ⟨he, hes⟩ := List.forall_mem_cons.mp h
    rw [entriesFit] at hfit
    rw [entryBlocks]
    by_cases hheader : hasHeader e.2 = true
    · rw [if_pos hheader] at hfit ⊢
      have hbody : bodyOf (e :: es) = bodyOf es := by simp [bodyOf, hheader]
      by_cases hfite : fitsReader (parents.length + 1) e.2 = true
      · rw [hfite, Bool.true_and] at hfit
        have hrest := ih hsoundes (hbody ▸ hplain) hfit hes
        exact hrest.after (hsounde.readsBlocks hfite spread false e.1)
      · exact (he hheader (Bool.eq_false_iff.mpr hfite)).append _
    · rw [if_neg hheader] at hfit ⊢
      have hbody : bodyOf (e :: es) = e :: bodyOf es := by simp [bodyOf, hheader]
      rw [hbody] at hplain
      obtain ⟨⟨-, hdepth⟩, hplain⟩ := List.forall_mem_cons.mp hplain
      rw [decide_eq_true hdepth, Bool.true_and] at hfit
      exact ih hsoundes hplain hfit hes

theorem refusesBlocks_elementBlocks (spread : Bool) (k : String) {xs : List Value}
    (hsound : ∀ x ∈ xs, x.Sound)
    (hfit : elementsFit (parents.length + 1) xs = false)
    (h : ∀ x ∈ xs, fitsReader (parents.length + 1) x = false →
      RefusesBlocks (blocks spread true (parents ++ [k]) x)) :
    RefusesBlocks (elementBlocks spread (parents ++ [k]) xs) := by
  induction xs with
  | nil => cases hfit
  | cons x xs ih =>
    obtain ⟨hsoundx, hsoundxs⟩ := List.forall_mem_cons.mp hsound
    obtain ⟨hx, hxs⟩ := List.forall_mem_cons.mp h
    rw [elementsFit] at hfit
    rw [elementBlocks]
    by_cases hfitx : fitsReader (parents.length + 1) x = true
    · rw [hfitx, Bool.true_and] at hfit
      have hrest := ih hsoundxs hfit hxs
      exact hrest.after (hsoundx.readsBlocks hfitx spread true k)
    · exact (hx (Bool.eq_false_iff.mpr hfitx)).append _

/-- A pair that is nested too deeply stands right under the header of its table. -/
theorem refusesLines_ownLines (spread repeated : Bool) (k : String) (hlen : parents.length + 1 < nestingLimit)
    (hsound : ∀ e ∈ es, e.2.Sound) (hplain : ¬ PlainEntries (bodyOf es)) :
    RefusesLines (ownLines spread repeated (parents ++ [k]) es) := by
  have hbody : ∀ e ∈ bodyOf es, e.2.Sound := fun e he => hsound e (List.mem_filter.mp he).1
  rcases ownLines_eq spread repeated parents k es with ⟨hown, -⟩ | ⟨honly, -⟩
  · rw [hown]
    exact (refusesLines_bodyText spread hbody hplain).after (readsLines_header (k := k) hlen repeated)
  · rw [honly.2] at hplain
    exact absurd (by simp [PlainEntries]) hplain

/-- Where the path of a table is too long, it is its own header that is refused or, if it has none,
that of the first table in it. -/
theorem refusesBlocks_of_long (spread repeated : Bool) (k : String) (hlen : nestingLimit ≤ parents.length + 1)
    (h : ∀ e ∈ es, hasHeader e.2 = true → RefusesBlocks (blocks spread false (parents ++ [k] ++ [e.1]) e.2)) :
    RefusesBlocks (blocks spread repeated (parents ++ [k]) (.table es)) := by
  rw [blocks]
  rcases ownLines_eq spread repeated parents k es with ⟨hown, -⟩ | ⟨honly, hempty, -⟩
  · rw [hown]
    exact .here ((refusesLines_header hlen repeated).append _) _
  · obtain ⟨e, fs, rfl, hheader⟩ := honly.head
    rw [hempty, entryBlocks, if_pos hheader]
    exact .there ReadsLines.nil ((h e List.mem_cons_self hheader).append _)

theorem Value.Sound.refusesBlocks (h : v.Sound) (hheader : hasHeader v = true)
    (hfit : fitsReader (parents.length + 1) v = false) (spread repeated : Bool) (k : String) :
    RefusesBlocks (blocks spread repeated (parents ++ [k]) v) := by
  induction v using Value.induct generalizing repeated parents k with
  | array xs ih =>
    rw [hasHeader, Bool.and_eq_true, List.all_eq_true] at hheader
    rw [Sound, elementsSound_iff] at h
    rw [fitsReader] at hfit
    rw [blocks]
    refine refusesBlocks_elementBlocks spread k h hfit fun x hx hfitx => ?_
    obtain ⟨es, rfl⟩ := isTable_iff.mp (hheader.2 x hx)
    exact ih _ hx (h _ hx) rfl hfitx true k
  | table es ih =>
    rw [Sound, entriesSound_iff] at h
    have hlength : (parents ++ [k]).length = parents.length + 1 := by simp
    have htables : ∀ e ∈ es, hasHeader e.2 = true → fitsReader ((parents ++ [k]).length + 1) e.2 = false →
        RefusesBlocks (blocks spread false (parents ++ [k] ++ [e.1]) e.2) :=
      fun e he hheadere hfite => ih e he (h.2 e he) hheadere hfite false e.1
    by_cases hlen : parents.length + 1 < nestingLimit
    · rw [fitsReader, decide_eq_true hlen, Bool.true_and] at hfit
      rw [blocks]
      by_cases hplain : PlainEntries (bodyOf es)
      · exact .there (readsLines_ownLines spread repeated k hlen hplain)
          (refusesBlocks_entryBlocks spread h.2 hplain (hlength ▸ hfit) htables)
      · exact .here (refusesLines_ownLines spread repeated k hlen h.2 hplain) _
    · have hlong : nestingLimit ≤ parents.length + 1 := Nat.not_lt.mp hlen
      exact refusesBlocks_of_long spread repeated k hlong fun e he hheadere =>
        htables e he hheadere (fitsReader_of_long hheadere (by omega))
  | _ => cases hheader

/-- A table whose text goes beyond the limits is not read back at all. -/
theorem read?_write_eq_none (hsound : (Value.table es).Sound) (hfit : entriesFit 0 es = false)
    (spread : Bool) :
    read? (write spread es) = none := by
  have hentries := Value.entriesSound_iff.mp hsound.2
  have hblocks : RefusesBlocks (bodyText spread (bodyOf es) :: entryBlocks spread [] es) := by
    by_cases hplain : PlainEntries (bodyOf es)
    · refine .there (readsLines_bodyText spread hplain) ?_
      refine refusesBlocks_entryBlocks spread hentries hplain hfit fun e he hheader hfite => ?_
      exact (hentries e he).refusesBlocks hheader hfite spread false e.1
    · exact .here
        (refusesLines_bodyText spread (fun e he => hentries e (List.mem_filter.mp he).1) hplain) _
  have hrefused := hblocks.joined
  have hlines := hrefused.refused _ [] (Nat.lt_succ_self _)
  rw [List.append_nil] at hlines
  rw [write_eq, read?_ofList hrefused.unmarked, hlines, Option.bind_none]

end blocks

end SlotBuild.Toml
