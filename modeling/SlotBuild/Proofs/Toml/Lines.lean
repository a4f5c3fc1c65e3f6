import SlotBuild.Proofs.Toml.Sections

/-! The text of a configuration file is read as the lines that it is written as. -/

namespace SlotBuild.Toml

/-- A text is read as these lines, whatever follows it, and does not start with a mark. -/
structure ReadsLines (text : List Char) (lines : List Line) : Prop where
  unmarked : text.head? ≠ some '\uFEFF'
  read : ∃ n, n ≤ text.length ∧
    ∀ fuel rest, lines? (fuel + n) (text ++ rest) = (lines? fuel rest).map (lines ++ ·)

namespace ReadsLines

variable {text text' : List Char} {lines lines' : List Line}

theorem nil : ReadsLines [] [] where
  unmarked := by simp
  read := ⟨0, Nat.le_refl 0, fun fuel rest => by simp⟩

theorem append (h : ReadsLines text lines) (h' : ReadsLines text' lines') :
    ReadsLines (text ++ text') (lines ++ lines') where
  unmarked := by
    cases text with
    | nil => exact h'.unmarked
    | cons c text => simpa using h.unmarked
  read := by
    obtain ⟨n, hn, hread⟩ := h.read
    obtain ⟨m, hm, hread'⟩ := h'.read
    refine ⟨m + n, by rw [List.length_append]; omega, fun fuel rest => ?_⟩
    rw [← Nat.add_assoc, List.append_assoc, hread, hread']
    cases lines? fuel rest <;> simp

/-- One line of text is read in one step. -/
theorem of_step (hmark : text.head? ≠ some '\uFEFF') (hne : text ≠ [])
    (h : ∀ fuel rest, lines? (fuel + 1) (text ++ rest) = (lines? fuel rest).map (lines ++ ·)) :
    ReadsLines text lines where
  unmarked := hmark
  read := ⟨1, List.length_pos_iff.mpr hne, h⟩

theorem blank : ReadsLines ['\n'] [] :=
  of_step (by simp) (by simp) fun fuel rest => by
    have hread : lines? (fuel + 1) ('\n' :: rest) = lines? fuel rest := rfl
    simp [hread]

end ReadsLines

section steps

variable {k : String} {parents : List String}

theorem delimits_lineEnd (r : List Char) : Delimits ('\n' :: r) :=
  delimits_of_ne (by decide) (by decide) (by decide) r

theorem lines?_header (fuel : Nat) (r : List Char) :
    lines? (fuel + 1) ('[' :: r) = (header? r).bind fun p => (lines? fuel p.2).map (p.1 :: ·) := by
  have hspace : ('[' :: r).dropWhile isSpace = '[' :: r := rfl
  simp only [lines?, hspace]
  cases header? r with
  | none => rfl
  | some p => cases hrest : lines? fuel p.2 <;> simp [hrest]

theorem lines?_pairLine (fuel : Nat) {c : Char} (hspace : isSpace c = false)
    (h : c ≠ '[' ∧ c ≠ '#' ∧ c ≠ '\n' ∧ c ≠ '\r') (r : List Char) :
    lines? (fuel + 1) (c :: r) =
    (pairLine? (c :: r)).bind fun p => (lines? fuel p.2).map (p.1 :: ·) := by
  have hdrop : (c :: r).dropWhile isSpace = c :: r := by simp [hspace]
  rw [lines?, hdrop]
  split
  case h_1 => simp_all
  case h_2 => simp_all
  case h_3 d s hne heq =>
    obtain ⟨rfl, rfl⟩ := List.cons.inj heq
    have hother : ¬(c = '#' ∨ c = '\n' ∨ c = '\r') := by simp [h]
    rw [if_neg hother]
    cases pairLine? (c :: r) with
    | none => rfl
    | some p => cases hrest : lines? fuel p.2 <;> simp [hrest]

/-- No other line than a pair starts as a key does. -/
theorem lines?_key (fuel : Nat) (k : String) (r : List Char) :
    (writeKey k ++ r).head? ≠ some '\uFEFF' ∧
    lines? (fuel + 1) (writeKey k ++ r) =
      (pairLine? (writeKey k ++ r)).bind fun p => (lines? fuel p.2).map (p.1 :: ·) := by
  obtain ⟨c, t, hc, hkey⟩ := exists_writeKey_eq_cons k
  have hother : ∀ d : Char, isBareChar d = false → d ≠ '"' → d ≠ '\'' → c ≠ d := by
    rintro d hd hdouble hsingle rfl
    simp_all
  have hspace : isSpace c = false := by
    simp [isSpace, hother ' ' (by decide) (by decide) (by decide),
      hother '\t' (by decide) (by decide) (by decide)]
  rw [hc, List.cons_append]
  refine ⟨by simpa using hother '\uFEFF' (by decide) (by decide) (by decide),
    lines?_pairLine fuel hspace ?_ _⟩
  exact ⟨hother '[' (by decide) (by decide) (by decide),
    hother '#' (by decide) (by decide) (by decide), hother '\n' (by decide) (by decide) (by decide),
    hother '\r' (by decide) (by decide) (by decide)⟩

theorem pairText_append (spread : Bool) (k : String) (v : Value) (rest : List Char) :
    pairText spread (⟨[], k⟩, v) ++ rest =
    writeKey k ++ ([' ', '=', ' '] ++ writeValue spread v ++ rest) := by
  simp [pairText, writePair]

theorem readsLines_pair (spread : Bool) {v : Value} (hv : v.Sound)
    (hdepth : v.nesting < nestingLimit) :
    ReadsLines (pairText spread (⟨[], k⟩, v) ++ ['\n']) [.pair (⟨[], k⟩, v)] := by
  refine ReadsLines.of_step ?_ (by simp) fun fuel rest => ?_
  · rw [pairText_append]
    exact (lines?_key 0 k _).1
  · have hpair := readsSpaced_pair? (k := k) (hv.reads spread (Nat.le_sub_one_of_lt hdepth)) []
        ('\n' :: rest) (by simp)
      (delimits_lineEnd rest)
    have hline : pairLine? (pairText spread (⟨[], k⟩, v) ++ '\n' :: rest) =
        some (.pair (⟨[], k⟩, v), rest) := by
      have hdrop : ('\n' :: rest).dropWhile isSpace = '\n' :: rest := rfl
      rw [List.nil_append, hdrop] at hpair
      simp only [pairLine?, pairText, hpair]
      rfl
    rw [List.append_assoc, List.singleton_append, pairText_append, (lines?_key fuel k _).2,
      ← pairText_append, hline]
    rfl

theorem endsKey_bracket (r : List Char) : EndsKey (']' :: r) := by
  simp [EndsKey]
  decide

theorem writePath_ne_bracket (parents : List String) (k : String) (r s : List Char) :
    writePath (parents ++ [k]) ++ r ≠ '[' :: s := by
  obtain ⟨j, js, hjs⟩ := List.exists_cons_of_ne_nil (show parents ++ [k] ≠ [] by simp)
  obtain ⟨c, t, hc, hkey⟩ := exists_writeKey_eq_cons j
  intro heq
  obtain rfl : c = '[' := by
    rw [hjs, writePath, List.map_cons, hc] at heq
    cases js <;> simp_all [List.intercalate]
  exact absurd hkey (by decide)

theorem readsLines_header (hlen : parents.length + 1 < nestingLimit) (repeated : Bool) :
    ReadsLines (headerLine repeated (parents ++ [k])) [.header ⟨parents, k⟩ repeated] := by
  have hpath : ∀ r, keyPath? (writePath (parents ++ [k]) ++ ']' :: r) =
      some (⟨parents, k⟩, ']' :: r) := by
    intro r
    have hblank : ∀ c ∈ [], isSpace c = true := by simp
    have hdot : ((']' :: r).dropWhile isSpace).head? ≠ some '.' := by simp [isSpace]
    simpa [isSpace] using keyPath?_writePath (k := k) hlen hblank (endsKey_bracket r) hdot
  have hend : ∀ r, lineEnd? ('\n' :: r) = some r := fun _ => rfl
  cases repeated with
  | true =>
    refine ReadsLines.of_step (by simp [headerLine]) (by simp [headerLine]) fun fuel rest => ?_
    have htext : headerLine true (parents ++ [k]) ++ rest =
        '[' :: '[' :: (writePath (parents ++ [k]) ++ ']' :: ']' :: '\n' :: rest) := by
      simp [headerLine]
    rw [htext, lines?_header, header?, hpath]
    simp [expect?_cons, hend]
  | false =>
    refine ReadsLines.of_step (by simp [headerLine]) (by simp [headerLine]) fun fuel rest => ?_
    have htext : headerLine false (parents ++ [k]) ++ rest =
        '[' :: (writePath (parents ++ [k]) ++ ']' :: '\n' :: rest) := by
      simp [headerLine]
    rw [htext, lines?_header, header?, hpath]
    · simp [expect?_cons, hend]
    · exact writePath_ne_bracket parents k _

end steps

mutual

/-- Whether a value behind `n` keys keeps within the limits of the reader: no header has too long a
path, and no value without a header is nested too deeply. -/
def fitsReader (n : Nat) : Value → Bool
  | .table es => n < nestingLimit && entriesFit n es
  | .array xs => elementsFit n xs
  | _ => true

def elementsFit (n : Nat) : List Value → Bool
  | [] => true
  | x :: xs => fitsReader n x && elementsFit n xs

def entriesFit (n : Nat) : List (String × Value) → Bool
  | [] => true
  | (_, x) :: es =>
    (if hasHeader x then fitsReader (n + 1) x else x.nesting < nestingLimit) && entriesFit n es

end

section blocks

variable {n : Nat} {parents : List String} {es : Entries}

theorem entriesFit_iff : entriesFit n es = true ↔ ∀ e ∈ es,
    (hasHeader e.2 = true → fitsReader (n + 1) e.2 = true) ∧
    (hasHeader e.2 = false → e.2.nesting < nestingLimit) := by
  induction es with
  | nil => simp [entriesFit]
  | cons e es ih =>
    rw [entriesFit, Bool.and_eq_true, ih, List.forall_mem_cons]
    refine and_congr_left fun _ => ?_
    split <;> simp_all

/-- Pairs without headers that the reader takes. -/
def PlainEntries (es : Entries) : Prop := ∀ e ∈ es, e.2.Sound ∧ e.2.nesting < nestingLimit

theorem plainEntries_bodyOf (hsound : Value.EntriesSound es) (hfit : entriesFit n es = true) :
    PlainEntries (bodyOf es) := by
  intro e he
  obtain ⟨he, hbody⟩ := List.mem_filter.mp he
  exact ⟨Value.entriesSound_iff.mp hsound e he,
    (entriesFit_iff.mp hfit e he).2 (by simpa using hbody)⟩

def bodyText (spread : Bool) (es : Entries) : List Char :=
  (writePairs spread es).flatMap fun p => p ++ ['\n']

theorem readsLines_bodyText (spread : Bool) (h : PlainEntries es) :
    ReadsLines (bodyText spread es) ((plainPairs es).map .pair) := by
  induction es with
  | nil => exact ReadsLines.nil
  | cons e es ih =>
    obtain ⟨⟨hsound, hdepth⟩, hes⟩ := List.forall_mem_cons.mp h
    exact (readsLines_pair spread hsound hdepth).append (ih hes)

theorem bodyText_eq_nil (spread : Bool) (es : Entries) : bodyText spread es = [] ↔ es = [] := by
  cases es <;> simp [bodyText, writePairs]

def sectionLines (s : Section) : List Line := .header s.path s.repeated :: s.pairs.map .pair

/-- A table is written under its header, unless it holds nothing but tables. -/
theorem ownLines_eq (spread repeated : Bool) (parents : List String) (k : String) (es : Entries) :
    ownLines spread repeated (parents ++ [k]) es =
        headerLine repeated (parents ++ [k]) ++ bodyText spread (bodyOf es) ∧
      (ownSections repeated parents k es).flatMap sectionLines =
        .header ⟨parents, k⟩ repeated :: (plainPairs (bodyOf es)).map .pair ∨
    OnlyTables es ∧ ownLines spread repeated (parents ++ [k]) es = [] ∧
      (ownSections repeated parents k es).flatMap sectionLines = [] := by
  have hbody := bodyText_eq_nil spread (bodyOf es)
  simp only [bodyText] at hbody
  simp only [ownLines, ownSections, if_neg (show parents ++ [k] ≠ [] by simp), ne_eq, hbody]
  split_ifs with h
  · exact Or.inl ⟨rfl, by simp [sectionLines]⟩
  · simp only [Bool.or_eq_true, decide_eq_true_eq, not_or, Bool.not_eq_true, not_not,
      List.isEmpty_eq_false_iff] at h
    exact Or.inr ⟨⟨h.1.2, h.2⟩, rfl, rfl⟩

theorem readsLines_ownLines (spread repeated : Bool) (k : String)
    (hlen : parents.length + 1 < nestingLimit) (h : PlainEntries (bodyOf es)) :
    ReadsLines (ownLines spread repeated (parents ++ [k]) es)
      ((ownSections repeated parents k es).flatMap sectionLines) := by
  rcases ownLines_eq spread repeated parents k es with ⟨htext, hlines⟩ | ⟨-, htext, hlines⟩
  · rw [htext, hlines]
    exact (readsLines_header (k := k) hlen repeated).append (readsLines_bodyText spread h)
  · rw [htext, hlines]
    exact ReadsLines.nil

/-- The blocks of a text are read one by one. -/
def ReadsBlocks (blocks : List (List Char)) (lines : List Line) : Prop :=
  ∃ parts, List.Forall₂ ReadsLines blocks parts ∧ parts.flatten = lines

namespace ReadsBlocks

variable {bs bs' : List (List Char)} {ls ls' : List Line}

theorem nil : ReadsBlocks [] [] := ⟨[], .nil, rfl⟩

theorem append (h : ReadsBlocks bs ls) (h' : ReadsBlocks bs' ls') :
    ReadsBlocks (bs ++ bs') (ls ++ ls') := by
  obtain ⟨parts, hparts, rfl⟩ := h
  obtain ⟨parts', hparts', rfl⟩ := h'
  exact ⟨parts ++ parts', List.rel_append hparts hparts', List.flatten_append⟩

theorem cons {b : List Char} {l : List Line} (h : ReadsLines b l) (h' : ReadsBlocks bs ls) :
    ReadsBlocks (b :: bs) (l ++ ls) := by
  obtain ⟨parts, hparts, rfl⟩ := h'
  exact ⟨l :: parts, .cons h hparts, rfl⟩

theorem eq_nil_of_readsLines {l : List Line} (h : ReadsLines [] l) : l = [] := by
  obtain ⟨n, hn, hread⟩ := h.read
  obtain rfl : n = 0 := by simpa using hn
  have hnothing := hread 1 []
  simpa [lines?] using hnothing

/-- Blank lines between the blocks, and the blocks without lines left out, change nothing. -/
theorem joined (h : ReadsBlocks bs ls) :
    ReadsLines (['\n'].intercalate (bs.filter (· ≠ []))) ls := by
  obtain ⟨parts, hparts, rfl⟩ := h
  induction hparts with
  | nil => exact ReadsLines.nil
  | @cons b l bs parts hb _ ih =>
    by_cases hempty : b = []
    · subst hempty
      rw [eq_nil_of_readsLines hb]
      simpa using ih
    · rw [List.filter_cons_of_pos (by simpa using hempty), List.flatten_cons]
      cases hrest : bs.filter (· ≠ []) with
      | nil =>
        rw [hrest] at ih
        have hnothing : parts.flatten = [] :=
          eq_nil_of_readsLines (by simpa [List.intercalate] using ih)
        rw [hnothing]
        simpa [List.intercalate] using hb
      | cons c cs =>
        rw [hrest] at ih
        have hjoined := hb.append (ReadsLines.blank.append ih)
        simpa [List.intercalate] using hjoined

end ReadsBlocks

theorem readsBlocks_entryBlocks (spread : Bool) (hsound : Value.EntriesSound es)
    (hfit : entriesFit parents.length es = true)
    (h : ∀ e ∈ es, fitsReader (parents.length + 1) e.2 = true →
      ReadsBlocks (blocks spread false (parents ++ [e.1]) e.2)
      ((sectionsOf false parents e.1 e.2).flatMap sectionLines)) :
    ReadsBlocks (entryBlocks spread parents es)
    ((entrySections parents es).flatMap sectionLines) := by
  induction es with
  | nil => exact ReadsBlocks.nil
  | cons e es ih =>
    obtain ⟨he, hes⟩ := List.forall_mem_cons.mp h
    obtain ⟨hfite, hfites⟩ := List.forall_mem_cons.mp (entriesFit_iff.mp hfit)
    have hrest := ih hsound.2 (entriesFit_iff.mpr hfites) hes
    rw [entryBlocks, entrySections, List.flatMap_append]
    by_cases hheader : hasHeader e.2 = true
    · rw [if_pos hheader, if_pos hheader]
      exact (he (hfite.1 hheader)).append hrest
    · rw [if_neg hheader, if_neg hheader]
      exact hrest

theorem Value.Sound.readsBlocks {v : Value} (h : v.Sound)
    (hfit : fitsReader (parents.length + 1) v = true) (spread repeated : Bool) (k : String) :
    ReadsBlocks (blocks spread repeated (parents ++ [k]) v)
      ((sectionsOf repeated parents k v).flatMap sectionLines) := by
  induction v using Value.induct generalizing repeated parents k with
  | array xs ih =>
    rw [Sound, elementsSound_iff] at h
    rw [fitsReader] at hfit
    simp only [blocks, sectionsOf]
    induction xs with
    | nil => exact ReadsBlocks.nil
    | cons x xs ihxs =>
      obtain ⟨hx, hxs⟩ := List.forall_mem_cons.mp h
      obtain ⟨ihx, ihrest⟩ := List.forall_mem_cons.mp ih
      rw [elementsFit, Bool.and_eq_true] at hfit
      rw [elementBlocks, elementSections, List.flatMap_append]
      exact (ihx hx hfit.1 true k).append (ihxs ihrest hxs hfit.2)
  | table es ih =>
    rw [Sound] at h
    rw [fitsReader, Bool.and_eq_true, decide_eq_true_eq] at hfit
    obtain ⟨hlen, hentries⟩ := hfit
    rw [blocks, sectionsOf, List.flatMap_append]
    have hentries' : entriesFit (parents ++ [k]).length es = true := by simpa using hentries
    have htables := readsBlocks_entryBlocks spread h.2 hentries' fun e he hfite =>
      ih e he (entriesSound_iff.mp h.2 e he) hfite false e.1
    exact .cons (readsLines_ownLines spread repeated k hlen (plainEntries_bodyOf h.2 hentries))
      htables
  | _ => exact ReadsBlocks.nil

theorem sections_pairs (pairs : List (KeyPath × Value)) (ls : List Line) :
    sections (pairs.map .pair ++ ls) = (pairs ++ (sections ls).1, (sections ls).2) := by
  induction pairs with
  | nil => rfl
  | cons p pairs ih => simp [sections, ih]

theorem sections_sectionLines (ss : List Section) :
    sections (ss.flatMap sectionLines) = ([], ss) := by
  induction ss with
  | nil => rfl
  | cons s ss ih => simp [sectionLines, sections, sections_pairs, ih]

theorem dropMark_eq_self {cs : List Char} (h : cs.head? ≠ some '\uFEFF') : dropMark cs = cs := by
  unfold dropMark
  split
  · simp at h
  · rfl

theorem read?_ofList {cs : List Char} (h : cs.head? ≠ some '\uFEFF') :
    read? (String.ofList cs) = (lines? (cs.length + 1) cs).bind tableOf? := by
  rw [read?, String.toList_ofList, dropMark_eq_self h]
  rfl

theorem write_eq (spread : Bool) (es : Entries) : write spread es =
    String.ofList (['\n'].intercalate
    ((bodyText spread (bodyOf es) :: entryBlocks spread [] es).filter (· ≠ []))) := by
  simp [write, blocks, ownLines, bodyText]

/-- The lines that a table is written as are read as this table, with its tables behind all else. -/
theorem tableOf?_lines (hsound : (Value.table es).Sound) :
    tableOf? ((plainPairs (bodyOf es)).map .pair ++ (entrySections [] es).flatMap sectionLines) =
      some (bodyOf es ++ arrangedTables es) := by
  obtain ⟨hpairs, inner, hinner, hvalue⟩ := hsound.fills_and_gathers.1 es rfl
  rw [arranged, Value.table.injEq] at hvalue
  simp only [tableOf?, sections_pairs, sections_sectionLines, List.append_nil, hpairs, hinner,
    hvalue, Option.bind_eq_bind, Option.bind_some, Option.pure_def]

/-- A table that is written as a file is read back, with its tables behind all else. -/
theorem read?_write (hsound : (Value.table es).Sound) (hfit : entriesFit 0 es = true)
    (spread : Bool) :
    read? (write spread es) = some (bodyOf es ++ arrangedTables es) := by
  have htables :
      ReadsBlocks (entryBlocks spread [] es) ((entrySections [] es).flatMap sectionLines) :=
    readsBlocks_entryBlocks spread hsound.2 hfit fun e he hfite =>
      (Value.entriesSound_iff.mp hsound.2 e he).readsBlocks hfite spread false e.1
  have hbody := readsLines_bodyText spread (plainEntries_bodyOf hsound.2 hfit)
  obtain ⟨hmark, n, hn, hread⟩ := (ReadsBlocks.cons hbody htables).joined
  set text :=
    ['\n'].intercalate ((bodyText spread (bodyOf es) :: entryBlocks spread [] es).filter (· ≠ []))
  have hlines : lines? (text.length + 1) text =
      some ((plainPairs (bodyOf es)).map .pair ++ (entrySections [] es).flatMap sectionLines) := by
    have hall := hread (text.length - n + 1) []
    rw [List.append_nil, show text.length - n + 1 + n = text.length + 1 by omega] at hall
    rw [hall]
    simp [lines?]
  rw [write_eq, read?_ofList hmark, hlines, Option.bind_some, tableOf?_lines hsound]

end blocks

end SlotBuild.Toml
