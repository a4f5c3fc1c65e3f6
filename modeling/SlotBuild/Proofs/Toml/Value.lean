import SlotBuild.Proofs.Toml.Key
import SlotBuild.Proofs.Toml.Table
import SlotBuild.Proofs.Toml.Word
import SlotBuild.Toml.Printer
import SlotBuild.Toml.Reader

/-! A value is read back from its text, where as many arrays and tables may stand in one another as
it has. -/

namespace SlotBuild.Toml

namespace Value

/-- Induction on a value by way of its elements and entries. -/
theorem induct {P : Value → Prop} (string : ∀ s, P (.string s)) (integer : ∀ i, P (.integer i))
    (float : ∀ x, P (.float x)) (boolean : ∀ b, P (.boolean b)) (datetime : ∀ d, P (.datetime d))
    (array : ∀ xs, (∀ x ∈ xs, P x) → P (.array xs))
    (table : ∀ es, (∀ e ∈ es, P e.2) → P (.table es)) :
    ∀ v, P v
  | .string s => string s
  | .integer i => integer i
  | .float x => float x
  | .boolean b => boolean b
  | .datetime d => datetime d
  | .array xs => array xs fun x _ => induct string integer float boolean datetime array table x
  | .table es => table es fun e _ => induct string integer float boolean datetime array table e.2
termination_by v => sizeOf v
decreasing_by
  all_goals simp_wf
  · have := List.sizeOf_lt_of_mem ‹_›
    omega
  · have := List.sizeOf_lt_of_mem ‹_›
    have : sizeOf e = 1 + sizeOf e.1 + sizeOf e.2 := by cases e; rfl
    omega

mutual

/-- A value that can be written: its numbers and dates are in range, and its tables have each key
once. -/
def Sound : Value → Prop
  | integer i => fitsInteger i = true
  | float x => x.Canonical
  | datetime d => d.Valid
  | array xs => ElementsSound xs
  | table es => (es.map (·.1)).Nodup ∧ EntriesSound es
  | _ => True

def ElementsSound : List Value → Prop
  | [] => True
  | x :: xs => x.Sound ∧ ElementsSound xs

def EntriesSound : List (String × Value) → Prop
  | [] => True
  | (_, x) :: es => x.Sound ∧ EntriesSound es

end

theorem elementsSound_iff {xs : List Value} : ElementsSound xs ↔ ∀ x ∈ xs, x.Sound := by
  induction xs with
  | nil => simp [ElementsSound]
  | cons x xs ih => rw [ElementsSound, ih, List.forall_mem_cons]

theorem entriesSound_iff {es : Entries} : EntriesSound es ↔ ∀ e ∈ es, e.2.Sound := by
  induction es with
  | nil => simp [EntriesSound]
  | cons e es ih => rw [EntriesSound, ih, List.forall_mem_cons]

mutual

/-- How many arrays and tables stand in one another. -/
def nesting : Value → Nat
  | array xs => elementsNesting xs + 1
  | table es => entriesNesting es + 1
  | _ => 0

def elementsNesting : List Value → Nat
  | [] => 0
  | x :: xs => max x.nesting (elementsNesting xs)

def entriesNesting : List (String × Value) → Nat
  | [] => 0
  | (_, x) :: es => max x.nesting (entriesNesting es)

end

theorem nesting_le_elements {xs : List Value} : ∀ x ∈ xs, x.nesting ≤ elementsNesting xs := by
  induction xs with
  | nil => simp
  | cons x xs ih =>
    rw [elementsNesting]
    exact List.forall_mem_cons.mpr
      ⟨Nat.le_max_left _ _, fun y hy => Nat.le_trans (ih y hy) (Nat.le_max_right _ _)⟩

theorem nesting_le_entries {es : Entries} : ∀ e ∈ es, e.2.nesting ≤ entriesNesting es := by
  induction es with
  | nil => simp
  | cons e es ih =>
    rw [entriesNesting]
    exact List.forall_mem_cons.mpr
      ⟨Nat.le_max_left _ _, fun y hy => Nat.le_trans (ih y hy) (Nat.le_max_right _ _)⟩

end Value

section trivia

variable {pre rest : List Char} {c : Char}

theorem skipTrivia_append (h : ∀ c ∈ pre, c = ' ' ∨ c = '\n') (rest : List Char) :
    skipTrivia false (pre ++ rest) = skipTrivia false rest := by
  induction pre with
  | nil => rfl
  | cons c pre ih =>
    obtain ⟨hc, hpre⟩ := List.forall_mem_cons.mp h
    rw [List.cons_append, ← ih hpre]
    rcases hc with rfl | rfl
    · rw [skipTrivia]
      · rfl
      · simp
    · rw [skipTrivia]
      · rfl
      · simp

/-- The first character of a value: nothing that is skipped in front of values, and no bracket that
closes an array. -/
structure StartsValue (c : Char) : Prop where
  space : isSpace c = false
  trivia : c ≠ '\n' ∧ c ≠ '\r' ∧ c ≠ '#'
  bracket : c ≠ ']'

theorem skipTrivia_cons (hspace : isSpace c = false) (h : c ≠ '\n' ∧ c ≠ '\r' ∧ c ≠ '#')
    (rest : List Char) :
    skipTrivia false (c :: rest) = c :: rest := by
  rw [skipTrivia]
  · simp [hspace, h]
  · simp [h.2.1]

end trivia

/-- The text of `v` starts as values do and is read as `v`, where values may be `depth` deep. -/
structure Reads (spread : Bool) (depth : Nat) (v : Value) : Prop where
  starts : ∃ c r, writeValue spread v = c :: r ∧ StartsValue c
  value : ∀ rest, Delimits rest → value? depth (writeValue spread v ++ rest) = some (v, rest)

section flat

variable {spread : Bool} {depth : Nat} {v : Value}

theorem value?_flat {c : Char} (harray : c ≠ '[') (htable : c ≠ '{') (r : List Char) :
    value? depth (c :: r) = flat? (c :: r) := by
  cases depth with
  | zero => rfl
  | succ depth =>
    rw [value?]
    · simpa using harray
    · simpa using htable

theorem Reads.word {word : List Char} (htext : writeValue spread v = word)
    (hword : ∀ c ∈ word, isWordChar c = true) (hv : wordValue? word = some v) :
    Reads spread depth v := by
  have hne : word ≠ [] := by
    rintro rfl
    have hnil : wordValue? [] = none := rfl
    rw [hnil] at hv
    simp at hv
  obtain ⟨c, r, rfl⟩ := List.exists_cons_of_ne_nil hne
  have hother : ∀ d : Char, isWordChar d = false → c ≠ d := by
    rintro d hd rfl
    simp [hword c List.mem_cons_self] at hd
  refine ⟨⟨c, r, htext, ?_, ?_, ?_⟩, fun rest hrest => ?_⟩
  · simp [isSpace, hother ' ' (by decide), hother '\t' (by decide)]
  · exact ⟨hother '\n' (by decide), hother '\r' (by decide), hother '#' (by decide)⟩
  · exact hother ']' (by decide)
  · rw [htext, List.cons_append, value?_flat (hother '[' (by decide)) (hother '{' (by decide)),
      flat?]
    · exact word?_append hword hv hrest
    · simpa using hother '"' (by decide)
    · simpa using hother '\'' (by decide)

theorem writeQuoted_eq_cons (form : QuoteForm) (cs : List Char) :
    ∃ c r, writeQuoted form cs = c :: r ∧ (c = '"' ∨ c = '\'') := by
  cases form
  · exact ⟨'"', _, rfl, Or.inl rfl⟩
  · exact ⟨'\'', _, rfl, Or.inr rfl⟩
  · exact ⟨'"', _, rfl, Or.inl rfl⟩
  · exact ⟨'\'', _, rfl, Or.inr rfl⟩

theorem Reads.string (spread : Bool) (depth : Nat) (s : String) :
    Reads spread depth (.string s) := by
  obtain ⟨c, r, hquote, hc⟩ := writeQuoted_eq_cons (quoteForm s.toList) s.toList
  have htext : writeValue spread (.string s) = c :: r := hquote
  refine ⟨⟨c, r, htext, ?_⟩, fun rest hrest => ?_⟩
  · rcases hc with rfl | rfl <;> exact ⟨by decide, by decide, by decide⟩
  · have hread := quoted?_writeQuoted s.toList hrest.quotes
    rw [hquote, List.cons_append] at hread
    rw [htext, List.cons_append]
    rcases hc with rfl | rfl <;> simp [value?_flat, flat?, hread]

end flat

section arrays

variable {spread : Bool} {depth : Nat} {xs : List Value}

theorem writeEach_eq_map (spread : Bool) (xs : List Value) :
    writeEach spread xs = xs.map (writeValue spread) := by
  induction xs with
  | nil => rfl
  | cons x xs ih => rw [writeEach, ih, List.map_cons]

theorem delimits_of_ne {c : Char} (hword : isWordChar c = false) (hquotes : c ≠ '"' ∧ c ≠ '\'')
    (hspace : c ≠ ' ') (r : List Char) : Delimits (c :: r) where
  word := by simpa using hword
  quotes := by simpa using hquotes
  time := by
    intro d s heq
    exact absurd (List.cons.inj heq).1 hspace

theorem delimits_comma (r : List Char) : Delimits (',' :: r) :=
  delimits_of_ne (by decide) (by decide) (by decide) r

theorem delimits_bracket (r : List Char) : Delimits (']' :: r) :=
  delimits_of_ne (by decide) (by decide) (by decide) r

theorem skipTrivia_sign {c : Char} (hc : c = ',' ∨ c = ']') (r : List Char) :
    skipTrivia false (c :: r) = c :: r := by
  rcases hc with rfl | rfl <;> exact skipTrivia_cons (by decide) (by decide) r

/-- One element, with the comma or the bracket behind it. -/
theorem elements?_element {x : Value} (hx : Reads spread depth x) {pre : List Char}
    (hpre : ∀ c ∈ pre, c = ' ' ∨ c = '\n') (fuel : Nat) (r : List Char) :
    elements? (value? depth) (fuel + 1) (pre ++ (writeValue spread x ++ ',' :: r)) =
        (elements? (value? depth) fuel r).map (fun p => (x :: p.1, p.2)) ∧
      elements? (value? depth) (fuel + 1) (pre ++ (writeValue spread x ++ ']' :: r)) =
      some ([x], r) := by
  obtain ⟨c, t, htext, hspace, htrivia, hbracket⟩ := hx.starts
  have hcomma := hx.value _ (delimits_comma r)
  have hclose := hx.value _ (delimits_bracket r)
  rw [htext, List.cons_append] at hcomma hclose
  have hopen : ∀ s r, c :: s ≠ ']' :: r := fun s r heq => hbracket (List.cons.inj heq).1
  rw [htext]
  constructor
  · rw [List.cons_append, elements?, skipTrivia_append hpre, skipTrivia_cons hspace htrivia]
    split
    case h_1 heq => exact absurd heq (hopen _ _)
    case h_2 =>
      simp only [hcomma, Option.bind_eq_bind, Option.bind_some, skipTrivia_sign (Or.inl rfl)]
      cases elements? (value? depth) fuel r <;> rfl
  · rw [List.cons_append, elements?, skipTrivia_append hpre, skipTrivia_cons hspace htrivia]
    split
    case h_1 heq => exact absurd heq (hopen _ _)
    case h_2 =>
      simp only [hclose, Option.bind_eq_bind, Option.bind_some, skipTrivia_sign (Or.inr rfl)]

/-- The lines of an array that has one line for each element. -/
def elementLines (spread : Bool) (xs : List Value) : List Char :=
  xs.flatMap (fun x => "\n    ".toList ++ writeValue spread x ++ [',']) ++ "\n]".toList

theorem elementLines_cons (spread : Bool) (x : Value) (xs : List Value) (rest : List Char) :
    elementLines spread (x :: xs) ++ rest =
      "\n    ".toList ++ (writeValue spread x ++ ',' :: (elementLines spread xs ++ rest)) := by
  simp only [elementLines, List.flatMap_cons, List.append_assoc, List.cons_append, List.nil_append]

theorem elements?_elementLines (h : ∀ x ∈ xs, Reads spread depth x) {fuel : Nat}
    (hfuel : xs.length < fuel) (rest : List Char) :
    elements? (value? depth) fuel (elementLines spread xs ++ rest) = some (xs, rest) := by
  induction xs generalizing fuel with
  | nil =>
    obtain ⟨fuel, rfl⟩ := Nat.exists_eq_succ_of_ne_zero (Nat.ne_of_gt hfuel)
    rfl
  | cons x xs ih =>
    obtain ⟨hx, hxs⟩ := List.forall_mem_cons.mp h
    obtain ⟨fuel, rfl⟩ := Nat.exists_eq_succ_of_ne_zero (Nat.ne_zero_of_lt hfuel)
    have hpre : ∀ c ∈ "\n    ".toList, c = ' ' ∨ c = '\n' := by simp
    rw [elementLines_cons, (elements?_element hx hpre fuel _).1, ih hxs (Nat.lt_of_succ_lt_succ hfuel)]
    rfl

theorem elements?_commaJoined {x : Value} (h : ∀ y ∈ x :: xs, Reads spread depth y) {fuel : Nat}
    (hfuel : xs.length < fuel) {pre : List Char} (hpre : ∀ c ∈ pre, c = ' ' ∨ c = '\n')
    (rest : List Char) :
    elements? (value? depth) fuel
    (pre ++ (commaJoined ((x :: xs).map (writeValue spread)) ++ ']' :: rest)) =
      some (x :: xs, rest) := by
  induction xs generalizing x pre fuel with
  | nil =>
    obtain ⟨fuel, rfl⟩ := Nat.exists_eq_succ_of_ne_zero (Nat.ne_of_gt hfuel)
    have htext : commaJoined ([x].map (writeValue spread)) = writeValue spread x := by
      simp [commaJoined, List.intercalate]
    rw [htext]
    exact (elements?_element (h x List.mem_cons_self) hpre fuel rest).2
  | cons y ys ih =>
    obtain ⟨fuel, rfl⟩ := Nat.exists_eq_succ_of_ne_zero (Nat.ne_zero_of_lt hfuel)
    have htext : commaJoined ((x :: y :: ys).map (writeValue spread)) ++ ']' :: rest =
        writeValue spread x ++ ',' ::
        ([' '] ++ (commaJoined ((y :: ys).map (writeValue spread)) ++ ']' :: rest)) := by
      simp [commaJoined, List.intercalate]
    have hys := ih (fun z hz => h z (List.mem_cons_of_mem x hz)) (Nat.lt_of_succ_lt_succ hfuel)
      (List.forall_mem_singleton.mpr (Or.inl rfl))
    rw [htext, (elements?_element (h x List.mem_cons_self) hpre fuel _).1, hys]
    rfl

theorem length_le_elementLines (spread : Bool) (xs : List Value) :
    xs.length ≤ (elementLines spread xs).length := by
  induction xs with
  | nil => simp
  | cons x xs ih =>
    simp only [elementLines, List.flatMap_cons, List.length_append, List.length_cons] at ih ⊢
    omega

theorem writeValue_array (spread : Bool) (xs : List Value) :
    writeValue spread (.array xs) = '[' :: elementLines spread xs ∨
    writeValue spread (.array xs) = '[' :: (commaJoined (xs.map (writeValue spread)) ++ [']']) := by
  by_cases hlines : (spread && 2 ≤ xs.length) = true
  · exact Or.inl (by simp [writeValue, writeElements, writeEach_eq_map, elementLines, hlines,
      List.flatMap_map])
  · exact Or.inr (by simp [writeValue, writeElements, writeEach_eq_map, hlines])

theorem startsValue_bracket : StartsValue '[' := ⟨by decide, by decide, by decide⟩

theorem Reads.array (h : ∀ x ∈ xs, Reads spread depth x) :
    Reads spread (depth + 1) (.array xs) := by
  rcases writeValue_array spread xs with htext | htext
  · refine ⟨⟨'[', _, htext, startsValue_bracket⟩, fun rest _ => ?_⟩
    have hlen := length_le_elementLines spread xs
    rw [htext, List.cons_append, value?,
      elements?_elementLines h (by rw [List.length_append]; omega)]
    rfl
  · refine ⟨⟨'[', _, htext, startsValue_bracket⟩, fun rest _ => ?_⟩
    cases xs with
    | nil => cases spread <;> rfl
    | cons x xs =>
      have hlen :=
        length_le_intercalate ',' [' '] (writeValue spread x) (xs.map (writeValue spread))
      rw [List.length_map] at hlen
      have hread := fun fuel (hfuel : xs.length < fuel) => elements?_commaJoined h hfuel
        (by simp : ∀ c ∈ [], c = ' ' ∨ c = '\n') rest
      rw [htext, List.cons_append, value?, List.append_assoc, List.singleton_append]
      simp only [List.nil_append] at hread
      rw [hread _ (by simp only [commaJoined, List.map_cons, List.length_append]; omega)]
      rfl

end arrays

section braces

variable {spread : Bool} {depth : Nat} {es : Entries}

theorem Reads.unspaced {v : Value} (h : Reads spread depth v) (rest : List Char) :
    Unspaced (writeValue spread v ++ rest) := by
  obtain ⟨c, r, htext, hspace, -, -⟩ := h.starts
  simpa [Unspaced, htext] using hspace

/-- A pair is read as its value is, if that starts as values do. -/
theorem pair?_writePair {k : String} {v : Value} {pre rest : List Char}
    (hpre : ∀ c ∈ pre, isSpace c = true) (hstarts : Unspaced (writeValue spread v ++ rest))
    (value : ReadValue) :
    pair? value (pre ++ (writePair (writeKey k) (writeValue spread v) ++ rest)) =
      (value (writeValue spread v ++ rest)).map fun p =>
      ((⟨[], k⟩, p.1), p.2.dropWhile isSpace) := by
  have htext : pre ++ (writePair (writeKey k) (writeValue spread v) ++ rest) =
      pre ++ (writePath ([] ++ [k]) ++ ' ' :: '=' :: ' ' :: (writeValue spread v ++ rest)) := by
    simp [writePair, writePath, List.intercalate]
  have hends : EndsKey (' ' :: '=' :: ' ' :: (writeValue spread v ++ rest)) := by
    simp [EndsKey]
    decide
  have hdrop : (' ' :: '=' :: ' ' :: (writeValue spread v ++ rest)).dropWhile isSpace =
      '=' :: ' ' :: (writeValue spread v ++ rest) := rfl
  have hkey := keyPath?_writePath (k := k) (by decide : [].length + 1 < nestingLimit) hpre hends
      (by simp [hdrop])
  have hspace : (' ' :: (writeValue spread v ++ rest)).dropWhile isSpace =
      writeValue spread v ++ rest := hstarts.dropWhile
  rw [htext, pair?, hkey, hdrop]
  simp only [Option.bind_eq_bind, Option.bind_some, expect?_cons, hspace, Option.pure_def]
  cases value (writeValue spread v ++ rest) <;> rfl

/-- A pair is read with blanks around it. -/
theorem readsSpaced_pair? {k : String} {v : Value} (h : Reads spread depth v) :
    ReadsSpaced (pair? (value? depth)) Delimits (⟨[], k⟩, v)
    (writePair (writeKey k) (writeValue spread v)) := by
  intro pre rest hpre hrest
  rw [pair?_writePair hpre (h.unspaced rest), h.value rest hrest, Option.map_some]

/-- A pair as it is written in braces. -/
def pairText (spread : Bool) (p : KeyPath × Value) : List Char :=
  writePair (writeKey p.1.key) (writeValue spread p.2)

theorem writePairs_eq_map (spread : Bool) (es : Entries) :
    writePairs spread es = (plainPairs es).map (pairText spread) := by
  induction es with
  | nil => rfl
  | cons e es ih =>
    rw [writePairs, ih]
    rfl

theorem delimits_brace (r : List Char) : Delimits (' ' :: '}' :: r) where
  word := by
    simp
    decide
  quotes := by simp
  time := by
    intro c s heq
    obtain ⟨rfl, -⟩ := List.cons.inj (List.cons.inj heq).2
    decide

theorem inlineTable?_plainPairs (hkeys : (es.map (·.1)).Nodup) :
    inlineTable? (plainPairs es) = some (.table es) := by
  have hnew : ∀ e ∈ es, Nodes.get? e.1 [] = none := fun e _ => rfl
  have hadd := addPairs_plainPairs hkeys hnew
  rw [List.nil_append] at hadd
  simp [inlineTable?, hadd, entriesOf_valueNodes]

theorem commaJoined_eq_append (text : List Char) (texts : List (List Char)) :
    ∃ tail, commaJoined (text :: texts) = text ++ tail := by
  cases texts with
  | nil => exact ⟨[], by simp [commaJoined, List.intercalate]⟩
  | cons next texts =>
    refine ⟨',' :: ' ' :: commaJoined (next :: texts), ?_⟩
    simp [commaJoined, List.intercalate]

/-- A table in braces is read as its pairs are. -/
theorem inline?_pairs (spread : Bool) (e : String × Value) (es : Entries) (rest : List Char)
    (value : ReadValue) :
    let body := commaJoined ((plainPairs (e :: es)).map (pairText spread)) ++ ' ' :: '}' :: rest
    inline? value (' ' :: body) =
    (separated? (pair? value) ',' (body.length + 1) body).bind fun p =>
      (inlineTable? p.1).bind fun t => (expect? '}' p.2).map (t, ·) := by
  obtain ⟨tail, htail⟩ :=
    commaJoined_eq_append (pairText spread (⟨[], e.1⟩, e.2)) ((plainPairs es).map (pairText spread))
  generalize hbody :
    commaJoined ((plainPairs (e :: es)).map (pairText spread)) ++ ' ' :: '}' :: rest = body
  have hkey : body =
      writeKey e.1 ++ ([' ', '=', ' '] ++ writeValue spread e.2 ++ tail ++ ' ' :: '}' :: rest) := by
    have hpairs : plainPairs (e :: es) = (⟨[], e.1⟩, e.2) :: plainPairs es := rfl
    rw [← hbody, hpairs, List.map_cons, htail, pairText, writePair]
    simp only [List.append_assoc]
  have hspaced : (' ' :: body).dropWhile isSpace = body := by
    rw [hkey]
    exact (unspaced_writeKey _ _).dropWhile
  have hopen : ∀ r, body ≠ '}' :: r := by
    obtain ⟨c, t, hwrite, hc⟩ := exists_writeKey_eq_cons e.1
    intro r heq
    rw [hkey, hwrite, List.cons_append] at heq
    rw [(List.cons.inj heq).1] at hc
    exact absurd hc (by decide)
  simp only
  rw [inline?, hspaced]
  split
  · exact absurd rfl (hopen _)
  · refine Option.bind_congr fun p _ => ?_
    obtain ⟨pairs, r⟩ := p
    simp only [Option.map_eq_bind]
    rfl

theorem inline?_commaJoined {e : String × Value} (hkeys : ((e :: es).map (·.1)).Nodup)
    (h : ∀ f ∈ e :: es, Reads spread depth f.2) (rest : List Char) :
    inline? (value? depth)
    (' ' :: (commaJoined ((plainPairs (e :: es)).map (pairText spread)) ++ ' ' :: '}' :: rest)) =
      some (.table (e :: es), rest) := by
  have hread : ∀ p ∈ plainPairs (e :: es),
      ReadsSpaced (pair? (value? depth)) Delimits p (pairText spread p) := by
    intro p hp
    obtain ⟨f, hf, rfl⟩ := List.mem_map.mp hp
    exact readsSpaced_pair? (h f hf)
  obtain ⟨p, ps, hps⟩ : ∃ p ps, plainPairs (e :: es) = p :: ps := ⟨_, _, rfl⟩
  have hlen := length_le_intercalate ',' [' '] (pairText spread p) (ps.map (pairText spread))
  rw [List.length_map] at hlen
  rw [inline?_pairs]
  rw [hps] at hread ⊢
  generalize hbody : commaJoined ((p :: ps).map (pairText spread)) ++ ' ' :: '}' :: rest = body
  have hfuel : ps.length < body.length + 1 := by
    simp only [← hbody, commaJoined, List.map_cons, List.length_append]
    omega
  have hpairs : separated? (pair? (value? depth)) ',' (body.length + 1) body =
      some (p :: ps, '}' :: rest) := by
    have hjoined := separated?_intercalate hread (by decide)
        (by simp [isSpace] : ∀ c ∈ [' '], isSpace c = true) delimits_comma
      (delimits_brace rest) (by simp [isSpace]) hfuel (by simp : ∀ c ∈ [], isSpace c = true)
    rw [List.nil_append, ← commaJoined, hbody] at hjoined
    exact hjoined
  rw [hpairs, ← hps]
  simp only [Option.bind_some, inlineTable?_plainPairs hkeys, expect?_cons, Option.map_some]

theorem writeValue_table (spread : Bool) (e : String × Value) (es : Entries) :
    writeValue spread (.table (e :: es)) =
    '{' :: ' ' :: (commaJoined ((plainPairs (e :: es)).map (pairText spread)) ++ [' ', '}']) := by
  simp [writeValue, writeBraces, writePairs_eq_map, plainPairs]

theorem startsValue_brace : StartsValue '{' := ⟨by decide, by decide, by decide⟩

theorem Reads.table (hkeys : (es.map (·.1)).Nodup) (h : ∀ e ∈ es, Reads spread depth e.2) :
    Reads spread (depth + 1) (.table es) := by
  cases es with
  | nil => exact ⟨⟨'{', _, rfl, startsValue_brace⟩, fun rest _ => rfl⟩
  | cons e es =>
    have htext := writeValue_table spread e es
    refine ⟨⟨'{', _, htext, startsValue_brace⟩, fun rest _ => ?_⟩
    rw [htext, List.cons_append, value?, List.cons_append, List.append_assoc]
    exact inline?_commaJoined hkeys h rest

end braces

/-- Every value that can be written is read back, where values may be as deep as it is. -/
theorem Value.Sound.reads {v : Value} (h : v.Sound) (spread : Bool) {depth : Nat}
    (hdepth : v.nesting ≤ depth) :
    Reads spread depth v := by
  induction v using Value.induct generalizing depth with
  | string s => exact Reads.string spread depth s
  | integer i =>
    obtain ⟨hword, hread⟩ := wordValue?_intChars h
    exact Reads.word rfl hword hread
  | float x =>
    obtain ⟨hword, hread⟩ := wordValue?_floatChars h
    exact Reads.word rfl hword hread
  | boolean b =>
    cases b
    · exact Reads.word (show writeValue spread (.boolean false) = "false".toList from rfl)
        (List.all_eq_true.mp rfl) rfl
    · exact Reads.word (show writeValue spread (.boolean true) = "true".toList from rfl)
        (List.all_eq_true.mp rfl) rfl
  | datetime d => exact Reads.word rfl (isWordChar_datetime d) (wordValue?_datetimeChars h)
  | array xs ih =>
    rw [Sound, elementsSound_iff] at h
    rw [nesting] at hdepth
    obtain ⟨depth, rfl⟩ := Nat.exists_eq_add_of_le' (Nat.le_of_add_left_le hdepth)
    exact Reads.array fun x hx => ih x hx (h x hx)
      (Nat.le_trans (nesting_le_elements x hx) (Nat.le_of_succ_le_succ hdepth))
  | table es ih =>
    rw [Sound, entriesSound_iff] at h
    rw [nesting] at hdepth
    obtain ⟨depth, rfl⟩ := Nat.exists_eq_add_of_le' (Nat.le_of_add_left_le hdepth)
    exact Reads.table h.1 fun e he => ih e he (h.2 e he)
      (Nat.le_trans (nesting_le_entries e he) (Nat.le_of_succ_le_succ hdepth))

end SlotBuild.Toml
