import Mathlib.Tactic.SplitIfs
import SlotBuild.Toml.Quoted

/-! Quoted text is read back in each of its forms. Between triple quotes a quote stands for itself
as long as no three of them follow one another, so the lemmas look two characters ahead. -/

namespace SlotBuild.Toml

section escapes

variable {c : Char} {f : List Char → Read}

theorem codePoint?_hexDigits :
    ∀ n : Fin 0x80, codePoint? (hexDigits n.val) = some (Char.ofNat n.val) ∧
    (hexDigits n.val).length = 4 := by
  decide

theorem lt_of_needsEscape (h : needsEscape c = true) : c.toNat < 0x80 := by
  simp only [needsEscape, Bool.and_eq_true, Bool.or_eq_true, decide_eq_true_eq, beq_iff_eq] at h
  omega

theorem isPlain_of_needsEscape (h : needsEscape c = false) (hline : c ≠ '\n') :
    isPlain c = true := by
  simp only [needsEscape, isPlain] at h ⊢
  by_cases htab : c = '\t'
  · simp [htab]
  · simp only [bne, Bool.and_eq_false_iff, Bool.or_eq_false_iff, decide_eq_false_iff_not] at h ⊢
    simp_all

/-- A reader of text with escapes. -/
structure TakesEscapes (f : List Char → Read) : Prop where
  escaped : ∀ {c x}, escaped? c = some x → ∀ r, f ('\\' :: c :: r) = Read.cons x (f r)
  unit : ∀ {a b c d x}, codePoint? [a, b, c, d] = some x →
    ∀ r, f ('\\' :: 'u' :: a :: b :: c :: d :: r) = Read.cons x (f r)
  plain : ∀ {c}, c ≠ '"' → c ≠ '\\' → isPlain c = true → ∀ r, f (c :: r) = Read.cons c (f r)

theorem ne_unit_of_escaped? {x : Char} (h : escaped? c = some x) : c ≠ 'u' ∧ c ≠ 'U' := by
  constructor <;>
  · rintro rfl
    simp [escaped?] at h

theorem takesEscapes_basicText? : TakesEscapes basicText? where
  escaped h r := by
    obtain ⟨hu, hU⟩ := ne_unit_of_escaped? h
    rw [basicText?]
    · simp [h]
    all_goals simp_all
  unit h r := by
    rw [basicText?, h]
    rfl
  plain hquote hescape h r := by
    rw [basicText?]
    · simp [h, hescape]
    all_goals simp_all

theorem lineIsOver_of_escaped? {x : Char} (h : escaped? c = some x) (r : List Char) :
    lineIsOver (c :: r) = false := by
  have hspace : isSpace c = false := by
    rw [escaped?.eq_def] at h
    split at h <;> simp_all [isSpace]
  have hline : c ≠ '\n' ∧ c ≠ '\r' := by
    constructor <;>
    · rintro rfl
      simp [escaped?] at h
  simp only [lineIsOver, List.dropWhile_cons, hspace, Bool.false_eq_true, if_false]
  split <;> simp_all

theorem takesEscapes_basicLines? : TakesEscapes (basicLines? false) where
  escaped h r := by
    obtain ⟨hu, hU⟩ := ne_unit_of_escaped? h
    rw [basicLines?]
    · simp [h, lineIsOver_of_escaped? h r]
    all_goals simp_all
  unit h r := by
    rw [basicLines?, h]
    rfl
  plain {c} hquote hescape h r := by
    have hreturn : c ≠ '\r' := by
      rintro rfl
      simp [isPlain] at h
    rw [basicLines?]
    · simp [h, hescape]
    all_goals simp_all

theorem TakesEscapes.writeChar (hf : TakesEscapes f) (lines : Bool) (hquote : c ≠ '"')
    (r : List Char) (hline : lines = true → f ('\n' :: r) = Read.cons '\n' (f r)) :
    f (writeChar lines c ++ r) = Read.cons c (f r) := by
  rw [Toml.writeChar]
  split_ifs with h1 h2 h3 h4 h5 h6 h7 h8
  · subst h1
    exact hf.escaped rfl r
  · subst h2
    exact hf.escaped rfl r
  · subst h3
    exact hline h4
  · subst h3
    exact hf.escaped rfl r
  · subst h5
    exact hf.escaped rfl r
  · subst h6
    exact hf.escaped rfl r
  · subst h7
    exact hf.escaped rfl r
  · obtain ⟨hpoint, hlen⟩ := codePoint?_hexDigits ⟨c.toNat, lt_of_needsEscape h8⟩
    rw [Char.ofNat_toNat] at hpoint
    exact hf.unit hpoint r
  · exact hf.plain hquote h1 (isPlain_of_needsEscape (by simpa using h8) h3) r

end escapes

section readers

variable {cs rest : List Char}

theorem basicText?_writeBasic (run : Nat) (cs rest : List Char) :
    basicText? (writeBasic false run cs ++ '"' :: rest) = some (cs, rest) := by
  induction cs generalizing run with
  | nil => simp [writeBasic, basicText?]
  | cons c cs ih =>
    simp only [writeBasic, Bool.false_and, Bool.false_eq_true, if_false]
    split_ifs with hc
    · rw [List.cons_append, List.cons_append, takesEscapes_basicText?.escaped rfl, ih, hc]
      rfl
    · rw [List.append_assoc, takesEscapes_basicText?.writeChar false hc _ (by simp), ih]
      rfl

theorem literalText?_append (hplain : ∀ c ∈ cs, isPlain c = true ∧ c ≠ '\'') (rest : List Char) :
    literalText? (cs ++ '\'' :: rest) = some (cs, rest) := by
  induction cs with
  | nil => simp [literalText?]
  | cons c cs ih =>
    obtain ⟨⟨hc, hquote⟩, hcs⟩ := List.forall_mem_cons.mp hplain
    rw [List.cons_append, literalText?, if_pos hc, ih hcs]
    · rfl
    · simpa using hquote

/-- No three of the character follow one another. -/
def FewerThanThree (q : Char) (cs : List Char) : Prop := ¬[q, q, q] <:+: cs

theorem le_longestRun (q : Char) (run best : Nat) (cs : List Char) :
    best ≤ longestRun q run best cs := by
  induction cs generalizing run best with
  | nil => exact Nat.le_refl _
  | cons c cs ih =>
    rw [longestRun]
    split
    · exact Nat.le_trans (Nat.le_max_left _ _) (ih _ _)
    · exact ih _ _

theorem fewerThanThree_of_longestRun {q : Char} {run best : Nat}
    (h : longestRun q run best cs ≤ 2) :
    FewerThanThree q cs := by
  rintro ⟨before, after, rfl⟩
  induction before generalizing run best with
  | nil =>
    simp only [List.nil_append, List.cons_append, longestRun, if_true] at h
    have := le_longestRun q (run + 1 + 1 + 1)
        (max (max (max best (run + 1)) (run + 1 + 1)) (run + 1 + 1 + 1)) after
    omega
  | cons c before ih =>
    simp only [List.cons_append, longestRun] at h
    split at h
    · exact ih h
    · exact ih h

/-- Closing quotes, behind which no further quote stands. -/
def Closing (q : Char) (rest : List Char) : List Char := q :: q :: q :: rest

/-- Up to two quotes may stand before the closing ones. -/
theorem literalLines?_closing (hrest : rest.head? ≠ some '\'') :
    literalLines? (Closing '\'' rest) = some ([], rest) ∧
      literalLines? ('\'' :: Closing '\'' rest) = some (['\''], rest) ∧
      literalLines? ('\'' :: '\'' :: Closing '\'' rest) = some (['\'', '\''], rest) := by
  have hne : ∀ r, rest ≠ '\'' :: r := by
    rintro r rfl
    exact hrest rfl
  simp only [Closing]
  refine ⟨?_, ?_, ?_⟩ <;> rw [literalLines?] <;> simp [hne]

theorem literalLines?_cons {c : Char} (hplain : isPlain c = true ∨ c = '\n')
    (hquotes : c = '\'' → ∀ r, rest ≠ '\'' :: '\'' :: r) :
    literalLines? (c :: rest) = Read.cons c (literalLines? rest) := by
  have hreturn : c ≠ '\r' := by
    rintro rfl
    simp [isPlain] at hplain
  rw [literalLines?]
  · simp [hplain]
  all_goals simp_all

theorem literalLines?_append (hplain : ∀ c ∈ cs, isPlain c = true ∨ c = '\n')
    (hquotes : FewerThanThree '\'' cs) (hrest : rest.head? ≠ some '\'') :
    literalLines? (cs ++ Closing '\'' rest) = some (cs, rest) := by
  obtain ⟨hclose0, hclose1, hclose2⟩ := literalLines?_closing hrest
  induction cs with
  | nil => exact hclose0
  | cons c cs ih =>
    obtain ⟨hc, hcs⟩ := List.forall_mem_cons.mp hplain
    by_cases hends : c = '\'' ∧ (cs = [] ∨ cs = ['\''])
    · obtain ⟨rfl, rfl | rfl⟩ := hends
      · exact hclose1
      · exact hclose2
    · have hquotes' : FewerThanThree '\'' cs :=
        fun h => hquotes (h.trans (List.suffix_cons c cs).isInfix)
      rw [List.cons_append, literalLines?_cons hc, ih hcs hquotes']
      · rfl
      · rintro rfl r hr
        match cs, hends, hquotes, hr with
        | [], hends, _, _ => exact hends ⟨rfl, Or.inl rfl⟩
        | [d], hends, _, hr => exact hends ⟨rfl, Or.inr (by simp_all)⟩
        | d :: e :: cs, _, hquotes, hr =>
          obtain ⟨rfl, rfl, -⟩ : d = '\'' ∧ e = '\'' ∧ _ := by simpa using hr
          exact hquotes ⟨[], cs, rfl⟩

theorem basicLines?_closing (hrest : rest.head? ≠ some '"') :
    basicLines? false (Closing '"' rest) = some ([], rest) ∧
      basicLines? false ('"' :: Closing '"' rest) = some (['"'], rest) ∧
      basicLines? false ('"' :: '"' :: Closing '"' rest) = some (['"', '"'], rest) := by
  have hne : ∀ r, rest ≠ '"' :: r := by
    rintro r rfl
    exact hrest rfl
  simp only [Closing]
  refine ⟨?_, ?_, ?_⟩ <;> rw [basicLines?] <;> simp [hne]

theorem basicLines?_quote (hquotes : ∀ r, rest ≠ '"' :: '"' :: r) :
    basicLines? false ('"' :: rest) = Read.cons '"' (basicLines? false rest) := by
  rw [basicLines?]
  · simp [isPlain]
  all_goals simp_all

theorem basicLines?_lineEnd (r : List Char) :
    basicLines? false ('\n' :: r) = Read.cons '\n' (basicLines? false r) := by
  rw [basicLines?] <;> simp

theorem writeChar_ne_quote {lines : Bool} {c : Char} (hquote : c ≠ '"') (r s : List Char) :
    writeChar lines c ++ r ≠ '"' :: s := by
  rw [writeChar]
  split_ifs <;> simp [hquote]

/-- After one quote no two more follow, unless the text ends with them. -/
theorem writeBasic_ne_quotes {run : Nat} {c : Char} (hends : ¬(run = 0 ∧ c = '"' ∧ cs = []))
    (r s : List Char) :
    writeBasic true (run + 1) (c :: cs) ++ r ≠ '"' :: '"' :: s := by
  rw [writeBasic]
  by_cases hc : c = '"'
  · by_cases hrun : run = 0
    · subst hc hrun
      match cs, hends with
      | [], hends => exact absurd ⟨rfl, rfl, rfl⟩ hends
      | d :: cs, _ =>
        by_cases hd : d = '"'
        · simp [writeBasic, hd]
        · intro h
          simp only [Bool.true_and, if_true, writeBasic, if_neg hd] at h
          exact writeChar_ne_quote hd _ _ (by simpa using h)
    · simp [hc, show ¬run + 1 < 2 by omega]
  · rw [if_neg hc, List.append_assoc]
    exact writeChar_ne_quote hc _ _

theorem basicLines?_writeBasic (run : Nat) (cs : List Char) (hrest : rest.head? ≠ some '"') :
    basicLines? false (writeBasic true run cs ++ Closing '"' rest) = some (cs, rest) := by
  obtain ⟨hclose0, hclose1, hclose2⟩ := basicLines?_closing hrest
  induction cs generalizing run with
  | nil => exact hclose0
  | cons c cs ih =>
    by_cases hc : c = '"'
    · subst hc
      by_cases hrun : run < 2
      · have hwrite : writeBasic true run ('"' :: cs) = '"' :: writeBasic true (run + 1) cs := by
          simp [writeBasic, hrun]
        rw [hwrite, List.cons_append]
        match cs, ih with
        | [], _ => exact hclose1
        | d :: cs, ih =>
          by_cases hends : run = 0 ∧ d = '"' ∧ cs = []
          · obtain ⟨rfl, rfl, rfl⟩ := hends
            exact hclose2
          · rw [basicLines?_quote (fun r => writeBasic_ne_quotes hends _ r), ih]
            rfl
      · have hwrite : writeBasic true run ('"' :: cs) = '\\' :: '"' :: writeBasic true 0 cs := by
          simp [writeBasic, hrun]
        rw [hwrite, List.cons_append, List.cons_append, takesEscapes_basicLines?.escaped rfl, ih]
        rfl
    · rw [writeBasic, if_neg hc, List.append_assoc,
        takesEscapes_basicLines?.writeChar true hc _ (fun _ => basicLines?_lineEnd _), ih]
      rfl

end readers

section forms

variable {cs rest : List Char}

theorem dropLineEnd_leadingLineEnd (cs : List Char) {text : List Char}
    (hline : '\n' ∉ cs → text.head? ≠ some '\n') (hreturn : text.head? ≠ some '\r') :
    dropLineEnd (leadingLineEnd cs ++ text) = text := by
  rw [leadingLineEnd]
  split_ifs with hcs
  · rfl
  · have := hline (by simpa using hcs)
    rw [List.nil_append]
    unfold dropLineEnd
    split <;> simp_all

theorem quoted?_basic (h : ∀ r, cs ≠ '"' :: '"' :: r) : quoted? ('"' :: cs) = basicText? cs := by
  rw [quoted?]
  simpa using h

theorem quoted?_literal (h : ∀ r, cs ≠ '\'' :: '\'' :: r) :
    quoted? ('\'' :: cs) = literalText? cs := by
  rw [quoted?]
  simpa using h

theorem not_mem_of_longestRun {q : Char} {run best : Nat} (h : longestRun q run best cs = 0) :
    q ∉ cs := by
  induction cs generalizing run best with
  | nil => simp
  | cons c cs ih =>
    rw [longestRun] at h
    split_ifs at h with hc
    · have := le_longestRun q (run + 1) (max best (run + 1)) cs
      omega
    · simpa [Ne.symm hc] using ih h

theorem isPlain_of_any_needsEscape (h : cs.any needsEscape = false) :
    ∀ c ∈ cs, isPlain c = true ∨ c = '\n' := by
  intro c hc
  by_cases hline : c = '\n'
  · exact Or.inr hline
  · have hescape := List.any_eq_false.mp h c hc
    exact Or.inl (isPlain_of_needsEscape (by simpa using hescape) hline)

/-- What the choice of a form without escapes says about the text. -/
theorem quoteForm_spec (cs : List Char) :
    match quoteForm cs with
    | .literal => cs ≠ [] ∧ ∀ c ∈ cs, isPlain c = true ∧ c ≠ '\''
    | .literalLines => (∀ c ∈ cs, isPlain c = true ∨ c = '\n') ∧ FewerThanThree '\'' cs
    | _ => True := by
  simp only [quoteForm]
  split_ifs with h1 h2 h3 h4 h5
  · trivial
  · simp only [Bool.and_eq_true, Bool.not_eq_true', beq_iff_eq, List.contains_eq_mem,
      decide_eq_false_iff_not] at h2
    obtain ⟨⟨hcontrol, hsingles⟩, hline⟩ := h2
    refine ⟨?_, fun c hc => ⟨?_, ?_⟩⟩
    · rintro rfl
      simp [longestRun] at h1
    · exact (isPlain_of_any_needsEscape hcontrol c hc).resolve_right fun h => hline (h ▸ hc)
    · rintro rfl
      exact not_mem_of_longestRun hsingles hc
  · trivial
  · simp only [Bool.and_eq_true, Bool.not_eq_true', decide_eq_true_eq] at h4
    exact ⟨isPlain_of_any_needsEscape h4.1, fewerThanThree_of_longestRun h4.2⟩
  · trivial
  · trivial

theorem writeBasic_ne_quote_quote (cs : List Char) (hrest : rest.head? ≠ some '"') (r : List Char) :
    writeBasic false 0 cs ++ '"' :: rest ≠ '"' :: '"' :: r := by
  cases cs with
  | nil =>
    intro h
    exact hrest (by simp_all [writeBasic])
  | cons c cs =>
    rw [writeBasic]
    by_cases hc : c = '"'
    · simp [hc]
    · rw [if_neg hc, List.append_assoc]
      exact writeChar_ne_quote hc _ _

theorem head?_writeChar {c x : Char} (h : x ∈ (writeChar true c).head?) :
    x ≠ '\r' ∧ (x = '\n' → c = '\n') := by
  rw [writeChar] at h
  split_ifs at h <;> simp_all <;> simp [← h]

theorem head?_writeBasic (cs rest : List Char) :
    ∀ x ∈ (writeBasic true 0 cs ++ Closing '"' rest).head?, x ≠ '\r' ∧ (x = '\n' → '\n' ∈ cs) := by
  cases cs with
  | nil => simp [writeBasic, Closing]
  | cons c cs =>
    intro x hx
    by_cases hc : c = '"'
    · obtain rfl : '"' = x := by simpa [writeBasic, hc] using hx
      simp
    · have hne : writeChar true c ≠ [] := by
        rw [writeChar]
        split_ifs <;> simp
      obtain ⟨y, ys, hy⟩ := List.exists_cons_of_ne_nil hne
      obtain rfl : y = x := by simpa [writeBasic, hc, hy] using hx
      obtain ⟨hreturn, hline⟩ := head?_writeChar (c := c) (x := y) (by rw [hy]; rfl)
      exact ⟨hreturn, fun h => hline h ▸ List.mem_cons_self⟩

/-- Text is read back in the form that was chosen for it, and the reader stops behind the quotes. -/
theorem quoted?_writeQuoted (cs : List Char)
    (hrest : rest.head? ≠ some '"' ∧ rest.head? ≠ some '\'') :
    quoted? (writeQuoted (quoteForm cs) cs ++ rest) = some (cs, rest) := by
  have hspec := quoteForm_spec cs
  cases hform : quoteForm cs with
  | basic =>
    have hquotes := fun r => writeBasic_ne_quote_quote cs hrest.1 r
    rw [← basicText?_writeBasic 0 cs rest, ← quoted?_basic hquotes]
    simp [writeQuoted]
  | literal =>
    rw [hform] at hspec
    obtain ⟨hne, hplain⟩ := hspec
    have hquotes : ∀ r, cs ++ '\'' :: rest ≠ '\'' :: '\'' :: r := by
      obtain ⟨c, cs, rfl⟩ := List.exists_cons_of_ne_nil hne
      have := (hplain c List.mem_cons_self).2
      simp [this]
    rw [← literalText?_append hplain rest, ← quoted?_literal hquotes]
    simp [writeQuoted]
  | basicLines =>
    have hhead := head?_writeBasic cs rest
    have hdrop := dropLineEnd_leadingLineEnd cs (fun hline h => hline ((hhead _ h).2 rfl))
      (fun h => (hhead _ h).1 rfl)
    rw [← basicLines?_writeBasic 0 cs hrest.1, ← hdrop]
    simp [writeQuoted, quoted?, Closing]
  | literalLines =>
    rw [hform] at hspec
    obtain ⟨hplain, hquotes⟩ := hspec
    have hhead : ∀ x ∈ (cs ++ Closing '\'' rest).head?, x ≠ '\r' ∧ (x = '\n' → '\n' ∈ cs) := by
      cases cs with
      | nil => simp [Closing]
      | cons c cs =>
        intro x hx
        obtain rfl : c = x := by simpa using hx
        refine ⟨?_, fun h => h ▸ List.mem_cons_self⟩
        rintro rfl
        simpa [isPlain] using hplain '\r' List.mem_cons_self
    have hdrop := dropLineEnd_leadingLineEnd cs (fun hline h => hline ((hhead _ h).2 rfl))
      (fun h => (hhead _ h).1 rfl)
    rw [← literalLines?_append hplain hquotes hrest.2, ← hdrop]
    simp [writeQuoted, quoted?, Closing]

end forms

end SlotBuild.Toml
