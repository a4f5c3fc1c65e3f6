import SlotBuild.Proofs.Decimal
import SlotBuild.Proofs.Toml.Quoted
import SlotBuild.Toml.Key

/-! Keys and paths of keys are read back, with blanks around each of them. -/

namespace SlotBuild.Toml

theorem dropWhile_isSpace_append {pre cs : List Char} (h : ∀ c ∈ pre, isSpace c = true) :
    (pre ++ cs).dropWhile isSpace = cs.dropWhile isSpace := List.dropWhile_append_of_pos h

/-- No blank stands in front. -/
def Unspaced (cs : List Char) : Prop := ∀ c ∈ cs.head?, isSpace c = false

theorem Unspaced.dropWhile {cs : List Char} (h : Unspaced cs) : cs.dropWhile isSpace = cs := by
  cases cs with
  | nil => rfl
  | cons c cs => simp [h c rfl]

section separated

variable {α : Type} {item : List Char → Option (α × List Char)} {sep : Char} {gap : List Char}
  {stops : List Char → Prop} {write : α → List Char}

/-- An item is read from its text with blanks around it. -/
def ReadsSpaced (item : List Char → Option (α × List Char)) (stops : List Char → Prop) (x : α)
    (text : List Char) :
    Prop :=
  ∀ pre rest, (∀ c ∈ pre, isSpace c = true) → stops rest →
    item (pre ++ (text ++ rest)) = some (x, rest.dropWhile isSpace)

theorem separated?_intercalate {x : α} {xs : List α}
    (h : ∀ y ∈ x :: xs, ReadsSpaced item stops y (write y)) (hsep : isSpace sep = false)
    (hgap : ∀ c ∈ gap, isSpace c = true) (hstops : ∀ r, stops (sep :: r)) {rest : List Char}
    (hrest : stops rest) (hend : (rest.dropWhile isSpace).head? ≠ some sep) {fuel : Nat}
    (hfuel : xs.length < fuel) {pre : List Char} (hpre : ∀ c ∈ pre, isSpace c = true) :
    separated? item sep fuel (pre ++ ((sep :: gap).intercalate ((x :: xs).map write) ++ rest)) =
      some (x :: xs, rest.dropWhile isSpace) := by
  induction xs generalizing x pre fuel with
  | nil =>
    obtain ⟨fuel, rfl⟩ := Nat.exists_eq_succ_of_ne_zero (Nat.ne_of_gt hfuel)
    have hitem := h x List.mem_cons_self pre rest hpre hrest
    have htext : (sep :: gap).intercalate ([x].map write) = write x := by simp [List.intercalate]
    rw [separated?, htext, hitem]
    simp only [Option.bind_eq_bind, Option.bind_some]
    split
    case h_1 hnil => rw [hnil]
    case h_2 c r hc =>
      rw [hc] at hend ⊢
      rw [if_neg (by simpa using hend)]
  | cons y ys ih =>
    obtain ⟨fuel, rfl⟩ := Nat.exists_eq_succ_of_ne_zero (Nat.ne_zero_of_lt hfuel)
    have hys := ih (fun z hz => h z (List.mem_cons_of_mem x hz)) (Nat.lt_of_succ_lt_succ hfuel) hgap
    have htext : (sep :: gap).intercalate ((x :: y :: ys).map write) ++ rest =
        write x ++ (sep :: (gap ++ ((sep :: gap).intercalate ((y :: ys).map write) ++ rest))) := by
      simp [List.intercalate]
    have hitem := h x List.mem_cons_self pre _ hpre
        (hstops (gap ++ ((sep :: gap).intercalate ((y :: ys).map write) ++ rest)))
    rw [List.dropWhile_cons_of_neg (by simp [hsep])] at hitem
    rw [separated?, htext, hitem]
    simp only [Option.bind_eq_bind, Option.bind_some, if_true, hys]

theorem length_le_intercalate (sep : Char) (gap text : List Char) (texts : List (List Char)) :
    texts.length ≤ ((sep :: gap).intercalate (text :: texts)).length := by
  induction texts generalizing text with
  | nil => simp
  | cons next texts ih =>
    have hnext := ih next
    simp only [List.intercalate, List.intersperse, List.flatten_cons, List.length_append,
      List.length_cons] at hnext ⊢
    omega

end separated

section keys

variable {rest : List Char}

/-- What stands behind a key does not go on with it. -/
def EndsKey (rest : List Char) : Prop := ∀ c ∈ rest.head?, isBareChar c = false

theorem key?_writeKey (k : String) (hrest : EndsKey rest) :
    key? (writeKey k ++ rest) = some (k.toList, rest) := by
  have hbasic : key? (writeQuoted .basic k.toList ++ rest) = some (k.toList, rest) := by
    have hread := basicText?_writeBasic 0 k.toList rest
    simpa [writeQuoted, key?] using hread
  simp only [writeKey]
  split_ifs with h1 h2 h3
  · obtain ⟨hne, hall⟩ := h1
    obtain ⟨htake, hdrop⟩ := run_append (List.all_eq_true.mp hall) hrest
    have hbare : key? (k.toList ++ rest) = bareKey? (k.toList ++ rest) := by
      obtain ⟨c, r, hc⟩ := List.exists_cons_of_ne_nil hne
      have hcbare : isBareChar c = true := List.all_eq_true.mp hall c (by simp [hc])
      rw [hc, List.cons_append, key?]
      all_goals
        intro r' heq
        rw [(List.cons.inj heq).1] at hcbare
        exact absurd hcbare (by decide)
    rw [hbare, bareKey?, htake, hdrop]
    exact if_neg hne
  · exact hbasic
  · simp only [Bool.and_eq_true, Bool.not_eq_true'] at h3
    obtain ⟨hcontrol, hquote⟩ := h3
    have hplain : ∀ c ∈ k.toList, isPlain c = true ∧ c ≠ '\'' := by
      intro c hc
      have hcc := List.any_eq_false.mp hcontrol c hc
      simp only [Bool.or_eq_true, not_or, Bool.not_eq_true, beq_iff_eq] at hcc
      refine ⟨isPlain_of_needsEscape hcc.1 hcc.2, ?_⟩
      rintro rfl
      simp [hc] at hquote
    have hread := literalText?_append hplain rest
    simpa [writeQuoted, key?] using hread
  · exact hbasic

/-- The first character of a key is neither a blank nor a sign that means something else. -/
theorem exists_writeKey_eq_cons (k : String) :
    ∃ c r, writeKey k = c :: r ∧ (isBareChar c = true ∨ c = '"' ∨ c = '\'') := by
  simp only [writeKey]
  split_ifs with h1
  · obtain ⟨c, r, hc⟩ := List.exists_cons_of_ne_nil h1.1
    exact ⟨c, r, hc, Or.inl (List.all_eq_true.mp h1.2 c (by simp [hc]))⟩
  · exact ⟨'"', _, rfl, Or.inr (Or.inl rfl)⟩
  · exact ⟨'\'', _, rfl, Or.inr (Or.inr rfl)⟩
  · exact ⟨'"', _, rfl, Or.inr (Or.inl rfl)⟩

theorem unspaced_writeKey (k : String) (rest : List Char) : Unspaced (writeKey k ++ rest) := by
  obtain ⟨c, r, hk, hc⟩ := exists_writeKey_eq_cons k
  intro d hd
  obtain rfl : c = d := by simpa [hk] using hd
  rcases hc with hc | rfl | rfl
  · have hspace : ∀ x : Char, isBareChar x = false → c ≠ x := by
      rintro x hx rfl
      simp [hc] at hx
    simp [isSpace, hspace ' ' (by decide), hspace '\t' (by decide)]
  · rfl
  · rfl

theorem readsSpaced_spacedKey? (k : String) : ReadsSpaced spacedKey? EndsKey k (writeKey k) := by
  intro pre rest hpre hrest
  rw [spacedKey?, dropWhile_isSpace_append hpre, (unspaced_writeKey k rest).dropWhile,
    key?_writeKey k hrest]
  simp

theorem separated?_writePath (ks : List String) (k : String) {pre : List Char}
    (hpre : ∀ c ∈ pre, isSpace c = true) (hrest : EndsKey rest)
    (hend : (rest.dropWhile isSpace).head? ≠ some '.') :
    separated? spacedKey? '.' ((pre ++ (writePath (ks ++ [k]) ++ rest)).length + 1)
    (pre ++ (writePath (ks ++ [k]) ++ rest)) =
      some (ks ++ [k], rest.dropWhile isSpace) := by
  obtain ⟨j, js, hjs⟩ := List.exists_cons_of_ne_nil (show ks ++ [k] ≠ [] by simp)
  have htext := length_le_intercalate '.' [] (writeKey j) (js.map writeKey)
  rw [← List.map_cons, ← hjs, List.length_map] at htext
  have hfuel : js.length < (pre ++ (writePath (ks ++ [k]) ++ rest)).length + 1 := by
    simp only [List.length_append, writePath]
    omega
  have hdot : ∀ r, EndsKey ('.' :: r) := fun r => by simp [EndsKey]; decide
  have hkeys := separated?_intercalate (fun y (_ : y ∈ j :: js) => readsSpaced_spacedKey? y)
      (by decide : isSpace '.' = false)
    (by simp : ∀ c ∈ [], isSpace c = true) hdot hrest hend hfuel hpre
  rwa [← hjs, ← writePath] at hkeys

theorem keyPath?_writePath {ks : List String} {k : String} (hlen : ks.length + 1 < nestingLimit)
    {pre : List Char} (hpre : ∀ c ∈ pre, isSpace c = true) (hrest : EndsKey rest)
    (hend : (rest.dropWhile isSpace).head? ≠ some '.') :
    keyPath? (pre ++ (writePath (ks ++ [k]) ++ rest)) = some (⟨ks, k⟩, rest.dropWhile isSpace) := by
  have hshort : ¬nestingLimit ≤ (ks ++ [k]).length := by
    rw [List.length_append, List.length_singleton]
    omega
  simp only [keyPath?, separated?_writePath ks k hpre hrest hend, Option.bind_eq_bind,
    Option.bind_some, if_neg hshort, List.getLast?_concat, List.dropLast_concat]

theorem keyPath?_too_long {ks : List String} {k : String} (hlen : nestingLimit ≤ ks.length + 1)
    (hrest : EndsKey rest) (hend : (rest.dropWhile isSpace).head? ≠ some '.') :
    keyPath? (writePath (ks ++ [k]) ++ rest) = none := by
  have hlong : nestingLimit ≤ (ks ++ [k]).length := by simpa using hlen
  have hkeys := separated?_writePath ks k (by simp : ∀ c ∈ [], isSpace c = true) hrest hend
  rw [List.nil_append] at hkeys
  simp only [keyPath?, hkeys, Option.bind_eq_bind, Option.bind_some, if_pos hlong, Option.bind_none]

end keys

end SlotBuild.Toml
