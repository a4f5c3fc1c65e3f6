import SlotBuild.Proofs.Binary64
import SlotBuild.Proofs.Toml.Datetime
import SlotBuild.Toml.Number

/-! Numbers, truth values and dates are words: each is read back from its text, and the reader stops
where the word ends. -/

namespace SlotBuild.Toml

/-- What stands behind a value: neither more of a word nor quotes, and no time of day. -/
structure Delimits (rest : List Char) : Prop where
  word : ∀ c ∈ rest.head?, isWordChar c = false
  quotes : rest.head? ≠ some '"' ∧ rest.head? ≠ some '\''
  time : ∀ c r, rest = ' ' :: c :: r → Decimal.isDigit c = false

theorem word?_append {word rest : List Char} {v : Value} (hword : ∀ c ∈ word, isWordChar c = true)
    (hv : wordValue? word = some v) (hrest : Delimits rest) :
    word? (word ++ rest) = some (v, rest) := by
  obtain ⟨htake, hdrop⟩ := run_append hword hrest.word
  have hends : continuesWithTime word rest = false := by
    unfold continuesWithTime
    split
    · exact hrest.time _ _ rfl
    · rfl
  simp [word?, htake, hdrop, hends, hv]

section digits

variable {cs ds : List Char}

theorem isWordChar_of_isDigit {c : Char} (h : Decimal.isDigit c = true) : isWordChar c = true := by
  simp [isWordChar, h]

theorem ne_of_isDigit {c : Char} (h : Decimal.isDigit c = true) (d : Char)
    (hd : Decimal.isDigit d = false) : c ≠ d := by
  rintro rfl
  simp [h] at hd

theorem splitAtChar_of_not_mem {sep : Char} (h : sep ∉ cs) : splitAtChar sep cs = [cs] := by
  induction cs with
  | nil => rfl
  | cons c cs ih =>
    obtain ⟨hc, hcs⟩ : sep ≠ c ∧ sep ∉ cs := by simpa using h
    rw [splitAtChar, if_neg (Ne.symm hc), ih hcs]

theorem digitGroups?_digits (hne : ds ≠ []) (h : ∀ c ∈ ds, Decimal.isDigit c = true) :
    digitGroups? Decimal.isDigit ds = some ds := by
  have hsep : '_' ∉ ds := fun hmem => ne_of_isDigit (h _ hmem) '_' (by decide) rfl
  simpa [digitGroups?, splitAtChar_of_not_mem hsep, hne] using h

theorem plainDigits?_digits (hne : ds ≠ []) (h : ∀ c ∈ ds, Decimal.isDigit c = true)
    (hzero : ds.head? = some '0' → ds = ['0']) : plainDigits? ds = some ds := by
  have hplain : ¬(ds.head? = some '0' ∧ ds ≠ ['0']) := fun ⟨hhead, hds⟩ => hds (hzero hhead)
  simp only [plainDigits?, digitGroups?_digits hne h, Option.bind_eq_bind, Option.bind_some,
    if_neg hplain]

/-- A zero stands in front of a numeral only as its single digit. -/
theorem numeral_eq_zero (n : Nat) (h : (Decimal.numeral n).head? = some '0') :
    Decimal.numeral n = ['0'] := by
  obtain ⟨c, r, hc⟩ := List.exists_cons_of_ne_nil (Decimal.numeral_ne_nil n)
  have hlen := Decimal.head?_numeral n h
  rw [hc] at h hlen ⊢
  obtain rfl : r = [] := by simpa using hlen
  rw [Option.some.inj h]

end digits

section signs

open Binary64 (signed)

variable {cs : List Char}

/-- The text starts with a digit. -/
def StartsWithDigit (cs : List Char) : Prop := ∃ c r, cs = c :: r ∧ Decimal.isDigit c = true

/-- Digits that may have a point among them, behind at least one digit. -/
structure IsNumber (cs : List Char) : Prop where
  head : StartsWithDigit cs
  chars : ∀ c ∈ cs, Decimal.isDigit c = true ∨ c = '.'

theorem IsNumber.isWordChar (h : IsNumber cs) (negative : Bool) :
    ∀ c ∈ signed negative cs, isWordChar c = true := by
  have hcs : ∀ c ∈ cs, Toml.isWordChar c = true := by
    intro c hc
    rcases h.chars c hc with hdigit | rfl
    · exact isWordChar_of_isDigit hdigit
    · rfl
  intro c hc
  rw [signed] at hc
  split at hc
  · rcases List.mem_cons.mp hc with rfl | hc
    · rfl
    · exact hcs c hc
  · exact hcs c hc

theorem splitSign_signed (h : StartsWithDigit cs) (negative : Bool) :
    splitSign (signed negative cs) = (negative, cs) := by
  obtain ⟨c, r, rfl, hc⟩ := h
  cases negative with
  | true => rfl
  | false =>
    simp only [signed, Bool.false_eq_true, if_false]
    rw [splitSign]
    · exact fun r' heq => ne_of_isDigit hc '-' (by decide) (List.cons.inj heq).1
    · exact fun r' heq => ne_of_isDigit hc '+' (by decide) (List.cons.inj heq).1

/-- A digit in front, or behind a sign, leaves only dates and numbers. -/
theorem wordValue?_signed (h : StartsWithDigit cs) (negative : Bool) :
    wordValue? (signed negative cs) = ((Datetime.ofChars? (signed negative cs)).map .datetime).or
      (((decimalFloat? (signed negative cs)).map .float).or
      ((integer? (signed negative cs)).map .integer)) := by
  have hsplit := splitSign_signed h negative
  obtain ⟨c, r, rfl, hc⟩ := h
  have hword : ∀ d : Char, Decimal.isDigit d = false → d ≠ '-' →
      ∀ ds, signed negative (c :: r) ≠ d :: ds := by
    intro d hd hsign ds heq
    rw [signed] at heq
    split at heq
    · exact hsign (List.cons.inj heq).1.symm
    · exact ne_of_isDigit hc d hd (List.cons.inj heq).1
  have htrue : signed negative (c :: r) ≠ "true".toList := hword 't' (by decide) (by decide) _
  have hfalse : signed negative (c :: r) ≠ "false".toList := hword 'f' (by decide) (by decide) _
  have hspecial : specialFloat? (signed negative (c :: r)) = none := by
    rw [specialFloat?, hsplit]
    split <;> simp_all [Decimal.isDigit]
  simp only [wordValue?, if_neg htrue, if_neg hfalse, hspecial]
  cases Datetime.ofChars? (signed negative (c :: r)) <;> cases decimalFloat?
    (signed negative (c :: r)) <;> rfl

theorem expect?_of_not_mem {c : Char} (h : c ∉ cs) : expect? c cs = none := by
  cases cs with
  | nil => rfl
  | cons d r => exact if_neg (by simp_all [Ne.symm])

theorem eq_drop_of_fixedDigits? {n k : Nat} {r : List Char} (h : fixedDigits? k cs = some (n, r)) :
    r = cs.drop k := by
  rw [fixedDigits?] at h
  split at h
  · obtain ⟨m, -, hm⟩ := Option.map_eq_some_iff.mp h
    exact (Prod.mk.inj hm).2.symm
  · simp at h

theorem IsNumber.not_datetime (h : IsNumber cs) (negative : Bool) :
    Datetime.ofChars? (signed negative cs) = none := by
  have hneither : Date.ofChars? (signed negative cs) = none ∧
      Time.ofChars? (signed negative cs) = none := by
    cases negative with
    | true =>
      have hsign : Decimal.isDigit '-' = false := by decide
      have hstopped : ∀ k, 0 < k → fixedDigits? k ('-' :: cs) = none := fun k hk =>
        fixedDigits?_stopped (show [].length < k from hk) hsign cs
      simp [signed, Date.ofChars?, Time.ofChars?, hstopped]
    | false =>
      have hmissing : ∀ c, Decimal.isDigit c = false → c ≠ '.' →
          ∀ k, expect? c (cs.drop k) = none := by
        intro c hdigit hpoint k
        refine expect?_of_not_mem fun hc => ?_
        rcases h.chars c (List.mem_of_mem_drop hc) with hc | hc
        · simp [hdigit] at hc
        · exact hpoint hc
      simp only [signed, Bool.false_eq_true, if_false, Date.ofChars?, Time.ofChars?,
        Option.bind_eq_bind]
      constructor <;>
      · rw [Option.bind_eq_none_iff]
        rintro ⟨n, r⟩ hread
        rw [eq_drop_of_fixedDigits? hread, hmissing _ (by decide) (by decide)]
        rfl
  simp [Datetime.ofChars?, hneither.1, hneither.2]

/-- What has the form of a number is read as one. -/
theorem IsNumber.wordValue? (h : IsNumber cs) (negative : Bool) :
    wordValue? (signed negative cs) =
      ((decimalFloat? (signed negative cs)).map .float).or
      ((integer? (signed negative cs)).map .integer) := by
  rw [wordValue?_signed h.head, h.not_datetime]
  rfl

end signs

section integers

open Binary64 (signed)

variable {ds : List Char}

theorem isNumber_of_digits (hne : ds ≠ []) (h : ∀ c ∈ ds, Decimal.isDigit c = true) :
    IsNumber ds := by
  obtain ⟨c, r, rfl⟩ := List.exists_cons_of_ne_nil hne
  exact ⟨⟨c, r, rfl, h c List.mem_cons_self⟩, fun c hc => Or.inl (h c hc)⟩

theorem not_exponentMark_of_isDigit {c : Char} (h : Decimal.isDigit c = true) :
    isExponentMark c = false := by
  have h1 := ne_of_isDigit h 'e' (by decide)
  have h2 := ne_of_isDigit h 'E' (by decide)
  simp [isExponentMark, h1, h2]

theorem decimalFloat?_digits (negative : Bool) (hne : ds ≠ [])
    (h : ∀ c ∈ ds, Decimal.isDigit c = true) :
    decimalFloat? (signed negative ds) = none := by
  have hwhole : ∀ c ∈ ds, (decide (c ≠ '.' ∧ !isExponentMark c)) = true := by
    intro c hc
    simp [ne_of_isDigit (h c hc) '.' (by decide), not_exponentMark_of_isDigit (h c hc)]
  have hdrop : ds.dropWhile (fun c => decide (c ≠ '.' ∧ !isExponentMark c)) = [] := by
    simpa using hwhole
  simp only [decimalFloat?, splitSign_signed (isNumber_of_digits hne h).head, hdrop,
    Option.bind_eq_bind, Option.bind_none, Option.bind_fun_none]

theorem isNumber_numeral (n : Nat) : IsNumber (Decimal.numeral n) :=
  isNumber_of_digits (Decimal.numeral_ne_nil n) (Decimal.isDigit_of_mem_numeral n)

theorem intChars_eq (i : Int) : Decimal.intChars i = signed (i < 0) (Decimal.numeral i.natAbs) := by
  simp [Decimal.intChars, signed]

theorem integer?_intChars {i : Int} (h : fitsInteger i = true) :
    integer? (Decimal.intChars i) = some i := by
  have hdigits := Decimal.isDigit_of_mem_numeral i.natAbs
  have hplain := plainDigits?_digits (Decimal.numeral_ne_nil i.natAbs) hdigits (numeral_eq_zero _)
  have hbase : ∀ c : Char, Decimal.isDigit c = false → c ≠ '-' →
      ∀ r, Decimal.intChars i ≠ '0' :: c :: r := by
    intro c hc hsign r heq
    have hmem : c ∈ Decimal.intChars i := by simp [heq]
    rw [intChars_eq, signed] at hmem
    split at hmem
    · exact ne_of_isDigit (hdigits c ((List.mem_cons.mp hmem).resolve_left hsign)) c hc rfl
    · exact ne_of_isDigit (hdigits c hmem) c hc rfl
  have hwhole : wholeNumber? (Decimal.intChars i) = some i := by
    rw [wholeNumber?]
    · rw [intChars_eq, splitSign_signed (isNumber_numeral _).head]
      simp only [hplain, Option.bind_eq_bind, Option.bind_some, Decimal.value_numeral,
        Option.pure_def, Option.some.injEq, decide_eq_true_eq]
      split <;> omega
    · exact hbase 'x' (by decide) (by decide)
    · exact hbase 'o' (by decide) (by decide)
    · exact hbase 'b' (by decide) (by decide)
  simp [integer?, hwhole, h]

theorem wordValue?_intChars {i : Int} (h : fitsInteger i = true) :
    (∀ c ∈ Decimal.intChars i, isWordChar c = true) ∧
    wordValue? (Decimal.intChars i) = some (.integer i) := by
  have hnumber := isNumber_numeral i.natAbs
  have hvalue := hnumber.wordValue? (i < 0)
  rw [decimalFloat?_digits _ (Decimal.numeral_ne_nil _) (Decimal.isDigit_of_mem_numeral _), ← intChars_eq,
    integer?_intChars h] at hvalue
  rw [intChars_eq] at hvalue ⊢
  exact ⟨hnumber.isWordChar _, hvalue⟩

end integers

section floats

open Binary64 (signed)

variable {s : Nat} {e : Int}

theorem isNumber_point {whole places : List Char} (hne : whole ≠ [])
    (hdigits : ∀ c ∈ whole ++ places, Decimal.isDigit c = true) :
    IsNumber (whole ++ '.' :: places) := by
  obtain ⟨c, r, rfl⟩ := List.exists_cons_of_ne_nil hne
  refine ⟨⟨c, _, rfl, hdigits c (by simp)⟩, fun c hc => ?_⟩
  rcases List.mem_append.mp hc with hc | hc
  · exact Or.inl (hdigits c (List.mem_append_left _ hc))
  · rcases List.mem_cons.mp hc with rfl | hc
    · exact Or.inr rfl
    · exact Or.inl (hdigits c (List.mem_append_right _ hc))

/-- A number with a point is read by the value of its digits. -/
theorem decimalFloat?_point {whole places : List Char} (negative : Bool)
    (hwhole : plainDigits? whole = some whole)
    (hdigits : ∀ c ∈ whole ++ places, Decimal.isDigit c = true) (hne : whole ≠ [])
    (hplaces : places ≠ [])
    (hx : Binary64.ofDecimal negative (Decimal.value (whole ++ places)) (-places.length) =
      .finite negative s e) :
    decimalFloat? (signed negative (whole ++ '.' :: places)) = some (.finite negative s e) := by
  have hnumber := isNumber_point hne hdigits
  have hmark : ∀ c ∈ whole ++ places, isExponentMark c = false := fun c hc =>
    not_exponentMark_of_isDigit (hdigits c hc)
  have hwholeAll : ∀ c ∈ whole, (decide (c ≠ '.' ∧ !isExponentMark c)) = true := fun c hc => by
    have hc := List.mem_append_left places hc
    simp [ne_of_isDigit (hdigits c hc) '.' (by decide), hmark c hc]
  obtain ⟨htake, hdrop⟩ := run_append hwholeAll (by simp : ∀ c ∈ ('.' :: places).head?, _)
  have hplacesAll : ∀ c ∈ places, (!isExponentMark c) = true := fun c hc => by
    simp [hmark c (List.mem_append_right _ hc)]
  have hends : places.dropWhile (fun c => !isExponentMark c) = [] := by simpa using hplacesAll
  have hgroups := digitGroups?_digits hplaces fun c hc => hdigits c (List.mem_append_right _ hc)
  simp only [decimalFloat?, splitSign_signed hnumber.head, htake, hdrop, hwhole,
    List.takeWhile_eq_self_iff.mpr hplacesAll, hends, hgroups, exponent?, Option.bind_eq_bind,
    Option.bind_some, Int.zero_sub, hx]
  rfl

theorem head?_numeral_ne {n : Nat} (hn : 0 < n) : (Decimal.numeral n).head? ≠ some '0' := by
  intro hhead
  have hvalue := Decimal.value_numeral n
  rw [numeral_eq_zero n hhead] at hvalue
  have hzero : Decimal.value ['0'] = 0 := rfl
  omega

theorem isDigit_zeros {k : Nat} : ∀ c ∈ List.replicate k '0', Decimal.isDigit c = true := by
  intro c hc
  rw [List.eq_of_mem_replicate hc]
  rfl

/-- Digits on both sides of a point, with a zero in front only if it stands alone. -/
structure Pointed (whole places : List Char) (value : ℚ) : Prop where
  plain : plainDigits? whole = some whole
  whole_ne : whole ≠ []
  places_ne : places ≠ []
  digits : ∀ c ∈ whole ++ places, Decimal.isDigit c = true
  value_eq : (Decimal.value (whole ++ places) : ℚ) * 10 ^ (-places.length : Int) = value

/-- With zeros between a numeral and the point. -/
theorem pointed_behind {n : Nat} (hn : 0 < n) (k : Nat) :
    Pointed (Decimal.numeral n ++ List.replicate k '0') ['0'] (n * 10 ^ (k : Int)) := by
  have hne := Decimal.numeral_ne_nil n
  have hwhole : ∀ c ∈ Decimal.numeral n ++ List.replicate k '0', Decimal.isDigit c = true :=
    List.forall_mem_append.mpr ⟨Decimal.isDigit_of_mem_numeral n, isDigit_zeros⟩
  refine ⟨plainDigits?_digits (by simp [hne]) hwhole fun h => ?_, by simp [hne], by simp,
    List.forall_mem_append.mpr ⟨hwhole, isDigit_zeros (k := 1)⟩, ?_⟩
  · rw [List.head?_append, Option.or_eq_some_iff] at h
    rcases h with h | ⟨h, -⟩
    · exact absurd h (head?_numeral_ne hn)
    · exact absurd (List.head?_eq_none_iff.mp h) hne
  · have hlast : Decimal.value ['0'] = 0 := rfl
    rw [Decimal.value_append, Decimal.value_append, Decimal.value_numeral, Decimal.value_zeros]
    simp [hlast]

/-- With the point inside a numeral, or in front of it and of the zeros that this takes. -/
theorem pointed_inside {n k : Nat} (hn : 0 < n) (hk : 0 < k) {all : List Char}
    (hall : List.replicate (k + 1 - (Decimal.numeral n).length) '0' ++ Decimal.numeral n = all) :
    Pointed (all.take (all.length - k)) (all.drop (all.length - k)) (n * 10 ^ (-k : Int)) := by
  set zeros := List.replicate (k + 1 - (Decimal.numeral n).length) '0' with hzeros
  have hzeroslen : zeros.length = k + 1 - (Decimal.numeral n).length := List.length_replicate
  have hlen : all.length = zeros.length + (Decimal.numeral n).length := by
    rw [← hall, List.length_append]
  have hdigits : ∀ c ∈ all, Decimal.isDigit c = true := by
    rw [← hall]
    exact List.forall_mem_append.mpr ⟨isDigit_zeros, Decimal.isDigit_of_mem_numeral n⟩
  have hplaces : (all.drop (all.length - k)).length = k := by
    rw [List.length_drop]
    omega
  have hwhole : (all.take (all.length - k)).length = all.length - k := by
    rw [List.length_take]
    omega
  have hnumeral := List.length_pos_iff.mpr (Decimal.numeral_ne_nil n)
  have hne : all.take (all.length - k) ≠ [] := List.ne_nil_of_length_pos (by omega)
  refine ⟨plainDigits?_digits hne (fun c hc => hdigits c (List.mem_of_mem_take hc)) fun h => ?_, hne,
    List.ne_nil_of_length_pos (by omega), ?_, ?_⟩
  · -- a zero is in front if some were added, and then it is all there is in front of the point
    rcases Nat.eq_zero_or_pos zeros.length with hnone | hsome
    · rw [List.head?_take, if_neg (by omega), ← hall, List.length_eq_zero_iff.mp hnone, List.nil_append] at h
      exact absurd h (head?_numeral_ne hn)
    · obtain ⟨c, hc⟩ :=
        List.length_eq_one_iff.mp (show (all.take (all.length - k)).length = 1 by omega)
      rw [hc] at h ⊢
      rw [Option.some.inj h]
  · rwa [List.take_append_drop]
  · rw [List.take_append_drop, hplaces, ← hall, Decimal.value_append, Decimal.value_numeral, hzeros,
      Decimal.value_zeros]
    simp

/-- The text of a decimal has digits on both sides of a point, which have the value of the decimal. -/
theorem positional_spec {d : Binary64.Digits} (hd : 0 < d.digits) : ∃ whole places,
    Binary64.positional d = whole ++ '.' :: places ∧ Pointed whole places (d.digits * 10 ^ d.power) := by
  rw [Binary64.positional]
  split_ifs with hpower
  · obtain ⟨k, hk⟩ := Int.eq_ofNat_of_zero_le hpower
    refine ⟨Decimal.numeral d.digits ++ List.replicate k '0', ['0'], by simp [hk], ?_⟩
    rw [hk]
    exact pointed_behind hd k
  · obtain ⟨k, hk⟩ := Int.eq_ofNat_of_zero_le (show 0 ≤ -d.power by omega)
    refine ⟨_, _, rfl, ?_⟩
    rw [show d.power = -k by omega, neg_neg, Int.toNat_natCast]
    exact pointed_inside hd (by omega) rfl

/-- A finite number is written as a number that reads back. -/
theorem floatChars_spec {negative : Bool} (h : (Binary64.finite negative s e).Canonical) :
    ∃ cs, IsNumber cs ∧
    Binary64.chars (.finite negative s e) = signed negative cs ∧
      decimalFloat? (signed negative cs) = some (.finite negative s e) := by
  rcases Nat.eq_zero_or_pos s with rfl | hs
  · obtain rfl : e = Binary64.leastExponent := by
      have hfull := h.2.2.2
      omega
    have hzero : Decimal.isDigit '0' = true := rfl
    have hdigits : ∀ c ∈ ['0'] ++ ['0'], Decimal.isDigit c = true := by simp [hzero]
    refine ⟨['0'] ++ '.' :: ['0'], isNumber_point (by simp) hdigits, rfl, ?_⟩
    exact decimalFloat?_point negative rfl hdigits (by simp) (by simp) rfl
  · have hread := Binary64.readsBack_dropZeros_shortest hs h 20
    set d := Binary64.dropZeros 20 (Binary64.shortest s e) with hd
    have hdecimal : Binary64.ofDecimal false d.digits d.power = .finite false s e := by
      simpa [Binary64.readsBack] using hread
    have hpos : 0 < d.digits := by
      rw [Nat.pos_iff_ne_zero]
      intro hzero
      rw [hzero, Binary64.ofDecimal, if_pos rfl, Binary64.zero] at hdecimal
      exact hs.ne (Binary64.finite.inj hdecimal).2.1
    obtain ⟨whole, places, htext, hpointed⟩ := positional_spec hpos
    have hx : Binary64.ofDecimal negative (Decimal.value (whole ++ places)) (-places.length) =
        .finite negative s e := by
      rw [Binary64.ofDecimal_congr negative hpointed.value_eq]
      exact Binary64.ofDecimal_sign negative hdecimal
    refine ⟨_, isNumber_point hpointed.whole_ne hpointed.digits, ?_,
      decimalFloat?_point negative hpointed.plain hpointed.digits hpointed.whole_ne hpointed.places_ne hx⟩
    simp [Binary64.chars, hs.ne', ← hd, htext]

theorem wordValue?_floatChars {x : Binary64} (h : x.Canonical) :
    (∀ c ∈ x.chars, isWordChar c = true) ∧ wordValue? x.chars = some (.float x) := by
  cases x with
  | nan => exact ⟨List.all_eq_true.mp rfl, rfl⟩
  | infinite negative => cases negative <;> exact ⟨List.all_eq_true.mp rfl, rfl⟩
  | finite negative s e =>
    obtain ⟨cs, hnumber, hchars, hfloat⟩ := floatChars_spec h
    rw [hchars, hnumber.wordValue?, hfloat]
    exact ⟨hnumber.isWordChar negative, rfl⟩

end floats

section dates

theorem isWordChar_padded {k n : Nat} : ∀ c ∈ Decimal.padded k n, isWordChar c = true := fun c hc =>
  isWordChar_of_isDigit (Decimal.isDigit_of_mem_padded c hc)

theorem isWordChar_date (d : Date) : ∀ c ∈ d.chars, isWordChar c = true := by
  simp only [Date.chars, List.forall_mem_append, List.forall_mem_cons]
  exact ⟨⟨isWordChar_padded, rfl, isWordChar_padded⟩, rfl, isWordChar_padded⟩

theorem isWordChar_time (t : Time) : ∀ c ∈ t.chars, isWordChar c = true := by
  simp only [Time.chars, List.forall_mem_append, List.forall_mem_cons]
  refine ⟨⟨⟨isWordChar_padded, rfl, isWordChar_padded⟩, rfl, isWordChar_padded⟩, ?_⟩
  split
  · simp
  · exact List.forall_mem_cons.mpr
      ⟨rfl, fun c hc => isWordChar_of_isDigit (Time.isDigit_of_mem_places c hc)⟩

theorem isWordChar_datetime (d : Datetime) : ∀ c ∈ d.chars, isWordChar c = true := by
  cases d with
  | date d => exact isWordChar_date d
  | time t => exact isWordChar_time t
  | moment d t offset =>
    simp only [Datetime.chars, List.forall_mem_append, List.forall_mem_cons]
    refine ⟨⟨isWordChar_date d, rfl, isWordChar_time t⟩, ?_⟩
    rcases offset with _ | _ | m
    · simp
    · simp [Offset.chars]
      rfl
    · simp only [Option.map_some, Option.getD_some, Offset.chars, List.forall_mem_append,
        List.forall_mem_cons]
      refine ⟨⟨?_, isWordChar_padded⟩, rfl, isWordChar_padded⟩
      split <;> rfl

theorem startsWithDigit_padded (k n : Nat) (r : List Char) :
    StartsWithDigit (Decimal.padded k n ++ r) := by
  have hne : Decimal.padded k n ≠ [] := by simp [Decimal.padded, Decimal.numeral_ne_nil]
  obtain ⟨c, t, hc⟩ := List.exists_cons_of_ne_nil hne
  exact ⟨c, t ++ r, by simp [hc], Decimal.isDigit_of_mem_padded (k := k) (n := n) c (by simp [hc])⟩

theorem wordValue?_datetimeChars {d : Datetime} (h : d.Valid) :
    wordValue? d.chars = some (.datetime d) := by
  have hstarts : StartsWithDigit d.chars := by
    cases d <;> simp only [Datetime.chars, Date.chars, Time.chars, List.append_assoc] <;>
      exact startsWithDigit_padded _ _ _
  have hvalue := wordValue?_signed hstarts false
  simp only [Binary64.signed, Bool.false_eq_true, if_false, Datetime.ofChars?_chars h] at hvalue
  exact hvalue

end dates

end SlotBuild.Toml
