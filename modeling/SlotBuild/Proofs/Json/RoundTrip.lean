import SlotBuild.Json.Printer
import SlotBuild.Json.Reader
import SlotBuild.Proofs.Bytes
import SlotBuild.Proofs.Decimal

/-! What is written as JSON is read back, value by value. The text of a value is followed by a
comma, by a new line or by nothing, so a number ends where it was meant to end. -/

namespace SlotBuild.JsonValue

open Bytes (encode)

section strings

theorem rawString?_plain {b : UInt8} (hquote : b ≠ 0x22) (hescape : b ≠ 0x5C) (hcontrol : ¬ b < 0x20)
    (r : Bytes) : rawString? (b :: r) = Raw.prepend [b] (rawString? r) := by
  rw [rawString?]
  · simp [hescape, hcontrol]
  all_goals simp_all

theorem rawString?_escaped {b x : UInt8} (h : escaped? b = some x) (r : Bytes) :
    rawString? (0x5C :: b :: r) = Raw.prepend [x] (rawString? r) := by
  have hb : b ≠ 0x75 := by
    rintro rfl
    simp [escaped?] at h
  rw [rawString?]
  · simp [h]
  all_goals simp_all

theorem rawString?_unit {a b c d : UInt8} {n : Nat} (h : codeUnit? a b c d = some n)
    (hhigh : isHighUnit n = false) (hlow : isLowUnit n = false) (r : Bytes) :
    rawString? (0x5C :: 0x75 :: a :: b :: c :: d :: r) = Raw.prepend (utf8 n) (rawString? r) := by
  by_cases hr : ∃ e f g i t, r = 0x5C :: 0x75 :: e :: f :: g :: i :: t
  · obtain ⟨e, f, g, i, t, rfl⟩ := hr
    rw [rawString?]
    simp [h, hhigh, hlow]
  · rw [rawString?]
    · simp [h, hhigh, hlow]
    · simpa using hr

theorem Raw.prepend_prepend (bs cs : Bytes) (x : ReadRaw) :
    Raw.prepend bs (Raw.prepend cs x) = Raw.prepend (bs ++ cs) x := by
  cases x <;> simp [Raw.prepend]

theorem rawString?_append {bs : Bytes} (h : ∀ b ∈ bs, 0x80 ≤ b.toNat) (r : Bytes) :
    rawString? (bs ++ r) = Raw.prepend bs (rawString? r) := by
  induction bs with
  | nil => cases h : rawString? r <;> simp [Raw.prepend, h]
  | cons b bs ih =>
    obtain ⟨hb, hbs⟩ := List.forall_mem_cons.mp h
    have hne : ∀ x : UInt8, x.toNat < 0x80 → b ≠ x := by
      rintro x hx rfl
      omega
    have hcontrol : ¬ b < 0x20 := by
      rw [UInt8.lt_iff_toNat_lt]
      have : (0x20 : UInt8).toNat = 0x20 := rfl
      omega
    rw [List.cons_append, rawString?_plain (hne _ (by decide)) (hne _ (by decide)) hcontrol, ih hbs,
      Raw.prepend_prepend]
    rfl

theorem codeUnit?_control : ∀ n : Fin 0x20,
    codeUnit? 0x30 0x30 (UInt8.ofNat (Nat.digitChar (n.val / 16)).toNat)
      (UInt8.ofNat (Nat.digitChar (n.val % 16)).toNat) = some n.val ∧
    encode [Nat.digitChar (n.val / 16), Nat.digitChar (n.val % 16)] =
      [UInt8.ofNat (Nat.digitChar (n.val / 16)).toNat, UInt8.ofNat (Nat.digitChar (n.val % 16)).toNat] := by
  decide

theorem rawString?_writeChar (c : Char) (r : Bytes) :
    rawString? (encode (writeChar c) ++ r) = Raw.prepend (String.utf8EncodeChar c) (rawString? r) := by
  by_cases hnamed : c = '"' ∨ c = '\\' ∨ c = '\x08' ∨ c = '\x0C' ∨ c = '\n' ∨ c = '\r' ∨ c = '\t'
  · rcases hnamed with rfl | rfl | rfl | rfl | rfl | rfl | rfl <;>
      exact rawString?_escaped (by decide) r
  · simp only [not_or] at hnamed
    obtain ⟨hquote, hescape, h1, h2, h3, h4, h5⟩ := hnamed
    simp only [writeChar, if_neg hquote, if_neg hescape, if_neg h1, if_neg h2, if_neg h3,
      if_neg h4, if_neg h5]
    by_cases hlt : c.toNat < 0x20
    · rw [if_pos hlt]
      obtain ⟨hunit, henc⟩ := codeUnit?_control ⟨c.toNat, hlt⟩
      have hutf : utf8 c.toNat = String.utf8EncodeChar c := by
        rw [utf8, Bytes.ofString_eq_encode]
        simp
      have htext : encode ['\\', 'u', '0', '0', Nat.digitChar (c.toNat / 16), Nat.digitChar (c.toNat % 16)] =
          0x5C :: 0x75 :: 0x30 :: 0x30 ::
            encode [Nat.digitChar (c.toNat / 16), Nat.digitChar (c.toNat % 16)] := rfl
      rw [htext, henc, ← hutf]
      exact rawString?_unit hunit (by simp [isHighUnit]; omega) (by simp [isLowUnit]; omega) r
    · rw [if_neg hlt]
      by_cases hascii : c.toNat < 0x80
      · have hnat : (UInt8.ofNat c.toNat).toNat = c.toNat := by
          simp only [UInt8.toNat_ofNat']
          omega
        have hne : ∀ d : Char, d.toNat < 0x80 → c ≠ d → UInt8.ofNat c.toNat ≠ UInt8.ofNat d.toNat := by
          intro d hd hcd heq
          have := congrArg UInt8.toNat heq
          simp only [UInt8.toNat_ofNat'] at this
          exact hcd (Char.toNat_inj.mp (by omega))
        have hcontrol : ¬ UInt8.ofNat c.toNat < 0x20 := by
          rw [UInt8.lt_iff_toNat_lt, hnat]
          exact hlt
        simp only [Bytes.encode_cons, Bytes.encode_nil, List.append_nil, Bytes.utf8EncodeChar_of_lt hascii]
        exact rawString?_plain (hne '"' (by decide) hquote) (hne '\\' (by decide) hescape) hcontrol r
      · simpa using rawString?_append (Bytes.le_of_mem_utf8EncodeChar (by omega)) r

theorem rawString?_encode (cs : List Char) (r : Bytes) :
    rawString? (encode (cs.flatMap writeChar) ++ 0x22 :: r) = some (⟨encode cs, true⟩, r) := by
  induction cs with
  | nil => rfl
  | cons c cs ih =>
    rw [List.flatMap_cons, Bytes.encode_append, List.append_assoc, rawString?_writeChar, ih]
    rfl

theorem text?_encode (s : String) : Raw.text? ⟨encode s.toList, true⟩ = some s := by
  simp [Raw.text?, Bytes.toString?_encode]

end strings

section blanks

theorem skipBlanks_append {pre : Bytes} (h : ∀ b ∈ pre, isBlank b = true) (r : Bytes) :
    skipBlanks (pre ++ r) = skipBlanks r := by
  induction pre with
  | nil => rfl
  | cons b pre ih =>
    obtain ⟨hb, hpre⟩ := List.forall_mem_cons.mp h
    simpa [skipBlanks, hb] using ih hpre

theorem skipBlanks_cons {b : UInt8} (h : isBlank b = false) (r : Bytes) : skipBlanks (b :: r) = b :: r := by
  simp [skipBlanks, h]

theorem isBlank_newLine (depth : Nat) : ∀ b ∈ encode (newLine depth), isBlank b = true := by
  have hblanks : ∀ n, ∀ b ∈ encode (List.replicate n ' '), isBlank b = true := by
    intro n
    induction n with
    | zero => simp
    | succ n ih => exact List.forall_mem_cons.mpr ⟨by decide, ih⟩
  exact List.forall_mem_cons.mpr ⟨by decide, hblanks _⟩

theorem value?_append {pre : Bytes} (h : ∀ b ∈ pre, isBlank b = true) (depth : Nat) (r : Bytes) :
    value? depth (pre ++ r) = value? depth r := by
  cases depth with
  | zero => rfl
  | succ depth => rw [value?, value?, skipBlanks_append h]

end blanks

/-- What stands behind a value: nothing, a comma or a new line. -/
def Delimits (rest : Bytes) : Prop := ∀ b ∈ rest.head?, b = 0x2C ∨ b = 0x0A

/-- The text of `v` starts neither with a blank nor with a closing bracket and is read as `v`, where
values may be `n` deep. -/
structure Reads (n : Nat) (v : JsonValue) : Prop where
  starts : ∀ k, ∃ b r, encode (write k v) = b :: r ∧ isBlank b = false ∧ b ≠ 0x5D
  value : ∀ depth k rest, n ≤ depth → Delimits rest →
    value? depth (encode (write k v) ++ rest) = some (v, rest)

theorem Reads.mono {n m : Nat} {v : JsonValue} (h : Reads n v) (hnm : n ≤ m) : Reads m v :=
  ⟨h.starts, fun depth k rest hd => h.value depth k rest (Nat.le_trans hnm hd)⟩

theorem Reads.null : Reads 1 null := by
  refine ⟨fun k => ⟨0x6E, [0x75, 0x6C, 0x6C], rfl, by decide, by decide⟩, fun depth k rest hd _ => ?_⟩
  obtain ⟨depth, rfl⟩ := Nat.exists_eq_add_of_le' hd
  rfl

theorem Reads.string (s : String) : Reads 1 (string s) := by
  refine ⟨fun k => ⟨0x22, _, rfl, by decide, by decide⟩, fun depth k rest hd _ => ?_⟩
  obtain ⟨depth, rfl⟩ := Nat.exists_eq_add_of_le' hd
  have htext : encode (write k (.string s)) ++ rest =
      0x22 :: (encode (s.toList.flatMap writeChar) ++ 0x22 :: rest) := by
    simp [write, writeString, String.utf8EncodeChar]
  rw [htext, value?, skipBlanks_cons (by decide)]
  simp [rawString?_encode, text?_encode]

section numbers

variable {cs : List Char}

theorem toNat_of_isDigit {c : Char} (h : Decimal.isDigit c = true) : 0x30 ≤ c.toNat ∧ c.toNat ≤ 0x39 := by
  simp only [Decimal.isDigit, Bool.and_eq_true, decide_eq_true_eq, Char.le_def, UInt32.le_iff_toNat_le] at h
  exact h

theorem encode_digits (h : ∀ c ∈ cs, Decimal.isDigit c = true) :
    encode cs = cs.map fun c => UInt8.ofNat c.toNat := by
  induction cs with
  | nil => rfl
  | cons c cs ih =>
    obtain ⟨hc, hcs⟩ := List.forall_mem_cons.mp h
    have := toNat_of_isDigit hc
    rw [Bytes.encode_cons, Bytes.utf8EncodeChar_of_lt (by omega), ih hcs]
    rfl

theorem toNat_ofNat_of_isDigit {c : Char} (h : Decimal.isDigit c = true) :
    (UInt8.ofNat c.toNat).toNat = c.toNat := by
  have := toNat_of_isDigit h
  simp only [UInt8.toNat_ofNat']
  omega

theorem isDigit_encode (h : ∀ c ∈ cs, Decimal.isDigit c = true) : ∀ b ∈ encode cs, isDigit b = true := by
  rw [encode_digits h]
  intro b hb
  obtain ⟨c, hc, rfl⟩ := List.mem_map.mp hb
  have hc := h c hc
  have hrange := toNat_of_isDigit hc
  simp only [isDigit, Bool.and_eq_true, decide_eq_true_eq, UInt8.le_iff_toNat_le,
    toNat_ofNat_of_isDigit hc]
  exact hrange

theorem map_ofNat_encode (h : ∀ c ∈ cs, Decimal.isDigit c = true) :
    (encode cs).map (fun b => Char.ofNat b.toNat) = cs := by
  rw [encode_digits h, List.map_map]
  refine (List.map_congr_left fun c hc => ?_).trans (List.map_id cs)
  simp [toNat_ofNat_of_isDigit (h c hc)]

theorem foldl_encode (h : ∀ c ∈ cs, Decimal.isDigit c = true) :
    (encode cs).foldl (fun n d => 10 * n + (d.toNat - 0x30)) 0 = Decimal.value cs := by
  have hfold : ∀ m, (cs.map fun c => UInt8.ofNat c.toNat).foldl (fun n d => 10 * n + (d.toNat - 0x30)) m =
      cs.foldl (fun n c => 10 * n + Decimal.digitValue c) m := by
    induction cs with
    | nil => exact fun m => rfl
    | cons c cs ih =>
      obtain ⟨hc, hcs⟩ := List.forall_mem_cons.mp h
      intro m
      rw [List.map_cons, List.foldl_cons, List.foldl_cons, ih hcs, toNat_ofNat_of_isDigit hc]
      rfl
  rw [encode_digits h]
  exact hfold 0

theorem natural_eq (n : Nat) : natural n = .number (encode (Decimal.numeral n)) := by
  rw [natural, Decimal.text, Bytes.ofString_ofList]

theorem word?_natural (w : UInt64) : (natural w.toNat).word? = some w := by
  have hdigits := Decimal.isDigit_of_mem_numeral w.toNat
  rw [natural_eq]
  simp only [word?, List.all_eq_true.mpr (isDigit_encode hdigits), if_true, foldl_encode hdigits,
    Decimal.value_numeral]
  simp [w.toNat_lt]

theorem Delimits.head?_ne {rest : Bytes} (h : Delimits rest) {b : UInt8} (hcomma : b ≠ 0x2C)
    (hline : b ≠ 0x0A) : rest.head? ≠ some b := by
  intro heq
  rcases h b heq with rfl | rfl
  · exact hcomma rfl
  · exact hline rfl

theorem takeWhile_digits {ds rest : Bytes} (h : ∀ b ∈ ds, isDigit b = true) (hrest : Delimits rest) :
    (ds ++ rest).takeWhile isDigit = ds ∧ (ds ++ rest).dropWhile isDigit = rest := by
  refine run_append h fun b hb => ?_
  rcases hrest b hb with rfl | rfl <;> decide

theorem fractionPart?_delimited {rest : Bytes} (h : Delimits rest) :
    fractionPart? rest = some ([], rest) := by
  unfold fractionPart?
  split
  · exact absurd rfl (h.head?_ne (by decide) (by decide))
  · rfl

theorem exponentPart?_delimited {rest : Bytes} (h : Delimits rest) :
    exponentPart? rest = some ([], rest) := by
  cases rest with
  | nil => rfl
  | cons b rest => rcases h b rfl with rfl | rfl <;> rfl

theorem number?_numeral (n : Nat) {rest : Bytes} (hrest : Delimits rest) :
    number? (encode (Decimal.numeral n) ++ rest) = some (natural n, rest) := by
  have hdigits := Decimal.isDigit_of_mem_numeral n
  obtain ⟨c, cs, hc⟩ := List.exists_cons_of_ne_nil (Decimal.numeral_ne_nil n)
  have hbytes := encode_digits hdigits
  obtain ⟨htake, hdrop⟩ := takeWhile_digits (isDigit_encode hdigits) hrest
  have hhead : (encode (Decimal.numeral n) ++ rest).head? ≠ some 0x2D := by
    intro heq
    have hm : (0x2D : UInt8) ∈ encode (Decimal.numeral n) := by
      rw [hbytes, hc] at heq ⊢
      simp only [List.map_cons, List.cons_append, List.head?_cons, Option.some.injEq] at heq
      simp [heq]
    have := isDigit_encode hdigits _ hm
    simp [isDigit] at this
  have hwhole : wholePart? (encode (Decimal.numeral n) ++ rest) =
      some (encode (Decimal.numeral n), rest) := by
    have hne : encode (Decimal.numeral n) ≠ [] := by simp [hc]
    have hzero : ¬ ((encode (Decimal.numeral n)).head? = some 0x30 ∧
        (encode (Decimal.numeral n)).length ≠ 1) := by
      rintro ⟨hhead, hlen⟩
      apply hlen
      rw [hbytes, List.length_map]
      apply Decimal.head?_numeral
      rw [hbytes, hc] at hhead
      have hcdigit := hdigits c (by simp [hc])
      have := congrArg UInt8.toNat (Option.some.inj hhead)
      rw [toNat_ofNat_of_isDigit hcdigit] at this
      rw [hc, List.head?_cons, Option.some.injEq]
      exact Char.toNat_inj.mp this
    simp [wholePart?, digits?, htake, hdrop, hne, hzero]
  rw [natural_eq, number?, if_neg hhead]
  simp [hwhole, fractionPart?_delimited hrest, exponentPart?_delimited hrest]

theorem Reads.natural (n : Nat) : Reads 1 (natural n) := by
  have hdigits := Decimal.isDigit_of_mem_numeral n
  have htext : ∀ k, encode (write k (JsonValue.natural n)) = encode (Decimal.numeral n) := by
    intro k
    rw [natural_eq, write, map_ofNat_encode hdigits]
  obtain ⟨c, cs, hc⟩ := List.exists_cons_of_ne_nil (Decimal.numeral_ne_nil n)
  obtain ⟨b, r, hbr⟩ : ∃ b r, encode (Decimal.numeral n) = b :: r := by
    rw [encode_digits hdigits, hc]
    exact ⟨_, _, rfl⟩
  have hb : isDigit b = true := isDigit_encode hdigits b (by simp [hbr])
  have hne : ∀ x : UInt8, isDigit x = false → b ≠ x := by
    rintro x hx rfl
    simp [hb] at hx
  have hblank : isBlank b = false := by
    simp [isBlank, hne 0x20 (by decide), hne 0x09 (by decide), hne 0x0A (by decide), hne 0x0D (by decide)]
  refine ⟨fun k => ⟨b, r, (htext k).trans hbr, hblank, hne _ (by decide)⟩, fun depth k rest hd hrest => ?_⟩
  obtain ⟨depth, rfl⟩ := Nat.exists_eq_add_of_le' hd
  have hnumber := number?_numeral n hrest
  rw [hbr, List.cons_append] at hnumber
  rw [htext, hbr, List.cons_append, value?, skipBlanks_cons hblank]
  split
  case h_1 heq => exact absurd heq (List.cons_ne_nil _ _)
  case h_2 heq => exact absurd (List.cons.inj heq).1 (hne _ (by decide))
  case h_3 heq => exact absurd (List.cons.inj heq).1 (hne _ (by decide))
  case h_4 heq => exact absurd (List.cons.inj heq).1 (hne _ (by decide))
  case h_5 heq =>
    obtain ⟨rfl, rfl⟩ := List.cons.inj heq
    rw [if_neg (hne _ (by decide)), if_neg (hne _ (by decide)), if_neg (hne _ (by decide)), hnumber]

end numbers

section lists

variable {n depth : Nat}

/-- What stands between the parts of a list: a comma and what leads to the next line. -/
def separated (k : Nat) (parts : List (List Char)) : Bytes :=
  parts.flatMap fun p => 0x2C :: encode (newLine k ++ p)

theorem encode_intercalate (k : Nat) (p : List Char) (ps : List (List Char)) :
    encode ([','].intercalate ((p :: ps).map fun p => newLine k ++ p)) =
      encode (newLine k ++ p) ++ separated k ps := by
  induction ps generalizing p with
  | nil => simp [separated]
  | cons q ps ih =>
    have hstep : [','].intercalate ((p :: q :: ps).map fun p => newLine k ++ p) =
        (newLine k ++ p) ++ ',' :: [','].intercalate ((q :: ps).map fun p => newLine k ++ p) := by
      simp [List.intercalate]
    rw [hstep, Bytes.encode_append, Bytes.encode_cons, ih]
    rfl

theorem encode_bracketed {opening closing : Char} (k : Nat) (p : List Char) (ps : List (List Char)) :
    encode (bracketed opening closing k (p :: ps)) = String.utf8EncodeChar opening ++
      encode (newLine (k + 1)) ++ encode p ++ separated (k + 1) ps ++ encode (newLine k) ++
        String.utf8EncodeChar closing := by
  rw [bracketed, if_neg (List.cons_ne_nil _ _), Bytes.encode_append, Bytes.encode_append,
    Bytes.encode_cons, encode_intercalate]
  simp

theorem delimits_separated (k m : Nat) (ps : List (List Char)) (rest : Bytes) :
    Delimits (separated k ps ++ (encode (newLine m) ++ rest)) := by
  cases ps with
  | nil =>
    intro b hb
    exact Or.inr (by simpa [separated, newLine, String.utf8EncodeChar] using hb.symm)
  | cons p ps =>
    intro b hb
    exact Or.inl (by simpa [separated] using hb.symm)

theorem length_le_separated (k : Nat) (ps : List (List Char)) : ps.length ≤ (separated k ps).length := by
  induction ps with
  | nil => simp
  | cons p ps ih =>
    simp only [separated, List.flatMap_cons, List.length_append, List.length_cons] at ih ⊢
    omega

theorem length_writeElements (k : Nat) (xs : List JsonValue) : (writeElements k xs).length = xs.length := by
  induction xs with
  | nil => rfl
  | cons x xs ih => rw [writeElements, List.length_cons, ih, List.length_cons]

theorem elements?_writeElements (k m : Nat) {x : JsonValue} {xs : List JsonValue}
    (h : ∀ y ∈ x :: xs, Reads n y) (hdepth : n ≤ depth) {pre : Bytes}
    (hpre : ∀ b ∈ pre, isBlank b = true) {fuel : Nat} (hfuel : xs.length < fuel) (rest : Bytes) :
    elements? (value? depth) fuel (pre ++ (encode (write k x) ++
      (separated k (writeElements k xs) ++ (encode (newLine m) ++ 0x5D :: rest)))) =
        some (x :: xs, rest) := by
  induction xs generalizing x pre fuel with
  | nil =>
    obtain ⟨fuel, rfl⟩ := Nat.exists_eq_succ_of_ne_zero (Nat.ne_of_gt hfuel)
    have hread := (h x List.mem_cons_self).value depth k (separated k (writeElements k []) ++
      (encode (newLine m) ++ 0x5D :: rest)) hdepth (delimits_separated _ _ _ _)
    rw [elements?, value?_append hpre, hread]
    simp only [separated, writeElements, List.flatMap_nil, List.nil_append, Option.bind_eq_bind,
      Option.bind_some, skipBlanks_append (isBlank_newLine m),
      skipBlanks_cons (by decide : isBlank 0x5D = false)]
  | cons y ys ih =>
    obtain ⟨fuel, rfl⟩ := Nat.exists_eq_succ_of_ne_zero
      (Nat.ne_of_gt (Nat.lt_of_le_of_lt (Nat.zero_le _) hfuel))
    have hread := (h x List.mem_cons_self).value depth k (separated k (writeElements k (y :: ys)) ++
      (encode (newLine m) ++ 0x5D :: rest)) hdepth (delimits_separated _ _ _ _)
    have hrest := ih (fun z hz => h z (List.mem_cons_of_mem x hz)) (isBlank_newLine k)
      (show ys.length < fuel by simpa using hfuel)
    have hsplit : separated k (writeElements k (y :: ys)) ++ (encode (newLine m) ++ 0x5D :: rest) =
        0x2C :: (encode (newLine k) ++ (encode (write k y) ++
          (separated k (writeElements k ys) ++ (encode (newLine m) ++ 0x5D :: rest)))) := by
      simp [separated, writeElements]
    rw [elements?, value?_append hpre, hread, hsplit]
    simp only [Option.bind_eq_bind, Option.bind_some,
      skipBlanks_cons (by decide : isBlank 0x2C = false), hrest]

theorem Reads.array {xs : List JsonValue} (h : ∀ x ∈ xs, Reads n x) : Reads (n + 1) (.array xs) := by
  cases xs with
  | nil =>
    refine ⟨fun k => ⟨0x5B, [0x5D], rfl, by decide, by decide⟩, fun depth k rest hd _ => ?_⟩
    obtain ⟨depth, rfl⟩ := Nat.exists_eq_add_of_le' (Nat.le_of_add_left_le hd)
    rfl
  | cons x xs =>
    have htext : ∀ k, encode (write k (.array (x :: xs))) = 0x5B :: (encode (newLine (k + 1)) ++
        (encode (write (k + 1) x) ++ (separated (k + 1) (writeElements (k + 1) xs) ++
          (encode (newLine k) ++ [0x5D])))) := by
      intro k
      rw [write, writeElements, encode_bracketed]
      simp [String.utf8EncodeChar]
    refine ⟨fun k => ⟨0x5B, _, htext k, by decide, by decide⟩, fun depth k rest hd hrest => ?_⟩
    obtain ⟨depth, rfl⟩ := Nat.exists_eq_add_of_le' (Nat.le_of_add_left_le hd)
    obtain ⟨b, r, hbr, hblank, hclose⟩ := (h x List.mem_cons_self).starts (k + 1)
    have hnil : ∀ b ∈ ([] : Bytes), isBlank b = true := by simp
    have hbody := fun fuel (hfuel : xs.length < fuel) => elements?_writeElements (k + 1) k h
      (Nat.le_of_succ_le_succ hd) hnil hfuel rest
    simp only [List.nil_append, hbr, List.cons_append] at hbody
    rw [htext]
    simp only [List.cons_append, List.append_assoc, hbr, List.nil_append]
    rw [value?, skipBlanks_cons (by decide)]
    simp only [skipBlanks_append (isBlank_newLine _), skipBlanks_cons hblank]
    split
    case h_1 heq => exact absurd (List.cons.inj heq).1 hclose
    case h_2 =>
      have hfuel := length_le_separated (k + 1) (writeElements (k + 1) xs)
      rw [length_writeElements] at hfuel
      rw [hbody _ (by simp only [List.length_cons, List.length_append]; omega)]
      rfl

def entryText (k : Nat) (e : Option String × JsonValue) : List Char :=
  writeString (e.1.getD "") ++ [':', ' '] ++ write k e.2

theorem writeEntries_eq_map (k : Nat) (es : List (Option String × JsonValue)) :
    writeEntries k es = es.map (entryText k) := by
  induction es with
  | nil => rfl
  | cons e es ih =>
    rw [writeEntries, ih]
    rfl

/-- An entry has a name, and its value can be read. -/
def ReadsEntry (n : Nat) (e : Option String × JsonValue) : Prop := e.1.isSome ∧ Reads n e.2

theorem entry?_entryText (k : Nat) {e : Option String × JsonValue} (h : ReadsEntry n e) (hdepth : n ≤ depth)
    {pre : Bytes} (hpre : ∀ b ∈ pre, isBlank b = true) {rest : Bytes} (hrest : Delimits rest) :
    entry? (value? depth) (pre ++ (encode (entryText k e) ++ rest)) = some (e, rest) := by
  obtain ⟨name, v⟩ := e
  obtain ⟨s, rfl⟩ := Option.isSome_iff_exists.mp h.1
  have htext : encode (entryText k (some s, v)) ++ rest = 0x22 :: (encode (s.toList.flatMap writeChar) ++
      0x22 :: 0x3A :: ([0x20] ++ (encode (write k v) ++ rest))) := by
    simp [entryText, writeString, String.utf8EncodeChar]
  have hblank : ∀ b ∈ [0x20], isBlank b = true := List.forall_mem_singleton.mpr rfl
  rw [ entry?, skipBlanks_append hpre, htext, skipBlanks_cons (by decide)]
  simp only [Option.bind_eq_bind, rawString?_encode, Option.bind_some,
    skipBlanks_cons (by decide : isBlank 0x3A = false), value?_append hblank,
    h.2.value depth k rest hdepth hrest,
    text?_encode]

theorem entries?_writeEntries (k m : Nat) {e : Option String × JsonValue}
    {es : List (Option String × JsonValue)} (h : ∀ x ∈ e :: es, ReadsEntry n x) (hdepth : n ≤ depth)
    {pre : Bytes} (hpre : ∀ b ∈ pre, isBlank b = true) {fuel : Nat} (hfuel : es.length < fuel)
    (rest : Bytes) : entries? (value? depth) fuel (pre ++ (encode (entryText k e) ++
      (separated k (es.map (entryText k)) ++ (encode (newLine m) ++ 0x7D :: rest)))) =
        some (e :: es, rest) := by
  induction es generalizing e pre fuel with
  | nil =>
    obtain ⟨fuel, rfl⟩ := Nat.exists_eq_succ_of_ne_zero (Nat.ne_of_gt hfuel)
    rw [entries?, entry?_entryText k (h e List.mem_cons_self) hdepth hpre (delimits_separated _ _ _ _)]
    simp only [separated, List.map_nil, List.flatMap_nil, List.nil_append, Option.bind_eq_bind,
      Option.bind_some, skipBlanks_append (isBlank_newLine m),
      skipBlanks_cons (by decide : isBlank 0x7D = false)]
  | cons x es ih =>
    obtain ⟨fuel, rfl⟩ := Nat.exists_eq_succ_of_ne_zero
      (Nat.ne_of_gt (Nat.lt_of_le_of_lt (Nat.zero_le _) hfuel))
    have hrest := ih (fun z hz => h z (List.mem_cons_of_mem e hz)) (isBlank_newLine k)
      (show es.length < fuel by simpa using hfuel)
    have hsplit : separated k ((x :: es).map (entryText k)) ++ (encode (newLine m) ++ 0x7D :: rest) =
        0x2C :: (encode (newLine k) ++ (encode (entryText k x) ++
          (separated k (es.map (entryText k)) ++ (encode (newLine m) ++ 0x7D :: rest)))) := by
      simp [separated]
    rw [entries?,
      entry?_entryText k (h e List.mem_cons_self) hdepth hpre (delimits_separated _ _ _ _), hsplit]
    simp only [Option.bind_eq_bind, Option.bind_some,
      skipBlanks_cons (by decide : isBlank 0x2C = false), hrest]

theorem Reads.object {es : List (Option String × JsonValue)} (h : ∀ e ∈ es, ReadsEntry n e) :
    Reads (n + 1) (.object es) := by
  cases es with
  | nil =>
    refine ⟨fun k => ⟨0x7B, [0x7D], rfl, by decide, by decide⟩, fun depth k rest hd _ => ?_⟩
    obtain ⟨depth, rfl⟩ := Nat.exists_eq_add_of_le' (Nat.le_of_add_left_le hd)
    rfl
  | cons e es =>
    have htext : ∀ k, encode (write k (.object (e :: es))) = 0x7B :: (encode (newLine (k + 1)) ++
        (encode (entryText (k + 1) e) ++ (separated (k + 1) (es.map (entryText (k + 1))) ++
          (encode (newLine k) ++ [0x7D])))) := by
      intro k
      rw [write, writeEntries_eq_map, List.map_cons, encode_bracketed]
      simp [String.utf8EncodeChar]
    refine ⟨fun k => ⟨0x7B, _, htext k, by decide, by decide⟩, fun depth k rest hd hrest => ?_⟩
    obtain ⟨depth, rfl⟩ := Nat.exists_eq_add_of_le' (Nat.le_of_add_left_le hd)
    obtain ⟨r, hr⟩ : ∃ r, encode (entryText (k + 1) e) = 0x22 :: r := by
      simp [entryText, writeString, String.utf8EncodeChar]
    have hnil : ∀ b ∈ ([] : Bytes), isBlank b = true := by simp
    have hbody := fun fuel (hfuel : es.length < fuel) => entries?_writeEntries (k + 1) k h
      (Nat.le_of_succ_le_succ hd) hnil hfuel rest
    simp only [List.nil_append, hr, List.cons_append] at hbody
    rw [htext]
    simp only [List.cons_append, List.append_assoc, hr, List.nil_append]
    rw [value?, skipBlanks_cons (by decide)]
    simp only [skipBlanks_append (isBlank_newLine _), skipBlanks_cons (by decide : isBlank 0x22 = false)]
    split
    case h_1 heq => exact absurd (List.cons.inj heq).1 (by decide)
    case h_2 =>
      have hfuel := length_le_separated (k + 1) (es.map (entryText (k + 1)))
      rw [List.length_map] at hfuel
      rw [hbody _ (by simp only [List.length_cons, List.length_append]; omega)]
      rfl

/-- A value is read back from its text. -/
theorem Reads.read?_pretty {v : JsonValue} (h : Reads n v) (hn : n ≤ (encode (write 0 v)).length + 1) :
    read? (Bytes.ofString v.pretty) = some v := by
  have hread := h.value ((encode (write 0 v)).length + 1) 0 [] hn (by simp [Delimits])
  rw [List.append_nil] at hread
  rw [pretty, Bytes.ofString_ofList, read?, hread]
  rfl

end lists

end SlotBuild.JsonValue
