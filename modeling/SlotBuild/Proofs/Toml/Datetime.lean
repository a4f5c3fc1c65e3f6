import Mathlib.Data.List.DropRight
import SlotBuild.Proofs.Decimal
import SlotBuild.Toml.Datetime

/-! A day, a time of day and an offset are read back from their texts, and what is read is in range. -/

namespace SlotBuild.Toml

open Decimal (padded)

/-- The text does not go on with a digit. -/
def EndsDigits (rest : List Char) : Prop := ∀ c ∈ rest.head?, Decimal.isDigit c = false

def Date.Valid (d : Date) : Prop :=
  d.year < 10 ^ 4 ∧ 1 ≤ d.month ∧ d.month ≤ 12 ∧ 1 ≤ d.day ∧ d.day ≤ daysIn d.year d.month

def Time.Valid (t : Time) : Prop :=
  t.hour ≤ 23 ∧ t.minute ≤ 59 ∧ t.second ≤ 60 ∧ t.nanosecond < 10 ^ 9

def Offset.Valid : Offset → Prop
  | utc => True
  | minutes m => m.natAbs < 24 * 60

def Datetime.Valid : Datetime → Prop
  | date d => d.Valid
  | time t => t.Valid
  | moment d t offset => d.Valid ∧ t.Valid ∧ ∀ o ∈ offset, o.Valid

theorem daysIn_le (year month : Nat) : daysIn year month ≤ 31 := by
  simp only [daysIn]
  split_ifs <;> decide

section digits

variable {n k : Nat} {cs rest : List Char}

theorem fixedDigits?_padded (hk : 0 < k) (h : n < 10 ^ k) (rest : List Char) :
    fixedDigits? k (padded k n ++ rest) = some (n, rest) := by
  have hlen := Decimal.length_padded hk h
  have hne : padded k n ≠ [] := List.ne_nil_of_length_pos (by omega)
  have hall : (padded k n).all Decimal.isDigit = true :=
    List.all_eq_true.mpr Decimal.isDigit_of_mem_padded
  have htake : (padded k n ++ rest).take k = padded k n := List.take_left' hlen
  have hdrop : (padded k n ++ rest).drop k = rest := List.drop_left' hlen
  rw [fixedDigits?, htake, hdrop, if_pos hlen, Decimal.value?, if_pos ⟨hne, hall⟩,
    Decimal.value_padded]
  rfl

/-- Too few digits stand before another character. -/
theorem fixedDigits?_stopped {ds : List Char} {c : Char} (hlen : ds.length < k)
    (hc : Decimal.isDigit c = false) (rest : List Char) :
    fixedDigits? k (ds ++ c :: rest) = none := by
  have hmem : c ∈ (ds ++ c :: rest).take k := by
    obtain ⟨j, rfl⟩ := Nat.exists_eq_add_of_lt hlen
    rw [Nat.add_assoc, List.take_length_add_append, List.take_succ_cons]
    exact List.mem_append_right _ List.mem_cons_self
  have hall : ((ds ++ c :: rest).take k).all Decimal.isDigit = false :=
    List.all_eq_false.mpr ⟨c, hmem, by simp [hc]⟩
  simp [fixedDigits?, Decimal.value?, hall]

theorem lt_of_fixedDigits? (h : fixedDigits? k cs = some (n, rest)) : n < 10 ^ k := by
  rw [fixedDigits?, Decimal.value?] at h
  split_ifs at h with hlen hdigits
  · obtain ⟨rfl, -⟩ : Decimal.value (cs.take k) = n ∧ _ := by simpa using h
    calc Decimal.value (cs.take k) < 10 ^ (cs.take k).length :=
          Decimal.value_lt (List.all_eq_true.mp hdigits.2)
      _ = 10 ^ k := by rw [hlen]
  · simp at h

theorem expect?_cons (c : Char) (r : List Char) : expect? c (c :: r) = some r := if_pos rfl

end digits

namespace Date

theorem ofChars?_chars {d : Date} (h : d.Valid) (rest : List Char) :
    ofChars? (d.chars ++ rest) = some (d, rest) := by
  obtain ⟨hyear, hmonth1, hmonth2, hday1, hday2⟩ := h
  have hdays := daysIn_le d.year d.month
  have hdate : 1 ≤ d.month ∧ d.month ≤ 12 ∧ 1 ≤ d.day ∧ d.day ≤ daysIn d.year d.month :=
    ⟨hmonth1, hmonth2, hday1, hday2⟩
  simp only [chars, ofChars?, List.append_assoc, List.cons_append, Option.bind_eq_bind,
    fixedDigits?_padded (by decide : 0 < 4) hyear,
    fixedDigits?_padded (by decide : 0 < 2) (by omega : d.month < 10 ^ 2),
    fixedDigits?_padded (by decide : 0 < 2) (by omega : d.day < 10 ^ 2), expect?_cons,
    Option.bind_some, if_pos hdate]

theorem valid_of_ofChars? {cs rest : List Char} {d : Date} (h : ofChars? cs = some (d, rest)) :
    d.Valid := by
  simp only [ofChars?, Option.bind_eq_bind, Option.bind_eq_some_iff] at h
  obtain ⟨⟨year, cs⟩, hyear, cs, -, ⟨month, cs⟩, -, cs, -, ⟨day, cs⟩, -, h⟩ := h
  split_ifs at h with hdate
  obtain ⟨rfl, -⟩ : (⟨year, month, day⟩ : Date) = d ∧ _ := by simpa using h
  exact ⟨lt_of_fixedDigits? hyear, hdate⟩

end Date

namespace Time

variable {cs rest : List Char} {t : Time}

/-- The places of a fraction are its nine digits without the zeros at their end. -/
theorem padded_eq_places (n : Nat) : ∃ k, padded 9 n = places n ++ List.replicate k '0' := by
  have hsplit : places n ++ (padded 9 n).rtakeWhile (· = '0') = padded 9 n :=
    List.rdropWhile_append_rtakeWhile ..
  have hzeros : ∀ c ∈ (padded 9 n).rtakeWhile (· = '0'), c = '0' := by
    intro c hc
    simpa using List.mem_rtakeWhile_imp hc
  exact ⟨_, by rw [← List.eq_replicate_of_mem hzeros, hsplit]⟩

theorem fraction_places {n : Nat} (h : n < 10 ^ 9) : fraction (places n) = n := by
  obtain ⟨k, hk⟩ := padded_eq_places n
  have hlen := congrArg List.length hk
  rw [Decimal.length_padded (by decide) h, List.length_append, List.length_replicate] at hlen
  have hvalue := congrArg Decimal.value hk
  rw [Decimal.value_padded, Decimal.value_append, Decimal.value_zeros,
    List.length_replicate] at hvalue
  simp only [fraction, List.take_of_length_le (show (places n).length ≤ 9 by omega), Nat.pow_eq]
  rw [show 9 - (places n).length = k by omega]
  exact hvalue.symm

theorem isDigit_of_mem_places {n : Nat} : ∀ c ∈ places n, Decimal.isDigit c = true := by
  intro c hc
  obtain ⟨k, hk⟩ := padded_eq_places n
  exact Decimal.isDigit_of_mem_padded (n := n) c (hk ▸ List.mem_append_left _ hc)

theorem places_ne_nil {n : Nat} (h : n < 10 ^ 9) (hn : n ≠ 0) : places n ≠ [] := by
  intro hnil
  have hfraction := fraction_places h
  rw [hnil] at hfraction
  exact hn (by simpa [fraction, Decimal.value] using hfraction.symm)

theorem ofChars?_chars (h : t.Valid) (hrest : EndsDigits rest) (hpoint : rest.head? ≠ some '.') :
    ofChars? (t.chars ++ rest) = some (t, rest) := by
  obtain ⟨hhour, hminute, hsecond, hnano⟩ := h
  have htime : ¬¬(t.hour ≤ 23 ∧ t.minute ≤ 59 ∧ t.second ≤ 60) :=
    not_not.mpr ⟨hhour, hminute, hsecond⟩
  simp only [chars, ofChars?, List.append_assoc, List.cons_append, Option.bind_eq_bind,
    fixedDigits?_padded (by decide : 0 < 2) (by omega : t.hour < 10 ^ 2),
    fixedDigits?_padded (by decide : 0 < 2) (by omega : t.minute < 10 ^ 2),
    fixedDigits?_padded (by decide : 0 < 2) (by omega : t.second < 10 ^ 2), expect?_cons,
    Option.bind_some, if_neg htime]
  by_cases hzero : t.nanosecond = 0
  · simp only [if_pos hzero, List.nil_append]
    split
    · exact absurd rfl hpoint
    · rw [← hzero]
  · obtain ⟨htake, hdrop⟩ := run_append (isDigit_of_mem_places (n := t.nanosecond)) hrest
    simp only [if_neg hzero, List.cons_append, htake, hdrop, if_neg (places_ne_nil hnano hzero),
      fraction_places hnano]

theorem valid_of_ofChars? (h : ofChars? cs = some (t, rest)) : t.Valid := by
  have hfraction : ∀ ds : List Char, (∀ c ∈ ds, Decimal.isDigit c = true) →
      fraction ds < 10 ^ 9 := by
    intro ds hds
    have hkept : ∀ c ∈ ds.take 9, Decimal.isDigit c = true :=
      fun c hc => hds c (List.mem_of_mem_take hc)
    have hlen : (ds.take 9).length ≤ 9 := List.length_take_le 9 ds
    calc fraction ds < 10 ^ (ds.take 9).length * 10 ^ (9 - (ds.take 9).length) :=
          Nat.mul_lt_mul_of_pos_right (Decimal.value_lt hkept) (Nat.pow_pos (by decide))
      _ = 10 ^ 9 := by rw [← pow_add, Nat.add_sub_cancel' hlen]
  simp only [ofChars?, Option.bind_eq_bind, Option.bind_eq_some_iff] at h
  obtain ⟨⟨hour, cs⟩, -, cs, -, ⟨minute, cs⟩, -, cs, -, ⟨second, cs⟩, -, h⟩ := h
  split_ifs at h with hrange
  · obtain ⟨hhour, hminute, hsecond⟩ := hrange
    split at h
    · split at h
      · simp at h
      · obtain ⟨rfl, -⟩ := Prod.mk.inj (Option.some.inj h)
        exact ⟨hhour, hminute, hsecond, hfraction _ fun c hc => List.mem_takeWhile_imp hc⟩
    · obtain ⟨rfl, -⟩ := Prod.mk.inj (Option.some.inj h)
      exact ⟨hhour, hminute, hsecond, (by decide : 0 < 10 ^ 9)⟩
  · simp at h

end Time

namespace Offset

variable {cs rest : List Char} {o : Offset}

theorem hoursAndMinutes?_padded {n : Nat} (h : n < 24 * 60) (rest : List Char) :
    hoursAndMinutes? (padded 2 (n / 60) ++ ':' :: padded 2 (n % 60) ++ rest) = some (n, rest) := by
  have hsum : 60 * (n / 60) + n % 60 = n := Nat.div_add_mod n 60
  simp only [hoursAndMinutes?, List.append_assoc, List.cons_append, Option.bind_eq_bind,
    fixedDigits?_padded (by decide : 0 < 2) (by omega : n / 60 < 10 ^ 2),
    fixedDigits?_padded (by decide : 0 < 2) (by omega : n % 60 < 10 ^ 2), expect?_cons,
    Option.bind_some]
  rw [if_pos ⟨by omega, by omega⟩, hsum]

theorem ofChars?_chars (h : o.Valid) (rest : List Char) :
    ofChars? (o.chars ++ rest) = some (o, rest) := by
  cases o with
  | utc => rfl
  | minutes m =>
    by_cases hneg : m < 0
    · simp only [chars, if_pos hneg, List.cons_append, ofChars?, hoursAndMinutes?_padded h]
      simp only [Option.map_some, Option.some.injEq, Prod.mk.injEq, minutes.injEq, and_true]
      omega
    · simp only [chars, if_neg hneg, List.cons_append, ofChars?, hoursAndMinutes?_padded h]
      simp only [Option.map_some, Option.some.injEq, Prod.mk.injEq, minutes.injEq, and_true]
      omega

theorem lt_of_hoursAndMinutes? {n : Nat} (h : hoursAndMinutes? cs = some (n, rest)) :
    n < 24 * 60 := by
  simp only [hoursAndMinutes?, Option.bind_eq_bind, Option.bind_eq_some_iff] at h
  obtain ⟨⟨hour, cs⟩, -, cs, -, ⟨minute, cs⟩, -, h⟩ := h
  split at h
  · obtain ⟨rfl, -⟩ := Prod.mk.inj (Option.some.inj h)
    omega
  · simp at h

theorem valid_of_ofChars? (h : ofChars? cs = some (o, rest)) : o.Valid := by
  unfold ofChars? at h
  split at h
  · obtain ⟨rfl, -⟩ := Prod.mk.inj (Option.some.inj h)
    trivial
  · obtain ⟨rfl, -⟩ := Prod.mk.inj (Option.some.inj h)
    trivial
  · obtain ⟨⟨n, r⟩, hn, h⟩ := Option.map_eq_some_iff.mp h
    obtain ⟨rfl, -⟩ := Prod.mk.inj h
    exact lt_of_hoursAndMinutes? hn
  · obtain ⟨⟨n, r⟩, hn, h⟩ := Option.map_eq_some_iff.mp h
    obtain ⟨rfl, -⟩ := Prod.mk.inj h
    simpa [Valid] using lt_of_hoursAndMinutes? hn
  · simp at h

end Offset

namespace Datetime

theorem endsDigits_offset (offset : Option Offset) :
    EndsDigits ((offset.map Offset.chars).getD []) ∧
    ((offset.map Offset.chars).getD []).head? ≠ some '.' := by
  rcases offset with _ | _ | m
  · simp [EndsDigits]
  · exact ⟨by simp [EndsDigits, Offset.chars]; rfl, by simp [Offset.chars]⟩
  · simp only [Option.map_some, Option.getD_some, Offset.chars]
    split
    · exact ⟨by simp [EndsDigits]; rfl, by simp⟩
    · exact ⟨by simp [EndsDigits]; rfl, by simp⟩

theorem ofChars?_chars {d : Datetime} (h : d.Valid) : ofChars? d.chars = some d := by
  cases d with
  | date d =>
    have hdate := Date.ofChars?_chars h []
    rw [List.append_nil] at hdate
    simp [chars, ofChars?, hdate]
  | time t =>
    have hdate : Date.ofChars? t.chars = none := by
      have hhour : (padded 2 t.hour).length = 2 :=
        Decimal.length_padded (by decide) (by have := h.1; omega)
      have hcolon : Decimal.isDigit ':' = false := by decide
      simp [Date.ofChars?, Time.chars,
        fixedDigits?_stopped (by omega : (padded 2 t.hour).length < 4) hcolon]
    have htime : Time.ofChars? (t.chars ++ []) = some (t, []) :=
      Time.ofChars?_chars h (by simp [EndsDigits]) (by simp)
    rw [List.append_nil] at htime
    simp [chars, ofChars?, hdate, htime]
  | moment d t offset =>
    obtain ⟨hd, ht, ho⟩ := h
    obtain ⟨hends, hpoint⟩ := endsDigits_offset offset
    have hdate := Date.ofChars?_chars hd ('T' :: (t.chars ++ (offset.map Offset.chars).getD []))
    have hsep : isSeparator 'T' = true := by decide
    simp only [chars, ofChars?, List.append_assoc, List.cons_append, hdate, hsep, Bool.not_true,
      Bool.false_eq_true, if_false, Option.bind_eq_bind, Time.ofChars?_chars ht hends hpoint,
      Option.bind_some]
    rcases offset with _ | o
    · rfl
    · have hoffset := Offset.ofChars?_chars (ho o rfl) []
      rw [List.append_nil] at hoffset
      cases hchars : o.chars with
      | nil => simp [hchars, Offset.ofChars?] at hoffset
      | cons c cs =>
        rw [hchars] at hoffset
        simp [hchars, hoffset]

theorem valid_of_ofChars? {cs : List Char} {d : Datetime} (h : ofChars? cs = some d) : d.Valid := by
  unfold ofChars? at h
  cases hd : Date.ofChars? cs with
  | none =>
    simp only [hd] at h
    rcases ht : Time.ofChars? cs with _ | ⟨t, _ | ⟨c, r⟩⟩
    · simp [ht] at h
    · simp only [ht] at h
      obtain rfl := Option.some.inj h
      exact Time.valid_of_ofChars? ht
    · simp [ht] at h
  | some p =>
    obtain ⟨d', _ | ⟨c, r⟩⟩ := p
    · simp only [hd] at h
      obtain rfl := Option.some.inj h
      exact Date.valid_of_ofChars? hd
    · simp only [hd, Option.bind_eq_bind] at h
      split_ifs at h with hseparator
      · simp at h
      obtain ⟨⟨t, r'⟩, ht, h⟩ := Option.bind_eq_some_iff.mp h
      have hdate := Date.valid_of_ofChars? hd
      have htime := Time.valid_of_ofChars? ht
      cases r' with
      | nil =>
        obtain rfl := Option.some.inj h
        exact ⟨hdate, htime, by simp⟩
      | cons x r' =>
        rcases ho : Offset.ofChars? (x :: r') with _ | ⟨o, _ | ⟨c, r⟩⟩
        · simp [ho] at h
        · simp only [ho] at h
          obtain rfl := Option.some.inj h
          exact ⟨hdate, htime, fun o' ho' => Option.some.inj ho' ▸ Offset.valid_of_ofChars? ho⟩
        · simp [ho] at h

end Datetime

end SlotBuild.Toml
