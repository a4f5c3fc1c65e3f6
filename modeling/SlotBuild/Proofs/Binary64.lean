import Mathlib.Data.Int.Log
import Mathlib.Data.Rat.Floor
import Mathlib.Tactic.FieldSimp
import Mathlib.Tactic.Ring
import Mathlib.Tactic.Positivity
import SlotBuild.Binary64.Shortest

/-! Rounding depends on the quotient alone, not on the two numbers that it is given as. So a number
is read from every decimal with the same value, and the decimal that is chosen for a number reads
back as that number. -/

namespace SlotBuild.Binary64

/-- A finite number has at most 53 bits, and fewer than that only with the least exponent. -/
def Canonical : Binary64 → Prop
  | .finite _ s e => leastExponent ≤ e ∧ e ≤ greatestExponent ∧ s < 2 ^ 53 ∧
    (e = leastExponent ∨ 2 ^ 52 ≤ s)
  | _ => True

section quotients

variable {num den num' den' k : Nat} {t e : Int}

theorem scaled_snd_pos (hden : 0 < den) (num : Nat) (e : Int) : 0 < (scaled num den e).2 := by
  rw [scaled]
  split
  · rw [Nat.shiftLeft_eq]
    positivity
  · exact hden

theorem scaled_div (num den : Nat) (e : Int) :
    ((scaled num den e).1 : ℚ) / (scaled num den e).2 = (num : ℚ) / den / 2 ^ e := by
  rw [scaled]
  by_cases he : 0 ≤ e
  · rw [if_pos he]
    obtain ⟨n, rfl⟩ := Int.eq_ofNat_of_zero_le he
    simp [Nat.shiftLeft_eq, div_div]
  · rw [if_neg he]
    obtain ⟨n, hn⟩ := Int.eq_ofNat_of_zero_le (show 0 ≤ -e by omega)
    obtain rfl : e = -n := by omega
    simp [Nat.shiftLeft_eq, mul_div_right_comm]

theorem log_eq {q : ℚ} (hbelow : (2 : ℚ) ^ t ≤ q) (habove : q < 2 ^ (t + 1)) : Int.log 2 q = t := by
  have hq : 0 < q := (zpow_pos two_pos t).trans_le hbelow
  rw [← Nat.cast_two (R := ℚ)] at hbelow habove
  have hle := (Int.zpow_le_iff_le_log one_lt_two hq).mp hbelow
  have hlt := (Int.lt_zpow_iff_log_lt one_lt_two hq).mp habove
  omega

/-- The lengths of two numbers tell the logarithm of their quotient up to one. -/
theorem quotient_bounds (hnum : 0 < num) (hden : 0 < den) :
    (2 : ℚ) ^ ((num.log2 : Int) - den.log2 - 1) ≤ num / den ∧
      (num : ℚ) / den < 2 ^ ((num.log2 : Int) - den.log2 + 1) := by
  have hnum1 : (2 : ℚ) ^ num.log2 ≤ num := by exact_mod_cast Nat.log2_self_le hnum.ne'
  have hnum2 : (num : ℚ) < 2 ^ (num.log2 + 1) := by exact_mod_cast Nat.lt_log2_self
  have hden1 : (2 : ℚ) ^ den.log2 ≤ den := by exact_mod_cast Nat.log2_self_le hden.ne'
  have hden2 : (den : ℚ) < 2 ^ (den.log2 + 1) := by exact_mod_cast Nat.lt_log2_self
  have hpos : (0 : ℚ) < den := by exact_mod_cast hden
  have hlow : (2 : ℚ) ^ ((num.log2 : Int) - den.log2 - 1) = 2 ^ num.log2 / 2 ^ (den.log2 + 1) := by
    rw [sub_sub, zpow_sub₀ two_ne_zero]
    norm_cast
  have hhigh : (2 : ℚ) ^ ((num.log2 : Int) - den.log2 + 1) = 2 ^ (num.log2 + 1) / 2 ^ den.log2 := by
    rw [sub_add_eq_add_sub, zpow_sub₀ two_ne_zero]
    norm_cast
  rw [hlow, hhigh, div_le_div_iff₀ (by positivity) hpos, div_lt_div_iff₀ hpos (by positivity)]
  constructor
  · gcongr
  · calc (num : ℚ) * 2 ^ den.log2 ≤ num * den := by gcongr
      _ < 2 ^ (num.log2 + 1) * den := by gcongr

theorem floorLog_eq (hnum : 0 < num) (hden : 0 < den) :
    floorLog num den = Int.log 2 ((num : ℚ) / den) := by
  obtain ⟨hlow, hhigh⟩ := quotient_bounds hnum hden
  have hscaled : ∀ e, (scaled num den e).2 ≤ (scaled num den e).1 ↔ (2 : ℚ) ^ e ≤ num / den := by
    intro e
    have hpos : (0 : ℚ) < (scaled num den e).2 := by exact_mod_cast scaled_snd_pos hden num e
    rw [← Nat.cast_le (α := ℚ), ← one_le_div hpos, scaled_div, one_le_div (zpow_pos two_pos e)]
  simp only [floorLog, hscaled]
  by_cases h : (2 : ℚ) ^ ((num.log2 : Int) - den.log2) ≤ num / den
  · rw [if_pos h, log_eq h hhigh]
  · rw [if_neg h, log_eq hlow (by simpa using not_le.mp h)]

theorem roundDiv_congr (hden : 0 < den) (hden' : 0 < den') (h : (num : ℚ) / den = num' / den') :
    roundDiv num den = roundDiv num' den' := by
  have hscale : ∀ a b c : Nat, 0 < c → roundDiv (c * a) (c * b) = roundDiv a b := by
    intro a b c hc
    simp only [roundDiv, Nat.mul_div_mul_left a b hc, Nat.mul_mod_mul_left, Nat.mul_left_comm 2 c,
      Nat.mul_lt_mul_left hc]
  rw [div_eq_div_iff (by positivity) (by positivity)] at h
  have hcross : den' * num = den * num' := by
    rw [mul_comm den', mul_comm den]
    exact_mod_cast h
  rw [← hscale num den den' hden', ← hscale num' den' den hden, hcross, mul_comm den' den]

theorem roundDiv_le (h : num ≤ k * den) : roundDiv num den ≤ k := by
  rcases Nat.eq_zero_or_pos den with rfl | hden
  · simp at h
    subst h
    simp [roundDiv]
  have hdiv : num / den ≤ k := Nat.div_le_of_le_mul (by rwa [mul_comm])
  have hmod := Nat.div_add_mod num den
  have hlt := Nat.mod_lt num hden
  have hstrict : num % den ≠ 0 → num / den < k := by
    intro hne
    by_contra hge
    have hmul : k * den ≤ den * (num / den) := by
      rw [mul_comm k]
      exact Nat.mul_le_mul_left den (by omega)
    omega
  simp only [roundDiv]
  split_ifs <;> omega

theorem roundDiv_eq_zero (h : 2 * num < den) : roundDiv num den = 0 := by
  have hlt : num < den := by omega
  rw [roundDiv, Nat.mod_eq_of_lt hlt, if_pos h, Nat.div_eq_of_lt hlt]

theorem le_roundDiv (hden : 0 < den) (h : k * den ≤ num) : k ≤ roundDiv num den := by
  have hdiv : k ≤ num / den := (Nat.le_div_iff_mul_le hden).mpr h
  simp only [roundDiv]
  split_ifs <;> omega

end quotients

section rounding

variable {num den num' den' s : Nat} {e : Int} {negative : Bool}

theorem exponentFor_congr (hnum : 0 < num) (hden : 0 < den) (hnum' : 0 < num') (hden' : 0 < den')
    (h : (num : ℚ) / den = num' / den') : exponentFor num den = exponentFor num' den' := by
  rw [exponentFor, exponentFor, floorLog_eq hnum hden, floorLog_eq hnum' hden', h]

theorem ofRatio_congr (negative : Bool) (hden : 0 < den) (hden' : 0 < den')
    (h : (num : ℚ) / den = num' / den') :
    ofRatio negative num den = ofRatio negative num' den' := by
  have hzero : num = 0 ↔ num' = 0 := by
    have hcross := (div_eq_div_iff (by positivity) (by positivity)).mp h
    have : num * den' = num' * den := by exact_mod_cast hcross
    constructor <;> rintro rfl <;> simp_all [Nat.ne_of_gt]
  by_cases hnum : num = 0
  · rw [ofRatio, ofRatio, if_pos hnum, if_pos (hzero.mp hnum)]
  · have hnum' := mt hzero.mpr hnum
    have he := exponentFor_congr (Nat.pos_of_ne_zero hnum) hden (Nat.pos_of_ne_zero hnum') hden' h
    simp only [ofRatio, if_neg hnum, if_neg hnum', he]
    rw [roundDiv_congr (scaled_snd_pos hden num _) (scaled_snd_pos hden' num' _)
      (by rw [scaled_div, scaled_div, h])]

/-- The exponent of a canonical number is the one with which its quotient is rounded. -/
theorem exponentFor_eq (hs : 0 < s) (hcanonical : Canonical (.finite negative s e)) (hden : 0 < den)
    (h : (num : ℚ) / den = s * 2 ^ e) : exponentFor num den = e := by
  obtain ⟨hleast, -, hbits, hfull⟩ := hcanonical
  have hpow : (0 : ℚ) < 2 ^ e := zpow_pos two_pos e
  have hq : (0 : ℚ) < s * 2 ^ e := by positivity
  have hnum : 0 < num := by
    rw [Nat.pos_iff_ne_zero]
    rintro rfl
    simp [hs.ne', hpow.ne'] at h
  have habove : (s : ℚ) * 2 ^ e < 2 ^ (53 + e) := by
    rw [zpow_add₀ two_ne_zero]
    gcongr
    exact_mod_cast hbits
  have hlt := (Int.lt_zpow_iff_log_lt one_lt_two hq).mp (by exact_mod_cast habove)
  rw [exponentFor, floorLog_eq hnum hden, h]
  rcases hfull with rfl | hfull
  · rw [max_eq_right (by omega)]
  · have hbelow : (2 : ℚ) ^ (52 + e) ≤ s * 2 ^ e := by
      rw [zpow_add₀ two_ne_zero]
      gcongr
      exact_mod_cast hfull
    have hle := (Int.zpow_le_iff_le_log one_lt_two hq).mp (by exact_mod_cast hbelow)
    rw [max_eq_left (by omega)]
    omega

theorem ofRatio_exact (hs : 0 < s) (hcanonical : Canonical (.finite negative s e)) (hden : 0 < den)
    (h : (num : ℚ) / den = s * 2 ^ e) : ofRatio negative num den = .finite negative s e := by
  have hpow : (0 : ℚ) < 2 ^ e := zpow_pos two_pos e
  have he := exponentFor_eq hs hcanonical hden h
  have hnum : num ≠ 0 := by
    rintro rfl
    simp [hs.ne', hpow.ne'] at h
  have hround : roundDiv (scaled num den e).1 (scaled num den e).2 = s := by
    have hratio : ((scaled num den e).1 : ℚ) / (scaled num den e).2 = s / (1 : Nat) := by
      rw [scaled_div, h, mul_div_cancel_right₀ _ hpow.ne', Nat.cast_one, div_one]
    rw [roundDiv_congr (scaled_snd_pos hden num e) one_pos hratio]
    simp [roundDiv, Nat.mod_one]
  obtain ⟨-, hgreatest, hbits, -⟩ := hcanonical
  have hcarry : s ≠ 1 <<< precision := by
    rw [Nat.shiftLeft_eq, precision]
    omega
  simp [ofRatio, hnum, he, hround, ofRounded, hcarry, not_lt.mpr hgreatest]

theorem ofRounded_canonical (negative : Bool) {q : Nat} (hleast : leastExponent ≤ e)
    (hbits : q ≤ 2 ^ 53) (hfull : e = leastExponent ∨ 2 ^ 52 ≤ q) :
    Canonical (ofRounded negative q e) := by
  simp only [ofRounded, precision, Nat.one_shiftLeft]
  by_cases hq : q = 2 ^ 53
  · simp only [hq, if_true]
    split
    · trivial
    · exact ⟨by omega, by omega, by norm_num, Or.inr (by norm_num)⟩
  · simp only [hq, if_false]
    split
    · trivial
    · exact ⟨hleast, by omega, by omega, hfull⟩

theorem zero_canonical (negative : Bool) : Canonical (zero negative) :=
  ⟨le_rfl, by decide, by norm_num, Or.inl rfl⟩

theorem ofRatio_canonical (negative : Bool) (num : Nat) (hden : 0 < den) :
    Canonical (ofRatio negative num den) := by
  by_cases hnum : num = 0
  · rw [ofRatio, if_pos hnum]
    exact zero_canonical negative
  rw [ofRatio, if_neg hnum]
  have hnum := Nat.pos_of_ne_zero hnum
  have hpow : ∀ e : Int, (0 : ℚ) < 2 ^ e := zpow_pos two_pos
  set e := exponentFor num den with he
  have hpos := scaled_snd_pos hden num e
  have hposq : (0 : ℚ) < (scaled num den e).2 := by exact_mod_cast hpos
  have hq : (0 : ℚ) < (num : ℚ) / den := by positivity
  have hscaled := scaled_div num den e
  rw [exponentFor, floorLog_eq hnum hden] at he
  have habove : (num : ℚ) / den < 2 ^ (53 + e) := by
    exact_mod_cast (Int.lt_zpow_iff_log_lt (b := 2) one_lt_two hq).mpr (by omega)
  refine ofRounded_canonical negative (by omega) (roundDiv_le ?_) ?_
  · rw [zpow_add₀ two_ne_zero, ← div_lt_iff₀ (hpow e), ← hscaled, div_lt_iff₀ hposq] at habove
    exact_mod_cast habove.le
  · rcases le_total (Int.log 2 ((num : ℚ) / den) - 52) leastExponent with h | h
    · exact Or.inl (by rw [he, max_eq_right h])
    · right
      have hbelow := Int.zpow_log_le_self (b := 2) one_lt_two hq
      have hlog : Int.log 2 ((num : ℚ) / den) = 52 + e := by
        rw [max_eq_left h] at he
        omega
      rw [hlog, Nat.cast_two, zpow_add₀ two_ne_zero, ← le_div_iff₀ (hpow e), ← hscaled,
        le_div_iff₀ hposq]
        at hbelow
      exact le_roundDiv hpos (by exact_mod_cast hbelow)

end rounding

section decimals

variable {num den d d' s : Nat} {p p' e : Int}

theorem ofRatio_eq_infinite (negative : Bool) {k : Nat} (hk : 1024 ≤ k) (hden : 0 < den)
    (h : 2 ^ k * den ≤ num) :
    ofRatio negative num den = .infinite negative := by
  have hnum : 0 < num := lt_of_lt_of_le (by positivity) h
  have hdenq : (0 : ℚ) < den := by exact_mod_cast hden
  have hbelow : (2 : ℚ) ^ (k : Int) ≤ num / den := by
    rw [le_div_iff₀ hdenq]
    exact_mod_cast h
  have hq : (0 : ℚ) < num / den := by positivity
  have hlog : (k : Int) ≤ Int.log 2 ((num : ℚ) / den) :=
    (Int.zpow_le_iff_le_log one_lt_two hq).mp (by exact_mod_cast hbelow)
  have he : greatestExponent < exponentFor num den := by
    rw [exponentFor, floorLog_eq hnum hden, greatestExponent]
    omega
  simp only [ofRatio, if_neg hnum.ne', ofRounded]
  split_ifs <;> first | rfl | omega

theorem ofRatio_eq_zero (negative : Bool) {k : Nat} (hk : 1075 ≤ k) (h : num * 2 ^ k < den) :
    ofRatio negative num den = zero negative := by
  rcases Nat.eq_zero_or_pos num with rfl | hnum
  · rw [ofRatio, if_pos rfl]
  have hden : 0 < den := Nat.zero_lt_of_lt h
  have hdenq : (0 : ℚ) < den := by exact_mod_cast hden
  have habove : (num : ℚ) / den < 2 ^ (-1 + leastExponent) := by
    calc (num : ℚ) / den < 2 ^ (-k : Int) := by
          rw [div_lt_iff₀ hdenq, zpow_neg, ← div_eq_inv_mul, lt_div_iff₀ (zpow_pos two_pos _)]
          exact_mod_cast h
      _ ≤ 2 ^ (-1 + leastExponent) := zpow_le_zpow_right₀ one_le_two (by rw [leastExponent]; omega)
  have hnumq : (0 : ℚ) < num := by exact_mod_cast hnum
  have hlog := (Int.lt_zpow_iff_log_lt one_lt_two (div_pos hnumq hdenq)).mp
    (by exact_mod_cast habove)
  have he : exponentFor num den = leastExponent := by
    rw [exponentFor, floorLog_eq hnum hden]
    omega
  have hround : roundDiv (scaled num den leastExponent).1 (scaled num den leastExponent).2 = 0 := by
    have hpos : (0 : ℚ) < (scaled num den leastExponent).2 := by
      exact_mod_cast scaled_snd_pos hden num _
    rw [zpow_add₀ two_ne_zero, ← div_lt_iff₀ (zpow_pos two_pos _), ← scaled_div, zpow_neg_one,
      div_lt_iff₀ hpos, ← div_eq_inv_mul, lt_div_iff₀' two_pos] at habove
    exact roundDiv_eq_zero (by exact_mod_cast habove)
  simp only [ofRatio, if_neg hnum.ne', he, hround]
  rfl

theorem two_pow_le (n : Nat) : 2 ^ (3 * n) ≤ 10 ^ n := by
  rw [pow_mul]
  exact Nat.pow_le_pow_left (by decide) n

/-- The limits beyond which nothing is multiplied out do not change the result. -/
theorem ofDecimal_eq_ofRatio (negative : Bool) (hd : 0 < d) (p : Int) :
    ofDecimal negative d p = ofRatio negative (d * 10 ^ p.toNat) (10 ^ (-p).toNat) := by
  rw [ofDecimal, if_neg hd.ne']
  split_ifs with hlarge hsmall hp
  · have hhuge : 2 ^ (3 * p.toNat) * 10 ^ (-p).toNat ≤ d * 10 ^ p.toNat := by
      rw [show (-p).toNat = 0 by omega, pow_zero, mul_one]
      exact (two_pow_le _).trans (Nat.le_mul_of_pos_left _ hd)
    exact (ofRatio_eq_infinite negative (by omega) (by positivity) hhuge).symm
  · -- The decimal is below `2 ^ -k`, where `k` is what its digits leave of three bits a place.
    obtain ⟨k, hk⟩ := Nat.exists_eq_add_of_le (show d.log2 + 1 ≤ 3 * (-p).toNat by omega)
    have htiny : d * 10 ^ p.toNat * 2 ^ k < 10 ^ (-p).toNat := by
      calc d * 10 ^ p.toNat * 2 ^ k = d * 2 ^ k := by simp [show p.toNat = 0 by omega]
        _ < 2 ^ (d.log2 + 1) * 2 ^ k := by
          gcongr
          exact Nat.lt_log2_self
        _ = 2 ^ (3 * (-p).toNat) := by rw [hk, pow_add _ _ k]
        _ ≤ 10 ^ (-p).toNat := two_pow_le _
    exact (ofRatio_eq_zero negative (by omega) htiny).symm
  · simp [show (-p).toNat = 0 by omega]
  · simp [show p.toNat = 0 by omega]

theorem digits_div (d : Nat) (p : Int) :
    ((d * 10 ^ p.toNat : Nat) : ℚ) / (10 ^ (-p).toNat : Nat) = d * 10 ^ p := by
  rcases le_total 0 p with hp | hp
  · obtain ⟨n, rfl⟩ := Int.eq_ofNat_of_zero_le hp
    simp
  · obtain ⟨n, hn⟩ := Int.eq_ofNat_of_zero_le (show 0 ≤ -p by omega)
    obtain rfl : p = -n := by omega
    simp [div_eq_mul_inv]

/-- A decimal is read by its value. -/
theorem ofDecimal_congr (negative : Bool) (h : (d : ℚ) * 10 ^ p = d' * 10 ^ p') :
    ofDecimal negative d p = ofDecimal negative d' p' := by
  have hpow : ∀ p : Int, (10 : ℚ) ^ p ≠ 0 := fun p => zpow_ne_zero p (by norm_num)
  have hzero : d = 0 ↔ d' = 0 := by
    constructor <;> rintro rfl <;> simpa [hpow] using h
  by_cases hd : d = 0
  · rw [ofDecimal, ofDecimal, if_pos hd, if_pos (hzero.mp hd)]
  · rw [ofDecimal_eq_ofRatio negative (Nat.pos_of_ne_zero hd),
      ofDecimal_eq_ofRatio negative (Nat.pos_of_ne_zero (mt hzero.mpr hd))]
    exact ofRatio_congr negative (by positivity) (by positivity) (by rw [digits_div, digits_div, h])

theorem ofDecimal_canonical (negative : Bool) (d : Nat) (p : Int) :
    Canonical (ofDecimal negative d p) := by
  rcases Nat.eq_zero_or_pos d with rfl | hd
  · exact zero_canonical negative
  · rw [ofDecimal_eq_ofRatio negative hd]
    exact ofRatio_canonical negative _ (by positivity)

/-- The sign takes no part in rounding. -/
theorem ofRatio_sign (negative : Bool) (h : ofRatio false num den = .finite false s e) :
    ofRatio negative num den = .finite negative s e := by
  have hround : ∀ (q : Nat) (e' : Int), ofRounded false q e' = .finite false s e →
      ofRounded negative q e' = .finite negative s e := by
    intro q e' h
    simp only [ofRounded] at h ⊢
    split_ifs at h ⊢ <;> simp_all
  by_cases hnum : num = 0
  · simp_all [ofRatio, zero]
  · simp only [ofRatio, if_neg hnum] at h ⊢
    exact hround _ _ h

theorem ofDecimal_sign (negative : Bool) (h : ofDecimal false d p = .finite false s e) :
    ofDecimal negative d p = .finite negative s e := by
  rcases Nat.eq_zero_or_pos d with rfl | hd
  · simp only [ofDecimal, zero, if_true] at h ⊢
    simpa using h
  · rw [ofDecimal_eq_ofRatio false hd] at h
    rw [ofDecimal_eq_ofRatio negative hd]
    exact ofRatio_sign negative h

end decimals

section shortest

variable {s : Nat} {e : Int}

theorem readsBack_of_onGrid? {p : Int} {d : Digits} (h : onGrid? s e p = some d) :
    readsBack s e d = true := by
  simp only [onGrid?] at h
  split_ifs at h <;> simp_all

theorem readsBack_of_firstGrid? {place : Int} {fuel k : Nat} {d : Digits}
    (h : firstGrid? s e place fuel k = some d) : readsBack s e d = true := by
  induction fuel generalizing k with
  | zero => simp [firstGrid?] at h
  | succ fuel ih =>
    simp only [firstGrid?] at h
    split at h
    case h_1 hgrid =>
      obtain rfl := Option.some.inj h
      exact readsBack_of_onGrid? hgrid
    case h_2 => exact ih h

theorem exactDigits_value (s : Nat) (e : Int) :
    ((exactDigits s e).digits : ℚ) * 10 ^ (exactDigits s e).power = s * 2 ^ e := by
  rw [exactDigits]
  by_cases he : 0 ≤ e
  · rw [if_pos he]
    obtain ⟨n, rfl⟩ := Int.eq_ofNat_of_zero_le he
    simp [Nat.shiftLeft_eq]
  · rw [if_neg he]
    obtain ⟨n, hn⟩ := Int.eq_ofNat_of_zero_le (show 0 ≤ -e by omega)
    obtain rfl : e = -n := by omega
    have hten : (10 : ℚ) ^ n = 5 ^ n * 2 ^ n := by rw [← mul_pow]; norm_num
    simp only [neg_neg, Int.toNat_natCast, Nat.pow_eq, Nat.cast_mul, Nat.cast_pow, Nat.cast_ofNat,
      zpow_neg, zpow_natCast, hten]
    field_simp

theorem readsBack_shortest (hs : 0 < s) (hcanonical : Canonical (.finite false s e)) :
    readsBack s e (shortest s e) = true := by
  rw [shortest]
  cases hgrid : firstGrid? s e (pointPlace (ratio s e).1 (ratio s e).2) 17 1 with
  | some d => exact readsBack_of_firstGrid? hgrid
  | none =>
    have hvalue := exactDigits_value s e
    have hdigits : 0 < (exactDigits s e).digits := by
      rw [Nat.pos_iff_ne_zero]
      intro hzero
      have hpow := zpow_ne_zero e (two_ne_zero (α := ℚ))
      simp [hzero, hs.ne', hpow] at hvalue
    rw [Option.getD_none, readsBack, ofDecimal_eq_ofRatio false hdigits,
      ofRatio_exact hs hcanonical (by positivity) (by rw [digits_div, hvalue])]
    exact beq_self_eq_true _

theorem dropZeros_value (fuel : Nat) (d : Digits) :
    ((dropZeros fuel d).digits : ℚ) * 10 ^ (dropZeros fuel d).power = d.digits * 10 ^ d.power := by
  induction fuel generalizing d with
  | zero => rfl
  | succ fuel ih =>
    rw [dropZeros]
    split_ifs with h
    · have hdiv : (d.digits : ℚ) = (d.digits / 10 : Nat) * 10 := by
        exact_mod_cast (Nat.div_mul_cancel (Nat.dvd_of_mod_eq_zero h.2.1)).symm
      rw [ih, zpow_add₀ (by norm_num), zpow_one]
      conv_rhs => rw [hdiv]
      ring
    · rfl

/-- The decimal that is written for a number is read as that number. -/
theorem readsBack_dropZeros_shortest (hs : 0 < s) (hcanonical : Canonical (.finite false s e))
    (fuel : Nat) :
    readsBack s e (dropZeros fuel (shortest s e)) = true := by
  have hread := readsBack_shortest hs hcanonical
  rwa [readsBack, ofDecimal_congr false (dropZeros_value fuel _)]

end shortest

end SlotBuild.Binary64
