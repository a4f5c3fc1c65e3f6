/-! Decimal numerals. A numeral is read digit by digit from the left, and the numeral that is
written for a number has no zero in front. -/

namespace SlotBuild.Decimal

def isDigit (c : Char) : Bool := '0' ≤ c && c ≤ '9'

def digitValue (c : Char) : Nat := c.toNat - '0'.toNat

def digitChar (d : Nat) : Char := Char.ofNat ('0'.toNat + d)

def value (cs : List Char) : Nat := cs.foldl (fun n c => 10 * n + digitValue c) 0

def numeral (n : Nat) : List Char :=
  if n < 10 then [digitChar n] else numeral (n / 10) ++ [digitChar (n % 10)]

theorem digitValue_digitChar {d : Nat} (h : d < 10) : digitValue (digitChar d) = d := by
  have : ∀ e : Fin 10, digitValue (digitChar e.val) = e.val := by decide
  exact this ⟨d, h⟩

theorem isDigit_digitChar {d : Nat} (h : d < 10) : isDigit (digitChar d) = true := by
  have : ∀ e : Fin 10, isDigit (digitChar e.val) = true := by decide
  exact this ⟨d, h⟩

theorem value_append_digit (cs : List Char) (c : Char) :
    value (cs ++ [c]) = 10 * value cs + digitValue c := by
  simp [value, List.foldl_append]

theorem value_numeral (n : Nat) : value (numeral n) = n := by
  induction n using Nat.strongRecOn with
  | _ n ih =>
    rw [numeral]
    by_cases h : n < 10
    · simp [h, value, digitValue_digitChar h]
    · rw [if_neg h, value_append_digit, ih (n / 10) (by omega), digitValue_digitChar (by omega)]
      omega

theorem isDigit_of_mem_numeral (n : Nat) : ∀ c ∈ numeral n, isDigit c = true := by
  induction n using Nat.strongRecOn with
  | _ n ih =>
    intro c hc
    rw [numeral] at hc
    by_cases h : n < 10
    · rw [if_pos h, List.mem_singleton] at hc
      exact hc ▸ isDigit_digitChar h
    · rw [if_neg h] at hc
      rcases List.mem_append.mp hc with hc | hc
      · exact ih (n / 10) (by omega) c hc
      · rw [List.mem_singleton] at hc
        exact hc ▸ isDigit_digitChar (by omega)

theorem numeral_ne_nil (n : Nat) : numeral n ≠ [] := by
  rw [numeral]
  split <;> simp

def text (n : Nat) : String := String.ofList (numeral n)

def intChars (i : Int) : List Char := if i < 0 then '-' :: numeral i.natAbs else numeral i.natAbs

def intText (i : Int) : String := String.ofList (intChars i)

/-- With zeros in front, at least `width` digits. -/
def padded (width n : Nat) : List Char :=
  List.replicate (width - (numeral n).length) '0' ++ numeral n

/-- `none` unless every character is a digit and there is one. -/
def value? (cs : List Char) : Option Nat :=
  if cs ≠ [] ∧ cs.all isDigit then some (value cs) else none

end SlotBuild.Decimal
