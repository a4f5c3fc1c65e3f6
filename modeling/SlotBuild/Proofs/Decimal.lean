import Mathlib.Data.List.TakeWhile
import Mathlib.Tactic.Ring
import SlotBuild.Text.Decimal

/-! Runs of characters, digits above all, and the numbers that they stand for: what is read from two
runs of digits, and which digits are written for a number. -/

namespace SlotBuild

/-- A run ends where what follows it does not go on with it. -/
theorem run_append {α : Type} {p : α → Bool} {run rest : List α} (h : ∀ c ∈ run, p c = true)
    (hrest : ∀ c ∈ rest.head?, p c = false) :
    (run ++ rest).takeWhile p = run ∧ (run ++ rest).dropWhile p = rest := by
  have hstop : rest.takeWhile p = [] ∧ rest.dropWhile p = rest := by
    cases rest with
    | nil => exact ⟨rfl, rfl⟩
    | cons c rest => simp [hrest c rfl]
  rw [List.takeWhile_append_of_pos h, List.dropWhile_append_of_pos h, hstop.1, hstop.2]
  simp

namespace Decimal

theorem foldl_value (cs : List Char) (n : Nat) :
    cs.foldl (fun n c => 10 * n + digitValue c) n = n * 10 ^ cs.length + value cs := by
  induction cs generalizing n with
  | nil => simp [value]
  | cons c cs ih =>
    have hcons : value (c :: cs) = digitValue c * 10 ^ cs.length + value cs := by
      simpa [value] using ih (digitValue c)
    rw [List.foldl_cons, ih, hcons, List.length_cons]
    ring

theorem value_append (cs ds : List Char) :
    value (cs ++ ds) = value cs * 10 ^ ds.length + value ds := by
  rw [value, List.foldl_append, foldl_value]
  rfl

theorem value_zeros (k : Nat) : value (List.replicate k '0') = 0 := by
  induction k with
  | zero => rfl
  | succ k ih =>
    rw [List.replicate_succ', value_append_digit, ih]
    rfl

theorem digitValue_lt {c : Char} (h : isDigit c = true) : digitValue c < 10 := by
  simp only [isDigit, Bool.and_eq_true, decide_eq_true_eq] at h
  have hle : c.toNat ≤ '9'.toNat := h.2
  have hnine : '9'.toNat = 57 := rfl
  have hzero : '0'.toNat = 48 := rfl
  rw [digitValue]
  omega

theorem value_lt {cs : List Char} (h : ∀ c ∈ cs, isDigit c = true) : value cs < 10 ^ cs.length := by
  induction cs with
  | nil => decide
  | cons c cs ih =>
    obtain ⟨hc, hcs⟩ := List.forall_mem_cons.mp h
    have hdigit : value [c] < 10 := by simpa [value] using digitValue_lt hc
    have hvalue := value_append [c] cs
    rw [List.singleton_append] at hvalue
    rw [hvalue, List.length_cons, pow_succ']
    calc value [c] * 10 ^ cs.length + value cs < value [c] * 10 ^ cs.length + 10 ^ cs.length :=
          Nat.add_lt_add_left (ih hcs) _
      _ = (value [c] + 1) * 10 ^ cs.length := by ring
      _ ≤ 10 * 10 ^ cs.length := Nat.mul_le_mul_right _ hdigit

theorem length_numeral_le {n k : Nat} (hk : 0 < k) (h : n < 10 ^ k) : (numeral n).length ≤ k := by
  induction k generalizing n with
  | zero => omega
  | succ k ih =>
    rw [numeral]
    split
    · simp
    · have hpos : 0 < k := by
        by_contra hzero
        obtain rfl : k = 0 := by omega
        omega
      have hdiv : n / 10 < 10 ^ k := by
        rw [pow_succ] at h
        omega
      simpa using ih hpos hdiv

/-- A numeral of two or more digits has no zero in front. -/
theorem head?_numeral (n : Nat) : (numeral n).head? = some '0' → (numeral n).length = 1 := by
  induction n using Nat.strongRecOn with
  | _ n ih =>
    intro h
    rw [numeral] at h ⊢
    split_ifs with hn
    · rfl
    · obtain ⟨c, r, hc⟩ := List.exists_cons_of_ne_nil (numeral_ne_nil (n / 10))
      rw [if_neg hn, hc] at h
      obtain rfl : c = '0' := by simpa using h
      have hone := ih (n / 10) (by omega) (by rw [hc]; rfl)
      have hvalue := value_numeral (n / 10)
      rw [hc] at hone hvalue
      obtain rfl : r = [] := by simpa using hone
      have : value ['0'] = 0 := by decide
      omega

theorem length_padded {n k : Nat} (hk : 0 < k) (h : n < 10 ^ k) : (padded k n).length = k := by
  have hle := length_numeral_le hk h
  rw [padded, List.length_append, List.length_replicate]
  omega

theorem value_padded (k n : Nat) : value (padded k n) = n := by
  rw [padded, value_append, value_zeros, value_numeral]
  omega

theorem isDigit_of_mem_padded {k n : Nat} : ∀ c ∈ padded k n, isDigit c = true := by
  intro c hc
  rcases List.mem_append.mp hc with hc | hc
  · rw [List.eq_of_mem_replicate hc]
    rfl
  · exact isDigit_of_mem_numeral n c hc

end Decimal

end SlotBuild
