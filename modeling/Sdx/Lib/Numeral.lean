import Mathlib.Data.Nat.Digits.Lemmas

/-! # Numerals

The numeral of a number in some base is the list of its digits, the highest one first, without a
zero in front of them; only 0 has the digit 0 there.
-/

namespace Sdx.Lib

/-- `ds` is the numeral of `n` in base `b`. -/
structure IsNumeral (b : Nat) (ds : List Nat) (n : Nat) : Prop where
  digit : ∀ d ∈ ds, d < b
  nonempty : ds ≠ []
  canonical : ds.head? = some 0 → ds = [0]
  value : Nat.ofDigits b ds.reverse = n

/-- The digits of a number with the lowest one first. -/
def lowDigits (b n : Nat) : List Nat := if n = 0 then [0] else b.digits n

/-- The numeral of a number. -/
def numeral (b n : Nat) : List Nat := (lowDigits b n).reverse

section

variable {b c n k : Nat}

theorem lowDigits_of_lt (below : n < b) : lowDigits b n = [n] := by
  rw [lowDigits]
  split
  · next zero => rw [zero]
  · next some_digit => exact Nat.digits_of_lt b n some_digit below

/-- The lowest digit and the digits of the rest. -/
theorem lowDigits_of_le (base : 2 ≤ b) (le : b ≤ n) :
    lowDigits b n = n % b :: lowDigits b (n / b) := by
  have rest : n / b ≠ 0 := (Nat.div_pos le (by omega)).ne'
  rw [lowDigits, if_neg (by omega), lowDigits, if_neg rest,
    Nat.digits_eq_cons_digits_div base (by omega)]

theorem isNumeral_numeral (base : 2 ≤ b) : IsNumeral b (numeral b n) n := by
  rw [numeral, lowDigits]
  by_cases zero : n = 0
  · subst zero
    rw [if_pos rfl]
    refine ⟨?_, List.cons_ne_nil 0 [], fun _ => rfl, rfl⟩
    intro d mem
    rw [List.reverse_singleton] at mem
    rw [List.mem_singleton.mp mem]
    omega
  · rw [if_neg zero]
    have some_digit : b.digits n ≠ [] := Nat.digits_ne_nil_iff_ne_zero.mpr zero
    refine ⟨?_, mt List.reverse_eq_nil_iff.mp some_digit, ?_, ?_⟩
    · intro d mem
      exact Nat.digits_lt_base base (List.mem_reverse.mp mem)
    · intro first
      rw [List.head?_reverse, List.getLast?_eq_some_getLast some_digit] at first
      exact absurd (Option.some.inj first) (Nat.getLast_digit_ne_zero b zero)
    · rw [List.reverse_reverse, Nat.ofDigits_digits]

/-- A numeral has no more than `k` digits if the number is below `b ^ k`. -/
theorem length_numeral_le_iff (base : 2 ≤ b) (some_digit : 1 ≤ k) :
    (numeral b n).length ≤ k ↔ n < b ^ k := by
  rw [numeral, List.length_reverse, lowDigits]
  split
  · next zero =>
      rw [zero]
      exact iff_of_true some_digit (Nat.pow_pos (by omega))
  · exact Nat.digits_length_le_iff base n

theorem length_numeral_pos (base : 2 ≤ b) : 1 ≤ (numeral b n).length :=
  List.length_pos_iff.mpr (isNumeral_numeral base).nonempty

/-- In a larger base there are no more digits. -/
theorem length_numeral_le_of_base (base : 2 ≤ b) (le : b ≤ c) :
    (numeral c n).length ≤ (numeral b n).length := by
  have some_digit := @length_numeral_pos b n base
  rw [length_numeral_le_iff (by omega) some_digit]
  calc
    n < b ^ (numeral b n).length := (length_numeral_le_iff base some_digit).mp (Nat.le_refl _)
    _ ≤ c ^ (numeral b n).length := Nat.pow_le_pow_left le _

theorem length_numeral_of_lt (below : n < b) : (numeral b n).length = 1 := by
  rw [numeral, lowDigits_of_lt below]
  rfl

theorem length_numeral_of_le (base : 2 ≤ b) (le : b ≤ n) :
    (numeral b n).length = (numeral b (n / b)).length + 1 := by
  rw [numeral, lowDigits_of_le base le, List.length_reverse, List.length_cons, numeral,
    List.length_reverse]

end

end Sdx.Lib
