import Mathlib.Algebra.Order.Floor.Div
import Mathlib.Order.Bounds.Defs
import Sdx.Mm.Region

/-! # Page counts and page rounding (`util/math.c`, `inc/mm/vmm.h`)

`round_up` adds before it divides, `div_ceil` subtracts before it divides. As long as neither
wraps, both are the division that rounds up. For 0 it is `div_ceil` that wraps: it counts what
`2^64` bytes take.
-/

namespace Sdx.Mm

/-- `x * y` on `uint64_t`. -/
def mul64 (x y : Nat) : Nat := wrap64 (x * y)

section

variable {x f : Nat}

theorem isLeast_ceilDiv_mul (pos : 1 ≤ f) : IsLeast {m | f ∣ m ∧ x ≤ m} (x ⌈/⌉ f * f) := by
  constructor
  · refine ⟨Nat.dvd_mul_left f _, ?_⟩
    rw [Nat.mul_comm]
    exact (ceilDiv_le_iff_le_mul pos).mp (Nat.le_refl _)
  · rintro m ⟨⟨k, rfl⟩, above⟩
    rw [Nat.mul_comm]
    exact Nat.mul_le_mul_left f ((ceilDiv_le_iff_le_mul pos).mpr above)

theorem isGreatest_div_mul (pos : 1 ≤ f) : IsGreatest {m | f ∣ m ∧ m ≤ x} (x / f * f) := by
  constructor
  · exact ⟨Nat.dvd_mul_left f _, Nat.div_mul_le_self x f⟩
  · rintro m ⟨⟨k, rfl⟩, below⟩
    rw [Nat.mul_comm]
    apply Nat.mul_le_mul_right f
    apply (Nat.le_div_iff_mul_le pos).mpr
    rwa [Nat.mul_comm]

/-- A sum that does not wrap is rounded up. -/
theorem roundUp_eq_ceilDiv (pos : 1 ≤ f) (fits : x + f - 1 < 2 ^ 64) :
    roundUp x f = x ⌈/⌉ f * f := by
  rw [roundUp, if_neg (by omega), Nat.add_sub_assoc pos, ← Nat.add_sub_assoc pos,
    wrap64_of_lt fits, Nat.ceilDiv_eq_add_pred_div]

/-- The count of what is not 0. -/
theorem divCeil_eq_ceilDiv (some' : 1 ≤ x) (pos : 1 ≤ f) (fits : x + f - 1 < 2 ^ 64) :
    divCeil x f = x ⌈/⌉ f := by
  have count : 1 + (x - 1) / f = x ⌈/⌉ f := by
    rw [Nat.ceilDiv_eq_add_pred_div, Nat.add_comm, ← Nat.add_div_right _ pos]
    congr 1
    omega
  have below : x ⌈/⌉ f ≤ x := by
    rw [ceilDiv_le_iff_le_mul pos]
    exact Nat.le_mul_of_pos_left x pos
  rw [divCeil, sub64_of_le some' (by omega), count]
  exact wrap64_of_lt (by omega)

/-- The count of 0 is the one of `2^64`. -/
theorem divCeil_zero (pos : 1 ≤ f) : divCeil 0 f = wrap64 (2 ^ 64 ⌈/⌉ f) := by
  have back : sub64 0 1 = 2 ^ 64 - 1 := by decide
  rw [divCeil, back, Nat.ceilDiv_eq_add_pred_div, Nat.add_comm, ← Nat.add_div_right _ pos]
  congr 2
  omega

/-- So as numbers they agree for 0 only where everything is a multiple. -/
theorem divCeil_zero_mul_iff (pos : 1 ≤ f) : divCeil 0 f * f = 0 ↔ f = 1 := by
  have enough := (@isLeast_ceilDiv_mul (2 ^ 64) f pos).1.2
  rw [divCeil_zero pos]
  constructor
  · intro none
    have wrapped : wrap64 (2 ^ 64 ⌈/⌉ f) = 0 := (Nat.mul_eq_zero.mp none).resolve_right (by omega)
    by_contra more
    have fewer : 2 ^ 64 ⌈/⌉ f ≤ 2 ^ 63 := (ceilDiv_le_iff_le_mul pos).mpr (by omega)
    rw [wrap64_of_lt (by omega)] at wrapped
    rw [wrapped, Nat.zero_mul] at enough
    omega
  · rintro rfl
    rw [ceilDiv_one]
    rfl

/-- On `uint64_t` they agree for 0 if the multiples meet `2^64`. -/
theorem mul64_divCeil_zero_iff (pos : 1 ≤ f) (fits : f ≤ 2 ^ 64) :
    mul64 (divCeil 0 f) f = 0 ↔ f ∣ 2 ^ 64 := by
  have least := @isLeast_ceilDiv_mul (2 ^ 64) f pos
  have below : 2 ^ 64 ⌈/⌉ f * f < 2 ^ 64 + f := by
    rw [Nat.ceilDiv_eq_add_pred_div]
    have := Nat.div_mul_le_self (2 ^ 64 + f - 1) f
    omega
  have unwrapped : mul64 (divCeil 0 f) f = (2 ^ 64 ⌈/⌉ f * f) % 2 ^ 64 := by
    rw [divCeil_zero pos, mul64, wrap64, wrap64, Nat.mod_mul_mod]
  rw [unwrapped]
  constructor
  · intro none
    obtain ⟨multiple, above⟩ := least.1
    have whole : 2 ^ 64 ⌈/⌉ f * f = 2 ^ 64 := by omega
    rwa [whole] at multiple
  · intro multiple
    have whole := least.2 ⟨multiple, Nat.le_refl _⟩
    have above := least.1.2
    omega

end

/-! ## The roundings and the count -/

/-- `round_up` and `round_down` give the multiples next to `x`, and `div_ceil` counts up to the
    upper one, multiplied as `times` does. -/
structure RoundingsAgree (times : Nat → Nat → Nat) (x f : Nat) : Prop where
  up : IsLeast {m | f ∣ m ∧ x ≤ m} (roundUp x f)
  down : IsGreatest {m | f ∣ m ∧ m ≤ x} (roundDown x f)
  count : times (divCeil x f) f = roundUp x f

section

variable {times : Nat → Nat → Nat} {x f : Nat}

theorem roundingsAgree_iff_count (pos : 1 ≤ f) (fits : x + f - 1 < 2 ^ 64) :
    RoundingsAgree times x f ↔ times (divCeil x f) f = roundUp x f := by
  constructor
  · exact RoundingsAgree.count
  · intro count
    refine ⟨?_, ?_, count⟩
    · rw [roundUp_eq_ceilDiv pos fits]
      exact isLeast_ceilDiv_mul pos
    · rw [roundDown, if_neg (by omega)]
      exact isGreatest_div_mul pos

theorem roundUp_zero (pos : 1 ≤ f) (fits : 0 + f - 1 < 2 ^ 64) : roundUp 0 f = 0 := by
  rw [roundUp_eq_ceilDiv pos fits, zero_ceilDiv, Nat.zero_mul]

/-- What is not 0 is counted right. -/
theorem divCeil_mul (some' : 1 ≤ x) (pos : 1 ≤ f) (fits : x + f - 1 < 2 ^ 64) :
    divCeil x f * f = roundUp x f := by
  rw [roundUp_eq_ceilDiv pos fits, divCeil_eq_ceilDiv some' pos fits]

/-- What does not wrap is rounded to what does not wrap. -/
theorem roundUp_lt (pos : 1 ≤ f) (fits : x + f - 1 < 2 ^ 64) : roundUp x f < 2 ^ 64 := by
  rw [roundUp_eq_ceilDiv pos fits, Nat.ceilDiv_eq_add_pred_div]
  exact Nat.lt_of_le_of_lt (Nat.div_mul_le_self _ f) fits

/-- The roundings and the count agree for all sizes but 0. For 0 they agree as numbers if the
    factor is 1, and on `uint64_t` if it divides `2^64`; so 0 bytes are not 0 pages. -/
theorem roundingsAgree_iff (x f : Nat) (pos : 1 ≤ f) (fits : x + f - 1 < 2 ^ 64) :
    (RoundingsAgree (· * ·) x f ↔ x ≠ 0 ∨ f = 1) ∧
    (RoundingsAgree mul64 x f ↔ x ≠ 0 ∨ f ∣ 2 ^ 64) ∧
    (x + pageSize - 1 < 2 ^ 64 → (vmmCalc x * pageSize = vmmAlign x ↔ x ≠ 0) ∧
      mul64 (vmmCalc x) pageSize = vmmAlign x) := by
  have numbers {f : Nat} (pos : 1 ≤ f) (fits : x + f - 1 < 2 ^ 64) :
      divCeil x f * f = roundUp x f ↔ x ≠ 0 ∨ f = 1 := by
    by_cases zero : x = 0
    · subst zero
      rw [roundUp_zero pos fits, divCeil_zero_mul_iff pos, or_iff_right (not_not_intro rfl)]
    · exact iff_of_true (divCeil_mul (by omega) pos fits) (.inl zero)
  have words {f : Nat} (pos : 1 ≤ f) (fits : x + f - 1 < 2 ^ 64) :
      mul64 (divCeil x f) f = roundUp x f ↔ x ≠ 0 ∨ f ∣ 2 ^ 64 := by
    by_cases zero : x = 0
    · subst zero
      rw [roundUp_zero pos fits, mul64_divCeil_zero_iff pos (by omega),
        or_iff_right (not_not_intro rfl)]
    · refine iff_of_true ?_ (.inl zero)
      rw [mul64, divCeil_mul (by omega) pos fits, wrap64_of_lt (roundUp_lt pos fits)]
  refine ⟨(roundingsAgree_iff_count pos fits).trans (numbers pos fits),
    (roundingsAgree_iff_count pos fits).trans (words pos fits), fun fits => ⟨?_, ?_⟩⟩
  · exact (numbers (by decide) fits).trans (or_iff_left (by decide))
  · exact (words (by decide) fits).mpr (.inr (by decide))

end

/-- Two bytes and a page. -/
theorem roundingsAgree_iff_twoBytes :
    (RoundingsAgree (· * ·) 2 4096 ↔ 2 ≠ 0 ∨ 4096 = 1) ∧
    (RoundingsAgree mul64 2 4096 ↔ 2 ≠ 0 ∨ 4096 ∣ 2 ^ 64) ∧
    (2 + pageSize - 1 < 2 ^ 64 → (vmmCalc 2 * pageSize = vmmAlign 2 ↔ 2 ≠ 0) ∧
      mul64 (vmmCalc 2) pageSize = vmmAlign 2) :=
  roundingsAgree_iff 2 4096 (by decide) (by decide)

/-- For 0 and the factor 3 there is no agreement, and 0 bytes count as `2 ^ 52` pages. -/
theorem not_roundingsAgree : ¬RoundingsAgree (· * ·) 0 3 ∧ ¬RoundingsAgree mul64 0 3 ∧
    vmmCalc 0 * pageSize ≠ vmmAlign 0 :=
  ⟨fun agree => absurd agree.count (by decide), fun agree => absurd agree.count (by decide), by decide⟩

end Sdx.Mm
