import Mathlib.Algebra.Order.Ring.Int
import Mathlib.Algebra.Order.Ring.Nat

/-! # Machine integers, error codes and the page arithmetic

The kernel computes on `uint64_t`. Addresses and sizes are natural numbers here
and every operation that can leave the range goes through `wrap64`. Entries of
page tables, where the code works on bits, are `BitVec 64` instead.
-/

namespace Sdx

/-- `uint64_t` arithmetic is modulo `2^64`. -/
def wrap64 (x : Nat) : Nat := x % 2 ^ 64

/-- `x - y` on `uint64_t`. -/
def sub64 (x y : Nat) : Nat := wrap64 (x + (2 ^ 64 - y))

theorem wrap64_of_lt {x : Nat} (h : x < 2 ^ 64) : wrap64 x = x := Nat.mod_eq_of_lt h

theorem sub64_of_le {x y : Nat} (hy : y ≤ x) (hx : x < 2 ^ 64) : sub64 x y = x - y := by
  unfold sub64 wrap64
  rw [show x + (2 ^ 64 - y) = x - y + 2 ^ 64 by omega, Nat.add_mod_right]
  exact Nat.mod_eq_of_lt (by omega)

/-- `PAGE_SIZE` of `mm/paging.h` and `limits.h`. -/
def pageSize : Nat := 4096

/-! The error codes of `errno.h` the modelled functions return, negated as they return them. -/

def eNOENT : Int := 2
def eIO : Int := 5
def e2BIG : Int := 7
def eNOEXEC : Int := 8
def eBADF : Int := 9
def eCHILD : Int := 10
def eNOMEM : Int := 12
def eACCES : Int := 13
def eFAULT : Int := 14
def eBUSY : Int := 16
def eNODEV : Int := 19
def eINVAL : Int := 22
def eMFILE : Int := 24
def eRANGE : Int := 34
def eNAMETOOLONG : Int := 36
def eNOSYS : Int := 38
def eOVERFLOW : Int := 75

/-! The rounding helpers of `util/math.c`. -/

def divFloor (x y : Nat) : Nat := x / y

def divCeil (x y : Nat) : Nat := wrap64 (1 + sub64 x 1 / y)

def roundUp (x f : Nat) : Nat :=
  if f = 0 then x else wrap64 (x + f - 1) / f * f

def roundDown (x f : Nat) : Nat :=
  if f = 0 then x else x / f * f

theorem roundDown_le (x f : Nat) : roundDown x f ≤ x := by
  unfold roundDown
  split
  · exact Nat.le_refl x
  · exact Nat.div_mul_le_self x f

theorem dvd_roundDown (x : Nat) {f : Nat} (hf : f ≠ 0) : f ∣ roundDown x f := by
  simp only [roundDown, hf, if_false]
  exact Nat.dvd_mul_left f _

theorem dvd_roundUp (x : Nat) {f : Nat} (hf : f ≠ 0) : f ∣ roundUp x f := by
  simp only [roundUp, hf, if_false]
  exact Nat.dvd_mul_left f _

end Sdx
