import Sdx.Lib.Bytes

/-! # Strings and byte buffers (`util/string.c`, `util/mem.c`)

A string argument is the list of its characters. Where a function writes to a buffer, or reads
from one, the buffer is an address in a memory.
-/

namespace Sdx.Util

open Sdx.Lib.Bytes

/-- A string of the source: its characters, the terminating zero coming after them. -/
@[ext]
structure CString where
  chars : List UInt8
  nonzero : ∀ c ∈ chars, c ≠ 0
  deriving DecidableEq

/-- `strcmp` of the string at an address with the string of the given characters. -/
def strcmp (mem : Memory) : Nat → List UInt8 → UInt8
  | a, [] => mem a
  | a, c :: cs => if mem a ≠ 0 ∧ mem a = c then strcmp mem (a + 1) cs else mem a - c

/-- `memcpy` of some bytes to an address that is not `NULL`: the address behind the copy, or `NULL`
    when there is nothing to copy. -/
def memcpy (mem : Memory) (dst : Nat) (src : List UInt8) : Option Nat × Memory :=
  if src = [] then (none, mem) else (some (dst + src.length), store mem dst src)

/-- `bzero`. -/
def bzero (mem : Memory) (data : Option Nat) (size : Nat) : Memory :=
  match data with
  | none => mem
  | some data => store mem data (List.replicate size 0)

/-- `strncpy`. -/
def strncpy (mem : Memory) (dst : Nat) (src : CString) (dsize : Nat) : Memory :=
  let ssize := if src.chars.length > dsize then dsize else src.chars.length
  let (dst, mem) := memcpy mem dst (src.chars.take ssize)
  bzero mem dst (dsize - ssize)

section

variable {mem : Memory} {a n : Nat} {chars s : List UInt8} {src : CString}

theorem eq_of_sub_eq_zero {c d : UInt8} (zero : c - d = 0) : c = d := by
  rwa [UInt8.sub_eq_iff_eq_add, UInt8.zero_add] at zero

/-- `strcmp` is not zero for a string that is longer than the one at the address. -/
theorem strcmp_ne_zero (ends : ∃ i < s.length, mem (a + i) = 0) (nonzero : ∀ c ∈ s, c ≠ 0) :
    strcmp mem a s ≠ 0 := by
  induction s generalizing a with
  | nil =>
      obtain ⟨i, below, -⟩ := ends
      cases below
  | cons c cs ih =>
      obtain ⟨i, below, zero⟩ := ends
      have some' := nonzero c List.mem_cons_self
      rw [strcmp]
      split
      · next here =>
          cases i with
          | zero => exact absurd zero here.1
          | succ i =>
              rw [Nat.add_comm i 1, ← Nat.add_assoc] at zero
              exact ih ⟨i, Nat.lt_of_succ_lt_succ below, zero⟩ fun c listed =>
                nonzero c (List.mem_cons_of_mem _ listed)
      · next other =>
          intro same
          have equal := eq_of_sub_eq_zero same
          exact other ⟨equal.trans_ne some', equal⟩

/-- `strcmp` is zero for the same string only. -/
theorem strcmp_eq_zero (holds : Holds mem a (chars ++ [0])) (nonzero : ∀ c ∈ chars, c ≠ 0)
    (nonzero' : ∀ c ∈ s, c ≠ 0) : strcmp mem a s = 0 ↔ chars = s := by
  induction s generalizing a chars with
  | nil =>
      cases chars with
      | nil =>
          obtain ⟨ends, -⟩ := holds_cons.mp holds
          exact iff_of_true ends rfl
      | cons d ds =>
          obtain ⟨first, -⟩ := holds_cons.mp holds
          have some' := nonzero d List.mem_cons_self
          rw [strcmp, first]
          exact iff_of_false some' (List.cons_ne_nil d ds)
  | cons c cs ih =>
      have some' := nonzero' c List.mem_cons_self
      cases chars with
      | nil =>
          obtain ⟨first, -⟩ := holds_cons.mp holds
          rw [strcmp, first, if_neg (fun same => same.1 rfl)]
          constructor
          · intro zero
            exact absurd (eq_of_sub_eq_zero zero).symm some'
          · intro same
            cases same
      | cons d ds =>
          obtain ⟨first, next⟩ := holds_cons.mp holds
          have nonzero_d := nonzero d List.mem_cons_self
          rw [strcmp, first]
          by_cases same : d = c
          · rw [if_pos ⟨nonzero_d, same⟩, same, List.cons.injEq]
            have rest' := ih next (fun c mem => nonzero c (List.mem_cons_of_mem _ mem))
              (fun c mem => nonzero' c (List.mem_cons_of_mem _ mem))
            rw [rest']
            exact ⟨fun eq => ⟨rfl, eq⟩, fun eq => eq.2⟩
          · rw [if_neg (fun both => same both.2)]
            constructor
            · intro zero
              exact absurd (eq_of_sub_eq_zero zero) same
            · intro eq
              exact absurd (List.cons.inj eq).1 same

/-- `strncpy` of a string that is not longer than `dsize` puts zeros behind it. -/
theorem strncpy_eq (fits : src.chars.length ≤ n) (some' : src.chars ≠ []) :
    strncpy mem a src n = store mem a (src.chars ++ List.replicate (n - src.chars.length) 0) := by
  rw [strncpy, if_neg (Nat.not_lt.mpr fits), List.take_length, memcpy, if_neg some']
  exact store_append

/-- In a buffer of zeros it leaves the string. -/
theorem holds_strncpy (zero : ∀ x, mem x = 0) (fits : src.chars.length ≤ n)
    (some' : src.chars ≠ []) : Holds (strncpy mem a src n) a (src.chars ++ [0]) := by
  rw [strncpy_eq fits some', ← store_append]
  intro k below
  rw [List.length_append, List.length_singleton] at below
  by_cases inside : k < src.chars.length
  · rw [store_outside (.inl (by omega)), store_inside inside, List.getElem_append_left inside]
  obtain rfl : k = src.chars.length := by omega
  rw [List.getElem_concat_length rfl]
  by_cases room : src.chars.length < n
  · have first : 0 < (List.replicate (n - src.chars.length) (0 : UInt8)).length := by
      rw [List.length_replicate]
      omega
    exact (store_inside first).trans (List.getElem_replicate _)
  · rw [show n - src.chars.length = 0 by omega, List.replicate_zero, store_nil,
      store_outside (.inr (by omega))]
    exact zero _

end

end Sdx.Util
