import Mathlib.Data.Nat.Find
import Sdx.Mm.PmmFlat

/-! # What a failed `pmm_free` leaves behind

The loop clears each page before it looks at the next one, so that the pages in front of the one it
fails at stay cleared.
-/

namespace Sdx.Mm

open Pmm

/-- The page of the bitmap that has this address. -/
def Pmm.pageOf (p : Pmm) (addr : Nat) : Nat := sub64 addr p.regFree.start / pageSize

/-- The page is in the bitmap, and allocated there. -/
def Pmm.Allocated (p : Pmm) (k : Nat) : Prop := k < p.covered ∧ p.bitAt k = true

instance (p : Pmm) (k : Nat) : Decidable (p.Allocated k) := inferInstanceAs (Decidable (_ ∧ _))

section

variable {p : Pmm} {s num k paddr : Nat}

theorem valAt_allocated (here : p.Allocated k) : p.valAt k = 1 := by
  simp [valAt, here.1, here.2]

theorem valAt_not_allocated (bad : ¬ p.Allocated k) : p.valAt k < 0 ∨ p.valAt k = 0 := by
  unfold valAt
  split
  case isTrue inside =>
    right
    simpa [Pmm.Allocated, inside] using bad
  case isFalse => exact .inl (by decide)

/-- Another page is allocated as before when one is cleared. -/
theorem Pmm.Allocated.clear_iff (off : k ≠ s) :
    (p.bmPosClear (.ofFlat s)).Allocated k ↔ p.Allocated k := by
  simp only [Pmm.Allocated, bitAt_bmPosClear, off, decide_false, Bool.not_false, Bool.and_true]
  rfl

/-- At a page that is not allocated the loop fails, with the pages in front of it cleared. -/
theorem pmmFreeLoop_fails (ready : p.bmIsReady) (bad : ¬ p.Allocated k) (low : s ≤ k)
    (high : k < s + num) (set : ∀ j, s ≤ j → j < k → p.Allocated j) :
    ∃ e bm, e ≠ 0 ∧ pmmFreeLoop p (.ofFlat s) (p.valAt s) num = (e, { p with bm := bm }) ∧
      ∀ j, { p with bm := bm }.bitAt j = (p.bitAt j && !decide (s ≤ j ∧ j < k)) := by
  induction num generalizing p s with
  | zero => omega
  | succ num ih =>
      by_cases last : s = k
      · subst last
        rw [pmmFreeLoop]
        have none (j : Nat) : ¬ (s ≤ j ∧ j < s) := by omega
        obtain beyond | clear := valAt_not_allocated bad
        · rw [if_pos beyond]
          exact ⟨_, p.bm, by decide, rfl, fun j => by simp [none]⟩
        · rw [if_neg (by omega), if_pos clear]
          exact ⟨_, p.bm, by decide, rfl, fun j => by simp [none]⟩
      · have before : s < k := by omega
        have here := set s (Nat.le_refl s) before
        obtain ⟨e, bm, fails, result, bits⟩ := @ih (p.bmPosClear (.ofFlat s)) (s + 1) ready
          (by rwa [Pmm.Allocated.clear_iff (Ne.symm last)]) before (by omega) (fun j lo hi => by
            have off : j ≠ s := by omega
            exact (Pmm.Allocated.clear_iff off).mpr (set j (by omega) hi))
        refine ⟨e, bm, fails, ?_, fun j => (bits j).trans (bitAt_clear_range before)⟩
        exact (pmmFreeLoop_succ ready here.1 here.2).trans result

theorem bmPosFromAddr_eq (ready : p.bmIsReady) : p.bmPosFromAddr paddr =
    if p.pageOf paddr < p.covered then some (.ofFlat (p.pageOf paddr)) else none := by
  have valid : p.bmPosIsValid (.ofFlat (p.pageOf paddr)) = decide (p.pageOf paddr < p.covered) := by
    rw [bmPosIsValid, decide_eq_decide]
    simp only [PmmBmPos.ofFlat, covered, pmmBmEntryBitSize]
    omega
  have found : p.bmPosFromAddr paddr = if p.bmPosIsValid (.ofFlat (p.pageOf paddr)) then
      some (.ofFlat (p.pageOf paddr)) else none := by
    rw [bmPosFromAddr, ready]
    rfl
  simp only [found, valid, decide_eq_true_eq]

theorem bmPosFromAddr_some {pos : PmmBmPos} (found : p.bmPosFromAddr paddr = some pos) :
    p.bmIsReady ∧ pos = .ofFlat (p.pageOf paddr) ∧ p.pageOf paddr < p.covered := by
  by_cases ready : p.bmIsReady
  · rw [bmPosFromAddr_eq ready, Option.ite_none_right_eq_some] at found
    exact ⟨ready, (Option.some.inj found.2).symm, found.1⟩
  · simp [bmPosFromAddr, ready] at found

/-- A `pmm_free` that fails leaves the bitmap as it was, if and only if the first page is not
    allocated or all pages of the range are. -/
theorem pmmFree_atomic_iff (p : Pmm) (paddr num : Nat) :
    ((pmmFree p paddr num).1 ≠ 0 → (pmmFree p paddr num).2.bm = p.bm) ↔
      (pmmIsAllocated p paddr = true →
        ∀ k, p.pageOf paddr ≤ k → k < p.pageOf paddr + num → p.Allocated k) := by
  unfold pmmFree pmmIsAllocated
  cases found : p.bmPosFromAddr paddr with
  | none => simp
  | some pos =>
      obtain ⟨ready, rfl, inside⟩ := bmPosFromAddr_some found
      simp only [bmPosGet_eq_valAt inside]
      constructor
      · intro atomic first
        have here : p.Allocated (p.pageOf paddr) := by
          by_contra free
          obtain beyond | clear := valAt_not_allocated free
          · simp only [valAt, inside, if_true] at beyond
            split at beyond <;> omega
          · rw [clear] at first
            cases first
        by_contra bad
        simp only [not_forall, exists_prop] at bad
        obtain ⟨low, high, not⟩ := Nat.find_spec bad
        have behind : p.pageOf paddr ≠ Nat.find bad := by
          intro same
          exact not (same ▸ here)
        obtain ⟨e, bm, fails, result, bits⟩ := pmmFreeLoop_fails ready not low high
          (fun j lo hi => by
            by_contra bad'
            exact Nat.find_min bad hi ⟨lo, by omega, bad'⟩)
        rw [result] at atomic
        obtain rfl : bm = p.bm := atomic fails
        have cleared := bits (p.pageOf paddr)
        rw [decide_eq_true (by omega), Bool.not_true, Bool.and_false] at cleared
        exact absurd (here.2.symm.trans cleared) (by decide)
      · intro all fails
        by_cases first : p.Allocated (p.pageOf paddr)
        · have set := all (by rw [valAt_allocated first]; rfl)
          obtain ⟨bm, frees, -⟩ := pmmFreeLoop_spec ready set
          rw [frees] at fails
          exact absurd rfl fails
        · cases num with
          | zero => rfl
          | succ num =>
              rw [pmmFreeLoop]
              obtain beyond | clear := valAt_not_allocated first
              · rw [if_pos beyond]
              · rw [if_neg (by omega), if_pos clear]

end

/-- Two pages are freed of which the second one is free: the first one is free then. -/
theorem pmmFree_not_atomic :
    (pmmFree ⟨⟨0x200000, 0x210000, 0x200000⟩, fun _ => 1, true, 4096, 0⟩ 0x200000 2).1 = -eFAULT ∧
      (pmmFree ⟨⟨0x200000, 0x210000, 0x200000⟩, fun _ => 1, true, 4096, 0⟩ 0x200000 2).2.bm 0 ≠ 1 := by
  decide

end Sdx.Mm
