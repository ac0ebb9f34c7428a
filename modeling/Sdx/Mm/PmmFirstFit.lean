import Mathlib.Order.Bounds.Defs
import Sdx.Mm.PmmLedger

/-! # First fit (`mm/pmm.c`)

The scan of `pmm_alloc` goes over the bitmap once. When it meets a page that is in use it starts
over behind that page, and passes over the starts it has seen so far: an extent from one of them
would contain the page.
-/

namespace Sdx.Mm

open Sdx.Lib.Scan Pmm

/-- At `s` there are `num` pages in the bitmap that are clear and available, and the first is aligned. -/
def Pmm.FitsAt (boot : BootInfo) (p : Pmm) (num align s : Nat) : Prop :=
  (align ≠ 0 → p.pageAt s % align = 0) ∧ ∀ j, s ≤ j → j < s + num →
    j < p.covered ∧ p.bitAt j = false ∧ pmmIsFreeMemory boot (p.pageAt j) = true

variable {boot : BootInfo} {p p₀ : Pmm} {num align : Nat}

theorem pmmMisaligned_eq_false {x : Nat} :
    pmmMisaligned x align = false ↔ (align ≠ 0 → x % align = 0) := by
  by_cases zero : align = 0 <;> simp [pmmMisaligned, zero, Nat.mod_one]

theorem fitsAt_iff {s : Nat} : p.FitsAt boot num align s ↔ p.Extent boot num align s :=
  and_congr_left' pmmMisaligned_eq_false.symm

/-- After `pmm_init` every position of the bitmap has an address of its own. -/
theorem bitmap_of_init (init : pmmInitRegion boot = .ok p₀) (ready : p.bmIsReady)
    (region : p.regFree.start = p₀.regFree.start) (size : p.bmSize = p₀.bmSize) :
    p.regFree.start < 2 ^ 64 ∧ p.covered ≤ 2 ^ 52 ∧ 0 < p.covered := by
  obtain ⟨-, e, at'⟩ := pmmInitRegion_regionAt init
  have same : p.covered = p₀.covered := by simp only [Pmm.covered, bmGetMaxIndex, size]
  have lt := at'.lt
  obtain ⟨pages, bitmap⟩ := at'.bitmap
  have some' : p.bmSize ≠ 0 := by
    simp only [bmIsReady, Bool.and_eq_true, bne_iff_ne] at ready
    exact ready.2
  refine ⟨by omega, same ▸ at'.fits, ?_⟩
  rw [same]
  simp only [Pmm.covered, bmGetMaxIndex, pmmBmEntryBitSize]
  omega

/-- With the bitmap that `pmm_init` makes, whatever its bits are, `pmm_alloc` takes the first extent
    of `num` pages that is aligned, clear and available, and fails only when there is none. -/
theorem pmmAlloc_firstFit (init : pmmInitRegion boot = .ok p₀) (ready : p.bmIsReady)
    (region : p.regFree.start = p₀.regFree.start) (size : p.bmSize = p₀.bmSize)
    (admitted : pmmAlignInvalid align = false) (some' : 1 ≤ num) :
    ((∃ s, p.FitsAt boot num align s) → ∃ s bm, IsLeast {s | p.FitsAt boot num align s} s ∧
      pmmAlloc boot p num align = (p.pageAt s, { p with bm := bm }) ∧
      ∀ j, { p with bm := bm }.bitAt j = (p.bitAt j || decide (s ≤ j ∧ j < s + num))) ∧
    ((∀ s, ¬p.FitsAt boot num align s) → pmmAlloc boot p num align = (0, p.fail)) := by
  obtain ⟨start_lt, fits, nonempty⟩ := bitmap_of_init init ready region size
  simp only [pmmAlloc, admitted, Bool.false_eq_true, if_false, ready, Bool.not_true]
  rw [show (⟨0, 0⟩ : PmmBmPos) = .ofFlat 0 from rfl, bmPosGet_eq_valAt nonempty]
  rcases result : pmmAllocLoop boot p num align (p.bmGetMaxIndex * pmmBmEntryBitSize + 1)
    (.ofFlat 0) (p.valAt 0) 0 0 with ⟨start, cur⟩
  have scanned := pmmAllocLoop_first ready some' .init (Nat.zero_le _) (Nat.zero_le _)
    (by rw [Pmm.covered]; omega) result
  rcases scanned with ⟨rfl, s, rfl, here, least⟩ | ⟨short, none'⟩
  · have inside := (here.2 s (Nat.le_refl s) (by omega)).1
    have addr := bmPosFromAddr_pageAt ready start_lt inside fits
    obtain ⟨bm, range, bits⟩ := pmmBmSetRange_spec ready s cur
    refine ⟨fun _ => ⟨s, bm, ⟨fitsAt_iff.mpr here, fun s' here' => least s' (fitsAt_iff.mp here')⟩,
      ?_, bits⟩, fun none' => absurd (fitsAt_iff.mpr here) (none' s)⟩
    simp [addr, range]
  · refine ⟨fun some => some.elim fun s here => absurd (fitsAt_iff.mp here) (none' s), fun _ => ?_⟩
    simp [short]

/-- The bitmap of a small machine with the first and the third page in use. -/
def markedBitmap : Pmm := ⟨⟨0x200000, 0x210000, 0x200000⟩, fun _ => 5, true, 4096, 0⟩

theorem pmmAlloc_firstFit_marked :
    ∃ s bm, IsLeast {s | markedBitmap.FitsAt smallMachine 2 8192 s} s ∧
      pmmAlloc smallMachine markedBitmap 2 8192 =
        (markedBitmap.pageAt s, { markedBitmap with bm := bm }) ∧
      ∀ j, { markedBitmap with bm := bm }.bitAt j =
        (markedBitmap.bitAt j || decide (s ≤ j ∧ j < s + 2)) := by
  have init : pmmInitRegion smallMachine =
      .ok ⟨⟨0x200000, 0x210000, 0x200000⟩, fun _ => 0, false, 4096, 0⟩ := rfl
  have fits : markedBitmap.FitsAt smallMachine 2 8192 4 := by
    refine ⟨fun _ => by decide, fun j low high => ?_⟩
    obtain rfl | rfl : j = 4 ∨ j = 5 := by omega
    · decide
    · decide
  have result := @pmmAlloc_firstFit smallMachine markedBitmap _ 2 8192 init rfl rfl rfl rfl (by decide)
  exact result.1 ⟨4, fits⟩

end Sdx.Mm
