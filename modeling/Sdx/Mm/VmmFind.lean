import Sdx.Mm.Region
import Sdx.Mm.VmmRoundTrip

/-! # Where `__vmm_find_contiguous` ends

The search begins at the start of a VMA and never looks at the end of it. It takes the first range
that is free, so it stays in the VMA as long as there is one.
-/

namespace Sdx.Mm

variable {s : Vmm} {fuel num align : Nat} {attr : BitVec 32} {vaddr : BitVec 64}

/-- `num` pages from `vaddr` on are in the VMA of `attr`. `VMM_VMA_USER_END` is the last byte of the
    one, `VMM_VMA_KERNEL_END` the first behind the other. -/
def WithinVma (attr : BitVec 32) (num : Nat) (vaddr : BitVec 64) : Prop :=
  if attr &&& vmmAttrUser ≠ 0#32 then
    vmmVmaUserStart.toNat ≤ vaddr.toNat ∧ vaddr.toNat + num * pageSize ≤ vmmVmaUserEnd + 1
  else vmmVmaKernelStart.toNat ≤ vaddr.toNat ∧ vaddr.toNat + num * pageSize ≤ vmmVmaKernelEnd

theorem WithinVma.start_le (inside : WithinVma attr num vaddr) :
    (vmmFindStart attr).toNat ≤ vaddr.toNat := by
  unfold WithinVma at inside
  unfold vmmFindStart
  split at inside
  · next user =>
      rw [if_pos user]
      exact inside.1
  · next kernel =>
      rw [if_neg kernel]
      exact inside.1

/-- A range that begins lower, but not below the start, is in the VMA as well. -/
theorem WithinVma.lower {vaddr' : BitVec 64} (inside : WithinVma attr num vaddr)
    (start : (vmmFindStart attr).toNat ≤ vaddr'.toNat) (le : vaddr'.toNat ≤ vaddr.toNat) :
    WithinVma attr num vaddr' := by
  unfold WithinVma at inside ⊢
  unfold vmmFindStart at start
  split at inside
  · next user =>
      rw [if_pos user] at start ⊢
      exact ⟨start, by omega⟩
  · next kernel =>
      rw [if_neg kernel] at start ⊢
      exact ⟨start, by omega⟩

theorem vmmFindStart_aligned (attr : BitVec 32) : 4096 ∣ (vmmFindStart attr).toNat := by
  unfold vmmFindStart
  split
  · decide
  · decide

/-- A page behind the start of the search is one that it gets to. -/
theorem exists_pageAfter (aligned : 4096 ∣ vaddr.toNat) (ge : (vmmFindStart attr).toNat ≤ vaddr.toNat) :
    ∃ k, vaddr = pageAfter (vmmFindStart attr) k ∧
      vaddr.toNat = (vmmFindStart attr).toNat + k * 4096 := by
  have lt := vaddr.isLt
  have start := vmmFindStart_aligned attr
  refine ⟨(vaddr.toNat - (vmmFindStart attr).toNat) / 4096, ?_, by omega⟩
  apply BitVec.eq_of_toNat_eq
  rw [pageAfter, BitVec.toNat_add, BitVec.toNat_ofNat]
  omega

/-- The range that `__vmm_find_contiguous` finds is aligned and free, and it is in its VMA exactly if
    there is such a range in the VMA. -/
theorem vmmFindContiguous_inside_iff (done : vmmFindContiguous s fuel num align attr = some vaddr)
    (some_page : 1 ≤ num) (found : vaddr ≠ 0#64) :
    ((align ≠ 0 → align ∣ vaddr.toNat) ∧
      (∀ j, j < num → vmmEntryFromVaddr s (pageAfter vaddr j) = some none) ∧
      WithinVma attr num vaddr) ↔
    ∃ place : BitVec 64, 4096 ∣ place.toNat ∧ (align ≠ 0 → align ∣ place.toNat) ∧
      (∀ j, j < num → vmmEntryFromVaddr s (pageAfter place j) = some none) ∧
      WithinVma attr num place := by
  have aligned (v : BitVec 64) : (align ≠ 0 → align ∣ v.toNat) ↔ align = 0 ∨ v.toNat % align = 0 := by
    rw [Nat.dvd_iff_mod_eq_zero, ← or_iff_not_imp_left]
  simp only [aligned]
  obtain ⟨k, at_k, vacant, least⟩ := vmmFindContiguous_first done some_page found
  have start := vmmFindStart_aligned attr
  constructor
  · rintro ⟨fits, unused, inside⟩
    refine ⟨vaddr, ?_, fits, unused, inside⟩
    rw [at_k, pageAfter, BitVec.toNat_add, BitVec.toNat_ofNat]
    omega
  · rintro ⟨place, page, fits, unused, inside⟩
    obtain ⟨k', rfl, value⟩ := exists_pageAfter page inside.start_le
    have le := least k' ⟨fits, unused⟩
    have lt := (pageAfter (vmmFindStart attr) k').isLt
    -- the search did not get past the place, so it did not get past the end of memory
    have at_vaddr : vaddr.toNat = (vmmFindStart attr).toNat + k * 4096 := by
      rw [at_k, pageAfter, BitVec.toNat_add, BitVec.toNat_ofNat]
      omega
    exact ⟨vacant.1, vacant.2, inside.lower (by omega) (by omega)⟩

/-! ## Behind the end of the user's area -/

/-- As long as no run is begun, the pages that are not aligned are passed over. -/
theorem vmmFindContiguousLoop_skip {base start : BitVec 64} {n j : Nat} (some_page : 0 < num)
    (unaligned : ∀ i, j ≤ i → i < j + n → align ≠ 0 ∧ (pageAfter base i).toNat % align ≠ 0) :
    vmmFindContiguousLoop s num align (fuel + n) (pageAfter base j) start 0 =
      vmmFindContiguousLoop s num align fuel (pageAfter base (j + n)) start 0 := by
  induction n generalizing j with
  | zero => rfl
  | succ n ih =>
      rw [← Nat.add_assoc fuel, vmmFindContiguousLoop, if_pos some_page,
        if_pos ⟨rfl, unaligned j (Nat.le_refl j) (by omega)⟩, pageAfter_succ,
        ih fun i low high => unaligned i (by omega) (by omega), Nat.add_right_comm j, Nat.add_assoc j]

/-- A page aligned to the size of the user's area is found behind it. -/
theorem vmmFindContiguous_not_inside : Recursive (onePageVmm 0x5003).mem (onePageVmm 0x5003).cr3 ∧
    vmmFindContiguous (onePageVmm 0x5003) (2 ^ 35 + 1) 1 (2 ^ 47) vmmAttrUser =
      some 0x800000000000 ∧ ¬WithinVma vmmAttrUser 1 0x800000000000 := by
  have far : pageAfter vmmVmaUserStart (2 ^ 35 - 1) = 0x800000000000 := by decide
  refine ⟨onePage_recursive (by decide), ?_, ?_⟩
  · rw [vmmFindContiguous, if_pos (by decide), ← pageAfter_zero vmmVmaUserStart,
      show 2 ^ 35 + 1 = 2 + (2 ^ 35 - 1) from rfl, vmmFindContiguousLoop_skip (by decide), Nat.zero_add,
      far]
    · decide
    · intro i _ lt
      refine ⟨by decide, ?_⟩
      rw [pageAfter, BitVec.toNat_add, BitVec.toNat_ofNat, show vmmVmaUserStart.toNat = 4096 from rfl]
      omega
  · rw [WithinVma, if_pos (by decide)]
    decide

theorem vmmFindContiguous_inside_iff_onePage :
    vmmFindContiguous (onePageVmm 0x5003) 4 1 4096 vmmAttrUser = some 0x1000 ∧
    (((4096 ≠ 0 → 4096 ∣ (0x1000 : BitVec 64).toNat) ∧
      (∀ j, j < 1 → vmmEntryFromVaddr (onePageVmm 0x5003) (pageAfter 0x1000 j) = some none) ∧
      WithinVma vmmAttrUser 1 0x1000) ↔
    ∃ place : BitVec 64, 4096 ∣ place.toNat ∧ (4096 ≠ 0 → 4096 ∣ place.toNat) ∧
      (∀ j, j < 1 → vmmEntryFromVaddr (onePageVmm 0x5003) (pageAfter place j) = some none) ∧
      WithinVma vmmAttrUser 1 place) := by
  have done : vmmFindContiguous (onePageVmm 0x5003) 4 1 4096 vmmAttrUser = some 0x1000 := by
    decide
  exact ⟨done, vmmFindContiguous_inside_iff done (by decide) (by decide)⟩

end Sdx.Mm
