import Mathlib.Logic.Function.Basic
import Sdx.Base

/-! # Page tables and the hardware walk (`inc/mm/paging.h`)

Physical memory is a function of a frame and the index of a word in it. The processor
translates an address through up to four tables; every access of the kernel to a page table
is itself an access to a virtual address and goes through the same walk. Caches of
translations are not modelled.
-/

namespace Sdx.Mm

/-- The number of a 4 KiB frame of physical memory. -/
abbrev Frame := BitVec 40

/-- The index of an entry in a table. -/
abbrev Index := BitVec 9

abbrev PhysMem := Frame → Index → BitVec 64

/-- Write one word. -/
def PhysMem.set (mem : PhysMem) (frame : Frame) (i : Index) (value : BitVec 64) : PhysMem :=
  Function.update mem frame (Function.update (mem frame) i value)

section

variable (mem : PhysMem) {frame frame' : Frame} {i j : Index} (value : BitVec 64)

@[simp] theorem PhysMem.set_same : mem.set frame i value frame i = value := by
  simp [PhysMem.set]

@[simp] theorem PhysMem.set_index (off : j ≠ i) : mem.set frame i value frame j = mem frame j := by
  simp [PhysMem.set, off]

@[simp] theorem PhysMem.set_set (value' : BitVec 64) :
    (mem.set frame i value).set frame i value' = mem.set frame i value' := by
  simp [PhysMem.set]

theorem PhysMem.set_slot (off : frame' = frame → j ≠ i) :
    mem.set frame i value frame' j = mem frame' j := by
  by_cases same : frame' = frame
  · subst same
    simp [PhysMem.set, off rfl]
  · simp [PhysMem.set, same]

@[simp] theorem PhysMem.set_frame (off : frame' ≠ frame) :
    mem.set frame i value frame' = mem frame' := by
  simp [PhysMem.set, off]

end

/-! ## Entries -/

/-- `PTE_COUNT`. -/
def pteCount : Nat := 512

def pteFlagP : BitVec 64 := 1
def pteFlagRW : BitVec 64 := 1 <<< 1
def pteFlagUS : BitVec 64 := 1 <<< 2
def pteFlagPWT : BitVec 64 := 1 <<< 3
def pteFlagPCD : BitVec 64 := 1 <<< 4
def pteFlagA : BitVec 64 := 1 <<< 5
def pteFlagD : BitVec 64 := 1 <<< 6
def pteFlagPAT : BitVec 64 := 1 <<< 7
def pteFlagPS : BitVec 64 := 1 <<< 7
def pteFlagG : BitVec 64 := 1 <<< 8
def pteFlagPMM : BitVec 64 := 1 <<< 9
def pteFlagXD : BitVec 64 := 1 <<< 63

/-- `PTE_FLAGS_DEFAULT`. -/
def pteFlagsDefault : BitVec 64 := pteFlagP ||| pteFlagRW

/-- `PTE_FLAGS_CLEAR`. -/
def pteFlagsClear : BitVec 64 :=
  ~~~(pteFlagP ||| pteFlagRW ||| pteFlagUS ||| pteFlagPWT ||| pteFlagPCD ||| pteFlagA |||
    pteFlagD ||| pteFlagPAT ||| pteFlagG ||| pteFlagXD ||| pteFlagPMM)

/-! ## The processor -/

def hwPresent (entry : BitVec 64) : Bool := entry.getLsbD 0

/-- The page size bit, which the processor reads in entries of a PDPT and a PD. -/
def hwLarge (entry : BitVec 64) : Bool := entry.getLsbD 7

/-- The frame an entry or a physical address is in. -/
def hwFrame (entry : BitVec 64) : Frame := entry.extractLsb' 12 40

/-- The index of `vaddr` into a table. The PT is the table of level 1, the PML4 that of level 4. -/
def hwIndex (vaddr : BitVec 64) (level : Nat) : Index := vaddr.extractLsb' (9 * level + 3) 9

/-- A physical address has 52 bits. -/
def hwAddressMask : BitVec 64 := BitVec.allOnes 64 >>> 12

/-- The bits of an address inside the page of an entry of a level. -/
def hwPageMask (level : Nat) : BitVec 64 := BitVec.allOnes 64 >>> (61 - 9 * level)

/-- The physical address of `vaddr` in the page of an entry of a level. -/
def hwPage (level : Nat) (entry vaddr : BitVec 64) : BitVec 64 :=
  (entry &&& hwAddressMask &&& ~~~hwPageMask level) ||| (vaddr &&& hwPageMask level)

/-- The entries the walk consults from a table of a level on, and the level and the entry of the
    page it ends at, if there is one. -/
def hwWalk (mem : PhysMem) (vaddr : BitVec 64) :
    Nat → Frame → List (BitVec 64) × Option (Nat × BitVec 64)
  | 0, _ => ([], none)
  | level + 1, table =>
      let entry := mem table (hwIndex vaddr (level + 1))
      if !hwPresent entry then ([entry], none)
      else if level = 0 ∨ (level < 3 ∧ hwLarge entry) then ([entry], some (level + 1, entry))
      else
        let (entries, page) := hwWalk mem vaddr level (hwFrame entry)
        (entry :: entries, page)

/-- The bits above 47 are equal to bit 47. -/
def canonical (vaddr : BitVec 64) : Bool := (vaddr.setWidth 48).signExtend 64 == vaddr

def hwTranslate (mem : PhysMem) (cr3 : Frame) (vaddr : BitVec 64) : Option (BitVec 64) :=
  if canonical vaddr then
    (hwWalk mem vaddr 4 cr3).2.map fun (level, entry) => hwPage level entry vaddr
  else none

/-- The index of the word at a physical address in its frame. -/
def hwWord (paddr : BitVec 64) : Index := paddr.extractLsb' 3 9

/-- Read an aligned word, or fault. -/
def hwRead (mem : PhysMem) (cr3 : Frame) (vaddr : BitVec 64) : Option (BitVec 64) :=
  (hwTranslate mem cr3 vaddr).map fun paddr => mem (hwFrame paddr) (hwWord paddr)

/-- Write an aligned word, or fault. -/
def hwWrite (mem : PhysMem) (cr3 : Frame) (vaddr value : BitVec 64) : Option PhysMem :=
  (hwTranslate mem cr3 vaddr).map fun paddr => mem.set (hwFrame paddr) (hwWord paddr) value

/-! ## Addresses -/

theorem hwIndex_toNat (vaddr : BitVec 64) (level : Nat) :
    (hwIndex vaddr level).toNat = vaddr.toNat / 2 ^ (9 * level + 3) % 512 := by
  simp [hwIndex, BitVec.extractLsb'_toNat, Nat.shiftRight_eq_div_pow]

theorem hwWord_toNat (paddr : BitVec 64) : (hwWord paddr).toNat = paddr.toNat / 8 % 512 := by
  simp [hwWord, BitVec.extractLsb'_toNat, Nat.shiftRight_eq_div_pow]

section

variable {v w : BitVec 64} {mem : PhysMem} {table : Frame}

theorem hwIndex_congr_page (same : v.toNat / 4096 = w.toNat / 4096) {level : Nat}
    (pos : 0 < level) : hwIndex v level = hwIndex w level := by
  apply BitVec.eq_of_toNat_eq
  have split : 2 ^ (9 * level + 3) = 4096 * 2 ^ (9 * (level - 1)) := by
    rw [show 4096 = 2 ^ 12 from rfl, ← Nat.pow_add]
    congr 1
    omega
  rw [hwIndex_toNat, hwIndex_toNat, split, ← Nat.div_div_eq_div_mul, ← Nat.div_div_eq_div_mul, same]

/-- The walk is the same for all addresses of a page. -/
theorem hwWalk_congr_page (same : v.toNat / 4096 = w.toNat / 4096) :
    hwWalk mem v 4 table = hwWalk mem w 4 table := by
  have index (level : Nat) (pos : 0 < level) := @hwIndex_congr_page v w same level pos
  simp only [hwWalk, index 4 (by decide), index 3 (by decide), index 2 (by decide),
    index 1 (by decide)]

end

/-- The addresses of the upper half are canonical. -/
theorem canonical_of_high {vaddr : BitVec 64} (high : 0xffff800000000000 ≤ vaddr.toNat) :
    canonical vaddr = true := by
  have lt := vaddr.isLt
  have low : (vaddr.setWidth 48).toNat = vaddr.toNat % 2 ^ 48 := BitVec.toNat_setWidth 48 vaddr
  have set : (vaddr.setWidth 48).msb = true := by
    rw [BitVec.msb_eq_decide, low]
    simp only [decide_eq_true_eq]
    omega
  have extension : 2 ^ 64 - 2 ^ 48 = 0xffff000000000000 := by decide
  simp only [canonical, beq_iff_eq]
  apply BitVec.eq_of_toNat_eq
  rw [BitVec.toNat_signExtend, set, if_pos rfl, extension, BitVec.toNat_setWidth, low]
  omega

theorem canonical_iff {a : BitVec 64} :
    canonical a = true ↔ ∀ i, 47 ≤ i → i < 64 → a.getLsbD i = a.getLsbD 47 := by
  have bit (i : Nat) (lt : i < 64) : ((a.setWidth 48).signExtend 64).getLsbD i =
      if i < 48 then a.getLsbD i else a.getLsbD 47 := by
    simp only [BitVec.getLsbD_signExtend, BitVec.getLsbD_setWidth, BitVec.msb_setWidth, lt]
    by_cases low : i < 48 <;> simp [low]
  rw [canonical, beq_iff_eq]
  constructor
  · intro same i ge lt
    have here := bit i lt
    rw [same] at here
    by_cases low : i < 48
    · have eq : i = 47 := by omega
      rw [eq]
    · rw [here, if_neg low]
  · intro same
    apply BitVec.eq_of_getLsbD_eq
    intro i lt
    rw [bit i lt]
    split
    · rfl
    · exact (same i (by omega) lt).symm

theorem canonical_of_low {a : BitVec 64} (low : a.toNat < 2 ^ 47) : canonical a = true := by
  have unset (i : Nat) (ge : 47 ≤ i) : a.getLsbD i = false := by
    apply Nat.testBit_lt_two_pow
    calc a.toNat < 2 ^ 47 := low
      _ ≤ 2 ^ i := Nat.pow_le_pow_right (by decide) ge
  exact canonical_iff.mpr fun i ge _ => by rw [unset i ge, unset 47 (Nat.le_refl 47)]

theorem getLsbD_hwPage {level : Nat} (le : level ≤ 4) (entry vaddr : BitVec 64) {i : Nat}
    (lt : i < 64) : (hwPage level entry vaddr).getLsbD i =
      if i < 9 * level + 3 then vaddr.getLsbD i else (decide (i < 52) && entry.getLsbD i) := by
  have inside : decide (61 - 9 * level + i < 64) = decide (i < 9 * level + 3) := by
    rw [decide_eq_decide]
    omega
  have address : decide (12 + i < 64) = decide (i < 52) := by
    rw [decide_eq_decide]
    omega
  simp only [hwPage, hwPageMask, hwAddressMask, BitVec.getLsbD_or, BitVec.getLsbD_and,
    BitVec.getLsbD_not, BitVec.getLsbD_ushiftRight, BitVec.getLsbD_allOnes, inside, address, lt]
  by_cases below : i < 9 * level + 3
  · simp [below]
  · simp [below, Bool.and_comm]

theorem hwFrame_hwPage (entry vaddr : BitVec 64) : hwFrame (hwPage 1 entry vaddr) = hwFrame entry := by
  apply BitVec.eq_of_getLsbD_eq
  intro i lt
  simp only [hwFrame, BitVec.getLsbD_extractLsb', lt, decide_true, Bool.true_and]
  rw [getLsbD_hwPage (by decide) _ _ (by omega), if_neg (by omega)]
  have address : 12 + i < 52 := by omega
  simp [address]

theorem hwWord_hwPage {level : Nat} (le : level ≤ 4) (pos : 0 < level) (entry vaddr : BitVec 64) :
    hwWord (hwPage level entry vaddr) = hwWord vaddr := by
  apply BitVec.eq_of_getLsbD_eq
  intro i lt
  simp only [hwWord, BitVec.getLsbD_extractLsb', lt, decide_true, Bool.true_and]
  rw [getLsbD_hwPage le _ _ (by omega), if_pos (by omega)]

end Sdx.Mm
