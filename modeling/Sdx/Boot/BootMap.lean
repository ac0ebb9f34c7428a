import Sdx.Boot.PagingSetup
import Sdx.Mm.PageTree

/-! # The memory the kernel starts with (`boot/paging.S`, `boot/loader.S`)

The loader takes what `__paging_setup` returns for the PML4, turns paging on and jumps to the upper
half, where `__paging_clean` removes the lower half through the map itself.
-/

namespace Sdx.Boot

open Sdx.Lib Sdx.Lib.Asm Sdx.Lib.Bytes Sdx.Mm

/-- Physical memory as the processor reads tables from it. -/
def physMem (m : Memory) : PhysMem := fun frame i =>
  BitVec.ofNat 64 (Bytes.read m (frame.toNat * 4096 + 8 * i.toNat) 8)

/-- `BOOT_KERNEL_ADDR`. -/
def bootKernelAddr : BitVec 64 := 0xffffffff80000000

/-- `__paging_clean`, with the address of `paging_temp_tables` in the upper half. -/
def pagingClean (mem : PhysMem) (cr3 : Frame) (pagingTempTables : BitVec 64) : Option PhysMem := do
  let mem ← hwWrite mem cr3 pagingTempTables 0
  hwWrite mem cr3 (pagingTempTables + 512 * 8) 0

/-! ## The tables -/

/-- The entry for a frame with the default flags. -/
def bootPte (k : Nat) : BitVec 64 := BitVec.ofNat 64 (k * 4096 + 3)

section

variable {k : Nat}

theorem toNat_bootPte (lt : k < 2 ^ 40) : (bootPte k).toNat = k * 4096 + 3 := by
  rw [bootPte, BitVec.toNat_ofNat, Nat.mod_eq_of_lt (by omega)]

theorem bootPte_pointer (lt : k < 2 ^ 40) : hwPointer (bootPte k) := by
  have bit : ∀ i, (bootPte k).getLsbD i = (k * 4096 + 3).testBit i := fun i => by
    rw [← toNat_bootPte lt]
    rfl
  constructor
  · rw [hwPresent, bit, Nat.testBit_zero, decide_eq_true_eq]
    omega
  · rw [hwLarge, bit, Nat.testBit_eq_decide_div_mod_eq, decide_eq_false_iff_not]
    omega

theorem hwFrame_bootPte (lt : k < 2 ^ 40) : hwFrame (bootPte k) = BitVec.ofNat 40 k := by
  apply BitVec.eq_of_toNat_eq
  rw [hwFrame, BitVec.extractLsb'_toNat, toNat_bootPte lt, Nat.shiftRight_eq_div_pow,
    BitVec.toNat_ofNat]
  omega

end

/-- The four tables from frame `n` on, and the frame of the information. The PML4 and the PDPT have an
    entry 0, or not any more. -/
structure BootTables (low₄ low₃ : Bool) (mem : PhysMem) (n page : Nat) : Prop where
  fits : n + 4 ≤ 2 ^ 20
  page_lt : page < 2 ^ 20
  pml4 : ∀ i, mem (BitVec.ofNat 40 n) i = if i = 510 then bootPte n
    else if i = 511 ∨ low₄ ∧ i = 0 then bootPte (n + 1) else 0
  pdpt : ∀ i, mem (BitVec.ofNat 40 (n + 1)) i =
    if i = 510 ∨ low₃ ∧ i = 0 then bootPte (n + 2) else 0
  pd : ∀ i, mem (BitVec.ofNat 40 (n + 2)) i =
    if i = 0 then 0x83 else if i = 1 then bootPte (n + 3) else 0
  pt : ∀ i, mem (BitVec.ofNat 40 (n + 3)) i = if i = 0 then bootPte page else 0

theorem hwPage_bootPte {page : Nat} (lt : page < 2 ^ 20) (v : BitVec 64) :
    (hwPage 1 (bootPte page) v).toNat = page * 4096 + v.toNat % 4096 := by
  have offset : v.toNat % 2 ^ 12 < 2 ^ 12 := Nat.mod_lt _ (by decide)
  have value : page * 4096 + v.toNat % 4096 = 2 ^ 12 * page + v.toNat % 2 ^ 12 := by omega
  have entry : (bootPte page).toNat = 2 ^ 12 * page + 3 := by
    rw [toNat_bootPte (by omega)]
    omega
  rw [value]
  apply Nat.eq_of_testBit_eq
  intro i
  rw [Nat.testBit_two_pow_mul_add _ offset, Nat.testBit_mod_two_pow]
  by_cases lt' : i < 64
  · have bit := getLsbD_hwPage (show 1 ≤ 4 by decide) (bootPte page) v lt'
    rw [BitVec.getLsbD] at bit
    rw [bit]
    by_cases below : i < 12
    · simp [below]
      rfl
    · have upper : (bootPte page).getLsbD i = page.testBit (i - 12) := by
        rw [BitVec.getLsbD, entry, Nat.testBit_two_pow_mul_add _ (by decide), if_neg below]
      have short : 52 ≤ i → page.testBit (i - 12) = false := fun ge =>
        Nat.testBit_lt_two_pow (lt.trans_le (Nat.pow_le_pow_right (by decide) (by omega)))
      rw [if_neg below, if_neg (by omega), upper]
      by_cases address : i < 52
      · simp [address]
      · simp [short (by omega)]
  · rw [if_neg (by omega), Nat.testBit_lt_two_pow, Nat.testBit_lt_two_pow]
    · exact lt.trans_le (Nat.pow_le_pow_right (by decide) (by omega))
    · exact (BitVec.isLt _).trans_le (Nat.pow_le_pow_right (by decide) (by omega))

theorem hwPage_large (v : BitVec 64) : (hwPage 2 0x83 v).toNat = v.toNat % 2 ^ 21 := by
  apply Nat.eq_of_testBit_eq
  intro i
  rw [Nat.testBit_mod_two_pow]
  by_cases lt' : i < 64
  · have bit := getLsbD_hwPage (show 2 ≤ 4 by decide) 0x83 v lt'
    rw [BitVec.getLsbD] at bit
    rw [bit]
    by_cases below : i < 21
    · simp [below]
      rfl
    · have upper : (0x83 : BitVec 64).getLsbD i = false :=
        Nat.testBit_lt_two_pow ((by decide : (0x83 : Nat) < 2 ^ 8).trans_le
          (Nat.pow_le_pow_right (by decide) (by omega)))
      rw [if_neg (by omega), upper]
      simp [below]
  · rw [Nat.testBit_lt_two_pow]
    · simp
      omega
    · exact (BitVec.isLt _).trans_le (Nat.pow_le_pow_right (by decide) (by omega))

namespace BootTables

variable {low₄ low₃ : Bool} {mem : PhysMem} {n page : Nat} {v : BitVec 64}

theorem walk (tables : BootTables low₄ low₃ mem n page) (slot : hwIndex v 4 ≠ 510) :
    (hwWalk mem v 4 (BitVec.ofNat 40 n)).2 =
      if (hwIndex v 4 = 511 ∨ low₄ ∧ hwIndex v 4 = 0) ∧
          (hwIndex v 3 = 510 ∨ low₃ ∧ hwIndex v 3 = 0) then
        if hwIndex v 2 = 0 then some (2, 0x83)
        else if hwIndex v 2 = 1 ∧ hwIndex v 1 = 0 then some (1, bootPte page)
        else none
      else none := by
  have fits := tables.fits
  have page_lt := tables.page_lt
  have pml4 := tables.pml4 (hwIndex v 4)
  rw [if_neg slot] at pml4
  by_cases first : hwIndex v 4 = 511 ∨ low₄ ∧ hwIndex v 4 = 0
  · rw [if_pos first] at pml4
    obtain ⟨present, small⟩ := bootPte_pointer (k := n + 1) (by omega)
    rw [hwWalk_table (by rw [pml4]; exact present) (by simp), pml4, hwFrame_bootPte (by omega)]
    have pdpt := tables.pdpt (hwIndex v 3)
    by_cases second : hwIndex v 3 = 510 ∨ low₃ ∧ hwIndex v 3 = 0
    · rw [if_pos second] at pdpt
      obtain ⟨present, small⟩ := bootPte_pointer (k := n + 2) (by omega)
      rw [hwWalk_table (by rw [pdpt]; exact present) (by rw [pdpt, small]; simp), pdpt,
        hwFrame_bootPte (by omega), if_pos ⟨first, second⟩]
      have pd := tables.pd (hwIndex v 2)
      by_cases kernel : hwIndex v 2 = 0
      · rw [if_pos kernel] at pd
        rw [hwWalk_page (by rw [pd]; rfl) (.inr ⟨by decide, by rw [pd]; rfl⟩), pd, if_pos kernel]
      · rw [if_neg kernel] at pd
        rw [if_neg kernel]
        by_cases behind : hwIndex v 2 = 1
        · rw [if_pos behind] at pd
          obtain ⟨present, small⟩ := bootPte_pointer (k := n + 3) (by omega)
          rw [hwWalk_table (by rw [pd]; exact present) (by rw [pd, small]; simp), pd,
            hwFrame_bootPte (by omega)]
          have pt := tables.pt (hwIndex v 1)
          by_cases info : hwIndex v 1 = 0
          · rw [if_pos info] at pt
            obtain ⟨present, small⟩ := bootPte_pointer (k := page) (by omega)
            rw [hwWalk_page (by rw [pt]; exact present) (.inl rfl), pt, if_pos ⟨behind, info⟩]
          · rw [if_neg info] at pt
            rw [hwWalk_unused pt, if_neg fun here => info here.2]
        · rw [if_neg behind] at pd
          rw [hwWalk_unused pd, if_neg fun here => behind here.1]
    · rw [if_neg second] at pdpt
      rw [hwWalk_unused pdpt, if_neg fun here => second here.2]
  · rw [if_neg first] at pml4
    rw [hwWalk_unused pml4, if_neg fun here => first here.1]

theorem translate (tables : BootTables low₄ low₃ mem n page) (slot : hwIndex v 4 ≠ 510)
    (canon : canonical v = true) : (hwTranslate mem (BitVec.ofNat 40 n) v).map BitVec.toNat =
      if (hwIndex v 4 = 511 ∨ low₄ ∧ hwIndex v 4 = 0) ∧
          (hwIndex v 3 = 510 ∨ low₃ ∧ hwIndex v 3 = 0) then
        if hwIndex v 2 = 0 then some (v.toNat % 2 ^ 21)
        else if hwIndex v 2 = 1 ∧ hwIndex v 1 = 0 then some (page * 4096 + v.toNat % 4096)
        else none
      else none := by
  rw [hwTranslate, if_pos canon, tables.walk slot]
  split
  · split
    · rw [Option.map_some, Option.map_some, hwPage_large]
    · split
      · rw [Option.map_some, Option.map_some, hwPage_bootPte tables.page_lt]
      · rfl
  · rfl

end BootTables

/-! ## Addresses -/

/-- The map of the kernel: its first 2 MiB at the -2 GiB mark and the page of the information behind
    them. -/
def kernelMap (page : Nat) (v : BitVec 64) : Option Nat :=
  if bootKernelAddr.toNat ≤ v.toNat ∧ v.toNat < bootKernelAddr.toNat + 0x200000 then
    some (v.toNat - bootKernelAddr.toNat)
  else if bootKernelAddr.toNat + 0x200000 ≤ v.toNat ∧ v.toNat < bootKernelAddr.toNat + 0x201000 then
    some (page * 4096 + (v.toNat - (bootKernelAddr.toNat + 0x200000)))
  else none

/-- The addresses of the window to the tables. -/
def InWindow (v : BitVec 64) : Prop := 0xffffff0000000000 ≤ v.toNat ∧ v.toNat < 0xffffff8000000000

section

variable {low₄ low₃ : Bool} {mem : PhysMem} {n page : Nat} {v : BitVec 64}

theorem canonical_high (canon : canonical v = true) :
    v.toNat < 2 ^ 47 ∨ 2 ^ 64 - 2 ^ 47 ≤ v.toNat := by
  have lt := v.isLt
  by_contra middle
  have high : v.toNat / 2 ^ 47 ≠ 0 ∧ v.toNat / 2 ^ 47 ≠ 2 ^ 17 - 1 := by omega
  have extension := congrArg BitVec.toNat (beq_iff_eq.mp canon)
  have bits : 2 ^ 64 - 2 ^ 48 = 0xffff000000000000 := rfl
  rw [BitVec.toNat_signExtend, BitVec.msb_eq_decide, BitVec.toNat_setWidth, BitVec.toNat_setWidth, bits]
    at extension
  simp only [decide_eq_true_eq] at extension
  split at extension <;> omega

theorem hwIndex_eq_iff {level e k : Nat} (shift : e = 9 * level + 3) (lt : k < 512) :
    hwIndex v level = BitVec.ofNat 9 k ↔ v.toNat / 2 ^ e % 512 = k := by
  rw [← BitVec.toNat_inj, hwIndex_toNat, BitVec.toNat_ofNat, Nat.mod_eq_of_lt lt, shift]

/-- The indexes of an address, as its digits. -/
theorem hwIndex_digits (v : BitVec 64) :
    (∀ k < 512, hwIndex v 4 = BitVec.ofNat 9 k ↔ v.toNat / 2 ^ 39 % 512 = k) ∧
    (∀ k < 512, hwIndex v 3 = BitVec.ofNat 9 k ↔ v.toNat / 2 ^ 30 % 512 = k) ∧
    (∀ k < 512, hwIndex v 2 = BitVec.ofNat 9 k ↔ v.toNat / 2 ^ 21 % 512 = k) ∧
    (∀ k < 512, hwIndex v 1 = BitVec.ofNat 9 k ↔ v.toNat / 2 ^ 12 % 512 = k) :=
  ⟨fun _ => hwIndex_eq_iff rfl, fun _ => hwIndex_eq_iff rfl, fun _ => hwIndex_eq_iff rfl,
    fun _ => hwIndex_eq_iff rfl⟩

theorem BootTables.translate_kernel (tables : BootTables low₄ low₃ mem n page)
    (upper : 0xffffffff80000000 ≤ v.toNat) :
    (hwTranslate mem (BitVec.ofNat 40 n) v).map BitVec.toNat = kernelMap page v := by
  have lt := v.isLt
  have base : bootKernelAddr.toNat = 0xffffffff80000000 := rfl
  obtain ⟨digit₄, digit₃, digit₂, digit₁⟩ := hwIndex_digits v
  have index₄ : hwIndex v 4 = 511 := (digit₄ 511 (by decide)).mpr (by omega)
  have slot : hwIndex v 4 ≠ 510 := by
    rw [index₄]
    decide
  have index₃ : hwIndex v 3 = 510 ↔ v.toNat / 2 ^ 30 % 512 = 510 := digit₃ 510 (by decide)
  have index₃' : hwIndex v 3 = 0 ↔ v.toNat / 2 ^ 30 % 512 = 0 := digit₃ 0 (by decide)
  have index₂ : hwIndex v 2 = 0 ↔ v.toNat / 2 ^ 21 % 512 = 0 := digit₂ 0 (by decide)
  have index₂' : hwIndex v 2 = 1 ↔ v.toNat / 2 ^ 21 % 512 = 1 := digit₂ 1 (by decide)
  have index₁ : hwIndex v 1 = 0 ↔ v.toNat / 2 ^ 12 % 512 = 0 := digit₁ 0 (by decide)
  rw [tables.translate slot (canonical_of_high (by omega)), kernelMap, base]
  simp only [index₄, index₃, index₃', index₂, index₂', index₁, true_or, true_and]
  split_ifs <;> first
    | (rw [Option.some.injEq]; omega)
    | (exfalso; omega)
    | rfl

/-- Before the lower half goes, its first 2 MiB are where they were. -/
theorem BootTables.translate_low (tables : BootTables true true mem n page) (low : v.toNat < 2 ^ 21) :
    (hwTranslate mem (BitVec.ofNat 40 n) v).map BitVec.toNat = some v.toNat := by
  obtain ⟨digit₄, digit₃, digit₂, -⟩ := hwIndex_digits v
  have index₄ : hwIndex v 4 = 0 := (digit₄ 0 (by decide)).mpr (by omega)
  have index₃ : hwIndex v 3 = 0 := (digit₃ 0 (by decide)).mpr (by omega)
  have index₂ : hwIndex v 2 = 0 := (digit₂ 0 (by decide)).mpr (by omega)
  have slot : hwIndex v 4 ≠ 510 := by
    rw [index₄]
    decide
  rw [tables.translate slot (canonical_of_low (by omega)), if_pos ⟨.inr ⟨rfl, index₄⟩, .inr ⟨rfl, index₃⟩⟩,
    if_pos index₂, Nat.mod_eq_of_lt low]

/-- Without the lower half the kernel is at the -2 GiB mark, and nowhere else. -/
theorem BootTables.translate_upper (tables : BootTables false false mem n page) (out : ¬ InWindow v) :
    (hwTranslate mem (BitVec.ofNat 40 n) v).map BitVec.toNat = kernelMap page v := by
  have lt := v.isLt
  have base : bootKernelAddr.toNat = 0xffffffff80000000 := rfl
  by_cases upper : 0xffffffff80000000 ≤ v.toNat
  · exact tables.translate_kernel upper
  have none : kernelMap page v = none := by
    rw [kernelMap, base, if_neg (by omega), if_neg (by omega)]
  rw [none]
  by_cases canon : canonical v = true
  · have half := canonical_high canon
    simp only [InWindow] at out
    obtain ⟨digit₄, digit₃, -⟩ := hwIndex_digits v
    have index₄ : hwIndex v 4 = 511 ↔ v.toNat / 2 ^ 39 % 512 = 511 := digit₄ 511 (by decide)
    have index₃ : hwIndex v 3 = 510 ↔ v.toNat / 2 ^ 30 % 512 = 510 := digit₃ 510 (by decide)
    have slot : hwIndex v 4 ≠ 510 := fun here => by
      have digit := (digit₄ 510 (by decide)).mp here
      omega
    rw [tables.translate slot canon]
    simp only [Bool.false_eq_true, false_and, or_false, index₄, index₃]
    rw [if_neg (by omega)]
  · rw [hwTranslate, if_neg canon]
    rfl

end

/-! ## From the memory of the loader -/

section

variable {im : PagingImage} {s₀ s : Machine 32} {mb : BitVec 32}

/-- An entry whose lower half was written. -/
theorem bootPte_of_page {x : BitVec 32} {k : Nat} (page : x.toNat = k * 4096) :
    BitVec.ofNat 64 (x ||| pteDefault).toNat = bootPte k := by
  have lt := x.isLt
  have flags : pteDefault.toNat = 3 := rfl
  have sum : (x ||| pteDefault).toNat = k * 4096 + 3 := by
    rw [BitVec.toNat_or, flags, page]
    have bits := Nat.two_pow_add_eq_or_of_lt (i := 12) (by decide : 3 < 2 ^ 12) k
    rw [Nat.mul_comm k]
    exact bits.symm
  rw [sum, bootPte]

theorem physMem_slots {m : Memory} {T k : Nat} {f : Nat → BitVec 32} (slots : Slots m (T * 4096) f)
    (fits : T + 4 ≤ 2 ^ 20) (lt : k < 4) (i : Index) :
    physMem m (BitVec.ofNat 40 (T + k)) i = BitVec.ofNat 64 (f (512 * k + i.toNat)).toNat := by
  have index := i.isLt
  have frame : (BitVec.ofNat 40 (T + k)).toNat = T + k := by
    rw [BitVec.toNat_ofNat, Nat.mod_eq_of_lt (by omega)]
  have place : (T + k) * 4096 + 8 * i.toNat = T * 4096 + 8 * (512 * k + i.toNat) := by omega
  have small := (f (512 * k + i.toNat)).isLt
  rw [physMem, frame, place, read_eq_of_encode (slots _ (by omega)) (by omega)]

theorem toNat_eq_iff {i : Index} {k : Nat} (lt : k < 512) : i.toNat = k ↔ i = BitVec.ofNat 9 k := by
  rw [← BitVec.toNat_inj, BitVec.toNat_ofNat, Nat.mod_eq_of_lt lt]

/-- The entries in each of the tables. -/
theorem bootEntry_tables (pml4 page : BitVec 32) (i : Index) :
    bootEntry pml4 page (512 * 0 + i.toNat) = (if i = 510 then pml4 ||| pteDefault
      else if i = 511 ∨ i = 0 then (pml4 + 0x1000) ||| pteDefault else 0) ∧
    bootEntry pml4 page (512 * 1 + i.toNat) = (if i = 510 ∨ i = 0 then (pml4 + 0x2000) ||| pteDefault
      else 0) ∧
    bootEntry pml4 page (512 * 2 + i.toNat) = (if i = 0 then pteDefault ||| ptePs
      else if i = 1 then (pml4 + 0x3000) ||| pteDefault else 0) ∧
    bootEntry pml4 page (512 * 3 + i.toNat) = (if i = 0 then page ||| pteDefault else 0) := by
  have lt := i.isLt
  have is_510 : i = 510 ↔ i.toNat = 510 := (toNat_eq_iff (by decide)).symm
  have is_511 : i = 511 ↔ i.toNat = 511 := (toNat_eq_iff (by decide)).symm
  have is_0 : i = 0 ↔ i.toNat = 0 := (toNat_eq_iff (by decide)).symm
  have is_1 : i = 1 ↔ i.toNat = 1 := (toNat_eq_iff (by decide)).symm
  rw [bootEntry_eq]
  simp only [Function.update_apply, is_510, is_511, is_0, is_1]
  refine ⟨?_, ?_, ?_, ?_⟩ <;> split_ifs <;> first | (exfalso; omega) | rfl

theorem PagingDone.tables {T : Nat} (done : PagingDone im s₀ mb s)
    (at_ : im.pagingTempTables.toNat = T * 4096) (fits : T + 4 ≤ 2 ^ 20) :
    BootTables true true (physMem s.mem) T (mb.toNat / 4096) := by
  have slots := done.slots
  rw [at_] at slots
  have lt := mb.isLt
  have self := bootPte_of_page at_
  have behind : ∀ k : Nat, k < 4 → BitVec.ofNat 64
      ((im.pagingTempTables + BitVec.ofNat 32 (k * 4096)) ||| pteDefault).toNat = bootPte (T + k) :=
    fun k lt => bootPte_of_page (by rw [toNat_add_ofNat (by omega), at_]; omega)
  have page : BitVec.ofNat 64 (BitVec.ofNat 32 (mb.toNat / 4096 * 4096) ||| pteDefault).toNat =
      bootPte (mb.toNat / 4096) :=
    bootPte_of_page (by rw [BitVec.toNat_ofNat, Nat.mod_eq_of_lt (by omega)])
  refine ⟨fits, by omega, fun i => ?_, fun i => ?_, fun i => ?_, fun i => ?_⟩
  · have entry := physMem_slots slots fits (k := 0) (by decide) i
    rw [Nat.add_zero, (bootEntry_tables ..).1] at entry
    rw [entry, ← self, ← behind 1 (by decide)]
    simp only [true_and]
    split_ifs <;> rfl
  · rw [physMem_slots slots fits (k := 1) (by decide) i, (bootEntry_tables ..).2.1,
      ← behind 2 (by decide)]
    simp only [true_and]
    split_ifs <;> rfl
  · rw [physMem_slots slots fits (k := 2) (by decide) i, (bootEntry_tables ..).2.2.1,
      ← behind 3 (by decide)]
    split_ifs <;> rfl
  · rw [physMem_slots slots fits (k := 3) (by decide) i, (bootEntry_tables ..).2.2.2, ← page]
    split_ifs <;> rfl

end

/-! ## Without the lower half -/

namespace BootTables

variable {low₄ low₃ : Bool} {mem : PhysMem} {n page : Nat}

theorem frame_inj (tables : BootTables low₄ low₃ mem n page) {j k : Nat} (lt : j < 4) (lt' : k < 4)
    (same : BitVec.ofNat 40 (n + j) = BitVec.ofNat 40 (n + k)) : j = k := by
  have fits := tables.fits
  have value := congrArg BitVec.toNat same
  rw [BitVec.toNat_ofNat, BitVec.toNat_ofNat] at value
  omega

theorem clearPml4 (tables : BootTables low₄ low₃ mem n page) :
    BootTables false low₃ (mem.set (BitVec.ofNat 40 n) 0 0) n page := by
  have other : ∀ k, 0 < k → k < 4 → BitVec.ofNat 40 (n + k) ≠ BitVec.ofNat 40 n := fun k pos lt same =>
    absurd (tables.frame_inj (k := 0) lt (by decide) same) (by omega)
  refine ⟨tables.fits, tables.page_lt, fun i => ?_, fun i => ?_, fun i => ?_, fun i => ?_⟩
  · by_cases zero : i = 0
    · subst zero
      rw [PhysMem.set_same]
      rfl
    · rw [PhysMem.set_index _ _ zero, tables.pml4]
      simp only [zero, and_false]
  · rw [PhysMem.set_frame _ _ (other 1 (by decide) (by decide)), tables.pdpt]
  · rw [PhysMem.set_frame _ _ (other 2 (by decide) (by decide)), tables.pd]
  · rw [PhysMem.set_frame _ _ (other 3 (by decide) (by decide)), tables.pt]

theorem clearPdpt (tables : BootTables low₄ low₃ mem n page) :
    BootTables low₄ false (mem.set (BitVec.ofNat 40 (n + 1)) 0 0) n page := by
  have other : ∀ k, k ≠ 1 → k < 4 → BitVec.ofNat 40 (n + k) ≠ BitVec.ofNat 40 (n + 1) :=
    fun k off lt same => off (tables.frame_inj lt (by decide) same)
  refine ⟨tables.fits, tables.page_lt, fun i => ?_, fun i => ?_, fun i => ?_, fun i => ?_⟩
  · have off := other 0 (by decide) (by decide)
    rw [Nat.add_zero] at off
    rw [PhysMem.set_frame _ _ off, tables.pml4]
  · by_cases zero : i = 0
    · subst zero
      rw [PhysMem.set_same]
      rfl
    · rw [PhysMem.set_index _ _ zero, tables.pdpt]
      simp only [zero, and_false]
  · rw [PhysMem.set_frame _ _ (other 2 (by decide) (by decide)), tables.pd]
  · rw [PhysMem.set_frame _ _ (other 3 (by decide) (by decide)), tables.pt]

/-- A table is written at its address in the upper half. -/
theorem write (tables : BootTables low₄ low₃ mem n page) {k : Nat} (inside : (n + k + 1) * 4096 ≤ 2 ^ 21)
    (value : BitVec 64) :
    hwWrite mem (BitVec.ofNat 40 n) (bootKernelAddr + BitVec.ofNat 64 ((n + k) * 4096)) value =
      some (mem.set (BitVec.ofNat 40 (n + k)) 0 value) := by
  have base : bootKernelAddr.toNat = 0xffffffff80000000 := rfl
  have place : (bootKernelAddr + BitVec.ofNat 64 ((n + k) * 4096)).toNat =
      0xffffffff80000000 + (n + k) * 4096 := by
    rw [toNat_add_ofNat (by rw [base]; omega), base]
  have translate := tables.translate_kernel (v := bootKernelAddr + BitVec.ofNat 64 ((n + k) * 4096))
    (by rw [place]; omega)
  rw [kernelMap, base, place, if_pos (by omega), Nat.add_sub_cancel_left] at translate
  obtain ⟨paddr, found, value'⟩ := Option.map_eq_some_iff.mp translate
  have frame : hwFrame paddr = BitVec.ofNat 40 (n + k) := by
    apply BitVec.eq_of_toNat_eq
    rw [hwFrame, BitVec.extractLsb'_toNat, Nat.shiftRight_eq_div_pow, value', BitVec.toNat_ofNat]
    omega
  have word : hwWord paddr = 0 := by
    apply BitVec.eq_of_toNat_eq
    rw [hwWord_toNat, value']
    have zero : (0 : Index).toNat = 0 := rfl
    rw [zero]
    omega
  rw [hwWrite, found, Option.map_some, frame, word]

/-- `__paging_clean` finds the tables in the upper half, and takes the lower one away. -/
theorem pagingClean (tables : BootTables low₄ low₃ mem n page) (inside : (n + 4) * 4096 ≤ 2 ^ 21) :
    ∃ mem', Boot.pagingClean mem (BitVec.ofNat 40 n)
        (bootKernelAddr + BitVec.ofNat 64 (n * 4096)) = some mem' ∧
      BootTables false false mem' n page := by
  have within : ∀ k < 4, (n + k + 1) * 4096 ≤ 2 ^ 21 := fun k lt =>
    (Nat.mul_le_mul_right 4096 (by omega)).trans inside
  have first := tables.write (k := 0) (within 0 (by decide)) 0
  have second := tables.clearPml4.write (k := 1) (within 1 (by decide)) 0
  have behind : bootKernelAddr + BitVec.ofNat 64 ((n + 1) * 4096) =
      bootKernelAddr + BitVec.ofNat 64 (n * 4096) + 512 * 8 := by
    rw [Nat.succ_mul, BitVec.ofNat_add, ← BitVec.add_assoc]
    rfl
  rw [behind] at second
  refine ⟨_, ?_, tables.clearPml4.clearPdpt⟩
  rw [Boot.pagingClean]
  rw [Nat.add_zero] at first
  rw [first, Option.bind_eq_bind, Option.bind_some, second]

end BootTables

/-! ## The tree -/

/-- The tables by their paths, when the lower half is gone. -/
def bootTables (n : Nat) : Tables := fun path =>
  if path = [] then some (BitVec.ofNat 40 n)
  else if path = [511] then some (BitVec.ofNat 40 (n + 1))
  else if path = [511, 510] then some (BitVec.ofNat 40 (n + 2))
  else if path = [511, 510, 1] then some (BitVec.ofNat 40 (n + 3))
  else none

namespace BootTables

variable {mem : PhysMem} {n page : Nat} {path : List Index} {t : Frame} {i : Index}

theorem cases_path (at_path : bootTables n path = some t) :
    path = [] ∧ t = BitVec.ofNat 40 n ∨ path = [511] ∧ t = BitVec.ofNat 40 (n + 1) ∨
      path = [511, 510] ∧ t = BitVec.ofNat 40 (n + 2) ∨
        path = [511, 510, 1] ∧ t = BitVec.ofNat 40 (n + 3) := by
  unfold bootTables at at_path
  grind

theorem exists_take (at_path : bootTables n path = some t) :
    ∃ k, k < 4 ∧ path = List.take k [511, 510, 1] ∧ t = BitVec.ofNat 40 (n + k) := by
  obtain ⟨rfl, rfl⟩ | ⟨rfl, rfl⟩ | ⟨rfl, rfl⟩ | ⟨rfl, rfl⟩ := cases_path at_path
  · exact ⟨0, by decide, rfl, rfl⟩
  · exact ⟨1, by decide, rfl, rfl⟩
  · exact ⟨2, by decide, rfl, rfl⟩
  · exact ⟨3, by decide, rfl, rfl⟩

/-- The entries in use: the PML4 itself, the pointers down, the first 2 MiB and the information. -/
theorem used (tables : BootTables false false mem n page) (at_path : bootTables n path = some t)
    (used : mem t i ≠ 0#64) :
    path = [] ∧ i = 510 ∧ mem t i = bootPte n ∨
      path = [] ∧ i = 511 ∧ mem t i = bootPte (n + 1) ∨
      path = [511] ∧ i = 510 ∧ mem t i = bootPte (n + 2) ∨
      path = [511, 510] ∧ i = 1 ∧ mem t i = bootPte (n + 3) ∨
      path = [511, 510] ∧ i = 0 ∧ mem t i = 0x83 ∨
      path = [511, 510, 1] ∧ i = 0 ∧ mem t i = bootPte page := by
  obtain ⟨rfl, rfl⟩ | ⟨rfl, rfl⟩ | ⟨rfl, rfl⟩ | ⟨rfl, rfl⟩ := cases_path at_path
  · have row := tables.pml4 i
    by_cases self : i = 510
    · rw [if_pos self] at row
      exact .inl ⟨rfl, self, row⟩
    · by_cases top : i = 511
      · rw [if_neg self, if_pos (.inl top)] at row
        exact .inr (.inl ⟨rfl, top, row⟩)
      · rw [if_neg self, if_neg (by simpa using top)] at row
        exact absurd row used
  · have row := tables.pdpt i
    by_cases mark : i = 510
    · rw [if_pos (.inl mark)] at row
      exact .inr (.inr (.inl ⟨rfl, mark, row⟩))
    · rw [if_neg (by simpa using mark)] at row
      exact absurd row used
  · have row := tables.pd i
    by_cases kernel : i = 0
    · rw [if_pos kernel] at row
      exact .inr (.inr (.inr (.inr (.inl ⟨rfl, kernel, row⟩))))
    · by_cases behind : i = 1
      · rw [if_neg kernel, if_pos behind] at row
        exact .inr (.inr (.inr (.inl ⟨rfl, behind, row⟩)))
      · rw [if_neg kernel, if_neg behind] at row
        exact absurd row used
  · have row := tables.pt i
    by_cases info : i = 0
    · rw [if_pos info] at row
      exact .inr (.inr (.inr (.inr (.inr ⟨rfl, info, row⟩))))
    · rw [if_neg info] at row
      exact absurd row used

/-- An entry of the tree is a pointer to the table below it. -/
theorem pointers (tables : BootTables false false mem n page) {above : List Index}
    (at_path : bootTables n (above ++ [i]) = some t) : Branch above i ∧
      ∃ u, bootTables n above = some u ∧ hwPointer (mem u i) ∧ hwFrame (mem u i) = t := by
  have fits := tables.fits
  have point : ∀ {u k}, k < 4 → mem u i = bootPte (n + k) →
      hwPointer (mem u i) ∧ hwFrame (mem u i) = BitVec.ofNat 40 (n + k) := by
    intro u k lt entry
    rw [entry]
    exact ⟨bootPte_pointer (by omega), hwFrame_bootPte (by omega)⟩
  have last : ∀ {path : List Index} {j}, above ++ [i] = path ++ [j] → above = path ∧ i = j := by
    intro path j eq
    obtain ⟨rfl, one⟩ := List.append_inj' eq rfl
    exact ⟨rfl, List.head_eq_of_cons_eq one⟩
  obtain ⟨eq, -⟩ | ⟨eq, rfl⟩ | ⟨eq, rfl⟩ | ⟨eq, rfl⟩ := cases_path at_path
  · simp at eq
  · obtain ⟨rfl, rfl⟩ := @last [] 511 eq
    exact ⟨⟨by decide, by decide⟩, _, rfl, point (k := 1) (by decide) (tables.pml4 511)⟩
  · obtain ⟨rfl, rfl⟩ := @last [511] 510 eq
    exact ⟨⟨by simp, by simp⟩, _, by simp [bootTables], point (k := 2) (by decide) (tables.pdpt 510)⟩
  · obtain ⟨rfl, rfl⟩ := @last [511, 510] 1 eq
    exact ⟨⟨by simp, by simp⟩, _, by simp [bootTables], point (k := 3) (by decide) (tables.pd 1)⟩

/-- The tables are those of a tree, so what is proved of the virtual memory manager holds from here
    on. -/
theorem tree (tables : BootTables false false mem n page) :
    PageTree mem (BitVec.ofNat 40 n) (bootTables n) where
  self := by
    have fits := tables.fits
    have row : mem (BitVec.ofNat 40 n) 510 = bootPte n := tables.pml4 510
    obtain ⟨present, small⟩ := bootPte_pointer (k := n) (by omega)
    constructor <;> rw [row]
    · exact present
    · exact small
    · exact hwFrame_bootPte (by omega)
  root := rfl
  child := by
    intro path i t
    constructor
    · exact tables.pointers
    · rintro ⟨⟨short, slot⟩, above, at_path, pointer, rfl⟩
      have fits := tables.fits
      obtain ⟨rfl, rfl, -⟩ | ⟨rfl, rfl, entry⟩ | ⟨rfl, rfl, entry⟩ | ⟨rfl, rfl, entry⟩ |
        ⟨rfl, rfl, entry⟩ | ⟨rfl, rfl, -⟩ := tables.used at_path pointer.ne_zero
      · exact absurd rfl (slot rfl)
      · rw [entry, hwFrame_bootPte (by omega)]
        simp [bootTables]
      · rw [entry, hwFrame_bootPte (by omega)]
        simp [bootTables]
      · rw [entry, hwFrame_bootPte (by omega)]
        simp [bootTables]
      · rw [entry] at pointer
        exact absurd pointer.2 (by decide)
      · simp at short
  inj := by
    intro path path' t at_path at_path'
    obtain ⟨j, lt, rfl, rfl⟩ := exists_take at_path
    obtain ⟨k, lt', rfl, eq⟩ := exists_take at_path'
    rw [tables.frame_inj lt lt' eq]
  present := by
    intro path t i at_path used
    have fits := tables.fits
    have page_lt := tables.page_lt
    obtain ⟨-, -, entry⟩ | ⟨-, -, entry⟩ | ⟨-, -, entry⟩ | ⟨-, -, entry⟩ | ⟨-, -, entry⟩ |
      ⟨-, -, entry⟩ := tables.used at_path used
    · exact entry ▸ (bootPte_pointer (by omega)).1
    · exact entry ▸ (bootPte_pointer (by omega)).1
    · exact entry ▸ (bootPte_pointer (by omega)).1
    · exact entry ▸ (bootPte_pointer (by omega)).1
    · exact entry ▸ rfl
    · exact entry ▸ (bootPte_pointer (by omega)).1
  small := by
    intro path t i at_path high
    have fits := tables.fits
    by_cases unused : mem t i = 0#64
    · rw [unused]
      rfl
    obtain ⟨-, -, entry⟩ | ⟨-, -, entry⟩ | ⟨-, -, entry⟩ | ⟨rfl, -⟩ | ⟨rfl, -⟩ | ⟨rfl, -⟩ :=
      tables.used at_path unused
    · exact entry ▸ (bootPte_pointer (by omega)).2
    · exact entry ▸ (bootPte_pointer (by omega)).2
    · exact entry ▸ (bootPte_pointer (by omega)).2
    · simp at high
    · simp at high
    · simp at high

end BootTables

/-! ## Up to the kernel -/

/-- `BOOT_MB_INFO_VADDR`. -/
def bootMbInfoVaddr (m : Memory) (pagingMbDataOffset : BitVec 32) : BitVec 64 :=
  0xffffffff80200000 + BitVec.ofNat 64 (Bytes.read m pagingMbDataOffset.toNat 4)

section

variable {im : PagingImage} {s₀ : Machine 32} {back mb size : BitVec 32}

/-- With the result of `__paging_setup` as the PML4 the loader goes on where it is, and after
    `__paging_clean` there are the first 2 MiB and the multiboot information in the upper half, the
    tables in their window, and nothing else. The tables are a tree. -/
theorem boot_maps (entry : PagingEntry im s₀ back mb size)
    (inside : im.pagingTempTables.toNat + 0x4000 ≤ im.kernelEnd.toNat)
    (kernel : im.kernelEnd.toNat ≤ 2 * 1024 * 1024)
    (small : (size + BitVec.ofNat 32 (mb.toNat % 4096)).toNat ≤ 4096) :
    ∃ s mem cr3, im.code.Ends .setup s₀ (.tables, s) ∧ hwFrame ((s.regs .rax).setWidth 64) = cr3 ∧
      (∀ v : BitVec 64, v.toNat < 2 ^ 21 →
        (hwTranslate (physMem s.mem) cr3 v).map BitVec.toNat = some v.toNat) ∧
      pagingClean (physMem s.mem) cr3 (bootKernelAddr + (s.regs .rax).setWidth 64) = some mem ∧
      (∀ v, ¬ InWindow v → (hwTranslate mem cr3 v).map BitVec.toNat = kernelMap (mb.toNat / 4096) v) ∧
      (∀ k, mb.toNat % 4096 + k < 4096 → (hwTranslate mem cr3
        (bootMbInfoVaddr s.mem im.pagingMbDataOffset + BitVec.ofNat 64 k)).map BitVec.toNat =
          some (mb.toNat + k)) ∧
      PageTree mem cr3 (bootTables cr3.toNat) := by
  obtain ⟨⟨l, s⟩, ends, -, -, last⟩ := paging_setup entry
  obtain ⟨rfl, done⟩ := last kernel small
  obtain ⟨n, at_⟩ := entry.whole
  have lt := mb.isLt
  rw [Nat.mul_comm] at at_
  have fits : (n + 4) * 4096 ≤ 2 ^ 21 := by
    rw [Nat.add_mul, ← at_]
    exact (inside.trans kernel)
  have frames : n + 4 ≤ 2 ^ 20 := by
    refine Nat.le_of_mul_le_mul_right (c := 4096) (fits.trans ?_) (by decide)
    decide
  have tables := done.tables at_ frames
  have rax : ((s.regs .rax).setWidth 64) = BitVec.ofNat 64 (n * 4096) := by
    apply BitVec.eq_of_toNat_eq
    rw [done.rax, BitVec.toNat_setWidth, at_, BitVec.toNat_ofNat]
  have cr3 : hwFrame ((s.regs .rax).setWidth 64) = BitVec.ofNat 40 n := by
    apply BitVec.eq_of_toNat_eq
    rw [rax, hwFrame, BitVec.extractLsb'_toNat, Nat.shiftRight_eq_div_pow, BitVec.toNat_ofNat,
      BitVec.toNat_ofNat]
    omega
  obtain ⟨mem, cleaned, upper⟩ := tables.pagingClean fits
  have number : (BitVec.ofNat 40 n).toNat = n := by
    rw [BitVec.toNat_ofNat, Nat.mod_eq_of_lt (by omega)]
  refine ⟨s, mem, _, ends, cr3, fun v => tables.translate_low, ?_, fun v => upper.translate_upper,
    fun k within => ?_, ?_⟩
  · rw [rax]
    exact cleaned
  · have offset : Bytes.read s.mem im.pagingMbDataOffset.toNat 4 = mb.toNat % 4096 :=
      read_eq_of_encode done.offset (by omega)
    have base : bootKernelAddr.toNat = 0xffffffff80000000 := rfl
    have start : (0xffffffff80200000 : BitVec 64).toNat = 0xffffffff80200000 := rfl
    have place : (bootMbInfoVaddr s.mem im.pagingMbDataOffset + BitVec.ofNat 64 k).toNat =
        0xffffffff80200000 + mb.toNat % 4096 + k := by
      have first : (bootMbInfoVaddr s.mem im.pagingMbDataOffset).toNat =
          0xffffffff80200000 + mb.toNat % 4096 := by
        rw [bootMbInfoVaddr, offset, toNat_add_ofNat (by rw [start]; omega), start]
      rw [toNat_add_ofNat (by rw [first]; omega), first]
    rw [upper.translate_kernel (by rw [place]; omega), kernelMap, base, place, if_neg (by omega),
      if_pos (by omega), Option.some.injEq]
    omega
  · rw [number]
    exact upper.tree

end

/-! ### A small kernel -/

/-- The kernel's variables behind the first MiB, and the information behind the kernel. -/
def smallImage : PagingImage := ⟨0x110000, 0x108000, 0x106000, 0x106004, 0x106010, 0x106040⟩

def smallStart : Machine 32 where
  regs := Function.update (fun _ => 0) .rsp 0x107000
  mem := store (store (fun _ => 0) 0x107000 (words [(0x100123 : BitVec 32), 0x120010])) 0x120010
    (words [(0x100 : BitVec 32)])
  zf := false
  cf := false

theorem smallStart_entry : PagingEntry smallImage smallStart 0x100123 0x120010 0x100 where
  stack := holds_store.store (.inl (by decide))
  info := holds_store
  room := by decide
  whole := by decide
  fits := by decide
  zero := by
    intro k lt
    have place : smallImage.pagingTempTables.toNat = 0x108000 := rfl
    have length : (words [(0x100123 : BitVec 32), 0x120010]).length = 8 := rfl
    have length' : (words [(0x100 : BitVec 32)]).length = 4 := rfl
    have first : smallStart.mem = store (store (fun _ => 0) 0x107000
      (words [(0x100123 : BitVec 32), 0x120010])) 0x120010 (words [(0x100 : BitVec 32)]) := rfl
    rw [first, store_outside (by rw [place, length']; omega),
      store_outside (by rw [place, length]; omega)]
  apart := by
    simp [Apart, smallImage, smallStart, Machine.rsp]

theorem boot_maps_small : ∃ s mem cr3, smallImage.code.Ends .setup smallStart (.tables, s) ∧
    pagingClean (physMem s.mem) cr3 (bootKernelAddr + (s.regs .rax).setWidth 64) = some mem ∧
    (hwTranslate mem cr3 0xffffffff80100000).map BitVec.toNat = some 0x100000 ∧
    (hwTranslate mem cr3 0x100000).map BitVec.toNat = none := by
  obtain ⟨s, mem, cr3, ends, -, -, cleaned, upper, -⟩ :=
    boot_maps smallStart_entry (by decide) (by decide) (by decide)
  refine ⟨s, mem, cr3, ends, cleaned, ?_, ?_⟩
  · rw [upper _ (by simp [InWindow]), kernelMap]
    simp [bootKernelAddr]
  · rw [upper _ (by simp [InWindow]), kernelMap]
    simp [bootKernelAddr]

end Sdx.Boot
