import Sdx.Mm.PmmFree
import Sdx.Mm.PmmLedger

/-! # What `pmm_init` makes of the memory map

The loop over the memory map measures the tag from its records on, while the size of the tag
counts its header too: it visits one record behind the last. The bitmap has a whole number of
bytes for the pages of the region, before that is rounded up to pages.
-/

namespace Sdx.Mm

open Pmm

/-! ## The records of the map -/

/-- `pmm_reg_free` as `pmm_init` sets it up. -/
def pmmRegFree (boot : BootInfo) : PmmReg := (pmmInitReg boot).align.posReset

/-- The address may not be used whatever the memory map says. -/
def pmmIsReserved (boot : BootInfo) (addr : Nat) : Bool :=
  pmmRegKnown.any (·.contains addr) || (boot.kernelStart ≤ addr && boot.kernelEnd > addr) ||
    (boot.mbInfoStart ≤ addr && boot.mbInfoEnd > addr)

namespace MultibootMmapEntry

/-- The record makes the page at this address free memory. -/
def frees (map : MultibootMmapEntry) (addr : Nat) : Bool :=
  map.type == multibootMemoryAvailable &&
    !(addr < map.addr || wrap64 (addr + pageSize) > wrap64 (map.addr + map.len))

/-- Where the record ends, if it is one of available memory. -/
def reach (map : MultibootMmapEntry) : Nat :=
  if map.type = multibootMemoryAvailable then wrap64 (map.addr + map.len) else 0

end MultibootMmapEntry

namespace BootInfo

/-- The first `n` records of the map. -/
def records (boot : BootInfo) (n : Nat) : List MultibootMmapEntry :=
  (List.range n).map boot.mmapEntry

/-- Where the first `n` records end. -/
def reach (boot : BootInfo) (n : Nat) : Nat :=
  (boot.records n).foldl (fun stop map => max stop map.reach) 0

/-- The region that the first `n` records and the kernel leave. -/
def regionOf (boot : BootInfo) (n : Nat) : PmmReg :=
  (PmmReg.mk boot.kernelEnd (boot.reach n) 0).align.posReset

/-- Free memory by the first `n` records. -/
def isFreeBy (boot : BootInfo) (n addr : Nat) : Bool :=
  !pmmIsReserved boot addr && (boot.records n).any (·.frees addr)

/-- The region and the free pages are those that the `n` records of the map make; what is behind
    them does not show. -/
structure ReadsExactly (boot : BootInfo) (n : Nat) : Prop where
  region : pmmRegFree boot = boot.regionOf n
  free : ∀ addr < 2 ^ 64, pageSize ∣ addr → pmmIsFreeMemory boot addr = boot.isFreeBy n addr

/-- The bytes behind the map, read as a record, do not end on a later page than the map, and make no
    page free that the map does not. -/
structure TailHarmless (boot : BootInfo) (n : Nat) : Prop where
  reach : (boot.mmapEntry n).reach / pageSize ≤ boot.reach n / pageSize
  frees : ∀ addr < 2 ^ 64, pageSize ∣ addr → pmmIsReserved boot addr = false →
    (boot.mmapEntry n).frees addr = true → ∃ map ∈ boot.records n, map.frees addr = true

end BootInfo

section

variable {boot : BootInfo} {n addr : Nat}

theorem PmmReg.grow_eq {reg : PmmReg} (zero : reg.start = 0) (map : MultibootMmapEntry) :
    reg.grow map = { reg with stop := max reg.stop map.reach } := by
  unfold PmmReg.grow MultibootMmapEntry.reach
  by_cases available : map.type = multibootMemoryAvailable
  · simp only [available, bne_self_eq_false, Bool.false_eq_true, if_false, if_true, zero,
      Nat.not_lt_zero]
    congr 1
    split <;> omega
  · simp [available]

/-- No record moves the start, which is 0 from the beginning. -/
theorem foldl_grow (stop : Nat) (maps : List MultibootMmapEntry) :
    maps.foldl PmmReg.grow ⟨0, stop, 0⟩ =
      ⟨0, maps.foldl (fun stop map => max stop map.reach) stop, 0⟩ := by
  induction maps generalizing stop with
  | nil => rfl
  | cons map maps ih =>
      rw [List.foldl_cons, List.foldl_cons, PmmReg.grow_eq rfl]
      exact ih _

/-- A map of `n` records is read as one of `n + 1`. -/
theorem pmmForeachMbMmapEntry_eq (tag : boot.mmapTagSize = 16 + 24 * n) :
    pmmForeachMbMmapEntry boot = boot.records (n + 1) := by
  rw [pmmForeachMbMmapEntry, BootInfo.records, tag]
  congr 2
  omega

theorem records_succ (boot : BootInfo) (n : Nat) :
    boot.records (n + 1) = boot.records n ++ [boot.mmapEntry n] := by
  simp [BootInfo.records, List.range_succ]

theorem pmmRegFree_eq (tag : boot.mmapTagSize = 16 + 24 * n) :
    pmmRegFree boot = boot.regionOf (n + 1) := by
  have behind := boot.kernelEnd_pos
  rw [pmmRegFree, pmmInitReg, pmmForeachMbMmapEntry_eq tag, foldl_grow]
  simp only [behind, if_true]
  rfl

theorem pmmIsFreeMemory_eq (tag : boot.mmapTagSize = 16 + 24 * n) (addr : Nat) :
    pmmIsFreeMemory boot addr = boot.isFreeBy (n + 1) addr := by
  unfold pmmIsFreeMemory BootInfo.isFreeBy pmmIsReserved
  rw [pmmForeachMbMmapEntry_eq tag]
  split
  · next known => simp [known]
  · next known =>
      split
      · next kernel => simp only [kernel, Bool.or_true, Bool.true_or, Bool.not_true, Bool.false_and]
      · next kernel =>
          split
          · next info => simp only [info, Bool.or_true, Bool.not_true, Bool.false_and]
          · next info =>
              rw [Bool.not_eq_true] at known kernel info
              simp only [known, kernel, info, Bool.or_false, Bool.not_false, Bool.true_and]
              rfl

theorem reach_succ (boot : BootInfo) (n : Nat) :
    boot.reach (n + 1) = max (boot.reach n) (boot.mmapEntry n).reach := by
  simp [BootInfo.reach, records_succ]

theorem isFreeBy_succ (boot : BootInfo) (n addr : Nat) : boot.isFreeBy (n + 1) addr =
    (boot.isFreeBy n addr || !pmmIsReserved boot addr && (boot.mmapEntry n).frees addr) := by
  simp [BootInfo.isFreeBy, records_succ, Bool.and_or_distrib_left]

/-- The records behind a region count by the page they end on. -/
theorem regionOf_eq_iff {m : Nat} :
    boot.regionOf m = boot.regionOf n ↔ boot.reach m / pageSize = boot.reach n / pageSize := by
  simp [BootInfo.regionOf, PmmReg.align, PmmReg.posReset, roundDown, pageSize]

/-- The memory map is read exactly, if and only if the record behind it adds nothing. -/
theorem readsExactly_iff (tag : boot.mmapTagSize = 16 + 24 * n) :
    boot.ReadsExactly n ↔ boot.TailHarmless n := by
  have later : max (boot.reach n) (boot.mmapEntry n).reach / pageSize = boot.reach n / pageSize ↔
      (boot.mmapEntry n).reach / pageSize ≤ boot.reach n / pageSize := by
    simp only [pageSize]
    omega
  constructor
  · rintro ⟨region, free⟩
    rw [pmmRegFree_eq tag, regionOf_eq_iff, reach_succ, later] at region
    refine ⟨region, fun addr fits aligned usable frees => ?_⟩
    have same := free addr fits aligned
    rw [pmmIsFreeMemory_eq tag, isFreeBy_succ, usable, frees, BootInfo.isFreeBy, usable] at same
    simpa using same.symm
  · rintro ⟨reach, frees⟩
    refine ⟨?_, fun addr fits aligned => ?_⟩
    · rw [pmmRegFree_eq tag, regionOf_eq_iff, reach_succ, later]
      exact reach
    · rw [pmmIsFreeMemory_eq tag, isFreeBy_succ]
      cases reserved : pmmIsReserved boot addr
      · cases here : (boot.mmapEntry n).frees addr
        · simp
        · obtain ⟨map, mem, free⟩ := frees addr fits aligned reserved here
          have some : (boot.records n).any (·.frees addr) = true := List.any_eq_true.mpr ⟨map, mem, free⟩
          simp [BootInfo.isFreeBy, reserved, some]
      · simp

/-- Two machines with the same map that is read exactly have the same memory, whatever is behind the
    map. -/
theorem BootInfo.ReadsExactly.agree {boot' : BootInfo} (reads : boot.ReadsExactly n)
    (reads' : boot'.ReadsExactly n) (map : boot'.records n = boot.records n)
    (kernel : boot'.kernelEnd = boot.kernelEnd)
    (reserved : pmmIsReserved boot' = pmmIsReserved boot) :
    pmmRegFree boot' = pmmRegFree boot ∧ ∀ addr < 2 ^ 64, pageSize ∣ addr →
      pmmIsFreeMemory boot' addr = pmmIsFreeMemory boot addr := by
  refine ⟨?_, fun addr fits aligned => ?_⟩
  · rw [reads.region, reads'.region]
    simp only [BootInfo.regionOf, BootInfo.reach, map, kernel]
  · rw [reads.free addr fits aligned, reads'.free addr fits aligned]
    simp only [BootInfo.isFreeBy, map, reserved]

end

/-- The small machine with a tag of one record, and the bytes behind it. -/
def tailMachine (tail : MultibootMmapEntry) : BootInfo :=
  { smallMachine with
    mmapTagSize := 40
    mmapEntry := fun i => if i = 0 then ⟨0, 0x210000, multibootMemoryAvailable⟩ else tail }

theorem readsExactly_iff_tail : (tailMachine ⟨8, 0, 0⟩).ReadsExactly 1 ↔
    (tailMachine ⟨8, 0, 0⟩).TailHarmless 1 := readsExactly_iff rfl

/-- What is behind the map becomes memory. -/
theorem mmap_not_readsExactly : ¬ (tailMachine ⟨0x210000, 0x1000000, 1⟩).ReadsExactly 1 ∧
    pmmRegFree (tailMachine ⟨0x210000, 0x1000000, 1⟩) ≠ pmmRegFree (tailMachine ⟨8, 0, 0⟩) ∧
    pmmIsFreeMemory (tailMachine ⟨0x210000, 0x1000000, 1⟩) 0x300000 = true ∧
    pmmIsFreeMemory (tailMachine ⟨8, 0, 0⟩) 0x300000 = false := by
  refine ⟨fun reads => absurd reads.region ?_, ?_, ?_, ?_⟩ <;> decide

/-! ## The bitmap -/

section

variable {p : Pmm} {addr : Nat}

/-- The bitmap that `pmm_init` has `vmm_map` allocate for the region. -/
def pmmBmSize (reg : PmmReg) : Nat := roundUp (reg.size / pageSize / 8) pageSize

/-- Every page of the region has a position in the bitmap, and the position its address. -/
def Pmm.CoversRegion (p : Pmm) : Prop :=
  ∀ addr, pageSize ∣ addr → p.regFree.start ≤ addr → addr < p.regFree.stop →
    ∃ pos, p.bmPosFromAddr addr = some pos ∧ pos.index < p.bmGetMaxIndex ∧ p.bmPosToAddr pos = addr

theorem pmmInitMarkLoop_keeps (fuel : Nat) (pos : PmmBmPos) :
    ∃ bm, pmmInitMarkLoop p fuel pos = { p with bm := bm } := by
  induction fuel generalizing p pos with
  | zero => exact ⟨p.bm, rfl⟩
  | succ fuel ih =>
      rw [pmmInitMarkLoop]
      split
      · exact @ih (p.bmPosSet pos) (p.bmPosNext pos).1
      · exact ⟨p.bm, rfl⟩

theorem pmmInitMark_keeps (p : Pmm) :
    ∃ bm, pmmInitMark p = { p with bm := bm, bmMapped := true } := pmmInitMarkLoop_keeps _ _

/-- The pages of a region have positions if there are as many positions as pages. -/
theorem coversRegion_iff (ready : p.bmIsReady) (start : pageSize ∣ p.regFree.start)
    (stop : pageSize ∣ p.regFree.stop) (lt : p.regFree.start < p.regFree.stop)
    (fits : p.regFree.stop < 2 ^ 64) :
    p.CoversRegion ↔ (p.regFree.stop - p.regFree.start) / pageSize ≤ p.covered := by
  simp only [pageSize] at start stop
  have page (k : Nat) (inside : k < (p.regFree.stop - p.regFree.start) / pageSize) :
      p.pageOf (p.regFree.start + k * pageSize) = k := by
    simp only [pageSize] at inside
    simp only [pageOf, sub64, wrap64, pageSize]
    omega
  have index (k : Nat) : (PmmBmPos.ofFlat k).index < p.bmGetMaxIndex ↔ k < p.covered := by
    simp only [PmmBmPos.ofFlat, covered, pmmBmEntryBitSize]
    omega
  constructor
  · intro covers
    by_contra short
    have inside : p.covered < (p.regFree.stop - p.regFree.start) / pageSize := by omega
    have below := inside
    simp only [pageSize] at below
    obtain ⟨pos, found, -⟩ := covers (p.regFree.start + p.covered * pageSize)
      (Nat.dvd_add start (Nat.dvd_mul_left _ _)) (Nat.le_add_right _ _)
      (by simp only [pageSize]; omega)
    have within := (bmPosFromAddr_some found).2.2
    rw [page _ inside] at within
    omega
  · intro enough addr aligned low high
    have offset : pageSize ∣ addr - p.regFree.start := Nat.dvd_sub aligned start
    obtain ⟨k, away⟩ := offset
    simp only [pageSize] at away enough
    obtain rfl : addr = p.regFree.start + k * pageSize := by
      simp only [pageSize]
      omega
    have inside : k < (p.regFree.stop - p.regFree.start) / pageSize := by
      simp only [pageSize]
      omega
    have within : k < p.covered := by
      simp only [pageSize] at inside
      omega
    refine ⟨.ofFlat k, ?_, (index k).mpr within, ?_⟩
    · rw [bmPosFromAddr_eq ready, page k inside, if_pos within]
    · rw [bmPosToAddr_ofFlat]
      exact pageAt_of_lt (by omega)

/-- The bitmap has a position for every page of the region, if and only if the number of pages is a
    multiple of 8 or has other bytes than whole pages of the bitmap. -/
theorem pmmInit_covers_iff (start : pageSize ∣ p.regFree.start) (stop : pageSize ∣ p.regFree.stop)
    (lt : p.regFree.start < p.regFree.stop) (fits : p.regFree.stop < 2 ^ 63)
    (large : 8 * pageSize ≤ p.regFree.stop - p.regFree.start)
    (size : p.bmSize = pmmBmSize p.regFree) :
    (pmmInitMark p).CoversRegion ↔
      8 ∣ (p.regFree.stop - p.regFree.start) / pageSize ∨
        ¬ pageSize ∣ (p.regFree.stop - p.regFree.start) / pageSize / 8 := by
  obtain ⟨bm, mark⟩ := pmmInitMark_keeps p
  have bytes : p.regFree.size = p.regFree.stop - p.regFree.start :=
    sub64_of_le (Nat.le_of_lt lt) (by omega)
  rw [pmmBmSize, bytes] at size
  simp only [pageSize] at large
  generalize pages : (p.regFree.stop - p.regFree.start) / pageSize = n at size ⊢
  have some : 8 ≤ n ∧ n < 2 ^ 51 := by
    simp only [pageSize] at pages
    omega
  have rounded : p.bmSize = (n / 8 + 4095) / 4096 * 4096 := by
    rw [size, roundUp, if_neg (by decide), pageSize, wrap64_of_lt (by omega)]
    omega
  have ready : (pmmInitMark p).bmIsReady := by
    have bytes : p.bmSize ≠ 0 := by omega
    simp [mark, bmIsReady, bytes]
  have covers := @coversRegion_iff (pmmInitMark p) ready
  rw [mark] at covers ⊢
  rw [covers start stop lt (Nat.lt_trans fits (by decide)), pages]
  simp only [covered, bmGetMaxIndex, pmmBmEntryBitSize, rounded, pageSize]
  omega

/-- A region of a page more than a page of the bitmap has positions for. -/
def wideRegion : Pmm :=
  ⟨⟨0x200000, 0x200000 + 32769 * 4096, 0x200000⟩, fun _ => 0, false, 4096, 0⟩

theorem pmmInit_covers_iff_wide : (pmmInitMark wideRegion).CoversRegion ↔
    8 ∣ (wideRegion.regFree.stop - wideRegion.regFree.start) / pageSize ∨
      ¬ pageSize ∣ (wideRegion.regFree.stop - wideRegion.regFree.start) / pageSize / 8 :=
  pmmInit_covers_iff (by decide) (by decide) (by decide) (by decide) (by decide) (by decide)

/-- The last page of that region has no position. -/
theorem pmmInit_not_covers :
    wideRegion.bmSize = pmmBmSize wideRegion.regFree ∧
      0x200000 + 32768 * 4096 < wideRegion.regFree.stop ∧
      (pmmInitMark wideRegion).bmPosFromAddr (0x200000 + 32768 * 4096) = none := by
  decide

end

end Sdx.Mm
