import Mathlib.Logic.Function.Basic
import Sdx.Base

/-! # Physical memory manager (`mm/pmm.c`)

Two allocators share one region. While the bitmap does not exist, `pmmAlloc`
bumps the cursor `pmm_reg_free.pos`; afterwards it scans the bitmap. `pmmInit`
is cut at the call of `vmm_map` that allocates the bitmap, since that call runs
the bump allocator an arbitrary number of times.
-/

namespace Sdx.Mm

/-- `multiboot_memory_map_t`, 24 bytes a record. -/
structure MultibootMmapEntry where
  addr : Nat
  len : Nat
  type : Nat

/-- What the boot loader and the linker leave in memory for the PMM. -/
structure BootInfo where
  /-- `BOOT_KERNEL_START_PADDR` and `BOOT_KERNEL_END_PADDR`. -/
  kernelStart : Nat
  kernelEnd : Nat
  /-- `BOOT_MB_INFO_START_PADDR` and `BOOT_MB_INFO_END_PADDR`. -/
  mbInfoStart : Nat
  mbInfoEnd : Nat
  /-- `pmm_mmap_tag->size`, and the records at `pmm_mmap_tag->entries` as far as memory goes. -/
  mmapTagSize : Nat
  mmapEntry : Nat → MultibootMmapEntry
  /-- The linker script places `_end` behind `_start`, in the top 2 GiB. -/
  kernelEnd_pos : 0 < kernelEnd
  kernelEnd_le : kernelEnd ≤ 2 ^ 31

/-- `struct pmm_reg`; `stop` is its `end` field. -/
structure PmmReg where
  start : Nat
  stop : Nat
  pos : Nat
  deriving DecidableEq

/-- `pmm_bm_pos_t`. -/
structure PmmBmPos where
  bit : Nat
  index : Nat
  deriving DecidableEq

/-- The globals of `pmm.c`. `bm` is only meaningful once `bmMapped`, that is `pmm_bm != NULL`;
    `failed` counts the messages `pmm_fail` has printed. -/
structure Pmm where
  regFree : PmmReg
  bm : Nat → BitVec 64
  bmMapped : Bool
  bmSize : Nat
  failed : Nat

/-- `pmm_reg_known`. -/
def pmmRegKnown : List PmmReg := [⟨0xA0000, 0xBFFFF, 0⟩]

def PmmReg.size (r : PmmReg) : Nat := sub64 r.stop r.start

def PmmReg.contains (r : PmmReg) (addr : Nat) : Bool := r.stop > addr && addr ≥ r.start

def PmmReg.isValid (r : PmmReg) : Bool := r.stop > r.start && r.stop ≥ r.pos && r.pos ≥ r.start

def PmmReg.align (r : PmmReg) : PmmReg :=
  { r with start := roundUp r.start pageSize, stop := roundDown r.stop pageSize }

def PmmReg.posReset (r : PmmReg) : PmmReg := { r with pos := r.start }

/-- `MULTIBOOT_MEMORY_AVAILABLE`. -/
def multibootMemoryAvailable : Nat := 1

/-- The records `__pmm_foreach_mb_mmap_entry` visits: it goes on while the tag's size is
    above the offset of the record from `entries`. -/
def pmmForeachMbMmapEntry (boot : BootInfo) : List MultibootMmapEntry :=
  (List.range ((boot.mmapTagSize + 23) / 24)).map boot.mmapEntry

def pmmIsFreeMemory (boot : BootInfo) (addr : Nat) : Bool :=
  if pmmRegKnown.any (·.contains addr) then false
  else if boot.kernelStart ≤ addr && boot.kernelEnd > addr then false
  else if boot.mbInfoStart ≤ addr && boot.mbInfoEnd > addr then false
  else (pmmForeachMbMmapEntry boot).any fun map =>
    map.type == multibootMemoryAvailable &&
      !(addr < map.addr || wrap64 (addr + pageSize) > wrap64 (map.addr + map.len))

/-! ## Bitmap positions -/

/-- `PMM_BM_ENTRY_BIT_SIZE`. -/
def pmmBmEntryBitSize : Nat := 64

namespace Pmm

def bmIsReady (p : Pmm) : Bool := p.bmMapped && p.bmSize != 0

def bmGetMaxIndex (p : Pmm) : Nat := p.bmSize / 8

def bmPosToAddr (p : Pmm) (pos : PmmBmPos) : Nat :=
  wrap64 (p.regFree.start + (pos.bit + pos.index * pmmBmEntryBitSize) * pageSize)

def bmPosSet (p : Pmm) (pos : PmmBmPos) : Pmm :=
  { p with bm := Function.update p.bm pos.index (p.bm pos.index ||| 1#64 <<< pos.bit) }

def bmPosClear (p : Pmm) (pos : PmmBmPos) : Pmm :=
  { p with bm := Function.update p.bm pos.index (p.bm pos.index &&& ~~~(1#64 <<< pos.bit)) }

def bmPosGet (p : Pmm) (pos : PmmBmPos) : Int :=
  ((p.bm pos.index >>> pos.bit) &&& 1#64).toNat

def bmPosIsValid (p : Pmm) (pos : PmmBmPos) : Bool := p.bmGetMaxIndex > pos.index

/-- `__pmm_bm_pos_from_addr`; the position is only written when the bitmap is ready. -/
def bmPosFromAddr (p : Pmm) (addr : Nat) : Option PmmBmPos :=
  if !p.bmIsReady then none
  else
    let page := sub64 addr p.regFree.start / pageSize
    let pos : PmmBmPos := ⟨page % pmmBmEntryBitSize, page / pmmBmEntryBitSize⟩
    if p.bmPosIsValid pos then some pos else none

/-- `__pmm_bm_pos_next`: the moved position and the value stored there, or an error. -/
def bmPosNext (p : Pmm) (pos : PmmBmPos) : PmmBmPos × Int :=
  if !p.bmIsReady then (pos, -eFAULT)
  else
    let pos : PmmBmPos :=
      if pos.bit + 1 ≥ pmmBmEntryBitSize then ⟨0, pos.index + 1⟩ else ⟨pos.bit + 1, pos.index⟩
    if pos.index ≥ p.bmGetMaxIndex then (pos, -eRANGE) else (pos, p.bmPosGet pos)

/-- `pmm_fail`. -/
def fail (p : Pmm) : Pmm := { p with failed := p.failed + 1 }

end Pmm

/-! ## Initialization -/

/-- The loop of `pmm_init` over the memory map: an available record widens the region. -/
def PmmReg.grow (reg : PmmReg) (map : MultibootMmapEntry) : PmmReg :=
  if map.type != multibootMemoryAvailable then reg
  else
    { reg with
      start := if map.addr < reg.start then map.addr else reg.start
      stop := if wrap64 (map.addr + map.len) > reg.stop then wrap64 (map.addr + map.len)
        else reg.stop }

/-- The region `pmm_init` manages, before it is aligned. -/
def pmmInitReg (boot : BootInfo) : PmmReg :=
  let reg := (pmmForeachMbMmapEntry boot).foldl PmmReg.grow ⟨0, 0, 0⟩
  { reg with start := if boot.kernelEnd > reg.start then boot.kernelEnd else reg.start }

/-- `pmm_init` up to the call of `vmm_map`. There the bitmap has a size but no address yet. -/
def pmmInitRegion (boot : BootInfo) : Except Int Pmm :=
  let reg := (pmmInitReg boot).align.posReset
  if !reg.isValid then .error (-eNOMEM)
  else .ok ⟨reg, fun _ => 0, false, roundUp (reg.size / pageSize / 8) pageSize, 0⟩

/-- The marking loop at the end of `pmm_init`, `fuel` bounding its iterations. -/
def pmmInitMarkLoop (p : Pmm) : Nat → PmmBmPos → Pmm
  | 0, _ => p
  | fuel + 1, pos =>
      if p.regFree.pos > p.bmPosToAddr pos then
        pmmInitMarkLoop (p.bmPosSet pos) fuel (p.bmPosNext pos).1
      else p

/-- `pmm_init` behind the call of `vmm_map`: the bitmap is cleared and the pages below the
    cursor are marked. The region is valid here, so the loop ends within as many steps. -/
def pmmInitMark (p : Pmm) : Pmm :=
  pmmInitMarkLoop { p with bm := fun _ => 0, bmMapped := true }
    ((p.regFree.pos - p.regFree.start) / pageSize + 1) ⟨0, 0⟩

/-! ## Allocation -/

/-- `x % (align ? align : 1) != 0`. -/
def pmmMisaligned (x align : Nat) : Bool := x % (if align != 0 then align else 1) != 0

/-- The scan of `__pmm_alloc_no_bm`; the result is `pos`, `start` and `cur` behind the loop. -/
def pmmAllocNoBmLoop (boot : BootInfo) (stop num align : Nat) :
    Nat → Nat → Nat → Nat → Nat × Nat × Nat
  | 0, pos, start, cur => (pos, start, cur)
  | fuel + 1, pos, start, cur =>
      if num > cur then
        if pos ≥ stop then (pos, start, cur)
        else
          let next := wrap64 (pos + pageSize)
          let start := if cur = 0 then pos else start
          if cur = 0 ∧ pmmMisaligned start align then
            pmmAllocNoBmLoop boot stop num align fuel next start cur
          else if !pmmIsFreeMemory boot pos then
            pmmAllocNoBmLoop boot stop num align fuel next start 0
          else pmmAllocNoBmLoop boot stop num align fuel next start (cur + 1)
      else (pos, start, cur)

/-- The region is page aligned and `pos` moves by pages, so the loop breaks within this many steps. -/
def pmmAllocNoBm (boot : BootInfo) (p : Pmm) (num align : Nat) : Nat × Pmm :=
  let fuel := (p.regFree.stop - p.regFree.pos) / pageSize + 1
  let (pos, start, cur) := pmmAllocNoBmLoop boot p.regFree.stop num align fuel p.regFree.pos 0 0
  if cur != num then (0, p.fail)
  else (start, { p with regFree := { p.regFree with pos := pos } })

/-- The scan of `pmm_alloc`; the result is `start` and `cur` behind the loop. -/
def pmmAllocLoop (boot : BootInfo) (p : Pmm) (num align : Nat) :
    Nat → PmmBmPos → Int → Nat → Nat → Nat × Nat
  | 0, _, _, start, cur => (start, cur)
  | fuel + 1, pos, val, start, cur =>
      if num > cur then
        if val < 0 then (start, cur)
        else
          let next := p.bmPosNext pos
          let start := if cur = 0 then p.bmPosToAddr pos else start
          if cur = 0 ∧ pmmMisaligned start align then
            pmmAllocLoop boot p num align fuel next.1 next.2 start cur
          else if val ≠ 0 ∨ !pmmIsFreeMemory boot (p.bmPosToAddr pos) then
            pmmAllocLoop boot p num align fuel next.1 next.2 start 0
          else pmmAllocLoop boot p num align fuel next.1 next.2 start (cur + 1)
      else (start, cur)

/-- The loop of `pmm_alloc` that sets `num` positions as not available. -/
def pmmBmSetRange (p : Pmm) (pos : PmmBmPos) : Nat → Pmm
  | 0 => p
  | num + 1 => pmmBmSetRange (p.bmPosSet pos) (p.bmPosNext pos).1 num

/-- `align != 0 && ((PAGE_SIZE > align && PAGE_SIZE % align != 0) || ...)`. -/
def pmmAlignInvalid (align : Nat) : Bool :=
  align != 0 && ((pageSize > align && pageSize % align != 0) ||
    (align > pageSize && align % pageSize != 0))

def pmmAlloc (boot : BootInfo) (p : Pmm) (num align : Nat) : Nat × Pmm :=
  if pmmAlignInvalid align then (0, p.fail)
  else if !p.bmIsReady then pmmAllocNoBm boot p num align
  else
    let pos : PmmBmPos := ⟨0, 0⟩
    -- the scan breaks at the end of the bitmap, after one step for every position
    let fuel := p.bmGetMaxIndex * pmmBmEntryBitSize + 1
    let (start, cur) := pmmAllocLoop boot p num align fuel pos (p.bmPosGet pos) 0 0
    if cur != num then (0, p.fail)
    else
      match p.bmPosFromAddr start with
      | some pos => (start, pmmBmSetRange p pos num)
      | none => (start, p)

def pmmIsAllocated (p : Pmm) (paddr : Nat) : Bool :=
  match p.bmPosFromAddr paddr with
  | none => false
  | some pos => p.bmPosGet pos != 0

/-! ## Release -/

/-- The loop of `pmm_free`; pages in front of the one that fails stay cleared. -/
def pmmFreeLoop (p : Pmm) (pos : PmmBmPos) (val : Int) : Nat → Int × Pmm
  | 0 => (0, p)
  | num + 1 =>
      if val < 0 then (-eRANGE, p)
      else if val = 0 then (-eFAULT, p)
      else
        let p := p.bmPosClear pos
        let next := p.bmPosNext pos
        pmmFreeLoop p next.1 next.2 num

def pmmFree (p : Pmm) (paddr num : Nat) : Int × Pmm :=
  match p.bmPosFromAddr paddr with
  | none => (-eFAULT, p)
  | some pos => pmmFreeLoop p pos (p.bmPosGet pos) num

end Sdx.Mm
