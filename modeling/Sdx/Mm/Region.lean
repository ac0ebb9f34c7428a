import Sdx.Lib.Bytes
import Sdx.Lib.Scan
import Sdx.Mm.Vmm

/-! # Memory regions (`mm/region.c`)

A region is a range of pages of a task with the frames behind it. The page tables are here what
they map: `Space` gives the frame of each page number, the bytes of the frames, and what the PMM
has handed out and got back. The calls of the VMM that a region needs keep their loops and checks.
-/

namespace Sdx.Mm

open Sdx.Lib

def vmmAttrReuse : BitVec 32 := 1 <<< 5

/-- The first and the last address of the VMAs; `_start` is at the beginning of the kernel. -/
def vmmVmaUserEnd : Nat := 0x00007fffffffffff
def vmmVmaKernelEnd : Nat := 0xffffffff80000000

/-- `vmm_vma_does_contain`. -/
def vmmVmaDoesContain (addr : Nat) : Bool :=
  (vmmVmaKernelEnd > addr && addr ≥ vmmVmaKernelStart.toNat) ||
    (vmmVmaUserEnd > addr && addr ≥ vmmVmaUserStart.toNat)

/-- `vmm_calc` and `vmm_align`. -/
def vmmCalc (size : Nat) : Nat := divCeil size pageSize
def vmmAlign (size : Nat) : Nat := roundUp size pageSize

/-- An address space: the frame behind a page, the bytes of memory by physical address, the frames
    that are taken, how often a frame was given back, and the number of region objects. -/
structure Space where
  page : Nat → Option Nat
  data : Bytes.Memory
  used : Nat → Bool
  freed : Nat → Nat
  regions : Nat

/-- What memory there is: `pmm_alloc` gives free frames in a row or fails, and `heap_alloc` gives
    memory for another region object or fails. -/
structure SpaceEnv where
  pmmAlloc : (Nat → Bool) → Nat → Option Nat
  pmmAlloc_free : ∀ used num frame, pmmAlloc used num = some frame →
    0 < frame ∧ ∀ k, k < num → used (frame + k) = false
  heapAlloc : Nat → Bool

namespace Space

/-- `pmm_alloc`. -/
def pmmAlloc (env : SpaceEnv) (s : Space) (num : Nat) : Option Nat × Space :=
  match env.pmmAlloc s.used num with
  | none => (none, s)
  | some frame =>
      (some frame, { s with used := fun f => s.used f || (frame ≤ f && f < frame + num) })

/-- `pmm_free`. -/
def pmmFree (s : Space) (frame num : Nat) : Space :=
  { s with
    used := fun f => s.used f && !(frame ≤ f && f < frame + num)
    freed := fun f => s.freed f + if frame ≤ f ∧ f < frame + num then 1 else 0 }

/-! ## The VMM by pages -/

/-- `vmm_resolve`. -/
def resolve (s : Space) (vaddr : Nat) : Nat :=
  match s.page (vaddr / pageSize) with
  | none => 0
  | some frame => frame * pageSize + vaddr % pageSize

/-- The loop of `__vmm_map_to_paddr_internal`. -/
def mapToPaddrInternal (s : Space) (frame page : Nat) : Nat → Space
  | 0 => s
  | num + 1 => mapToPaddrInternal { s with page := Function.update s.page page (some frame) }
      (frame + 1) (page + 1) num

/-- `__vmm_map_to_vaddr_internal`: the address, or 0 for `NULL`. -/
def mapToVaddrInternal (env : SpaceEnv) (s : Space) (vaddr num : Nat) : Nat × Space :=
  match s.pmmAlloc env num with
  | (none, s) => (0, s)
  | (some frame, s) => (vaddr, s.mapToPaddrInternal frame (vaddr / pageSize) num)

/-- The loop of `__vmm_find_contiguous` over page numbers. It goes on until it has found enough
    pages; without them it never ends. -/
def findContiguousLoop (s : Space) (num : Nat) : Nat → Nat → Nat → Nat → Option Nat
  | 0, _, _, _ => none
  | fuel + 1, pos, start, cur =>
      if num > cur then
        let start := if cur = 0 then pos else start
        s.findContiguousLoop num fuel ((pos + 1) % 2 ^ 52) start
          (if (s.page pos).isSome then 0 else cur + 1)
      else some start

/-- `__vmm_find_contiguous`: the page, or 0. Only 36 bits of a page number lead to its entry, so
    a search that went through them twice has seen all there is and never ends. -/
def findContiguous (s : Space) (num : Nat) (attr : BitVec 32) : Option Nat :=
  let pos := if attr &&& vmmAttrUser ≠ 0#32 then vmmVmaUserStart else vmmVmaKernelStart
  s.findContiguousLoop num (2 ^ 37) (pos.toNat / pageSize) 0 0

/-- `vmm_map`: the address, or 0 for `NULL`. -/
def map (env : SpaceEnv) (s : Space) (num : Nat) (attr : BitVec 32) : Option (Nat × Space) :=
  (s.findContiguous num attr).map fun page =>
    if page = 0 then (0, s) else s.mapToVaddrInternal env (page * pageSize) num

/-- The loop of `vmm_map_vaddr`: whether it gets through all pages. -/
def mapVaddrLoop (s : Space) (attr : BitVec 32) (vaddrPos : Nat) : Nat → Bool
  | 0 => true
  | num + 1 =>
      if !vmmVmaDoesContain vaddrPos then false
      else if attr &&& vmmAttrReuse = 0#32 ∧ (s.page (vaddrPos / pageSize)).isSome then false
      else s.mapVaddrLoop attr (wrap64 (vaddrPos + pageSize)) num

/-- `vmm_map_vaddr`: the address, or 0 for `NULL`. -/
def mapVaddr (env : SpaceEnv) (s : Space) (vaddr num : Nat) (attr : BitVec 32) : Nat × Space :=
  if s.mapVaddrLoop attr vaddr num then s.mapToVaddrInternal env vaddr num else (0, s)

/-- The range `vmm_map_exact` is left with, and how far it got. -/
structure Exact where
  paddr : Nat
  vaddr : Nat
  num : Nat
  cur : Nat

/-- The loop of `vmm_map_exact`. Pages at the front that are mapped as wanted are left out. -/
def mapExactLoop (s : Space) (attr : BitVec 32) : Nat → Nat → Nat → Exact → Exact
  | 0, _, _, e => e
  | fuel + 1, paddrPos, vaddrPos, e =>
      if ¬ e.num > e.cur then e
      else if !vmmVmaDoesContain vaddrPos then e
      else
        let next e := s.mapExactLoop attr fuel (paddrPos + pageSize) (wrap64 (vaddrPos + pageSize))
          { e with cur := e.cur + 1 }
        match s.page (vaddrPos / pageSize) with
        | none => next e
        | some frame =>
            let e := if e.cur = 0 ∧ frame * pageSize = paddrPos then { e with
                paddr := e.paddr + pageSize
                vaddr := wrap64 (e.vaddr + pageSize)
                num := e.num - 1 }
              else e
            if attr &&& vmmAttrReuse = 0#32 then e else next e

/-- `vmm_map_exact`: the address, or 0 for `NULL`. -/
def mapExact (s : Space) (paddr vaddr num : Nat) (attr : BitVec 32) : Nat × Space :=
  let e := s.mapExactLoop attr num paddr vaddr ⟨paddr, vaddr, num, 0⟩
  if e.cur ≠ e.num then (0, s)
  else (e.vaddr, s.mapToPaddrInternal (e.paddr / pageSize) (e.vaddr / pageSize) e.num)

/-- `vmm_unmap` with `VMM_ATTR_SAVE`, which leaves the frames to the caller. -/
def unmap (s : Space) (page : Nat) : Nat → Int × Space
  | 0 => (0, s)
  | num + 1 =>
      match s.page page with
      | none => (-eFAULT, s)
      | some _ => unmap { s with page := Function.update s.page page none } (page + 1) num

/-! ## Access -/

/-- The byte at an address; a page that is not mapped faults. -/
def load (s : Space) (vaddr : Nat) : Option UInt8 :=
  (s.page (vaddr / pageSize)).map fun frame => s.data (frame * pageSize + vaddr % pageSize)

/-- Bytes written one after the other, up to the first that faults. -/
def store (s : Space) (vaddr : Nat) : List UInt8 → Option Space
  | [] => some s
  | byte :: bytes =>
      match s.page (vaddr / pageSize) with
      | none => none
      | some frame => store { s with
          data := Function.update s.data (frame * pageSize + vaddr % pageSize) byte } (vaddr + 1) bytes

end Space

/-! ## Regions -/

inductive RegionType where
  | code
  | rdonly
  | data
  | heap
  | stack
  deriving DecidableEq

/-- `__region_attr`. -/
def regionAttr (type : RegionType) : BitVec 32 :=
  (match type with
    | .code => 0#32
    | .rdonly => vmmAttrRdonly
    | .data | .heap | .stack => vmmAttrNoExec) ||| vmmAttrReuse

/-- `region_t`; addresses that are not set are 0. -/
structure Region where
  type : RegionType
  user : Bool
  vaddr : Nat
  paddr : Nat
  num : Nat
  deriving DecidableEq

/-- `region_new`. -/
def regionNew (env : SpaceEnv) (s : Space) (type : RegionType) (user : Bool) (vaddr num : Nat) :
    Option Region × Space :=
  if env.heapAlloc s.regions then (some ⟨type, user, vaddr, 0, num⟩, { s with regions := s.regions + 1 })
  else (none, s)

/-- `region_free`. -/
def regionFree (s : Space) (mem : Region) : Space :=
  let s := if mem.paddr ≠ 0 then s.pmmFree (mem.paddr / pageSize) mem.num else s
  { s with regions := s.regions - 1 }

/-- The attributes `region_map` maps with. -/
def regionMapAttr (mem : Region) : BitVec 32 :=
  regionAttr mem.type ||| vmmAttrSave ||| if mem.user then vmmAttrUser else 0#32

/-- `region_map`. -/
def regionMap (env : SpaceEnv) (s : Space) (mem : Region) : Option (Int × Region × Space) :=
  let attr := regionMapAttr mem
  let mapped : Option (Nat × Region × Space) :=
    if mem.vaddr = 0 then
      (s.map env mem.num attr).map fun (vaddr, s) =>
        (vaddr, { mem with vaddr := vaddr, paddr := s.resolve vaddr }, s)
    else if mem.paddr = 0 then
      let (vaddr, s) := s.mapVaddr env mem.vaddr mem.num attr
      some (vaddr, { mem with paddr := s.resolve vaddr }, s)
    else
      let (vaddr, s) := s.mapExact mem.paddr mem.vaddr mem.num attr
      some (vaddr, mem, s)
  mapped.map fun (vaddr, mem, s) => (if vaddr = 0 then -eFAULT else 0, mem, s)

/-- `region_unmap`. -/
def regionUnmap (s : Space) (mem : Region) : Int × Space :=
  s.unmap (mem.vaddr / pageSize) mem.num

end Sdx.Mm
