import Sdx.Mm.VmmSync

/-! # Regions in page tables (`mm/region.c`)

The calls of `mm/region.c` that a fork and a switch make, down to the entries of the tables. The
kernel heap appears as the pages it maps: `heap_alloc` extends the heap by a page as often as it
has to, and then has a block or not.
-/

namespace Sdx.Mm

/-- What a call of `heap_alloc` comes to: how often it extends the heap, and whether it returns a
    block. -/
structure HeapCall where
  pages : Nat
  found : Bool

namespace Vmm

/-- The pages a call of `heap_alloc` maps, as in `__heap_extend`. -/
def heapExtends (boot : BootInfo) (fuel : Nat) (s : Vmm) : Nat → Option Vmm
  | 0 => some s
  | count + 1 => do
      let (_, s) ← vmmMap boot s fuel 1 0 0#32
      s.heapExtends boot fuel count

/-- `region_map`: the error, the region and its addresses. -/
def regionMap (boot : BootInfo) (fuel : Nat) (s : Vmm) (mem : Region) :
    Option (Int × Region × Vmm) := do
  let attr := regionMapAttr mem
  let (vaddr, mem, s) ← show Option (BitVec 64 × Region × Vmm) from
    if mem.vaddr = 0 then do
      let (vaddr, s) ← vmmMap boot s fuel mem.num 0 attr
      let paddr ← vmmResolve s vaddr
      some (vaddr, { mem with vaddr := vaddr.toNat, paddr := paddr.toNat }, s)
    else if mem.paddr = 0 then do
      let (vaddr, s) ← vmmMapVaddr boot s (BitVec.ofNat 64 mem.vaddr) mem.num 0 attr
      let paddr ← vmmResolve s vaddr
      some (vaddr, { mem with paddr := paddr.toNat }, s)
    else do
      let (vaddr, s) ← vmmMapExact boot s (BitVec.ofNat 64 mem.paddr) (BitVec.ofNat 64 mem.vaddr)
        mem.num attr
      some (vaddr, mem, s)
  some (if vaddr = 0#64 then -eFAULT else 0, mem, s)

/-- `region_copy`: the copy, or `none` for `NULL`. The pages are unmapped on every way out. -/
def regionCopy (boot : BootInfo) (fuel : Nat) (call : HeapCall) (s : Vmm) (mem : Region) :
    Option (Option Region × Vmm) := do
  let (vaddr, s) ← vmmMap boot s fuel mem.num 0 0#32
  if vaddr = 0#64 then some (none, s)
  else
    let s ← s.heapExtends boot fuel call.pages
    if !call.found then
      let (_, s) ← vmmUnmap s vaddr vmmAttrSave mem.num
      some (none, s)
    else
      let s ← s.memcpy vaddr (BitVec.ofNat 64 mem.vaddr) (BitVec.ofNat 64 (mem.num * pageSize))
      let paddr ← vmmResolve s vaddr
      let (_, s) ← vmmUnmap s vaddr vmmAttrSave mem.num
      some (some { mem with paddr := paddr.toNat }, s)

/-- `region_free`. -/
def regionFree (s : Vmm) (mem : Region) : Vmm :=
  if mem.paddr ≠ 0 then { s with pmm := (pmmFree s.pmm mem.paddr mem.num).2 } else s

end Vmm

end Sdx.Mm
