import Sdx.Mm.Paging
import Sdx.Mm.Pmm

/-! # Virtual memory manager (`mm/vmm.c`)

The kernel reaches its page tables through entry 510 of the PML4, which points to the PML4
itself: an address that starts with 510 has a table where other addresses have a page. All
accesses below go through that window and fault where the processor would; `none` as a
result is such a fault.
-/

namespace Sdx.Mm

def vmmAttrNoExec : BitVec 32 := 1
def vmmAttrNoCache : BitVec 32 := 1 <<< 1
def vmmAttrRdonly : BitVec 32 := 1 <<< 2
def vmmAttrUser : BitVec 32 := 1 <<< 3
def vmmAttrSave : BitVec 32 := 1 <<< 4

/-- `VMM_VMA_USER_START` and `VMM_VMA_KERNEL_START`. -/
def vmmVmaUserStart : BitVec 64 := 4096
def vmmVmaKernelStart : BitVec 64 := 0xffff800000000000

/-! ## Entries and addresses -/

def vmmEntryToAddr (entry : BitVec 64) : BitVec 64 :=
  if (entry &&& pteFlagsClear).getLsbD 47 then (entry &&& pteFlagsClear) ||| 0xffff#64 <<< 48
  else (entry &&& pteFlagsClear) &&& ~~~(0xffff#64 <<< 48)

def vmmEntryToFlags (entry : BitVec 64) : BitVec 64 :=
  (entry &&& ~~~pteFlagsClear) &&& ~~~(pteFlagA ||| pteFlagD)

def vmmIndexesToAddr (pml4Index pdptIndex pdIndex ptIndex : BitVec 64) : BitVec 64 :=
  pml4Index <<< 39 ||| pdptIndex <<< 30 ||| pdIndex <<< 21 ||| ptIndex <<< 12 |||
    (if ((pml4Index <<< 39) >>> 47) &&& 1#64 ≠ 0 then 0xffff#64 <<< 48 else 0)

/-- The address of `table[index]`. -/
def vmmEntryAt (table index : BitVec 64) : BitVec 64 := table + 8#64 * index

def vmmPml4Vaddr : BitVec 64 := vmmIndexesToAddr 510#64 510#64 510#64 510#64
def vmmPml4Index (vaddr : BitVec 64) : BitVec 64 := (vaddr >>> 39) &&& 0x1ff#64
def vmmPml4Entry (vaddr : BitVec 64) : BitVec 64 := vmmEntryAt vmmPml4Vaddr (vmmPml4Index vaddr)

def vmmPdptVaddr (vaddr : BitVec 64) : BitVec 64 :=
  vmmIndexesToAddr 510#64 510#64 510#64 (vmmPml4Index vaddr)
def vmmPdptIndex (vaddr : BitVec 64) : BitVec 64 := (vaddr >>> 30) &&& 0x1ff#64
def vmmPdptEntry (vaddr : BitVec 64) : BitVec 64 :=
  vmmEntryAt (vmmPdptVaddr vaddr) (vmmPdptIndex vaddr)

def vmmPdVaddr (vaddr : BitVec 64) : BitVec 64 :=
  vmmIndexesToAddr 510#64 510#64 (vmmPml4Index vaddr) (vmmPdptIndex vaddr)
def vmmPdIndex (vaddr : BitVec 64) : BitVec 64 := (vaddr >>> 21) &&& 0x1ff#64
def vmmPdEntry (vaddr : BitVec 64) : BitVec 64 := vmmEntryAt (vmmPdVaddr vaddr) (vmmPdIndex vaddr)

def vmmPtVaddr (vaddr : BitVec 64) : BitVec 64 :=
  vmmIndexesToAddr 510#64 (vmmPml4Index vaddr) (vmmPdptIndex vaddr) (vmmPdIndex vaddr)
def vmmPtIndex (vaddr : BitVec 64) : BitVec 64 := (vaddr >>> 12) &&& 0x1ff#64
def vmmPtEntry (vaddr : BitVec 64) : BitVec 64 := vmmEntryAt (vmmPtVaddr vaddr) (vmmPtIndex vaddr)

/-- `__vmm_attr_to_flags`. -/
def vmmAttrToFlags (attr : BitVec 32) (forPageTable : Bool) : BitVec 64 :=
  let flags := pteFlagsDefault
  let flags := if attr &&& vmmAttrUser ≠ 0#32 then flags ||| pteFlagUS else flags
  if forPageTable then flags
  else
    let flags := if attr &&& vmmAttrSave = 0#32 then flags ||| pteFlagPMM else flags
    let flags := if attr &&& vmmAttrNoExec ≠ 0#32 then flags ||| pteFlagXD else flags
    let flags := if attr &&& vmmAttrNoCache ≠ 0#32 then flags ||| pteFlagPCD else flags
    if attr &&& vmmAttrRdonly ≠ 0#32 then flags &&& ~~~pteFlagRW else flags

/-- Physical memory, the PML4 that is loaded and the PMM. `alerts` counts the calls of
    `__vmm_alert_tasks`, which mark the other tasks' tables as old. -/
structure Vmm where
  mem : PhysMem
  cr3 : Frame
  pmm : Pmm
  alerts : Nat

namespace Vmm

def read (s : Vmm) (vaddr : BitVec 64) : Option (BitVec 64) := hwRead s.mem s.cr3 vaddr

def write (s : Vmm) (vaddr value : BitVec 64) : Option Vmm :=
  (hwWrite s.mem s.cr3 vaddr value).map fun mem => { s with mem := mem }

/-- `*entry |= flags`. -/
def writeFlags (s : Vmm) (entry flags : BitVec 64) : Option Vmm := do
  let old ← s.read entry
  s.write entry (old ||| flags)

/-- `bzero` over words; it clears the last one first. -/
def bzero (s : Vmm) (data : BitVec 64) : Nat → Option Vmm
  | 0 => some s
  | words + 1 => do
      let s ← s.write (vmmEntryAt data (BitVec.ofNat 64 words)) 0#64
      s.bzero data words

def alertTasks (s : Vmm) : Vmm := { s with alerts := s.alerts + 1 }

end Vmm

/-- `__vmm_entry_from_vaddr`: the address of the entry, or `NULL`. -/
def vmmEntryFromVaddr (s : Vmm) (vaddr : BitVec 64) : Option (Option (BitVec 64)) := do
  let pml4Entry ← s.read (vmmPml4Entry vaddr)
  if pml4Entry = 0#64 then some none
  else
    let pdptEntry ← s.read (vmmPdptEntry vaddr)
    if pdptEntry = 0#64 then some none
    else
      let pdEntry ← s.read (vmmPdEntry vaddr)
      if pdEntry = 0#64 then some none
      else if pdEntry &&& pteFlagPS ≠ 0#64 then some (some (vmmPdEntry vaddr))
      else
        let ptEntry ← s.read (vmmPtEntry vaddr)
        some (if ptEntry = 0#64 then none else some (vmmPtEntry vaddr))

/-- The address `vmm_resolve` makes of an entry. -/
def vmmResolveEntry (entry vaddr : BitVec 64) : BitVec 64 :=
  if entry &&& pteFlagPS ≠ 0#64 then vmmEntryToAddr entry ||| (vaddr &&& 0x1fffff#64)
  else vmmEntryToAddr entry ||| (vaddr &&& 0xfff#64)

def vmmResolve (s : Vmm) (vaddr : BitVec 64) : Option (BitVec 64) := do
  match ← vmmEntryFromVaddr s vaddr with
  | none => some 0
  | some entry =>
      let entry ← s.read entry
      some (vmmResolveEntry entry vaddr)

/-! ## Unmapping -/

/-- The loop of `__vmm_is_table_free` over the last `count` entries. -/
def vmmIsTableFreeLoop (s : Vmm) (table : BitVec 64) : Nat → Option Bool
  | 0 => some true
  | count + 1 => do
      let entry ← s.read (vmmEntryAt table (BitVec.ofNat 64 (pteCount - (count + 1))))
      if entry ≠ 0#64 then some false else vmmIsTableFreeLoop s table count

/-- `__vmm_is_table_free`. -/
def vmmIsTableFree (s : Vmm) (table : BitVec 64) : Option Bool := vmmIsTableFreeLoop s table pteCount

/-- Freeing the table below `entry` if it is empty; a page `pmm_free` refuses is only reported.
    The other tasks are told about changes of the PML4. -/
def vmmFreeTable (s : Vmm) (table entry : BitVec 64) (pml4 : Bool) : Option Vmm := do
  let free ← vmmIsTableFree s table
  if free then
    let value ← s.read entry
    let (_, pmm) := pmmFree s.pmm (vmmEntryToAddr value).toNat 1
    let s ← { s with pmm := pmm }.write entry 0#64
    some (if pml4 then s.alertTasks else s)
  else some s

/-- Giving the page of an entry back to the PMM it came from. -/
def vmmFreePage (p : Pmm) (entry : BitVec 64) (attr : BitVec 32) : Int × Pmm :=
  if entry &&& pteFlagPMM ≠ 0#64 ∧ attr &&& vmmAttrSave = 0#32 then pmmFree p (vmmEntryToAddr entry).toNat 1
  else (0, p)

/-- The tables of an unmapped page, from the PT upwards. -/
def vmmFreeTables (s : Vmm) (vaddr : BitVec 64) : Option Vmm := do
  let s ← vmmFreeTable s (vmmPtVaddr vaddr) (vmmPdEntry vaddr) false
  let s ← vmmFreeTable s (vmmPdVaddr vaddr) (vmmPdptEntry vaddr) false
  vmmFreeTable s (vmmPdptVaddr vaddr) (vmmPml4Entry vaddr) true

/-- One round of `vmm_unmap`. -/
def vmmUnmapPage (s : Vmm) (vaddr : BitVec 64) (attr : BitVec 32) : Option (Int × Vmm) := do
  match ← vmmEntryFromVaddr s vaddr with
  | none => some (-eFAULT, s)
  | some entry =>
      let value ← s.read entry
      let (err, pmm) := vmmFreePage s.pmm value attr
      if err ≠ 0 then some (err, { s with pmm := pmm })
      else
        let s ← { s with pmm := pmm }.write entry 0#64
        let s ← vmmFreeTables s vaddr
        some (0, s)

/-- `vmm_unmap` of `num` pages. -/
def vmmUnmap (s : Vmm) (vaddr : BitVec 64) (attr : BitVec 32) : Nat → Option (Int × Vmm)
  | 0 => some (0, s)
  | num + 1 => do
      let (err, s) ← vmmUnmapPage s vaddr attr
      if err ≠ 0 then some (err, s) else vmmUnmap s (vaddr + 4096#64) attr num

/-! ## Mapping -/

/-- The block of `__vmm_map_to_paddr_internal` that gets the table below `entry`, or creates it. -/
def vmmGetTable (boot : BootInfo) (s : Vmm) (entry table flags : BitVec 64) (pml4 : Bool) :
    Option Vmm := do
  let old ← s.read entry
  if old = 0#64 then
    let (paddr, pmm) := pmmAlloc boot s.pmm 1 0
    let s ← { s with pmm := pmm }.write entry (BitVec.ofNat 64 paddr)
    let s ← s.writeFlags entry flags
    (if pml4 then s.alertTasks else s).bzero table pteCount
  else (if pml4 ∧ vmmEntryToFlags old ≠ flags then s.alertTasks else s).writeFlags entry flags

/-- The three tables above a page, from the PDPT downwards. -/
def vmmGetTables (boot : BootInfo) (s : Vmm) (vaddr flags : BitVec 64) : Option Vmm := do
  let s ← vmmGetTable boot s (vmmPml4Entry vaddr) (vmmPdptVaddr vaddr) flags true
  let s ← vmmGetTable boot s (vmmPdptEntry vaddr) (vmmPdVaddr vaddr) flags false
  vmmGetTable boot s (vmmPdEntry vaddr) (vmmPtVaddr vaddr) flags false

/-- One round of `__vmm_map_to_paddr_internal`. The old entry is read to decide whether its
    translation has to leave the cache. -/
def vmmMapPage (boot : BootInfo) (s : Vmm) (paddr vaddr : BitVec 64) (attr : BitVec 32) :
    Option Vmm := do
  let s ← vmmGetTables boot s vaddr (vmmAttrToFlags attr true)
  let _ ← s.read (vmmPtEntry vaddr)
  s.write (vmmPtEntry vaddr) (paddr ||| vmmAttrToFlags attr false)

/-- The loop of `__vmm_map_to_paddr_internal`. -/
def vmmMapPages (boot : BootInfo) (s : Vmm) (paddr vaddr : BitVec 64) (attr : BitVec 32) :
    Nat → Option Vmm
  | 0 => some s
  | num + 1 => do
      let s ← vmmMapPage boot s paddr vaddr attr
      vmmMapPages boot s (paddr + 4096#64) (vaddr + 4096#64) attr num

/-- `__vmm_map_to_paddr_internal`. -/
def vmmMapToPaddrInternal (boot : BootInfo) (s : Vmm) (paddr vaddr : BitVec 64) (num : Nat)
    (attr : BitVec 32) : Option (BitVec 64 × Vmm) :=
  (vmmMapPages boot s paddr vaddr attr num).map fun s => (vaddr, s)

/-- `__vmm_map_to_vaddr_internal`. -/
def vmmMapToVaddrInternal (boot : BootInfo) (s : Vmm) (vaddr : BitVec 64) (num align : Nat)
    (attr : BitVec 32) : Option (BitVec 64 × Vmm) :=
  let (paddr, pmm) := pmmAlloc boot s.pmm num align
  if paddr = 0 then some (0, { s with pmm := pmm })
  else vmmMapToPaddrInternal boot { s with pmm := pmm } (BitVec.ofNat 64 paddr) vaddr num attr

/-- The loop of `__vmm_find_contiguous`; it goes on until it has found enough pages. -/
def vmmFindContiguousLoop (s : Vmm) (num align : Nat) :
    Nat → BitVec 64 → BitVec 64 → Nat → Option (BitVec 64)
  | 0, _, _, _ => none
  | fuel + 1, pos, start, cur =>
      if num > cur then
        if cur = 0 ∧ align ≠ 0 ∧ pos.toNat % align ≠ 0 then
          vmmFindContiguousLoop s num align fuel (pos + 4096#64) start cur
        else do
          let start := if cur = 0 then pos else start
          let entry ← vmmEntryFromVaddr s pos
          vmmFindContiguousLoop s num align fuel (pos + 4096#64) start
            (if entry.isSome then 0 else cur + 1)
      else some (if cur ≠ num then 0 else start)

/-- `__vmm_find_contiguous`. -/
def vmmFindContiguous (s : Vmm) (fuel num align : Nat) (attr : BitVec 32) : Option (BitVec 64) :=
  let pos := if attr &&& vmmAttrUser ≠ 0#32 then vmmVmaUserStart else vmmVmaKernelStart
  vmmFindContiguousLoop s num align fuel pos 0 0

/-- `vmm_map`: the address, or 0 for `NULL`. -/
def vmmMap (boot : BootInfo) (s : Vmm) (fuel num align : Nat) (attr : BitVec 32) :
    Option (BitVec 64 × Vmm) := do
  let vaddr ← vmmFindContiguous s fuel num align attr
  if vaddr = 0#64 then some (0, s) else vmmMapToVaddrInternal boot s vaddr num align attr

end Sdx.Mm
