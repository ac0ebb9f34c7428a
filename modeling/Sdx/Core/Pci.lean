import Mathlib.Data.Finset.Card
import Mathlib.Data.Finset.Range
import Mathlib.Data.Prod.Lex
import Sdx.Base
import Sdx.Lib.Fuel

/-! # PCI enumeration (`core/pci/pci.c`, `core/pci/device.c`)

Each of the 65536 functions has its place by bus, slot and function. The list that `pci_enum` builds is
described by what is in it and by its order; behind it, the list is printed with a counter of 16 bits.
-/

namespace Sdx.Core

open Sdx.Lib

/-- `PCI_BUS_COUNT`, `PCI_SLOT_COUNT` and `PCI_FUNC_COUNT`. -/
def pciBusCount : Nat := 256
def pciSlotCount : Nat := 32
def pciFuncCount : Nat := 8

/-- `PCI_ADDRESS_PORT` and `PCI_DATA_PORT`. -/
def pciAddressPort : Nat := 0xcf8
def pciDataPort : Nat := 0xcfc

/-- The bytes of the configuration space, by bus, slot, function and offset. -/
abbrev PciSpace := Nat → Nat → Nat → Nat → UInt8

/-- The byte at one of the four data ports. The host bridge does not look at the two lowest bits of the
    address it was given. -/
def PciSpace.data (space : PciSpace) (addr port : Nat) : UInt8 :=
  space (addr / 2 ^ 16 % 2 ^ 8) (addr / 2 ^ 11 % 2 ^ 5) (addr / 2 ^ 8 % 2 ^ 3)
    (addr % 2 ^ 8 / 4 * 4 + (port - pciDataPort))

/-- `out32` to the address port: the address that the host bridge has then. -/
def pciOut32 (port val : Nat) : Option Nat := if port = 0 then none else some val

/-- `in8` and `in16` from a data port. -/
def pciIn8 (space : PciSpace) (addr port : Nat) : UInt8 :=
  if port = 0 then 0 else space.data addr port

def pciIn16 (space : PciSpace) (addr port : Nat) : UInt16 :=
  if port = 0 then 0
  else UInt16.ofNat ((space.data addr port).toNat + 2 ^ 8 * (space.data addr (port + 1)).toNat)

/-- The address of an offset. -/
def pciAddr (bus slot func offset : Nat) : Nat :=
  1 <<< 31 ||| bus <<< 16 ||| slot <<< 11 ||| func <<< 8 ||| offset

/-- `pci_read16`. -/
def pciRead16 (space : PciSpace) (bus slot func offset : Nat) : UInt16 :=
  match pciOut32 pciAddressPort (pciAddr bus slot func offset) with
  | none => 0
  | some addr => pciIn16 space addr (pciDataPort + (offset &&& 2))

/-- `pci_read8`. -/
def pciRead8 (space : PciSpace) (bus slot func offset : Nat) : UInt8 :=
  match pciOut32 pciAddressPort (pciAddr bus slot func offset) with
  | none => 0
  | some addr => pciIn8 space addr (pciDataPort + (offset &&& 3))

/-- `pci_exists`. -/
def pciExists (space : PciSpace) (bus slot func : Nat) : Bool := pciRead16 space bus slot func 0 != 0xffff

/-- `pci_device_t`. -/
structure PciDevice where
  bus : Nat
  slot : Nat
  func : Nat
  vendorId : UInt16
  deviceId : UInt16
  command : UInt16
  status : UInt16
  revisionId : UInt8
  progif : UInt8
  subclass : UInt8
  class' : UInt8
  type : UInt8
  bist : UInt8
  intLine : UInt8

/-- `sizeof(pci_device_t)`. -/
def pciDeviceSize : Nat := 20

/-- `pci_device_load`. -/
def pciDeviceLoad (space : PciSpace) (bus slot func : Nat) : PciDevice where
  vendorId := pciRead16 space bus slot func 0
  deviceId := pciRead16 space bus slot func 2
  command := pciRead16 space bus slot func 4
  status := pciRead16 space bus slot func 6
  revisionId := pciRead8 space bus slot func 8
  progif := pciRead8 space bus slot func 9
  subclass := pciRead8 space bus slot func 10
  class' := pciRead8 space bus slot func 11
  type := pciRead8 space bus slot func 14
  bist := pciRead8 space bus slot func 15
  intLine := pciRead8 space bus slot func 60
  bus := bus
  slot := slot
  func := func

/-- `struct pci_data`. The list may be `NULL`. -/
structure PciData where
  list : Option (List PciDevice)
  count : Nat

/-- Memory for an array: `heap_alloc` and `heap_realloc` give room for a size in bytes, and
    `heap_realloc` keeps the contents. -/
structure PciHeap where
  heapAlloc : Nat → List PciDevice
  heapRealloc : List PciDevice → Nat → List PciDevice
  heapAlloc_length : ∀ num, (heapAlloc (pciDeviceSize * num)).length = num
  heapRealloc_length : ∀ list num, (heapRealloc list (pciDeviceSize * num)).length = num
  heapRealloc_preserves : ∀ list num, list.length ≤ num → list <+: heapRealloc list (pciDeviceSize * num)

/-- The part of `__pci_enum_single` that makes room for a device and loads it. -/
def PciData.add (heap : PciHeap) (data : PciData) (cur : PciDevice) : PciData :=
  let count := data.count + 1
  let listSize := pciDeviceSize * count
  let list :=
    match data.list with
    | none => heap.heapAlloc listSize
    | some list => heap.heapRealloc list listSize
  ⟨some (list.set (count - 1) cur), count⟩

/-- `__pci_enum_single`. -/
def pciEnumSingle (heap : PciHeap) (space : PciSpace) (bus slot func : Nat) (data : PciData) : PciData :=
  if func ≥ pciFuncCount then data
  else if pciExists space bus slot func then
    let cur := pciDeviceLoad space bus slot func
    let data := data.add heap cur
    if func = 0 ∧ cur.type &&& 0x80 ≠ 0 then pciEnumSingle heap space bus slot (func + 1) data
    else if func ≠ 0 then pciEnumSingle heap space bus slot (func + 1) data
    else data
  else if func ≠ 0 then pciEnumSingle heap space bus slot (func + 1) data
  else data
termination_by pciFuncCount - func

/-- The loop of `pci_enum` over the slots of a bus, and the one over the buses. -/
def pciEnumBus (heap : PciHeap) (space : PciSpace) (data : PciData) (bus : Nat) : PciData :=
  (List.range pciSlotCount).foldl (fun data slot => pciEnumSingle heap space bus slot 0 data) data

def pciEnumBuses (heap : PciHeap) (space : PciSpace) (data : PciData) : PciData :=
  (List.range pciBusCount).foldl (pciEnumBus heap space) data

/-- A call of `printk`. -/
structure PciLine where
  format : String
  args : List Nat

/-- The line for the device at `i`. -/
def pciLine (data : PciData) (i : Nat) (cur : PciDevice) : PciLine where
  format :=
    if i = data.count - 1 then "     `- Vendor: 0x%x Device: 0x%x Class: %d Subclass: %d\n"
    else "     |- Vendor: 0x%x Device: 0x%x Class: %d Subclass: %d\n"
  args := [cur.vendorId.toNat, cur.deviceId.toNat, cur.class'.toNat, cur.subclass.toNat]

/-- The loop of `pci_enum` that prints the list. -/
def pciPrintLoop (data : PciData) : Nat → Nat → Option (List PciLine)
  | 0, _ => none
  | fuel + 1, i =>
      if i < data.count then do
        let cur ← (data.list.getD [])[i]?
        let lines ← pciPrintLoop data fuel ((i + 1) % 2 ^ 16)
        some (pciLine data i cur :: lines)
      else some []

/-- `pci_enum`: the data, and what was printed. -/
def pciEnum (heap : PciHeap) (space : PciSpace) (fuel : Nat) (data : PciData) :
    Option (PciData × List PciLine) := do
  let data := pciEnumBuses heap space data
  let lines ← pciPrintLoop data fuel 0
  some (data, ⟨"PCI: enumerated %d devices\n", [data.count]⟩ :: lines)

/-! ## What is to be listed -/

/-- The vendor ID is one. -/
def PciSpace.Exists (space : PciSpace) (bus slot func : Nat) : Prop :=
  ¬ (space bus slot func 0 = 0xff ∧ space bus slot func 1 = 0xff)

/-- Bit 7 of the header type of function 0 is set. -/
def PciSpace.Multi (space : PciSpace) (bus slot : Nat) : Prop := space bus slot 0 14 &&& 0x80 ≠ 0

/-- Function 0 where it exists, and the other functions that exist where it says that there are any. -/
def PciSpace.Listed (space : PciSpace) (bus slot func : Nat) : Prop :=
  space.Exists bus slot func ∧ (func = 0 ∨ space.Exists bus slot 0 ∧ space.Multi bus slot)

/-- The place of a device in the order by bus, slot and function. -/
def PciDevice.place (d : PciDevice) : Nat ×ₗ Nat ×ₗ Nat := toLex (d.bus, toLex (d.slot, d.func))

/-- The places there are. -/
def PciPlace (bus slot func : Nat) : Prop :=
  bus < pciBusCount ∧ slot < pciSlotCount ∧ func < pciFuncCount

instance (space : PciSpace) (bus slot func : Nat) : Decidable (space.Exists bus slot func) :=
  inferInstanceAs (Decidable (¬ (_ ∧ _)))

instance (space : PciSpace) (bus slot : Nat) : Decidable (space.Multi bus slot) :=
  inferInstanceAs (Decidable (_ ≠ _))

instance (space : PciSpace) (bus slot func : Nat) : Decidable (space.Listed bus slot func) :=
  inferInstanceAs (Decidable (_ ∧ (_ ∨ _ ∧ _)))

/-- The array behind the list. -/
def PciData.entries (data : PciData) : List PciDevice := data.list.getD []

/-- A list in ascending order, with exactly the functions that are to be listed. -/
structure PciListing (space : PciSpace) (list : List PciDevice) : Prop where
  ascending : list.Pairwise (fun d e => d.place < e.place)
  mem_iff : ∀ d, d ∈ list ↔ ∃ bus slot func, PciPlace bus slot func ∧ space.Listed bus slot func ∧
    d = pciDeviceLoad space bus slot func

/-- The list and its length. -/
structure PciData.Holds (data : PciData) (list : List PciDevice) : Prop where
  entries : data.entries = list
  count : data.count = list.length

/-- `pci_enum` ends with such a list and with its length. -/
def EnumeratesOnce (heap : PciHeap) (space : PciSpace) : Prop :=
  ∃ data lines list, Returns (fun fuel => pciEnum heap space fuel ⟨none, 0⟩) (data, lines) ∧
    data.Holds list ∧ PciListing space list

section

variable {heap : PciHeap} {space : PciSpace} {bus slot func offset i n : Nat} {data : PciData}
  {list : List PciDevice} {d : PciDevice}

/-! ## Reading -/

theorem or_eq_add {a b : Nat} (multiple : 2 ^ i ∣ a) (lt : b < 2 ^ i) : a ||| b = a + b := by
  obtain ⟨c, rfl⟩ := multiple
  exact (Nat.two_pow_add_eq_or_of_lt lt c).symm

theorem pciAddr_eq (place : PciPlace bus slot func) (lt : offset < 2 ^ 8) :
    pciAddr bus slot func offset = 2 ^ 31 + bus * 2 ^ 16 + slot * 2 ^ 11 + func * 2 ^ 8 + offset := by
  obtain ⟨bus_lt, slot_lt, func_lt⟩ := place
  rw [pciBusCount] at bus_lt
  rw [pciSlotCount] at slot_lt
  rw [pciFuncCount] at func_lt
  have with_bus : 2 ^ 31 ||| bus * 2 ^ 16 = 2 ^ 31 + bus * 2 ^ 16 :=
    or_eq_add (Nat.dvd_refl _) (by omega)
  have with_slot : 2 ^ 31 + bus * 2 ^ 16 ||| slot * 2 ^ 11 = _ := @or_eq_add 16 _ _ (by omega) (by omega)
  have with_func : 2 ^ 31 + bus * 2 ^ 16 + slot * 2 ^ 11 ||| func * 2 ^ 8 = _ :=
    @or_eq_add 11 _ _ (by omega) (by omega)
  have with_offset : 2 ^ 31 + bus * 2 ^ 16 + slot * 2 ^ 11 + func * 2 ^ 8 ||| offset = _ :=
    @or_eq_add 8 _ _ (by omega) (by omega)
  rw [pciAddr, Nat.shiftLeft_eq, Nat.shiftLeft_eq, Nat.shiftLeft_eq, Nat.shiftLeft_eq, Nat.one_mul,
    with_bus, with_slot, with_func, with_offset]

/-- The host bridge takes the address apart again. -/
theorem PciSpace.data_eq (space : PciSpace) (place : PciPlace bus slot func) (lt : offset < 2 ^ 8)
    (port : Nat) : space.data (pciAddr bus slot func offset) port =
      space bus slot func (offset / 4 * 4 + (port - pciDataPort)) := by
  obtain ⟨bus_lt, slot_lt, func_lt⟩ := id place
  rw [pciBusCount] at bus_lt
  rw [pciSlotCount] at slot_lt
  rw [pciFuncCount] at func_lt
  rw [PciSpace.data, pciAddr_eq place lt]
  generalize addr_eq : 2 ^ 31 + bus * 2 ^ 16 + slot * 2 ^ 11 + func * 2 ^ 8 + offset = addr
  have at_bus : addr / 2 ^ 16 % 2 ^ 8 = bus := by omega
  have at_slot : addr / 2 ^ 11 % 2 ^ 5 = slot := by omega
  have at_func : addr / 2 ^ 8 % 2 ^ 3 = func := by omega
  have at_offset : addr % 2 ^ 8 = offset := by omega
  rw [at_bus, at_slot, at_func, at_offset]

theorem pciRead8_eq (place : PciPlace bus slot func) (lt : offset < 2 ^ 8) :
    pciRead8 space bus slot func offset = space bus slot func offset := by
  have low : offset &&& 3 = offset % 4 := Nat.and_two_pow_sub_one_eq_mod offset 2
  have whole : offset / 4 * 4 + (pciDataPort + offset % 4 - pciDataPort) = offset := by omega
  rw [pciRead8, pciOut32, if_neg (by decide)]
  dsimp only
  rw [pciIn8, if_neg (by rw [pciDataPort]; omega), PciSpace.data_eq space place lt, low, whole]

theorem pciExists_iff (place : PciPlace bus slot func) :
    pciExists space bus slot func = true ↔ space.Exists bus slot func := by
  have vendor : pciRead16 space bus slot func 0 =
      UInt16.ofNat ((space bus slot func 0).toNat + 2 ^ 8 * (space bus slot func 1).toNat) := by
    rw [pciRead16, pciOut32, if_neg (by decide)]
    dsimp only
    rw [pciIn16, if_neg (by decide), PciSpace.data_eq space place (by decide),
      PciSpace.data_eq space place (by decide)]
    rfl
  have low := (space bus slot func 0).toNat_lt
  have high := (space bus slot func 1).toNat_lt
  rw [pciExists, bne_iff_ne, vendor, PciSpace.Exists, not_iff_not, ← UInt16.toNat_inj,
    ← UInt8.toNat_inj, ← UInt8.toNat_inj, UInt16.toNat_ofNat']
  simp only [UInt16.reduceToNat, UInt8.reduceToNat]
  omega

theorem pciDeviceLoad_multi (place : PciPlace bus slot 0) :
    (pciDeviceLoad space bus slot 0).type &&& 0x80 ≠ 0 ↔ space.Multi bus slot := by
  rw [PciSpace.Multi, ← @pciRead8_eq space _ _ _ 14 place (by decide), pciDeviceLoad]

/-! ## The list grows -/

/-- An array with room for one more. -/
theorem set_of_prefix {room : List PciDevice} (kept : list <+: room)
    (length : room.length = list.length + 1) : room.set list.length d = list ++ [d] := by
  obtain ⟨rest, rfl⟩ := kept
  rw [List.length_append, Nat.add_left_cancel_iff, List.length_eq_one_iff] at length
  obtain ⟨last, rfl⟩ := length
  simp

theorem PciData.Holds.add (holds : data.Holds list) (heap : PciHeap) (d : PciDevice) :
    (data.add heap d).Holds (list ++ [d]) := by
  obtain ⟨found, count⟩ := data
  obtain ⟨rfl, counted⟩ := holds
  simp only at counted
  constructor
  · cases found with
    | none =>
        have length := heap.heapAlloc_length (count + 1)
        rw [counted] at length ⊢
        exact set_of_prefix List.nil_prefix length
    | some found =>
        have length := heap.heapRealloc_length found (count + 1)
        have kept := heap.heapRealloc_preserves found (count + 1)
        rw [counted] at length kept ⊢
        exact set_of_prefix (kept (Nat.le_succ _)) length
  · rw [List.length_append, ← counted]
    rfl

/-- Some functions of a slot. -/
def pciLoads (space : PciSpace) (bus slot : Nat) (funcs : List Nat) : List PciDevice :=
  (funcs.filter (space.Listed bus slot ·)).map (pciDeviceLoad space bus slot)

theorem pciLoads_cons_pos {funcs : List Nat} (listed : space.Listed bus slot func) :
    pciLoads space bus slot (func :: funcs) =
      [pciDeviceLoad space bus slot func] ++ pciLoads space bus slot funcs := by
  simp only [pciLoads, List.filter_cons, listed, decide_true, if_true, List.map_cons, List.singleton_append]

theorem pciLoads_cons_neg {funcs : List Nat} (unlisted : ¬ space.Listed bus slot func) :
    pciLoads space bus slot (func :: funcs) = pciLoads space bus slot funcs := by
  simp only [pciLoads, List.filter_cons, unlisted, decide_false, Bool.false_eq_true, if_false]

/-- The other functions of a slot, one after the other. -/
theorem pciEnumSingle_rest (size : func + n = pciFuncCount) (pos : 0 < func)
    (bus_lt : bus < pciBusCount) (slot_lt : slot < pciSlotCount) (first : space.Exists bus slot 0)
    (multi : space.Multi bus slot) (holds : data.Holds list) :
    (pciEnumSingle heap space bus slot func data).Holds
      (list ++ pciLoads space bus slot (List.range' func n)) := by
  induction n generalizing func data list with
  | zero =>
      rw [pciEnumSingle, if_pos (by omega), List.range'_zero, pciLoads, List.filter_nil, List.map_nil,
        List.append_nil]
      exact holds
  | succ n ih =>
      have place : PciPlace bus slot func := ⟨bus_lt, slot_lt, by omega⟩
      rw [pciEnumSingle, if_neg (by omega), List.range'_succ]
      by_cases here : space.Exists bus slot func
      · have next := @ih (func + 1) _ _ (by omega) (by omega)
          (holds.add heap (pciDeviceLoad space bus slot func))
        rw [if_pos ((pciExists_iff place).mpr here), pciLoads_cons_pos ⟨here, .inr ⟨first, multi⟩⟩,
          ← List.append_assoc]
        dsimp only
        rw [if_neg (by omega), if_pos (by omega)]
        exact next
      · have next := @ih (func + 1) _ _ (by omega) (by omega) holds
        rw [if_neg (mt (pciExists_iff place).mp here), if_pos (by omega),
          pciLoads_cons_neg fun listed => here listed.1]
        exact next

theorem pciLoads_single (single : ¬ (space.Exists bus slot 0 ∧ space.Multi bus slot)) :
    pciLoads space bus slot (List.range' 1 7) = [] := by
  rw [pciLoads, List.map_eq_nil_iff, List.filter_eq_nil_iff]
  intro func mem
  have pos := (List.mem_range'_1.mp mem).1
  rw [decide_eq_true_iff, PciSpace.Listed, or_iff_left single]
  omega

/-- A slot: its function 0 says whether there are others. -/
theorem pciEnumSingle_slot (bus_lt : bus < pciBusCount) (slot_lt : slot < pciSlotCount)
    (holds : data.Holds list) : (pciEnumSingle heap space bus slot 0 data).Holds
      (list ++ pciLoads space bus slot (List.range pciFuncCount)) := by
  have place : PciPlace bus slot 0 := ⟨bus_lt, slot_lt, by decide⟩
  have all : List.range pciFuncCount = 0 :: List.range' 1 7 := by decide
  rw [pciEnumSingle, if_neg (by decide), all]
  by_cases first : space.Exists bus slot 0
  · have added := holds.add heap (pciDeviceLoad space bus slot 0)
    rw [if_pos ((pciExists_iff place).mpr first), pciLoads_cons_pos ⟨first, .inl rfl⟩,
      ← List.append_assoc]
    dsimp only
    by_cases multi : space.Multi bus slot
    · rw [if_pos ⟨rfl, (pciDeviceLoad_multi place).mpr multi⟩]
      exact pciEnumSingle_rest rfl Nat.one_pos bus_lt slot_lt first multi added
    · rw [if_neg fun other => multi ((pciDeviceLoad_multi place).mp other.2), if_neg (not_not.mpr rfl),
        pciLoads_single fun both => multi both.2, List.append_nil]
      exact added
  · rw [if_neg (mt (pciExists_iff place).mp first), if_neg (not_not.mpr rfl),
      pciLoads_cons_neg fun listed => first listed.1, pciLoads_single fun both => first both.1,
      List.append_nil]
    exact holds

/-- A loop that appends. -/
theorem PciData.Holds.foldl {f : PciData → Nat → PciData} {g : Nat → List PciDevice} {xs : List Nat}
    (step : ∀ x ∈ xs, ∀ data list, data.Holds list → (f data x).Holds (list ++ g x))
    (holds : data.Holds list) : (xs.foldl f data).Holds (list ++ xs.flatMap g) := by
  induction xs generalizing data list with
  | nil => simpa using holds
  | cons x xs ih =>
      have next := ih (fun y mem => step y (List.mem_cons_of_mem x mem))
        (step x List.mem_cons_self data list holds)
      simpa using next

/-- All functions that are to be listed. -/
def pciAll (space : PciSpace) : List PciDevice :=
  (List.range pciBusCount).flatMap fun bus => (List.range pciSlotCount).flatMap fun slot =>
    pciLoads space bus slot (List.range pciFuncCount)

theorem pciEnumBuses_holds : (pciEnumBuses heap space ⟨none, 0⟩).Holds (pciAll space) := by
  have none_yet : PciData.Holds ⟨none, 0⟩ [] := ⟨rfl, rfl⟩
  rw [pciAll, ← List.nil_append (List.flatMap _ _)]
  apply none_yet.foldl
  intro bus bus_mem data list holds
  apply holds.foldl
  intro slot slot_mem data list holds
  exact pciEnumSingle_slot (List.mem_range.mp bus_mem) (List.mem_range.mp slot_mem) holds

/-! ## The order -/

theorem place_lt {d e : PciDevice} : d.place < e.place ↔ d.bus < e.bus ∨ d.bus = e.bus ∧
    (d.slot < e.slot ∨ d.slot = e.slot ∧ d.func < e.func) := by
  simp [PciDevice.place, Prod.Lex.toLex_lt_toLex]

theorem mem_pciAll : d ∈ pciAll space ↔ ∃ bus slot func, PciPlace bus slot func ∧
    space.Listed bus slot func ∧ d = pciDeviceLoad space bus slot func := by
  simp only [pciAll, pciLoads, List.mem_flatMap, List.mem_map, List.mem_filter, List.mem_range,
    decide_eq_true_iff]
  constructor
  · rintro ⟨bus, bus_lt, slot, slot_lt, func, ⟨func_lt, listed⟩, rfl⟩
    exact ⟨bus, slot, func, ⟨bus_lt, slot_lt, func_lt⟩, listed, rfl⟩
  · rintro ⟨bus, slot, func, ⟨bus_lt, slot_lt, func_lt⟩, listed, rfl⟩
    exact ⟨bus, bus_lt, slot, slot_lt, func, ⟨func_lt, listed⟩, rfl⟩

/-- The devices of a slot have its numbers. -/
theorem of_mem_pciLoads {funcs : List Nat} (mem : d ∈ pciLoads space bus slot funcs) :
    d.bus = bus ∧ d.slot = slot := by
  obtain ⟨func, -, rfl⟩ := List.mem_map.mp mem
  exact ⟨rfl, rfl⟩

theorem pciLoads_ascending : (pciLoads space bus slot (List.range n)).Pairwise
    (fun d e => d.place < e.place) := by
  rw [pciLoads, List.pairwise_map]
  refine (List.pairwise_lt_range.filter _).imp fun lt => ?_
  exact place_lt.mpr (.inr ⟨rfl, .inr ⟨rfl, lt⟩⟩)

theorem pciAll_listing (space : PciSpace) : PciListing space (pciAll space) where
  mem_iff d := mem_pciAll
  ascending := by
    rw [pciAll, List.pairwise_flatMap]
    constructor
    · intro bus _
      rw [List.pairwise_flatMap]
      refine ⟨fun slot _ => pciLoads_ascending, List.pairwise_lt_range.imp fun lt d d_mem e e_mem => ?_⟩
      obtain ⟨d_bus, d_slot⟩ := of_mem_pciLoads d_mem
      obtain ⟨e_bus, e_slot⟩ := of_mem_pciLoads e_mem
      exact place_lt.mpr (.inr ⟨d_bus.trans e_bus.symm, .inl (by rwa [d_slot, e_slot])⟩)
    · refine List.pairwise_lt_range.imp fun lt d d_mem e e_mem => ?_
      obtain ⟨_, -, d_mem⟩ := List.mem_flatMap.mp d_mem
      obtain ⟨_, -, e_mem⟩ := List.mem_flatMap.mp e_mem
      exact place_lt.mpr (.inl (by rwa [(of_mem_pciLoads d_mem).1, (of_mem_pciLoads e_mem).1]))

/-! ## How many there are -/

/-- The number of a place among all of them. -/
def pciNumber (bus slot func : Nat) : Nat := (bus * pciSlotCount + slot) * pciFuncCount + func

def PciDevice.number (d : PciDevice) : Nat := pciNumber d.bus d.slot d.func

theorem pciNumber_inj {bus' slot' func' : Nat} (place : PciPlace bus slot func)
    (place' : PciPlace bus' slot' func') (same : pciNumber bus slot func = pciNumber bus' slot' func') :
    bus = bus' ∧ slot = slot' ∧ func = func' := by
  simp only [PciPlace, pciNumber, pciBusCount, pciSlotCount, pciFuncCount] at place place' same
  omega

theorem pciNumber_lt (place : PciPlace bus slot func) : pciNumber bus slot func < 2 ^ 16 := by
  simp only [PciPlace, pciNumber, pciBusCount, pciSlotCount, pciFuncCount] at place ⊢
  omega

theorem exists_pciNumber (lt : n < 2 ^ 16) :
    ∃ bus slot func, PciPlace bus slot func ∧ pciNumber bus slot func = n := by
  refine ⟨n / 256, n / 8 % 32, n % 8, ?_, ?_⟩
  · simp only [PciPlace, pciBusCount, pciSlotCount, pciFuncCount]
    omega
  · simp only [pciNumber, pciSlotCount, pciFuncCount]
    omega

namespace PciListing

variable (listing : PciListing space list)

include listing

theorem nodup_number : (list.map PciDevice.number).Nodup := by
  have nodup : list.Nodup := by
    apply listing.ascending.imp
    rintro d _ lt rfl
    exact lt_irrefl _ lt
  refine nodup.map_on fun d d_mem e e_mem same => ?_
  obtain ⟨bus, slot, func, place, -, rfl⟩ := (listing.mem_iff d).mp d_mem
  obtain ⟨bus', slot', func', place', -, rfl⟩ := (listing.mem_iff e).mp e_mem
  obtain ⟨rfl, rfl, rfl⟩ := pciNumber_inj place place' same
  rfl

theorem mem_number (place : PciPlace bus slot func) :
    pciNumber bus slot func ∈ list.map PciDevice.number ↔ space.Listed bus slot func := by
  rw [List.mem_map]
  constructor
  · rintro ⟨d, mem, same⟩
    obtain ⟨bus', slot', func', place', listed, rfl⟩ := (listing.mem_iff d).mp mem
    obtain ⟨rfl, rfl, rfl⟩ := pciNumber_inj place' place same
    exact listed
  · intro listed
    exact ⟨_, (listing.mem_iff _).mpr ⟨bus, slot, func, place, listed, rfl⟩, rfl⟩

theorem card_numbers : (list.map PciDevice.number).toFinset.card = list.length := by
  rw [List.toFinset_card_of_nodup listing.nodup_number, List.length_map]

/-- All places are taken, or there are fewer devices. -/
theorem length_lt_iff : list.length < 2 ^ 16 ↔
    ∃ bus slot func, PciPlace bus slot func ∧ ¬ space.Listed bus slot func := by
  rw [← listing.card_numbers]
  constructor
  · intro fewer
    by_contra all
    have every : Finset.range (2 ^ 16) ⊆ (list.map PciDevice.number).toFinset := by
      intro n mem
      obtain ⟨bus, slot, func, place, rfl⟩ := exists_pciNumber (Finset.mem_range.mp mem)
      rw [List.mem_toFinset, listing.mem_number place]
      by_contra unlisted
      exact all ⟨bus, slot, func, place, unlisted⟩
    have enough := Finset.card_le_card every
    rw [Finset.card_range] at enough
    omega
  · rintro ⟨bus, slot, func, place, unlisted⟩
    have among : (list.map PciDevice.number).toFinset ⊆
        (Finset.range (2 ^ 16)).erase (pciNumber bus slot func) := by
      intro n mem
      rw [List.mem_toFinset] at mem
      rw [Finset.mem_erase, Finset.mem_range]
      constructor
      · rintro rfl
        exact unlisted ((listing.mem_number place).mp mem)
      · obtain ⟨d, d_mem, rfl⟩ := List.mem_map.mp mem
        obtain ⟨bus', slot', func', place', -, rfl⟩ := (listing.mem_iff d).mp d_mem
        exact pciNumber_lt place'
    have fewer := Finset.card_le_card among
    rw [Finset.card_erase_of_mem (Finset.mem_range.mpr (pciNumber_lt place)), Finset.card_range] at fewer
    omega

end PciListing

/-! ## Printing -/

theorem pciPrintLoop_returns (few : data.count < 2 ^ 16) (holds : data.Holds list) (le : i ≤ data.count) :
    ∃ lines, Returns (fun fuel => pciPrintLoop data fuel i) lines := by
  induction left_eq : data.count - i generalizing i with
  | zero =>
      refine ⟨[], Returns.step (fun fuel => ?_) (Returns.const [])⟩
      rw [pciPrintLoop, if_neg (by omega)]
  | succ left ih =>
      have lt : i < data.count := by omega
      have inside : i < list.length := holds.count ▸ lt
      have here : (data.list.getD [])[i]? = some list[i] := by
        rw [← PciData.entries, holds.entries]
        exact List.getElem?_eq_getElem inside
      have next : (i + 1) % 2 ^ 16 = i + 1 := Nat.mod_eq_of_lt (by omega)
      obtain ⟨lines, returns⟩ := ih (i := i + 1) (by omega) (by omega)
      have rest := returns.bind (g := fun _ lines => some (pciLine data i list[i] :: lines))
        (Returns.const _)
      refine ⟨_, Returns.step (fun fuel => ?_) rest⟩
      rw [pciPrintLoop, if_pos lt, here, Option.bind_eq_bind, Option.bind_some, next]
      rfl

/-- With 65536 devices the counter is always below their number. -/
theorem pciPrintLoop_never (many : 2 ^ 16 ≤ data.count) {fuel : Nat} (lt : i < 2 ^ 16) :
    pciPrintLoop data fuel i = none := by
  induction fuel generalizing i with
  | zero => rfl
  | succ fuel ih =>
      have next := ih (i := (i + 1) % 2 ^ 16) (Nat.mod_lt _ (by decide))
      rw [pciPrintLoop, if_pos (by omega), next]
      cases (data.list.getD [])[i]? with
      | none => rfl
      | some cur => rfl

/-! ## The end of the enumeration -/

theorem enumeratesOnce_iff_length : EnumeratesOnce heap space ↔ (pciAll space).length < 2 ^ 16 := by
  have holds := @pciEnumBuses_holds heap space
  constructor
  · rintro ⟨data, lines, list, ⟨enough, returns⟩, -⟩
    by_contra many
    have stuck := returns enough (Nat.le_refl enough)
    dsimp only [pciEnum] at stuck
    rw [pciPrintLoop_never (by rw [holds.count]; omega) (by decide)] at stuck
    cases stuck
  · intro few
    obtain ⟨lines, returns⟩ := pciPrintLoop_returns (holds.count ▸ few) holds (Nat.zero_le _)
    exact ⟨pciEnumBuses heap space ⟨none, 0⟩, _, pciAll space, returns.bind (Returns.const _), holds,
      pciAll_listing space⟩

end

/-- `pci_enum` ends with the right list exactly if not all of the 65536 functions are to be listed. -/
theorem enumeratesOnce_iff (heap : PciHeap) (space : PciSpace) : EnumeratesOnce heap space ↔
    ∃ bus slot func, PciPlace bus slot func ∧
      ¬ (space.Exists bus slot func ∧ (func = 0 ∨ space.Exists bus slot 0 ∧ space.Multi bus slot)) :=
  enumeratesOnce_iff_length.trans (pciAll_listing space).length_lt_iff

/-- Memory that is cleared. -/
def clearedDevice : PciDevice := ⟨0, 0, 0, 0, 0, 0, 0, 0, 0, 0, 0, 0, 0, 0⟩

def clearedHeap : PciHeap where
  heapAlloc size := List.replicate (size / pciDeviceSize) clearedDevice
  heapRealloc list size :=
    (list ++ List.replicate (size / pciDeviceSize) clearedDevice).take (size / pciDeviceSize)
  heapAlloc_length num := by
    rw [Nat.mul_div_cancel_left num (by decide), List.length_replicate]
  heapRealloc_length list num := by
    rw [Nat.mul_div_cancel_left num (by decide), List.length_take, List.length_append,
      List.length_replicate]
    omega
  heapRealloc_preserves list num le := by
    rw [Nat.mul_div_cancel_left num (by decide), List.take_append, List.take_of_length_le le]
    exact List.prefix_append list _

/-- Where every byte is `0x80`, all functions exist, and function 0 says so. -/
theorem not_enumeratesOnce : ¬ ∀ heap space, EnumeratesOnce heap space := by
  intro enumerates
  have few := enumeratesOnce_iff_length.mp (enumerates clearedHeap fun _ _ _ _ => 0x80)
  obtain ⟨bus, slot, func, -, unlisted⟩ := (pciAll_listing _).length_lt_iff.mp few
  have multi : PciSpace.Multi (fun _ _ _ _ => 0x80) bus slot := by
    simp only [PciSpace.Multi]
    decide
  have everywhere : ∀ func, PciSpace.Exists (fun _ _ _ _ => 0x80) bus slot func := by
    intro func
    simp only [PciSpace.Exists]
    decide
  exact unlisted ⟨everywhere func, .inr ⟨everywhere 0, multi⟩⟩

end Sdx.Core
